import Mathlib.Data.List.Induction
import Mathlib.Data.List.Nodup

/-!
# Each entry once, in the order of first occurrence

A list built by appending what is not in it yet.  `appendNew p out l` appends to `out` the entries
of `l` that qualify; it has them all (`mem_appendNew`), once (`nodup_appendNew`), and what comes
first among some of them comes first still (`head?_filter_appendNew`).
-/

namespace OtelStorage.FirstOccurrence

open List

variable {α : Type*} [DecidableEq α] {p : α → Bool} {out l : List α}

/-- The entries of a list that qualify, each once, behind some that are there. -/
def appendNew (p : α → Bool) (out l : List α) : List α :=
  l.foldl (fun out a => if p a && !out.contains a then out ++ [a] else out) out

theorem appendNew_snoc (p : α → Bool) (out l : List α) (a : α) :
    appendNew p out (l ++ [a]) = if p a && !(appendNew p out l).contains a
      then appendNew p out l ++ [a] else appendNew p out l := by
  rw [appendNew, foldl_append, foldl_cons, foldl_nil, ← appendNew]

theorem mem_appendNew {a : α} : a ∈ appendNew p out l ↔ a ∈ out ∨ a ∈ l ∧ p a = true := by
  induction l using List.reverseRecOn with
  | nil => exact ⟨.inl, fun h => h.resolve_right fun h => absurd h.1 not_mem_nil⟩
  | append_singleton l b ih =>
    rw [appendNew_snoc, mem_append, mem_singleton, or_and_right, ← or_assoc, ← ih]
    split
    · next hb =>
      rw [mem_append, mem_singleton]
      exact or_congr_right ⟨fun h => ⟨h, h ▸ (Bool.and_eq_true_iff.mp hb).1⟩, And.left⟩
    · next hb =>
      rw [iff_self_or]
      rintro ⟨rfl, hp⟩
      rwa [hp, Bool.true_and, Bool.not_eq_true', Bool.not_eq_false, contains_iff_mem] at hb

theorem nodup_appendNew (hout : out.Nodup) (l : List α) : (appendNew p out l).Nodup := by
  induction l using List.reverseRecOn with
  | nil => exact hout
  | append_singleton l b ih =>
    rw [appendNew_snoc]
    split
    · next hb =>
      have hnot : b ∉ appendNew p out l := by
        have := (Bool.and_eq_true_iff.mp hb).2
        rwa [Bool.not_eq_true', ← Bool.not_eq_true, contains_iff_mem] at this
      exact nodup_append.mpr ⟨ih, nodup_singleton b, fun a ha c hc hac =>
        hnot (mem_singleton.mp hc ▸ hac ▸ ha)⟩
    · exact ih

theorem head?_filter_appendNew (p q : α → Bool) (l : List α) :
    ((appendNew p [] l).filter q).head? = ((l.filter p).filter q).head? := by
  induction l using List.reverseRecOn with
  | nil => rfl
  | append_singleton l b ih =>
    rw [appendNew_snoc, filter_append, filter_append, List.head?_append, ← ih]
    by_cases hp : p b = true
    · by_cases hmem : b ∈ appendNew p [] l
      · -- a repeated entry comes after its first occurrence
        rw [if_neg (by simp [hmem]), filter_cons_of_pos hp, filter_nil]
        by_cases hq : q b = true
        · have hne : (appendNew p [] l).filter q ≠ [] :=
            ne_nil_of_mem (mem_filter.mpr ⟨hmem, hq⟩)
          obtain ⟨c, rest, hc⟩ := exists_cons_of_ne_nil hne
          rw [hc]
          rfl
        · rw [filter_cons_of_neg hq, filter_nil, List.head?_nil, Option.or_none]
      · rw [if_pos (by simp [hp, hmem]), filter_append, List.head?_append,
          filter_cons_of_pos hp, filter_nil]
    · rw [if_neg (by simp [hp]), filter_cons_of_neg hp, filter_nil, filter_nil,
        List.head?_nil, Option.or_none]

theorem appendNew_eq_self (hnodup : l.Nodup) (hp : ∀ a ∈ l, p a = true) : appendNew p [] l = l := by
  induction l using List.reverseRecOn with
  | nil => rfl
  | append_singleton l b ih =>
    obtain ⟨hl, -, hdisj⟩ := nodup_append.mp hnodup
    have hpb : p b = true := hp b (mem_append_right _ mem_cons_self)
    have hb : b ∉ l := fun h => hdisj b h b mem_cons_self rfl
    rw [appendNew_snoc, ih hl fun a ha => hp a (mem_append_left _ ha), if_pos (by simp [hpb, hb])]

end OtelStorage.FirstOccurrence
