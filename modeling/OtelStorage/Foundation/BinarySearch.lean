import Mathlib.Data.List.TakeWhile
import Mathlib.Data.List.Pairwise

/-!
# Binary search for a boundary

`search below lo hi` halves `[lo, hi)` until it meets the first index that is not below.  On a list
along which the predicate once false stays false, the boundary of the whole list is the length of
its longest prefix where the predicate holds (`bound_eq`).
-/

namespace OtelStorage.BinarySearch

open List

/-- The first index of `[lo, hi)` that is not below, when being below is a prefix. -/
def search (below : ℕ → Bool) (lo hi : ℕ) : ℕ :=
  if lo < hi then
    let mid := (lo + hi) / 2
    if below mid then search below (mid + 1) hi else search below lo mid
  else lo
termination_by hi - lo
decreasing_by all_goals omega

theorem search_spec (below : ℕ → Bool) (n : ℕ)
    (h : ∀ i j, i ≤ j → j < n → below j = true → below i = true) :
    ∀ lo hi, lo ≤ hi → hi ≤ n → (∀ i < lo, below i = true) →
      (∀ i, hi ≤ i → i < n → below i = false) →
      search below lo hi ≤ n ∧ (∀ i < search below lo hi, below i = true) ∧
        ∀ i, search below lo hi ≤ i → i < n → below i = false := by
  intro lo hi
  fun_induction search below lo hi with
  | case1 lo hi hlt mid hmid ih =>
    intro _ hn hlow hhigh
    refine ih (by omega) hn (fun i hi' => ?_) hhigh
    exact h i mid (by omega) (by omega) hmid
  | case2 lo hi hlt mid hmid ih =>
    intro _ hn hlow hhigh
    refine ih (by omega) (by omega) hlow fun i hi' hi'n => ?_
    exact Bool.eq_false_iff.mpr fun hb => hmid (h mid i (by omega) hi'n hb)
  | case3 lo hi hlt =>
    intro _ hn hlow hhigh
    exact ⟨by omega, hlow, fun i hi' => hhigh i (by omega)⟩

variable {α : Type*} {p : α → Bool} {l : List α}

/-- The boundary of the prefix of `s` where `p` holds. -/
def bound (p : α → Bool) (s : List α) : ℕ := search (fun i => s[i]?.any p) 0 s.length

theorem bound_map {β : Type*} (f : β → α) (p : α → Bool) (l : List β) :
    bound p (l.map f) = bound (fun b => p (f b)) l := by
  have hany : (fun i : ℕ => (l.map f)[i]?.any p) = fun i : ℕ => l[i]?.any fun b => p (f b) := by
    funext i
    rw [List.getElem?_map, Option.any_map]
  rw [bound, bound, hany, length_map]

theorem length_takeWhile_eq {s : List α} {k : ℕ} (hk : k ≤ s.length)
    (hlow : ∀ i < k, s[i]?.any p = true) (hend : k < s.length → s[k]?.any p = false) :
    (s.takeWhile p).length = k := by
  induction s generalizing k with
  | nil => exact (Nat.le_zero.mp hk).symm
  | cons a s ih =>
    cases k with
    | zero =>
      have hp : p a = false := hend (Nat.succ_pos _)
      rw [takeWhile_cons_of_neg (Bool.eq_false_iff.mp hp)]
      rfl
    | succ k =>
      have hp : p a = true := hlow 0 (Nat.succ_pos k)
      rw [takeWhile_cons_of_pos hp, length_cons, ih (Nat.le_of_succ_le_succ hk)]
      · exact fun i hi => hlow (i + 1) (Nat.succ_lt_succ hi)
      · exact fun hlt => hend (Nat.succ_lt_succ hlt)

section

variable {s : List α} (h : s.Pairwise fun a b => p b = true → p a = true)

include h

/-- **The boundary is the length of the longest prefix where `p` holds**, when `p` once false stays
false. -/
theorem bound_eq : bound p s = (s.takeWhile p).length := by
  have hmono : ∀ i j, i ≤ j → j < s.length → (s[j]?.any p) = true → (s[i]?.any p) = true := by
    intro i j hij hj hp
    rcases hij.eq_or_lt with rfl | hlt
    · exact hp
    · rw [List.getElem?_eq_getElem hj] at hp
      rw [List.getElem?_eq_getElem (hlt.trans hj)]
      exact pairwise_iff_getElem.mp h i j _ _ hlt hp
  obtain ⟨hle, hlow, hhigh⟩ := search_spec _ s.length hmono 0 s.length (Nat.zero_le _) le_rfl
    (fun i hi => absurd hi (Nat.not_lt_zero i)) (fun i hi hn => absurd hn (Nat.not_lt.mpr hi))
  exact (length_takeWhile_eq hle hlow (hhigh _ le_rfl)).symm

theorem take_bound : s.take (bound p s) = s.takeWhile p := by
  rw [bound_eq h]
  exact (prefix_iff_eq_take.mp (List.takeWhile_prefix p)).symm

theorem drop_bound : s.drop (bound p s) = s.dropWhile p := by
  have hsplit : s.takeWhile p ++ s.dropWhile p = s.take (bound p s) ++ s.drop (bound p s) := by
    rw [takeWhile_append_dropWhile, take_append_drop]
  rw [take_bound h] at hsplit
  exact (append_cancel_left hsplit).symm

end

/-! ## Prefixes where a predicate holds -/

theorem drop_takeWhile_length (p q : α → Bool) (l : List α) :
    (l.takeWhile q).drop (l.takeWhile p).length = (l.takeWhile q).dropWhile p := by
  induction l with
  | nil => rfl
  | cons a l ih =>
    cases hq : q a with
    | false =>
      have hnil : (a :: l).takeWhile q = [] := takeWhile_cons_of_neg (by simp [hq])
      rw [hnil, drop_nil, dropWhile_nil]
    | true =>
      rw [takeWhile_cons_of_pos hq]
      cases hp : p a with
      | false =>
        rw [takeWhile_cons_of_neg (by simp [hp]), dropWhile_cons_of_neg (by simp [hp])]
        rfl
      | true =>
        rw [takeWhile_cons_of_pos hp, dropWhile_cons_of_pos hp, length_cons, drop_succ_cons, ih]

theorem takeWhile_eq_filter (h : l.Pairwise fun a b => p b = true → p a = true) :
    l.takeWhile p = l.filter p := by
  induction l with
  | nil => rfl
  | cons a l ih =>
    obtain ⟨ha, hl⟩ := pairwise_cons.mp h
    cases hp : p a with
    | true => rw [takeWhile_cons_of_pos hp, filter_cons_of_pos hp, ih hl]
    | false =>
      have hnone : ∀ b ∈ l, ¬ p b = true := fun b hb hpb =>
        Bool.false_ne_true (hp.symm.trans (ha b hb hpb))
      rw [takeWhile_cons_of_neg (by simp [hp]), filter_cons_of_neg (by simp [hp]),
        filter_eq_nil_iff.mpr hnone]

theorem dropWhile_eq_filter (h : l.Pairwise fun a b => p b = true → p a = true) :
    l.dropWhile p = l.filter fun a => !p a := by
  induction l with
  | nil => rfl
  | cons a l ih =>
    obtain ⟨ha, hl⟩ := pairwise_cons.mp h
    cases hp : p a with
    | true => rw [dropWhile_cons_of_pos hp, filter_cons_of_neg (by simp [hp]), ih hl]
    | false =>
      have hall : ∀ b ∈ l, (!p b) = true := fun b hb => by
        rw [Bool.not_eq_true']
        exact Bool.eq_false_iff.mpr fun hpb => Bool.false_ne_true (hp.symm.trans (ha b hb hpb))
      rw [dropWhile_cons_of_neg (by simp [hp]), filter_cons_of_pos (by simp [hp]),
        filter_eq_self.mpr hall]

end OtelStorage.BinarySearch
