import Mathlib.Data.List.Pairwise
import Mathlib.Data.List.Sort
import OtelStorage.Foundation.BinarySearch

/-!
# Searching sorted lists

A binary search over a sorted slice stops at the first element not below the target.  In a list
this is where `dropWhile` stops, and a loop that then runs while a bound holds is a `takeWhile`.
The first lemmas here say that neither loses an element the search is for.

A slice kept sorted by a key, with one element a key, is a small map: `insertBy` puts an element in
at its place, or in the place of the one that has its key.  Its lemmas need no sortedness, so they
hold of any list the operations are run on.

Last, `SortFunc` is what a sort that is not stable promises: some permutation, in order.
-/

namespace OtelStorage.SortedList

open List

variable {α : Type*} {p : α → Bool} {l : List α} {a : α}

theorem mem_dropWhile_of_not (ha : a ∈ l) (hp : p a = false) : a ∈ l.dropWhile p := by
  rw [← takeWhile_append_dropWhile (p := p) (l := l)] at ha
  rcases mem_append.mp ha with h | h
  · exact absurd (mem_takeWhile_imp h) (by rw [hp]; exact Bool.false_ne_true)
  · exact h

theorem mem_takeWhile_of_pairwise (hl : l.Pairwise fun a b => p b = true → p a = true)
    (ha : a ∈ l) (hp : p a = true) : a ∈ l.takeWhile p := by
  rw [BinarySearch.takeWhile_eq_filter hl]
  exact mem_filter.mpr ⟨ha, hp⟩

/-- A scan that keeps one of what it met and what it started with. -/
theorem foldl_choice {β : Type*} {f : β → α → β} {g : α → β}
    (h : ∀ b a, f b a = b ∨ f b a = g a) (l : List α) (b : β) :
    l.foldl f b = b ∨ ∃ a ∈ l, l.foldl f b = g a := by
  induction l generalizing b with
  | nil => exact .inl rfl
  | cons a l ih =>
    rw [foldl_cons]
    rcases ih (f b a) with heq | ⟨c, hc, heq⟩
    · rw [heq]
      exact (h b a).imp_right fun hnew => ⟨a, mem_cons_self, hnew⟩
    · exact .inr ⟨c, mem_cons_of_mem a hc, heq⟩

/-! ## Lists keyed and sorted -/

section Keyed

variable {κ : Type*} [LinearOrder κ] {key : α → κ} {xs : List α} {x y : α}

/-- Put `x` in at its place, replacing the element with its key. -/
def insertBy (key : α → κ) (x : α) : List α → List α
  | [] => [x]
  | y :: ys =>
      if key y < key x then y :: insertBy key x ys
      else if key y = key x then x :: ys
      else x :: y :: ys

theorem mem_insertBy_self (x : α) (l : List α) : x ∈ insertBy key x l := by
  induction l with
  | nil => exact mem_singleton.mpr rfl
  | cons y ys ih =>
    rw [insertBy]
    split
    · exact mem_cons_of_mem y ih
    · split <;> exact mem_cons_self

theorem mem_insertBy_of_ne (hy : y ∈ l) (hne : key y ≠ key x) : y ∈ insertBy key x l := by
  induction l with
  | nil => cases hy
  | cons z zs ih =>
    rw [insertBy]
    split
    · rcases mem_cons.mp hy with rfl | hy
      · exact mem_cons_self
      · exact mem_cons_of_mem z (ih hy)
    split
    · next heq =>
      rcases mem_cons.mp hy with rfl | hy
      · exact absurd heq hne
      · exact mem_cons_of_mem x hy
    · exact mem_cons_of_mem x hy

theorem mem_of_mem_insertBy (hy : y ∈ insertBy key x l) : y = x ∨ y ∈ l := by
  induction l with
  | nil => exact .inl (mem_singleton.mp hy)
  | cons z zs ih =>
    rw [insertBy] at hy
    split at hy
    · rcases mem_cons.mp hy with rfl | hy
      · exact .inr mem_cons_self
      · exact (ih hy).imp_right (mem_cons_of_mem z)
    · split at hy
      · exact (mem_cons.mp hy).imp_right (mem_cons_of_mem z)
      · exact mem_cons.mp hy

theorem exists_mem_insertBy {k : κ} :
    (∃ y ∈ insertBy key x l, key y = k) ↔ k = key x ∨ ∃ y ∈ l, key y = k := by
  constructor
  · rintro ⟨y, hy, rfl⟩
    rcases mem_of_mem_insertBy hy with rfl | hy
    · exact .inl rfl
    · exact .inr ⟨y, hy, rfl⟩
  · rintro (rfl | ⟨y, hy, rfl⟩)
    · exact ⟨x, mem_insertBy_self x l, rfl⟩
    · by_cases hne : key y = key x
      · exact ⟨x, mem_insertBy_self x l, hne.symm⟩
      · exact ⟨y, mem_insertBy_of_ne hy hne, rfl⟩

/-- Insert the elements of a list one by one. -/
def insertAll (key : α → κ) (l xs : List α) : List α := xs.foldl (fun l x => insertBy key x l) l

theorem mem_of_mem_insertAll (hy : y ∈ insertAll key l xs) : y ∈ l ∨ y ∈ xs := by
  induction xs generalizing l with
  | nil => exact .inl hy
  | cons x xs ih =>
    rcases ih hy with hy | hy
    · rcases mem_of_mem_insertBy hy with rfl | hy
      · exact .inr mem_cons_self
      · exact .inl hy
    · exact .inr (mem_cons_of_mem x hy)

theorem mem_insertAll_of_forall_ne (hy : y ∈ l) (hne : ∀ x ∈ xs, key y ≠ key x) :
    y ∈ insertAll key l xs := by
  induction xs generalizing l with
  | nil => exact hy
  | cons x xs ih =>
    obtain ⟨hx, hxs⟩ := forall_mem_cons.mp hne
    exact ih (mem_insertBy_of_ne hy hx) hxs

theorem exists_mem_insertAll {k : κ} : (∃ y ∈ insertAll key l xs, key y = k) ↔
    (∃ y ∈ l, key y = k) ∨ ∃ x ∈ xs, key x = k := by
  induction xs generalizing l with
  | nil => simp [insertAll]
  | cons x xs ih =>
    rw [insertAll, foldl_cons, ← insertAll, ih, exists_mem_insertBy, exists_mem_cons_iff]
    constructor
    · rintro ((rfl | h) | h)
      · exact .inr (.inl rfl)
      · exact .inl h
      · exact .inr (.inr h)
    · rintro (h | rfl | h)
      · exact .inl (.inr h)
      · exact .inl (.inl rfl)
      · exact .inr h

theorem mem_insertAll_of_pairwise (hy : y ∈ xs) (hxs : xs.Pairwise fun a b => key a ≠ key b) :
    y ∈ insertAll key l xs := by
  induction xs generalizing l with
  | nil => cases hy
  | cons x xs ih =>
    obtain ⟨hx, hxs⟩ := pairwise_cons.mp hxs
    rcases mem_cons.mp hy with rfl | hy
    · rw [insertAll, foldl_cons, ← insertAll]
      exact mem_insertAll_of_forall_ne (mem_insertBy_self y l) hx
    · exact ih hy hxs

theorem exists_mem_insertAll_of_mem (hx : x ∈ xs) :
    ∃ y ∈ insertAll key l xs, y ∈ xs ∧ key y = key x := by
  induction xs generalizing l x with
  | nil => cases hx
  | cons z zs ih =>
    rw [insertAll, foldl_cons, ← insertAll]
    by_cases h : ∃ y ∈ zs, key y = key x
    · obtain ⟨y, hy, hkey⟩ := h
      obtain ⟨y', hy', hmem, hkey'⟩ := ih hy
      exact ⟨y', hy', mem_cons_of_mem z hmem, hkey'.trans hkey⟩
    have hz : x = z := by
      rcases mem_cons.mp hx with hx | hx
      · exact hx
      · exact absurd ⟨x, hx, rfl⟩ h
    subst hz
    refine ⟨x, mem_insertAll_of_forall_ne (mem_insertBy_self x l) fun y hy hkey => ?_,
      mem_cons_self, rfl⟩
    exact h ⟨y, hy, hkey.symm⟩

theorem pairwise_insertBy (hl : l.Pairwise fun a b => key a < key b) :
    (insertBy key x l).Pairwise fun a b => key a < key b := by
  induction l with
  | nil => exact pairwise_singleton _ _
  | cons y ys ih =>
    obtain ⟨hy, hys⟩ := pairwise_cons.mp hl
    rw [insertBy]
    split
    · next hlt =>
      refine pairwise_cons.mpr ⟨fun z hz => ?_, ih hys⟩
      rcases mem_of_mem_insertBy hz with rfl | hz
      · exact hlt
      · exact hy z hz
    split
    · next heq => exact pairwise_cons.mpr ⟨fun z hz => heq ▸ hy z hz, hys⟩
    · next hnlt hne =>
      have hlt : key x < key y := lt_of_le_of_ne (not_lt.mp hnlt) (Ne.symm hne)
      exact pairwise_cons.mpr ⟨forall_mem_cons.mpr ⟨hlt, fun z hz => hlt.trans (hy z hz)⟩, hl⟩

theorem pairwise_insertAll (hl : l.Pairwise fun a b => key a < key b) :
    (insertAll key l xs).Pairwise fun a b => key a < key b := by
  induction xs generalizing l with
  | nil => exact hl
  | cons x xs ih => exact ih (pairwise_insertBy hl)

end Keyed

/-! ## Sorting -/

/-- A sort by a comparison that may leave elements tied: some permutation of the list, in order. -/
structure SortFunc (α : Type*) (le : α → α → Prop) where
  sort : List α → List α
  perm : ∀ l, (sort l).Perm l
  sorted : ∀ l, (sort l).Pairwise le

/-- The stable sort is one of them. -/
def SortFunc.insertion (le : α → α → Prop) [DecidableRel le] [Std.Total le] [IsTrans α le] :
    SortFunc α le where
  sort := List.insertionSort le
  perm := perm_insertionSort le
  sorted := pairwise_insertionSort le

end OtelStorage.SortedList
