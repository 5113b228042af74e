import Mathlib.Data.List.Sort
import Mathlib.Data.Nat.Digits.Lemmas
import Mathlib.Order.Fin.Basic

/-!
# Delimited text

Fields joined by a separator can be told apart exactly when the separator stands in none of them;
fields sorted before they are joined are known up to their order.  Numbers are written in decimal,
which holds no separator but a digit or a minus sign.
-/

namespace OtelStorage.Delimited

open List

/-- A byte. -/
abbrev Byte := Fin 256

instance byte_neZero : NeZero 256 := ⟨by decide⟩

/-- Bytes. -/
abbrev Bytes := List Byte

/-! ## Joined fields -/

section Join

variable {α : Type*}

theorem intercalate_cons (x : α) (a : List α) (l : List (List α)) :
    [x].intercalate (a :: l) = a ++ l.flatMap (x :: ·) := by
  induction l generalizing a with
  | nil => simp [List.intercalate]
  | cons b l ih => rw [intercalate_cons_cons, ih, flatMap_cons]; simp

theorem mem_intercalate {x b : α} {l : List (List α)} (h : b ∈ [x].intercalate l) :
    b = x ∨ ∃ f ∈ l, b ∈ f := by
  cases l with
  | nil => exact absurd h (by simp [List.intercalate])
  | cons a l =>
    rw [intercalate_cons, mem_append, mem_flatMap] at h
    rcases h with h | ⟨f, hf, h⟩
    · exact .inr ⟨a, mem_cons_self, h⟩
    · rcases mem_cons.mp h with h | h
      · exact .inl h
      · exact .inr ⟨f, mem_cons_of_mem a hf, h⟩

/-- **Fields that hold no separator** are known from their join. -/
theorem intercalate_inj [DecidableEq α] {x : α} {l₁ l₂ : List (List α)} (hx₁ : ∀ f ∈ l₁, x ∉ f)
    (hx₂ : ∀ f ∈ l₂, x ∉ f) (h₁ : l₁ ≠ []) (h₂ : l₂ ≠ [])
    (h : [x].intercalate l₁ = [x].intercalate l₂) : l₁ = l₂ := by
  rw [← splitOn_intercalate x hx₁ h₁, h, splitOn_intercalate x hx₂ h₂]

variable [LinearOrder α]

/-- The fields in order. -/
def sorted (l : List α) : List α := l.insertionSort (· ≤ ·)

theorem sorted_perm (l : List α) : (sorted l).Perm l := perm_insertionSort _ l

theorem sorted_eq_iff {l₁ l₂ : List α} : sorted l₁ = sorted l₂ ↔ l₁.Perm l₂ := by
  refine ⟨fun h => (sorted_perm l₁).symm.trans (h ▸ sorted_perm l₂), fun h => ?_⟩
  exact (((sorted_perm l₁).trans h).trans (sorted_perm l₂).symm).eq_of_pairwise
    (fun _ _ _ _ => le_antisymm) (pairwise_insertionSort _ l₁) (pairwise_insertionSort _ l₂)

end Join

/-! ## Decimal numbers -/

/-- A decimal digit. -/
def digit (d : ℕ) : Byte := Fin.ofNat 256 (48 + d)

/-- A natural number in decimal. -/
def formatNat (n : ℕ) : Bytes := if n = 0 then [digit 0] else (Nat.digits 10 n).reverse.map digit

/-- A number in decimal. -/
def formatInt (n : ℤ) : Bytes := if n < 0 then 45 :: formatNat n.natAbs else formatNat n.natAbs

theorem digit_val {d : ℕ} (hd : d < 10) : (digit d : ℕ) = 48 + d := by
  rw [digit, Fin.val_ofNat]
  omega

theorem ofDigits_formatNat (n : ℕ) :
    Nat.ofDigits 10 ((formatNat n).reverse.map fun b : Byte => (b : ℕ) - 48) = n := by
  rw [formatNat]
  split
  · next h => rw [h]; rfl
  rw [← map_reverse, reverse_reverse, map_map]
  have hdigits : (Nat.digits 10 n).map ((fun b : Byte => (b : ℕ) - 48) ∘ digit) =
      Nat.digits 10 n := by
    refine (map_congr_left fun d hd => ?_).trans (map_id _)
    rw [Function.comp_apply, digit_val (Nat.digits_lt_base (by omega) hd)]
    exact Nat.add_sub_cancel_left 48 d
  rw [hdigits, Nat.ofDigits_digits]

theorem formatNat_injective : Function.Injective formatNat := by
  intro m n h
  rw [← ofDigits_formatNat m, h, ofDigits_formatNat]

theorem le_of_mem_formatNat {n : ℕ} {b : Byte} (h : b ∈ formatNat n) : 48 ≤ (b : ℕ) := by
  rw [formatNat] at h
  split at h
  · rw [mem_singleton.mp h, digit_val (by omega)]
  · obtain ⟨d, hd, rfl⟩ := mem_map.mp h
    rw [digit_val (Nat.digits_lt_base (by omega) (mem_reverse.mp hd))]
    omega

theorem le_of_mem_formatInt {n : ℤ} {b : Byte} (h : b ∈ formatInt n) : 45 ≤ (b : ℕ) := by
  rw [formatInt] at h
  split at h
  · rcases mem_cons.mp h with rfl | h
    · decide
    · have := le_of_mem_formatNat h
      omega
  · have := le_of_mem_formatNat h
    omega

theorem minus_cons_ne_formatNat (l : Bytes) (n : ℕ) : 45 :: l ≠ formatNat n := by
  intro h
  have hle := le_of_mem_formatNat (h ▸ (mem_cons_self : (45 : Byte) ∈ 45 :: l))
  exact absurd hle (by decide)

theorem formatInt_injective : Function.Injective formatInt := by
  intro m n h
  rw [formatInt, formatInt] at h
  split at h <;> split at h
  · have := formatNat_injective (List.cons.inj h).2
    omega
  · exact absurd h (minus_cons_ne_formatNat _ _)
  · exact absurd h.symm (minus_cons_ne_formatNat _ _)
  · have := formatNat_injective h
    omega

example : formatInt (-120) = [45, 49, 50, 48] := by decide

end OtelStorage.Delimited
