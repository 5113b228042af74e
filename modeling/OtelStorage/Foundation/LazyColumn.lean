import Mathlib.Data.List.Basic

/-!
# Columns kept only from the first entry that matters

A column of entries that mostly are one value, the unit, is not stored until an entry differs from
it.  An absent column stands for as many units as there are rows.

* `entries`: what a column stands for.
* `Fits`: a stored column has one entry a row.
* `ofEntries`: the column that is absent exactly if all entries are the unit.
* `push`: add one entry, filling in the rows before it when the column starts.
-/

namespace OtelStorage.LazyColumn

variable {α : Type*} (unit : α) {l : List α}

/-- The entries a column of `n` rows stands for. -/
def entries (n : ℕ) (c : Option (List α)) : List α := c.getD (List.replicate n unit)

/-- A column that is stored has an entry for every row. -/
def Fits (n : ℕ) (c : Option (List α)) : Prop := ∀ l, c = some l → l.length = n

theorem Fits.none (n : ℕ) : Fits n (none : Option (List α)) := nofun

theorem fits_some {n : ℕ} : Fits n (some l) ↔ l.length = n :=
  ⟨fun h => h l rfl, fun h _ hm => Option.some.inj hm ▸ h⟩

@[simp] theorem entries_none (n : ℕ) : entries unit n none = List.replicate n unit := rfl

theorem length_entries {n : ℕ} {c : Option (List α)} (h : Fits n c) :
    (entries unit n c).length = n := by
  cases c with
  | none => exact List.length_replicate
  | some l => exact h l rfl

variable [DecidableEq α]

/-- The column of some entries, absent if all are the unit. -/
def ofEntries (l : List α) : Option (List α) := if ∀ a ∈ l, a = unit then none else some l

/-- Add an entry after `n` rows. -/
def push (c : Option (List α)) (n : ℕ) (a : α) : Option (List α) :=
  match c with
  | some l => some (l ++ [a])
  | none => if a = unit then none else some (List.replicate n unit ++ [a])

theorem ofEntries_eq_none : ofEntries unit l = none ↔ ∀ a ∈ l, a = unit := by
  rw [ofEntries]
  split
  · next h => exact ⟨fun _ => h, fun _ => rfl⟩
  · next h => exact ⟨fun hc => absurd hc (Option.some_ne_none l), fun hc => absurd hc h⟩

/-- **Entries pushed one by one are stored from the first that is not the unit.** -/
theorem push_ofEntries (l : List α) (a : α) :
    push unit (ofEntries unit l) l.length a = ofEntries unit (l ++ [a]) := by
  have hiff : (∀ b ∈ l ++ [a], b = unit) ↔ (∀ b ∈ l, b = unit) ∧ a = unit := by
    rw [List.forall_mem_append, List.forall_mem_singleton]
  by_cases hl : ∀ b ∈ l, b = unit
  · have hrep : List.replicate l.length unit = l := (List.eq_replicate_iff.mpr ⟨rfl, hl⟩).symm
    by_cases ha : a = unit
    · rw [ofEntries, if_pos hl, ofEntries, if_pos (hiff.mpr ⟨hl, ha⟩), push, if_pos ha]
    · rw [ofEntries, if_pos hl, ofEntries, if_neg fun h => ha (hiff.mp h).2, push, if_neg ha, hrep]
  · rw [ofEntries, if_neg hl, ofEntries, if_neg fun h => hl (hiff.mp h).1, push]

end OtelStorage.LazyColumn
