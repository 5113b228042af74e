import Mathlib.Data.List.Pairwise
import Mathlib.Data.Set.Basic

/-!
# Sets of numbers written as runs

A finite set of numbers that is mostly contiguous is stored as the list of its maximal runs.
This file holds what such a list is and the one fact every containment test by sweeping rests
on: a contiguous stretch inside the union of *spread* runs --- runs no two of which touch ---
lies inside a single one of them.
-/

namespace OtelStorage.Runs

open List

/-- A run of consecutive numbers, from `lo` to `hi` inclusive. -/
structure Run where
  lo : ℕ
  hi : ℕ

/-- A number lies in a run. -/
def Run.Holds (r : Run) (x : ℕ) : Prop := r.lo ≤ x ∧ x ≤ r.hi

/-- A number lies in one of the runs. -/
def Covers (rs : List Run) (x : ℕ) : Prop := ∃ r ∈ rs, r.Holds x

/-- The runs ascend, and at least one number separates each from the next. -/
def Spread (rs : List Run) : Prop := rs.Pairwise fun r s => r.hi + 1 < s.lo

variable {rs ss : List Run} {r s : Run} {x : ℕ}

theorem covers_append : Covers (rs ++ ss) x ↔ Covers rs x ∨ Covers ss x := by
  simp only [Covers, mem_append, or_and_right, exists_or]

theorem covers_cons : Covers (r :: rs) x ↔ r.Holds x ∨ Covers rs x := by
  simp only [Covers, mem_cons, or_and_right, exists_or, exists_eq_left]

theorem not_covers_nil : ¬ Covers [] x := by
  simp [Covers]

theorem Run.holds_grow (hle : r.lo ≤ s.lo) (htouch : s.lo - 1 ≤ r.hi) :
    (Run.mk r.lo (max r.hi s.hi)).Holds x ↔ r.Holds x ∨ s.Holds x := by
  simp only [Run.Holds]
  omega

theorem Run.holds_inter :
    (Run.mk (max r.lo s.lo) (min r.hi s.hi)).Holds x ↔ r.Holds x ∧ s.Holds x := by
  simp only [Run.Holds]
  omega

/-- Distinct runs of a spread list do not touch, whichever comes first. -/
theorem Spread.eq_or_apart (h : Spread rs) (hr : r ∈ rs) (hs : s ∈ rs) :
    r = s ∨ r.hi + 1 < s.lo ∨ s.hi + 1 < r.lo := by
  have hsymm : Std.Symm fun r s : Run => r = s ∨ r.hi + 1 < s.lo ∨ s.hi + 1 < r.lo :=
    ⟨fun _ _ h => h.imp Eq.symm Or.symm⟩
  exact @Pairwise.forall_of_forall _ _ _ hsymm (fun _ _ => .inl rfl)
    (h.imp fun hlt => .inr (.inl hlt)) r hr s hs

/-- **A stretch inside the union of spread runs lies inside one of them.**  The run holding the
low end must reach the high end: the number just past it would otherwise be held by a run that
touches it. -/
theorem Spread.exists_run (h : Spread rs) {lo hi : ℕ} (hle : lo ≤ hi)
    (hc : ∀ x, lo ≤ x → x ≤ hi → Covers rs x) : ∃ r ∈ rs, r.lo ≤ lo ∧ hi ≤ r.hi := by
  obtain ⟨r, hr, hlo, hlo'⟩ := hc lo le_rfl hle
  refine ⟨r, hr, hlo, ?_⟩
  by_contra hlt
  obtain ⟨s, hs, hs1, hs2⟩ := hc (r.hi + 1) (by omega) (by omega)
  rcases h.eq_or_apart hr hs with rfl | hap | hap
  · omega
  · omega
  · omega

theorem Spread.lo_le (h : Spread (r :: rs)) (hr : r.lo ≤ r.hi) (hx : Covers (r :: rs) x) :
    r.lo ≤ x := by
  obtain ⟨s, hs, hlo, -⟩ := hx
  rcases mem_cons.mp hs with rfl | hs
  · exact hlo
  · have := (pairwise_cons.mp h).1 s hs
    omega

theorem Spread.covers_tail_iff (h : Spread (r :: rs)) :
    Covers rs x ↔ Covers (r :: rs) x ∧ r.hi < x := by
  rw [covers_cons]
  constructor
  · rintro ⟨s, hs, hlo, hhi⟩
    have := (pairwise_cons.mp h).1 s hs
    exact ⟨.inr ⟨s, hs, hlo, hhi⟩, by omega⟩
  · rintro ⟨⟨-, hhi⟩ | hcov, hlt⟩
    · omega
    · exact hcov

theorem Spread.head_hi_le (hss : Spread (s :: ss)) (hr : r.lo ≤ r.hi) (hlo : s.lo = r.lo)
    (hs : s.lo ≤ s.hi) (h : ∀ x, Covers (r :: rs) x → Covers (s :: ss) x) : r.hi ≤ s.hi := by
  obtain ⟨t, ht, htlo, hthi⟩ := hss.exists_run hr fun x hx hx' =>
    h x (covers_cons.mpr (.inl ⟨hx, hx'⟩))
  rcases mem_cons.mp ht with rfl | ht
  · exact hthi
  · have := (pairwise_cons.mp hss).1 t ht
    omega

/-- **Spread runs are known from the numbers they cover.** -/
theorem Spread.ext (hrs : Spread rs) (hss : Spread ss)
    (hr : ∀ r ∈ rs, r.lo ≤ r.hi) (hs : ∀ s ∈ ss, s.lo ≤ s.hi) (h : ∀ x, Covers rs x ↔ Covers ss x) :
    rs = ss := by
  induction rs generalizing ss with
  | nil =>
    cases ss with
    | nil => rfl
    | cons s ss =>
      have hcov : Covers (s :: ss) s.lo := ⟨s, mem_cons_self, le_rfl, hs s mem_cons_self⟩
      exact absurd ((h s.lo).mpr hcov) not_covers_nil
  | cons r rs ih =>
    obtain ⟨hr₁, hr₂⟩ := forall_mem_cons.mp hr
    have hcovr : Covers (r :: rs) r.lo := ⟨r, mem_cons_self, le_rfl, hr₁⟩
    cases ss with
    | nil => exact absurd ((h r.lo).mp hcovr) not_covers_nil
    | cons s ss =>
      obtain ⟨hs₁, hs₂⟩ := forall_mem_cons.mp hs
      have hcovs : Covers (s :: ss) s.lo := ⟨s, mem_cons_self, le_rfl, hs₁⟩
      -- both lists start at the least number covered, and their first runs reach equally far
      have hlo : s.lo = r.lo :=
        le_antisymm (hss.lo_le hs₁ ((h _).mp hcovr)) (hrs.lo_le hr₁ ((h _).mpr hcovs))
      have hhi : s.hi = r.hi :=
        le_antisymm (hrs.head_hi_le hs₁ hlo.symm hr₁ fun x => (h x).mpr)
          (hss.head_hi_le hr₁ hlo hs₁ fun x => (h x).mp)
      have htail : rs = ss := by
        refine ih hrs.of_cons hss.of_cons hr₂ hs₂ fun x => ?_
        rw [hrs.covers_tail_iff, hss.covers_tail_iff, h, hhi]
      obtain ⟨lo, hi⟩ := r
      obtain ⟨lo', hi'⟩ := s
      exact congrArg₂ List.cons (by rw [Run.mk.injEq]; exact ⟨hlo.symm, hhi.symm⟩) htail

end OtelStorage.Runs
