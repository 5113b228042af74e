import Mathlib.Algebra.Order.Ring.Int

/-!
# Multiples of a width

`floorTo` rounds an integer down to a multiple of a width.  Code that does so with 64-bit integers
computes `wrap (floorTo x w)`, which is the multiple while that is a 64-bit integer.
-/

namespace OtelStorage.Grid

/-- The 64-bit integer that arithmetic without overflow checks leaves. -/
def wrap (x : ℤ) : ℤ := x.bmod (2 ^ 64)

theorem wrap_eq {x : ℤ} (hlo : -2 ^ 63 ≤ x) (hhi : x < 2 ^ 63) : wrap x = x :=
  Int.bmod_eq_of_le hlo hhi

/-- The multiple of the width at or before an integer. -/
def floorTo (x w : ℤ) : ℤ := x - x % w

variable {x y w : ℤ}

theorem dvd_floorTo (x w : ℤ) : w ∣ floorTo x w := Int.dvd_self_sub_emod

theorem floorTo_eq_mul (x w : ℤ) : floorTo x w = w * (x / w) := by
  have := Int.emod_add_mul_ediv x w
  rw [floorTo]
  omega

theorem floorTo_le (hw : 0 < w) : floorTo x w ≤ x :=
  Int.sub_le_self x (Int.emod_nonneg x hw.ne')

theorem lt_floorTo_add (hw : 0 < w) : x < floorTo x w + w := by
  have := Int.emod_lt_of_pos x hw
  rw [floorTo]
  omega

theorem floorTo_nonneg (hw : 0 < w) (hx : 0 ≤ x) : 0 ≤ floorTo x w := by
  rw [floorTo_eq_mul]
  exact Int.mul_nonneg hw.le (Int.ediv_nonneg hx hw.le)

theorem floorTo_mono (hw : 0 < w) (h : x ≤ y) : floorTo x w ≤ floorTo y w := by
  rw [floorTo_eq_mul, floorTo_eq_mul]
  exact Int.mul_le_mul_of_nonneg_left (Int.ediv_le_ediv hw h) hw.le

theorem floorTo_lt_iff {b : ℤ} (hw : 0 < w) (hb : w ∣ b) : floorTo x w < b ↔ x < b := by
  refine ⟨fun h => ?_, (floorTo_le hw).trans_lt⟩
  obtain ⟨k, hk⟩ := dvd_floorTo x w
  obtain ⟨m, rfl⟩ := hb
  rw [hk] at h
  have hkm : k + 1 ≤ m := Int.lt_of_mul_lt_mul_left h hw.le
  calc x < floorTo x w + w := lt_floorTo_add hw
    _ = w * (k + 1) := by rw [hk, Int.mul_add, Int.mul_one]
    _ ≤ w * m := Int.mul_le_mul_of_nonneg_left hkm hw.le

theorem floorTo_floorTo {W : ℤ} (hw : 0 < w) (h : w ∣ W) :
    floorTo (floorTo x w) W = floorTo x W := by
  obtain ⟨k, rfl⟩ := h
  rw [floorTo_eq_mul _ (w * k), floorTo_eq_mul _ (w * k), floorTo_eq_mul x w,
    ← Int.ediv_ediv_of_nonneg hw.le, ← Int.ediv_ediv_of_nonneg hw.le,
    Int.mul_ediv_cancel_left _ hw.ne']

/-- Rounding down does not wrap while the multiple is in range. -/
theorem wrap_floorTo (hw : 0 < w) (hlo : -2 ^ 63 ≤ floorTo x w) (hx : x < 2 ^ 63) :
    wrap (floorTo x w) = floorTo x w := wrap_eq hlo ((floorTo_le hw).trans_lt hx)

end OtelStorage.Grid
