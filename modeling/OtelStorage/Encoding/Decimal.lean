import Mathlib.Data.Nat.Size
import Mathlib.Data.List.Forall2
import Mathlib.Data.List.MinMax
import Mathlib.Order.Nat
import Mathlib.Algebra.Order.Ring.Int
import OtelStorage.Foundation.Grid

/-!
# Columns of decimal floats

The mantissas of a decimal column (`encoding/chunk/decimal.go`): the floats of a column share an
exponent, and their scaled values are written as the first one and the differences.  Below 64 bits
of precision `nearestDelta` clears the low bits of each difference, as many as the value has beyond
the precision.

The differences are taken between the values themselves, not from what the decoder will have summed
so far, so what one row loses is lost for all rows after it.  A row loses the remainder of its
difference by the cleared field, and a column is decoded within the largest such field exactly while
the remainders, with their signs, add up to less (`within_clearedBits_iff`).
-/

namespace OtelStorage.Encoding
namespace Decimal

open Grid List

/-! ## The codec -/

/-- `64 - bits.LeadingZeros64(|origin|)`. -/
def originBits (origin : ℤ) : ℕ := origin.natAbs.size

/-- The low `tz` bits of the magnitude of `d` cleared. -/
def clearLow (d : ℤ) (tz : ℕ) : ℤ :=
  let magnitude : ℤ := ((d.natAbs >>> tz) <<< tz : ℕ)
  if d < 0 then -magnitude else magnitude

/-- The difference to write and the width to compare the next one with.  A width that jumps by more
than four is taken for a counter reset: the difference is written whole, the width nudged by two. -/
def nearestDelta (d origin : ℤ) (precisionBits prevTZ : ℕ) : ℤ × ℕ :=
  if d = 0 then (0, prevTZ)
  else if originBits origin ≤ precisionBits then (d, prevTZ)
  else
    let tz := originBits origin - precisionBits
    if prevTZ + 4 < tz then (d, prevTZ + 2)
    else if tz + 4 < prevTZ then (d, prevTZ - 2)
    else (clearLow d tz, tz)

/-- One turn of the loop of `encodeFloatsDecimal`. -/
def delta (precisionBits prevTZ : ℕ) (prev v : ℤ) : ℤ × ℕ :=
  let d := wrap (v - prev)
  if precisionBits < 64 ∧ d ≠ 0 then nearestDelta d v precisionBits prevTZ else (d, prevTZ)

/-- The differences written along a column. -/
def deltas (precisionBits : ℕ) : ℕ → ℤ → List ℤ → List ℤ
  | _, _, [] => []
  | prevTZ, prev, v :: vs =>
    let out := delta precisionBits prevTZ prev v
    out.1 :: deltas precisionBits out.2 v vs

/-- The varints of `encodeFloatsDecimal`: the first mantissa and the differences. -/
def encodeScaled (precisionBits : ℕ) : List ℤ → List ℤ
  | [] => []
  | v₀ :: vs => v₀ :: deltas precisionBits 0 v₀ vs

/-- The values the loop of `DecodeFloatsDecimal` has summed, one for each difference. -/
def sums : ℤ → List ℤ → List ℤ
  | _, [] => []
  | cur, d :: ds => wrap (cur + d) :: sums (wrap (cur + d)) ds

/-- The mantissas read back. -/
def decodeScaled : List ℤ → List ℤ
  | [] => []
  | v₀ :: ds => v₀ :: sums v₀ ds

/-! ## What is lost -/

/-- The number of low bits `nearestDelta` clears. -/
def cleared (d origin : ℤ) (precisionBits prevTZ : ℕ) : ℕ :=
  let tz := originBits origin - precisionBits
  if d = 0 ∨ prevTZ + 4 < tz ∨ tz + 4 < prevTZ then 0 else tz

/-- The widths cleared along a column. -/
def clearedWidths (precisionBits : ℕ) : ℕ → ℤ → List ℤ → List ℕ
  | _, _, [] => []
  | prevTZ, prev, v :: vs =>
    cleared (v - prev) v precisionBits prevTZ ::
      clearedWidths precisionBits (delta precisionBits prevTZ prev v).2 v vs

/-- The largest number of low bits cleared in the column. -/
def clearedBits (precisionBits : ℕ) : List ℤ → ℕ
  | [] => 0
  | v₀ :: vs => (clearedWidths precisionBits 0 v₀ vs).foldr max 0

/-- The differences of neighbours, from a previous value on. -/
def differencesFrom : ℤ → List ℤ → List ℤ
  | _, [] => []
  | prev, v :: vs => (v - prev) :: differencesFrom v vs

/-- The differences of neighbours. -/
def differences : List ℤ → List ℤ
  | [] => []
  | v₀ :: vs => differencesFrom v₀ vs

/-- The remainders of the differences by the cleared fields, with the signs of the differences. -/
def remaindersFrom (precisionBits prevTZ : ℕ) (prev : ℤ) (vs : List ℤ) : List ℤ :=
  zipWith (fun d w => d.tmod (2 ^ w)) (differencesFrom prev vs)
    (clearedWidths precisionBits prevTZ prev vs)

/-- The remainders along a column. -/
def remainders (precisionBits : ℕ) : List ℤ → List ℤ
  | [] => []
  | v₀ :: vs => remaindersFrom precisionBits 0 v₀ vs

theorem wrap_eq_self {x : ℤ} (h : |x| < 2 ^ 63) : wrap x = x := by
  rw [abs_lt] at h
  exact wrap_eq h.1.le h.2

theorem sub_clearLow (d : ℤ) (tz : ℕ) : d - clearLow d tz = d.tmod (2 ^ tz) := by
  have hdrop : (d.natAbs >>> tz) <<< tz + d.natAbs % 2 ^ tz = d.natAbs := by
    rw [Nat.shiftLeft_eq, Nat.shiftRight_eq_div_pow]
    exact Nat.div_add_mod' _ _
  have hmod : (d.natAbs : ℤ).tmod (2 ^ tz) = (d.natAbs % 2 ^ tz : ℕ) := by
    rw [Int.natCast_mod, Int.tmod_eq_emod_of_nonneg (Int.natCast_nonneg _)]
    norm_cast
  rw [clearLow]
  split
  · next hd =>
    have hneg : d = -(d.natAbs : ℤ) := by omega
    rw [hneg, Int.neg_tmod, Int.natAbs_neg, Int.natAbs_natCast, hmod]
    omega
  · next hd =>
    have hnat : d = (d.natAbs : ℤ) := by omega
    rw [hnat, Int.natAbs_natCast, hmod]
    omega

theorem abs_tmod_le {w b : ℕ} (h : w ≤ b) (d : ℤ) : |d.tmod (2 ^ w)| ≤ (d.natAbs % 2 ^ b : ℕ) := by
  have hnat : (d.tmod (2 ^ w)).natAbs = d.natAbs % 2 ^ w := by
    rw [Int.natAbs_tmod, Int.natAbs_pow]
    rfl
  rw [Int.abs_eq_natAbs, hnat, ← Nat.mod_mod_of_dvd d.natAbs (Nat.pow_dvd_pow 2 h)]
  exact_mod_cast Nat.mod_le _ _

theorem abs_tmod_lt {w b : ℕ} (h : w ≤ b) (d : ℤ) : |d.tmod (2 ^ w)| < 2 ^ b := by
  refine (abs_tmod_le h d).trans_lt ?_
  exact_mod_cast Nat.mod_lt d.natAbs (Nat.two_pow_pos b)

theorem originBits_le {v : ℤ} (h : |v| < 2 ^ 62) : originBits v ≤ 62 := by
  rw [Int.abs_eq_natAbs] at h
  rw [originBits, Nat.size_le]
  omega

variable {precisionBits prevTZ : ℕ} {prev v : ℤ} {vs : List ℤ}

theorem cleared_le (hpos : 1 ≤ precisionBits) (hv : |v| < 2 ^ 62) (d : ℤ) :
    cleared d v precisionBits prevTZ ≤ 61 := by
  have := originBits_le hv
  simp only [cleared]
  split <;> omega

theorem sub_nearestDelta {d : ℤ} (hd : d ≠ 0) :
    d - (nearestDelta d v precisionBits prevTZ).1 =
      d.tmod (2 ^ cleared d v precisionBits prevTZ) := by
  rw [nearestDelta, if_neg hd, cleared]
  dsimp only
  split
  · next hbits =>
    have hzero : originBits v - precisionBits = 0 := by omega
    rw [hzero]
    simp
  split
  · next hup => simp [hup]
  split
  · next hdown => simp [hdown]
  next _ hup hdown =>
    rw [if_neg (by tauto)]
    exact sub_clearLow d _

theorem sub_delta (hprev : |prev| < 2 ^ 62) (hv : |v| < 2 ^ 62) :
    v - prev - (delta precisionBits prevTZ prev v).1 =
      (v - prev).tmod (2 ^ cleared (v - prev) v precisionBits prevTZ) := by
  have hwrap : wrap (v - prev) = v - prev := wrap_eq_self (by rw [abs_lt] at *; omega)
  simp only [delta, hwrap]
  split
  · next h => exact sub_nearestDelta h.2
  · next h =>
    -- nothing is cleared off no difference, nor at full precision
    rw [sub_self]
    by_cases hd : v - prev = 0
    · rw [hd, Int.zero_tmod]
    · have hbits := originBits_le hv
      have hzero : cleared (v - prev) v precisionBits prevTZ = 0 := by
        simp only [cleared]
        split <;> omega
      rw [hzero, pow_zero, Int.tmod_one]

/-! ## The column -/

/-- Whether every decoded value is less than `2 ^ b` away from the scaled one. -/
def Within (b : ℕ) (scaled decoded : List ℤ) : Prop :=
  Forall₂ (fun v r => |v - r| < 2 ^ b) scaled decoded

instance (b : ℕ) (scaled decoded : List ℤ) : Decidable (Within b scaled decoded) :=
  inferInstanceAs (Decidable (Forall₂ _ _ _))

/-- The decoder stands at the previous value less what has been lost, and as long as that is less
than a field of 61 bits no sum wraps. -/
theorem within_sums_iff {b : ℕ} (hb : b ≤ 61)
    (vs : List ℤ) (lost : ℤ) (hlost : |lost| < 2 ^ b) (hprev : |prev| < 2 ^ 62)
    (hvs : ∀ v ∈ vs, |v| < 2 ^ 62) (hcl : ∀ c ∈ clearedWidths precisionBits prevTZ prev vs, c ≤ b) :
    Within b vs (sums (prev - lost) (deltas precisionBits prevTZ prev vs)) ↔
      ∀ n, |lost + ((remaindersFrom precisionBits prevTZ prev vs).take n).sum| < 2 ^ b := by
  induction vs generalizing prevTZ prev lost with
  | nil => simp [Within, sums, deltas, remaindersFrom, differencesFrom, hlost]
  | cons v vs ih =>
    have hv : |v| < 2 ^ 62 := hvs v (mem_cons_self ..)
    simp only [clearedWidths, forall_mem_cons] at hcl
    set out := delta precisionBits prevTZ prev v with hout
    set r := (v - prev).tmod (2 ^ cleared (v - prev) v precisionBits prevTZ) with hr
    have hloss : v - prev - out.1 = r := sub_delta hprev hv
    have hdrop : |r| < 2 ^ b := abs_tmod_lt hcl.1 (v - prev)
    have hpow : (2 : ℤ) ^ b ≤ 2 ^ 61 := pow_le_pow_right₀ (by decide) hb
    have hsum : wrap (prev - lost + out.1) = v - (lost + r) := by
      have hstay : prev - lost + out.1 = v - (lost + r) := by omega
      rw [hstay]
      apply wrap_eq_self
      rw [abs_lt] at *
      omega
    have hcons : remaindersFrom precisionBits prevTZ prev (v :: vs) =
        r :: remaindersFrom precisionBits out.2 v vs := rfl
    have hrest (hnext : |lost + r| < 2 ^ b) :=
      ih (lost + r) hnext hv (fun u hu => hvs u (mem_cons_of_mem _ hu)) hcl.2
    simp only [deltas, sums, ← hout, hsum, Within, forall₂_cons, sub_sub_cancel, hcons]
    constructor
    · rintro ⟨hnext, hwithin⟩ n
      cases n with
      | zero => simpa using hlost
      | succ n =>
        rw [take_succ_cons, sum_cons, ← Int.add_assoc]
        exact (hrest hnext).mp hwithin n
    · intro hall
      have hshift (n : ℕ) := hall (n + 1)
      simp only [take_succ_cons, sum_cons, ← Int.add_assoc] at hshift
      have hnext : |lost + r| < 2 ^ b := by simpa using hshift 0
      exact ⟨hnext, (hrest hnext).mpr hshift⟩

theorem clearedWidths_le (hpos : 1 ≤ precisionBits) (hvs : ∀ v ∈ vs, |v| < 2 ^ 62) :
    ∀ c ∈ clearedWidths precisionBits prevTZ prev vs, c ≤ 61 := by
  induction vs generalizing prevTZ prev with
  | nil => simp [clearedWidths]
  | cons v vs ih =>
    rw [forall_mem_cons] at hvs
    simp only [clearedWidths, forall_mem_cons]
    exact ⟨cleared_le hpos hvs.1 _, ih hvs.2⟩

/-- Remainders add up to no more than those of the whole column by the widest field. -/
theorem abs_sum_remainders_le {b : ℕ}
    (hcl : ∀ c ∈ clearedWidths precisionBits prevTZ prev vs, c ≤ b) (n : ℕ) :
    |((remaindersFrom precisionBits prevTZ prev vs).take n).sum| ≤
      (((differencesFrom prev vs).map fun d => d.natAbs % 2 ^ b).sum : ℕ) := by
  induction vs generalizing prevTZ prev n with
  | nil => simp [remaindersFrom, differencesFrom]
  | cons v vs ih =>
    simp only [clearedWidths, forall_mem_cons] at hcl
    cases n with
    | zero =>
      rw [take_zero, sum_nil, abs_zero]
      exact Int.natCast_nonneg _
    | succ n =>
      have hcons : remaindersFrom precisionBits prevTZ prev (v :: vs) =
          (v - prev).tmod (2 ^ cleared (v - prev) v precisionBits prevTZ) ::
            remaindersFrom precisionBits (delta precisionBits prevTZ prev v).2 v vs := rfl
      rw [hcons, take_succ_cons, sum_cons, differencesFrom, map_cons, sum_cons, Nat.cast_add]
      exact (abs_add_le _ _).trans (add_le_add (abs_tmod_le hcl.1 _) (ih hcl.2 n))

/-- **A column is decoded within its largest cleared field**, where differences do not overflow,
exactly when the remainders of the differences never add up to that field.  It is enough that they
would not without their signs. -/
theorem within_clearedBits_iff (precisionBits : ℕ) (hpos : 1 ≤ precisionBits) (scaled : List ℤ)
    (hsmall : ∀ v ∈ scaled, |v| < 2 ^ 62) {b : ℕ} (hb : b = clearedBits precisionBits scaled) :
    (Within b scaled (decodeScaled (encodeScaled precisionBits scaled)) ↔
      ∀ n, |((remainders precisionBits scaled).take n).sum| < 2 ^ b) ∧
      (((differences scaled).map fun d => d.natAbs % 2 ^ b).sum < 2 ^ b →
        Within b scaled (decodeScaled (encodeScaled precisionBits scaled))) := by
  cases scaled with
  | nil => simp [Within, decodeScaled, encodeScaled, remainders]
  | cons v₀ vs =>
    rw [forall_mem_cons] at hsmall
    have hwidths (c : ℕ) (hc : c ∈ clearedWidths precisionBits 0 v₀ vs) : c ≤ b :=
      hb ▸ le_max_of_le hc le_rfl
    have hbits : b ≤ 61 := hb ▸ max_le_of_forall_le _ _ (clearedWidths_le hpos hsmall.2)
    have hcolumn := within_sums_iff hbits vs 0 (by simp) hsmall.1 hsmall.2 hwidths
    simp only [sub_zero, Int.zero_add] at hcolumn
    have hiff : Within b (v₀ :: vs) (decodeScaled (encodeScaled precisionBits (v₀ :: vs))) ↔
        ∀ n, |((remainders precisionBits (v₀ :: vs)).take n).sum| < 2 ^ b := by
      rw [remainders, ← hcolumn]
      simp [Within, decodeScaled, encodeScaled]
    refine ⟨hiff, fun hsum => hiff.mpr fun n => (abs_sum_remainders_le hwidths n).trans_lt ?_⟩
    exact_mod_cast hsum

/-- A counter that grows by one loses every step: its third row is decoded two below. -/
theorem slow_counter_drifts :
    clearedBits 4 [16, 17, 18] = 1 ∧ decodeScaled (encodeScaled 4 [16, 17, 18]) = [16, 16, 16] ∧
      ¬ Within (clearedBits 4 [16, 17, 18]) [16, 17, 18]
        (decodeScaled (encodeScaled 4 [16, 17, 18])) := by
  decide

/-- A counter that goes up and down by one: the remainders cancel, though without their signs they
would not fit. -/
theorem within_clearedBits_up_down :
    Within (clearedBits 4 [16, 17, 16]) [16, 17, 16] (decodeScaled (encodeScaled 4 [16, 17, 16])) ∧
      ¬ ((differences [16, 17, 16]).map fun d => d.natAbs % 2 ^ clearedBits 4 [16, 17, 16]).sum <
        2 ^ clearedBits 4 [16, 17, 16] := by
  have hremainders : remainders 4 [16, 17, 16] = [1, -1] := by decide
  have hbits : clearedBits 4 [16, 17, 16] = 1 := by decide
  refine ⟨(within_clearedBits_iff 4 (by decide) [16, 17, 16] (by decide) rfl).1.mpr fun n => ?_,
    by decide⟩
  rw [hremainders, hbits]
  match n with
  | 0 => decide
  | 1 => decide
  | n + 2 => simp

end Decimal
end OtelStorage.Encoding
