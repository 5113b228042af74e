import Mathlib.Data.Nat.Bitwise
import Mathlib.Data.List.Induction
import OtelStorage.Foundation.Wire

/-!
# Numbers as lists of bits

`bitsOf n u` are the `n` low bits of a number, highest first.  A field of `n` bits shifted, cut and
joined with others is the lists of bits cut and joined (`bitsOf_add`, `bitsOf_shiftLeft`), so a
packed stream is said in lists and only its smallest steps in arithmetic.

`bytesBits` are the bits of a byte string, and determine it (`bytesBits_injective`).
-/

namespace OtelStorage.Bits

open Delimited Wire List

/-- The `n` low bits of a number, highest first. -/
def bitsOf : ℕ → ℕ → List Bool
  | 0, _ => []
  | n + 1, u => u.testBit n :: bitsOf n u

@[simp] theorem bitsOf_zero (u : ℕ) : bitsOf 0 u = [] := rfl

@[simp] theorem length_bitsOf (n u : ℕ) : (bitsOf n u).length = n := by
  induction n with
  | zero => rfl
  | succ n ih => rw [bitsOf, length_cons, ih]

variable {n k m : ℕ} {u : ℕ} {v : ℕ} (bs : Bytes) {front l : List Bool}

theorem bitsOf_congr (h : ∀ i < n, u.testBit i = v.testBit i) : bitsOf n u = bitsOf n v := by
  induction n with
  | zero => rfl
  | succ n ih =>
    rw [bitsOf, bitsOf, h n (Nat.lt_succ_self n), ih fun i hi => h i (Nat.lt_succ_of_lt hi)]

theorem testBit_eq_of_bitsOf_eq (h : bitsOf n u = bitsOf n v) :
    ∀ i < n, u.testBit i = v.testBit i := by
  induction n with
  | zero => exact fun i hi => absurd hi (Nat.not_lt_zero i)
  | succ n ih =>
    obtain ⟨hhead, htail⟩ := List.cons.inj h
    intro i hi
    rcases Nat.lt_succ_iff_lt_or_eq.mp hi with hi | rfl
    · exact ih htail i hi
    · exact hhead

@[simp] theorem bitsOf_mod (h : n ≤ m) (u : ℕ) : bitsOf n (u % 2 ^ m) = bitsOf n u :=
  bitsOf_congr fun i hi => by
    rw [Nat.testBit_mod_two_pow, decide_eq_true (hi.trans_le h), Bool.true_and]

/-- **A field of `n` bits is determined by them.** -/
theorem eq_of_bitsOf_eq (hu : u < 2 ^ n) (hv : v < 2 ^ n) (h : bitsOf n u = bitsOf n v) :
    u = v := by
  refine Nat.eq_of_testBit_eq fun i => ?_
  rcases Nat.lt_or_ge i n with hi | hi
  · exact testBit_eq_of_bitsOf_eq h i hi
  · have hle : 2 ^ n ≤ 2 ^ i := Nat.pow_le_pow_right Nat.two_pos hi
    rw [Nat.testBit_eq_false_of_lt (hu.trans_le hle), Nat.testBit_eq_false_of_lt (hv.trans_le hle)]

/-- **A field split**: its high bits, then its low bits. -/
theorem bitsOf_add (m n u : ℕ) : bitsOf (m + n) u = bitsOf m (u >>> n) ++ bitsOf n u := by
  induction m with
  | zero => rw [Nat.zero_add, bitsOf_zero, nil_append]
  | succ m ih =>
    rw [Nat.succ_add, bitsOf, ih, bitsOf, cons_append, Nat.testBit_shiftRight, Nat.add_comm n m]

theorem bitsOf_split (h : m + n = k) (u : ℕ) :
    bitsOf k u = bitsOf m (u >>> n) ++ bitsOf n u := h ▸ bitsOf_add m n u

theorem bitsOf_eq_zeros (h : ∀ i < n, u.testBit i = false) :
    bitsOf n u = List.replicate n false := by
  induction n with
  | zero => rfl
  | succ n ih =>
    rw [bitsOf, h n (Nat.lt_succ_self n), ih fun i hi => h i (Nat.lt_succ_of_lt hi)]
    rfl

theorem bitsOf_shiftLeft (m n u : ℕ) :
    bitsOf (m + n) (u <<< n) = bitsOf m u ++ List.replicate n false := by
  have hlow : bitsOf n (u <<< n) = List.replicate n false := bitsOf_eq_zeros fun i hi => by
    rw [Nat.testBit_shiftLeft, decide_eq_false (Nat.not_le.mpr hi), Bool.false_and]
  rw [bitsOf_add, Nat.shiftLeft_shiftRight, hlow]

theorem bitsOf_of_lt (h : u < 2 ^ k) : bitsOf (n + k) u = List.replicate n false ++ bitsOf k u := by
  have hhigh : bitsOf n (u >>> k) = List.replicate n false := bitsOf_eq_zeros fun i _ => by
    rw [Nat.testBit_shiftRight]
    exact Nat.testBit_eq_false_of_lt
      (h.trans_le (Nat.pow_le_pow_right Nat.two_pos (Nat.le_add_right k i)))
  rw [bitsOf_add, hhigh]

theorem bitsOf_or (n a b : ℕ) :
    bitsOf n (a ||| b) = List.zipWith (· || ·) (bitsOf n a) (bitsOf n b) := by
  induction n with
  | zero => rfl
  | succ n ih => rw [bitsOf, bitsOf, bitsOf, zipWith_cons_cons, ih, Nat.testBit_or]

theorem zipWith_or_zeros (h : l.length = n) :
    List.zipWith (· || ·) l (List.replicate n false) = l :=
  List.ext_getElem (by simp [h]) (by simp)

theorem zipWith_zeros_or (h : l.length = n) :
    List.zipWith (· || ·) (List.replicate n false) l = l := by
  rw [zipWith_comm_of_comm Bool.or_comm, zipWith_or_zeros h]

/-- **A free field is filled**: the bits before and behind it stay. -/
theorem bitsOf_or_shiftLeft {w b : ℕ} {back : List Bool} (hb : b < 2 ^ k)
    (hw : bitsOf (m + k + n) w = front ++ List.replicate k false ++ back)
    (hfront : front.length = m) (hback : back.length = n) :
    bitsOf (m + k + n) (w ||| b <<< n) = front ++ bitsOf k b ++ back := by
  have hfield : bitsOf (m + k + n) (b <<< n) =
      List.replicate m false ++ bitsOf k b ++ List.replicate n false := by
    rw [bitsOf_shiftLeft, bitsOf_of_lt hb]
  rw [bitsOf_or, hw, hfield, zipWith_append (by simp [hfront]), zipWith_or_zeros hback,
    zipWith_append (by simp [hfront]), zipWith_or_zeros hfront,
    zipWith_zeros_or (length_bitsOf k b)]

theorem bitsOf_or_of_lt {w b : ℕ} (hb : b < 2 ^ k)
    (hw : bitsOf (m + k) w = front ++ List.replicate k false) (hfront : front.length = m) :
    bitsOf (m + k) (w ||| b) = front ++ bitsOf k b := by
  have h := bitsOf_or_shiftLeft (n := 0) hb (by rwa [append_nil]) hfront length_nil
  rwa [Nat.shiftLeft_zero, append_nil] at h

theorem take_bitsOf (h : k ≤ n) (u : ℕ) : (bitsOf n u).take k = bitsOf k (u >>> (n - k)) := by
  rw [bitsOf_split (Nat.add_sub_cancel' h), take_left' (length_bitsOf _ _)]

theorem drop_bitsOf (h : k ≤ n) (u : ℕ) : (bitsOf n u).drop k = bitsOf (n - k) u := by
  rw [bitsOf_split (Nat.add_sub_cancel' h), drop_left' (length_bitsOf _ _)]

/-! ## Bytes -/

/-- The bits of a byte string. -/
def bytesBits : List Bool := bs.flatMap fun b => bitsOf 8 b.val

@[simp] theorem bytesBits_nil : bytesBits [] = [] := rfl

theorem bytesBits_cons (b : Byte) (bs : Bytes) :
    bytesBits (b :: bs) = bitsOf 8 b.val ++ bytesBits bs :=
  rfl

@[simp] theorem bytesBits_append (as bs : Bytes) :
    bytesBits (as ++ bs) = bytesBits as ++ bytesBits bs :=
  flatMap_append

@[simp] theorem length_bytesBits : (bytesBits bs).length = 8 * bs.length := by
  induction bs with
  | nil => rfl
  | cons b bs ih =>
    rw [bytesBits_cons, length_append, length_bitsOf, ih, length_cons]
    omega

theorem bytesBits_injective {as bs : Bytes} (h : bytesBits as = bytesBits bs) : as = bs := by
  induction as generalizing bs with
  | nil =>
    have hlen := congrArg List.length h
    rw [length_bytesBits, length_bytesBits, length_nil] at hlen
    exact (eq_nil_of_length_eq_zero (by omega)).symm
  | cons a as ih =>
    cases bs with
    | nil =>
      have hlen := congrArg List.length h
      rw [length_bytesBits, length_bytesBits, length_cons, length_nil] at hlen
      omega
    | cons b bs =>
      obtain ⟨hhead, htail⟩ := append_inj h (by rw [length_bitsOf, length_bitsOf])
      rw [Fin.ext (eq_of_bitsOf_eq a.isLt b.isLt hhead), ih htail]

theorem exists_append_of_bytesBits {out front : Bytes} {bits : List Bool}
    (h : bytesBits out = bytesBits front ++ bits) :
    ∃ back, out = front ++ back ∧ bytesBits back = bits := by
  have hle : front.length ≤ out.length := by
    have hlen := congrArg List.length h
    rw [length_append, length_bytesBits, length_bytesBits] at hlen
    omega
  have hcut : bytesBits (out.take front.length) ++ bytesBits (out.drop front.length) =
      bytesBits front ++ bits := by
    rw [← bytesBits_append, take_append_drop, h]
  obtain ⟨hfront, hback⟩ := append_inj hcut (by
    rw [length_bytesBits, length_bytesBits, length_take, Nat.min_eq_left hle])
  refine ⟨out.drop front.length, ?_, hback⟩
  rw [← bytesBits_injective hfront, length_take, Nat.min_eq_left hle, take_append_drop]

theorem bitsOf_ofBigEndian : bitsOf (8 * bs.length) (ofBigEndian bs) = bytesBits bs := by
  induction bs using List.reverseRecOn with
  | nil => rfl
  | append_singleton bs b ih =>
    have hstep : ofBigEndian (bs ++ [b]) = ofBigEndian bs <<< 8 + b.val := by
      rw [ofBigEndian, foldl_append, foldl_cons, foldl_nil, Nat.shiftLeft_eq]
      rfl
    have hor : ofBigEndian bs <<< 8 + b.val = ofBigEndian bs <<< 8 ||| b.val :=
      Nat.shiftLeft_add_eq_or_of_lt b.isLt _
    rw [length_append, length_singleton, Nat.mul_add, hstep, hor,
      bitsOf_or_of_lt b.isLt (bitsOf_shiftLeft _ _ _) (by simp), ih, bytesBits_append]
    rfl

end OtelStorage.Bits
