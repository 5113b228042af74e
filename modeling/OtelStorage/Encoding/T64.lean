import OtelStorage.Encoding.Timestamps

/-!
# Bit-transposed columns of integers

T64 columns (`encoding/chunk/t64.go`): the row count, the least and the greatest value, and then the
values in blocks of 64, each block as its words of equal bits: word `p` holds bit `p` of every value
of the block.  Bits above the highest one in which the extremes differ are not written; the decoder
takes them from the least value.

A block is read back because both sides build their words with the same loop (`gather`), which is a
transpose, and the bits left out are common to everything between the extremes
(`shiftRight_valuableBits`).
-/

namespace OtelStorage.Encoding

open Delimited Wire Bits TokenReader List

/-! ## Words -/

variable (p : ℕ) (l : List ℕ) (key : Int64 → ℤ) (v : Int64) (vs : List Int64) {stream : Bytes}
  {minVal maxVal x : Int64} {vals : List Int64} {numBits : ℕ}

/-- The word whose bit `i` is bit `p` of the `i`-th entry. -/
def gather : ℕ :=
  l.zipIdx.foldl (fun row x => if x.1.testBit p then row ||| 1 <<< x.2 else row) 0

/-- A word as eight bytes, lowest first. -/
def littleEndian (u : ℕ) : Bytes := (range 8).map fun b => toByte (u >>> (8 * b))

/-- The bytes `b`, `b + 1`, … of a word, `n` of them, onto the bytes already read. -/
def readWordFrom : ℕ → ℕ → ℕ → BitReader ℕ
  | 0, _, v => pure v
  | n + 1, b, v => do
    let byte ← Reader.readBits 8
    readWordFrom n (b + 1) (v ||| byte <<< (8 * b))

/-- The next word. -/
def readWord : BitReader ℕ := readWordFrom 8 0 0

/-- The next `n` words. -/
def readWords : ℕ → BitReader (List ℕ)
  | 0 => pure []
  | n + 1 => do
    let v ← readWord
    let rest ← readWords n
    return v :: rest

/-! ## The codec -/

/-- The entry with the least key, the first of them. -/
def pick : Int64 :=
  vs.foldl (fun m x => if key x < key m then x else m) v

/-- `minVal` and `maxVal` of `EncodeIntsT64`. -/
def extremes : Int64 × Int64 :=
  (pick Int64.toInt v vs, pick (fun x => -x.toInt) v vs)

/-- The extremes have both signs. -/
def signedStraddle (minVal maxVal : Int64) : Prop := minVal.toInt < 0 ∧ 0 ≤ maxVal.toInt

instance (minVal maxVal : Int64) : Decidable (signedStraddle minVal maxVal) :=
  inferInstanceAs (Decidable (_ ∧ _))

/-- How many low bits of a row are stored. -/
def valuableBits (minVal maxVal : Int64) : ℕ :=
  if uint64 minVal = uint64 maxVal then 0
  else
    let nb := 64 - leadingZeros64 (uint64 minVal ^^^ uint64 maxVal)
    if signedStraddle minVal maxVal then min (nb + 1) 64 else nb

/-- Up to 64 rows, transposed. -/
def t64EncodeBlock (w : Writer) (vals : List Int64) (numBits : ℕ) : Writer :=
  (range numBits).foldl
    (fun w p => (littleEndian (gather p (vals.map uint64))).foldl Writer.writeByte w) w

/-- All the rows, 64 at a time. -/
def t64EncodeBlocks (numBits : ℕ) (w : Writer) (vals : List Int64) : Writer :=
  if vals = [] then w
  else t64EncodeBlocks numBits (t64EncodeBlock w (vals.take 64) numBits) (vals.drop 64)
termination_by vals.length
decreasing_by
  have := length_pos_iff.mpr ‹vals ≠ []›
  rw [length_drop]
  omega

/-- The column written. -/
def encodeIntsT64 (dst : Bytes) (vals : List Int64) : Bytes :=
  let w := writeHeader dst vals.length
  match vals with
  | [] => w.padToByte.stream
  | v :: vs =>
    let (minVal, maxVal) := extremes v vs
    let w := (littleEndian (uint64 minVal) ++ littleEndian (uint64 maxVal)).foldl Writer.writeByte w
    let numBits := valuableBits minVal maxVal
    (if numBits = 0 then w else t64EncodeBlocks numBits w (v :: vs)).padToByte.stream

/-- The bits of a word from `numBits` on: `u & ^(1<<numBits - 1)`. -/
def upper (numBits u : ℕ) : ℕ := u >>> numBits <<< numBits

/-- Row `i` of a block out of its words, with the high bits put back. -/
def t64Value (numBits : ℕ) (minVal maxVal : Int64) (rows : List ℕ) (i : ℕ) : Int64 :=
  let v := gather i rows
  Int64.ofNat <|
    if signedStraddle minVal maxVal then
      if v.testBit (numBits - 1) then v ||| upper numBits (uint64 minVal)
      else v ||| upper numBits (uint64 maxVal)
    else v ||| upper numBits (uint64 minVal)

/-- The rows read back, 64 at a time. -/
def t64DecodeBlocks (numBits : ℕ) (minVal maxVal : Int64) (rows : ℕ) : BitReader (List Int64) :=
  if rows = 0 then pure []
  else do
    let words ← readWords numBits
    let rest ← t64DecodeBlocks numBits minVal maxVal (rows - min 64 rows)
    return (range (min 64 rows)).map (t64Value numBits minVal maxVal words) ++ rest
termination_by rows
decreasing_by omega

/-- `DecodeIntsT64` behind the row count. -/
def readIntsT64 (rows maxRows : ℕ) : BitReader (List Int64) := do
  let umin ← readWord
  let umax ← readWord
  let minVal := Int64.ofNat umin
  let maxVal := Int64.ofNat umax
  let numBits := valuableBits minVal maxVal
  if numBits = 0 then
    return replicate rows minVal
  boundRows rows maxRows
  t64DecodeBlocks numBits minVal maxVal rows

/-- The column read. -/
def decodeIntsT64 (dst : List Int64) (src : Bytes) (rows : ℤ) : Except String (List Int64 × ℕ) := do
  let (rows, consumed) ← readHeaderRows src rows
  if rows = 0 then
    return (dst, consumed)
  let (vals, r) ← (readIntsT64 rows.toNat (8 * (src.length - consumed))).run
    (Reader.newReader (src.drop consumed))
  return (vals, consumed + r.consumedBytes)

/-! ## Reading words -/

theorem testBit_foldl_gather (k row i : ℕ) :
    ((l.zipIdx k).foldl
        (fun row x => if x.1.testBit p then row ||| 1 <<< x.2 else row) row).testBit i =
      (row.testBit i || decide (k ≤ i) && (l.getD (i - k) 0).testBit p) := by
  induction l generalizing k row with
  | nil => simp
  | cons u l ih =>
    rw [zipIdx_cons, foldl_cons, ih]
    have hrow : (if u.testBit p then row ||| 1 <<< k else row).testBit i =
        (row.testBit i || decide (i = k) && u.testBit p) := by
      cases hu : u.testBit p with
      | false => simp
      | true => simp [Nat.testBit_or, Nat.one_shiftLeft, Nat.testBit_two_pow, eq_comm]
    rw [hrow]
    rcases lt_trichotomy i k with hlt | rfl | hgt
    · simp [hlt.ne, hlt.not_ge, show ¬ k + 1 ≤ i by omega]
    · simp
    · obtain ⟨j, rfl⟩ := Nat.exists_eq_add_of_lt hgt
      simp [show k + j + 1 - k = j + 1 by omega, show k + j + 1 - (k + 1) = j by omega,
        show k + 1 ≤ k + j + 1 by omega, show k ≤ k + j + 1 by omega,
        show k + j + 1 ≠ k by omega]

/-- **The loop transposes.** -/
@[simp] theorem testBit_gather (i : ℕ) :
    (gather p l).testBit i = (l.getD i 0).testBit p := by
  simp [gather, testBit_foldl_gather]

theorem takes_readWordFrom (u n b : ℕ) :
    Takes (Reader.Tail stream) (readWordFrom n b (u % 2 ^ (8 * b)))
      ((range' b n).map fun b => toByte (u >>> (8 * b))) (u % 2 ^ (8 * (b + n))) := by
  induction n generalizing b with
  | zero => exact .pure _
  | succ n ih =>
    rw [range'_succ, map_cons]
    have hbyte : Takes (Unread stream) (Reader.readBits 8) (bytesBits [toByte (u >>> (8 * b))])
        (u >>> (8 * b) % 2 ^ 8) := by
      rw [bytesBits_singleton, ← bitsOf_mod le_rfl]
      exact Reader.takes_readBits (by decide) (Nat.mod_lt _ (by decide))
    refine (Reader.takes_tail hbyte).bind ?_
    have hnext : u % 2 ^ (8 * b) ||| (u >>> (8 * b) % 2 ^ 8) <<< (8 * b) =
        u % 2 ^ (8 * (b + 1)) := by
      refine Nat.eq_of_testBit_eq fun i => ?_
      simp only [Nat.testBit_or, Nat.testBit_mod_two_pow, Nat.testBit_shiftLeft,
        Nat.testBit_shiftRight]
      by_cases hi : i < 8 * b
      · simp [hi, show ¬ 8 * b ≤ i by omega, show i < 8 * (b + 1) by omega]
      · simp [hi, Nat.le_of_not_lt hi, show i - 8 * b < 8 ↔ i < 8 * (b + 1) by omega]
    rw [hnext, show b + (n + 1) = b + 1 + n by omega]
    exact ih (b + 1)

theorem takes_readWord {u : ℕ} (h : u < 2 ^ 64) :
    Takes (Reader.Tail stream) readWord (littleEndian u) u := by
  have hfrom : Takes (Reader.Tail stream) (readWordFrom 8 0 (u % 2 ^ (8 * 0))) _
      (u % 2 ^ (8 * (0 + 8))) := takes_readWordFrom u 8 0
  rw [Nat.mod_eq_of_lt (show u < 2 ^ (8 * (0 + 8)) from h), ← range_eq_range',
    show u % 2 ^ (8 * 0) = 0 from Nat.mod_one u] at hfrom
  exact hfrom

theorem takes_readWords (words : List ℕ) (h : ∀ u ∈ words, u < 2 ^ 64) :
    Takes (Reader.Tail stream) (readWords words.length) (words.flatMap littleEndian) words := by
  induction words with
  | nil => exact .pure _
  | cons u words ih =>
    rw [forall_mem_cons] at h
    rw [length_cons, readWords, flatMap_cons]
    exact (takes_readWord h.1).bind ((ih h.2).last (.pure _))

/-! ## The common bits -/

theorem key_pick_le : ∀ x ∈ v :: vs, key (pick key v vs) ≤ key x := by
  induction vs generalizing v with
  | nil => simp [pick]
  | cons u vs ih =>
    have hnext := ih (if key u < key v then u else v)
    rw [forall_mem_cons] at hnext
    rw [forall_mem_cons, forall_mem_cons]
    have hpick : key (if key u < key v then u else v) ≤ key v ∧
        key (if key u < key v then u else v) ≤ key u := by split <;> omega
    exact ⟨hnext.1.trans hpick.1, hnext.1.trans hpick.2, hnext.2⟩

/-- Between the extremes of a column. -/
def Between (minVal maxVal x : Int64) : Prop := minVal.toInt ≤ x.toInt ∧ x.toInt ≤ maxVal.toInt

theorem between_extremes :
    ∀ x ∈ v :: vs, Between (extremes v vs).1 (extremes v vs).2 x := fun x hx =>
  ⟨key_pick_le Int64.toInt v vs x hx, by
    have := key_pick_le (fun x => -x.toInt) v vs x hx
    simp only [extremes]
    omega⟩

theorem xor_uint64_lt (minVal maxVal : Int64) : uint64 minVal ^^^ uint64 maxVal < 2 ^ 64 :=
  Nat.xor_lt_two_pow (uint64_lt _) (uint64_lt _)

theorem eq_of_valuableBits_eq_zero (h : valuableBits minVal maxVal = 0)
    (hx : Between minVal maxVal x) : x = minVal := by
  have heq : uint64 minVal = uint64 maxVal := by
    by_contra hne
    have hzeros := leadingZeros64_add_trailingZeros64 (xor_uint64_lt minVal maxVal)
      (fun hxor => hne (Nat.xor_eq_zero_iff.mp hxor))
    simp only [valuableBits, if_neg hne] at h
    split at h <;> omega
  have hmin := toInt_eq_uint64 minVal
  rw [heq, ← toInt_eq_uint64 maxVal] at hmin
  exact Int64.toInt_inj.mp (le_antisymm (hmin ▸ hx.2) hx.1)

theorem valuableBits_of_straddle (h : signedStraddle minVal maxVal) :
    valuableBits minVal maxVal = 64 := by
  have hmin := toInt_eq_uint64 minVal
  have hmax := toInt_eq_uint64 maxVal
  have hmaxlt := uint64_lt maxVal
  obtain ⟨hneg, hpos⟩ := h
  have hlow : uint64 maxVal < 2 ^ 63 := by split at hmax <;> omega
  have hhigh : 2 ^ 63 ≤ uint64 minVal := by split at hmin <;> omega
  have hzeros : leadingZeros64 (uint64 minVal ^^^ uint64 maxVal) = 0 := by
    by_contra hne
    have hlt : uint64 minVal ^^^ uint64 maxVal < 2 ^ 63 :=
      lt_of_leadingZeros64 (xor_uint64_lt minVal maxVal) (Nat.pos_of_ne_zero hne)
    have hmin' := Nat.xor_lt_two_pow hlt hlow
    rw [Nat.xor_xor_cancel_right] at hmin'
    omega
  simp only [valuableBits, hzeros, if_neg (show uint64 minVal ≠ uint64 maxVal by omega)]
  rw [if_pos ⟨hneg, hpos⟩]
  rfl

/-- The bits left out are the same for everything between the extremes of one sign. -/
theorem shiftRight_valuableBits (hne : valuableBits minVal maxVal ≠ 0)
    (h : ¬ signedStraddle minVal maxVal) (hx : Between minVal maxVal x) :
    uint64 x >>> valuableBits minVal maxVal = uint64 minVal >>> valuableBits minVal maxVal := by
  have hbits : valuableBits minVal maxVal =
      64 - leadingZeros64 (uint64 minVal ^^^ uint64 maxVal) := by
    simp only [valuableBits, if_neg h] at hne ⊢
    exact if_neg fun heq => hne (if_pos heq)
  have hcommon : uint64 minVal >>> valuableBits minVal maxVal =
      uint64 maxVal >>> valuableBits minVal maxVal := by
    rw [← Nat.xor_eq_zero_iff, ← Nat.shiftRight_xor_distrib, hbits]
    exact Nat.shiftRight_eq_zero _ _ (lt_of_leadingZeros64 (xor_uint64_lt _ _) le_rfl)
  have horder : uint64 minVal ≤ uint64 x ∧ uint64 x ≤ uint64 maxVal := by
    have hlt := uint64_lt x
    have hmin := toInt_eq_uint64 minVal
    have hmax := toInt_eq_uint64 maxVal
    have hmid := toInt_eq_uint64 x
    have := uint64_lt minVal
    have := uint64_lt maxVal
    obtain ⟨hle, hge⟩ := hx
    rw [signedStraddle, not_and_or] at h
    split at hmin <;> split at hmax <;> split at hmid <;> omega
  simp only [Nat.shiftRight_eq_div_pow] at hcommon ⊢
  refine le_antisymm ?_ (Nat.div_le_div_right horder.1)
  rw [hcommon]
  exact Nat.div_le_div_right horder.2

/-! ## Blocks -/

/-- The words of a block. -/
def blockWords (numBits : ℕ) (vals : List Int64) : List ℕ :=
  (range numBits).map fun p => gather p (vals.map uint64)

theorem gather_blockWords {i : ℕ} (hi : i < vals.length) :
    gather i (blockWords numBits vals) = uint64 vals[i] % 2 ^ numBits := by
  refine Nat.eq_of_testBit_eq fun p => ?_
  rw [testBit_gather, Nat.testBit_mod_two_pow]
  by_cases hp : p < numBits
  · simp [blockWords, getD_eq_getElem?_getD, hp, hi]
  · simp [blockWords, getD_eq_getElem?_getD, hp]

theorem mod_or_upper (numBits u : ℕ) : u % 2 ^ numBits ||| upper numBits u = u := by
  refine Nat.eq_of_testBit_eq fun i => ?_
  simp only [upper, Nat.testBit_or, Nat.testBit_mod_two_pow, Nat.testBit_shiftLeft,
    Nat.testBit_shiftRight]
  by_cases hi : i < numBits
  · simp [hi, Nat.not_le.mpr hi]
  · simp [hi, Nat.le_of_not_lt hi]

/-- **A row between the extremes is restored.** -/
theorem t64Value_blockWords {i : ℕ} (hi : i < vals.length)
    (hne : valuableBits minVal maxVal ≠ 0) (hx : Between minVal maxVal vals[i]) :
    t64Value (valuableBits minVal maxVal) minVal maxVal
      (blockWords (valuableBits minVal maxVal) vals) i =
      vals[i] := by
  rw [t64Value, gather_blockWords hi]
  by_cases h : signedStraddle minVal maxVal
  · -- Every bit is written, so none is put back.
    have hupper (u : ℕ) (hu : u < 2 ^ 64) : upper 64 u = 0 := by
      rw [upper, Nat.shiftRight_eq_zero _ _ hu, Nat.zero_shiftLeft]
    rw [valuableBits_of_straddle h, Nat.mod_eq_of_lt (uint64_lt vals[i])]
    simp [h, hupper _ (uint64_lt _)]
  · rw [if_neg h, upper, ← shiftRight_valuableBits hne h hx]
    exact (congrArg Int64.ofNat (mod_or_upper _ _)).trans (ofNat_uint64 _)

theorem gather_lt {p : ℕ} {vals : List ℕ} (h : vals.length ≤ 64) : gather p vals < 2 ^ 64 := by
  refine Nat.lt_pow_two_of_testBit _ fun i hi => ?_
  rw [testBit_gather, getD_eq_default _ _ (h.trans hi), Nat.zero_testBit]

/-- The bytes of the blocks. -/
def blockBytes (numBits : ℕ) (vals : List Int64) : Bytes :=
  if vals = [] then []
  else (blockWords numBits (vals.take 64)).flatMap littleEndian ++ blockBytes numBits (vals.drop 64)
termination_by vals.length
decreasing_by
  have := length_pos_iff.mpr ‹vals ≠ []›
  rw [length_drop]
  omega

theorem foldl_writeByte (l bs : Bytes) :
    l.foldl Writer.writeByte (⟨bs, 0⟩ : Writer) = ⟨bs ++ l, 0⟩ := by
  induction l generalizing bs with
  | nil => simp
  | cons b l ih =>
    rw [foldl_cons, Writer.writeByte, if_pos rfl, ih]
    simp

theorem t64EncodeBlock_aligned (bs : Bytes) (vals : List Int64) (numBits : ℕ) :
    t64EncodeBlock ⟨bs, 0⟩ vals numBits =
      ⟨bs ++ (blockWords numBits vals).flatMap littleEndian, 0⟩ := by
  rw [t64EncodeBlock, blockWords]
  generalize range numBits = ps
  induction ps generalizing bs with
  | nil => simp
  | cons p ps ih =>
    rw [foldl_cons, foldl_writeByte, ih]
    simp

theorem t64EncodeBlocks_aligned (numBits : ℕ) (bs : Bytes) (vals : List Int64) :
    t64EncodeBlocks numBits ⟨bs, 0⟩ vals = ⟨bs ++ blockBytes numBits vals, 0⟩ := by
  fun_induction blockBytes numBits vals generalizing bs with
  | case1 => rw [t64EncodeBlocks, if_pos rfl, append_nil]
  | case2 vals h ih => rw [t64EncodeBlocks, if_neg h, t64EncodeBlock_aligned, ih, append_assoc]

theorem takes_t64DecodeBlocks (hne : valuableBits minVal maxVal ≠ 0)
    (vals : List Int64) (hvals : ∀ x ∈ vals, Between minVal maxVal x) :
    Takes (Reader.Tail stream)
      (t64DecodeBlocks (valuableBits minVal maxVal) minVal maxVal vals.length)
      (blockBytes (valuableBits minVal maxVal) vals) vals := by
  fun_induction blockBytes (valuableBits minVal maxVal) vals with
  | case1 =>
    rw [length_nil, t64DecodeBlocks, if_pos rfl]
    exact .pure _
  | case2 vals h ih =>
    rw [t64DecodeBlocks, if_neg (length_pos_iff.mpr h).ne']
    have hwords : Takes (Reader.Tail stream) _ _ _ :=
      takes_readWords (blockWords (valuableBits minVal maxVal) (vals.take 64)) fun u hu => by
        obtain ⟨p, -, rfl⟩ := mem_map.mp hu
        exact gather_lt (by simp)
    rw [blockWords, length_map, length_range, ← blockWords] at hwords
    refine hwords.bind ?_
    rw [show vals.length - min 64 vals.length = (vals.drop 64).length by rw [length_drop]; omega]
    refine (ih fun x hx => hvals x (mem_of_mem_drop hx)).last ?_
    have hblock : (range (min 64 vals.length)).map
        (t64Value (valuableBits minVal maxVal) minVal maxVal
          (blockWords (valuableBits minVal maxVal) (vals.take 64))) = vals.take 64 := by
      refine ext_getElem (by simp) fun i hi hi' => ?_
      rw [getElem_map, getElem_range]
      exact t64Value_blockWords hi' hne (hvals _ (mem_of_mem_take (getElem_mem hi')))
    rw [hblock, take_append_drop]
    exact .pure _

/-! ## The column -/

theorem length_le_blockBytes (hne : numBits ≠ 0) (vals : List Int64) :
    vals.length ≤ 8 * (blockBytes numBits vals).length := by
  fun_induction blockBytes numBits vals with
  | case1 => simp
  | case2 vals h ih =>
    have hwords (l : List ℕ) : (l.flatMap littleEndian).length = 8 * l.length := by
      simp [length_flatMap, littleEndian, Nat.mul_comm]
    rw [length_drop] at ih
    rw [length_append, hwords, blockWords, length_map, length_range]
    omega

/-- The bytes of a column behind its row count. -/
def t64Bytes : List Int64 → Bytes
  | [] => []
  | v :: vs =>
    let m := extremes v vs
    littleEndian (uint64 m.1) ++ (littleEndian (uint64 m.2) ++
      if valuableBits m.1 m.2 = 0 then [] else blockBytes (valuableBits m.1 m.2) (v :: vs))

theorem encodeIntsT64_eq (dst : Bytes) (vals : List Int64) :
    encodeIntsT64 dst vals = dst ++ appendUvarint vals.length ++ t64Bytes vals := by
  cases vals with
  | nil => simp [encodeIntsT64, writeHeader, Writer.newWriter, Writer.writeUvarint_aligned,
      Writer.padToByte, t64Bytes]
  | cons v vs =>
    simp only [encodeIntsT64, writeHeader, Writer.newWriter, Writer.writeUvarint_aligned, t64Bytes,
      foldl_writeByte, Writer.padToByte]
    split <;> simp [t64EncodeBlocks_aligned]

theorem takes_readIntsT64 (vals : List Int64) (hne : vals ≠ []) {maxRows : ℕ}
    (hmax : 8 * (t64Bytes vals).length ≤ maxRows) :
    Takes (Reader.Tail stream) (readIntsT64 vals.length maxRows) (t64Bytes vals) vals := by
  obtain ⟨v, vs, rfl⟩ := exists_cons_of_ne_nil hne
  have hbetween := between_extremes v vs
  rw [t64Bytes] at hmax ⊢
  generalize extremes v vs = m at hbetween hmax ⊢
  refine (takes_readWord (uint64_lt _)).bind ((takes_readWord (uint64_lt _)).bind ?_)
  simp only [ofNat_uint64]
  split
  next hzero =>
    have hconst : v :: vs = replicate (v :: vs).length m.1 :=
      eq_replicate_iff.mpr ⟨rfl, fun x hx => eq_of_valuableBits_eq_zero hzero (hbetween x hx)⟩
    rw [← hconst]
    exact .pure _
  next hbits =>
    have hbound : boundRows (v :: vs).length maxRows = .ok () := by
      have hrows := length_le_blockBytes hbits (v :: vs)
      simp only [if_neg hbits, length_append] at hmax
      rw [boundRows, if_neg (by omega)]
    have hcheck : Takes (Reader.Tail stream)
        (liftM (boundRows (v :: vs).length maxRows) : BitReader Unit) [] () := by
      rw [hbound]
      exact .pure _
    exact hcheck.bind (takes_t64DecodeBlocks hbits _ hbetween)

/-- **T64 columns round trip**, whatever bytes follow them. -/
theorem decodeIntsT64_encodeIntsT64 (vals : List Int64) (suffix : Bytes)
    (h : vals.length < 2 ^ 63) :
    decodeIntsT64 [] (encodeIntsT64 [] vals ++ suffix) vals.length =
      .ok (vals, (encodeIntsT64 [] vals).length) := by
  rw [encodeIntsT64_eq, nil_append, append_assoc, decodeIntsT64, readHeaderRows_append h]
  by_cases hne : vals = []
  · simp [hne, t64Bytes, bind, Except.bind, pure, Except.pure]
  obtain ⟨r, hrun, hconsumed⟩ := Reader.run_newReader
    (show Takes (Reader.Tail (_ ++ suffix)) _ _ _ from takes_readIntsT64 vals hne
      (show 8 * (t64Bytes vals).length ≤ 8 * ((appendUvarint vals.length ++
        (t64Bytes vals ++ suffix)).length - (appendUvarint vals.length).length) by
          rw [length_append, length_append]; omega))
  simp only [bind, Except.bind, pure, Except.pure, Int.toNat_natCast, drop_left, hrun,
    if_neg (show (vals.length : ℤ) ≠ 0 by simpa using hne)]
  rw [hconsumed, length_append]

/-- Both signs, with a byte behind them. -/
theorem decodeIntsT64_encodeIntsT64_straddle :
    decodeIntsT64 [] (encodeIntsT64 [] [-5, 3, -5] ++ [255]) (3 : ℕ) =
      .ok ([-5, 3, -5], (encodeIntsT64 [] [-5, 3, -5]).length) :=
  decodeIntsT64_encodeIntsT64 [-5, 3, -5] [255] (by decide)

end OtelStorage.Encoding
