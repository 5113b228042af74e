import OtelStorage.Encoding.Chunk

/-!
# Columns of timestamps

Delta-of-delta columns (`encoding/chunk/timestamp.go`): the first timestamp, the first difference,
and from then on the change of the difference in one of five widths.  Differences are taken with the
wraparound of `int64`, so any list has them.  The scaled form divides the differences by the largest
of four units that divides them all; the adaptive form writes a column of constant stride as its
first value and stride, and any other as the scaled form.
-/

namespace OtelStorage.Encoding

open Delimited Wire Bits TokenReader List

/-! ## The change of a difference -/

variable (x dod : Int64) {bits : List Bool} {w : Writer} {scale d : Int64} (dst : Bytes)
  (scaled : Bool) {shrink : Int64 → Int64} {ts : List Int64} {stream : Bytes}

/-- `uint64(x)`. -/
def uint64 : ℕ := x.toUInt64.toNat

/-- The range of a signed field, with one value more on the positive side. -/
def bitRange (nbits : ℕ) : Prop :=
  -((2 : ℤ) ^ (nbits - 1) - 1) ≤ x.toInt ∧ x.toInt ≤ (2 : ℤ) ^ (nbits - 1)

instance (x : Int64) (nbits : ℕ) : Decidable (bitRange x nbits) :=
  inferInstanceAs (Decidable (_ ∧ _))

/-- The signed value of a field; the highest bit alone is the extra positive value. -/
def signExtend (u nbits : ℕ) : Int64 :=
  if 2 ^ (nbits - 1) < u then Int64.ofNat u - Int64.ofNat (2 ^ nbits) else Int64.ofNat u

/-- A change of the difference, in the shortest of five fields. -/
def writeDoD (w : Writer) (dod : Int64) : Writer :=
  if dod = 0 then w.writeBit false
  else if bitRange dod 14 then (w.writeBits 0b10 2).writeBits (uint64 dod &&& 0x3fff) 14
  else if bitRange dod 17 then (w.writeBits 0b110 3).writeBits (uint64 dod &&& 0x1ffff) 17
  else if bitRange dod 20 then (w.writeBits 0b1110 4).writeBits (uint64 dod &&& 0xfffff) 20
  else (w.writeBits 0b1111 4).writeBits (uint64 dod) 64

/-- The case selected by the next four bits, and how many of them it takes. -/
def dodPrefixOf (p : ℕ) : ℕ × ℕ :=
  if p < 0b1000 then (0b0, 1)
  else if p < 0b1100 then (0b10, 2)
  else if p < 0b1110 then (0b110, 3)
  else if p = 0b1110 then (0b1110, 4)
  else (0b1111, 4)

/-- The ones in front of the first zero, up to the bits still allowed. -/
def dodPrefixBits : ℕ → ℕ → BitReader ℕ
  | 0, d => return d
  | k + 1, d => do
      let bit ← Reader.readBit
      if !bit then
        return d <<< 1
      dodPrefixBits k (d <<< 1 ||| 1)

/-- The ones that select the field. -/
def readDoDPrefix : BitReader ℕ := fun r =>
  if 4 ≤ r.valid then
    let (d, n) := dodPrefixOf (r.peek 4)
    .ok (d, r.skip n)
  else dodPrefixBits 4 0 r

/-- A change of the difference. -/
def readDoD : BitReader Int64 := do
  let d ← readDoDPrefix
  match d with
  | 0b0 => return 0
  | 0b10 => return signExtend (← Reader.readBits 14) 14
  | 0b110 => return signExtend (← Reader.readBits 17) 17
  | 0b1110 => return signExtend (← Reader.readBits 20) 20
  | 0b1111 => return Int64.ofNat (← Reader.readBits 64)
  | _ => throw errUnexpectedEOF

/-- The bits of a change. -/
def dodCode : List Bool :=
  if dod = 0 then [false]
  else if bitRange dod 14 then [true, false] ++ bitsOf 14 (uint64 dod % 2 ^ 14)
  else if bitRange dod 17 then [true, true, false] ++ bitsOf 17 (uint64 dod % 2 ^ 17)
  else if bitRange dod 20 then [true, true, true, false] ++ bitsOf 20 (uint64 dod % 2 ^ 20)
  else [true, true, true, true] ++ bitsOf 64 (uint64 dod)

/-- The five cases as they are written and as they are read. -/
def dodPrefixes : List (List Bool × ℕ) :=
  [([false], 0b0), ([true, false], 0b10), ([true, true, false], 0b110),
    ([true, true, true, false], 0b1110), ([true, true, true, true], 0b1111)]

theorem uint64_lt : uint64 x < 2 ^ 64 := x.toUInt64.toNat_lt

@[simp] theorem ofNat_uint64 : Int64.ofNat (uint64 x) = x := by
  rw [← Int64.toBitVec_inj, Int64.toBitVec_ofNat']
  exact BitVec.ofNat_toNat 64 x.toBitVec

theorem toInt_eq_uint64 :
    x.toInt = if 2 * uint64 x < 2 ^ 64 then (uint64 x : ℤ) else (uint64 x : ℤ) - (2 ^ 64 : ℕ) :=
  BitVec.toInt_eq_toNat_cond x.toBitVec

/-- **A field in range is its value.** -/
theorem signExtend_uint64 {x : Int64} {n : ℕ} (hpos : 0 < n) (hn : n ≤ 63) (h : bitRange x n) :
    signExtend (uint64 x % 2 ^ n) n = x := by
  obtain ⟨hlo, hhi⟩ := h
  have hint := toInt_eq_uint64 x
  have hlt := uint64_lt x
  have hpow : (2 : ℤ) ^ n = 2 * 2 ^ (n - 1) := by
    rw [← pow_succ', Nat.sub_add_cancel hpos]
  have hpow' : 2 ^ n = 2 * 2 ^ (n - 1) := by exact_mod_cast hpow
  have hle : 2 ^ n ≤ 2 ^ 63 := Nat.pow_le_pow_right Nat.two_pos hn
  have hcast : ((2 ^ (n - 1) : ℕ) : ℤ) = 2 ^ (n - 1) := by push_cast; rfl
  rw [signExtend]
  by_cases hneg : 2 * uint64 x < 2 ^ 64
  · -- Not negative: the field is the value, at most its highest bit.
    have hfield : uint64 x % 2 ^ n = uint64 x := Nat.mod_eq_of_lt (by omega)
    rw [hfield, if_neg (by omega), ofNat_uint64]
  -- Negative: the field is `2 ^ n` above the value.
  have hfield : uint64 x % 2 ^ n = uint64 x - (2 ^ 64 - 2 ^ n) := by
    obtain ⟨k, hk⟩ : 2 ^ n ∣ 2 ^ 64 - 2 ^ n :=
      Nat.dvd_sub (Nat.pow_dvd_pow 2 (by omega)) (dvd_refl _)
    have hsplit : uint64 x = uint64 x - (2 ^ 64 - 2 ^ n) + 2 ^ n * k := by omega
    rw [hsplit, Nat.add_mul_mod_self_left, Nat.mod_eq_of_lt (by omega)]
    omega
  have hval : Int64.ofNat (uint64 x % 2 ^ n) - Int64.ofNat (2 ^ n) = x := by
    have hwrap : Int64.ofNat (uint64 x % 2 ^ n) = Int64.ofNat (uint64 x + 2 ^ n) := by
      rw [← Int64.toBitVec_inj, Int64.toBitVec_ofNat', Int64.toBitVec_ofNat', hfield,
        show uint64 x + 2 ^ n = uint64 x - (2 ^ 64 - 2 ^ n) + 2 ^ 64 by omega]
      exact BitVec.eq_of_toNat_eq (by simp)
    rw [hwrap, Int64.ofNat_add, Int64.add_sub_cancel, ofNat_uint64]
  rw [if_pos (by omega), hval]

theorem holds_writeDoD (h : w.Holds bits) (dod : Int64) :
    (writeDoD w dod).Holds (bits ++ dodCode dod) := by
  have hmask : ∀ n u : ℕ, u &&& (2 ^ n - 1) = u % 2 ^ n :=
    fun n u => Nat.and_two_pow_sub_one_eq_mod u n
  have hfield : ∀ (p u k n : ℕ), k ≤ 64 → n ≤ 64 →
      ((w.writeBits p k).writeBits u n).Holds (bits ++ (bitsOf k p ++ bitsOf n u)) := by
    intro p u k n hk hn
    rw [← append_assoc]
    exact Writer.holds_writeBits (Writer.holds_writeBits h p hk) u hn
  rw [writeDoD, dodCode]
  split_ifs
  · exact Writer.holds_writeBit h false
  · rw [← hmask]
    exact hfield _ _ 2 14 (by decide) (by decide)
  · rw [← hmask]
    exact hfield _ _ 3 17 (by decide) (by decide)
  · rw [← hmask]
    exact hfield _ _ 4 20 (by decide) (by decide)
  · exact hfield _ _ 4 64 (by decide) (by decide)

section Read

variable {stream : Bytes}

/-- **The selected case is read back**, at once or bit by bit. -/
theorem takes_readDoDPrefix (code : List Bool × ℕ) (hcode : code ∈ dodPrefixes) :
    Takes (Unread stream) readDoDPrefix code.1 code.2 := by
  have hfast : ∀ c ∈ dodPrefixes, ∀ p < 2 ^ 4, (bitsOf 4 p).take c.1.length = c.1 →
      dodPrefixOf p = (c.2, c.1.length) := by decide
  have hslow : ∀ c ∈ dodPrefixes, Takes (Unread stream) (dodPrefixBits 4 0) c.1 c.2 := by
    have hone : ∀ {k d : ℕ} {ts : List Bool} {a : ℕ},
        Takes (Unread stream) (dodPrefixBits k (d <<< 1 ||| 1)) ts a →
        Takes (Unread stream) (dodPrefixBits (k + 1) d) (true :: ts) a :=
      fun h => (Reader.takes_readBit true).bind h
    have hzero : ∀ {k d : ℕ}, Takes (Unread stream) (dodPrefixBits (k + 1) d) [false] (d <<< 1) :=
      (Reader.takes_readBit false).last (.pure _)
    intro c hc
    simp only [dodPrefixes, mem_cons, not_mem_nil, or_false] at hc
    rcases hc with rfl | rfl | rfl | rfl | rfl
    · exact hzero
    · exact hone hzero
    · exact hone (hone hzero)
    · exact hone (hone (hone hzero))
    · exact hone (hone (hone (hone (.pure _))))
  intro r rest h
  by_cases hv : 4 ≤ r.valid
  · obtain ⟨htake, hlt, -⟩ := Reader.unread_peek h hv (by decide)
    have hle : code.1.length ≤ 4 := (by decide : ∀ c ∈ dodPrefixes, c.1.length ≤ 4) code hcode
    have hbits : (bitsOf 4 (r.peek 4)).take code.1.length = code.1 := by
      rw [← htake, take_take, Nat.min_eq_left hle, take_left]
    refine ⟨r.skip code.1.length, ?_, ?_⟩
    · show (if 4 ≤ r.valid then Except.ok ((dodPrefixOf (r.peek 4)).1,
        r.skip (dodPrefixOf (r.peek 4)).2) else _) = _
      rw [if_pos hv, hfast code hcode _ hlt hbits]
    · have hskip := (Reader.unread_peek h (hle.trans hv) (by omega)).2.2
      rwa [drop_left] at hskip
  · obtain ⟨r', hrun, h'⟩ := hslow code hcode r rest h
    refine ⟨r', ?_, h'⟩
    show (if 4 ≤ r.valid then _ else _) = _
    rw [if_neg hv]
    exact hrun

theorem takes_readDoD : Takes (Unread stream) readDoD (dodCode dod) dod := by
  have hfield : ∀ {n : ℕ}, 0 < n → n ≤ 63 → bitRange dod n →
      Takes (Unread stream) (do return signExtend (← Reader.readBits n) n)
        (bitsOf n (uint64 dod % 2 ^ n)) dod := by
    intro n hpos hn hrange
    refine (Reader.takes_readBits (by omega) (Nat.mod_lt _ (Nat.two_pow_pos n))).last ?_
    rw [signExtend_uint64 hpos hn hrange]
    exact .pure dod
  rw [dodCode, readDoD]
  split_ifs with hzero h14 h17 h20
  · rw [hzero]
    exact (takes_readDoDPrefix ([false], 0b0) (by decide)).last (.pure 0)
  · exact (takes_readDoDPrefix ([true, false], 0b10) (by decide)).bind
      (hfield (by decide) (by decide) h14)
  · exact (takes_readDoDPrefix ([true, true, false], 0b110) (by decide)).bind
      (hfield (by decide) (by decide) h17)
  · exact (takes_readDoDPrefix ([true, true, true, false], 0b1110) (by decide)).bind
      (hfield (by decide) (by decide) h20)
  · refine (takes_readDoDPrefix ([true, true, true, true], 0b1111) (by decide)).bind
      ((Reader.takes_readBits le_rfl (uint64_lt dod)).last ?_)
    rw [ofNat_uint64]
    exact .pure dod

end Read

/-! ## The unit of the differences -/

/-- The scale divides a difference. -/
def divides (scale d : Int64) : Bool :=
  if scale = 1000000000 then d % 1000000000 == 0
  else if scale = 1000000 then d % 1000000 == 0
  else if scale = 1000 then d % 1000 == 0
  else true

/-- The scale stepped down until it divides the difference; three steps reach 1. -/
def stepDown : ℕ → Int64 → Int64 → Int64
  | 0, scale, _ => scale
  | k + 1, scale, d => if divides scale d then scale else stepDown k (scale / 1000) d

/-- The scale of the rows behind `prev`. -/
def tsScaleFrom : Int64 → Int64 → List Int64 → Int64
  | scale, _, [] => scale
  | scale, prev, t :: ts =>
      let scale := stepDown 3 scale (t - prev)
      if scale = 1 then 1 else tsScaleFrom scale t ts

/-- The coarsest scale that divides every difference. -/
def tsScale : List Int64 → Int64
  | [] => 1000000000
  | t :: ts => tsScaleFrom 1000000000 t ts

/-- The scales a reader accepts. -/
def validScale (scale : ℕ) : Prop :=
  scale = 1 ∨ scale = 1000 ∨ scale = 1000000 ∨ scale = 1000000000

instance (scale : ℕ) : Decidable (validScale scale) :=
  inferInstanceAs (Decidable (_ ∨ _ ∨ _ ∨ _))

/-- The differences of a list to the value before. -/
def differences : Int64 → List Int64 → List Int64
  | _, [] => []
  | prev, t :: ts => (t - prev) :: differences t ts

/-- The scales there are. -/
def IsScale (scale : Int64) : Prop :=
  scale = 1000000000 ∨ scale = 1000000 ∨ scale = 1000 ∨ scale = 1

theorem validScale_of_isScale (h : IsScale scale) : validScale (uint64 scale) := by
  rcases h with rfl | rfl | rfl | rfl <;> decide

theorem dvd_of_divides (hscale : IsScale scale) (h : divides scale d = true) :
    scale.toInt ∣ d.toInt := by
  have hdvd : ∀ s : Int64, s ≠ 0 → (d % s == 0) = true → s.toInt ∣ d.toInt := by
    intro s _ hs
    have hzero : (d % s).toInt = 0 := by
      rw [eq_of_beq hs]
      rfl
    rw [Int64.toInt_mod] at hzero
    exact Int.dvd_of_tmod_eq_zero hzero
  rcases hscale with rfl | rfl | rfl | rfl
  · exact hdvd _ (by decide) h
  · exact hdvd _ (by decide) h
  · exact hdvd _ (by decide) h
  · exact one_dvd _

theorem stepDown_spec (d : Int64) (hscale : IsScale scale) :
    IsScale (stepDown 3 scale d) ∧ (stepDown 3 scale d).toInt ∣ scale.toInt ∧
      (stepDown 3 scale d).toInt ∣ d.toInt := by
  -- A scale steps down as the next one does, unless it divides.
  have hstep : ∀ {k s next}, IsScale s → s / 1000 = next → next.toInt ∣ s.toInt →
      (IsScale (stepDown k next d) ∧ (stepDown k next d).toInt ∣ next.toInt ∧
        (stepDown k next d).toInt ∣ d.toInt) →
      IsScale (stepDown (k + 1) s d) ∧ (stepDown (k + 1) s d).toInt ∣ s.toInt ∧
        (stepDown (k + 1) s d).toInt ∣ d.toInt := by
    rintro k s _ hs rfl hdvd ⟨hscale', hdvd', hd⟩
    rw [stepDown]
    by_cases hdiv : divides s d = true
    · rw [if_pos hdiv]
      exact ⟨hs, dvd_refl _, dvd_of_divides hs hdiv⟩
    · rw [if_neg hdiv]
      exact ⟨hscale', hdvd'.trans hdvd, hd⟩
  have hone : ∀ k, IsScale (stepDown k 1 d) ∧ (stepDown k 1 d).toInt ∣ (1 : Int64).toInt ∧
      (stepDown k 1 d).toInt ∣ d.toInt := by
    intro k
    have heq : stepDown k 1 d = 1 := by cases k <;> rfl
    rw [heq]
    exact ⟨.inr (.inr (.inr rfl)), dvd_refl _, one_dvd _⟩
  have hthousand := fun k => hstep (k := k) (.inr (.inr (.inl rfl))) rfl (by decide) (hone k)
  have hmillion := fun k => hstep (k := k + 1) (.inr (.inl rfl)) rfl (by decide) (hthousand k)
  rcases hscale with rfl | rfl | rfl | rfl
  · exact hstep (.inl rfl) rfl (by decide) (hmillion 0)
  · exact hmillion 1
  · exact hthousand 2
  · exact hone 3

theorem tsScaleFrom_spec (hscale : IsScale scale) (prev : Int64) (ts : List Int64) :
    IsScale (tsScaleFrom scale prev ts) ∧ (tsScaleFrom scale prev ts).toInt ∣ scale.toInt ∧
      ∀ d ∈ differences prev ts, (tsScaleFrom scale prev ts).toInt ∣ d.toInt := by
  induction ts generalizing scale prev with
  | nil => exact ⟨hscale, dvd_refl _, nofun⟩
  | cons t ts ih =>
    obtain ⟨hstep, hdvd, hd⟩ := stepDown_spec (t - prev) hscale
    rw [tsScaleFrom]
    by_cases hone : stepDown 3 scale (t - prev) = 1
    · rw [if_pos hone]
      exact ⟨.inr (.inr (.inr rfl)), one_dvd _, fun d _ => one_dvd _⟩
    rw [if_neg hone]
    obtain ⟨hrest, hdvd', hds⟩ := ih hstep t
    refine ⟨hrest, hdvd'.trans hdvd, fun d hmem => ?_⟩
    rcases mem_cons.mp hmem with rfl | hmem
    · exact hdvd'.trans hd
    · exact hds d hmem

/-- **A difference divided by its unit comes back.** -/
theorem div_mul_of_dvd (h : scale.toInt ∣ d.toInt) : d / scale * scale = d := by
  have hlo := d.le_toInt
  have hhi := d.toInt_lt
  rw [← Int64.toInt_inj, Int64.toInt_mul, Int64.toInt_div, Int.bmod_mul_bmod, Int.tdiv_mul_cancel h]
  exact Int.bmod_eq_of_le (by omega) (by omega)

/-! ## The column -/

/-- The rows behind the second, for differences stored through `shrink`. -/
def writeDoDs (shrink : Int64 → Int64) (w : Writer) : Int64 → Int64 → List Int64 → Writer
  | _, _, [] => w
  | prev, prevDelta, t :: ts =>
      let tDelta := shrink (t - prev)
      writeDoDs shrink (writeDoD w (tDelta - prevDelta)) t tDelta ts

/-- The rows behind the first. -/
def writeDeltasBy (shrink : Int64 → Int64) (w : Writer) (t₀ t₁ : Int64)
    (ts : List Int64) : Writer :=
  let tDelta := shrink (t₁ - t₀)
  writeDoDs shrink (w.writeUvarint (uint64 tDelta)) t₁ tDelta ts

/-- The differences as they are. -/
def writeDeltas : Writer → Int64 → Int64 → List Int64 → Writer := writeDeltasBy id

/-- The differences in units of the scale. -/
def writeScaledDeltas (scale : Int64) : Writer → Int64 → Int64 → List Int64 → Writer :=
  writeDeltasBy (· / scale)

/-- The column, and with `scaled` its scale behind the first row. -/
def encodeTimestampsBy (ts : List Int64) (scaled : Bool) : Bytes :=
  let w := writeHeader dst ts.length
  match ts with
  | [] => w.stream
  | [t₀] => (w.writeVarint t₀).padToByte.stream
  | t₀ :: t₁ :: rest =>
      let w := w.writeVarint t₀
      let scale := if scaled then tsScale ts else 1
      let w := if scaled then w.writeUvarint (uint64 scale) else w
      let w := if scale = 1 then writeDeltas w t₀ t₁ rest else writeScaledDeltas scale w t₀ t₁ rest
      w.padToByte.stream

/-- The plain column written. -/
def encodeTimestamps (ts : List Int64) : Bytes := encodeTimestampsBy dst ts false

/-- The scaled column written. -/
def encodeTimestampsScaled (ts : List Int64) : Bytes := encodeTimestampsBy dst ts true

/-- The rows behind the second. -/
def readDoDs (grow : Int64 → Int64) : ℕ → Int64 → Int64 → BitReader (List Int64)
  | 0, _, _ => return []
  | rows + 1, prev, tDelta => do
      let dod ← readDoD
      let tDelta := tDelta + dod
      let t := prev + grow tDelta
      let ts ← readDoDs grow rows t tDelta
      return t :: ts

/-- The rows behind the first. -/
def readDeltasBy (grow : Int64 → Int64) (rows : ℕ) (t₀ : Int64) : BitReader (List Int64) := do
  let td64 ← Reader.readUvarint
  let tDelta := Int64.ofNat td64
  let t₁ := t₀ + grow tDelta
  let ts ← readDoDs grow (rows - 1) t₁ tDelta
  return t₁ :: ts

/-- The plain differences read. -/
def readDeltas : ℕ → Int64 → BitReader (List Int64) := readDeltasBy id

/-- The scaled differences read. -/
def readScaledDeltas (scale : Int64) : ℕ → Int64 → BitReader (List Int64) :=
  readDeltasBy (· * scale)

/-- The scale; 1 in a plain column. -/
def readScale : BitReader Int64 := do
  if !scaled then
    return 1
  let s ← Reader.readUvarint
  if ¬ validScale s then
    throw errUnexpectedEOF
  return Int64.ofNat s

/-- The rows of a column. -/
def readTimestamps (rows : ℕ) : BitReader (List Int64) := do
  let t₀ ← Reader.readVarint
  if rows = 1 then
    return [t₀]
  let scale ← readScale scaled
  let ts ← if scale = 1 then readDeltas (rows - 1) t₀ else readScaledDeltas scale (rows - 1) t₀
  return t₀ :: ts

/-- The plain column read. -/
def decodeTimestamps : List Int64 → Bytes → Except String (List Int64 × ℕ) :=
  decodeColumn (readTimestamps false)

/-- The scaled column read. -/
def decodeTimestampsScaled : List Int64 → Bytes → Except String (List Int64 × ℕ) :=
  decodeColumn (readTimestamps true)

/-- The bits of the rows behind the second. -/
def dodCodes (shrink : Int64 → Int64) : Int64 → Int64 → List Int64 → List Bool
  | _, _, [] => []
  | prev, prevDelta, t :: ts =>
      dodCode (shrink (t - prev) - prevDelta) ++ dodCodes shrink t (shrink (t - prev)) ts

/-- The bits of the rows behind the first. -/
def deltaBits (shrink : Int64 → Int64) (t₀ t₁ : Int64) (ts : List Int64) : List Bool :=
  bytesBits (appendUvarint (uint64 (shrink (t₁ - t₀)))) ++ dodCodes shrink t₁ (shrink (t₁ - t₀)) ts

theorem holds_writeDoDs (h : w.Holds bits) (prev prevDelta : Int64) (ts : List Int64) :
    (writeDoDs shrink w prev prevDelta ts).Holds (bits ++ dodCodes shrink prev prevDelta ts) := by
  induction ts generalizing w bits prev prevDelta with
  | nil =>
    rw [dodCodes, append_nil]
    exact h
  | cons t ts ih =>
    rw [writeDoDs, dodCodes, ← append_assoc]
    exact ih (holds_writeDoD h _) t _

theorem holds_writeDeltasBy (h : w.Holds bits) (t₀ t₁ : Int64) (ts : List Int64) :
    (writeDeltasBy shrink w t₀ t₁ ts).Holds (bits ++ deltaBits shrink t₀ t₁ ts) := by
  rw [writeDeltasBy, deltaBits, ← append_assoc]
  exact holds_writeDoDs (Writer.holds_writeUvarint h _) _ _ _

theorem one_le_length_dodCode : 1 ≤ (dodCode dod).length := by
  rw [dodCode]
  split_ifs <;> simp

theorem length_le_dodCodes (shrink : Int64 → Int64) (prev prevDelta : Int64) (ts : List Int64) :
    ts.length ≤ (dodCodes shrink prev prevDelta ts).length := by
  induction ts generalizing prev prevDelta with
  | nil => exact le_rfl
  | cons t ts ih =>
    rw [dodCodes, length_cons, length_append, Nat.add_comm]
    exact Nat.add_le_add (one_le_length_dodCode _) (ih _ _)

section Rows

variable {stream : Bytes} {grow : Int64 → Int64}

/-- **The rows are read back** when the stored differences give back the differences. -/
theorem takes_readDoDs (prev prevDelta : Int64) (ts : List Int64)
    (hinv : ∀ d ∈ differences prev ts, grow (shrink d) = d) :
    Takes (Unread stream) (readDoDs grow ts.length prev prevDelta)
      (dodCodes shrink prev prevDelta ts)
      ts := by
  induction ts generalizing prev prevDelta with
  | nil => exact .pure _
  | cons t ts ih =>
    refine (takes_readDoD _).bind ?_
    have hdelta : prevDelta + (shrink (t - prev) - prevDelta) = shrink (t - prev) := by
      rw [Int64.add_comm, Int64.sub_add_cancel]
    have htime : prev + grow (shrink (t - prev)) = t := by
      rw [hinv _ mem_cons_self, Int64.add_comm, Int64.sub_add_cancel]
    simp only [hdelta, htime]
    exact (ih t _ fun d hd => hinv d (mem_cons_of_mem _ hd)).last (.pure _)

theorem takes_readDeltasBy (t₀ t₁ : Int64) (ts : List Int64)
    (hinv : ∀ d ∈ differences t₀ (t₁ :: ts), grow (shrink d) = d) :
    Takes (Unread stream) (readDeltasBy grow (t₁ :: ts).length t₀) (deltaBits shrink t₀ t₁ ts)
      (t₁ :: ts) := by
  refine (Reader.takes_readUvarint (uint64_lt _)).bind ?_
  have htime : t₀ + grow (shrink (t₁ - t₀)) = t₁ := by
    rw [hinv _ mem_cons_self, Int64.add_comm, Int64.sub_add_cancel]
  simp only [ofNat_uint64, htime]
  exact (takes_readDoDs t₁ _ ts fun d hd => hinv d (mem_cons_of_mem _ hd)).last (.pure _)

end Rows

/-- How a column's differences are stored. -/
def shrinkBy (scale : Int64) : Int64 → Int64 := if scale = 1 then id else (· / scale)

/-- The unit of a column. -/
def columnScale (ts : List Int64) : Int64 := if scaled then tsScale ts else 1

/-- The bits of its scale. -/
def scaleBits (scale : Int64) : List Bool :=
  if scaled then bytesBits (appendUvarint (uint64 scale)) else []

/-- The bits of a column behind its row count. -/
def timestampBits : List Int64 → List Bool
  | [] => []
  | [t₀] => bytesBits (appendVarint t₀)
  | t₀ :: t₁ :: ts =>
      let scale := columnScale scaled (t₀ :: t₁ :: ts)
      bytesBits (appendVarint t₀) ++ (scaleBits scaled scale ++ deltaBits (shrinkBy scale) t₀ t₁ ts)

theorem one_le_length_appendUvarint (n : ℕ) : 1 ≤ (appendUvarint n).length :=
  length_pos_iff.mpr (appendUvarint_ne_nil n)

theorem length_le_timestampBits (ts : List Int64) :
    ts.length ≤ (timestampBits scaled ts).length := by
  match ts with
  | [] => exact le_rfl
  | [t₀] =>
    have := one_le_length_appendUvarint (zigzag t₀)
    rw [timestampBits, length_bytesBits, appendVarint, length_singleton]
    omega
  | t₀ :: t₁ :: ts =>
    have := one_le_length_appendUvarint (zigzag t₀)
    have := length_le_dodCodes (shrinkBy (columnScale scaled (t₀ :: t₁ :: ts))) t₁
      (shrinkBy (columnScale scaled (t₀ :: t₁ :: ts)) (t₁ - t₀)) ts
    rw [timestampBits, length_append, length_append, deltaBits, length_append,
      length_bytesBits, appendVarint, length_cons, length_cons]
    omega

theorem holds_writeColumn (h : w.Holds bits) (scale t₀ t₁ : Int64) (ts : List Int64) :
    (if scale = 1 then writeDeltas w t₀ t₁ ts else writeScaledDeltas scale w t₀ t₁ ts).Holds
      (bits ++ deltaBits (shrinkBy scale) t₀ t₁ ts) := by
  rw [shrinkBy]
  split
  · exact holds_writeDeltasBy h t₀ t₁ ts
  · exact holds_writeDeltasBy h t₀ t₁ ts

theorem exists_holds_encodeTimestampsBy (ts : List Int64) (scaled : Bool) :
    ∃ w : Writer, w.stream = encodeTimestampsBy dst ts scaled ∧
      w.Holds
        (bytesBits dst ++ (bytesBits (appendUvarint ts.length) ++ timestampBits scaled ts)) := by
  have hheader := holds_writeHeader dst ts.length
  match ts with
  | [] =>
    refine ⟨writeHeader dst 0, rfl, ?_⟩
    rw [timestampBits, append_nil]
    exact hheader
  | [t₀] =>
    refine ⟨(writeHeader dst 1).writeVarint t₀, rfl, ?_⟩
    rw [← append_assoc]
    exact Writer.holds_writeVarint hheader t₀
  | t₀ :: t₁ :: ts =>
    have hfirst := Writer.holds_writeVarint hheader t₀
    have hscale : ∀ scale, (if scaled then
        ((writeHeader dst (t₀ :: t₁ :: ts).length).writeVarint t₀).writeUvarint (uint64 scale)
        else (writeHeader dst (t₀ :: t₁ :: ts).length).writeVarint t₀).Holds
          (bytesBits dst ++ bytesBits (appendUvarint (t₀ :: t₁ :: ts).length) ++
            bytesBits (appendVarint t₀) ++ scaleBits scaled scale) := by
      intro scale
      rw [scaleBits]
      split
      · exact Writer.holds_writeUvarint hfirst _
      · rw [append_nil]
        exact hfirst
    have hrows := holds_writeColumn (hscale (columnScale scaled (t₀ :: t₁ :: ts)))
      (columnScale scaled (t₀ :: t₁ :: ts)) t₀ t₁ ts
    simp only [append_assoc] at hrows
    refine ⟨_, ?_, hrows⟩
    rfl

theorem columnScale_spec (t₀ : Int64) (ts : List Int64) :
    IsScale (columnScale scaled (t₀ :: ts)) ∧ ∀ d ∈ differences t₀ ts,
      (columnScale scaled (t₀ :: ts)).toInt ∣ d.toInt := by
  cases scaled with
  | false => exact ⟨.inr (.inr (.inr rfl)), fun d _ => one_dvd _⟩
  | true =>
    have hbase : IsScale 1000000000 := .inl rfl
    obtain ⟨hscale, -, hdvd⟩ := tsScaleFrom_spec hbase t₀ ts
    exact ⟨hscale, hdvd⟩

theorem takes_readScale {scaled : Bool} (hscale : IsScale scale)
    (hunit : scaled = false → scale = 1) :
    Takes (Unread stream) (readScale scaled) (scaleBits scaled scale) scale := by
  cases scaled with
  | false =>
    rw [hunit rfl]
    exact .pure 1
  | true =>
    refine (Reader.takes_readUvarint (uint64_lt scale)).last ?_
    have hvalid := validScale_of_isScale hscale
    rw [if_neg (not_not_intro hvalid), ofNat_uint64]
    exact .pure scale

theorem takes_readTimestamps {scaled : Bool} (hne : ts ≠ []) :
    Takes (Unread stream) (readTimestamps scaled ts.length) (timestampBits scaled ts) ts := by
  match ts with
  | [] => exact absurd rfl hne
  | [t₀] => exact (Reader.takes_readVarint t₀).last (.pure _)
  | t₀ :: t₁ :: ts =>
    obtain ⟨hscale, hdvd⟩ := columnScale_spec scaled t₀ (t₁ :: ts)
    refine (Reader.takes_readVarint t₀).bind ?_
    refine (takes_readScale hscale ?_).bind ?_
    · rintro rfl
      rfl
    generalize columnScale scaled (t₀ :: t₁ :: ts) = scale at hscale hdvd
    by_cases hone : scale = 1
    · rw [if_pos hone, shrinkBy, if_pos hone]
      exact (takes_readDeltasBy t₀ t₁ ts fun d _ => rfl).last (.pure _)
    · rw [if_neg hone, shrinkBy, if_neg hone]
      exact (takes_readDeltasBy t₀ t₁ ts fun d hd => div_mul_of_dvd (hdvd d hd)).last (.pure _)

theorem decodeColumn_encodeTimestampsBy (ts : List Int64) (scaled : Bool) (suffix : Bytes)
    (hlen : ts.length < 2 ^ 63) :
    decodeColumn (readTimestamps scaled) [] (encodeTimestampsBy [] ts scaled ++ suffix) =
      .ok (ts, (encodeTimestampsBy [] ts scaled).length) := by
  obtain ⟨w, hw, hholds⟩ := exists_holds_encodeTimestampsBy [] ts scaled
  rw [← hw]
  refine decodeColumn_written hholds hlen (length_le_timestampBits scaled ts) ?_
    (fun stream hne => takes_readTimestamps hne) suffix
  rintro rfl
  rfl

theorem encodeTimestampsBy_append (ts : List Int64) (scaled : Bool) :
    encodeTimestampsBy dst ts scaled = dst ++ encodeTimestampsBy [] ts scaled := by
  obtain ⟨w, hw, hholds⟩ := exists_holds_encodeTimestampsBy dst ts scaled
  obtain ⟨w', hw', hholds'⟩ := exists_holds_encodeTimestampsBy [] ts scaled
  rw [← hw, ← hw']
  exact hholds.stream_append hholds'

/-! ## Constant stride -/

/-- The rows an adaptive column may have. -/
def maxFloatGroupRows : ℕ := 1 <<< 20

/-- Every difference from here on is the stride. -/
def constantStride (step : Int64) : Int64 → List Int64 → Bool
  | _, [] => true
  | prev, t :: ts => t - prev == step && constantStride step t ts

/-- The first difference. -/
def stride : List Int64 → Int64
  | t₀ :: t₁ :: _ => t₁ - t₀
  | _ => 0

/-- All differences are the first one. -/
def isRegular : List Int64 → Bool
  | t₀ :: t₁ :: rest => constantStride (t₁ - t₀) t₁ rest
  | _ => true

/-- The first value and the stride, when there is a value. -/
def appendStride : List Int64 → Bytes
  | [] => dst
  | t₀ :: ts => dst ++ appendVarint t₀ ++ appendVarint (stride (t₀ :: ts))

/-- A stride, or else a plain column. -/
def encodeTimestampsAdaptive (values : List Int64) : Except String Bytes :=
  if maxFloatGroupRows < values.length then .error "adaptive timestamps: too many rows"
  else if isRegular values then
    .ok (appendStride (dst ++ [0] ++ appendUvarint values.length) values)
  else .ok (encodeTimestampsScaled (dst ++ [1]) values)

/-- `binary.Varint`, with what follows. -/
def varint (bs : Bytes) : Option (Int64 × Bytes) := (uvarint bs).map fun p => (unzigzag p.1, p.2)

/-- The rows, the first value and the stride. -/
def adaptiveTimestampHeader (src : Bytes) : Except String (ℕ × Int64 × Int64) :=
  match uvarint src with
  | none => .error "adaptive timestamps: invalid rows"
  | some (count, src) =>
      if maxFloatGroupRows < count then .error "adaptive timestamps: invalid rows"
      else if count = 0 then
        if src ≠ [] then .error "adaptive timestamps: trailing bytes" else .ok (0, 0, 0)
      else match varint src with
        | none => .error "adaptive timestamps: invalid first value"
        | some (first, src) => match varint src with
            | some (step, []) => .ok (count, first, step)
            | _ => .error "adaptive timestamps: invalid stride"

/-- The timestamps of a constant stride. -/
def strides (step : Int64) : ℕ → Int64 → List Int64
  | 0, _ => []
  | rows + 1, first => first :: strides step rows (first + step)

/-- The adaptive column read. -/
def decodeTimestampsAdaptive (dst : List Int64) : Bytes → Except String (List Int64 × ℕ)
  | [] => .error "adaptive timestamps: missing mode"
  | mode :: src =>
      if mode = 0 then do
        let (rows, first, step) ← adaptiveTimestampHeader src
        return (strides step rows first, src.length + 1)
      else if mode = 1 then
        match uvarint src with
        | none => .error "adaptive timestamps: invalid fallback rows"
        | some (rows, _) =>
            if rows = 0 ∨ maxFloatGroupRows < rows then
              .error "adaptive timestamps: invalid fallback rows"
            else do
              let (out, used) ← decodeTimestampsScaled dst src
              if used ≠ src.length then
                throw "adaptive timestamps: trailing fallback bytes"
              return (out, used + 1)
      else .error "adaptive timestamps: unsupported mode"

theorem varint_append (rest : Bytes) : varint (appendVarint x ++ rest) = some (x, rest) := by
  rw [varint, appendVarint, uvarint_append (zigzag_lt x), Option.map_some, unzigzag_zigzag]

theorem strides_of_constantStride {step prev : Int64} (h : constantStride step prev ts = true) :
    strides step ts.length (prev + step) = ts := by
  induction ts generalizing prev with
  | nil => rfl
  | cons t ts ih =>
    rw [constantStride, Bool.and_eq_true, beq_iff_eq] at h
    have ht : prev + step = t := by rw [← h.1, Int64.add_comm, Int64.sub_add_cancel]
    rw [length_cons, strides, ht, ih h.2]

theorem decodeTimestampsAdaptive_stride (rows : ℕ) (hpos : 0 < rows)
    (hrows : rows ≤ maxFloatGroupRows) (first step : Int64) :
    decodeTimestampsAdaptive []
      (0 :: (appendUvarint rows ++ (appendVarint first ++ appendVarint step))) =
      .ok (strides step rows first,
        (0 :: (appendUvarint rows ++ (appendVarint first ++ appendVarint step)) :
          Bytes).length) := by
  have hmax : maxFloatGroupRows < 2 ^ 64 := by decide
  have hstep := varint_append step []
  rw [append_nil] at hstep
  have hheader : adaptiveTimestampHeader
      (appendUvarint rows ++ (appendVarint first ++ appendVarint step)) =
      .ok (rows, first, step) := by
    rw [adaptiveTimestampHeader, uvarint_append (by omega)]
    simp only [varint_append, hstep]
    rw [if_neg (by omega), if_neg (by omega)]
  rw [decodeTimestampsAdaptive, if_pos rfl, hheader]
  rfl

theorem decodeTimestampsAdaptive_fallback (hne : ts ≠ []) (hrows : ts.length ≤ maxFloatGroupRows) :
    decodeTimestampsAdaptive [] (1 :: encodeTimestampsScaled [] ts) =
      .ok (ts, (1 :: encodeTimestampsScaled [] ts : Bytes).length) := by
  have hmax : maxFloatGroupRows < 2 ^ 63 := by decide
  have hdecoded := decodeColumn_encodeTimestampsBy ts true [] (by omega)
  rw [append_nil] at hdecoded
  obtain ⟨w, hw, hholds⟩ := exists_holds_encodeTimestampsBy [] ts true
  rw [bytesBits_nil, nil_append] at hholds
  obtain ⟨payload, hstream, -⟩ := hholds.exists_payload
  have hcount : uvarint (encodeTimestampsScaled [] ts) = some (ts.length, payload) := by
    rw [encodeTimestampsScaled, ← hw, hstream, uvarint_append (by omega)]
  have hpos := length_pos_iff.mpr hne
  have hscaled : decodeTimestampsScaled [] (encodeTimestampsScaled [] ts) =
      .ok (ts, (encodeTimestampsScaled [] ts).length) := hdecoded
  rw [decodeTimestampsAdaptive, if_neg (by decide), if_pos rfl, hcount]
  simp only
  rw [if_neg (by omega), hscaled]
  show (if _ ≠ _ then _ else _) = _
  rw [if_neg (not_not_intro rfl)]
  rfl

theorem strides_of_isRegular {t₀ : Int64} (h : isRegular (t₀ :: ts) = true) :
    strides (stride (t₀ :: ts)) (t₀ :: ts).length t₀ = t₀ :: ts := by
  cases ts with
  | nil => rfl
  | cons t₁ ts =>
    rw [length_cons, strides, length_cons, strides, stride, Int64.add_comm,
      Int64.sub_add_cancel, strides_of_constantStride h]

theorem decodeTimestampsAdaptive_encode (hrows : ts.length ≤ maxFloatGroupRows) :
    ∃ out, encodeTimestampsAdaptive [] ts = .ok out ∧
      decodeTimestampsAdaptive [] out = .ok (ts, out.length) := by
  rw [encodeTimestampsAdaptive, if_neg (Nat.not_lt.mpr hrows)]
  by_cases hregular : isRegular ts = true
  · rw [if_pos hregular]
    refine ⟨_, rfl, ?_⟩
    cases ts with
    | nil =>
      rw [appendStride, length_nil, appendUvarint_of_lt (by decide)]
      rfl
    | cons t₀ ts =>
      have h := decodeTimestampsAdaptive_stride (t₀ :: ts).length (Nat.succ_pos _) hrows t₀
        (stride (t₀ :: ts))
      rw [strides_of_isRegular hregular] at h
      rw [appendStride, append_assoc, append_assoc]
      exact h
  · rw [if_neg hregular]
    refine ⟨_, rfl, ?_⟩
    rw [encodeTimestampsScaled, encodeTimestampsBy_append]
    refine decodeTimestampsAdaptive_fallback ?_ hrows
    rintro rfl
    exact hregular rfl

/-- **Timestamps round trip.**  The timestamps written, whatever bytes follow them, are the ones
read, and exactly the written bytes are consumed; and the adaptive form gives back every list it
accepts. (A slice's length is an `int`.) -/
theorem timestamps_round_trip (ts : List Int64) (suffix : Bytes) (hlen : ts.length < 2 ^ 63) :
    decodeTimestamps [] (encodeTimestamps [] ts ++ suffix) =
      .ok (ts, (encodeTimestamps [] ts).length) ∧
    decodeTimestampsScaled [] (encodeTimestampsScaled [] ts ++ suffix) =
      .ok (ts, (encodeTimestampsScaled [] ts).length) ∧
    (ts.length ≤ maxFloatGroupRows → ∃ out, encodeTimestampsAdaptive [] ts = .ok out ∧
      decodeTimestampsAdaptive [] out = .ok (ts, out.length)) :=
  ⟨decodeColumn_encodeTimestampsBy ts false suffix hlen,
    decodeColumn_encodeTimestampsBy ts true suffix hlen, decodeTimestampsAdaptive_encode⟩

/-- Both ends of the range, whose differences wrap around. -/
theorem timestamps_round_trip_wrap :
    decodeTimestamps [] (encodeTimestamps [] [Int64.maxValue, Int64.minValue, 0, 1000] ++ [255]) =
      .ok ([Int64.maxValue, Int64.minValue, 0, 1000],
        (encodeTimestamps [] [Int64.maxValue, Int64.minValue, 0, 1000]).length) ∧
    (∃ out, encodeTimestampsAdaptive [] [Int64.maxValue, Int64.minValue, 0, 1000] = .ok out ∧
      decodeTimestampsAdaptive [] out =
        .ok ([Int64.maxValue, Int64.minValue, 0, 1000], out.length)) :=
  have h := timestamps_round_trip [Int64.maxValue, Int64.minValue, 0, 1000] [255] (by decide)
  ⟨h.1, h.2.2 (by decide)⟩

end OtelStorage.Encoding
