import Mathlib.Data.List.TakeWhile
import OtelStorage.Encoding.BitStream

/-!
# Columns of floats

A column stream (`encoding/chunk`) is its number of rows and a bit stream padded to whole bytes.
`decodeColumn` is the frame that every bit-packed decoder has; what a codec adds is a reader of the
rows, and `decodeColumn_written` turns "the reader takes the written bits" into the round trip of
the whole column, with whatever bytes follow it left alone.

The float codec writes the exclusive or of neighbouring values.  Its zero bits at both ends are left
out, inside a window that is carried from row to row and written again only when a value does not
fit.
-/

namespace OtelStorage.Encoding

open Delimited Wire Bits TokenReader List

/-! ## The frame -/

/-- The error of a stream that ends before a byte. -/
def errEOF : String := "chunk: unexpected end of stream"

/-- The error of a stream cut short. -/
def errUnexpectedEOF : String := "chunk: truncated stream"

variable (u : ℕ) (dst : Bytes) (rows : ℕ) {bits : List Bool} {w : Writer} (delta : ℕ)
  (vals : List UInt64) {p : ℕ → Bool} {k n : ℕ}

/-- A row count is held in an `int`, so one of 2^63 and more is negative. -/
def int : ℤ := (u : ℤ).bmod (2 ^ 64)

/-- The next byte of a header. -/
def byteReaderReadByte : StateT Bytes (Except String) Byte
  | [] => .error errEOF
  | b :: bs => .ok (b, bs)

/-- The row count and the bytes it took. -/
def readHeader (src : Bytes) : Except String (ℤ × ℕ) := do
  let (u, rest) ← (uvarintLoop byteReaderReadByte errUnexpectedEOF 10 0 0).run src
  return (int u, src.length - rest.length)

/-- The header of a column whose row count the caller knows. -/
def readHeaderRows (src : Bytes) (want : ℤ) : Except String (ℤ × ℕ) := do
  if want < 0 then
    throw errUnexpectedEOF
  let (rows, consumed) ← readHeader src
  if rows ≠ want then
    throw errUnexpectedEOF
  return (rows, consumed)

/-- The row count, behind the bytes of `dst`. -/
def writeHeader : Writer := (Writer.newWriter dst).writeUvarint rows

/-- A row count the caller allows. -/
def boundRows (rows maxRows : ℤ) : Except String Unit :=
  if rows < 0 ∨ maxRows < rows then .error errUnexpectedEOF else .ok ()

/-- The decoder of a bit-packed column: the rows and the bytes consumed. -/
def decodeColumn {α : Type} (readRows : ℕ → BitReader (List α)) (dst : List α) (src : Bytes) :
    Except String (List α × ℕ) := do
  let (rows, consumed) ← readHeader src
  if rows = 0 then
    return (dst, consumed)
  boundRows rows (8 * (src.length - consumed : ℕ))
  let (vals, r) ← (readRows rows.toNat).run (Reader.newReader (src.drop consumed))
  return (vals, consumed + r.consumedBytes)

theorem int_of_lt (h : n < 2 ^ 63) : int n = n :=
  Int.bmod_eq_of_le (by omega) (by omega)

theorem takes_byteReaderReadByte (b : Byte) : Takes (· = ·) byteReaderReadByte [b] b :=
  fun _ rest h => ⟨rest, by rw [h]; rfl, rfl⟩

theorem readHeader_append {rows : ℕ} (h : rows < 2 ^ 63) (rest : Bytes) :
    readHeader (appendUvarint rows ++ rest) = .ok (↑rows, (appendUvarint rows).length) := by
  have htakes : Takes (· = ·) (uvarintLoop byteReaderReadByte errUnexpectedEOF 10 0 0)
      ((appendUvarint rows).flatMap fun b => [b]) rows :=
    takes_uvarint takes_byteReaderReadByte (by omega)
  rw [flatMap_singleton'] at htakes
  obtain ⟨bs, hrun, hbs⟩ := htakes _ rest rfl
  rw [readHeader, hrun, hbs]
  show Except.ok (int rows, (appendUvarint rows ++ rest).length - rest.length) = _
  rw [int_of_lt h, length_append, Nat.add_sub_cancel]

theorem readHeaderRows_append {rows : ℕ} (h : rows < 2 ^ 63) (rest : Bytes) :
    readHeaderRows (appendUvarint rows ++ rest) rows =
      .ok (↑rows, (appendUvarint rows).length) := by
  simp [readHeaderRows, readHeader_append h, bind, Except.bind, pure, Except.pure]

theorem holds_writeHeader :
    (writeHeader dst rows).Holds (bytesBits dst ++ bytesBits (appendUvarint rows)) :=
  Writer.holds_writeUvarint (Writer.holds_newWriter dst) rows

/-- **A column written behind its row count is read back**, with the bytes after it left alone, by a
reader of rows that takes the written bits. -/
theorem decodeColumn_written {α : Type} {readRows : ℕ → BitReader (List α)} {vals : List α}
    (hw : w.Holds (bytesBits (appendUvarint vals.length) ++ bits)) (hrows : vals.length < 2 ^ 63)
    (hbits : vals.length ≤ bits.length) (hempty : vals = [] → bits = [])
    (hread : ∀ stream, vals ≠ [] → Takes (Unread stream) (readRows vals.length) bits vals)
    (suffix : Bytes) :
    decodeColumn readRows [] (w.stream ++ suffix) = .ok (vals, w.stream.length) := by
  obtain ⟨payload, hstream, hpayload⟩ := hw.exists_payload
  by_cases hvals : vals = []
  · subst hvals
    rw [hempty rfl, append_nil] at hw
    rw [hempty rfl, hw.count_eq_zero ⟨_, length_bytesBits _⟩, replicate_zero, append_nil,
      ← bytesBits_nil] at hpayload
    rw [hstream, bytesBits_injective hpayload, append_nil, decodeColumn, readHeader_append hrows]
    rfl
  have hlen := congrArg List.length hpayload
  rw [length_bytesBits, length_append, length_replicate] at hlen
  have hcount := hw.count
  obtain ⟨r, hrun, hr⟩ := hread (payload ++ suffix) hvals (Reader.newReader (payload ++ suffix))
    (List.replicate w.count false ++ bytesBits suffix) (by
      rw [← append_assoc, ← hpayload, ← bytesBits_append]
      exact Reader.unread_newReader _)
  have hconsumed := Reader.consumedBytes_eq hr
  rw [length_append, length_append, length_replicate, length_bytesBits] at hconsumed
  have hpos : 0 < vals.length := length_pos_iff.mpr hvals
  have hbound : boundRows vals.length
      (8 * ((appendUvarint vals.length ++ (payload ++ suffix)).length -
        (appendUvarint vals.length).length : ℕ)) = .ok () := by
    rw [boundRows, if_neg]
    rw [length_append, length_append]
    omega
  rw [hstream, append_assoc, decodeColumn, readHeader_append hrows]
  show (if (vals.length : ℤ) = 0 then _ else _) = _
  rw [if_neg (by omega)]
  rw [hbound]
  rw [Int.toNat_natCast, drop_left, hrun]
  show Except.ok (vals, (appendUvarint vals.length).length + r.consumedBytes) = _
  rw [hconsumed, length_append]
  congr 2
  omega

/-! ## Floats -/

/-- `bits.LeadingZeros64`. -/
def leadingZeros64 : ℕ := ((List.range 64).takeWhile fun i => !u.testBit (63 - i)).length

/-- `bits.TrailingZeros64`. -/
def trailingZeros64 : ℕ := ((List.range 64).takeWhile fun i => !u.testBit i).length

/-- The bits left out at both ends; 0xff of them in front before the first value that changes. -/
structure Window where
  leading : ℕ
  trailing : ℕ
deriving DecidableEq, Repr

/-- Before the first value that changes. -/
def Window.initial : Window := ⟨0xff, 0⟩

/-- The leading zeros that fit the five bits they are written in. -/
def clampedLeading : ℕ :=
  if 32 ≤ leadingZeros64 delta then 31 else leadingZeros64 delta

/-- The difference fits the carried window. -/
def Window.Reused (win : Window) (delta : ℕ) : Prop :=
  win.leading ≠ 0xff ∧ win.leading ≤ clampedLeading delta ∧ win.trailing ≤ trailingZeros64 delta

instance (win : Window) (delta : ℕ) : Decidable (win.Reused delta) :=
  inferInstanceAs (Decidable (_ ∧ _ ∧ _))

/-- One value against the one before it. -/
def xorWrite (w : Writer) (newVal curVal : UInt64) (win : Window) : Writer × Window :=
  let delta := (newVal ^^^ curVal).toNat
  if delta = 0 then (w.writeBit false, win)
  else
    let w := w.writeBit true
    if win.Reused delta then
      ((w.writeBit false).writeBits (delta >>> win.trailing) (64 - win.leading - win.trailing), win)
    else
      let newLeading := clampedLeading delta
      let newTrailing := trailingZeros64 delta
      let sigbits := 64 - newLeading - newTrailing
      ((((w.writeBit true).writeBits newLeading 5).writeBits sigbits 6).writeBits
        (delta >>> newTrailing) sigbits, ⟨newLeading, newTrailing⟩)

/-- The rows behind the first, each against the one before it. -/
def xorWriteAll (w : Writer) : UInt64 → Window → List UInt64 → Writer
  | _, _, [] => w
  | cur, win, v :: vals =>
      let (w, win) := xorWrite w v cur win
      xorWriteAll w v win vals

/-- The column written. -/
def encodeFloats : Bytes :=
  let w := writeHeader dst vals.length
  match vals with
  | [] => w.stream
  | v :: rest => (xorWriteAll (w.writeBits v.toNat 64) v .initial rest).padToByte.stream

/-- The control bits one at a time. -/
def xorReadControlBits : BitReader (Bool × Bool) := do
  let bit ← Reader.readBit
  if !bit then
    return (false, false)
  let newLT ← Reader.readBit
  return (true, newLT)

/-- Whether the value changed and, when it did, whether a new window follows; both bits at once when
the loaded word has them. -/
def xorReadControl : BitReader (Bool × Bool) := fun r =>
  if 2 ≤ r.valid then
    let p := r.peek 2
    if p &&& 0b10 = 0 then .ok ((false, false), r.skip 1)
    else .ok ((true, decide (p &&& 0b01 ≠ 0)), r.skip 2)
  else xorReadControlBits r

/-- The width of the next field and the window it is in, carried or read. -/
def xorReadWindow (ctrl1 : Bool) (win : Window) : BitReader (ℕ × Window) := do
  if !ctrl1 then
    if 64 < win.leading + win.trailing then
      throw errUnexpectedEOF
    return (64 - win.leading - win.trailing, win)
  let lbits ← Reader.readBits 5
  let sbits ← Reader.readBits 6
  let sigbits := if sbits = 0 then 64 else sbits
  if 64 < lbits + sigbits then
    throw errUnexpectedEOF
  return (sigbits, ⟨lbits, 64 - lbits - sigbits⟩)

/-- One value, and the window carried on. -/
def xorRead (val : UInt64) (win : Window) : BitReader (UInt64 × Window) := do
  let (changed, ctrl1) ← xorReadControl
  if !changed then
    return (val, win)
  let (sigbits, win) ← xorReadWindow ctrl1 win
  let mbits ← Reader.readBits sigbits
  return (val ^^^ UInt64.ofNat ((mbits <<< win.trailing) % 2 ^ 64), win)

/-- The rows behind the first. -/
def xorReadAll : ℕ → UInt64 → Window → BitReader (List UInt64)
  | 0, _, _ => return []
  | rows + 1, cur, win => do
      let (v, win) ← xorRead cur win
      let vals ← xorReadAll rows v win
      return v :: vals

/-- The rows of a column. -/
def readFloats : BitReader (List UInt64) := do
  let v0 ← Reader.readBits 64
  let vals ← xorReadAll (rows - 1) (UInt64.ofNat v0) .initial
  return UInt64.ofNat v0 :: vals

/-- The column read. -/
def decodeFloats : List UInt64 → Bytes → Except String (List UInt64 × ℕ) := decodeColumn readFloats

/-! ### Zeros at the ends -/

theorem of_lt_length_takeWhile_range (h : k < ((List.range n).takeWhile p).length) :
    p k = true := by
  have hle : ((List.range n).takeWhile p).length ≤ (List.range n).length :=
    (List.takeWhile_prefix p).length_le
  have hget : ((List.range n).takeWhile p)[k] = k := by
    rw [(List.takeWhile_prefix p).getElem h, getElem_range]
  have hmem : k ∈ (List.range n).takeWhile p := mem_iff_getElem.mpr ⟨k, h, hget⟩
  exact mem_takeWhile_imp hmem

theorem length_takeWhile_range_le (h : p k = false) : ((List.range n).takeWhile p).length ≤ k := by
  by_contra hlt
  rw [of_lt_length_takeWhile_range (Nat.lt_of_not_le hlt)] at h
  exact Bool.noConfusion h

theorem lt_of_leadingZeros64 {u : ℕ} (hu : u < 2 ^ 64) (hk : k ≤ leadingZeros64 u) :
    u < 2 ^ (64 - k) := by
  refine Nat.lt_pow_two_of_testBit u fun i hi => ?_
  by_cases h64 : i < 64
  · have hzero := of_lt_length_takeWhile_range (show 63 - i < leadingZeros64 u by omega)
    rw [Bool.not_eq_true', show 63 - (63 - i) = i by omega] at hzero
    exact hzero
  · exact Nat.testBit_eq_false_of_lt
      (hu.trans_le (Nat.pow_le_pow_right Nat.two_pos (Nat.le_of_not_lt h64)))

theorem shiftRight_shiftLeft_of_trailingZeros64 {u : ℕ} (hk : k ≤ trailingZeros64 u) :
    (u >>> k) <<< k = u := by
  refine Nat.eq_of_testBit_eq fun i => ?_
  rw [Nat.testBit_shiftLeft, Nat.testBit_shiftRight]
  by_cases hi : k ≤ i
  · rw [decide_eq_true hi, Bool.true_and, Nat.add_sub_cancel' hi]
  · have hzero := of_lt_length_takeWhile_range (show i < trailingZeros64 u by omega)
    rw [Bool.not_eq_true'] at hzero
    rw [decide_eq_false hi, Bool.false_and, hzero]

theorem leadingZeros64_add_trailingZeros64 {u : ℕ} (hu : u < 2 ^ 64) (hne : u ≠ 0) :
    leadingZeros64 u + trailingZeros64 u < 64 := by
  obtain ⟨i, hi⟩ := Nat.exists_testBit_of_ne_zero hne
  have h64 : i < 64 := by
    by_contra hle
    rw [Nat.testBit_eq_false_of_lt
      (hu.trans_le (Nat.pow_le_pow_right Nat.two_pos (Nat.le_of_not_lt hle)))] at hi
    exact Bool.noConfusion hi
  have hleading : leadingZeros64 u ≤ 63 - i := length_takeWhile_range_le (by
    rw [show 63 - (63 - i) = i by omega, hi]
    rfl)
  have htrailing : trailingZeros64 u ≤ i := length_takeWhile_range_le (by rw [hi]; rfl)
  omega

/-! ### The code of one value -/

/-- The bits of a difference under the carried window. -/
def xorCode (win : Window) : List Bool :=
  if delta = 0 then [false]
  else if win.Reused delta then
    [true, false] ++ bitsOf (64 - win.leading - win.trailing) (delta >>> win.trailing)
  else
    let sigbits := 64 - clampedLeading delta - trailingZeros64 delta
    [true, true] ++ (bitsOf 5 (clampedLeading delta) ++ bitsOf 6 sigbits) ++
      bitsOf sigbits (delta >>> trailingZeros64 delta)

/-- The window carried on. -/
def xorWindow (win : Window) : Window :=
  if delta = 0 then win
  else if win.Reused delta then win
  else ⟨clampedLeading delta, trailingZeros64 delta⟩

/-- A window leaves out fewer than 64 bits, unless none has been written yet. -/
def Window.Fits (win : Window) : Prop := win.leading ≠ 0xff → win.leading + win.trailing < 64

theorem Window.fits_initial : Window.initial.Fits := fun h => absurd rfl h

theorem clampedLeading_le : clampedLeading delta ≤ leadingZeros64 delta := by
  rw [clampedLeading]
  split
  · omega
  · exact le_rfl

theorem clampedLeading_lt : clampedLeading delta < 2 ^ 5 := by
  rw [clampedLeading]
  split
  · decide
  · omega

theorem clampedLeading_add {delta : ℕ} (hlt : delta < 2 ^ 64) (hne : delta ≠ 0) :
    clampedLeading delta + trailingZeros64 delta < 64 := by
  have := leadingZeros64_add_trailingZeros64 hlt hne
  have := clampedLeading_le delta
  omega

variable {win : Window} {stream : Bytes}

theorem fits_xorWindow {delta : ℕ} (hlt : delta < 2 ^ 64) (hwin : win.Fits) :
    (xorWindow delta win).Fits := by
  rw [xorWindow]
  split_ifs with hzero hreused
  · exact hwin
  · exact hwin
  · exact fun _ => clampedLeading_add hlt hzero

theorem one_le_length_xorCode (win : Window) : 1 ≤ (xorCode delta win).length := by
  rw [xorCode]
  split_ifs
  · exact le_rfl
  · rw [length_append]
    exact Nat.le_add_right_of_le (by decide)
  · rw [length_append, length_append]
    exact Nat.le_add_right_of_le (Nat.le_add_right_of_le (by decide))

theorem holds_xorWrite (h : w.Holds bits) (newVal curVal : UInt64) (win : Window) :
    (xorWrite w newVal curVal win).1.Holds (bits ++ xorCode (newVal ^^^ curVal).toNat win) ∧
      (xorWrite w newVal curVal win).2 = xorWindow (newVal ^^^ curVal).toNat win := by
  rw [xorWrite, xorCode, xorWindow]
  generalize (newVal ^^^ curVal).toNat = delta
  by_cases hzero : delta = 0
  · simp only [if_pos hzero]
    exact ⟨Writer.holds_writeBit h false, trivial⟩
  simp only [if_neg hzero]
  have hchanged := Writer.holds_writeBit h true
  by_cases hreused : win.Reused delta
  · simp only [if_pos hreused]
    refine ⟨?_, trivial⟩
    have hfield := Writer.holds_writeBits (Writer.holds_writeBit hchanged false)
      (delta >>> win.trailing) (show 64 - win.leading - win.trailing ≤ 64 by omega)
    rwa [append_assoc bits, append_assoc bits] at hfield
  simp only [if_neg hreused]
  refine ⟨?_, trivial⟩
  have hhead := Writer.holds_writeBits (Writer.holds_writeBits
    (Writer.holds_writeBit hchanged true) (clampedLeading delta) (show 5 ≤ 64 by decide))
    (64 - clampedLeading delta - trailingZeros64 delta) (show 6 ≤ 64 by decide)
  have hfield := Writer.holds_writeBits hhead (delta >>> trailingZeros64 delta)
    (show 64 - clampedLeading delta - trailingZeros64 delta ≤ 64 by omega)
  simp only [append_assoc] at hfield ⊢
  exact hfield

/-! ### Reading it back -/

section Read

variable {stream : Bytes}

theorem peek_two {r : Reader} {b₀ b₁ : Bool} {rest : List Bool}
    (h : Unread stream r (b₀ :: b₁ :: rest)) (hv : 2 ≤ r.valid) :
    (r.peek 2 &&& 0b10 = 0 ↔ b₀ = false) ∧ decide (r.peek 2 &&& 0b01 ≠ 0) = b₁ := by
  obtain ⟨htake, hlt, -⟩ := Reader.unread_peek h hv (by decide)
  have hbits : [b₀, b₁] = [(r.peek 2).testBit 1, (r.peek 2).testBit 0] := htake
  simp only [List.cons.injEq, and_true] at hbits
  rw [hbits.1, hbits.2]
  generalize r.peek 2 = p at hlt
  revert hlt
  revert p
  decide

theorem takes_xorReadControl_of {ctrl : Bool × Bool}
    (hfast : ∀ r rest, 2 ≤ r.valid → Unread stream r (bits ++ rest) →
      ∃ r', (if r.peek 2 &&& 0b10 = 0 then Except.ok ((false, false), r.skip 1)
        else Except.ok ((true, decide (r.peek 2 &&& 0b01 ≠ 0)), r.skip 2)) =
          (.ok (ctrl, r') : Except String ((Bool × Bool) × Reader)) ∧ Unread stream r' rest)
    (hslow : Takes (Unread stream) xorReadControlBits bits ctrl) :
    Takes (Unread stream) xorReadControl bits ctrl := by
  intro r rest h
  by_cases hv : 2 ≤ r.valid
  · obtain ⟨r', hrun, h'⟩ := hfast r rest hv h
    refine ⟨r', ?_, h'⟩
    show (if 2 ≤ r.valid then _ else _) = _
    rw [if_pos hv, hrun]
  obtain ⟨r', hrun, h'⟩ := hslow r rest h
  refine ⟨r', ?_, h'⟩
  show (if 2 ≤ r.valid then _ else _) = _
  rw [if_neg hv]
  exact hrun

theorem takes_xorReadControl_unchanged :
    Takes (Unread stream) xorReadControl [false] (false, false) := by
  refine takes_xorReadControl_of (fun r rest hv h => ?_)
    ((Reader.takes_readBit false).last (.pure _))
  -- The word has a bit behind this one, whatever it belongs to.
  obtain ⟨b₁, rest', rfl⟩ : ∃ b₁ rest', rest = b₁ :: rest' := by
    refine exists_cons_of_length_pos ?_
    have hle := Reader.valid_le_length h
    rw [length_append, length_singleton] at hle
    omega
  refine ⟨r.skip 1, ?_, (Reader.unread_peek h (by omega) (by decide)).2.2⟩
  rw [if_pos ((peek_two h hv).1.mpr rfl)]

theorem takes_xorReadControl_changed (newLT : Bool) :
    Takes (Unread stream) xorReadControl [true, newLT] (true, newLT) := by
  refine takes_xorReadControl_of (fun r rest hv h => ?_)
    ((Reader.takes_readBit true).bind ((Reader.takes_readBit newLT).last (.pure _)))
  obtain ⟨hfirst, hsecond⟩ := peek_two h hv
  refine ⟨r.skip 2, ?_, (Reader.unread_peek h hv (by decide)).2.2⟩
  rw [if_neg fun hzero => Bool.noConfusion (hfirst.mp hzero), hsecond]

theorem takes_field {newVal curVal : UInt64} (win : Window)
    (hleading : win.leading ≤ leadingZeros64 (newVal ^^^ curVal).toNat)
    (htrailing : win.trailing ≤ trailingZeros64 (newVal ^^^ curVal).toNat) :
    Takes (Unread stream) (do
      let mbits ← Reader.readBits (64 - win.leading - win.trailing)
      return (curVal ^^^ UInt64.ofNat ((mbits <<< win.trailing) % 2 ^ 64), win))
      (bitsOf (64 - win.leading - win.trailing) ((newVal ^^^ curVal).toNat >>> win.trailing))
      (newVal, win) := by
  have hlt : (newVal ^^^ curVal).toNat < 2 ^ 64 := (newVal ^^^ curVal).toNat_lt
  have hfield : (newVal ^^^ curVal).toNat >>> win.trailing <
      2 ^ (64 - win.leading - win.trailing) := by
    rw [Nat.shiftRight_eq_div_pow, Nat.div_lt_iff_lt_mul (Nat.two_pow_pos _), ← Nat.pow_add]
    exact (lt_of_leadingZeros64 hlt hleading).trans_le (Nat.pow_le_pow_right Nat.two_pos (by omega))
  refine (Reader.takes_readBits (by omega) hfield).last ?_
  have hval : curVal ^^^ (newVal ^^^ curVal) = newVal := by
    rw [UInt64.xor_comm newVal, ← UInt64.xor_assoc, UInt64.xor_self, UInt64.zero_xor]
  rw [shiftRight_shiftLeft_of_trailingZeros64 htrailing, Nat.mod_eq_of_lt hlt,
    UInt64.ofNat_toNat, hval]
  exact .pure _

theorem takes_xorReadWindow {leading trailing : ℕ} (win : Window) (hleading : leading < 2 ^ 5)
    (hfits : leading + trailing < 64) :
    Takes (Unread stream) (xorReadWindow true win)
      (bitsOf 5 leading ++ bitsOf 6 (64 - leading - trailing))
      (64 - leading - trailing, ⟨leading, trailing⟩) := by
  rw [← bitsOf_mod (le_refl 6) (64 - leading - trailing)]
  refine (Reader.takes_readBits (by decide) hleading).bind
    ((Reader.takes_readBits (by decide) (Nat.mod_lt _ (Nat.two_pow_pos 6))).last ?_)
  have hwidth : (if (64 - leading - trailing) % 2 ^ 6 = 0 then 64
      else (64 - leading - trailing) % 2 ^ 6) = 64 - leading - trailing := by
    split_ifs
    · omega
    · omega
  simp only [hwidth]
  rw [if_neg (by omega), show 64 - leading - (64 - leading - trailing) = trailing by omega]
  exact .pure _

/-- **One value is read back**, and the window carried on as the writer carries it. -/
theorem takes_xorRead (newVal curVal : UInt64) (hwin : win.Fits) :
    Takes (Unread stream) (xorRead curVal win) (xorCode (newVal ^^^ curVal).toNat win)
      (newVal, xorWindow (newVal ^^^ curVal).toNat win) := by
  have hlt : (newVal ^^^ curVal).toNat < 2 ^ 64 := (newVal ^^^ curVal).toNat_lt
  rw [xorCode, xorWindow, xorRead]
  by_cases hzero : (newVal ^^^ curVal).toNat = 0
  · have heq : newVal = curVal := UInt64.xor_eq_zero_iff.mp (UInt64.toNat_inj.mp hzero)
    rw [if_pos hzero, if_pos hzero, heq]
    exact takes_xorReadControl_unchanged.last (.pure _)
  rw [if_neg hzero, if_neg hzero]
  by_cases hreused : win.Reused (newVal ^^^ curVal).toNat
  · rw [if_pos hreused, if_pos hreused]
    have hwindow : Takes (Unread stream) (xorReadWindow false win) []
        (64 - win.leading - win.trailing, win) := by
      have := hwin hreused.1
      rw [xorReadWindow, Bool.not_false, if_pos rfl, if_neg (by omega)]
      exact .pure _
    exact (takes_xorReadControl_changed false).bind (hwindow.bind
      (takes_field win (hreused.2.1.trans (clampedLeading_le _)) hreused.2.2))
  · rw [if_neg hreused, if_neg hreused, append_assoc]
    have hfits := clampedLeading_add hlt hzero
    exact (takes_xorReadControl_changed true).bind
      ((takes_xorReadWindow win (clampedLeading_lt _) hfits).bind
        (takes_field ⟨_, _⟩ (clampedLeading_le _) le_rfl))

end Read

/-! ### The column -/

/-- The bits of the rows behind the first. -/
def xorCodes : UInt64 → Window → List UInt64 → List Bool
  | _, _, [] => []
  | cur, win, v :: vals =>
      xorCode (v ^^^ cur).toNat win ++ xorCodes v (xorWindow (v ^^^ cur).toNat win) vals

theorem holds_xorWriteAll (h : w.Holds bits) (cur : UInt64) (win : Window) (vals : List UInt64) :
    (xorWriteAll w cur win vals).Holds (bits ++ xorCodes cur win vals) := by
  induction vals generalizing w bits cur win with
  | nil =>
    rw [xorCodes, append_nil]
    exact h
  | cons v vals ih =>
    obtain ⟨hcode, hwindow⟩ := holds_xorWrite h v cur win
    rw [xorWriteAll, xorCodes, ← append_assoc, ← hwindow]
    exact ih hcode v _

theorem length_le_xorCodes (cur : UInt64) (win : Window) (vals : List UInt64) :
    vals.length ≤ (xorCodes cur win vals).length := by
  induction vals generalizing cur win with
  | nil => exact le_rfl
  | cons v vals ih =>
    rw [xorCodes, length_cons, length_append, Nat.add_comm]
    exact Nat.add_le_add (one_le_length_xorCode _ _) (ih _ _)

theorem takes_xorReadAll (cur : UInt64) (hwin : win.Fits) (vals : List UInt64) :
    Takes (Unread stream) (xorReadAll vals.length cur win) (xorCodes cur win vals) vals := by
  induction vals generalizing cur win with
  | nil => exact .pure _
  | cons v vals ih =>
    have hwin' := fits_xorWindow (v ^^^ cur).toNat_lt hwin
    exact (takes_xorRead v cur hwin).bind ((ih v hwin').last (.pure _))

/-- The bits of a column behind its row count. -/
def floatBits : List UInt64 → List Bool
  | [] => []
  | v :: vals => bitsOf 64 v.toNat ++ xorCodes v .initial vals

theorem length_le_floatBits : vals.length ≤ (floatBits vals).length := by
  cases vals with
  | nil => exact le_rfl
  | cons v vals =>
    have := length_le_xorCodes v .initial vals
    rw [floatBits, length_append, length_bitsOf, length_cons]
    omega

theorem takes_readFloats {vals : List UInt64} (hne : vals ≠ []) :
    Takes (Unread stream) (readFloats vals.length) (floatBits vals) vals := by
  cases vals with
  | nil => exact absurd rfl hne
  | cons v vals =>
    refine (Reader.takes_readBits le_rfl v.toNat_lt).bind ?_
    rw [UInt64.ofNat_toNat]
    exact (takes_xorReadAll v Window.fits_initial vals).last (.pure _)

theorem exists_holds_encodeFloats :
    ∃ w : Writer, w.stream = encodeFloats dst vals ∧
      w.Holds (bytesBits dst ++ (bytesBits (appendUvarint vals.length) ++ floatBits vals)) := by
  have hheader := holds_writeHeader dst vals.length
  cases vals with
  | nil =>
    refine ⟨_, rfl, ?_⟩
    rw [floatBits, append_nil]
    exact hheader
  | cons v vals =>
    refine ⟨xorWriteAll _ v .initial vals, rfl, ?_⟩
    have hrows := holds_xorWriteAll (Writer.holds_writeBits hheader v.toNat le_rfl) v .initial vals
    simp only [append_assoc] at hrows
    exact hrows

/-- **Floats round trip.**  The bit patterns written, whatever bytes follow them, are the ones read,
and exactly the written bytes are consumed.  (A slice's length is an `int`.) -/
theorem decodeFloats_encodeFloats (vals : List UInt64) (suffix : Bytes)
    (hlen : vals.length < 2 ^ 63) :
    decodeFloats [] (encodeFloats [] vals ++ suffix) =
      .ok (vals, (encodeFloats [] vals).length) := by
  obtain ⟨w, hw, hholds⟩ := exists_holds_encodeFloats [] vals
  rw [← hw]
  refine decodeColumn_written hholds hlen (length_le_floatBits vals) ?_
    (fun stream hne => takes_readFloats hne) suffix
  rintro rfl
  rfl

/-- A NaN with a payload, both zeros and a repeated value, with a byte behind them. -/
theorem decodeFloats_encodeFloats_nan :
    decodeFloats [] (encodeFloats [] [0x7ff8000000000001, 0x8000000000000000, 0, 0] ++ [255]) =
      .ok ([0x7ff8000000000001, 0x8000000000000000, 0, 0],
        (encodeFloats [] [0x7ff8000000000001, 0x8000000000000000, 0, 0]).length) :=
  decodeFloats_encodeFloats _ [255] (by decide)

end OtelStorage.Encoding
