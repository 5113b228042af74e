import OtelStorage.Foundation.Bits
import OtelStorage.Foundation.TokenReader

/-!
# Bit streams

The writer and reader under every column codec (`encoding/bitstream`).  Bits go into bytes from the
high end.  The writer keeps how many low bits of its last byte are free; the reader keeps a word of
up to eight bytes taken off the stream and how many of its low bits have not been read yet.

`Writer.Holds w bits` says what has been written, `Unread stream r bits` what is still to be read,
and every operation is described on those lists alone: writing appends (`holds_writeBits`, …),
reading takes off the front (`takes_readBits`, …), wherever the words and bytes happen to be cut.
-/

namespace OtelStorage.Encoding

open Delimited Wire Bits TokenReader List

/-! ## Writing -/

/-- The written bytes and the free low bits of the last one. -/
@[ext]
structure Writer where
  stream : Bytes
  count : ℕ
deriving DecidableEq, Repr

/-- `byte(u)`. -/
def toByte (u : ℕ) : Byte := Fin.ofNat 256 u

/-- `stream[len(stream)-1] |= x`. -/
def orLast (stream : Bytes) (x : ℕ) : Bytes :=
  stream.set (stream.length - 1) (toByte ((stream.getLastD 0).val ||| x))

namespace Writer

/-- A writer behind the bytes of `buf`. -/
def newWriter (buf : Bytes) : Writer := ⟨buf, 0⟩

/-- One bit. -/
def writeBit (w : Writer) (bit : Bool) : Writer :=
  let w := if w.count = 0 then ⟨w.stream ++ [0], 8⟩ else w
  ⟨if bit then orLast w.stream (1 <<< (w.count - 1)) else w.stream, w.count - 1⟩

/-- Eight bits, which may span two bytes. -/
def writeByte (w : Writer) (b : Byte) : Writer :=
  if w.count = 0 then { w with stream := w.stream ++ [b] }
  else { w with
    stream := orLast w.stream (b.val >>> (8 - w.count)) ++ [toByte (b.val <<< w.count)] }

/-- The whole bytes at the top of the word `u` and then the byte of its remaining bits. -/
def writeTop (stream : Bytes) (u nbits : ℕ) : Writer :=
  if 8 ≤ nbits then writeTop (stream ++ [toByte (u >>> 56)]) ((u <<< 8) % 2 ^ 64) (nbits - 8)
  else if 0 < nbits then ⟨stream ++ [toByte (u >>> 56)], 8 - nbits⟩
  else ⟨stream, 0⟩

/-- The `nbits` low bits of `u`, for `nbits` up to 64: moved to the top of the word, first into the
free bits of the last byte. -/
def writeBits (w : Writer) (u nbits : ℕ) : Writer :=
  if nbits = 0 then w
  else
    let u := (u <<< (64 - nbits)) % 2 ^ 64
    if 0 < w.count then
      let stream := orLast w.stream (u >>> (64 - w.count))
      if nbits < w.count then ⟨stream, w.count - nbits⟩
      else writeTop stream ((u <<< w.count) % 2 ^ 64) (nbits - w.count)
    else writeTop w.stream u nbits

/-- A number in base 128. -/
def writeUvarint (w : Writer) (u : ℕ) : Writer :=
  if 0x80 ≤ u then (w.writeByte (toByte (u % 256 ||| 0x80))).writeUvarint (u >>> 7)
  else w.writeByte (toByte u)
termination_by u
decreasing_by
  rw [Nat.shiftRight_eq_div_pow]
  omega

/-- A signed number, folded. -/
def writeVarint (w : Writer) (i : Int64) : Writer :=
  let u := (i.toUInt64.toNat <<< 1) % 2 ^ 64
  w.writeUvarint (if i < 0 then 2 ^ 64 - 1 - u else u)

/-- Bytes put into the room of `AppendBytes(len)`, which starts at a byte of its own also behind a
partial one. -/
def appendBytes (w : Writer) (bs : Bytes) : Writer := { w with stream := w.stream ++ bs }

/-- Leave the free bits as they are. -/
def padToByte (w : Writer) : Writer := { w with count := 0 }

/-- The bits written so far; the free bits are zero. -/
structure Holds (w : Writer) (bits : List Bool) : Prop where
  stream : bytesBits w.stream = bits ++ List.replicate w.count false
  count : w.count < 8

end Writer

@[simp] theorem val_toByte (u : ℕ) : (toByte u).val = u % 2 ^ 8 := rfl

theorem bitsOf_toByte (u : ℕ) : bitsOf 8 (toByte u).val = bitsOf 8 u := by
  rw [val_toByte, bitsOf_mod le_rfl]

@[simp] theorem bytesBits_singleton (u : ℕ) : bytesBits [toByte u] = bitsOf 8 u := by
  rw [bytesBits_cons, bytesBits_nil, append_nil, bitsOf_toByte]

/-- **The free bits of the last byte are filled.** -/
theorem bytesBits_orLast {stream : Bytes} {bits : List Bool} {c x : ℕ} (hc : 0 < c) (hc8 : c ≤ 8)
    (hx : x < 2 ^ c) (h : bytesBits stream = bits ++ List.replicate c false) :
    bytesBits (orLast stream x) = bits ++ bitsOf c x := by
  rcases eq_nil_or_concat' stream with rfl | ⟨init, b, rfl⟩
  · have hlen := congrArg List.length h
    rw [bytesBits_nil, length_nil, length_append, length_replicate] at hlen
    omega
  have hor : orLast (init ++ [b]) x = init ++ [toByte (b.val ||| x)] := by
    rw [orLast, length_append, length_singleton, Nat.add_sub_cancel,
      set_append_right _ _ le_rfl, Nat.sub_self, getLastD_eq_getLast?,
      List.getLast?_append_of_ne_nil _ (cons_ne_nil b [])]
    rfl
  -- The last byte is the tail of the bits, its low bits the free ones.
  have hbyte : bytesBits (init ++ [b]) = bytesBits init ++ bitsOf 8 b.val := by
    rw [bytesBits_append, bytesBits_cons, bytesBits_nil, append_nil]
  have hsplit : bitsOf 8 b.val = bitsOf (8 - c) (b.val >>> c) ++ bitsOf c b.val :=
    bitsOf_split (Nat.sub_add_cancel hc8) _
  rw [hbyte, hsplit, ← append_assoc] at h
  obtain ⟨hbits, hfree⟩ := append_inj' h (by simp)
  have hfilled := bitsOf_or_of_lt hx
    (show bitsOf (8 - c + c) b.val = bitsOf (8 - c) (b.val >>> c) ++ List.replicate c false by
      rw [bitsOf_add, hfree])
    (length_bitsOf _ _)
  rw [Nat.sub_add_cancel hc8] at hfilled
  rw [hor, bytesBits_append, bytesBits_singleton, hfilled, ← append_assoc, hbits]

namespace Writer

variable {w : Writer} {bits : List Bool} {k n u : ℕ} {front : Bytes}

theorem holds_newWriter (buf : Bytes) : (newWriter buf).Holds (bytesBits buf) :=
  ⟨(append_nil _).symm, Nat.zero_lt_succ 7⟩

theorem Holds.full (h : w.Holds bits) (hc : w.count = 0) : bytesBits w.stream = bits := by
  rw [h.stream, hc, replicate_zero, append_nil]

theorem Holds.count_eq_zero (h : w.Holds bits) (hbits : 8 ∣ bits.length) : w.count = 0 := by
  have hlen := congrArg List.length h.stream
  rw [length_bytesBits, length_append, length_replicate] at hlen
  have := h.count
  omega

theorem holds_writeBit (h : w.Holds bits) (bit : Bool) :
    (w.writeBit bit).Holds (bits ++ [bit]) := by
  -- With a fresh byte behind it when the last one is full, the stream has a free bit.
  obtain ⟨w', hw', hstream, hpos, hle⟩ : ∃ w' : Writer,
      (if w.count = 0 then ⟨w.stream ++ [0], 8⟩ else w) = w' ∧
        bytesBits w'.stream = bits ++ List.replicate w'.count false ∧ 0 < w'.count ∧
        w'.count ≤ 8 := by
    by_cases hc : w.count = 0
    · refine ⟨_, if_pos hc, ?_, Nat.zero_lt_succ 7, le_rfl⟩
      rw [bytesBits_append, h.full hc]
      rfl
    · exact ⟨w, if_neg hc, h.stream, Nat.pos_of_ne_zero hc, h.count.le⟩
  obtain ⟨c, hc⟩ : ∃ c, w'.count = c + 1 := ⟨w'.count - 1, by omega⟩
  rw [writeBit, hw']
  refine ⟨?_, show w'.count - 1 < 8 by omega⟩
  rw [hc, Nat.add_sub_cancel]
  rw [hc] at hstream
  cases bit with
  | false =>
    rw [if_neg Bool.false_ne_true, hstream, append_assoc]
    rfl
  | true =>
    have hone : bitsOf (1 + c) (1 <<< c) = bitsOf 1 1 ++ List.replicate c false :=
      bitsOf_shiftLeft 1 c 1
    rw [if_pos rfl, bytesBits_orLast (Nat.succ_pos c) (by omega) (by
      rw [Nat.one_shiftLeft]
      exact Nat.pow_lt_pow_right (by decide) (Nat.lt_succ_self c)) hstream, ← Nat.one_add, hone,
      append_assoc]
    rfl

theorem holds_writeByte (h : w.Holds bits) (b : Byte) :
    (w.writeByte b).Holds (bits ++ bitsOf 8 b.val) := by
  rw [writeByte]
  by_cases hc : w.count = 0
  · rw [if_pos hc]
    refine ⟨?_, h.count⟩
    rw [bytesBits_append, h.full hc, hc, replicate_zero, append_nil, bytesBits_cons,
      bytesBits_nil, append_nil]
  rw [if_neg hc]
  refine ⟨?_, h.count⟩
  have hle : w.count ≤ 8 := h.count.le
  have hhigh : b.val >>> (8 - w.count) < 2 ^ w.count := by
    rw [Nat.shiftRight_eq_div_pow, Nat.div_lt_iff_lt_mul (Nat.two_pow_pos _), ← Nat.pow_add,
      Nat.add_sub_cancel' hle]
    exact b.isLt
  have hlow : bitsOf 8 (b.val <<< w.count) = bitsOf (8 - w.count) b.val ++
      List.replicate w.count false := by
    have hshift := bitsOf_shiftLeft (8 - w.count) w.count b.val
    rwa [Nat.sub_add_cancel hle] at hshift
  show bytesBits (orLast w.stream (b.val >>> (8 - w.count)) ++ [toByte (b.val <<< w.count)]) =
    bits ++ bitsOf 8 b.val ++ List.replicate w.count false
  rw [bytesBits_append, bytesBits_singleton, hlow,
    bytesBits_orLast (Nat.pos_of_ne_zero hc) hle hhigh h.stream,
    bitsOf_split (Nat.add_sub_cancel' hle) b.val]
  simp only [append_assoc]

theorem bitsOf_shiftLeft_word (hk : k ≤ 64) (u : ℕ) :
    bitsOf 64 ((u <<< k) % 2 ^ 64) = (bitsOf 64 u).drop k ++ List.replicate k false := by
  have hshift := bitsOf_shiftLeft (64 - k) k u
  rw [Nat.sub_add_cancel hk] at hshift
  rw [bitsOf_mod le_rfl, hshift, drop_bitsOf hk]

/-- A word whose bits are a field of `n` bits and zeros puts that field into the stream. -/
theorem holds_writeTop (stream : Bytes) {field : List Bool} (hn : field.length = n)
    (hu : bitsOf 64 u = field ++ List.replicate (64 - n) false) (hle : n ≤ 64) :
    (writeTop stream u n).Holds (bytesBits stream ++ field) := by
  induction n using Nat.strong_induction_on generalizing stream u field with
  | _ n ih =>
    have htop : bitsOf 8 (u >>> 56) = (field ++ List.replicate (64 - n) false).take 8 := by
      rw [← hu, take_bitsOf (by decide)]
    rw [writeTop]
    by_cases h8 : 8 ≤ n
    · have hbyte : bitsOf 8 (u >>> 56) = field.take 8 := by
        rw [htop, take_append_of_le_length (by omega)]
      have hrest : bitsOf 64 ((u <<< 8) % 2 ^ 64) =
          field.drop 8 ++ List.replicate (64 - (n - 8)) false := by
        rw [bitsOf_shiftLeft_word (by decide), hu, drop_append_of_le_length (by omega),
          append_assoc, replicate_append_replicate, show 64 - n + 8 = 64 - (n - 8) by omega]
      rw [if_pos h8]
      have h := ih (n - 8) (by omega) (stream ++ [toByte (u >>> 56)])
        (by rw [length_drop, hn]) hrest (by omega)
      rwa [bytesBits_append, bytesBits_singleton, hbyte, append_assoc, take_append_drop] at h
    rw [if_neg h8]
    by_cases hpos : 0 < n
    · rw [if_pos hpos]
      refine ⟨?_, show 8 - n < 8 by omega⟩
      rw [bytesBits_append, bytesBits_singleton, htop, take_append, hn,
        take_of_length_le (by omega), take_replicate,
        show min (8 - n) (64 - n) = 8 - n by omega, append_assoc]
    · rw [if_neg hpos]
      have hnil : field = [] := eq_nil_of_length_eq_zero (by omega)
      refine ⟨?_, (by decide : 0 < 8)⟩
      rw [hnil, append_nil, replicate_zero, append_nil]

/-- **A field of up to 64 bits is appended.** -/
theorem holds_writeBits (h : w.Holds bits) (u : ℕ) (hn : n ≤ 64) :
    (w.writeBits u n).Holds (bits ++ bitsOf n u) := by
  rw [writeBits]
  by_cases hzero : n = 0
  · rw [if_pos hzero, hzero, bitsOf_zero, append_nil]
    exact h
  rw [if_neg hzero]
  have hword : bitsOf 64 ((u <<< (64 - n)) % 2 ^ 64) =
      bitsOf n u ++ List.replicate (64 - n) false := by
    rw [bitsOf_shiftLeft_word (Nat.sub_le 64 n), drop_bitsOf (Nat.sub_le 64 n), Nat.sub_sub_self hn]
  have hlt : (u <<< (64 - n)) % 2 ^ 64 < 2 ^ 64 := Nat.mod_lt _ (Nat.two_pow_pos 64)
  generalize (u <<< (64 - n)) % 2 ^ 64 = top at hword hlt
  by_cases hc : 0 < w.count
  · have hcount := h.count
    have hhigh : top >>> (64 - w.count) < 2 ^ w.count := by
      rw [Nat.shiftRight_eq_div_pow, Nat.div_lt_iff_lt_mul (Nat.two_pow_pos _), ← Nat.pow_add,
        Nat.add_sub_cancel' (by omega)]
      exact hlt
    have hfill : bytesBits (orLast w.stream (top >>> (64 - w.count))) =
        bits ++ (bitsOf n u ++ List.replicate (64 - n) false).take w.count := by
      rw [bytesBits_orLast hc hcount.le hhigh h.stream, ← hword, take_bitsOf (by omega)]
    rw [if_pos hc]
    by_cases hfree : n < w.count
    · rw [if_pos hfree]
      refine ⟨?_, show w.count - n < 8 by omega⟩
      show bytesBits (orLast w.stream (top >>> (64 - w.count))) =
        _ ++ List.replicate (w.count - n) false
      rw [hfill, take_append, length_bitsOf, take_of_length_le (by
        rw [length_bitsOf]
        omega), take_replicate, show min (w.count - n) (64 - n) = w.count - n by omega,
        append_assoc]
    rw [if_neg hfree]
    have hrest : bitsOf 64 ((top <<< w.count) % 2 ^ 64) =
        (bitsOf n u).drop w.count ++ List.replicate (64 - (n - w.count)) false := by
      rw [bitsOf_shiftLeft_word (by omega), hword, drop_append_of_le_length (by
        rw [length_bitsOf]
        omega), append_assoc, replicate_append_replicate,
        show 64 - n + w.count = 64 - (n - w.count) by omega]
    have htop := holds_writeTop (orLast w.stream (top >>> (64 - w.count)))
      (by rw [length_drop, length_bitsOf]) hrest (by omega)
    rwa [hfill, take_append_of_le_length (by
      rw [length_bitsOf]
      omega), append_assoc, take_append_drop] at htop
  · rw [if_neg hc]
    rw [← h.full (Nat.eq_zero_of_not_pos hc)]
    exact holds_writeTop w.stream (length_bitsOf n u) hword hn

theorem toByte_group (u : ℕ) : toByte (u % 256 ||| 0x80) = Fin.ofNat 256 (u % 128 + 128) := by
  have hbit : ∀ v : Fin 256, v.val ||| 0x80 = v.val % 128 + 128 := by decide +kernel
  rw [hbit ⟨u % 256, Nat.mod_lt u (by decide)⟩, Nat.mod_mod_of_dvd u (by decide : 128 ∣ 256)]
  rfl

theorem holds_writeUvarint (h : w.Holds bits) (u : ℕ) :
    (w.writeUvarint u).Holds (bits ++ bytesBits (appendUvarint u)) := by
  induction u using Nat.strong_induction_on generalizing w bits with
  | _ u ih =>
    rw [writeUvarint]
    by_cases hu : 0x80 ≤ u
    · rw [if_pos hu, appendUvarint_of_le hu, bytesBits_cons, ← append_assoc, toByte_group,
        Nat.shiftRight_eq_div_pow]
      exact ih (u / 2 ^ 7) (by omega) (holds_writeByte h _)
    · rw [if_neg hu, appendUvarint_of_lt (Nat.lt_of_not_le hu), bytesBits_cons, bytesBits_nil,
        append_nil]
      exact holds_writeByte h _

theorem writeUvarint_aligned (bs : Bytes) (u : ℕ) :
    writeUvarint ⟨bs, 0⟩ u = ⟨bs ++ appendUvarint u, 0⟩ := by
  have h := holds_writeUvarint (holds_newWriter bs) u
  rw [← bytesBits_append] at h
  have hcount := h.count_eq_zero ⟨_, length_bytesBits _⟩
  exact Writer.ext (bytesBits_injective (h.full hcount)) hcount

theorem writeVarint_eq (w : Writer) (i : Int64) : w.writeVarint i = w.writeUvarint (zigzag i) := by
  have hint : i.toInt = if 2 * i.toUInt64.toNat < 2 ^ 64 then (i.toUInt64.toNat : ℤ)
      else (i.toUInt64.toNat : ℤ) - (2 ^ 64 : ℕ) := BitVec.toInt_eq_toNat_cond i.toBitVec
  have hlt : i.toUInt64.toNat < 2 ^ 64 := i.toUInt64.toNat_lt
  have hneg : i < 0 ↔ i.toInt < 0 := Int64.lt_iff_toInt_lt
  have hfold : (if i < 0 then 2 ^ 64 - 1 - (i.toUInt64.toNat <<< 1) % 2 ^ 64
      else (i.toUInt64.toNat <<< 1) % 2 ^ 64) = zigzag i := by
    rw [zigzag, Nat.shiftLeft_eq]
    simp only [hneg]
    split_ifs at hint ⊢ <;> omega
  rw [writeVarint, hfold]

theorem holds_writeVarint (h : w.Holds bits) (i : Int64) :
    (w.writeVarint i).Holds (bits ++ bytesBits (appendVarint i)) := by
  rw [writeVarint_eq]
  exact holds_writeUvarint h _

theorem Holds.exists_payload (h : w.Holds (bytesBits front ++ bits)) :
    ∃ payload, w.stream = front ++ payload ∧
      bytesBits payload = bits ++ List.replicate w.count false :=
  exists_append_of_bytesBits (by rw [h.stream, append_assoc])

/-- **What is written does not depend on the bytes before it.** -/
theorem Holds.stream_append {w' : Writer} (h : w.Holds (bytesBits front ++ bits))
    (h' : w'.Holds bits) : w.stream = front ++ w'.stream := by
  obtain ⟨payload, hstream, hpayload⟩ := h.exists_payload
  have hcount : w.count = w'.count := by
    have hlen := congrArg List.length hpayload
    have hlen' := congrArg List.length h'.stream
    rw [length_bytesBits, length_append, length_replicate] at hlen hlen'
    have := h.count
    have := h'.count
    omega
  rw [hcount, ← h'.stream] at hpayload
  rw [hstream, bytesBits_injective hpayload]

end Writer

/-! ## Reading -/

/-- The source bytes, the next one to load, the loaded word, how many of its low bits are still
unread, and the copy of the last byte taken at construction. -/
structure Reader where
  stream : Bytes
  offset : ℕ
  buffer : ℕ
  valid : ℕ
  last : Byte
deriving DecidableEq, Repr

/-- A read, with the text of the error it may end in. -/
abbrev BitReader (α : Type) := StateT Reader (Except String) α

/-- `io.EOF`. -/
def ioEOF : String := "EOF"

/-- `io.ErrUnexpectedEOF`. -/
def ioErrUnexpectedEOF : String := "unexpected EOF"

namespace Reader

/-- A reader at the start of `b`. -/
def newReader (b : Bytes) : Reader := ⟨b, 0, 0, 0, b.getLastD 0⟩

variable (r : Reader) (nbits : ℕ)

/-- The bytes taken off the source. -/
def consumedBytes : ℕ := r.offset - r.valid / 8

/-- The next word: eight bytes that are not the last ones, or near the end as many as the read
needs, with the copied last byte in the place of the stream's. -/
def loadNextBuffer : Option Reader :=
  if r.stream.length ≤ r.offset then none
  else if r.offset + 8 < r.stream.length then
    some { r with
      buffer := ofBigEndian ((r.stream.drop r.offset).take 8)
      offset := r.offset + 8
      valid := 64 }
  else
    let nbytes := if r.stream.length < r.offset + (nbits / 8 + 1) then r.stream.length - r.offset
      else nbits / 8 + 1
    let atEnd := r.offset + nbytes = r.stream.length
    let buffer := (List.range (nbytes - if atEnd then 1 else 0)).foldl
      (fun buffer i => buffer |||
        ((r.stream.getD (r.offset + i) 0).val <<< (8 * (nbytes - i - 1))) % 2 ^ 64)
      (if atEnd then r.last.val else 0)
    some { r with buffer := buffer, offset := r.offset + nbytes, valid := nbytes * 8 }

/-- A word to read from: the loaded one, or the next when it is used up. -/
def refill : Except String Reader :=
  if r.valid = 0 then
    match r.loadNextBuffer nbits with
    | some r' => .ok r'
    | none => .error ioEOF
  else .ok r

/-- The next bit. -/
def readBit : BitReader Bool := fun r => do
  let r ← r.refill 1
  return (r.buffer.testBit (r.valid - 1), { r with valid := r.valid - 1 })

/-- The next `nbits` bits without taking them, for `nbits` up to the unread bits of the word. -/
def peek : ℕ :=
  (r.buffer >>> (r.valid - nbits)) &&& ((2 ^ 64 - 1) >>> (64 - nbits))

/-- Pass over bits of the loaded word. -/
def skip (n : ℕ) : Reader := { r with valid := r.valid - n }

/-- A field of up to 64 bits, which may begin in one word and end in the next. -/
def readBits : BitReader ℕ := fun r =>
  if nbits = 0 then .ok (0, r)
  else do
    let r ← r.refill nbits
    if nbits ≤ r.valid then
      return (r.peek nbits, r.skip nbits)
    let rest := nbits - r.valid
    let v := ((r.buffer &&& (1 <<< r.valid - 1)) <<< rest) % 2 ^ 64
    match r.loadNextBuffer rest with
    | none => .error ioEOF
    | some r =>
        if r.valid < rest then .error ioEOF
        else .ok (v ||| ((r.buffer >>> (r.valid - rest)) &&& (1 <<< rest - 1)), r.skip rest)

/-- The next eight bits. -/
def readByte : BitReader Byte := toByte <$> readBits 8

/-- A byte off the loaded word where it has one. -/
def nextByte : BitReader Byte := fun r =>
  if 8 ≤ r.valid then .ok (toByte (r.buffer >>> (r.valid - 8)), r.skip 8) else readByte r

/-- Drop the rest of a partly read byte. -/
def alignToByte : Reader :=
  let valid := r.valid / 8 * 8
  { r with valid, buffer := if valid = 0 then 0 else r.buffer }

/-- The next `n > 0` bytes, out of the source itself. -/
def readBytesView (n : ℕ) : BitReader Bytes := fun r =>
  let r := r.alignToByte
  let start := r.offset - r.valid / 8
  if r.stream.length - start < n then .error ioEOF
  else
    let view := (r.stream.drop start).take n
    if n ≤ r.valid / 8 then
      let valid := r.valid - n * 8
      .ok (view, { r with valid, buffer := if valid = 0 then 0 else r.buffer })
    else .ok (view, { r with offset := start + n, buffer := 0, valid := 0 })

/-- A number in base 128. -/
def readUvarint : BitReader ℕ := uvarintLoop nextByte ioErrUnexpectedEOF 10 0 0

/-- A signed number. -/
def readVarint : BitReader Int64 := do
  let ux ← readUvarint
  let x := Int64.ofNat (ux >>> 1)
  return if ux &&& 1 ≠ 0 then ~~~x else x

/-- The bits still to be read. -/
def unread : List Bool := bitsOf r.valid r.buffer ++ bytesBits (r.stream.drop r.offset)

end Reader

/-- The reader of this stream has these bits to read, from a position inside it. -/
structure Unread (stream : Bytes) (r : Reader) (bits : List Bool) : Prop where
  source : r.stream = stream
  offset : r.offset ≤ r.stream.length
  last : r.last = r.stream.getLastD 0
  bits : r.unread = bits

namespace Reader

variable {stream bs : Bytes} {r : Reader} {bits rest : List Bool} {n buffer nbits : ℕ}

theorem unread_newReader (b : Bytes) : Unread b (newReader b) (bytesBits b) :=
  ⟨rfl, Nat.zero_le _, rfl, rfl⟩

theorem valid_le_length (h : Unread stream r bits) : r.valid ≤ bits.length := by
  rw [← h.bits, unread, length_append, length_bitsOf]
  exact Nat.le_add_right _ _

/-- **The bytes consumed are those of which no whole one is left.** -/
theorem consumedBytes_eq (h : Unread stream r bits) :
    r.consumedBytes = stream.length - bits.length / 8 := by
  have hlen := congrArg List.length h.bits
  rw [unread, length_append, length_bitsOf, length_bytesBits, length_drop, h.source] at hlen
  have hle := h.offset
  rw [h.source] at hle
  rw [consumedBytes]
  omega

theorem bitsOf_placeByte {i : ℕ} {front back : List Bool} (b : Byte) (hi : i < n)
    (hn : n ≤ 8) (hbuffer : bitsOf (8 * n) buffer = front ++ List.replicate 8 false ++ back)
    (hfront : front.length = 8 * i) :
    bitsOf (8 * n) (buffer ||| (b.val <<< (8 * (n - i - 1))) % 2 ^ 64) =
      front ++ bitsOf 8 b.val ++ back := by
  have hback : back.length = 8 * (n - i - 1) := by
    have hlen := congrArg List.length hbuffer
    rw [length_bitsOf, length_append, length_append, length_replicate, hfront] at hlen
    omega
  have hsize : 8 * i + 8 + 8 * (n - i - 1) = 8 * n := by omega
  have hfits : b.val <<< (8 * (n - i - 1)) < 2 ^ 64 := by
    have hpow : 2 ^ (8 + 8 * (n - i - 1)) ≤ 2 ^ 64 := Nat.pow_le_pow_right Nat.two_pos (by omega)
    rw [Nat.pow_add] at hpow
    rw [Nat.shiftLeft_eq]
    exact (Nat.mul_lt_mul_of_pos_right b.isLt (Nat.two_pow_pos _)).trans_le hpow
  rw [Nat.mod_eq_of_lt hfits]
  rw [← hsize] at hbuffer ⊢
  exact bitsOf_or_shiftLeft b.isLt hbuffer hfront hback

/-- The slow path's loop: the first `m` bytes in front of what the word held below them. -/
theorem bitsOf_placeBytes (bs : Bytes) {m : ℕ} (hm : m ≤ n) (hn : n ≤ 8)
    (hlen : m ≤ bs.length) (hbuffer : buffer < 2 ^ (8 * (n - m))) :
    bitsOf (8 * n) ((List.range m).foldl
      (fun w i => w ||| ((bs.getD i 0).val <<< (8 * (n - i - 1))) % 2 ^ 64) buffer) =
      bytesBits (bs.take m) ++ bitsOf (8 * (n - m)) buffer := by
  induction m with
  | zero => rw [Nat.sub_zero]; rfl
  | succ m ih =>
    have hlt : 8 * (n - (m + 1)) ≤ 8 * (n - m) := by omega
    have hbefore := ih (by omega) (by omega)
      (hbuffer.trans_le (Nat.pow_le_pow_right Nat.two_pos hlt))
    have hfree : bitsOf (8 * (n - m)) buffer =
        List.replicate 8 false ++ bitsOf (8 * (n - (m + 1))) buffer := by
      rw [← bitsOf_of_lt hbuffer, show 8 + 8 * (n - (m + 1)) = 8 * (n - m) by omega]
    rw [hfree, ← append_assoc] at hbefore
    have hget : bs.take (m + 1) = bs.take m ++ [bs.getD m 0] := by
      rw [take_succ_eq_append_getElem (by omega), getD_eq_getElem?_getD,
        List.getElem?_eq_getElem (by omega), Option.getD_some]
    rw [range_succ, foldl_append, foldl_cons, foldl_nil,
      bitsOf_placeByte _ (by omega) hn hbefore (by
        rw [length_bytesBits, length_take, Nat.min_eq_left (by omega)]),
      hget, bytesBits_append, bytesBits_cons, bytesBits_nil, append_nil]

theorem take_append_last {k : ℕ} (hn : 0 < n) (hk : k + n = bs.length) :
    (bs.drop k).take (n - 1) ++ [bs.getLastD 0] = bs.drop k := by
  have hne : bs.drop k ≠ [] := by
    rw [Ne, drop_eq_nil_iff]
    omega
  have hlast : bs.getLastD 0 = (bs.drop k).getLast hne := by
    rw [getLast_drop, getLastD_eq_getLast?, List.getLast?_eq_some_getLast]
    rfl
  have hinit : (bs.drop k).take (n - 1) = (bs.drop k).dropLast := by
    rw [dropLast_eq_take, length_drop, show bs.length - k = n by omega]
  rw [hlast, hinit, dropLast_append_getLast]

/-- **Loading leaves the bits ahead as they were**, and brings at least the bits asked for into the
word, or all that are left. -/
theorem loadNextBuffer_spec (h : Unread stream (r.skip r.valid) bits) (hbits : bits ≠ [])
    (hn : nbits ≤ 64) :
    ∃ r', r.loadNextBuffer nbits = some r' ∧ Unread stream r' bits ∧ 0 < r'.valid ∧
      min nbits bits.length ≤ r'.valid := by
  have hahead : bytesBits (r.stream.drop r.offset) = bits := by
    have hunread := h.bits
    rwa [unread, skip, Nat.sub_self, bitsOf_zero, nil_append] at hunread
  have hlast : r.last = r.stream.getLastD 0 := h.last
  have hlen : bits.length = 8 * (r.stream.length - r.offset) := by
    rw [← hahead, length_bytesBits, length_drop]
  have hpos : 0 < bits.length := length_pos_iff.mpr hbits
  -- Any number of bytes moved into the word leaves the bits ahead.
  have hmoved : ∀ {n buffer : ℕ}, r.offset + n ≤ r.stream.length →
      bitsOf (n * 8) buffer = bytesBits ((r.stream.drop r.offset).take n) →
      Unread stream { r with buffer := buffer, offset := r.offset + n, valid := n * 8 } bits := by
    intro n buffer hle hbuffer
    refine ⟨h.source, hle, hlast, ?_⟩
    show bitsOf (n * 8) buffer ++ bytesBits (r.stream.drop (r.offset + n)) = bits
    rw [hbuffer, ← drop_drop, ← bytesBits_append, take_append_drop, hahead]
  rw [loadNextBuffer, if_neg (by omega)]
  by_cases hfast : r.offset + 8 < r.stream.length
  · rw [if_pos hfast]
    refine ⟨_, rfl, hmoved hfast.le ?_, Nat.zero_lt_succ 63, (Nat.min_le_left _ _).trans hn⟩
    have hword := bitsOf_ofBigEndian ((r.stream.drop r.offset).take 8)
    rwa [length_take, length_drop, Nat.min_eq_left (by omega)] at hword
  rw [if_neg hfast]
  -- The bytes loaded: all that are left, or enough for the read.
  obtain ⟨n, hn', hnpos, hn8, hnle, hnbits⟩ : ∃ n, (if r.stream.length < r.offset + (nbits / 8 + 1)
      then r.stream.length - r.offset else nbits / 8 + 1) = n ∧ 0 < n ∧ n ≤ 8 ∧
        r.offset + n ≤ r.stream.length ∧ min nbits bits.length ≤ n * 8 := by
    refine ⟨_, rfl, ?_⟩
    split_ifs
    · omega
    · omega
  simp only [hn']
  refine ⟨_, rfl, hmoved hnle ?_, show 0 < n * 8 by omega, hnbits⟩
  have hget : ∀ i, r.stream.getD (r.offset + i) 0 = (r.stream.drop r.offset).getD i 0 := fun i => by
    rw [getD_eq_getElem?_getD, getD_eq_getElem?_getD, List.getElem?_drop]
  have hdrop : (r.stream.drop r.offset).length = r.stream.length - r.offset := length_drop
  simp only [hget]
  rw [Nat.mul_comm n 8]
  by_cases hend : r.offset + n = r.stream.length
  · have hall : (r.stream.drop r.offset).take n = r.stream.drop r.offset :=
      take_of_length_le (by omega)
    rw [if_pos hend, if_pos hend, bitsOf_placeBytes _ (Nat.sub_le n 1) hn8 (by omega) (by
      rw [show n - (n - 1) = 1 by omega]
      exact r.last.isLt), hall, hlast, show n - (n - 1) = 1 by omega]
    conv_rhs => rw [← take_append_last hnpos hend, bytesBits_append, bytesBits_cons, bytesBits_nil,
      append_nil]
  · rw [if_neg hend, if_neg hend, Nat.sub_zero, bitsOf_placeBytes _ le_rfl hn8 (by omega)
      (Nat.two_pow_pos _), Nat.sub_self, Nat.mul_zero, bitsOf_zero, append_nil]

theorem refill_spec (h : Unread stream r bits) (hbits : bits ≠ []) (hn : nbits ≤ 64) :
    ∃ r', r.refill nbits = .ok r' ∧ Unread stream r' bits ∧ 0 < r'.valid := by
  rw [refill]
  by_cases hv : r.valid = 0
  · have hempty : r.skip r.valid = r := by
      rw [skip, hv, Nat.zero_sub, ← hv]
    obtain ⟨r', hload, h', hpos, -⟩ := loadNextBuffer_spec (hempty.symm ▸ h) hbits hn
    refine ⟨r', ?_, h', hpos⟩
    rw [if_pos hv, hload]
  · exact ⟨r, if_neg hv, h, Nat.pos_of_ne_zero hv⟩

theorem peek_eq_mod (r : Reader) (hn : n ≤ 64) :
    r.peek n = (r.buffer >>> (r.valid - n)) % 2 ^ n := by
  have hones : (2 ^ 64 - 1) >>> (64 - n) = 2 ^ n - 1 := by
    have hpow : 2 ^ 64 = 2 ^ n * 2 ^ (64 - n) := by rw [← Nat.pow_add, Nat.add_sub_cancel' hn]
    have hpos := Nat.two_pow_pos (64 - n)
    rw [Nat.shiftRight_eq_div_pow]
    refine Nat.div_eq_of_lt_le ?_ ?_
    · rw [Nat.sub_mul, Nat.one_mul, ← hpow]
      omega
    · rw [Nat.sub_add_cancel (Nat.two_pow_pos n), ← hpow]
      decide
  rw [peek, hones, Nat.and_two_pow_sub_one_eq_mod]

theorem unread_peek (h : Unread stream r bits) (hn : n ≤ r.valid) (hn64 : n ≤ 64) :
    bits.take n = bitsOf n (r.peek n) ∧ r.peek n < 2 ^ n ∧
    Unread stream (r.skip n) (bits.drop n) := by
  have hsplit : bits = bitsOf n (r.buffer >>> (r.valid - n)) ++
      (bitsOf (r.valid - n) r.buffer ++ bytesBits (r.stream.drop r.offset)) := by
    rw [← h.bits, unread, bitsOf_split (Nat.add_sub_cancel' hn), append_assoc]
  refine ⟨?_, ?_, h.source, h.offset, h.last, ?_⟩
  · rw [hsplit, take_left' (length_bitsOf _ _), peek_eq_mod r hn64, bitsOf_mod le_rfl]
  · rw [peek_eq_mod r hn64]
    exact Nat.mod_lt _ (Nat.two_pow_pos n)
  · rw [hsplit, drop_left' (length_bitsOf _ _)]
    rfl

theorem takes_readBit (b : Bool) : Takes (Unread stream) readBit [b] b := by
  intro r rest h
  obtain ⟨r', hrefill, h', hpos⟩ :=
    refill_spec h (cons_ne_nil b rest) (show 1 ≤ 64 by decide)
  obtain ⟨k, hk⟩ : ∃ k, r'.valid = k + 1 := ⟨r'.valid - 1, by omega⟩
  have hbits := h'.bits
  rw [unread, hk, bitsOf, cons_append] at hbits
  obtain ⟨hbit, hrest⟩ := List.cons.inj hbits
  refine ⟨r'.skip 1, ?_, h'.source, h'.offset, h'.last, ?_⟩
  · show (r.refill 1 >>= fun r => _) = _
    rw [hrefill]
    show Except.ok (r'.buffer.testBit (r'.valid - 1), r'.skip 1) = _
    rw [hk, Nat.add_sub_cancel, hbit]
  · rw [unread, skip, hk, Nat.add_sub_cancel]
    exact hrest

theorem peek_eq {u : ℕ} (h : Unread stream r (bitsOf n u ++ rest))
    (hn : n ≤ r.valid) (hn64 : n ≤ 64) (hu : u < 2 ^ n) :
    r.peek n = u ∧ Unread stream (r.skip n) rest := by
  obtain ⟨htake, hlt, hskip⟩ := unread_peek h hn hn64
  rw [take_left' (length_bitsOf n u)] at htake
  rw [drop_left' (length_bitsOf n u)] at hskip
  exact ⟨(eq_of_bitsOf_eq hu hlt htake).symm, hskip⟩

/-- **A field of up to 64 bits is read back**, also when it spans two words. -/
theorem takes_readBits {u : ℕ} (hn : n ≤ 64) (hu : u < 2 ^ n) :
    Takes (Unread stream) (readBits n) (bitsOf n u) u := by
  intro r rest h
  by_cases hzero : n = 0
  · subst hzero
    refine ⟨r, ?_, h⟩
    rw [Nat.lt_one_iff.mp hu]
    rfl
  have hne : bitsOf n u ++ rest ≠ [] := by
    intro hnil
    have hlen := congrArg List.length hnil
    rw [length_append, length_bitsOf, length_nil] at hlen
    omega
  obtain ⟨r', hrefill, h', hpos⟩ := refill_spec h hne hn
  by_cases hfast : n ≤ r'.valid
  · obtain ⟨hpeek, hskip⟩ := peek_eq h' hfast hn hu
    refine ⟨_, ?_, hskip⟩
    show (if n = 0 then _ else _) = _
    rw [if_neg hzero, hrefill]
    show (if n ≤ r'.valid then _ else _) = _
    rw [if_pos hfast, hpeek]
    rfl
  -- The word holds the field's high bits, the next one its low bits.
  obtain ⟨k, rfl⟩ : ∃ k, n = r'.valid + k := ⟨n - r'.valid, by omega⟩
  have hbits := h'.bits
  rw [unread, bitsOf_add, append_assoc] at hbits
  obtain ⟨hhigh, hahead⟩ := append_inj hbits (by rw [length_bitsOf, length_bitsOf])
  have hskipped : Unread stream (r'.skip r'.valid) (bitsOf k u ++ rest) := by
    refine ⟨h'.source, h'.offset, h'.last, ?_⟩
    rw [unread, skip, Nat.sub_self, bitsOf_zero, nil_append]
    exact hahead
  have hne' : bitsOf k u ++ rest ≠ [] := by
    intro hnil
    have hlen := congrArg List.length hnil
    rw [length_append, length_bitsOf, length_nil] at hlen
    omega
  obtain ⟨r'', hload, h'', -, hvalid⟩ := loadNextBuffer_spec hskipped hne' (show k ≤ 64 by omega)
  rw [length_append, length_bitsOf, Nat.min_eq_left (Nat.le_add_right _ _)] at hvalid
  obtain ⟨hlow, hskip⟩ := peek_eq (u := u % 2 ^ k) (by rwa [bitsOf_mod le_rfl]) hvalid (by omega)
    (Nat.mod_lt _ (Nat.two_pow_pos k))
  rw [peek_eq_mod r'' (by omega)] at hlow
  have htop : r'.buffer % 2 ^ r'.valid = u >>> k := by
    refine eq_of_bitsOf_eq (Nat.mod_lt _ (Nat.two_pow_pos _)) ?_ (by rw [bitsOf_mod le_rfl, hhigh])
    rwa [Nat.shiftRight_eq_div_pow, Nat.div_lt_iff_lt_mul (Nat.two_pow_pos _), ← Nat.pow_add]
  have hword : ((u >>> k) <<< k) % 2 ^ 64 ||| u % 2 ^ k = u := by
    have hle : (u >>> k) <<< k ≤ u := by
      rw [Nat.shiftRight_eq_div_pow, Nat.shiftLeft_eq]
      exact Nat.div_mul_le_self u _
    have hu64 : u < 2 ^ 64 := hu.trans_le (Nat.pow_le_pow_right Nat.two_pos hn)
    rw [Nat.mod_eq_of_lt (hle.trans_lt hu64),
      ← Nat.shiftLeft_add_eq_or_of_lt (Nat.mod_lt _ (Nat.two_pow_pos k)),
      Nat.shiftRight_eq_div_pow, Nat.shiftLeft_eq, Nat.div_add_mod']
  refine ⟨_, ?_, hskip⟩
  show (if r'.valid + k = 0 then _ else _) = _
  rw [if_neg hzero, hrefill]
  show (if r'.valid + k ≤ r'.valid then _ else _) = _
  rw [if_neg hfast, Nat.add_sub_cancel_left]
  simp only [hload]
  rw [if_neg (Nat.not_lt.mpr hvalid), Nat.one_shiftLeft, Nat.and_two_pow_sub_one_eq_mod, htop,
    Nat.one_shiftLeft, Nat.and_two_pow_sub_one_eq_mod, hlow, hword]

theorem takes_readByte (b : Byte) : Takes (Unread stream) readByte (bitsOf 8 b.val) b := by
  have h : Takes (Unread stream) readByte (bitsOf 8 b.val) (toByte b.val) :=
    (takes_readBits (by decide : 8 ≤ 64) b.isLt).map toByte
  rwa [show toByte b.val = b from Fin.ext (Nat.mod_eq_of_lt b.isLt)] at h

theorem topByte_eq {b : Byte} (h : Unread stream r (bitsOf 8 b.val ++ rest)) (hv : 8 ≤ r.valid) :
    toByte (r.buffer >>> (r.valid - 8)) = b ∧ Unread stream (r.skip 8) rest := by
  obtain ⟨hpeek, hskip⟩ := peek_eq h hv (by decide) b.isLt
  rw [peek_eq_mod r (by decide)] at hpeek
  exact ⟨Fin.ext hpeek, hskip⟩

theorem takes_nextByte (b : Byte) : Takes (Unread stream) nextByte (bitsOf 8 b.val) b := by
  intro r rest h
  by_cases hv : 8 ≤ r.valid
  · obtain ⟨hbyte, hskip⟩ := topByte_eq h hv
    refine ⟨_, ?_, hskip⟩
    show (if 8 ≤ r.valid then _ else _) = _
    rw [if_pos hv, hbyte]
  obtain ⟨r', hrun, h'⟩ := takes_readByte b r rest h
  refine ⟨r', ?_, h'⟩
  show (if 8 ≤ r.valid then _ else _) = _
  rw [if_neg hv]
  exact hrun

theorem takes_readUvarint (hn : n < 2 ^ 64) :
    Takes (Unread stream) readUvarint (bytesBits (appendUvarint n)) n :=
  takes_uvarint takes_nextByte hn

theorem unfold_eq (u : ℕ) :
    (if u &&& 1 ≠ 0 then ~~~(Int64.ofNat (u >>> 1)) else Int64.ofNat (u >>> 1)) = unzigzag u := by
  have hnot : ~~~(Int64.ofNat (u / 2)) = Int64.ofInt (-((u / 2 : ℕ) : ℤ) - 1) := by
    rw [Int64.not_eq_neg_sub, Int64.ofInt_sub, Int64.ofInt_neg]
    rfl
  rw [unzigzag, Nat.shiftRight_one, Nat.and_one_is_mod]
  rcases Nat.mod_two_eq_zero_or_one u with hu | hu
  · rw [hu, if_neg (by decide), if_neg (by decide)]
    rfl
  · rw [hu, if_pos (by decide), if_pos rfl, hnot]

theorem takes_readVarint (i : Int64) :
    Takes (Unread stream) readVarint (bytesBits (appendVarint i)) i := by
  refine (takes_readUvarint (zigzag_lt i)).last ?_
  simp only [unfold_eq, unzigzag_zigzag]
  exact .pure i

/-! ### Whole bytes -/

/-- The reader of this stream has the bytes `bs` at its end to read. -/
structure Tail (stream : Bytes) (r : Reader) (bs : Bytes) : Prop where
  unread : Unread stream r (bytesBits bs)
  suffix : bs <:+ stream

theorem tail_newReader (b : Bytes) : Tail b (newReader b) b :=
  ⟨unread_newReader b, suffix_rfl⟩

theorem takes_tail {α : Type} {m : BitReader α} {a : α}
    (h : Takes (Unread stream) m (bytesBits bs) a) : Takes (Tail stream) m bs a := by
  intro r rest hr
  have hunread := hr.unread
  rw [bytesBits_append] at hunread
  obtain ⟨r', hrun, hr'⟩ := h r _ hunread
  exact ⟨r', hrun, hr', (suffix_append bs rest).trans hr.suffix⟩

/-- A reader that takes the first bytes has consumed them. -/
theorem run_newReader {α : Type} {m : BitReader α} {suffix : Bytes} {a : α}
    (h : Takes (Tail (bs ++ suffix)) m bs a) :
    ∃ r, m.run (newReader (bs ++ suffix)) = .ok (a, r) ∧ r.consumedBytes = bs.length := by
  obtain ⟨r, hrun, hr⟩ := h _ suffix (tail_newReader _)
  refine ⟨r, hrun, ?_⟩
  rw [consumedBytes_eq hr.unread, length_bytesBits, length_append,
    Nat.mul_div_cancel_left _ (by decide), Nat.add_sub_cancel]

theorem unread_dropBits {k : ℕ} (r : Reader) (hk : k ≤ r.valid) :
    unread { r with valid := r.valid - k, buffer := if r.valid - k = 0 then 0 else r.buffer } =
      r.unread.drop k := by
  have hword : bitsOf (r.valid - k) (if r.valid - k = 0 then 0 else r.buffer) =
      (bitsOf r.valid r.buffer).drop k := by
    rw [drop_bitsOf hk]
    split
    next h => rw [h, bitsOf_zero, bitsOf_zero]
    next => rfl
  rw [unread, hword, unread, drop_append_of_le_length (by rwa [length_bitsOf])]

theorem takes_readBytesView (hne : bs ≠ []) :
    Takes (Tail stream) (readBytesView bs.length) bs bs := by
  intro r rest hr
  obtain ⟨front, hstream⟩ := hr.suffix
  obtain ⟨hunread, -⟩ := hr
  have hlen := congrArg List.length hunread.bits
  rw [unread, length_append, length_bitsOf, length_bytesBits, length_bytesBits, length_drop] at hlen
  have hpos : 0 < bs.length := length_pos_iff.mpr hne
  have htotal := congrArg List.length hstream
  have hoffset := hunread.offset
  rw [hunread.source] at hlen hoffset
  simp only [length_append] at htotal hlen
  have hstart : r.offset - r.valid / 8 = front.length := by omega
  have haligned : r.valid / 8 * 8 = r.valid := by omega
  have hrest : rest <:+ stream := ⟨front ++ bs, by rw [append_assoc, hstream]⟩
  have hview : (stream.drop front.length).take bs.length = bs := by simp [← hstream]
  simp only [StateT.run, readBytesView, alignToByte, haligned, hstart, hunread.source, hview]
  rw [if_neg (by omega)]
  by_cases hword : bs.length ≤ r.valid / 8
  · rw [if_pos hword]
    refine ⟨_, rfl, ⟨rfl, hoffset, hunread.last ▸ hunread.source ▸ rfl, ?_⟩, hrest⟩
    have hdrop := unread_dropBits r (show bs.length * 8 ≤ r.valid by omega)
    rw [hunread.bits, bytesBits_append,
      drop_left' (by rw [length_bytesBits, Nat.mul_comm])] at hdrop
    rw [if_neg (show r.valid ≠ 0 by omega), ← hunread.source]
    exact hdrop
  · rw [if_neg hword]
    refine ⟨_, rfl, ⟨rfl, ?_, hunread.last ▸ hunread.source ▸ rfl, ?_⟩, hrest⟩
    · show front.length + bs.length ≤ stream.length
      omega
    · simp [unread, ← hstream]

end Reader
end OtelStorage.Encoding
