import OtelStorage.Encoding.BitStream

/-!
# Any sequence of reads and writes

Every list of write operations is read back by the matching reads, wherever the bytes and words are
cut, with one exception.  `WriteBytes` goes on in the middle of a byte, and `ReadBytes` drops the
rest of the byte first: the bytes of an unaligned `WriteBytes` are not read back.

So the laws hold of the sequences in which every `WriteBytes` begins at a whole byte.  After such a
sequence, all bytes of some length can be appended and read back exactly when no bits are free.
-/

namespace OtelStorage.Encoding

open Delimited Wire Bits TokenReader List

/-- A write, with what it writes. -/
inductive BitOp where
  | writeBit (bit : Bool)
  | writeBits (u : UInt64) (nbits : Fin 65)
  | writeByte (b : Byte)
  | writeBytes (p : Bytes)
  | writeUvarint (u : UInt64)
  | writeVarint (i : Int64)

/-- What a read returns. -/
inductive BitValue where
  | bit (b : Bool)
  | word (u : ℕ)
  | bytes (p : Bytes)
  | int (i : Int64)
deriving DecidableEq

/-! ## Writing -/

namespace Writer

/-- Bytes behind whole ones are appended, others written one by one. -/
def writeBytes (w : Writer) (p : Bytes) : Writer :=
  if w.count = 0 then { w with stream := w.stream ++ p } else p.foldl writeByte w

variable {w : Writer} {bits : List Bool}

theorem holds_writeBytes (h : w.Holds bits) (p : Bytes) :
    (w.writeBytes p).Holds (bits ++ bytesBits p) := by
  rw [writeBytes]
  split
  · rename_i hc
    refine ⟨?_, h.count⟩
    rw [bytesBits_append, h.full hc, hc, replicate_zero, append_nil]
  clear * - h
  induction p generalizing w bits with
  | nil => rwa [bytesBits_nil, append_nil]
  | cons b p ih =>
    rw [bytesBits_cons, ← append_assoc]
    exact ih (holds_writeByte h b)

end Writer

namespace BitOp

/-- Do one write. -/
def write : BitOp → Writer → Writer
  | writeBit bit, w => w.writeBit bit
  | writeBits u nbits, w => w.writeBits u.toNat nbits
  | writeByte b, w => w.writeByte b
  | writeBytes p, w => w.writeBytes p
  | writeUvarint u, w => w.writeUvarint u.toNat
  | writeVarint i, w => w.writeVarint i

/-- The bits an operation puts into the stream. -/
def bits : BitOp → List Bool
  | writeBit bit => [bit]
  | writeBits u nbits => bitsOf nbits u.toNat
  | writeByte b => bitsOf 8 b.val
  | writeBytes p => bytesBits p
  | writeUvarint u => bytesBits (appendUvarint u.toNat)
  | writeVarint i => bytesBits (appendVarint i)

/-- The value written: of a field, its low bits. -/
def value : BitOp → BitValue
  | writeBit bit => .bit bit
  | writeBits u nbits => .word (u.toNat % 2 ^ nbits.val)
  | writeByte b => .bytes [b]
  | writeBytes p => .bytes p
  | writeUvarint u => .word u.toNat
  | writeVarint i => .int i

variable {written : List Bool} {w : Writer}

theorem holds_write (h : w.Holds written) (op : BitOp) :
    (op.write w).Holds (written ++ op.bits) := by
  cases op with
  | writeBit bit => exact Writer.holds_writeBit h bit
  | writeBits u nbits => exact Writer.holds_writeBits h _ (Nat.le_of_lt_succ nbits.isLt)
  | writeByte b => exact Writer.holds_writeByte h b
  | writeBytes p => exact Writer.holds_writeBytes h p
  | writeUvarint u => exact Writer.holds_writeUvarint h _
  | writeVarint i => exact Writer.holds_writeVarint h i

end BitOp

variable (ops : List BitOp) {written : List Bool} {w : Writer}

/-- Do all of them. -/
def writeAll (w : Writer) : Writer := ops.foldl (fun w op => op.write w) w

theorem holds_writeAll (h : w.Holds written) :
    (writeAll ops w).Holds (written ++ ops.flatMap BitOp.bits) := by
  induction ops generalizing w written with
  | nil => rwa [flatMap_nil, append_nil]
  | cons op ops ih =>
    rw [flatMap_cons, ← append_assoc]
    exact ih (BitOp.holds_write h op)

/-! ## Reading -/

namespace Reader

/-- A bit by `Peek` and `Skip` where one is buffered. -/
def peekBit : BitReader Bool := fun r =>
  if 1 ≤ r.valid then .ok (r.peek 1 != 0, r.skip 1) else readBit r

/-- Up to `n` bytes off the loaded word. -/
def drain : ℕ → Reader → Bytes × Reader
  | 0, r => ([], r)
  | n + 1, r =>
    if 8 ≤ r.valid then
      let (p, r') := drain n (r.skip 8)
      (toByte (r.buffer >>> (r.valid - 8)) :: p, r')
    else ([], r)

/-- The next `n` bytes, after the rest of a partly read byte. -/
def readBytes (n : ℕ) : BitReader Bytes := fun r =>
  let (front, r) := r.alignToByte.drain n
  let rest := n - front.length
  if rest = 0 then .ok (front, r)
  else if r.stream.length - r.offset < rest then .error ioEOF
  else .ok (front ++ (r.stream.drop r.offset).take rest,
    { r with offset := r.offset + rest, buffer := 0, valid := 0 })

variable {stream : Bytes} {r : Reader} {rest : List Bool}

theorem takes_peekBit (b : Bool) : Takes (Unread stream) peekBit [b] b := by
  intro r rest h
  show ∃ s', (if 1 ≤ r.valid then _ else _) = _ ∧ _
  split
  · rename_i hv
    have hone : [b] = bitsOf 1 b.toNat := by cases b <;> rfl
    rw [hone] at h
    obtain ⟨hpeek, hskip⟩ := peek_eq h hv (by decide) (Bool.toNat_lt b)
    refine ⟨_, ?_, hskip⟩
    rw [hpeek]
    cases b <;> rfl
  · exact takes_readBit b r rest h

theorem valid_dvd (h : Unread stream r rest) (hrest : 8 ∣ rest.length) : 8 ∣ r.valid := by
  rw [← h.bits, unread, length_append, length_bitsOf, length_bytesBits] at hrest
  omega

/-- The word gives the first bytes, and all but the last of them only when it is used up. -/
theorem drain_spec (p : Bytes) (h : Unread stream r (bytesBits p ++ rest)) :
    ∃ front back r', p = front ++ back ∧ r.drain p.length = (front, r') ∧
      Unread stream r' (bytesBits back ++ rest) ∧ (back ≠ [] → r'.valid < 8) := by
  induction p generalizing r with
  | nil => exact ⟨[], [], r, rfl, rfl, h, fun hne => absurd rfl hne⟩
  | cons b p ih =>
    rw [length_cons, drain]
    split
    · rename_i hv
      rw [bytesBits_cons, append_assoc] at h
      obtain ⟨hbyte, hskip⟩ := topByte_eq h hv
      obtain ⟨front, back, r', rfl, hdrain, hback⟩ := ih hskip
      refine ⟨b :: front, back, r', rfl, ?_, hback⟩
      rw [hdrain, hbyte]
    · rename_i hv
      exact ⟨[], b :: p, r, rfl, rfl, h, fun _ => Nat.lt_of_not_le hv⟩

theorem unread_alignToByte (h : Unread stream r rest) :
    Unread stream r.alignToByte (rest.drop (rest.length % 8)) := by
  refine ⟨h.source, h.offset, h.last, ?_⟩
  have hmod : rest.length % 8 = r.valid % 8 := by
    rw [← h.bits, unread, length_append, length_bitsOf, length_bytesBits]
    omega
  have hdrop := unread_dropBits r (Nat.mod_le r.valid 8)
  have hvalid : r.valid - r.valid % 8 = r.valid / 8 * 8 := by omega
  rw [hmod, ← h.bits, ← hdrop, hvalid]
  rfl

/-- **Bytes are read back from a whole byte on**, off the word and then off the stream. -/
theorem run_readBytes {p : Bytes} (h : Unread stream r (bytesBits p ++ rest))
    (hrest : 8 ∣ rest.length) :
    ∃ r', (readBytes p.length).run r = .ok (p, r') ∧ Unread stream r' rest := by
  have halign : Unread stream r.alignToByte (bytesBits p ++ rest) := by
    have halign := unread_alignToByte h
    rwa [length_append, length_bytesBits, Nat.mod_eq_zero_of_dvd (by omega), drop_zero] at halign
  obtain ⟨front, back, r', rfl, hdrain, hback, hempty⟩ := drain_spec p halign
  simp only [StateT.run, readBytes, hdrain]
  simp only [length_append, Nat.add_sub_cancel_left, length_eq_zero_iff]
  by_cases hne : back = []
  · subst hne
    rw [if_pos rfl, append_nil]
    exact ⟨r', rfl, hback⟩
  rw [if_neg hne]
  -- the word is used up, so the bits ahead are those of the stream from here on
  have hzero : r'.valid = 0 := by
    have hdvd : 8 ∣ r'.valid := by
      refine valid_dvd hback ?_
      rw [length_append, length_bytesBits]
      omega
    have hlt := hempty hne
    omega
  have hbits := hback.bits
  rw [unread, hzero, bitsOf_zero, nil_append] at hbits
  obtain ⟨later, hlater, hlaterBits⟩ := exists_append_of_bytesBits hbits
  have hlen := congrArg List.length hlater
  rw [length_drop, length_append] at hlen
  rw [if_neg (by omega), hlater, take_left]
  refine ⟨_, rfl, ⟨hback.source, ?_, hback.last, ?_⟩⟩
  · show r'.offset + back.length ≤ r'.stream.length
    have hpos := length_pos_iff.mpr hne
    omega
  · show bitsOf 0 0 ++ bytesBits (r'.stream.drop (r'.offset + back.length)) = rest
    rw [bitsOf_zero, nil_append, ← drop_drop, hlater, drop_left, hlaterBits]

theorem readBytes_alignToByte (n : ℕ) (r : Reader) :
    (readBytes n).run r.alignToByte = (readBytes n).run r := by
  have hidem : r.alignToByte.alignToByte = r.alignToByte := by
    rw [alignToByte, alignToByte]
    dsimp only
    rw [Nat.mul_div_cancel _ (by decide : 0 < 8)]
    split <;> rfl
  simp only [StateT.run, readBytes, hidem]

theorem bytesBits_ones (n : ℕ) : bytesBits (replicate n 255) = replicate (8 * n) true := by
  induction n with
  | zero => rfl
  | succ n ih =>
    rw [replicate_succ, bytesBits_cons, ih, Nat.mul_succ, Nat.add_comm, replicate_add]
    rfl

/-- Inside a byte, ones are read back with a zero among them. -/
theorem run_readBytes_unaligned {n free : ℕ} (hn : 0 < n) (hfree : 0 < free) (hlt : free < 8)
    (h : Unread stream r (bytesBits (replicate n 255) ++ replicate free false)) :
    ∃ p r', p ≠ replicate n 255 ∧ (readBytes n).run r = .ok (p, r') := by
  obtain ⟨m, rfl⟩ := Nat.exists_eq_succ_of_ne_zero hn.ne'
  have halign := unread_alignToByte h
  -- the byte the zeros are in
  obtain ⟨b, hb, hne⟩ : ∃ b : Byte, bitsOf 8 b.val =
      replicate (8 - free) true ++ replicate free false ∧ b ≠ 255 := by
    refine ⟨toByte (2 ^ 8 - 2 ^ free), ?_⟩
    interval_cases free <;> decide
  have hbits : (bytesBits (replicate (m + 1) 255) ++ replicate free false).drop
      ((bytesBits (replicate (m + 1) 255) ++ replicate free false).length % 8) =
        bytesBits (replicate m 255 ++ [b]) := by
    rw [length_append, length_bytesBits, length_replicate, Nat.mul_add_mod,
      Nat.mod_eq_of_lt (by rwa [length_replicate]), length_replicate, bytesBits_ones,
      drop_append_of_le_length (by rw [length_replicate]; omega), drop_replicate, bytesBits_append,
      bytesBits_ones, bytesBits_cons, bytesBits_nil, append_nil, hb, ← append_assoc,
      ← replicate_add]
    congr 2
    omega
  rw [hbits, ← append_nil (bytesBits (replicate m 255 ++ [b]))] at halign
  obtain ⟨r', hrun, -⟩ := run_readBytes halign (Nat.dvd_zero 8)
  rw [length_append, length_replicate, length_singleton, readBytes_alignToByte] at hrun
  refine ⟨_, r', fun heq => hne ?_, hrun⟩
  rw [replicate_succ'] at heq
  exact singleton_inj.mp (append_cancel_left heq)

end Reader

open Reader

namespace BitOp

/-- The read that matches a write; a bit is also read by peeking. -/
def read (peeking : Bool) : BitOp → BitReader BitValue
  | writeBit _ => BitValue.bit <$> if peeking then peekBit else readBit
  | writeBits _ nbits => BitValue.word <$> readBits nbits
  | writeByte _ => (fun b => BitValue.bytes [b]) <$> readByte
  | writeBytes p => BitValue.bytes <$> readBytes p.length
  | writeUvarint _ => BitValue.word <$> readUvarint
  | writeVarint _ => BitValue.int <$> readVarint

/-- A `WriteBytes` begins at a whole byte. -/
def aligned : BitOp → Writer → Bool
  | writeBytes _, w => w.count == 0
  | _, _ => true

variable {stream : Bytes} {r : Reader} {rest : List Bool}

theorem run_read (op : BitOp) (peeking : Bool) (h : Unread stream r (op.bits ++ rest))
    (hrest : ∀ p, op = .writeBytes p → 8 ∣ rest.length) :
    ∃ r', (op.read peeking).run r = .ok (op.value, r') ∧ Unread stream r' rest := by
  cases op with
  | writeBit bit =>
    cases peeking with
    | false => exact (takes_readBit bit).map _ r rest h
    | true => exact (takes_peekBit bit).map _ r rest h
  | writeBits u nbits =>
    rw [bits, ← bitsOf_mod le_rfl] at h
    exact (takes_readBits (Nat.le_of_lt_succ nbits.isLt)
      (Nat.mod_lt _ (Nat.two_pow_pos _))).map _ r rest h
  | writeByte b => exact (takes_readByte b).map (fun b => BitValue.bytes [b]) r rest h
  | writeBytes p =>
    obtain ⟨r', hrun, hr'⟩ := run_readBytes h (hrest p rfl)
    refine ⟨r', ?_, hr'⟩
    rw [read, StateT.run_map, hrun]
    rfl
  | writeUvarint u => exact (takes_readUvarint u.toNat_lt).map _ r rest h
  | writeVarint i => exact (takes_readVarint i).map _ r rest h

end BitOp

/-- The matching reads, each with its way to read a bit. -/
def readAll : List (BitOp × Bool) → BitReader (List BitValue)
  | [] => return []
  | (op, peeking) :: ops => do
    let v ← op.read peeking
    let vs ← readAll ops
    return v :: vs

/-- Every `WriteBytes` of the list begins at a whole byte. -/
def bytesAligned : List BitOp → Writer → Bool
  | [], _ => true
  | op :: ops, w => op.aligned w && bytesAligned ops (op.write w)

theorem run_readAll {stream : Bytes} {free : List Bool} (ops : List (BitOp × Bool)) {r : Reader}
    (hw : w.Holds written) (haligned : bytesAligned (ops.map Prod.fst) w = true)
    (hr : Unread stream r ((ops.map Prod.fst).flatMap BitOp.bits ++ free))
    (hlen : 8 ∣ written.length + ((ops.map Prod.fst).flatMap BitOp.bits ++ free).length) :
    ∃ r', (readAll ops).run r = .ok (ops.map fun o => o.1.value, r') ∧ Unread stream r' free := by
  induction ops generalizing w written r with
  | nil => exact ⟨r, rfl, hr⟩
  | cons o ops ih =>
    obtain ⟨op, peeking⟩ := o
    rw [map_cons, bytesAligned, Bool.and_eq_true] at haligned
    rw [map_cons, flatMap_cons, append_assoc] at hr hlen
    obtain ⟨r₁, hrun₁, hr₁⟩ := op.run_read peeking hr fun p hp => by
      -- the bits before are whole bytes, those of the operation are, and so are those behind
      cases hp
      have hfull := congrArg List.length (hw.full (beq_iff_eq.mp haligned.1))
      rw [length_bytesBits] at hfull
      rw [length_append, BitOp.bits, length_bytesBits] at hlen
      omega
    obtain ⟨r₂, hrun₂, hr₂⟩ := ih (BitOp.holds_write hw op) haligned.2 hr₁ (by
      rwa [length_append, Nat.add_assoc, ← length_append])
    refine ⟨r₂, ?_, hr₂⟩
    rw [readAll, StateT.run_bind, hrun₁]
    show (readAll ops >>= fun vs => pure (op.value :: vs)).run r₁ = _
    rw [StateT.run_bind, hrun₂]
    rfl

theorem readAll_concat (ops : List (BitOp × Bool)) (op : BitOp) (peeking : Bool) :
    readAll (ops ++ [(op, peeking)]) = do
      let vs ← readAll ops
      let v ← op.read peeking
      return vs ++ [v] := by
  induction ops with
  | nil => simp [readAll]
  | cons o ops ih => simp [readAll, ih]

theorem bytesAligned_concat (ops : List BitOp) (op : BitOp) (w : Writer) :
    bytesAligned (ops ++ [op]) w = (bytesAligned ops w && op.aligned (writeAll ops w)) := by
  induction ops generalizing w with
  | nil => simp [bytesAligned, writeAll]
  | cons o ops ih =>
    rw [cons_append, bytesAligned, ih, bytesAligned, Bool.and_assoc]
    rfl

/-- A reader over what the operations write returns the values written, and consumes the stream,
padded or not. -/
def ReadsBack (ops : List (BitOp × Bool)) : Prop :=
  let w := writeAll (ops.map Prod.fst) (Writer.newWriter [])
  ∃ r, (readAll ops).run (newReader w.stream) = .ok (ops.map fun o => o.1.value, r) ∧
    r.consumedBytes = w.padToByte.stream.length

theorem readsBack_of_aligned {ops : List (BitOp × Bool)}
    (haligned : bytesAligned (ops.map Prod.fst) (Writer.newWriter []) = true) : ReadsBack ops := by
  set w := writeAll (ops.map Prod.fst) (Writer.newWriter []) with hdef
  have hw : w.Holds ((ops.map Prod.fst).flatMap BitOp.bits) :=
    holds_writeAll _ (Writer.holds_newWriter [])
  have hr := unread_newReader w.stream
  have hlen : 8 ∣ (bytesBits w.stream).length := ⟨_, length_bytesBits _⟩
  rw [hw.stream] at hr hlen
  obtain ⟨r, hrun, hr⟩ := run_readAll ops (Writer.holds_newWriter []) haligned hr (by
    rwa [bytesBits_nil, length_nil, Nat.zero_add])
  refine ⟨r, hrun, ?_⟩
  rw [consumedBytes_eq hr, length_replicate, Nat.div_eq_of_lt hw.count, ← hdef]
  rfl

theorem not_readsBack_ones {ops : List (BitOp × Bool)} {n : ℕ} (hn : 0 < n)
    (haligned : bytesAligned (ops.map Prod.fst) (Writer.newWriter []) = true)
    (hfree : (writeAll (ops.map Prod.fst) (Writer.newWriter [])).count ≠ 0) :
    ¬ ReadsBack (ops ++ [(.writeBytes (replicate n 255), false)]) := by
  rintro ⟨r, hread, -⟩
  obtain ⟨w₀, hw₀⟩ : ∃ w, w = writeAll (ops.map Prod.fst) (Writer.newWriter []) := ⟨_, rfl⟩
  obtain ⟨w, hw⟩ : ∃ w, w = writeAll ((ops ++ [(BitOp.writeBytes (replicate n 255), false)]).map
    Prod.fst) (Writer.newWriter []) := ⟨_, rfl⟩
  have hholds₀ := holds_writeAll (ops.map Prod.fst) (Writer.holds_newWriter [])
  have hholds := holds_writeAll ((ops ++ [(BitOp.writeBytes (replicate n 255), false)]).map
    Prod.fst) (Writer.holds_newWriter [])
  rw [← hw₀] at hholds₀ hfree
  rw [← hw] at hholds hread
  rw [map_append, flatMap_append, bytesBits_nil, nil_append] at hholds
  rw [bytesBits_nil, nil_append] at hholds₀
  have hcount : w.count = w₀.count := by
    have hlen := congrArg List.length hholds.stream
    have hlen₀ := congrArg List.length hholds₀.stream
    have hlt := hholds.count
    have hlt₀ := hholds₀.count
    simp only [length_append, length_bytesBits, length_replicate, flatMap_cons, flatMap_nil,
      BitOp.bits, map_cons, map_nil, append_nil] at hlen hlen₀
    omega
  have hr := unread_newReader w.stream
  rw [hholds.stream, hcount, append_assoc] at hr
  obtain ⟨r₁, hrun₁, hr₁⟩ := run_readAll ops (Writer.holds_newWriter []) haligned hr (by
    rw [← append_assoc, ← hcount, ← hholds.stream, bytesBits_nil, length_bytesBits]
    exact ⟨_, Nat.zero_add _⟩)
  simp only [map_cons, map_nil, flatMap_cons, flatMap_nil, append_nil, BitOp.bits] at hr₁
  obtain ⟨p, r₂, hne, hrun₂⟩ := run_readBytes_unaligned hn (Nat.pos_of_ne_zero hfree)
    hholds₀.count hr₁
  have hread' : (readAll (ops ++ [(.writeBytes (replicate n 255), false)])).run
      (newReader w.stream) = .ok (ops.map (fun o => o.1.value) ++ [.bytes p], r₂) := by
    rw [readAll_concat, StateT.run_bind, hrun₁]
    show (BitValue.bytes <$> readBytes (replicate n 255).length >>= fun v =>
        pure (_ ++ [v])).run r₁ = _
    rw [StateT.run_bind, StateT.run_map, length_replicate, hrun₂]
    rfl
  rw [hread'] at hread
  have hvalues := congrArg Prod.fst (Except.ok.inj hread)
  rw [map_append] at hvalues
  have hlast := singleton_inj.mp (append_cancel_left hvalues)
  exact hne (BitValue.bytes.inj hlast)

/-- **What is written is read back**, whatever the alignment, when every `WriteBytes` begins at a
whole byte; and the reads consume the stream, padded or not.  It must: after such operations, bytes
of any length are all read back only if no bits are free. -/
theorem reads_what_is_written (ops : List (BitOp × Bool))
    (haligned : bytesAligned (ops.map Prod.fst) (Writer.newWriter []) = true) :
    ReadsBack ops ∧ ∀ n, 0 < n →
      ((∀ p : Bytes, p.length = n → ReadsBack (ops ++ [(.writeBytes p, false)])) ↔
        (writeAll (ops.map Prod.fst) (Writer.newWriter [])).count = 0) := by
  refine ⟨readsBack_of_aligned haligned, fun n hn => ⟨fun hall => ?_, fun hcount p _ => ?_⟩⟩
  · by_contra hfree
    exact not_readsBack_ones hn haligned hfree (hall _ length_replicate)
  · refine readsBack_of_aligned ?_
    rw [map_append, map_cons, map_nil, bytesAligned_concat, haligned]
    exact beq_iff_eq.mpr hcount

/-- A byte of three writes, then bytes at the boundary. -/
theorem reads_what_is_written_bytes :
    let ops := [(BitOp.writeBits 21 5, false), (.writeBit true, true), (.writeBits 2 2, false),
      (.writeBytes [7, 255], false), (.writeVarint (-3), false)]
    ∃ r, (readAll ops).run (newReader (writeAll (ops.map Prod.fst) (Writer.newWriter [])).stream) =
      .ok ([.word 21, .bit true, .word 2, .bytes [7, 255], .int (-3)], r) :=
  (reads_what_is_written _ (by decide +kernel)).1.imp fun _ h => h.1

/-- Behind one bit, the byte `255` is read as `128`. -/
theorem unaligned_bytes_misread :
    let ops := [(BitOp.writeBit true, false), (.writeBytes [255], false)]
    ((readAll ops).run (newReader (writeAll (ops.map Prod.fst) (Writer.newWriter [])).stream)).map
      Prod.fst = .ok [.bit true, .bytes [128]] := by
  decide +kernel

end OtelStorage.Encoding
