import OtelStorage.Foundation.Wire

/-!
# Frames

A record is logged as a frame: the length of its body, the body, and a checksum of both.  The body
is a type byte and the payload.  A reader trusts the length to find the end of the frame before it
can check the sum, so bytes that announce more than is there look like a frame cut short.

`announced` says where a frame would end.  It looks only at the bytes up to there, and bytes cut
anywhere before announce nothing; everything about cut and extended logs below is read off these two
facts.  The checksum is any function of the bytes.
-/

namespace OtelStorage.Wal

open Delimited Wire List

/-- Why no frame could be read: there is none or only the start of one, or its checksum is wrong. -/
inductive FrameError
  | eof
  | corrupt
  deriving DecidableEq, Repr

/-- A frame that was read: its type, its payload and the bytes it took. -/
structure Frame where
  typ : Byte
  payload : Bytes
  size : ℕ
  deriving DecidableEq, Repr

/-- The bytes of the length at the front and the length of the body, when the length can be read, is
not 0, and the body and its checksum are there. -/
def announced (src : Bytes) : Option (ℕ × ℕ) :=
  match uvarint src with
  | none => none
  | some (bodyLen, rest) =>
      if bodyLen = 0 ∨ rest.length < 4 ∨ rest.length - 4 < bodyLen then none
      else some (src.length - rest.length, bodyLen)

section

variable (crc : Bytes → UInt32)

/-- Length, type, payload and checksum. -/
def appendFrame (typ : Byte) (payload : Bytes) : Bytes :=
  let body := appendUvarint (1 + payload.length) ++ typ :: payload
  body ++ bigEndian 4 (crc body).toNat

/-- The frame at the front. -/
def readFrame (src : Bytes) : Except FrameError Frame :=
  match announced src with
  | none => .error .eof
  | some (n, bodyLen) =>
      let bodyEnd := n + bodyLen
      if (crc (src.take bodyEnd)).toNat ≠ ofBigEndian ((src.drop bodyEnd).take 4) then
        .error .corrupt
      else
        let body := (src.drop n).take bodyLen
        .ok ⟨body.headD 0, body.tail, bodyEnd + 4⟩

end

variable {src : Bytes} {bodyLen n k : ℕ}

/-! ## Where a frame ends -/

theorem announced_eq_some_iff : announced src = some (n, bodyLen) ↔
    ∃ rest, uvarint src = some (bodyLen, rest) ∧ bodyLen ≠ 0 ∧ bodyLen + 4 ≤ rest.length ∧
      n = src.length - rest.length := by
  rw [announced]
  cases h : uvarint src with
  | none => exact ⟨nofun, fun ⟨_, hnone, _⟩ => nomatch hnone⟩
  | some p =>
    obtain ⟨len, rest⟩ := p
    dsimp only
    split
    · next hbad =>
      refine ⟨nofun, ?_⟩
      rintro ⟨rest', heq, hne, hfits, -⟩
      cases heq
      omega
    next hgood =>
    constructor
    · intro heq
      cases heq
      exact ⟨rest, rfl, by omega, by omega, rfl⟩
    · rintro ⟨rest', heq, -, -, rfl⟩
      cases heq
      rfl

theorem announced_bounds (h : announced src = some (n, bodyLen)) :
    1 ≤ n ∧ 1 ≤ bodyLen ∧ n + bodyLen + 4 ≤ src.length := by
  obtain ⟨rest, hread, hne, hfits, rfl⟩ := announced_eq_some_iff.mp h
  obtain ⟨front, hfront, rfl, -⟩ := uvarint_eq_some hread
  have hpos := length_pos_iff.mpr hfront
  rw [length_append]
  omega

theorem announced_extend {p : ℕ × ℕ} (h : announced src = some p) (more : Bytes) :
    announced (src ++ more) = some p := by
  obtain ⟨n, bodyLen⟩ := p
  obtain ⟨rest, hread, hne, hfits, rfl⟩ := announced_eq_some_iff.mp h
  refine announced_eq_some_iff.mpr ⟨rest ++ more, uvarint_extend hread more, hne, ?_, ?_⟩
  · rw [length_append]
    omega
  · rw [length_append, length_append]
    omega

theorem announced_take (h : announced src = some (n, bodyLen)) (hk : n + bodyLen + 4 ≤ k) :
    announced (src.take k) = some (n, bodyLen) := by
  obtain ⟨rest, hread, hne, hfits, rfl⟩ := announced_eq_some_iff.mp h
  obtain ⟨front, hfront, rfl, hmore⟩ := uvarint_eq_some hread
  rw [length_append] at hk
  have hsplit : (front ++ rest).take k = front ++ rest.take (k - front.length) := by
    rw [take_append, take_of_length_le (by omega)]
  refine announced_eq_some_iff.mpr ⟨rest.take (k - front.length), ?_, hne, ?_, ?_⟩
  · rw [hsplit, hmore]
  · rw [length_take]
    omega
  · rw [hsplit, length_append, length_append]
    omega

theorem announced_take_none (h : announced src = some (n, bodyLen)) (hk : k < n + bodyLen + 4) :
    announced (src.take k) = none := by
  cases hcut : announced (src.take k) with
  | none => rfl
  | some p =>
    -- What the cut bytes announced, the whole bytes would announce too.
    have hext := announced_extend hcut (src.drop k)
    rw [take_append_drop, h] at hext
    cases hext
    have hle := (announced_bounds hcut).2.2
    rw [length_take] at hle
    omega

/-! ## Reading a frame -/

section

variable {crc : Bytes → UInt32}

theorem readFrame_of_none (h : announced src = none) : readFrame crc src = .error .eof := by
  rw [readFrame, h]

theorem readFrame_eq_ok_iff {f : Frame} : readFrame crc src = .ok f ↔
    ∃ n bodyLen, announced src = some (n, bodyLen) ∧
      (crc (src.take (n + bodyLen))).toNat = ofBigEndian ((src.drop (n + bodyLen)).take 4) ∧
      f = ⟨((src.drop n).take bodyLen).headD 0, ((src.drop n).take bodyLen).tail,
        n + bodyLen + 4⟩ := by
  constructor
  · intro h
    cases ha : announced src with
    | none =>
      rw [readFrame, ha] at h
      cases h
    | some p =>
      obtain ⟨n, bodyLen⟩ := p
      rw [readFrame, ha] at h
      dsimp only at h
      split at h
      · cases h
      · next hsum =>
        cases h
        exact ⟨n, bodyLen, rfl, not_not.mp hsum, rfl⟩
  · rintro ⟨n, bodyLen, ha, hsum, rfl⟩
    rw [readFrame, ha]
    dsimp only
    rw [if_neg (not_not.mpr hsum)]

section

variable {f : Frame} (h : readFrame crc src = .ok f)

include h

theorem readFrame_size : 6 ≤ f.size ∧ f.size ≤ src.length := by
  obtain ⟨n, bodyLen, ha, -, rfl⟩ := readFrame_eq_ok_iff.mp h
  have hbounds := announced_bounds ha
  dsimp only
  omega

/-- A frame is read from its own bytes alone: what follows them may be cut or replaced. -/
theorem readFrame_take_append (more : Bytes) : readFrame crc (src.take f.size ++ more) = .ok f := by
  obtain ⟨n, bodyLen, ha, hsum, rfl⟩ := readFrame_eq_ok_iff.mp h
  have hlen := (announced_bounds ha).2.2
  have hcut := announced_extend (announced_take ha (Nat.le_refl _)) more
  refine readFrame_eq_ok_iff.mpr ⟨n, bodyLen, hcut, ?_, ?_⟩
  · have htake : (src.take (n + bodyLen + 4) ++ more).take (n + bodyLen) =
        src.take (n + bodyLen) := by
      rw [take_append_of_le_length (by rw [length_take]; omega), take_take]
      congr 1
      omega
    have hdrop : ((src.take (n + bodyLen + 4) ++ more).drop (n + bodyLen)).take 4 =
        (src.drop (n + bodyLen)).take 4 := by
      rw [drop_append_of_le_length (by rw [length_take]; omega), drop_take,
        take_append_of_le_length (by rw [length_take, length_drop]; omega),
        take_take]
      congr 1
      omega
    rw [htake, hdrop]
    exact hsum
  · have hbody : ((src.take (n + bodyLen + 4) ++ more).drop n).take bodyLen =
        (src.drop n).take bodyLen := by
      rw [drop_append_of_le_length (by rw [length_take]; omega), drop_take,
        take_append_of_le_length (by rw [length_take, length_drop]; omega),
        take_take]
      congr 1
      omega
    rw [hbody]

theorem readFrame_extend (more : Bytes) : readFrame crc (src ++ more) = .ok f := by
  have hsplit : src ++ more = src.take f.size ++ (src.drop f.size ++ more) := by
    rw [← append_assoc, take_append_drop]
  rw [hsplit]
  exact readFrame_take_append h _

theorem readFrame_take (hk : f.size ≤ k) : readFrame crc (src.take k) = .ok f := by
  have hsplit : src.take k = src.take f.size ++ (src.take k).drop f.size := by
    have hhead : (src.take k).take f.size = src.take f.size := by
      rw [take_take, Nat.min_eq_left hk]
    rw [← hhead, take_append_drop]
  rw [hsplit]
  exact readFrame_take_append h _

end

/-! ## A frame that was written -/

theorem length_appendFrame (crc : Bytes → UInt32) (typ : Byte) (payload : Bytes) :
    (appendFrame crc typ payload).length =
      (appendUvarint (1 + payload.length)).length + (1 + payload.length) + 4 := by
  rw [appendFrame, length_append, length_append, length_bigEndian, length_cons]
  omega

section

variable {payload : Bytes} (h : 1 + payload.length < 2 ^ 64) {typ : Byte}

include h

theorem announced_appendFrame (rest : Bytes) :
    announced (appendFrame crc typ payload ++ rest) =
      some ((appendUvarint (1 + payload.length)).length, 1 + payload.length) := by
  have hlen := length_appendFrame crc typ payload
  refine announced_eq_some_iff.mpr ⟨typ :: payload ++ (bigEndian 4
    (crc (appendUvarint (1 + payload.length) ++ typ :: payload)).toNat ++ rest), ?_, by
      omega, ?_, ?_⟩
  · rw [appendFrame, append_assoc, append_assoc, uvarint_append h]
  · rw [length_append, length_append, length_bigEndian, length_cons]
    omega
  · rw [length_append, hlen, length_append, length_append, length_bigEndian, length_cons]
    omega

/-- **A frame reads back**, whatever follows it. -/
theorem readFrame_appendFrame (rest : Bytes) :
    readFrame crc (appendFrame crc typ payload ++ rest) =
      .ok ⟨typ, payload, (appendFrame crc typ payload).length⟩ := by
  obtain ⟨len, hlen⟩ : ∃ len, len = appendUvarint (1 + payload.length) := ⟨_, rfl⟩
  have hbody : (len ++ typ :: payload).length = len.length + (1 + payload.length) := by
    rw [length_append, length_cons]
    omega
  have hsum : (crc (len ++ typ :: payload)).toNat < 256 ^ 4 := (crc _).toNat_lt
  refine readFrame_eq_ok_iff.mpr ⟨_, _, announced_appendFrame h rest, ?_, ?_⟩
  · rw [appendFrame, ← hlen, ← hbody, append_assoc, take_left, drop_left,
      take_left' (length_bigEndian 4 _), ofBigEndian_bigEndian hsum]
  have hdrop : ((appendFrame crc typ payload ++ rest).drop len.length).take (1 + payload.length) =
      typ :: payload := by
    rw [appendFrame, ← hlen, append_assoc, append_assoc, drop_left,
      take_left' (by rw [length_cons, Nat.add_comm])]
  rw [← hlen, hdrop, length_appendFrame, ← hlen]
  rfl

/-- **A frame cut short reads as the end of the log.** -/
theorem readFrame_take_appendFrame (hk : k < (appendFrame crc typ payload).length) :
    readFrame crc ((appendFrame crc typ payload).take k) = .error .eof := by
  have ha : announced (appendFrame crc typ payload ++ []) = _ := announced_appendFrame h []
  rw [append_nil] at ha
  rw [length_appendFrame] at hk
  exact readFrame_of_none (announced_take_none ha hk)

end

end

end OtelStorage.Wal
