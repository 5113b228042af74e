import OtelStorage.Foundation.Delimited

/-!
# Binary fields

Records are written as fields one behind another and read back from the front.  A `Reader` takes a
value off the front of a byte string or fails.  Two statements about a reader carry every format
built from it: `Reads r bs a`, it reads `a` off `bs` whatever follows, which is what a round trip
needs; and `Yields r P`, everything it accepts satisfies `P`.  Both go through `bind`, so a format's
proofs follow the format field by field.

The fields are those of Go's `encoding/binary`: base-128 numbers, least significant group first,
with the top bit of a byte saying that another one follows; signed numbers folded onto the even and
odd ones; and big-endian words of fixed width.
-/

namespace OtelStorage.Wire

open Delimited List

/-! ## Readers -/

/-- A reader takes a value off the front of a byte string, or fails with an error. -/
abbrev Reader (ε α : Type) := StateT Bytes (Except ε) α

section Readers

variable {ε α β : Type} {r : Reader ε α} {f : α → Reader ε β} {P : α → Prop} {bs cs : Bytes} {a : α}
  {b : β} {Q : β → Prop} {write : α → Bytes}

/-- The reader reads `a` off `bs`, whatever follows. -/
def Reads (r : Reader ε α) (bs : Bytes) (a : α) : Prop :=
  ∀ rest, r.run (bs ++ rest) = .ok (a, rest)

/-- Everything the reader accepts satisfies `P`. -/
def Yields (r : Reader ε α) (P : α → Prop) : Prop :=
  ∀ ⦃bs a rest⦄, r.run bs = .ok (a, rest) → P a

theorem run_bind_eq_ok {rest : Bytes} :
    (r >>= f).run bs = .ok (b, rest) ↔
      ∃ a mid, r.run bs = .ok (a, mid) ∧ (f a).run mid = .ok (b, rest) := by
  rw [StateT.run_bind]
  cases h : r.run bs with
  | error e => exact ⟨nofun, fun ⟨_, _, hr, _⟩ => nomatch hr⟩
  | ok p =>
    obtain ⟨a, mid⟩ := p
    constructor
    · intro h
      exact ⟨a, mid, rfl, h⟩
    · rintro ⟨a', mid', heq, h⟩
      cases heq
      exact h

theorem run_bind_of_ok {mid : Bytes} (h : r.run bs = .ok (a, mid)) :
    (r >>= f).run bs = (f a).run mid := by
  rw [StateT.run_bind, h]
  rfl

theorem run_bind_of_error {e : ε} (h : r.run bs = .error e) : (r >>= f).run bs = .error e := by
  rw [StateT.run_bind, h]
  rfl

theorem Reads.pure (a : α) : Reads (Pure.pure a : Reader ε α) [] a := fun _ => rfl

theorem Reads.bind (hr : Reads r bs a) (hf : Reads (f a) cs b) : Reads (r >>= f) (bs ++ cs) b := by
  intro rest
  rw [run_bind_eq_ok, append_assoc]
  exact ⟨a, cs ++ rest, hr (cs ++ rest), hf rest⟩

theorem Reads.skip (hr : Reads r [] a) (hf : Reads (f a) cs b) : Reads (r >>= f) cs b := hr.bind hf

theorem Reads.last (hr : Reads r bs a) (hf : Reads (f a) [] b) : Reads (r >>= f) bs b := by
  have h := hr.bind hf
  rwa [append_nil] at h

theorem Reads.map (f : α → β) (hr : Reads r bs a) : Reads (f <$> r) bs (f a) := by
  rw [map_eq_pure_bind]
  exact hr.last (Reads.pure (f a))

theorem Yields.pure (h : P a) : Yields (Pure.pure a : Reader ε α) P := by
  intro bs a' rest heq
  cases heq
  exact h

theorem Yields.bind (hr : Yields r P) (hf : ∀ a, P a → Yields (f a) Q) : Yields (r >>= f) Q := by
  intro bs b rest h
  obtain ⟨a, mid, ha, hb⟩ := run_bind_eq_ok.mp h
  exact hf a (hr ha) hb

theorem Yields.any (hf : ∀ a, Yields (f a) Q) : Yields (r >>= f) Q :=
  Yields.bind (P := fun _ => True) (fun _ _ _ _ => trivial) fun a _ => hf a

theorem Yields.map {P : β → Prop} (f : α → β) (hr : Yields r fun a => P (f a)) :
    Yields (f <$> r) P := by
  rw [map_eq_pure_bind]
  exact hr.bind fun a h => Yields.pure h

theorem Yields.throw (e : ε) : Yields (throw e : Reader ε α) P := by
  intro bs a rest h
  cases h

theorem Yields.ite {c : Prop} [Decidable c] {s : Reader ε α}
    (hr : c → Yields r P) (hs : ¬ c → Yields s P) : Yields (if c then r else s) P := by
  split
  · next h => exact hr h
  · next h => exact hs h

/-- Go on only if `c` holds. -/
def require (c : Prop) [Decidable c] (e : ε) : Reader ε Unit :=
  if c then Pure.pure () else throw e

theorem Reads.require {c : Prop} [Decidable c] (h : c) (e : ε) : Reads (require c e) [] () := by
  intro rest
  rw [Wire.require, if_pos h]
  rfl

theorem Yields.require (c : Prop) [Decidable c] (e : ε) : Yields (require c e) fun _ => c :=
  Yields.ite (fun h => Yields.pure h) fun _ => Yields.throw e

/-- The error of `r` behind a description of what was being read. -/
def wrapError (msg : String) (r : Reader String α) : Reader String α := fun bs =>
  match r.run bs with
  | .error e => .error (msg ++ ": " ++ e)
  | .ok p => .ok p

theorem run_wrapError (msg : String) (r : Reader String α) (bs : Bytes) :
    (wrapError msg r).run bs =
      match r.run bs with
      | .error e => .error (msg ++ ": " ++ e)
      | .ok p => .ok p := rfl

theorem Reads.wrapError {r : Reader String α} (msg : String) (h : Reads r bs a) :
    Reads (wrapError msg r) bs a := fun rest => by rw [run_wrapError, h rest]

/-! ## A number of values -/

/-- `n` values, one behind another. -/
def readMany (r : Reader ε α) : ℕ → Reader ε (List α)
  | 0 => Pure.pure []
  | n + 1 => do
      let a ← r
      let l ← readMany r n
      Pure.pure (a :: l)

theorem Reads.many (l : List α) (h : ∀ a ∈ l, Reads r (write a) a) :
    Reads (readMany r l.length) (l.flatMap write) l := by
  induction l with
  | nil => exact Reads.pure []
  | cons a l ih =>
    have hl := ih fun b hb => h b (mem_cons_of_mem a hb)
    exact (h a mem_cons_self).bind (hl.last (Reads.pure (a :: l)))

theorem Yields.many (h : Yields r P) (n : ℕ) :
    Yields (readMany r n) fun l => l.length = n ∧ ∀ a ∈ l, P a := by
  induction n with
  | zero => exact Yields.pure ⟨rfl, nofun⟩
  | succ n ih =>
    refine h.bind fun a ha => ih.bind fun l hl => Yields.pure ⟨?_, ?_⟩
    · rw [length_cons, hl.1]
    · intro b hb
      rcases mem_cons.mp hb with rfl | hb
      · exact ha
      · exact hl.2 b hb

end Readers

variable {bs rest : Bytes} {n i x : ℕ} {b : Byte}

/-! ## Unsigned numbers -/

/-- The number in base 128, least significant group first. -/
def appendUvarint (n : ℕ) : Bytes :=
  if n < 128 then [Fin.ofNat 256 n] else Fin.ofNat 256 (n % 128 + 128) :: appendUvarint (n / 128)

/-- The number at the front and what follows it, from the group `i` with `x` read so far.  At most
ten groups are read, and only the lowest bit of the tenth fits 64 bits. -/
def uvarintFrom : ℕ → ℕ → Bytes → Option (ℕ × Bytes)
  | _, _, [] => none
  | i, x, b :: bs =>
      if i = 10 then none
      else if b.val < 128 then
        if i = 9 ∧ 1 < b.val then none else some (x + b.val * 2 ^ (7 * i), bs)
      else uvarintFrom (i + 1) (x + (b.val - 128) * 2 ^ (7 * i)) bs

/-- The number at the front, and what follows it. -/
def uvarint (bs : Bytes) : Option (ℕ × Bytes) := uvarintFrom 0 0 bs

theorem appendUvarint_of_lt (h : n < 128) : appendUvarint n = [Fin.ofNat 256 n] := by
  rw [appendUvarint, if_pos h]

theorem appendUvarint_of_le (h : 128 ≤ n) :
    appendUvarint n = Fin.ofNat 256 (n % 128 + 128) :: appendUvarint (n / 128) := by
  rw [appendUvarint, if_neg (Nat.not_lt.mpr h)]

theorem appendUvarint_ne_nil (n : ℕ) : appendUvarint n ≠ [] := by
  rw [appendUvarint]
  split
  · exact cons_ne_nil _ _
  · exact cons_ne_nil _ _

theorem uvarintFrom_cons_low (hi : i ≠ 10) (hb : b.val < 128) (hlast : ¬ (i = 9 ∧ 1 < b.val)) :
    uvarintFrom i x (b :: bs) = some (x + b.val * 2 ^ (7 * i), bs) := by
  rw [uvarintFrom, if_neg hi, if_pos hb, if_neg hlast]

theorem uvarintFrom_cons_high (hi : i ≠ 10) (hb : 128 ≤ b.val) :
    uvarintFrom i x (b :: bs) = uvarintFrom (i + 1) (x + (b.val - 128) * 2 ^ (7 * i)) bs := by
  rw [uvarintFrom, if_neg hi, if_neg (Nat.not_lt.mpr hb)]

theorem add_group_lt {c : ℕ} (hx : x < 2 ^ (7 * i)) (hc : c < 128) :
    x + c * 2 ^ (7 * i) < 2 ^ (7 * (i + 1)) := by
  have hle : c * 2 ^ (7 * i) ≤ 127 * 2 ^ (7 * i) := Nat.mul_le_mul_right _ (by omega)
  rw [Nat.mul_succ, Nat.pow_add]
  omega

theorem split_group (n i : ℕ) :
    n * 2 ^ (7 * i) = n % 128 * 2 ^ (7 * i) + n / 128 * 2 ^ (7 * (i + 1)) := by
  rw [Nat.mul_succ, Nat.pow_add, Nat.mul_comm _ (2 ^ 7), ← Nat.mul_assoc, ← Nat.add_mul,
    Nat.mul_comm (n / 128), Nat.mod_add_div]

theorem lt_nine_of_fits (hn : ¬ n < 128) (hi : i ≤ 9) (h : n * 2 ^ (7 * i) < 2 ^ 64) : i < 9 := by
  refine Nat.lt_of_le_of_ne hi ?_
  rintro rfl
  omega

theorem uvarintFrom_append (n i x : ℕ) (rest : Bytes) (hi : i ≤ 9) (h : n * 2 ^ (7 * i) < 2 ^ 64) :
    uvarintFrom i x (appendUvarint n ++ rest) = some (x + n * 2 ^ (7 * i), rest) := by
  induction n using Nat.strong_induction_on generalizing i x with
  | _ n ih =>
    have hi10 : i ≠ 10 := by omega
    by_cases hn : n < 128
    · have hval : (Fin.ofNat 256 n).val = n := Nat.mod_eq_of_lt (by omega)
      have hlast : ¬ (i = 9 ∧ 1 < (Fin.ofNat 256 n).val) := by
        rintro ⟨rfl, hb⟩
        rw [hval] at hb
        omega
      rw [appendUvarint_of_lt hn, singleton_append,
        uvarintFrom_cons_low hi10 (by omega) hlast, hval]
    have hval : (Fin.ofNat 256 (n % 128 + 128)).val = n % 128 + 128 :=
      Nat.mod_eq_of_lt (by omega)
    have hsplit := split_group n i
    have hrest := ih (n / 128) (by omega) (i + 1) (x + n % 128 * 2 ^ (7 * i))
      (lt_nine_of_fits hn hi h) (by omega)
    rw [appendUvarint_of_le (Nat.le_of_not_lt hn), cons_append,
      uvarintFrom_cons_high hi10 (by omega), hval, Nat.add_sub_cancel, hrest, hsplit, Nat.add_assoc]

theorem uvarint_append (h : n < 2 ^ 64) (rest : Bytes) :
    uvarint (appendUvarint n ++ rest) = some (n, rest) := by
  rw [uvarint, uvarintFrom_append n 0 0 rest (Nat.zero_le 9) (by omega)]
  simp

section

variable {i x v : ℕ}

/-- A byte of a number that is read: the last one, or one with more behind it. -/
theorem uvarintFrom_cons_eq_some (h : uvarintFrom i x (b :: bs) = some (v, rest)) :
    i ≠ 10 ∧ (b.val < 128 ∧ ¬ (i = 9 ∧ 1 < b.val) ∧ x + b.val * 2 ^ (7 * i) = v ∧ bs = rest ∨
      128 ≤ b.val ∧ uvarintFrom (i + 1) (x + (b.val - 128) * 2 ^ (7 * i)) bs = some (v, rest)) := by
  rw [uvarintFrom] at h
  split_ifs at h with hi hb hlast
  · cases h
    exact ⟨hi, .inl ⟨hb, hlast, rfl, rfl⟩⟩
  · exact ⟨hi, .inr ⟨Nat.le_of_not_lt hb, h⟩⟩

/-- What a number is read from: at least one byte in front of the rest, and the same bytes read the
same whatever follows them. -/
theorem uvarintFrom_eq_some (h : uvarintFrom i x bs = some (v, rest)) :
    ∃ front, front ≠ [] ∧ bs = front ++ rest ∧
      ∀ more, uvarintFrom i x (front ++ more) = some (v, more) := by
  induction bs generalizing i x with
  | nil => cases h
  | cons b bs ih =>
    obtain ⟨hi, ⟨hb, hlast, rfl, rfl⟩ | ⟨hb, h⟩⟩ := uvarintFrom_cons_eq_some h
    · exact ⟨[b], cons_ne_nil _ _, rfl, fun more => uvarintFrom_cons_low hi hb hlast⟩
    obtain ⟨front, -, rfl, hmore⟩ := ih h
    refine ⟨b :: front, cons_ne_nil _ _, rfl, fun more => ?_⟩
    rw [cons_append, uvarintFrom_cons_high hi hb, hmore]

theorem uvarint_eq_some (h : uvarint bs = some (v, rest)) :
    ∃ front, front ≠ [] ∧ bs = front ++ rest ∧ ∀ more, uvarint (front ++ more) = some (v, more) :=
  uvarintFrom_eq_some h

theorem uvarint_extend (h : uvarint bs = some (v, rest)) (more : Bytes) :
    uvarint (bs ++ more) = some (v, rest ++ more) := by
  obtain ⟨front, -, rfl, hmore⟩ := uvarint_eq_some h
  rw [append_assoc, hmore]

theorem uvarintFrom_lt (h : uvarintFrom i x bs = some (v, rest))
    (hi : i ≤ 10) (hx : x < 2 ^ (7 * i)) : v < 2 ^ 64 := by
  induction bs generalizing i x with
  | nil => cases h
  | cons b bs ih =>
    obtain ⟨hi10, ⟨hb, hlast, rfl, rfl⟩ | ⟨hb, h⟩⟩ := uvarintFrom_cons_eq_some h
    · by_cases h9 : i = 9
      · subst h9
        have hb1 : b.val ≤ 1 := by omega
        have hle : b.val * 2 ^ (7 * 9) ≤ 1 * 2 ^ (7 * 9) := Nat.mul_le_mul_right _ hb1
        omega
      · have hle : 2 ^ (7 * (i + 1)) ≤ 2 ^ 64 := Nat.pow_le_pow_right (by omega) (by omega)
        exact Nat.lt_of_lt_of_le (add_group_lt hx hb) hle
    · exact ih h (by omega) (add_group_lt hx (by have := b.isLt; omega))

theorem uvarint_lt (h : uvarint bs = some (v, rest)) : v < 2 ^ 64 :=
  uvarintFrom_lt h (Nat.zero_le 10) Nat.one_pos

end

section Fields

variable {ε α : Type} {r s : Reader ε α} (e : ε) {write : α → Bytes}

/-- A number in base 128. -/
def readUvarint (e : ε) : Reader ε ℕ := fun bs =>
  match uvarint bs with
  | none => .error e
  | some p => .ok p

theorem readUvarint_eq_ok {e : ε} :
    (readUvarint e).run bs = .ok (n, rest) ↔ uvarint bs = some (n, rest) := by
  show (match uvarint bs with | none => Except.error e | some p => Except.ok p) = _ ↔ _
  cases uvarint bs with
  | none => exact ⟨nofun, nofun⟩
  | some p => rw [Except.ok.injEq, Option.some.injEq]

theorem Reads.uvarint (h : n < 2 ^ 64) (e : ε) :
    Reads (readUvarint e) (appendUvarint n) n := fun rest =>
  readUvarint_eq_ok.mpr (uvarint_append h rest)

theorem Yields.uvarint : Yields (readUvarint e) (· < 2 ^ 64) := fun _ _ _ h =>
  uvarint_lt (readUvarint_eq_ok.mp h)

/-- A 64-bit word in base 128. -/
def appendUInt64 (n : UInt64) : Bytes := appendUvarint n.toNat

/-- The reader of such a word. -/
def readUInt64 (e : ε) : Reader ε UInt64 := UInt64.ofNat <$> readUvarint e

theorem Reads.uint64 (n : UInt64) (e : ε) : Reads (readUInt64 e) (appendUInt64 n) n := by
  have h := (Reads.uvarint n.toNat_lt e).map UInt64.ofNat
  rwa [UInt64.ofNat_toNat] at h

/-! ## Signed numbers -/

/-- The number folded onto the natural ones: `0, -1, 1, -2, …`. -/
def zigzag (x : Int64) : ℕ :=
  if x.toInt < 0 then (-2 * x.toInt - 1).toNat else (2 * x.toInt).toNat

/-- The inverse of `zigzag`. -/
def unzigzag (u : ℕ) : Int64 :=
  Int64.ofInt (if u % 2 = 1 then -((u / 2 : ℕ) : ℤ) - 1 else ((u / 2 : ℕ) : ℤ))

theorem zigzag_lt (x : Int64) : zigzag x < 2 ^ 64 := by
  have hlo := x.le_toInt
  have hhi := x.toInt_lt
  rw [zigzag]
  split
  · omega
  · omega

theorem unzigzag_zigzag (x : Int64) : unzigzag (zigzag x) = x := by
  have hvalue : (if zigzag x % 2 = 1 then -((zigzag x / 2 : ℕ) : ℤ) - 1
      else ((zigzag x / 2 : ℕ) : ℤ)) = x.toInt := by
    rw [zigzag]
    split
    · split
      · omega
      · omega
    · split
      · omega
      · omega
  rw [unzigzag, hvalue, Int64.ofInt_toInt]

/-- A signed number, folded. -/
def appendVarint (x : Int64) : Bytes := appendUvarint (zigzag x)

/-- The reader of a signed number. -/
def readVarint (e : ε) : Reader ε Int64 := unzigzag <$> readUvarint e

theorem Reads.varint (x : Int64) (e : ε) : Reads (readVarint e) (appendVarint x) x := by
  have h := (Reads.uvarint (zigzag_lt x) e).map unzigzag
  rwa [unzigzag_zigzag] at h

/-! ## Words of fixed width -/

/-- The lowest `k` bytes of the number, most significant first. -/
def bigEndian : ℕ → ℕ → Bytes
  | 0, _ => []
  | k + 1, n => bigEndian k (n / 256) ++ [Fin.ofNat 256 n]

/-- The number of a byte string, most significant byte first. -/
def ofBigEndian (bs : Bytes) : ℕ := bs.foldl (fun n b => n * 256 + b.val) 0

@[simp] theorem length_bigEndian (k n : ℕ) : (bigEndian k n).length = k := by
  induction k generalizing n with
  | zero => rfl
  | succ k ih => rw [bigEndian, length_append, ih, length_singleton]

theorem ofBigEndian_bigEndian {k : ℕ} (h : n < 256 ^ k) : ofBigEndian (bigEndian k n) = n := by
  induction k generalizing n with
  | zero =>
    have hn : n = 0 := Nat.lt_one_iff.mp h
    rw [hn]
    rfl
  | succ k ih =>
    have hdiv : n / 256 < 256 ^ k := by
      rw [Nat.div_lt_iff_lt_mul (by decide), ← Nat.pow_succ]
      exact h
    have hlow : (Fin.ofNat 256 n).val = n % 256 := rfl
    have hhigh : (bigEndian k (n / 256)).foldl (fun n b => n * 256 + b.val) 0 = n / 256 := ih hdiv
    rw [bigEndian, ofBigEndian, foldl_append, hhigh]
    simp only [foldl_cons, foldl_nil, hlow]
    omega

/-! ## Byte strings and lists behind their length -/

/-- The next `n` bytes. -/
def readBytes (n : ℕ) (e : ε) : Reader ε Bytes := fun bs =>
  if n ≤ bs.length then .ok (bs.take n, bs.drop n) else .error e

theorem Reads.bytes (bs : Bytes) (e : ε) : Reads (readBytes bs.length e) bs bs := by
  intro rest
  show (if bs.length ≤ (bs ++ rest).length then _ else _) = _
  rw [if_pos (by simp), take_left, drop_left]

theorem Yields.bytes (n : ℕ) (e : ε) : Yields (readBytes n e) (·.length = n) := by
  intro bs a rest h
  change (if n ≤ bs.length then _ else _) = _ at h
  split at h
  · next hle =>
    cases h
    rw [length_take, Nat.min_eq_left hle]
  · cases h

/-- The next byte. -/
def readByte (e : ε) : Reader ε Byte
  | [] => .error e
  | b :: bs => .ok (b, bs)

/-- A word of eight bytes. -/
def readUint64 (e : ε) : Reader ε UInt64 :=
  (fun bs => UInt64.ofNat (ofBigEndian bs)) <$> readBytes 8 e

/-- A word as eight bytes. -/
def appendUint64 (n : UInt64) : Bytes := bigEndian 8 n.toNat

theorem Reads.word (n : UInt64) (e : ε) : Reads (readUint64 e) (appendUint64 n) n := by
  have hlen : (appendUint64 n).length = 8 := length_bigEndian 8 n.toNat
  have hbytes := Reads.bytes (appendUint64 n) e
  rw [hlen] at hbytes
  have h := hbytes.map fun bs => UInt64.ofNat (ofBigEndian bs)
  have hvalue : ofBigEndian (appendUint64 n) = n.toNat := ofBigEndian_bigEndian n.toNat_lt
  rwa [hvalue, UInt64.ofNat_toNat] at h

/-- A byte string behind its length. -/
def appendBlob (b : Bytes) : Bytes := appendUvarint b.length ++ b

/-- A byte string behind its length; one that does not fit what is left is an error. -/
def readBlob (e : ε) : Reader ε Bytes := do
  let n ← readUvarint e
  readBytes n e

theorem appendBlob_ne_nil (b : Bytes) : appendBlob b ≠ [] := by
  rw [appendBlob, Ne, append_eq_nil_iff]
  exact fun h => appendUvarint_ne_nil _ h.1

theorem Reads.blob {b : Bytes} (h : b.length < 2 ^ 64) (e : ε) :
    Reads (readBlob e) (appendBlob b) b := (Reads.uvarint h e).bind (Reads.bytes b e)

theorem Yields.blob : Yields (readBlob e) (·.length < 2 ^ 64) := by
  refine (Yields.uvarint e).bind fun n hn => ?_
  intro bs a rest h
  have hlen := Yields.bytes n e h
  omega

/-- Values behind their count. -/
def appendList (write : α → Bytes) (l : List α) : Bytes :=
  appendUvarint l.length ++ l.flatMap write

/-- How many values follow; a count above the bytes left is an error of its own. -/
def readCount (bad exceeds : ε) : Reader ε ℕ := do
  let n ← readUvarint bad
  let buf ← get
  require (n ≤ buf.length) exceeds
  pure n

/-- A list behind its count. -/
def readList (bad exceeds : ε) (r : Reader ε α) : Reader ε (List α) := do
  let n ← readCount bad exceeds
  readMany r n

theorem length_le_flatMap (l : List α) (h : ∀ a ∈ l, write a ≠ []) :
    l.length ≤ (l.flatMap write).length := by
  induction l with
  | nil => exact Nat.le_refl 0
  | cons a l ih =>
    have ha := length_pos_iff.mpr (h a mem_cons_self)
    have hl := ih fun b hb => h b (mem_cons_of_mem a hb)
    rw [flatMap_cons, length_append, length_cons]
    omega

/-- Values of at least one byte each are read back: their count fits the bytes that follow it. -/
theorem Reads.list {l : List α} (hlen : l.length < 2 ^ 64)
    (hne : ∀ a ∈ l, write a ≠ []) (h : ∀ a ∈ l, Reads r (write a) a) (bad exceeds : ε) :
    Reads (readList bad exceeds r) (appendList write l) l := by
  intro rest
  have hcount : (readCount bad exceeds).run (appendList write l ++ rest) =
      .ok (l.length, l.flatMap write ++ rest) := by
    rw [appendList, append_assoc]
    refine run_bind_eq_ok.mpr ⟨_, _, Reads.uvarint hlen bad _, ?_⟩
    refine run_bind_eq_ok.mpr ⟨_, _, rfl, ?_⟩
    have hfits : l.length ≤ (l.flatMap write ++ rest).length := by
      rw [length_append]
      exact Nat.le_trans (length_le_flatMap l hne) (Nat.le_add_right _ _)
    exact run_bind_eq_ok.mpr ⟨(), _, Reads.require hfits exceeds _, rfl⟩
  exact run_bind_eq_ok.mpr ⟨_, _, hcount, Reads.many l h rest⟩

theorem Yields.list {P : α → Prop} (h : Yields r P) (bad exceeds : ε) :
    Yields (readList bad exceeds r) fun l => l.length < 2 ^ 64 ∧ ∀ a ∈ l, P a := by
  have hcount : Yields (readCount bad exceeds) (· < 2 ^ 64) :=
    (Yields.uvarint bad).bind fun n hn => Yields.any fun _ => Yields.any fun _ => Yields.pure hn
  refine hcount.bind fun n hn => ?_
  intro bs l rest hl
  obtain ⟨hlen, hall⟩ := h.many n hl
  exact ⟨by omega, hall⟩

/-! ## Readers cut off at a depth

A recursive reader is given a depth.  Readers that agree on short inputs agree on them inside any
format, as long as what is read before only shortens the input. -/

/-- On inputs of up to `n` bytes the readers agree, and leave no more than `n` bytes behind. -/
def AgreeUpTo (n : ℕ) (r s : Reader ε α) : Prop := ∀ ⦃bs⦄, bs.length ≤ n →
  r.run bs = s.run bs ∧ ∀ ⦃a rest⦄, s.run bs = .ok (a, rest) → rest.length ≤ n

namespace AgreeUpTo

theorem pure (a : α) : AgreeUpTo n (Pure.pure a : Reader ε α) (Pure.pure a) := by
  intro bs hbs
  refine ⟨rfl, fun a' rest h => ?_⟩
  cases h
  exact hbs

theorem throw : AgreeUpTo n (throw e : Reader ε α) (throw e) := fun _ _ => ⟨rfl, nofun⟩

theorem get : AgreeUpTo n (MonadState.get : Reader ε Bytes) MonadState.get := by
  intro bs hbs
  refine ⟨rfl, fun a rest h => ?_⟩
  cases h
  exact hbs

theorem bind {β : Type} {f g : α → Reader ε β} (h : AgreeUpTo n r s)
    (hfg : ∀ a, AgreeUpTo n (f a) (g a)) : AgreeUpTo n (r >>= f) (s >>= g) := by
  intro bs hbs
  obtain ⟨hrun, hrest⟩ := h hbs
  rw [StateT.run_bind, StateT.run_bind, hrun]
  cases hs : s.run bs with
  | error e => exact ⟨rfl, nofun⟩
  | ok p => exact hfg p.1 (hrest hs)

theorem map {β : Type} (f : α → β) (h : AgreeUpTo n r s) : AgreeUpTo n (f <$> r) (f <$> s) := by
  rw [map_eq_pure_bind, map_eq_pure_bind]
  exact h.bind fun a => .pure (f a)

theorem many (h : AgreeUpTo n r s) (k : ℕ) : AgreeUpTo n (readMany r k) (readMany s k) := by
  induction k with
  | zero => exact .pure []
  | succ k ih => exact h.bind fun a => ih.bind fun l => .pure (a :: l)

theorem wrapError {r s : Reader String α} {msg : String} (h : AgreeUpTo n r s) :
    AgreeUpTo n (wrapError msg r) (wrapError msg s) := by
  intro bs hbs
  obtain ⟨hrun, hrest⟩ := h hbs
  rw [run_wrapError, run_wrapError, hrun]
  cases hs : s.run bs with
  | error e => exact ⟨rfl, nofun⟩
  | ok p =>
    refine ⟨rfl, fun a rest h => ?_⟩
    cases h
    exact hrest hs

theorem require (c : Prop) [Decidable c] (e : ε) : AgreeUpTo n (require c e) (require c e) := by
  rw [Wire.require]
  split
  · exact .pure ()
  · exact .throw e

theorem uvarint : AgreeUpTo n (readUvarint e) (readUvarint e) := by
  intro bs hbs
  refine ⟨rfl, fun k rest h => ?_⟩
  obtain ⟨front, -, rfl, -⟩ := uvarint_eq_some (readUvarint_eq_ok.mp h)
  rw [length_append] at hbs
  exact Nat.le_trans (Nat.le_add_left _ _) hbs

theorem bytes (k : ℕ) (e : ε) : AgreeUpTo n (readBytes k e) (readBytes k e) := by
  intro bs hbs
  refine ⟨rfl, fun a rest h => ?_⟩
  change (if k ≤ bs.length then _ else _) = _ at h
  split at h
  · cases h
    rw [length_drop]
    exact Nat.le_trans (Nat.sub_le _ _) hbs
  · cases h

end AgreeUpTo

end Fields

end OtelStorage.Wire
