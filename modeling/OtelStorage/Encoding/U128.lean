import OtelStorage.Encoding.Chunk
import Mathlib.Algebra.BigOperators.Ring.Finset
import Mathlib.Algebra.Order.BigOperators.Group.List

/-!
# Columns of 128-bit ids

The sort key of a part (`encoding/chunk/u128.go`): the row count and then, for each stretch of equal
ids, the id and its length.  `encodeU128` finds the stretches in the rows, `encodeU128Runs` in a
list of runs whose counts may be zero or negative and whose neighbours may share an id.

`stretches` are the stretches of the rows and `groups` those of the runs; the two encoders agree
because the groups are the stretches of the expanded column (`groups_eq_stretches`).
-/

namespace OtelStorage.Encoding

open Delimited Wire Bits TokenReader List

/-- An id of 128 bits. -/
structure U128 where
  hi : UInt64
  lo : UInt64
deriving DecidableEq, Repr

/-- An id repeated `count` times. -/
structure U128Run where
  value : U128
  count : ℤ
deriving DecidableEq, Repr

/-! ## Rows -/

/-- Its sixteen bytes. -/
def u128Bytes (v : U128) : Bytes := appendUint64 v.hi ++ appendUint64 v.lo

/-- The values `vals[i]` at which the loop of `EncodeU128` stands, with `j - i`. -/
def stretches : List U128 → List (U128 × ℕ)
  | [] => []
  | v :: vs => (v, (vs.takeWhile (· = v)).length + 1) :: stretches (vs.dropWhile (· = v))
termination_by vals => vals.length
decreasing_by exact Nat.lt_succ_of_le (length_dropWhile_le _ _)

variable (dst : Bytes) (vals : List U128) (runs : List U128Run) (v : U128) {rs : List U128Run}

/-- The column written. -/
def encodeU128 : Bytes :=
  ((stretches vals).foldl (fun w s => (w.appendBytes (u128Bytes s.1)).writeUvarint s.2)
    (writeHeader dst vals.length)).padToByte.stream

/-- An id from its bytes. -/
def u128OfBytes (raw : Bytes) : U128 :=
  ⟨UInt64.ofNat (ofBigEndian (raw.take 8)), UInt64.ofNat (ofBigEndian (raw.drop 8))⟩

/-- The loop of `DecodeU128`, with `left` rows to go. -/
def readU128s (left : ℕ) : BitReader (List U128) :=
  if left = 0 then pure []
  else do
    let raw ← Reader.readBytesView 16
    let runLen ← Reader.readUvarint
    if _h : runLen = 0 ∨ left < runLen then
      throw errUnexpectedEOF
    else
      let rest ← readU128s (left - runLen)
      return replicate runLen (u128OfBytes raw) ++ rest
termination_by left
decreasing_by omega

/-- The column read. -/
def decodeU128 (src : Bytes) (rows : ℤ) : Except String (List U128 × ℕ) := do
  let (rows, consumed) ← readHeaderRows src rows
  let (vals, r) ← (readU128s rows.toNat).run (Reader.newReader (src.drop consumed))
  return (vals, consumed + r.consumedBytes)

/-! ## Runs -/

/-- Addition of `int`. -/
def addInt (a b : ℤ) : ℤ := (a + b).bmod (2 ^ 64)

/-- Whether a run goes on the stretch of `v`: it is empty or of the same value. -/
def U128Run.Joins (v : U128) (r : U128Run) : Prop := r.count ≤ 0 ∨ r.value = v

instance (v : U128) : DecidablePred (U128Run.Joins v) :=
  fun _ => inferInstanceAs (Decidable (_ ∨ _))

/-- The values and counts the loops of `EncodeU128Runs` and `u128RunsSize` go through. -/
def groups : List U128Run → List (U128 × ℤ)
  | [] => []
  | r :: rs =>
    if r.count ≤ 0 then groups rs
    else
      (r.value, (rs.takeWhile (U128Run.Joins r.value)).foldl (fun n q => addInt n (max q.count 0))
        r.count) :: groups (rs.dropWhile (U128Run.Joins r.value))
termination_by runs => runs.length
decreasing_by
  · exact Nat.lt_succ_self _
  · exact Nat.lt_succ_of_le (length_dropWhile_le _ _)

/-- The rows, the number of groups and the first value of `u128RunsSize`. -/
def u128RunsSize : ℤ × ℕ × Option U128 :=
  ((groups runs).foldl (fun rows g => addInt rows g.2) 0, (groups runs).length,
    (groups runs).head?.map Prod.fst)

/-- `uint64(n)`. -/
def uint64OfInt (n : ℤ) : ℕ := (n % 2 ^ 64).toNat

/-- The column written from runs. -/
def encodeU128Runs : Bytes :=
  let (rows, count, first) := u128RunsSize runs
  let dst := dst ++ appendUvarint (uint64OfInt rows)
  if count = 0 then dst
  else if count = 1 then
    dst ++ (first.map u128Bytes).getD [] ++ appendUvarint (uint64OfInt rows)
  else
    (groups runs).foldl (fun dst g => dst ++ u128Bytes g.1 ++ appendUvarint (uint64OfInt g.2)) dst

/-- The column the runs stand for. -/
def expand : List U128 := runs.flatMap fun r => replicate r.count.toNat r.value

/-! ## The bytes -/

/-- A value and how often it repeats. -/
def stretchBytes (s : U128 × ℕ) : Bytes := u128Bytes s.1 ++ appendUvarint s.2

theorem foldl_stretches (bs : Bytes) (l : List (U128 × ℕ)) :
    l.foldl (fun w s => (w.appendBytes (u128Bytes s.1)).writeUvarint s.2) (⟨bs, 0⟩ : Writer) =
      ⟨bs ++ l.flatMap stretchBytes, 0⟩ := by
  induction l generalizing bs with
  | nil => simp
  | cons s l ih =>
    rw [foldl_cons, Writer.appendBytes, Writer.writeUvarint_aligned, ih]
    simp [stretchBytes]

theorem encodeU128_eq :
    encodeU128 dst vals =
      dst ++ appendUvarint vals.length ++ (stretches vals).flatMap stretchBytes := by
  rw [encodeU128, writeHeader, Writer.newWriter, Writer.writeUvarint_aligned, foldl_stretches]
  rfl

@[simp] theorem length_u128Bytes : (u128Bytes v).length = 16 := by
  simp [u128Bytes, appendUint64]

theorem u128OfBytes_u128Bytes : u128OfBytes (u128Bytes v) = v := by
  have hlen (n : UInt64) : (appendUint64 n).length = 8 := length_bigEndian 8 n.toNat
  have hword (n : UInt64) : UInt64.ofNat (ofBigEndian (appendUint64 n)) = n := by
    rw [appendUint64, ofBigEndian_bigEndian n.toNat_lt, UInt64.ofNat_toNat]
  rw [u128OfBytes, u128Bytes, take_left' (hlen _), drop_left' (hlen _), hword, hword]

/-! ## Reading the rows back -/

theorem takeWhile_eq_replicate (vs : List U128) :
    vs.takeWhile (· = v) = replicate (vs.takeWhile (· = v)).length v := by
  rw [eq_replicate_iff]
  exact ⟨rfl, fun u hu => by simpa using mem_takeWhile_imp hu⟩

theorem length_stretches_head (vs : List U128) :
    (v :: vs).length = (vs.takeWhile (· = v)).length + 1 + (vs.dropWhile (· = v)).length := by
  have h :=
    congrArg List.length (takeWhile_append_dropWhile (p := fun u => decide (u = v)) (l := vs))
  rw [length_append] at h
  rw [length_cons]
  omega

theorem takes_readU128s {stream : Bytes} (h : vals.length < 2 ^ 63) :
    Takes (Reader.Tail stream) (readU128s vals.length)
      ((stretches vals).flatMap stretchBytes) vals := by
  fun_induction stretches vals with
  | case1 =>
    rw [length_nil, readU128s, if_pos rfl]
    exact .pure _
  | case2 v vs ih =>
    have hlen := length_stretches_head v vs
    rw [flatMap_cons, stretchBytes, append_assoc, readU128s, if_neg (by simp)]
    have hne : u128Bytes v ≠ [] := ne_nil_of_length_eq_add_one (length_u128Bytes v)
    have hview : Takes (Reader.Tail stream) _ (u128Bytes v) (u128Bytes v) :=
      Reader.takes_readBytesView hne
    rw [length_u128Bytes] at hview
    refine hview.bind ?_
    refine (Reader.takes_tail (Reader.takes_readUvarint (by omega))).bind ?_
    rw [dif_neg (by omega)]
    have hrest : (v :: vs).length - ((vs.takeWhile (· = v)).length + 1) =
        (vs.dropWhile (· = v)).length := by omega
    rw [hrest]
    refine (ih (by omega)).last ?_
    rw [u128OfBytes_u128Bytes, replicate_succ, cons_append, ← takeWhile_eq_replicate,
      takeWhile_append_dropWhile]
    exact .pure _

theorem decodeU128_encoded (suffix : Bytes) (h : vals.length < 2 ^ 63) :
    decodeU128 (encodeU128 [] vals ++ suffix) vals.length =
      .ok (vals, (encodeU128 [] vals).length) := by
  obtain ⟨r, hrun, hconsumed⟩ :=
    Reader.run_newReader (show Takes (Reader.Tail (_ ++ suffix)) _ _ _ from
    takes_readU128s vals h)
  rw [encodeU128_eq, nil_append, append_assoc, decodeU128, readHeaderRows_append h]
  simp only [bind, Except.bind, pure, Except.pure, Int.toNat_natCast, drop_left, hrun]
  rw [hconsumed, length_append]

/-! ## The groups of runs -/

theorem foldl_addInt {α : Type} {f : α → ℤ} (hf : ∀ a, 0 ≤ f a) (l : List α) (n : ℤ) (hn : 0 ≤ n)
    (h : n + (l.map f).sum < 2 ^ 63) :
    l.foldl (fun n a => addInt n (f a)) n = n + (l.map f).sum := by
  induction l generalizing n with
  | nil => simp
  | cons a l ih =>
    have hrest : 0 ≤ (l.map f).sum := sum_nonneg (by simpa using fun a _ => hf a)
    have ha := hf a
    rw [map_cons, sum_cons] at h
    have hadd : addInt n (f a) = n + f a := Int.bmod_eq_of_le (by omega) (by omega)
    rw [foldl_cons, hadd, ih _ (by omega) (by omega), map_cons, sum_cons, add_assoc]

theorem length_expand : ((expand runs).length : ℤ) = (runs.map fun r => max r.count 0).sum := by
  induction runs with
  | nil => rfl
  | cons r rs ih =>
    rw [expand, flatMap_cons, length_append, length_replicate, map_cons, sum_cons, ← ih, expand]
    push_cast
    rw [Int.toNat_eq_max]

theorem sum_stretches : ((stretches vals).map Prod.snd).sum = vals.length := by
  fun_induction stretches vals with
  | case1 => rfl
  | case2 v vs ih => rw [map_cons, sum_cons, ih, ← length_stretches_head]

variable {v}

theorem stretches_replicate_append {rest : List U128} (h : rest.head? ≠ some v) (n : ℕ) :
    stretches (replicate (n + 1) v ++ rest) = (v, n + 1) :: stretches rest := by
  have hrest : rest.takeWhile (· = v) = [] ∧ rest.dropWhile (· = v) = rest := by
    cases rest with
    | nil => simp
    | cons u us => simpa using h
  rw [replicate_succ, cons_append, stretches]
  simp [hrest]

theorem expand_joining (h : ∀ r ∈ rs, r.Joins v) : expand rs = replicate (expand rs).length v := by
  rw [eq_replicate_iff]
  refine ⟨rfl, fun u hu => ?_⟩
  obtain ⟨r, hr, hmem⟩ := mem_flatMap.mp hu
  obtain ⟨hne, rfl⟩ := mem_replicate.mp hmem
  rcases h r hr with hcount | hvalue
  · omega
  · exact hvalue

theorem head_expand_of_not_joins (h : ∀ r ∈ rs.head?, ¬ r.Joins v) :
    (expand rs).head? ≠ some v := by
  cases rs with
  | nil => simp [expand]
  | cons r rs =>
    have hr := h r rfl
    rw [U128Run.Joins, not_or] at hr
    obtain ⟨n, hn⟩ : ∃ n, r.count.toNat = n + 1 := ⟨r.count.toNat - 1, by omega⟩
    simp [expand, hn, replicate_succ, hr.2]

/-- **The groups of a list of runs are the stretches of the expanded column.** -/
theorem groups_eq_stretches (h : (expand runs).length < 2 ^ 63) :
    groups runs = (stretches (expand runs)).map fun s => (s.1, (s.2 : ℤ)) := by
  fun_induction groups runs with
  | case1 => simp [expand, stretches]
  | case2 r rs hcount ih =>
    have hskip : expand (r :: rs) = expand rs := by simp [expand, Int.toNat_of_nonpos hcount]
    rw [hskip] at h ⊢
    exact ih h
  | case3 r rs hcount ih =>
    set joined := rs.takeWhile (U128Run.Joins r.value)
    set later := rs.dropWhile (U128Run.Joins r.value)
    have hjoined : expand joined = replicate (expand joined).length r.value :=
      expand_joining fun q hq => by simpa using mem_takeWhile_imp hq
    have hlater : (expand later).head? ≠ some r.value := by
      refine head_expand_of_not_joins fun q hq => ?_
      have hstop := head?_dropWhile_not (fun q => decide (U128Run.Joins r.value q)) rs
      rw [show rs.dropWhile _ = later from rfl, hq] at hstop
      simpa using hstop
    obtain ⟨n, hn⟩ : ∃ n, r.count.toNat = n + 1 := ⟨r.count.toNat - 1, by omega⟩
    have hexpand : expand (r :: rs) =
        replicate (n + (expand joined).length + 1) r.value ++ expand later := by
      have hsplit : expand rs = expand joined ++ expand later := by
        rw [expand, expand, expand, ← flatMap_append, takeWhile_append_dropWhile]
      rw [expand, flatMap_cons, ← expand, hn, hsplit, ← append_assoc, hjoined, length_replicate,
        replicate_append_replicate]
      congr 2
      omega
    rw [hexpand, length_append, length_replicate] at h
    have hcounts := length_expand joined
    have hsum := foldl_addInt (fun q : U128Run => le_max_right q.count 0) joined r.count
      (by omega) (by rw [← hcounts]; omega)
    rw [hexpand, stretches_replicate_append hlater, map_cons, ih (by omega), hsum, ← hcounts]
    congr 2
    push_cast
    omega

theorem uint64OfInt_natCast {n : ℕ} (h : n < 2 ^ 63) : uint64OfInt n = n := by
  rw [uint64OfInt]
  omega

theorem foldl_groupBytes (l : List (U128 × ℕ)) (bs : Bytes) (h : (l.map Prod.snd).sum < 2 ^ 63) :
    (l.map fun s => (s.1, (s.2 : ℤ))).foldl
        (fun dst g => dst ++ u128Bytes g.1 ++ appendUvarint (uint64OfInt g.2)) bs =
      bs ++ l.flatMap stretchBytes := by
  induction l generalizing bs with
  | nil => simp
  | cons s l ih =>
    rw [map_cons, sum_cons] at h
    rw [map_cons, foldl_cons, ih _ (by omega), uint64OfInt_natCast (by omega)]
    simp [stretchBytes]

theorem encodeU128Runs_eq (h : (expand runs).length < 2 ^ 63) :
    encodeU128Runs dst runs = encodeU128 dst (expand runs) := by
  have hgroups := groups_eq_stretches runs h
  have hsum := sum_stretches (expand runs)
  have hrows : (groups runs).foldl (fun rows g => addInt rows g.2) 0 = (expand runs).length := by
    have hcast : ((stretches (expand runs)).map fun s => (s.2 : ℤ)).sum = (expand runs).length := by
      rw [← hsum, Nat.cast_list_sum, map_map]
      rfl
    rw [hgroups, foldl_map, foldl_addInt (fun s : U128 × ℕ => Int.natCast_nonneg s.2) _ 0 le_rfl
      (by rw [hcast]; omega), hcast, zero_add]
  rw [encodeU128_eq]
  simp only [encodeU128Runs, u128RunsSize, hrows, uint64OfInt_natCast h]
  rw [hgroups]
  match hs : stretches (expand runs) with
  | [] => simp
  | [s] =>
    rw [hs] at hsum
    simp only [map_cons, map_nil, sum_cons, sum_nil, Nat.add_zero] at hsum
    simp [stretchBytes, hsum]
  | s :: t :: l =>
    rw [if_neg (by simp), if_neg (by simp), foldl_groupBytes _ _ (by rw [← hs, hsum]; exact h)]

/-- **Id columns.**  The ids written, whatever bytes follow them, are the ones read, and runs whose
positive counts add up to a slice's length are written as their expanded column. -/
theorem u128_column (vals : List U128) (suffix : Bytes) (hlen : vals.length < 2 ^ 63)
    (runs : List U128Run) (hsum : (runs.map fun r => max r.count 0).sum < 2 ^ 63) (dst : Bytes) :
    decodeU128 (encodeU128 [] vals ++ suffix) vals.length =
      .ok (vals, (encodeU128 [] vals).length) ∧
      encodeU128Runs dst runs = encodeU128 dst (expand runs) := by
  rw [← length_expand] at hsum
  exact ⟨decodeU128_encoded vals suffix hlen, encodeU128Runs_eq dst runs (by omega)⟩

/-- Two ids with an empty run between two runs of the first, and a negative one. -/
theorem u128_column_two_ids :
    decodeU128 (encodeU128 [] [⟨7, 1⟩, ⟨7, 1⟩, ⟨8, 0⟩] ++ [255]) (3 : ℕ) =
        .ok ([⟨7, 1⟩, ⟨7, 1⟩, ⟨8, 0⟩], (encodeU128 [] [⟨7, 1⟩, ⟨7, 1⟩, ⟨8, 0⟩]).length) ∧
      encodeU128Runs [] [⟨⟨7, 1⟩, 1⟩, ⟨⟨9, 9⟩, 0⟩, ⟨⟨7, 1⟩, 1⟩, ⟨⟨9, 9⟩, -4⟩, ⟨⟨8, 0⟩, 1⟩] =
        encodeU128 [] [⟨7, 1⟩, ⟨7, 1⟩, ⟨8, 0⟩] :=
  u128_column [⟨7, 1⟩, ⟨7, 1⟩, ⟨8, 0⟩] [255] (by decide)
    [⟨⟨7, 1⟩, 1⟩, ⟨⟨9, 9⟩, 0⟩, ⟨⟨7, 1⟩, 1⟩, ⟨⟨9, 9⟩, -4⟩, ⟨⟨8, 0⟩, 1⟩] (by decide) []

end OtelStorage.Encoding
