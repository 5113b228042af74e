import OtelStorage.Foundation.Wire

/-!
# Series identities in bytes

A series is identified by its resource, the scope that produced it and its own attributes.  The
identity has one canonical byte form: every byte string is behind its length, every value behind a
tag for its kind, every list behind its count.  The same form is hashed into the series id and
written to the write-ahead log, from which `decodeSeries` reads the identity back.

Values nest, so the decoder recurses into what it reads.  Each level takes at least the byte of its
tag, so a depth above the bytes given is never reached: `decodeValue_depth` says that the depth the
recursion is cut off at does not matter.
-/

namespace OtelStorage.Signal

open Delimited Wire List

/-! ## Identities -/

/-- An attribute value.  Scalars are kept as the 64 bits they are written in. -/
inductive Value
  | empty
  | str (b : Bytes)
  | bool (num : UInt64)
  | int (num : UInt64)
  | double (num : UInt64)
  | bytes (b : Bytes)
  | slice (vs : List Value)
  | map (kvs : List (Bytes × Value))

mutual

/-- Whether two values are the same. -/
def Value.same : Value → Value → Bool
  | .empty, .empty => true
  | .str a, .str b | .bytes a, .bytes b => a = b
  | .bool a, .bool b | .int a, .int b | .double a, .double b => a = b
  | .slice vs, .slice ws => sameValues vs ws
  | .map kvs, .map kws => sameKeyValues kvs kws
  | _, _ => false

/-- Whether two lists of values are the same. -/
def sameValues : List Value → List Value → Bool
  | [], [] => true
  | v :: vs, w :: ws => v.same w && sameValues vs ws
  | _, _ => false

/-- Whether two lists of keys and values are the same. -/
def sameKeyValues : List (Bytes × Value) → List (Bytes × Value) → Bool
  | [], [] => true
  | (key, v) :: kvs, (key', w) :: kws => key = key' && v.same w && sameKeyValues kvs kws
  | _, _ => false

end

mutual

theorem Value.same_iff (v w : Value) : v.same w = true ↔ v = w := by
  cases v <;> cases w <;> simp [Value.same, sameValues_iff, sameKeyValues_iff]

theorem sameValues_iff (vs ws : List Value) : sameValues vs ws = true ↔ vs = ws := by
  cases vs <;> cases ws <;> simp [sameValues, Value.same_iff, sameValues_iff]

theorem sameKeyValues_iff (kvs kws : List (Bytes × Value)) :
    sameKeyValues kvs kws = true ↔ kvs = kws := by
  rcases kvs with _ | ⟨⟨key, v⟩, kvs⟩ <;> rcases kws with _ | ⟨⟨key', w⟩, kws⟩ <;>
    simp [sameKeyValues, Value.same_iff, sameKeyValues_iff]

end

instance : DecidableEq Value := fun v w => decidable_of_iff _ (Value.same_iff v w)

/-- Keys and their values, sorted by key. -/
abbrev Attributes := List (Bytes × Value)

/-- Who sent the data of a series. -/
structure Resource where
  schemaURL : Bytes
  attributes : Attributes

/-- Which instrumentation recorded it. -/
structure Scope where
  name : Bytes
  version : Bytes
  schemaURL : Bytes
  attributes : Attributes

/-- What identifies a series. -/
structure Series where
  resource : Resource
  scope : Scope
  attributes : Attributes

/-- A series id: two words. -/
structure SeriesID where
  hi : UInt64
  lo : UInt64
  deriving DecidableEq, Repr

/-- Both words of an id. -/
def SeriesID.appendBinary (id : SeriesID) : Bytes := appendUint64 id.hi ++ appendUint64 id.lo

/-! ## Writing -/

mutual

/-- A value: a tag, then what its kind holds. -/
def Value.appendHash : Value → Bytes
  | .empty => [0]
  | .str b => 1 :: appendBlob b
  | .bool num => 2 :: appendUint64 num
  | .int num => 3 :: appendUint64 num
  | .double num => 4 :: appendUint64 num
  | .bytes b => 5 :: appendBlob b
  | .slice vs => 6 :: (appendUvarint vs.length ++ appendValues vs)
  | .map kvs => 7 :: (appendUvarint kvs.length ++ appendKeyValues kvs)

/-- Values, one behind another. -/
def appendValues : List Value → Bytes
  | [] => []
  | v :: vs => v.appendHash ++ appendValues vs

/-- Attributes, one behind another. -/
def appendKeyValues : List (Bytes × Value) → Bytes
  | [] => []
  | (key, v) :: kvs => appendBlob key ++ v.appendHash ++ appendKeyValues kvs

end

variable {value : Reader String Value} (kv : Bytes × Value) (depth : ℕ) {a : Attributes}

/-- Attributes behind their count. -/
def Attributes.appendHashInput (a : Attributes) : Bytes :=
  appendUvarint a.length ++ appendKeyValues a

/-- A resource. -/
def Resource.appendHashInput (r : Resource) : Bytes :=
  appendBlob r.schemaURL ++ Attributes.appendHashInput r.attributes

/-- A scope. -/
def Scope.appendHashInput (s : Scope) : Bytes :=
  appendBlob s.name ++ appendBlob s.version ++ appendBlob s.schemaURL ++
    Attributes.appendHashInput s.attributes

/-- The bytes a series is identified by. -/
def Series.appendHashInput (s : Series) : Bytes :=
  s.resource.appendHashInput ++ s.scope.appendHashInput ++ Attributes.appendHashInput s.attributes

theorem appendValues_eq (vs : List Value) : appendValues vs = vs.flatMap Value.appendHash := by
  induction vs with
  | nil => rfl
  | cons v vs ih => rw [appendValues, ih, flatMap_cons]

/-- One attribute. -/
def appendKeyValue : Bytes := appendBlob kv.1 ++ kv.2.appendHash

theorem appendKeyValues_eq (kvs : List (Bytes × Value)) :
    appendKeyValues kvs = kvs.flatMap appendKeyValue := by
  induction kvs with
  | nil => rfl
  | cons kv kvs ih =>
    obtain ⟨key, v⟩ := kv
    rw [appendKeyValues, ih, flatMap_cons, appendKeyValue]

/-! ## Reading -/

/-- An error of the decoder. -/
def malformed (msg : String) : String := msg ++ ": signal: malformed attribute encoding"

/-- A byte string behind its length. -/
def readLenBytes : Reader String Bytes := do
  let n ← readUvarint (malformed "length")
  readBytes n (malformed "length out of range")

/-- The elements of a slice whose tag was read off `src` bytes. -/
def decodeSlice (src : ℕ) (value : Reader String Value) : Reader String (List Value) := do
  let count ← readUvarint (malformed "slice count")
  require (count ≤ src) (malformed ("slice count " ++ toString count ++ " exceeds input"))
  readMany value count

/-- One attribute. -/
def readKeyValue (value : Reader String Value) : Reader String (Bytes × Value) := do
  let key ← wrapError "attribute key" readLenBytes
  let v ← value
  pure (key, v)

/-- The number of attributes that follow. -/
def attributeCount : Reader String ℕ := do
  let src ← get
  let count ← readUvarint (malformed "attribute count")
  require (count ≤ src.length)
    (malformed ("attribute count " ++ toString count ++ " exceeds input"))
  pure count

/-- A counted list of attributes. -/
def appendAttributes (value : Reader String Value) : Reader String Attributes := do
  let count ← attributeCount
  readMany (readKeyValue value) count

/-- The loop of `LookupAttribute`: the first of the attributes still to be read under the key. -/
def lookupFrom (value : Reader String Value) (key : Bytes) : ℕ → Reader String (Option Value)
  | 0 => pure none
  | n + 1 => do
      let kv ← readKeyValue value
      if kv.1 = key then pure (some kv.2) else lookupFrom value key n

/-- The value behind its tag, with `value` for the ones inside it. -/
def decodeKind (src : ℕ) (value : Reader String Value) (kind : ℕ) : Reader String Value :=
  match kind with
  | 0 => pure .empty
  | 1 => Value.str <$> wrapError "value bytes" readLenBytes
  | 2 => Value.bool <$> readUint64 (malformed "scalar")
  | 3 => Value.int <$> readUint64 (malformed "scalar")
  | 4 => Value.double <$> readUint64 (malformed "scalar")
  | 5 => Value.bytes <$> wrapError "value bytes" readLenBytes
  | 6 => Value.slice <$> decodeSlice src value
  | 7 => Value.map <$> appendAttributes value
  | k => throw (malformed ("unknown value kind " ++ toString k))

/-- Values nested up to the given depth. -/
def decodeNested : ℕ → Reader String Value
  | 0 => throw (malformed "value kind")
  | depth + 1 => do
      let src ← get
      let kind ← readByte (malformed "value kind")
      decodeKind src.length (decodeNested depth) kind.val

theorem decodeNested_succ : decodeNested (depth + 1) = (do
    let src ← get
    let kind ← readByte (malformed "value kind")
    decodeKind src.length (decodeNested depth) kind.val) := by
  rw [decodeNested]

theorem run_decodeNested_cons (b : Byte) (bs : Bytes) :
    (decodeNested (depth + 1)).run (b :: bs) =
      (decodeKind (b :: bs).length (decodeNested depth) b.val).run bs := by
  rw [decodeNested_succ, run_bind_of_ok rfl, run_bind_of_ok rfl]

theorem run_decodeNested_nil :
    (decodeNested (depth + 1)).run [] = .error (malformed "value kind") := by
  have hend : (readByte (malformed "value kind")).run [] = .error (malformed "value kind") := rfl
  rw [decodeNested_succ, run_bind_of_ok rfl, run_bind_of_error hend]

/-- A value; no encoding is as deep as it is long. -/
def decodeValue : Reader String Value := do
  let src ← get
  decodeNested (src.length + 1)

theorem run_decodeValue (bs : Bytes) :
    decodeValue.run bs = (decodeNested (bs.length + 1)).run bs := by
  rw [decodeValue, run_bind_of_ok rfl]

/-- A list of attributes. -/
def decodeAttributes : Reader String Attributes := appendAttributes decodeValue

/-- Look a key up in an encoded list. -/
def findAttribute (key : Bytes) : Reader String (Option Value) := do
  let count ← attributeCount
  lookupFrom decodeValue key count

/-- `LookupAttribute`: the value under the key, if one is present, without decoding the others into
a set. -/
def lookupAttribute (src key : Bytes) : Except String (Option Value) :=
  Prod.fst <$> (findAttribute key).run src

/-- `Get`: the value of the first attribute under the key. -/
def Attributes.get (a : Attributes) (key : Bytes) : Option Value := List.lookup key a

/-- A resource. -/
def decodeResource : Reader String Resource := do
  let schemaURL ← wrapError "schema_url" readLenBytes
  let attributes ← decodeAttributes
  pure ⟨schemaURL, attributes⟩

/-- A scope. -/
def decodeScope : Reader String Scope := do
  let name ← wrapError "name" readLenBytes
  let version ← wrapError "version" readLenBytes
  let schemaURL ← wrapError "schema_url" readLenBytes
  let attributes ← decodeAttributes
  pure ⟨name, version, schemaURL, attributes⟩

/-- A series. -/
def decodeSeries : Reader String Series := do
  let resource ← wrapError "resource" decodeResource
  let scope ← wrapError "scope" decodeScope
  let attributes ← wrapError "attributes" decodeAttributes
  pure ⟨resource, scope, attributes⟩

/-! ## The round trip

Every length inside an encoding is at most the length of the encoding, so that one bound is enough
for all of them. -/

theorem Value.appendHash_ne_nil (v : Value) : v.appendHash ≠ [] := by
  cases v <;> exact cons_ne_nil _ _

theorem appendKeyValue_ne_nil : appendKeyValue kv ≠ [] := by
  rw [appendKeyValue, Ne, append_eq_nil_iff]
  exact fun h => appendBlob_ne_nil _ h.1

theorem reads_lenBytes {b : Bytes} (h : b.length < 2 ^ 64) : Reads readLenBytes (appendBlob b) b :=
  (Reads.uvarint h _).bind (Reads.bytes b _)

theorem length_le_appendBlob (b : Bytes) : b.length ≤ (appendBlob b).length := by
  rw [appendBlob, length_append]
  exact Nat.le_add_left _ _

theorem length_le_flatMap_of_mem {α : Type} {write : α → Bytes} {l : List α} {a : α} (h : a ∈ l) :
    (write a).length ≤ (l.flatMap write).length :=
  (sublist_flatten_of_mem (mem_map_of_mem h)).length_le

theorem run_attributeCount (rest : Bytes)
    (hlen : (Attributes.appendHashInput a).length < 2 ^ 64) :
    attributeCount.run (Attributes.appendHashInput a ++ rest) =
      .ok (a.length, a.flatMap appendKeyValue ++ rest) := by
  rw [Attributes.appendHashInput, appendKeyValues_eq] at *
  rw [length_append] at hlen
  have hcount : a.length ≤ (a.flatMap appendKeyValue).length :=
    length_le_flatMap a fun kv _ => appendKeyValue_ne_nil kv
  have hfits : a.length ≤ (appendUvarint a.length ++
      (a.flatMap appendKeyValue ++ rest)).length := by
    simp only [length_append]
    omega
  rw [attributeCount, run_bind_of_ok rfl, append_assoc,
    run_bind_of_ok (Reads.uvarint (by omega) _ _)]
  exact run_bind_of_ok (Reads.require hfits _ _)

variable {kv} {v : Value}

theorem reads_keyValue (hlen : (Attributes.appendHashInput a).length < 2 ^ 64) (hmem : kv ∈ a)
    (hvalue : Reads value kv.2.appendHash kv.2) :
    Reads (readKeyValue value) (appendKeyValue kv) kv := by
  have hkey : kv.1.length < 2 ^ 64 := by
    have hle : (appendKeyValue kv).length ≤ (a.flatMap appendKeyValue).length :=
      length_le_flatMap_of_mem hmem
    have hblob := length_le_appendBlob kv.1
    rw [appendKeyValue, length_append] at hle
    rw [Attributes.appendHashInput, appendKeyValues_eq, length_append] at hlen
    omega
  exact ((reads_lenBytes hkey).wrapError _).bind (hvalue.last (.pure kv))

theorem reads_attributes (hlen : (Attributes.appendHashInput a).length < 2 ^ 64)
    (hvalue : ∀ kv ∈ a, Reads value kv.2.appendHash kv.2) :
    Reads (appendAttributes value) (Attributes.appendHashInput a) a := by
  intro rest
  rw [appendAttributes, run_bind_of_ok (run_attributeCount _ hlen)]
  exact Reads.many a (fun kv hkv => reads_keyValue hlen hkv (hvalue kv hkv)) rest

/-- The search stops at the first attribute under the key. -/
theorem run_lookupFrom (key : Bytes) (rest : Bytes)
    (h : ∀ kv ∈ a, Reads (readKeyValue value) (appendKeyValue kv) kv) :
    ∃ left, (lookupFrom value key a.length).run (a.flatMap appendKeyValue ++ rest) =
      .ok (Attributes.get a key, left) := by
  induction a with
  | nil => exact ⟨rest, rfl⟩
  | cons kv a ih =>
    obtain ⟨hkv, ha⟩ := forall_mem_cons.mp h
    rw [flatMap_cons, append_assoc, length_cons, lookupFrom, run_bind_of_ok (hkv _),
      Attributes.get, lookup_cons]
    by_cases hkey : kv.1 = key
    · rw [if_pos hkey, hkey, beq_self_eq_true]
      exact ⟨_, rfl⟩
    · rw [if_neg hkey, beq_false_of_ne (Ne.symm hkey)]
      exact ih ha

theorem reads_slice {vs : List Value} {src : ℕ}
    (hlen : (appendUvarint vs.length ++ appendValues vs).length < 2 ^ 64)
    (hsrc : (appendUvarint vs.length ++ appendValues vs).length ≤ src)
    (hvalue : ∀ v ∈ vs, Reads value v.appendHash v) :
    Reads (decodeSlice src value) (appendUvarint vs.length ++ appendValues vs) vs := by
  rw [appendValues_eq] at *
  rw [length_append] at hlen hsrc
  have hcount : vs.length ≤ (vs.flatMap Value.appendHash).length :=
    length_le_flatMap vs fun v _ => v.appendHash_ne_nil
  exact (Reads.uvarint (by omega) _).bind ((Reads.require (by omega) _).skip (Reads.many vs hvalue))

theorem reads_tagged {depth : ℕ} {kind : Byte} {tail : Bytes}
    (h : ∀ src, tail.length ≤ src → Reads (decodeKind src (decodeNested depth) kind.val) tail v) :
    Reads (decodeNested (depth + 1)) (kind :: tail) v := by
  intro rest
  rw [cons_append, run_decodeNested_cons]
  refine h _ ?_ rest
  rw [length_cons, length_append]
  omega

/-- **A value reads back** at any depth its encoding does not exceed. -/
theorem reads_nested (v : Value) (hdepth : v.appendHash.length ≤ depth)
    (hlen : v.appendHash.length < 2 ^ 64) : Reads (decodeNested depth) v.appendHash v := by
  induction depth generalizing v with
  | zero =>
    have hnil := eq_nil_of_length_eq_zero (Nat.le_zero.mp hdepth)
    exact absurd hnil v.appendHash_ne_nil
  | succ depth ih =>
    have hblob : ∀ {b : Bytes}, (appendBlob b).length < 2 ^ 64 → b.length < 2 ^ 64 := fun h =>
      Nat.lt_of_le_of_lt (length_le_appendBlob _) h
    cases v with
    | empty => exact reads_tagged fun src _ => .pure Value.empty
    | str b =>
      rw [Value.appendHash, length_cons] at hlen
      exact reads_tagged fun src _ =>
        ((reads_lenBytes (hblob (Nat.lt_of_succ_lt hlen))).wrapError _).map Value.str
    | bytes b =>
      rw [Value.appendHash, length_cons] at hlen
      exact reads_tagged fun src _ =>
        ((reads_lenBytes (hblob (Nat.lt_of_succ_lt hlen))).wrapError _).map Value.bytes
    | bool num => exact reads_tagged fun src _ => (Reads.word num _).map Value.bool
    | int num => exact reads_tagged fun src _ => (Reads.word num _).map Value.int
    | double num => exact reads_tagged fun src _ => (Reads.word num _).map Value.double
    | slice vs =>
      rw [Value.appendHash, length_cons] at hlen hdepth
      refine reads_tagged fun src hsrc =>
        (reads_slice (by omega) hsrc fun v hv => ?_).map Value.slice
      have hle : v.appendHash.length ≤ (appendUvarint vs.length ++ appendValues vs).length := by
        rw [appendValues_eq, length_append]
        exact Nat.le_add_left_of_le (length_le_flatMap_of_mem hv)
      exact ih v (by omega) (by omega)
    | map kvs =>
      rw [Value.appendHash, length_cons] at hlen hdepth
      refine reads_tagged fun src _ => (reads_attributes ?_ fun kv hkv => ?_).map Value.map
      · exact Nat.lt_of_succ_lt hlen
      have hle : kv.2.appendHash.length ≤
          (appendUvarint kvs.length ++ appendKeyValues kvs).length := by
        have hmem : (appendKeyValue kv).length ≤ (kvs.flatMap appendKeyValue).length :=
          length_le_flatMap_of_mem hkv
        rw [appendKeyValue, length_append] at hmem
        rw [appendKeyValues_eq, length_append]
        omega
      exact ih kv.2 (by omega) (by omega)

theorem reads_value (hlen : v.appendHash.length < 2 ^ 64) : Reads decodeValue v.appendHash v := by
  intro rest
  have hdepth : v.appendHash.length ≤ (v.appendHash ++ rest).length + 1 := by
    rw [length_append]
    omega
  rw [run_decodeValue]
  exact reads_nested _ v hdepth hlen rest

theorem reads_attributeValue (hlen : (Attributes.appendHashInput a).length < 2 ^ 64)
    (hkv : kv ∈ a) :
    Reads decodeValue kv.2.appendHash kv.2 := by
  have hmem : (appendKeyValue kv).length ≤ (a.flatMap appendKeyValue).length :=
    length_le_flatMap_of_mem hkv
  rw [appendKeyValue, length_append] at hmem
  rw [Attributes.appendHashInput, appendKeyValues_eq, length_append] at hlen
  exact reads_value (by omega)

theorem reads_decodeAttributes (hlen : (Attributes.appendHashInput a).length < 2 ^ 64) :
    Reads decodeAttributes (Attributes.appendHashInput a) a :=
  reads_attributes hlen fun _ => reads_attributeValue hlen

theorem lookupAttribute_append (suffix key : Bytes)
    (hlen : (Attributes.appendHashInput a).length < 2 ^ 64) :
    lookupAttribute (Attributes.appendHashInput a ++ suffix) key = .ok (Attributes.get a key) := by
  obtain ⟨left, hrun⟩ := run_lookupFrom key suffix fun kv (hkv : kv ∈ a) =>
    reads_keyValue hlen hkv (reads_attributeValue hlen hkv)
  rw [lookupAttribute, findAttribute, run_bind_of_ok (run_attributeCount _ hlen), hrun]
  rfl

/-- **A series identity reads back.** -/
theorem reads_series {s : Series} (hlen : s.appendHashInput.length < 2 ^ 64) :
    Reads decodeSeries s.appendHashInput s := by
  have hresource : s.resource.appendHashInput.length < 2 ^ 64 := by
    rw [Series.appendHashInput, length_append, length_append] at hlen
    omega
  have hscope : s.scope.appendHashInput.length < 2 ^ 64 := by
    rw [Series.appendHashInput, length_append, length_append] at hlen
    omega
  have hattrs : (Attributes.appendHashInput s.attributes).length < 2 ^ 64 := by
    rw [Series.appendHashInput, length_append] at hlen
    omega
  have hres : Reads decodeResource s.resource.appendHashInput s.resource := by
    have hurl := length_le_appendBlob s.resource.schemaURL
    rw [Resource.appendHashInput, length_append] at hresource
    exact ((reads_lenBytes (by omega)).wrapError _).bind
      ((reads_decodeAttributes (by omega)).last (.pure s.resource))
  have hsc : Reads decodeScope s.scope.appendHashInput s.scope := by
    have hname := length_le_appendBlob s.scope.name
    have hversion := length_le_appendBlob s.scope.version
    have hurl := length_le_appendBlob s.scope.schemaURL
    rw [Scope.appendHashInput] at *
    simp only [append_assoc, length_append] at hscope ⊢
    exact ((reads_lenBytes (by omega)).wrapError _).bind <|
      ((reads_lenBytes (by omega)).wrapError _).bind <|
      ((reads_lenBytes (by omega)).wrapError _).bind <|
      (reads_decodeAttributes (by omega)).last (.pure s.scope)
  rw [Series.appendHashInput, append_assoc]
  exact (hres.wrapError _).bind <| (hsc.wrapError _).bind <|
    ((reads_decodeAttributes hattrs).wrapError _).last (.pure s)

/-- **Identities are told apart by their bytes**: a series is read back off the front of any bytes
that start with its encoding, so that two series with one encoding are equal, and a key looked up in
encoded attributes is found as in the decoded ones.  No slice is longer than `2 ^ 63`. -/
theorem series_encoding_faithful :
    (∀ (s : Series) (suffix : Bytes), (s.appendHashInput ++ suffix).length < 2 ^ 63 →
      decodeSeries.run (s.appendHashInput ++ suffix) = .ok (s, suffix)) ∧
    (∀ s s' : Series, s.appendHashInput.length < 2 ^ 63 →
      s.appendHashInput = s'.appendHashInput → s = s') ∧
    ∀ (a : Attributes) (suffix key : Bytes),
      (Attributes.appendHashInput a ++ suffix).length < 2 ^ 63 →
      ∃ b, decodeAttributes.run (Attributes.appendHashInput a ++ suffix) = .ok (b, suffix) ∧
        lookupAttribute (Attributes.appendHashInput a ++ suffix) key =
          .ok (Attributes.get b key) := by
  refine ⟨fun s suffix hlen => ?_, fun s s' hlen heq => ?_, fun a suffix key hlen => ?_⟩
  · rw [length_append] at hlen
    exact reads_series (by omega) suffix
  · have hs := reads_series (s := s) (by omega) []
    have hs' := reads_series (s := s') (by rw [← heq]; omega) []
    rw [← heq, hs] at hs'
    cases hs'
    rfl
  · rw [length_append] at hlen
    exact ⟨a, reads_decodeAttributes (by omega) suffix, lookupAttribute_append _ _ (by omega)⟩

/-- A series with a list and a map inside its attributes, before a byte that is not its own. -/
theorem series_encoding_faithful_nested :
    let s : Series := ⟨⟨[], [([1], .slice [.empty, .int 7])]⟩, ⟨[2], [], [], []⟩,
      [([3], .map [([4], .str [5])])]⟩
    decodeSeries.run (s.appendHashInput ++ [9]) = .ok (s, [9]) :=
  series_encoding_faithful.1 _ _ (by decide +kernel)

/-! ## The depth does not matter -/

theorem agree_kind {n : ℕ} {v w : Reader String Value} (h : AgreeUpTo n v w) (src kind : ℕ) :
    AgreeUpTo n (decodeKind src v kind) (decodeKind src w kind) := by
  have hbytes : AgreeUpTo n readLenBytes readLenBytes :=
    (AgreeUpTo.uvarint _).bind fun k => .bytes k _
  have hkv : AgreeUpTo n (readKeyValue v) (readKeyValue w) :=
    hbytes.wrapError.bind fun _ => h.bind fun _ => .pure _
  unfold decodeKind
  split
  · exact .pure _
  · exact hbytes.wrapError.map _
  · exact ((AgreeUpTo.bytes 8 _).map _).map _
  · exact ((AgreeUpTo.bytes 8 _).map _).map _
  · exact ((AgreeUpTo.bytes 8 _).map _).map _
  · exact hbytes.wrapError.map _
  · refine AgreeUpTo.map _ ?_
    exact (AgreeUpTo.uvarint _).bind fun k => (AgreeUpTo.require _ _).bind fun _ => h.many k
  · refine AgreeUpTo.map _ (AgreeUpTo.bind ?_ fun k => hkv.many k)
    exact AgreeUpTo.get.bind fun _ => (AgreeUpTo.uvarint _).bind fun _ =>
      (AgreeUpTo.require _ _).bind fun _ => .pure _
  · exact .throw _

/-- The tag of a value is a byte that the depth of what is inside it need not pay for. -/
theorem agree_nested {n d e : ℕ} (hd : n < d) (he : n < e) :
    AgreeUpTo n (decodeNested d) (decodeNested e) := by
  induction d generalizing n e with
  | zero => omega
  | succ d ih =>
    obtain ⟨e, rfl⟩ := Nat.exists_eq_succ_of_ne_zero (Nat.ne_zero_of_lt he)
    intro bs hbs
    cases bs with
    | nil =>
      rw [run_decodeNested_nil, run_decodeNested_nil]
      exact ⟨rfl, nofun⟩
    | cons b bs =>
      rw [length_cons] at hbs
      rw [run_decodeNested_cons, run_decodeNested_cons]
      have hkind := agree_kind (ih (n := bs.length) (e := e) (by omega) (by omega))
      obtain ⟨hrun, hrest⟩ := hkind (b :: bs).length b.val (Nat.le_refl _)
      exact ⟨hrun, fun a rest h => by have := hrest h; omega⟩

/-- **The depth is no limit**: every depth above the bytes given decodes them alike. -/
theorem decodeValue_depth {bs : Bytes} {depth : ℕ} (h : bs.length < depth) :
    decodeValue.run bs = (decodeNested depth).run bs := by
  rw [run_decodeValue]
  exact (agree_nested (Nat.lt_succ_self _) h (Nat.le_refl _)).1

end OtelStorage.Signal
