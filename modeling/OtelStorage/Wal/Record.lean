import OtelStorage.Signal.Codec
import OtelStorage.Wal.Frame

/-!
# Records

Five kinds of records are logged: the registration of a series, a run of its samples with or without
scale factors, a stream's payload, and a side payload that belongs to no series.  `dispatch` decodes
the payload of a frame by the frame's type and hands the record to the handler for it.  A handler is
a step on a state that may fail; a kind with no handler is skipped, and samples with scale factors
fall back to the handler without them.

The result of this file is `dispatch_payload`: dispatching the payload written for a record is the
same as delivering the record.
-/

namespace OtelStorage.Wal

open Delimited Wire Signal List

/-! ## Payloads -/

/-- A record.  Values and scale factors are the 64 bits of a float. -/
inductive Record
  | series (id : SeriesID) (s : Series)
  | samples (id : SeriesID) (ts : List Int64) (values : List UInt64)
  | samplesSF (id : SeriesID) (ts : List Int64) (values sf : List UInt64)
  | records (id : SeriesID) (blob : Bytes)
  | side (blob : Bytes)

/-- The type of a series record. -/
def recordSeries : Byte := 1

/-- Of samples. -/
def recordSamples : Byte := 2

/-- Of opaque records. -/
def recordRecords : Byte := 3

/-- Of a side payload. -/
def recordSide : Byte := 4

/-- Of samples with scale factors. -/
def recordSamplesSF : Byte := 5

/-- A timestamp and a value. -/
def appendSample (p : Int64 × UInt64) : Bytes := appendVarint p.1 ++ appendUint64 p.2

variable (p : Int64 × UInt64 × UInt64) (ts : List Int64) (values : List UInt64)

/-- A timestamp, a value and a scale factor. -/
def appendSampleSF : Bytes :=
  appendVarint p.1 ++ appendUint64 p.2.1 ++ appendUint64 p.2.2

/-- Samples behind their count. -/
def appendSamples : Bytes :=
  appendUvarint ts.length ++ (ts.zip values).flatMap appendSample

/-- The same with scale factors. -/
def appendSamplesSF (sf : List UInt64) : Bytes :=
  appendUvarint ts.length ++ (ts.zip (values.zip sf)).flatMap appendSampleSF

/-- The type of a record. -/
def Record.typ : Record → Byte
  | .series _ _ => recordSeries
  | .samples _ _ _ => recordSamples
  | .samplesSF _ _ _ _ => recordSamplesSF
  | .records _ _ => recordRecords
  | .side _ => recordSide

/-- Its payload. -/
def Record.payload : Record → Bytes
  | .series id s => id.appendBinary ++ s.appendHashInput
  | .samples id ts values => id.appendBinary ++ appendSamples ts values
  | .samplesSF id ts values sf => id.appendBinary ++ appendSamplesSF ts values sf
  | .records id blob => id.appendBinary ++ blob
  | .side blob => blob

/-- The frame the writer appends for the record. -/
def Record.frame (crc : Bytes → UInt32) (r : Record) : Bytes := appendFrame crc r.typ r.payload

/-- What the writer may be given: slices of samples of one length, and a record whose length fits
the word it is written in, as that of every slice does. -/
structure Record.Written (r : Record) : Prop where
  fits : 1 + r.payload.length < 2 ^ 64
  samples : ∀ id ts values, r = .samples id ts values → values.length = ts.length
  samplesSF : ∀ id ts values sf, r = .samplesSF id ts values sf →
    values.length = ts.length ∧ sf.length = ts.length

/-! ## Parsing -/

/-- An error of the decoder. -/
def corrupt (msg : String) : String := msg ++ ": wal: corrupt record"

/-- A series id. -/
def readSeriesID (e : String) : Reader String SeriesID := do
  let hi ← readUint64 e
  let lo ← readUint64 e
  pure ⟨hi, lo⟩

/-- A series and its id. -/
def readSeries : Reader String (SeriesID × Series) := do
  let id ← readSeriesID (corrupt "series record too short")
  let s ← wrapError "series identity" decodeSeries
  pure (id, s)

/-- The samples of a record, as many as the count announces; a count above the bytes left is an
error. -/
def readSamples {α : Type} (sample : Reader String α) : Reader String (SeriesID × List α) := do
  let id ← readSeriesID (corrupt "samples record too short")
  let rest ← get
  let n ← readUvarint (corrupt "sample count")
  require (n ≤ rest.length) (corrupt "sample count")
  let l ← readMany sample n
  pure (id, l)

/-- One sample. -/
def readSample : Reader String (Int64 × UInt64) := do
  let t ← readVarint (corrupt "sample timestamp")
  let v ← readUint64 (corrupt "sample value")
  pure (t, v)

/-- One sample with its scale factor. -/
def readSampleSF : Reader String (Int64 × UInt64 × UInt64) := do
  let t ← readVarint (corrupt "sample timestamp")
  let v ← readUint64 (corrupt "sample value/sf")
  let w ← readUint64 (corrupt "sample value/sf")
  pure (t, v, w)

/-- An id, and the rest. -/
def readRecords : Reader String (SeriesID × Bytes) := do
  let id ← readSeriesID (corrupt "records frame too short")
  let blob ← get
  pure (id, blob)

/-- What a reader makes of a payload; bytes left over are not looked at. -/
def parse {α : Type} (r : Reader String α) (payload : Bytes) : Except String α :=
  Prod.fst <$> r.run payload

/-! ## Dispatch -/

section Dispatch

variable {ts} {σ E : Type} {id : SeriesID} {sf : List UInt64}

/-- The handlers of a replay. -/
structure Handlers (σ E : Type) where
  onSeries : Option (SeriesID → Series → σ → Except E σ)
  onSamples : Option (SeriesID → List Int64 → List UInt64 → σ → Except E σ)
  onSamplesSF : Option (SeriesID → List Int64 → List UInt64 → List UInt64 → σ → Except E σ)
  onRecords : Option (SeriesID → Bytes → σ → Except E σ)
  onSide : Option (Bytes → σ → Except E σ)

/-- Why a frame was not handled: its payload does not decode, or the handler failed. -/
inductive DispatchError (E : Type)
  | decode (msg : String)
  | handler (e : E)
  deriving DecidableEq

/-- Parse the payload and hand on what was parsed. -/
def handle {α : Type} (parsed : Except String α) (f : α → σ → Except E σ) (s : σ) :
    Except (DispatchError E) σ :=
  match parsed with
  | .error msg => .error (.decode msg)
  | .ok a => (f a s).mapError .handler

/-- Hand a payload to the handler of its type, if there is one. -/
def dispatch (typ : Byte) (payload : Bytes) (h : Handlers σ E) (s : σ) :
    Except (DispatchError E) σ :=
  if typ = recordSeries then
    match h.onSeries with
    | none => .ok s
    | some f => handle (parse readSeries payload) (fun p => f p.1 p.2) s
  else if typ = recordSamples then
    match h.onSamples with
    | none => .ok s
    | some f => handle (parse (readSamples readSample) payload)
        (fun p => f p.1 (p.2.map Prod.fst) (p.2.map Prod.snd)) s
  else if typ = recordSamplesSF then
    -- The payload is decoded even when no handler is set.
    handle (parse (readSamples readSampleSF) payload) (fun p s =>
      match h.onSamplesSF, h.onSamples with
      | some f, _ => f p.1 (p.2.map Prod.fst) (p.2.map fun t => t.2.1) (p.2.map fun t => t.2.2) s
      | none, some f => f p.1 (p.2.map Prod.fst) (p.2.map fun t => t.2.1) s
      | none, none => .ok s) s
  else if typ = recordRecords then
    match h.onRecords with
    | none => .ok s
    | some f => handle (parse readRecords payload) (fun p => f p.1 p.2) s
  else if typ = recordSide then
    match h.onSide with
    | none => .ok s
    | some f => (f payload s).mapError .handler
  else .ok s

/-- Hand a record to the handler for its kind. -/
def deliver (h : Handlers σ E) (r : Record) (s : σ) : Except E σ :=
  match r with
  | .series id ser => match h.onSeries with
      | none => .ok s
      | some f => f id ser s
  | .samples id ts values => match h.onSamples with
      | none => .ok s
      | some f => f id ts values s
  | .samplesSF id ts values sf => match h.onSamplesSF, h.onSamples with
      | some f, _ => f id ts values sf s
      | none, some f => f id ts values s
      | none, none => .ok s
  | .records id blob => match h.onRecords with
      | none => .ok s
      | some f => f id blob s
  | .side blob => match h.onSide with
      | none => .ok s
      | some f => f blob s

/-! ## What was written is parsed back -/

theorem reads_seriesID (id : SeriesID) (e : String) : Reads (readSeriesID e) id.appendBinary id :=
  (Reads.word id.hi e).bind ((Reads.word id.lo e).last (Reads.pure id))

theorem parse_of_reads {α : Type} {r : Reader String α} {payload : Bytes} {a : α}
    (h : Reads r payload a) : parse r payload = .ok a := by
  have hrun := h []
  rw [append_nil] at hrun
  rw [parse, hrun]
  rfl

theorem parse_series {s : Series} (h : (Record.series id s).payload.length < 2 ^ 64) :
    parse readSeries (Record.series id s).payload = .ok (id, s) := by
  rw [Record.payload, length_append] at h
  exact parse_of_reads <| (reads_seriesID id _).bind <|
    ((reads_series (by omega)).wrapError _).last (.pure (id, s))

theorem parse_samples {α : Type} {sample : Reader String α} {write : α → Bytes} {l : List α}
    (h : (appendList write l).length < 2 ^ 64) (hne : ∀ a ∈ l, write a ≠ [])
    (hread : ∀ a ∈ l, Reads sample (write a) a) :
    parse (readSamples sample) (id.appendBinary ++ appendList write l) = .ok (id, l) := by
  rw [appendList, length_append] at h
  have hcount := length_le_flatMap l hne
  refine parse_of_reads ((reads_seriesID id _).bind fun rest => ?_)
  refine run_bind_eq_ok.mpr ⟨_, _, rfl, ?_⟩
  rw [appendList, append_assoc]
  refine run_bind_eq_ok.mpr ⟨_, _, Reads.uvarint (by omega) _ _, ?_⟩
  refine run_bind_eq_ok.mpr ⟨_, _, Reads.require ?_ _ _, ?_⟩
  · rw [length_append, length_append]
    omega
  · exact run_bind_eq_ok.mpr ⟨_, _, Reads.many l hread rest, rfl⟩

theorem reads_sample (p : Int64 × UInt64) : Reads readSample (appendSample p) p :=
  (Reads.varint p.1 _).bind ((Reads.word p.2 _).last (Reads.pure p))

theorem reads_sampleSF : Reads readSampleSF (appendSampleSF p) p := by
  rw [appendSampleSF, append_assoc]
  exact (Reads.varint p.1 _).bind <| (Reads.word p.2.1 _).bind <|
    (Reads.word p.2.2 _).last (Reads.pure p)

theorem parse_records (id : SeriesID) (blob : Bytes) :
    parse readRecords (id.appendBinary ++ blob) = .ok (id, blob) := by
  have hrun : readRecords.run (id.appendBinary ++ blob) = .ok ((id, blob), blob) :=
    run_bind_eq_ok.mpr ⟨id, blob, reads_seriesID id _ blob, rfl⟩
  rw [parse, hrun]
  rfl

variable {values}

theorem appendSamples_eq (h : values.length = ts.length) :
    appendSamples ts values = appendList appendSample (ts.zip values) := by
  rw [appendSamples, appendList, length_zip, h, Nat.min_self]

theorem appendSamplesSF_eq (h : values.length = ts.length) (hsf : sf.length = ts.length) :
    appendSamplesSF ts values sf = appendList appendSampleSF (ts.zip (values.zip sf)) := by
  rw [appendSamplesSF, appendList, length_zip, length_zip, h, hsf, Nat.min_self, Nat.min_self]

theorem parse_samples_payload (hlen : values.length = ts.length)
    (hfits : (Record.samples id ts values).payload.length < 2 ^ 64) :
    parse (readSamples readSample) (Record.samples id ts values).payload =
      .ok (id, ts.zip values) := by
  rw [Record.payload, appendSamples_eq hlen] at *
  rw [length_append] at hfits
  refine parse_samples (by omega) (fun p _ hnil => ?_) fun p _ => reads_sample p
  rw [appendSample, append_eq_nil_iff] at hnil
  exact appendUvarint_ne_nil _ hnil.1

theorem parse_samplesSF_payload (hlen : values.length = ts.length) (hsf : sf.length = ts.length)
    (hfits : (Record.samplesSF id ts values sf).payload.length < 2 ^ 64) :
    parse (readSamples readSampleSF) (Record.samplesSF id ts values sf).payload =
      .ok (id, ts.zip (values.zip sf)) := by
  rw [Record.payload, appendSamplesSF_eq hlen hsf] at *
  rw [length_append] at hfits
  refine parse_samples (by omega) (fun p _ hnil => ?_) fun p _ => reads_sampleSF p
  rw [appendSampleSF, append_assoc, append_eq_nil_iff] at hnil
  exact appendUvarint_ne_nil _ hnil.1

/-- **Dispatching what was written for a record delivers the record.** -/
theorem dispatch_payload {r : Record} (hr : r.Written) (h : Handlers σ E) (s : σ) :
    dispatch r.typ r.payload h s = (deliver h r s).mapError .handler := by
  have hfits : r.payload.length < 2 ^ 64 := Nat.lt_of_le_of_lt (Nat.le_add_left _ 1) hr.fits
  cases r with
  | series id ser =>
    rw [Record.typ, dispatch, if_pos rfl, parse_series hfits, deliver]
    cases h.onSeries with
    | none | some f => rfl
  | samples id ts values =>
    have hlen := hr.samples id ts values rfl
    have hts : (ts.zip values).map Prod.fst = ts := map_fst_zip (Nat.le_of_eq hlen.symm)
    have hvs : (ts.zip values).map Prod.snd = values := map_snd_zip (Nat.le_of_eq hlen)
    rw [Record.typ, dispatch, if_neg (by decide), if_pos rfl,
      parse_samples_payload hlen hfits, deliver]
    cases h.onSamples with
    | none => rfl
    | some f =>
      dsimp only [handle]
      rw [hts, hvs]
  | samplesSF id ts values sf =>
    obtain ⟨hlen, hsf⟩ := hr.samplesSF id ts values sf rfl
    have hzip : (values.zip sf).length = ts.length := by
      rw [length_zip, hlen, hsf, Nat.min_self]
    have hts : (ts.zip (values.zip sf)).map Prod.fst = ts :=
      map_fst_zip (Nat.le_of_eq hzip.symm)
    have hpairs : (ts.zip (values.zip sf)).map Prod.snd = values.zip sf :=
      map_snd_zip (Nat.le_of_eq hzip)
    have hvs : (ts.zip (values.zip sf)).map (fun t => t.2.1) = values := by
      have hmap : ((ts.zip (values.zip sf)).map Prod.snd).map Prod.fst = values := by
        rw [hpairs, map_fst_zip (by omega)]
      rwa [map_map] at hmap
    have hws : (ts.zip (values.zip sf)).map (fun t => t.2.2) = sf := by
      have hmap : ((ts.zip (values.zip sf)).map Prod.snd).map Prod.snd = sf := by
        rw [hpairs, map_snd_zip (by omega)]
      rwa [map_map] at hmap
    rw [Record.typ, dispatch, if_neg (by decide), if_neg (by decide), if_pos rfl,
      parse_samplesSF_payload hlen hsf hfits, deliver]
    dsimp only [handle]
    rw [hts, hvs, hws]
  | records id blob =>
    rw [Record.typ, dispatch, if_neg (by decide), if_neg (by decide), if_neg (by decide),
      if_pos rfl,
      Record.payload, parse_records, deliver]
    cases h.onRecords with
    | none | some f => rfl
  | side blob =>
    rw [Record.typ, dispatch, if_neg (by decide), if_neg (by decide), if_neg (by decide),
      if_neg (by decide), if_pos rfl, Record.payload, deliver]
    cases h.onSide with
    | none | some f => rfl

end Dispatch

end OtelStorage.Wal
