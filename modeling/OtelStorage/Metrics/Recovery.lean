import OtelStorage.Wal.Segments

/-!
# Flushing, reloading and restarting a durable engine

An engine logs every write before it acknowledges it, keeps the rows in its head, and now and then
flushes the head to parts that an index object names.  A flush seals the log as it detaches the
head, writes the parts while appends go on, commits the parts together with a *watermark*, and then
drops the sealed segments.  A restart loads the index and replays the segments above the watermark.

The state keeps two multisets nothing in the engine reads: the rows acknowledged so far, and the
rows that reached the log of a write that was not acknowledged.  Restarting is exact when it finds
each acknowledged row once, and nothing beyond those and the unacknowledged ones.
-/

namespace OtelStorage.Recovery

open Wal List

variable {R : Type*}

/-- A flushed part.  It is `pending` until a commit that names it is confirmed. -/
structure Part (R : Type*) where
  pref : String
  rows : List R
  pending : Bool
  deriving DecidableEq, Repr

/-- The index object: the parts it names and the writer's watermark. -/
structure Index (R : Type*) where
  parts : List (Part R)
  watermark : ℕ
  deriving DecidableEq, Repr

/-- How far the flush in hand has come. -/
inductive Flush (R : Type*)
  | idle
  /-- The head is detached and the log sealed through `seq`; the parts are being written. -/
  | writing (detached : List R) (epoch seq : ℕ)
  /-- The index naming `next` was sent; `confirmed` says whether the store answered it landed. -/
  | saving (epoch seq : ℕ) (next : List (Part R)) (confirmed : Bool)
  /-- The parts are installed; the sealed segments have yet to be dropped. -/
  | published (seq : ℕ)
  deriving DecidableEq, Repr

/-- An engine, its head and its log. -/
structure Engine (R : Type*) where
  parts : List (Part R)
  flushedEpoch : ℕ
  head : List R
  flush : Flush R
  /-- The last index load failed, so no commit is made. -/
  fenced : Bool
  wal : SegmentWriter R
  deriving DecidableEq, Repr

/-- The index names a part. -/
def Index.names (ix : Index R) (pref : String) : Bool := ix.parts.any (·.pref = pref)

/-- The commit gave the part its place in the index. -/
def Part.commit (p : Part R) : Part R := { p with pending := false }

/-- The rows of some parts. -/
def rowsOf (parts : List (Part R)) : Multiset R := (parts.flatMap Part.rows : List R)

namespace Engine

variable (e : Engine R)

/-- Detached buffers are still readable, and not yet published. -/
def flushing : Bool :=
  match e.flush with
  | .writing .. => true
  | .saving .. => true
  | _ => false

/-- The catalog may be read and replaced: no commit and no checkpoint is under way. -/
def catalogFree : Bool :=
  match e.flush with
  | .idle => true
  | .writing .. => true
  | _ => false

/-- Appends are admitted: all but a checkpoint lets them through. -/
def admitsWriters : Bool :=
  match e.flush with
  | .published _ => false
  | _ => true

/-- The plan phase of a flush.  A seal that fails puts the detached head back. -/
def beginFlush (fault : Option SealFault) (e : Engine R) : Engine R :=
  let epoch := max (e.flushedEpoch + 1) e.wal.epoch
  match e.wal.sealThrough fault (epoch + 1) with
  | (none, wal) => { e with wal := wal }
  | (some seq, wal) => { e with head := [], flush := .writing e.head epoch seq, wal := wal }

/-- The detached rows go back in front of those appended since. -/
def abortFlush : Engine R :=
  match e.flush with
  | .writing detached _ _ => { e with head := detached ++ e.head, flush := .idle }
  | _ => e

/-- The flush takes its parts and its epoch whether or not the commit was confirmed; only a
confirmed commit goes on to the checkpoint. -/
def install : Engine R :=
  match e.flush with
  | .saving epoch seq next confirmed =>
    { e with
      parts := if confirmed then next.map Part.commit else next
      flushedEpoch := epoch
      flush := if confirmed then .published seq else .idle }
  | _ => e

/-- Drop the sealed segments. -/
def checkpoint (fault : Option CheckpointFault) (e : Engine R) : Engine R :=
  match e.flush with
  | .published seq => { e with wal := e.wal.checkpointThrough fault seq, flush := .idle }
  | _ => e

/-- The parts of `e` a load of `ix` keeps although the index does not name them: flushed parts whose
commit was not confirmed. -/
def carried (ix : Index R) (e : Engine R) : List (Part R) :=
  e.parts.filter fun p => p.pending && !ix.names p.pref

/-- Adopting the index `ix`.  The watermark does not fall below a carried part, and the log goes on
at the epoch past it; a flush in hand keeps the epoch its seal set. -/
def loadParts (ix : Index R) (e : Engine R) : Engine R :=
  let carried := e.carried ix
  let flushed := if carried = [] then ix.watermark else max ix.watermark e.flushedEpoch
  let epoch := flushed + 1
  let epoch := if e.flushing then max epoch e.wal.epoch else epoch
  { e with
    parts := ix.parts.map Part.commit ++ carried
    flushedEpoch := flushed
    fenced := false
    wal := e.wal.setEpoch epoch }

/-- Replaying the log appends what it holds above the watermark. -/
def replay : Engine R :=
  { e with head := e.head ++ replayDirFrom e.flushedEpoch e.wal.segments }

/-- A new engine over the segments a prior run left. -/
def new (maxBytes : ℕ) (segs : List (Segment R)) : Engine R where
  parts := []
  flushedEpoch := 0
  head := []
  flush := .idle
  fenced := false
  wal := (SegmentWriter.create maxBytes segs).setEpoch 1

/-- `LoadParts`, then `Replay`, over what survived. -/
def restart (maxBytes : ℕ) (ix : Index R) (segs : List (Segment R)) : Engine R :=
  ((new maxBytes segs).loadParts ix).replay

/-- The rows of the engine's parts and of its head. -/
def held : Multiset R := rowsOf e.parts + (e.head : Multiset R)

end Engine

/-- The index, the engine, and the rows acknowledged or only logged. -/
structure State (R : Type*) where
  index : Index R
  engine : Engine R
  acked : Multiset R
  stray : Multiset R

namespace State

/-- A new engine over nothing. -/
def init (maxBytes : ℕ) : State R where
  index := ⟨[], 0⟩
  engine := Engine.restart maxBytes ⟨[], 0⟩ []
  acked := 0
  stray := 0

/-- A durable write: logged first, applied to the head only once the log took it. -/
def append (fault : Option WriteFault) (rows : List R) (bytes : ℕ) (s : State R) : State R :=
  match s.engine.wal.writeFrames fault rows bytes with
  | (.refused, wal) => { s with engine := { s.engine with wal := wal } }
  | (.unacknowledged, wal) =>
    { s with engine := { s.engine with wal := wal }, stray := s.stray + rows }
  | (.acknowledged, wal) =>
    { s with
      engine := { s.engine with wal := wal, head := s.engine.head ++ rows }
      acked := s.acked + rows }

/-- The index commit of a flush that wrote `new`: it `landed` or not, and was `confirmed` or not. -/
def save (new : List (Part R)) (landed confirmed : Bool) (s : State R) : State R :=
  match s.engine.flush with
  | .writing _ epoch seq =>
    let next := s.engine.parts ++ new
    let epoch := max epoch s.engine.flushedEpoch
    { s with
      index := if landed then ⟨next.map Part.commit, epoch⟩ else s.index
      engine := { s.engine with flush := .saving epoch seq next confirmed } }
  | _ => s

/-- What a crash here and a restart give. -/
def recovered (s : State R) : Engine R :=
  Engine.restart s.engine.wal.maxBytes s.index s.engine.wal.segments

end State

/-- What a history may do beyond the engine's own rules: which commits land, by the epoch and the
sealed number they carry, and which loads are made, by the engine they leave. -/
structure Rules (R : Type*) where
  save : State R → ℕ → ℕ → Prop
  load : Engine R → Prop

/-- Every history. -/
def anyHistory : Rules R := ⟨fun _ _ _ => True, fun _ => True⟩

/-- The parts written by the flush in hand: they hold the detached rows, under new names. -/
structure Written (s : State R) (detached : List R) (new : List (Part R)) : Prop where
  rows : (new.flatMap Part.rows).Perm detached
  pending : ∀ p ∈ new, p.pending = true
  fresh : ∀ p ∈ new, s.index.names p.pref = false

/-- One step of a history. -/
inductive Step (L : Rules R) (s : State R) : State R → Prop
  | append (fault : Option WriteFault) (rows : List R) (bytes : ℕ)
      (hflush : s.engine.admitsWriters = true) : Step L s (s.append fault rows bytes)
  | begin (fault : Option SealFault) (hflush : s.engine.flush = .idle) (hhead : s.engine.head ≠ [])
      (hfence : s.engine.fenced = false) : Step L s { s with engine := s.engine.beginFlush fault }
  /-- The parts could not be written, or a load fenced the engine meanwhile. -/
  | abort {detached : List R} {epoch seq : ℕ}
      (hflush : s.engine.flush = .writing detached epoch seq) :
      Step L s { s with engine := s.engine.abortFlush }
  | save {detached : List R} {epoch seq : ℕ} {new : List (Part R)} {landed confirmed : Bool}
      (hflush : s.engine.flush = .writing detached epoch seq) (hfence : s.engine.fenced = false)
      (hnew : Written s detached new) (hconfirmed : confirmed = true → landed = true)
      (hrule : landed = true → L.save s (max epoch s.engine.flushedEpoch) seq) :
      Step L s (s.save new landed confirmed)
  | install {epoch seq : ℕ} {next : List (Part R)} {confirmed : Bool}
      (hflush : s.engine.flush = .saving epoch seq next confirmed) :
      Step L s { s with engine := s.engine.install }
  | checkpoint (fault : Option CheckpointFault) {seq : ℕ}
      (hflush : s.engine.flush = .published seq) :
      Step L s { s with engine := s.engine.checkpoint fault }
  | loadFailed (hfree : s.engine.catalogFree = true) :
      Step L s { s with engine := { s.engine with fenced := true } }
  | load (hfree : s.engine.catalogFree = true) (hrule : L.load (s.engine.loadParts s.index)) :
      Step L s { s with engine := s.engine.loadParts s.index }
  | restart (hrule : L.load s.recovered) : Step L s { s with engine := s.recovered }

/-- The states of the histories a rule admits. -/
inductive Reachable (L : Rules R) (maxBytes : ℕ) : State R → Prop
  | init : Reachable L maxBytes (State.init maxBytes)
  | step {s s' : State R} : Reachable L maxBytes s → Step L s s' → Reachable L maxBytes s'

/-! ## What the flush in hand will leave -/

namespace Engine

variable (e : Engine R)

/-- The parts once the flush in hand is installed, if its index was sent. -/
def nextParts : List (Part R) :=
  match e.flush with
  | .saving _ _ next _ => next
  | _ => e.parts

/-- The epoch once it is installed. -/
def nextEpoch : ℕ :=
  match e.flush with
  | .saving epoch _ _ _ => epoch
  | _ => e.flushedEpoch

/-- The rows it has detached. -/
def detached : List R :=
  match e.flush with
  | .writing detached _ _ => detached
  | _ => []

/-- The first segment number past the seal of the flush in hand. -/
def floorSeq : ℕ :=
  match e.flush with
  | .idle => 0
  | .writing _ _ seq => seq + 1
  | .saving _ seq _ _ => seq + 1
  | .published seq => seq + 1

/-- The epoch the flush in hand commits or has committed. -/
def floorEpoch : ℕ :=
  match e.flush with
  | .writing _ epoch _ => epoch
  | .saving epoch _ _ _ => epoch
  | _ => e.flushedEpoch

end Engine

variable {s : State R} {ix : Index R} {e : Engine R} {w : SegmentWriter R} {detached : List R}
  {epoch seq : ℕ} {new : List (Part R)} (l : List (Part R)) (maxBytes : ℕ) {confirmed : Bool}
  {L : Rules R}

/-- The index names parts the engine holds, and the engine holds beyond them only pending ones. -/
structure Accounts (ix : Index R) (parts : List (Part R)) : Prop where
  named : rowsOf (parts.filter fun p => ix.names p.pref) = rowsOf ix.parts
  unnamed : ∀ p ∈ parts, ix.names p.pref = false → p.pending = true

/-- **The invariant of every history.**  The segments past the seal are the head's, and whatever is
acknowledged is found both on disk and in memory. -/
structure Safe (s : State R) : Prop where
  wal : s.engine.wal.WellFormed
  accounts : Accounts s.index s.engine.nextParts
  watermark_le : s.index.watermark ≤ s.engine.nextEpoch
  next_le : s.engine.nextEpoch ≤ s.engine.floorEpoch
  epoch_lt : s.engine.floorEpoch < s.engine.wal.epoch
  seq_le : s.engine.floorSeq ≤ s.engine.wal.seq + 1
  target : ∀ n, s.engine.wal.Target n → s.engine.floorSeq ≤ n.seq ∧ s.engine.floorEpoch < n.epoch
  head_le : (s.engine.head : Multiset R) ≤ logged
    (fun n => s.engine.floorSeq ≤ n.seq ∧ s.engine.floorEpoch < n.epoch) s.engine.wal.segments
  redo : (s.engine.detached : Multiset R) + (s.engine.head : Multiset R) ≤
    logged (fun n => s.engine.nextEpoch < n.epoch) s.engine.wal.segments
  confirmed : ∀ epoch seq next, s.engine.flush = .saving epoch seq next true →
    s.index = ⟨next.map Part.commit, epoch⟩
  published : ∀ seq, s.engine.flush = .published seq →
    rowsOf s.index.parts = rowsOf s.engine.parts ∧ s.index.watermark = s.engine.flushedEpoch
  acked_disk : s.acked ≤ rowsOf s.index.parts +
    logged (fun n => s.index.watermark < n.epoch) s.engine.wal.segments
  acked_mem : s.acked ≤ rowsOf s.engine.nextParts + (s.engine.detached : Multiset R) +
    (s.engine.head : Multiset R)

/-! ## Small facts -/

theorem rowsOf_append (l m : List (Part R)) : rowsOf (l ++ m) = rowsOf l + rowsOf m := by
  simp [rowsOf]

theorem Written.rowsOf_append (h : Written s detached new) (parts : List (Part R)) :
    rowsOf (parts ++ new) = rowsOf parts + (detached : Multiset R) := by
  rw [Recovery.rowsOf_append]
  exact congrArg _ (Multiset.coe_eq_coe.mpr h.rows)

@[simp] theorem rowsOf_map_commit : rowsOf (l.map Part.commit) = rowsOf l := by
  simp [rowsOf, flatMap_map, Part.commit]

theorem rowsOf_filter_add (f : Part R → Bool) :
    rowsOf (l.filter f) + rowsOf (l.filter fun p => !f p) = rowsOf l := by
  rw [← rowsOf_append]
  exact Multiset.coe_eq_coe.mpr ((filter_append_perm f l).flatMap_right _)

theorem Index.names_of_mem {p : Part R} (hp : p ∈ ix.parts) : ix.names p.pref = true :=
  any_eq_true.mpr ⟨p, hp, decide_eq_true rfl⟩

theorem names_map_commit (e : ℕ) (pref : String) :
    Index.names ⟨l.map Part.commit, e⟩ pref = l.any (·.pref = pref) := by
  rw [Index.names, any_map]
  rfl

theorem accounts_commit (e : ℕ) : Accounts ⟨l.map Part.commit, e⟩ l := by
  have hall : ∀ p ∈ l, Index.names ⟨l.map Part.commit, e⟩ p.pref = true := by
    intro p hp
    rw [names_map_commit]
    exact any_eq_true.mpr ⟨p, hp, decide_eq_true rfl⟩
  refine ⟨?_, fun p hp hn => absurd (hall p hp) (by simp [hn])⟩
  rw [filter_eq_self.mpr hall, rowsOf_map_commit]

theorem Accounts.append {parts : List (Part R)} (h : Accounts ix parts)
    (hpending : ∀ p ∈ new, p.pending = true) (hfresh : ∀ p ∈ new, ix.names p.pref = false) :
    Accounts ix (parts ++ new) := by
  refine ⟨?_, fun p hp hn => ?_⟩
  · have hnone : (new.filter fun p => ix.names p.pref) = [] :=
      filter_eq_nil_iff.mpr fun p hp => by simp [hfresh p hp]
    rw [filter_append, hnone, append_nil, h.named]
  · rcases mem_append.mp hp with hp | hp
    · exact h.unnamed p hp hn
    · exact hpending p hp

theorem Accounts.filter_unnamed (h : Accounts ix e.parts) :
    (e.parts.filter fun p => !ix.names p.pref) = e.carried ix := by
  refine filter_congr fun p hp => ?_
  cases hn : ix.names p.pref with
  | true => simp
  | false => simp [h.unnamed p hp hn]

theorem Accounts.rowsOf_carried (h : Accounts ix e.parts) :
    rowsOf (ix.parts.map Part.commit ++ e.carried ix) = rowsOf e.parts := by
  rw [rowsOf_append, rowsOf_map_commit, ← h.named, ← h.filter_unnamed]
  exact rowsOf_filter_add _ fun p => ix.names p.pref

theorem accounts_index (ix : Index R) : Accounts ix (ix.parts.map Part.commit) := by
  have hnamed : ∀ p ∈ ix.parts.map Part.commit, ix.names p.pref = true := by
    intro p hp
    obtain ⟨q, hq, rfl⟩ := mem_map.mp hp
    exact Index.names_of_mem (p := q) hq
  refine ⟨?_, fun p hp hn => absurd (hnamed p hp) (by simp [hn])⟩
  rw [filter_eq_self.mpr hnamed, rowsOf_map_commit]

theorem Accounts.load : Accounts ix (ix.parts.map Part.commit ++ e.carried ix) := by
  have hcarried : ∀ p ∈ e.carried ix, p.pending = true ∧ ix.names p.pref = false := by
    intro p hp
    have := (mem_filter.mp hp).2
    simpa using this
  exact (accounts_index ix).append (fun p hp => (hcarried p hp).1) fun p hp => (hcarried p hp).2

theorem restart_eq (ix : Index R) (segs : List (Segment R)) :
    Engine.restart maxBytes ix segs = {
      parts := ix.parts.map Part.commit
      flushedEpoch := ix.watermark
      head := replayDirFrom ix.watermark segs
      flush := .idle
      fenced := false
      wal := (SegmentWriter.create maxBytes segs).setEpoch (ix.watermark + 1) } := by
  simp [Engine.restart, Engine.replay, Engine.loadParts, Engine.carried, Engine.new,
    Engine.flushing, SegmentWriter.setEpoch, SegmentWriter.create]

theorem held_recovered (s : State R) : s.recovered.held = rowsOf s.index.parts +
    logged (fun n => s.index.watermark < n.epoch) s.engine.wal.segments := by
  rw [State.recovered, restart_eq, Engine.held, rowsOf_map_commit, coe_replayDirFrom]

/-! ## Every history is safe -/

/-- Writing to the log: the rows `b` that also reach the head and are acknowledged are those logged,
or none. -/
theorem Safe.logs (h : Safe s) {rows b : List R}
    (hlog : s.engine.wal.Logs w rows) (hb : b = rows ∨ b = []) (stray : Multiset R) :
    Safe { s with
      engine := { s.engine with wal := w, head := s.engine.head ++ b }
      acked := s.acked + b
      stray := stray } := by
  obtain ⟨n, hn, hlogged⟩ := hlog.logged
  obtain ⟨hseq, hepoch⟩ := h.target n hn
  have hnext := h.next_le
  have hmark := h.watermark_le
  -- Whatever test admits the segment written to gains the rows `b`.
  have hgain : ∀ (p : Name → Prop) [DecidablePred p], p n → ∀ m : Multiset R,
      m ≤ logged p s.engine.wal.segments → m + (b : Multiset R) ≤ logged p w.segments := by
    intro p _ hp m hm
    rw [hlogged p, if_pos hp]
    rcases hb with rfl | rfl
    · exact add_le_add_left hm _
    · exact add_le_add hm (Multiset.zero_le _)
  have hhead : ((s.engine.head ++ b : List R) : Multiset R) = s.engine.head + (b : Multiset R) :=
    (Multiset.coe_add _ _).symm
  exact { h with
    wal := hlog.wellFormed
    epoch_lt := hlog.epoch ▸ h.epoch_lt
    seq_le := h.seq_le.trans (Nat.succ_le_succ hlog.seq_le)
    target := fun m hm => h.target m (hlog.target m hm)
    head_le := by
      show ((s.engine.head ++ b : List R) : Multiset R) ≤ _
      rw [hhead]
      exact hgain _ ⟨hseq, hepoch⟩ _ h.head_le
    redo := by
      show _ + ((s.engine.head ++ b : List R) : Multiset R) ≤ _
      rw [hhead, ← add_assoc]
      exact hgain (fun n => s.engine.nextEpoch < n.epoch) (lt_of_le_of_lt hnext hepoch) _ h.redo
    acked_disk := by
      have hdisk : s.index.watermark < n.epoch := by omega
      have hadd := hgain (fun n => s.index.watermark < n.epoch) hdisk _ le_rfl
      calc s.acked + (b : Multiset R)
          ≤ rowsOf s.index.parts + logged (fun n => s.index.watermark < n.epoch)
              s.engine.wal.segments + (b : Multiset R) := add_le_add_left h.acked_disk _
        _ ≤ _ := by
            rw [add_assoc]
            exact add_le_add_right hadd _
    acked_mem := by
      show s.acked + (b : Multiset R) ≤ _ + ((s.engine.head ++ b : List R) : Multiset R)
      rw [hhead, ← add_assoc]
      exact add_le_add_left h.acked_mem _ }

/-- What a write leaves: rows are logged, and reach the head and are acknowledged, or do not. -/
theorem State.append_cases (hw : s.engine.wal.WellFormed) (fault : Option WriteFault)
    (rows : List R) (bytes : ℕ) : ∃ w kept b stray, s.engine.wal.Logs w kept ∧
      (b = kept ∨ b = []) ∧ s.stray + (kept : Multiset R) ≤ stray + (b : Multiset R) ∧
      s.append fault rows bytes = { s with
        engine := { s.engine with wal := w, head := s.engine.head ++ b }
        acked := s.acked + b
        stray := stray } := by
  have hlog := SegmentWriter.writeFrames_logs fault rows bytes hw
  unfold State.append
  cases hr : s.engine.wal.writeFrames fault rows bytes with
  | mk r w =>
    rw [hr] at hlog
    cases r with
    | refused => exact ⟨w, [], [], s.stray, hlog, .inr rfl, le_rfl, by simp⟩
    | unacknowledged => exact ⟨w, rows, [], s.stray + rows, hlog, .inr rfl, by simp, by simp⟩
    | acknowledged => exact ⟨w, rows, rows, s.stray, hlog, .inl rfl, le_rfl, rfl⟩

theorem Safe.append (h : Safe s) (fault : Option WriteFault) (rows : List R) (bytes : ℕ) :
    Safe (s.append fault rows bytes) := by
  obtain ⟨w, kept, b, stray, hlog, hb, -, happend⟩ := State.append_cases h.wal fault rows bytes
  rw [happend]
  exact h.logs hlog hb stray

theorem Safe.prepares (h : Safe s) (hprep : s.engine.wal.Prepares w) :
    Safe { s with engine := { s.engine with wal := w } } := by
  simpa using h.logs hprep.logs (b := []) (.inr rfl) s.stray

/-- A flush begins by sealing the log at its epoch, or leaves the engine with at most its segment
closed. -/
theorem beginFlush_cases (fault : Option SealFault) (hw : e.wal.WellFormed) :
    (∃ w, e.wal.Prepares w ∧ e.beginFlush fault = { e with wal := w }) ∨
    ∃ epoch, epoch = max (e.flushedEpoch + 1) e.wal.epoch ∧ e.beginFlush fault = { e with
      head := []
      flush := .writing e.head epoch e.wal.seq
      wal := e.wal.closeSegment.setEpoch (epoch + 1) } := by
  have hclosed := SegmentWriter.closeSegment_prepares hw
  cases fault with
  | none => exact .inr ⟨_, rfl, rfl⟩
  | some f =>
    cases f with
    | heal => exact .inl ⟨_, .refl hw, rfl⟩
    | close | rotateSync => exact .inl ⟨_, hclosed, rfl⟩

theorem Safe.begin (h : Safe s) (fault : Option SealFault) (hflush : s.engine.flush = .idle) :
    Safe { s with engine := s.engine.beginFlush fault } := by
  rcases beginFlush_cases fault h.wal with ⟨w, hprep, hbegin⟩ | ⟨epoch, hepoch, hbegin⟩
  · rw [hbegin]
    exact h.prepares hprep
  rw [hbegin]
  obtain ⟨ix, ⟨parts, flushed, head, flush, fenced, wal⟩, acked, stray⟩ := s
  cases hflush
  have hclosed := SegmentWriter.closeSegment_prepares h.wal
  have hle : flushed ≤ epoch := (Nat.le_succ _).trans ((le_max_left _ _).trans_eq hepoch.symm)
  exact { h with
    wal := ⟨hclosed.wellFormed.ascending, hclosed.wellFormed.numbered, nofun⟩
    next_le := hle
    epoch_lt := Nat.lt_succ_self _
    seq_le := le_rfl
    target := by
      rintro n (hn | ⟨hepoch, hseq⟩)
      · cases hn
      · exact ⟨hseq, hepoch ▸ Nat.lt_succ_self _⟩
    head_le := Multiset.zero_le _
    redo := (add_comm _ _).trans_le h.redo
    confirmed := nofun
    published := nofun
    acked_mem := by
      refine h.acked_mem.trans (le_of_eq ?_)
      show rowsOf parts + (([] : List R) : Multiset R) + (head : Multiset R) =
        rowsOf parts + (head : Multiset R) + (([] : List R) : Multiset R)
      rw [add_right_comm] }

theorem Safe.abort (h : Safe s) (hflush : s.engine.flush = .writing detached epoch seq) :
    Safe { s with engine := s.engine.abortFlush } := by
  obtain ⟨ix, ⟨parts, flushed, head, flush, fenced, wal⟩, acked, stray⟩ := s
  cases hflush
  have hle : flushed ≤ epoch := h.next_le
  have hredo : ((detached ++ head : List R) : Multiset R) ≤
      logged (fun n => flushed < n.epoch) wal.segments :=
    (Multiset.coe_add _ _).symm.trans_le h.redo
  exact { h with
    next_le := le_rfl
    epoch_lt := lt_of_le_of_lt hle h.epoch_lt
    seq_le := Nat.zero_le _
    target := fun n hn => ⟨Nat.zero_le _, lt_of_le_of_lt hle (h.target n hn).2⟩
    head_le := hredo.trans (logged_mono fun _ _ hlt => ⟨Nat.zero_le _, hlt⟩)
    redo := (zero_add _).trans_le hredo
    confirmed := nofun
    published := nofun
    acked_mem := by
      refine h.acked_mem.trans (le_of_eq ?_)
      show rowsOf parts + (detached : Multiset R) + (head : Multiset R) =
        rowsOf parts + 0 + ((detached ++ head : List R) : Multiset R)
      rw [← Multiset.coe_add, add_zero, add_assoc] }

theorem Safe.save (h : Safe s) {landed : Bool}
    (hflush : s.engine.flush = .writing detached epoch seq) (hnew : Written s detached new)
    (hconfirmed : confirmed = true → landed = true) : Safe (s.save new landed confirmed) := by
  obtain ⟨ix, ⟨parts, flushed, head, flush, fenced, wal⟩, acked, stray⟩ := s
  cases hflush
  have hle : flushed ≤ epoch := h.next_le
  have hmark : ix.watermark ≤ flushed := h.watermark_le
  have hmax : max epoch flushed = epoch := max_eq_left hle
  have hrows := hnew.rowsOf_append parts
  have hpast : (head : Multiset R) ≤ logged (fun n => epoch < n.epoch) wal.segments :=
    h.head_le.trans (logged_mono fun _ _ hn => hn.2)
  simp only [State.save, hmax]
  exact { h with
    accounts := by
      cases landed with
      | true => exact accounts_commit _ _
      | false => exact Accounts.append h.accounts hnew.pending hnew.fresh
    watermark_le := by
      cases landed with
      | true => exact le_rfl
      | false => exact hmark.trans hle
    next_le := le_rfl
    redo := (zero_add _).trans_le hpast
    confirmed := by
      rintro _ _ _ ⟨⟩
      rw [hconfirmed rfl]
      rfl
    published := nofun
    acked_disk := by
      cases landed with
      | true =>
        show acked ≤ rowsOf ((parts ++ new).map Part.commit) +
          logged (fun n => epoch < n.epoch) wal.segments
        rw [rowsOf_map_commit, hrows]
        exact h.acked_mem.trans (add_le_add_right hpast _)
      | false => exact h.acked_disk
    acked_mem := by
      refine h.acked_mem.trans (le_of_eq ?_)
      show rowsOf parts + (detached : Multiset R) + (head : Multiset R) =
        rowsOf (parts ++ new) + 0 + (head : Multiset R)
      rw [hrows, add_zero] }

theorem Safe.install (h : Safe s) {next : List (Part R)}
    (hflush : s.engine.flush = .saving epoch seq next confirmed) :
    Safe { s with engine := s.engine.install } := by
  obtain ⟨ix, ⟨parts, flushed, head, flush, fenced, wal⟩, acked, stray⟩ := s
  cases hflush
  cases confirmed with
  | false =>
    exact { h with
      next_le := le_rfl
      seq_le := Nat.zero_le _
      target := fun n hn => ⟨Nat.zero_le _, (h.target n hn).2⟩
      head_le := h.head_le.trans (logged_mono fun _ _ hn => ⟨Nat.zero_le _, hn.2⟩)
      confirmed := nofun
      published := nofun }
  | true =>
    obtain rfl : ix = ⟨next.map Part.commit, epoch⟩ := h.confirmed epoch seq next rfl
    have hidem : (next.map Part.commit).map Part.commit = next.map Part.commit := by
      rw [map_map]
      rfl
    exact { h with
      accounts := by
        have haccounts := accounts_commit (next.map Part.commit) epoch
        rw [hidem] at haccounts
        exact haccounts
      watermark_le := le_rfl
      next_le := le_rfl
      confirmed := nofun
      published := fun _ _ => ⟨rfl, rfl⟩
      acked_mem := by
        refine h.acked_mem.trans (le_of_eq ?_)
        show rowsOf next + 0 + (head : Multiset R) =
          rowsOf (next.map Part.commit) + 0 + (head : Multiset R)
        rw [rowsOf_map_commit] }

/-- The segments the checkpoint drops hold nothing of the head, and the index holds the rest. -/
theorem Safe.checkpoint (h : Safe s) (fault : Option CheckpointFault)
    (hflush : s.engine.flush = .published seq) :
    Safe { s with engine := s.engine.checkpoint fault } := by
  obtain ⟨ix, ⟨parts, flushed, head, flush, fenced, wal⟩, acked, stray⟩ := s
  cases hflush
  obtain ⟨hrows, hmark⟩ := h.published seq rfl
  have hdrop := SegmentWriter.checkpointThrough_discards fault seq h.wal
  have hhead : (head : Multiset R) ≤
      logged (fun n => flushed < n.epoch) (wal.checkpointThrough fault seq).segments := by
    have hkept := hdrop.logged_eq h.wal
      (p := fun n => seq + 1 ≤ n.seq ∧ flushed < n.epoch) fun _ _ hn => hn.1
    exact h.head_le.trans (hkept.symm.le.trans (logged_mono fun _ _ hn => hn.2))
  exact { h with
    wal := hdrop.wellFormed
    next_le := le_rfl
    epoch_lt := h.epoch_lt.trans_eq hdrop.epoch.symm
    seq_le := Nat.zero_le _
    target := by
      intro n hn
      refine ⟨Nat.zero_le _, ?_⟩
      rcases hn with hn | ⟨hn, -⟩
      · exact (h.target n (.inl (hdrop.file n hn))).2
      · have hepoch : flushed < wal.epoch := h.epoch_lt
        exact hepoch.trans_eq (hn.trans hdrop.epoch).symm
    head_le := hhead.trans (logged_mono fun _ _ hn => ⟨Nat.zero_le _, hn⟩)
    redo := (zero_add _).trans_le hhead
    confirmed := nofun
    published := nofun
    acked_disk := by
      have hmem : acked ≤ rowsOf parts + 0 + (head : Multiset R) := h.acked_mem
      show acked ≤ rowsOf ix.parts + logged (fun n => ix.watermark < n.epoch) _
      rw [show rowsOf ix.parts = rowsOf parts from hrows,
        show ix.watermark = flushed from hmark]
      rw [add_zero] at hmem
      exact hmem.trans (add_le_add_right hhead _) }

theorem safe_restart {segs : List (Segment R)} {acked : Multiset R}
    (hsegs : segs.Pairwise fun a b => a.name.seq < b.name.seq)
    (hacked : acked ≤ rowsOf ix.parts + logged (fun n => ix.watermark < n.epoch) segs)
    (stray : Multiset R) : Safe ⟨ix, Engine.restart maxBytes ix segs, acked, stray⟩ := by
  have hreplay : (replayDirFrom ix.watermark segs : Multiset R) =
      logged (fun n => ix.watermark < n.epoch) segs := coe_replayDirFrom _
  rw [restart_eq]
  exact {
    wal := { SegmentWriter.create_wellFormed maxBytes hsegs with }
    accounts := accounts_index ix
    watermark_le := le_rfl
    next_le := le_rfl
    epoch_lt := Nat.lt_succ_self _
    seq_le := Nat.zero_le _
    target := by
      rintro n (hn | ⟨hn, -⟩)
      · cases hn
      · exact ⟨Nat.zero_le _, hn ▸ Nat.lt_succ_self _⟩
    head_le := hreplay.trans_le (logged_mono fun _ _ hn => ⟨Nat.zero_le _, hn⟩)
    redo := (zero_add _).trans_le hreplay.le
    confirmed := nofun
    published := nofun
    acked_disk := hacked
    acked_mem := by
      show acked ≤ rowsOf (ix.parts.map Part.commit) + 0 +
          (replayDirFrom ix.watermark segs : Multiset R)
      rw [rowsOf_map_commit, add_zero, hreplay]
      exact hacked }

theorem Safe.restart (h : Safe s) : Safe { s with engine := s.recovered } :=
  safe_restart _ h.wal.ascending h.acked_disk s.stray

theorem loadParts_flushedEpoch (hle : ix.watermark ≤ e.flushedEpoch) :
    ix.watermark ≤ (e.loadParts ix).flushedEpoch ∧
      (e.loadParts ix).flushedEpoch ≤ e.flushedEpoch ∧
      (e.carried ix = [] → (e.loadParts ix).flushedEpoch = ix.watermark) := by
  unfold Engine.loadParts
  dsimp only
  split_ifs with hcarried
  · exact ⟨le_rfl, hle, fun _ => rfl⟩
  · exact ⟨le_max_left _ _, max_le hle le_rfl, fun hnil => absurd hnil hcarried⟩

theorem loadParts_floor (hfree : e.catalogFree = true)
    (hle : (e.loadParts ix).flushedEpoch ≤ e.flushedEpoch) (hfloor : e.flushedEpoch ≤ e.floorEpoch)
    (hlt : e.floorEpoch < e.wal.epoch) :
    (e.loadParts ix).flushedEpoch ≤ (e.loadParts ix).floorEpoch ∧
      (e.loadParts ix).floorEpoch ≤ e.floorEpoch ∧
      (e.loadParts ix).floorEpoch < (e.loadParts ix).wal.epoch := by
  obtain ⟨parts, flushed, head, flush, fenced, wal⟩ := e
  cases flush with
  | idle => exact ⟨le_rfl, hle, Nat.lt_succ_self _⟩
  | writing detached epoch seq =>
    exact ⟨hle.trans hfloor, le_rfl, lt_of_lt_of_le hlt (le_max_right _ _)⟩
  | saving | published => cases hfree

theorem Engine.nextParts_of_free (hfree : e.catalogFree = true) :
    e.nextParts = e.parts ∧ e.nextEpoch = e.flushedEpoch := by
  obtain ⟨parts, flushed, head, flush, fenced, wal⟩ := e
  cases flush with
  | idle | writing => exact ⟨rfl, rfl⟩
  | saving | published => cases hfree

theorem Safe.load (h : Safe s) (hfree : s.engine.catalogFree = true) :
    Safe { s with engine := s.engine.loadParts s.index } := by
  obtain ⟨hparts, hepoch⟩ := Engine.nextParts_of_free hfree
  have hfree' : (s.engine.loadParts s.index).catalogFree = true := hfree
  obtain ⟨hparts', hepoch'⟩ := Engine.nextParts_of_free hfree'
  have hmark := h.watermark_le
  have hnext := h.next_le
  have haccounts := h.accounts
  rw [hepoch] at hmark hnext
  rw [hparts] at haccounts
  obtain ⟨hmark', hle, -⟩ := loadParts_flushedEpoch hmark
  obtain ⟨hnext', hfloor, hlt⟩ := loadParts_floor hfree hle hnext h.epoch_lt
  exact { h with
    wal := ⟨h.wal.ascending, h.wal.numbered, h.wal.file⟩
    accounts := hparts' ▸ Accounts.load
    watermark_le := hmark'.trans_eq hepoch'.symm
    next_le := hepoch'.trans_le hnext'
    epoch_lt := hlt
    target := by
      rintro n (hn | ⟨hn, hseq⟩)
      · obtain ⟨hseq, hep⟩ := h.target n (.inl hn)
        exact ⟨hseq, lt_of_le_of_lt hfloor hep⟩
      · exact ⟨h.seq_le.trans hseq, hlt.trans_eq hn.symm⟩
    head_le := h.head_le.trans (logged_mono fun _ _ hn => ⟨hn.1, lt_of_le_of_lt hfloor hn.2⟩)
    redo := by
      refine h.redo.trans (logged_mono fun _ _ hn => ?_)
      rw [hepoch] at hn
      exact hepoch'.trans_lt (lt_of_le_of_lt hle hn)
    confirmed := fun _ _ _ hflush => by
      have : (Flush.saving ..) = s.engine.flush := hflush.symm
      rw [Engine.catalogFree, ← this] at hfree
      cases hfree
    published := fun _ hflush => by
      have : (Flush.published ..) = s.engine.flush := hflush.symm
      rw [Engine.catalogFree, ← this] at hfree
      cases hfree
    acked_mem := by
      have hmem := h.acked_mem
      rw [hparts, ← haccounts.rowsOf_carried] at hmem
      rw [hparts']
      exact hmem }

theorem safe_init : Safe (State.init maxBytes : State R) :=
  safe_restart maxBytes Pairwise.nil (Multiset.zero_le _) 0

theorem Safe.step {s' : State R} (h : Safe s) (hstep : Step L s s') : Safe s' := by
  cases hstep with
  | append fault rows bytes => exact h.append fault rows bytes
  | begin fault hflush => exact h.begin fault hflush
  | abort hflush => exact h.abort hflush
  | save hflush _ hnew hconfirmed => exact h.save hflush hnew hconfirmed
  | install hflush => exact h.install hflush
  | checkpoint fault hflush => exact h.checkpoint fault hflush
  | loadFailed =>
    exact { h with }
  | load hfree => exact h.load hfree
  | restart => exact h.restart

/-- **No history loses an acknowledged row**, whatever fails and wherever it crashes. -/
theorem Reachable.safe {maxBytes : ℕ} (h : Reachable L maxBytes s) :
    Safe s := by
  induction h with
  | init => exact safe_init maxBytes
  | step _ hstep ih => exact ih.step hstep

end OtelStorage.Recovery
