import Mathlib.Algebra.Order.Group.Multiset
import Mathlib.Data.List.Flatten
import Mathlib.Data.List.Sort
import Mathlib.Tactic.Abel
import OtelStorage.Foundation.Fibers

/-!
# The segmented write-ahead log

A log is a directory of numbered segment files.  A segment's name carries its number and the
*epoch*, the flush generation that was current when the file was opened; a replay skips every
segment whose epoch is at or below a watermark.

Every operation may fail at the points where the file system can fail it, and a failure leaves what
it leaves: a refused write may still have closed a segment or used up a number.  The `Fault` types
name those points.  A write of bytes is atomic: a torn frame is cut back before anything else is
written, so a record is in the log whole or not at all.
-/

namespace OtelStorage.Wal

open List

/-- The file name of a segment: its number, then its epoch. -/
structure Name where
  seq : ℕ
  epoch : ℕ
  deriving DecidableEq, Repr

/-- A segment file: its name and the rows of the records it holds, in the order they were logged. -/
structure Segment (R : Type*) where
  name : Name
  rows : List R
  deriving DecidableEq, Repr

/-- The writer and the directory it writes to.  `file` is the open segment, whose epoch is the one
current when it was opened. -/
structure SegmentWriter (R : Type*) where
  maxBytes : ℕ
  seq : ℕ
  epoch : ℕ
  file : Option Name
  size : ℕ
  segments : List (Segment R)
  deriving DecidableEq, Repr

/-- Where a framed write can fail. -/
inductive WriteFault
  /-- An earlier torn frame could not be cut back. -/
  | heal
  /-- The full segment failed to sync as it was closed. -/
  | rotate
  /-- The next segment could not be created. -/
  | create
  /-- The directory failed to sync after the next segment was created. -/
  | syncDir
  /-- The write itself failed; what it left of the frame was cut back. -/
  | write
  /-- The frame was written and the sync after it failed. -/
  | sync
  deriving DecidableEq, Repr

/-- What became of a framed write: nothing was logged, the frame was logged but its writer was told
otherwise, or the frame was logged and acknowledged. -/
inductive WriteResult
  | refused
  | unacknowledged
  | acknowledged
  deriving DecidableEq, Repr

/-- Where sealing can fail. -/
inductive SealFault
  | heal
  | close
  | rotateSync
  deriving DecidableEq, Repr

/-- Where a checkpoint can stop: closing the open segment, listing the directory, or after
`removed` files were removed. -/
inductive CheckpointFault
  | close
  | readDir
  | remove (removed : ℕ)
  | syncDir
  deriving DecidableEq, Repr

variable {R : Type*} {obsolete : ℕ}

/-- The highest segment number present, `0` if none. -/
def lastSegmentSeq (segs : List (Segment R)) : ℕ :=
  segs.foldl (fun last s => max last s.name.seq) 0

/-- The rows of the segments above `minEpoch`, in segment order. -/
def replayDirFrom (minEpoch : ℕ) (segs : List (Segment R)) : List R :=
  ((segs.filter fun s => minEpoch < s.name.epoch).insertionSort
    fun a b => a.name.seq ≤ b.name.seq).flatMap Segment.rows

/-- Files numbered through `obsolete` are removed in directory order, at most `n` of them. -/
def removeThrough (obsolete : ℕ) : ℕ → List (Segment R) → List (Segment R)
  | 0, segs => segs
  | _ + 1, [] => []
  | n + 1, s :: segs =>
    if s.name.seq ≤ obsolete then removeThrough obsolete n segs
    else s :: removeThrough obsolete (n + 1) segs

namespace SegmentWriter

/-- Opening a directory resumes beyond the segments a prior run left; the next segment is opened by
the first write. -/
def create (maxBytes : ℕ) (segs : List (Segment R)) : SegmentWriter R where
  maxBytes := maxBytes
  seq := lastSegmentSeq segs
  epoch := 1
  file := none
  size := 0
  segments := segs

/-- Later segments are of the epoch. -/
def setEpoch (epoch : ℕ) (w : SegmentWriter R) : SegmentWriter R :=
  { w with epoch := epoch }

/-- No segment is open. -/
def closeSegment (w : SegmentWriter R) : SegmentWriter R :=
  { w with file := none }

/-- The next number is used up even when the file cannot be opened. -/
def openNext (fault : Option WriteFault) (w : SegmentWriter R) : Bool × SegmentWriter R :=
  let seq := w.seq + 1
  let name : Name := ⟨seq, w.epoch⟩
  match fault with
  | some .create => (false, { w with seq := seq })
  | some .syncDir => (false, { w with seq := seq, segments := w.segments ++ [⟨name, []⟩] })
  | _ =>
    (true, { w with
      seq := seq, segments := w.segments ++ [⟨name, []⟩], file := some name, size := 0 })

/-- Close the segment and open the next. -/
def rotate (fault : Option WriteFault) (w : SegmentWriter R) : Bool × SegmentWriter R :=
  if fault = some .rotate then (false, w.closeSegment) else w.closeSegment.openNext fault

/-- A current segment is open and below the size limit before a write. -/
def prepare (fault : Option WriteFault) (w : SegmentWriter R) : Bool × SegmentWriter R :=
  if fault = some .heal then (false, w)
  else if w.file = none then w.openNext fault
  else if w.maxBytes ≤ w.size then w.rotate fault
  else (true, w)

/-- The frame's rows go behind those of the open segment. -/
def logRows (rows : List R) (bytes : ℕ) (w : SegmentWriter R) : SegmentWriter R :=
  { w with
    size := w.size + bytes
    segments := w.segments.map fun s =>
      if w.file = some s.name then { s with rows := s.rows ++ rows } else s }

/-- A write of already framed rows, `bytes` long; an empty frame is no write at all. -/
def writeFrames (fault : Option WriteFault) (rows : List R) (bytes : ℕ) (w : SegmentWriter R) :
    WriteResult × SegmentWriter R :=
  if rows = [] then (.acknowledged, w)
  else
    match w.prepare fault with
    | (false, w') => (.refused, w')
    | (true, w') =>
      match fault with
      | some .write => (.refused, w')
      | some .sync => (.unacknowledged, w'.logRows rows bytes)
      | _ => (.acknowledged, w'.logRows rows bytes)

/-- `Seal` closes the current segment and stamps later ones with `epoch`; the answer is the number
sealed through. -/
def sealThrough (fault : Option SealFault) (epoch : ℕ) (w : SegmentWriter R) :
    Option ℕ × SegmentWriter R :=
  match fault with
  | some .heal => (none, w)
  | some .close => (none, w.closeSegment)
  | some .rotateSync => (none, w.closeSegment)
  | none => (some w.seq, w.closeSegment.setEpoch epoch)

/-- Discarding the segments numbered through `obsolete`. -/
def checkpointThrough (fault : Option CheckpointFault) (obsolete : ℕ) (w : SegmentWriter R) :
    SegmentWriter R :=
  let w := if w.seq ≤ obsolete then w.closeSegment else w
  match fault with
  | some .close => w
  | some .readDir => w
  | some (.remove n) => { w with segments := removeThrough obsolete n w.segments }
  | _ => { w with segments := w.segments.filter fun s => obsolete < s.name.seq }

end SegmentWriter

/-! ## What the directory holds -/

/-- The rows of the segments whose name passes `p`. -/
def logged (p : Name → Prop) [DecidablePred p] (segs : List (Segment R)) : Multiset R :=
  ((segs.filter fun s => p s.name).flatMap Segment.rows : List R)

section Logged

variable {p q : Name → Prop} [DecidablePred p] [DecidablePred q] {segs : List (Segment R)}
  {s : Segment R}

@[simp] theorem logged_nil : logged p ([] : List (Segment R)) = 0 := rfl

theorem logged_cons (s : Segment R) :
    logged p (s :: segs) = (if p s.name then (s.rows : Multiset R) else 0) + logged p segs := by
  by_cases hp : p s.name <;> simp [logged, hp]

theorem logged_append (l : List (Segment R)) :
    logged p (segs ++ l) = logged p segs + logged p l := by
  simp [logged]

@[simp] theorem logged_opened (n : Name) : logged p (segs ++ [⟨n, []⟩]) = logged p segs := by
  simp [logged_append, logged_cons]

theorem logged_le_of_rows (h : ∀ s ∈ segs, p s.name → q s.name ∨ s.rows = []) :
    logged p segs ≤ logged q segs := by
  induction segs with
  | nil => exact le_rfl
  | cons s segs ih =>
    have ih := ih fun t ht => h t (mem_cons_of_mem _ ht)
    rw [logged_cons, logged_cons]
    refine add_le_add ?_ ih
    by_cases hp : p s.name
    · rcases h s mem_cons_self hp with hq | hrows
      · rw [if_pos hp, if_pos hq]
      · simp [hrows]
    · rw [if_neg hp]
      exact Multiset.zero_le _

theorem logged_mono (h : ∀ s ∈ segs, p s.name → q s.name) : logged p segs ≤ logged q segs :=
  logged_le_of_rows fun s hs hp => .inl (h s hs hp)

theorem logged_split (segs : List (Segment R)) (p q : Name → Prop) [DecidablePred p]
    [DecidablePred q] :
    logged p segs = logged (fun n => p n ∧ q n) segs + logged (fun n => p n ∧ ¬ q n) segs := by
  induction segs with
  | nil => rfl
  | cons s segs ih =>
    simp only [logged_cons, ih]
    by_cases hp : p s.name <;> by_cases hq : q s.name <;> simp [hp, hq] <;> abel

theorem rows_le_logged (hs : s ∈ segs) (hp : p s.name) :
    (s.rows : Multiset R) ≤ logged p segs := by
  obtain ⟨l, m, rfl⟩ := append_of_mem hs
  rw [logged_append, logged_cons, if_pos hp]
  exact le_trans (Multiset.le_add_right _ _) (Multiset.le_add_left _ _)

theorem logged_sublist {l : List (Segment R)} (h : l.Sublist segs) : logged p l ≤ logged p segs :=
  Multiset.coe_le.mpr ((h.filter _).flatMap _).subperm

/-- Replaying above a watermark restores the rows of the segments above it. -/
theorem coe_replayDirFrom (minEpoch : ℕ) :
    (replayDirFrom minEpoch segs : Multiset R) = logged (fun n => minEpoch < n.epoch) segs :=
  Multiset.coe_eq_coe.mpr ((perm_insertionSort _ _).flatMap_right _)

end Logged

/-! ## The writer's invariant -/

namespace SegmentWriter

/-- Segments are numbered in ascending order up to the writer's number, and the open segment is the
last one numbered. -/
structure WellFormed (w : SegmentWriter R) : Prop where
  ascending : w.segments.Pairwise fun a b => a.name.seq < b.name.seq
  numbered : ∀ s ∈ w.segments, s.name.seq ≤ w.seq
  file : ∀ n, w.file = some n → n.seq = w.seq ∧ ∃ s ∈ w.segments, s.name = n

/-- The segments a write may go to: the open one, or one opened for it. -/
def Target (w : SegmentWriter R) (n : Name) : Prop :=
  w.file = some n ∨ n.epoch = w.epoch ∧ w.seq < n.seq

/-- The writer moved on to `w'` within its epoch: every segment is an old one or one a write could
have gone to. -/
structure Moves (w w' : SegmentWriter R) : Prop where
  wellFormed : w'.WellFormed
  epoch : w'.epoch = w.epoch
  seq_le : w.seq ≤ w'.seq
  target : ∀ n, w'.Target n → w.Target n
  names : ∀ s ∈ w'.segments, s ∈ w.segments ∨ w.Target s.name

/-- The writer moved on to `w'` without logging anything. -/
structure Prepares (w w' : SegmentWriter R) : Prop extends Moves w w' where
  logged : ∀ (p : Name → Prop) [DecidablePred p], logged p w'.segments = logged p w.segments

variable {w w' w'' : SegmentWriter R} {n : Name} (fault : Option WriteFault)

theorem Prepares.refl (hw : w.WellFormed) : w.Prepares w :=
  ⟨⟨hw, rfl, le_rfl, fun _ h => h, fun _ hs => .inl hs⟩, fun _ _ => rfl⟩

theorem Prepares.trans (h : w.Prepares w') (h' : w'.Prepares w'') : w.Prepares w'' where
  wellFormed := h'.wellFormed
  epoch := h'.epoch.trans h.epoch
  seq_le := h.seq_le.trans h'.seq_le
  target n hn := h.target n (h'.target n hn)
  names s hs := by
    rcases h'.names s hs with hs | hs
    · exact h.names s hs
    · exact .inr (h.target _ hs)
  logged p _ := (h'.logged p).trans (h.logged p)

theorem closeSegment_prepares (hw : w.WellFormed) : w.Prepares w.closeSegment where
  wellFormed := ⟨hw.ascending, hw.numbered, nofun⟩
  epoch := rfl
  seq_le := le_rfl
  target _ hn := .inr (hn.resolve_left nofun)
  names _ hs := .inl hs
  logged _ _ := rfl

theorem WellFormed.ascending_next (hw : w.WellFormed) (e : ℕ) :
    (w.segments ++ [Segment.mk ⟨w.seq + 1, e⟩ []]).Pairwise fun a b : Segment R =>
      a.name.seq < b.name.seq := by
  refine pairwise_append.mpr ⟨hw.ascending, pairwise_singleton _ _, ?_⟩
  intro a ha b hb
  rw [mem_singleton.mp hb]
  exact Nat.lt_succ_of_le (hw.numbered a ha)

theorem mem_opened {s : Segment R} (hs : s ∈ w.segments ++ [⟨n, []⟩]) : s ∈ w.segments ∨
    s.name = n := by
  rcases mem_append.mp hs with hs | hs
  · exact .inl hs
  · exact .inr (by rw [mem_singleton.mp hs])

/-- A writer at the next number, with that segment in the directory or not, and open or not. -/
theorem prepares_next (hw' : w'.WellFormed) (hseq : w'.seq = w.seq + 1)
    (hepoch : w'.epoch = w.epoch) (hfile : ∀ n, w'.file = some n → n = ⟨w.seq + 1, w.epoch⟩)
    (hsegs : w'.segments = w.segments ∨ w'.segments = w.segments ++ [⟨⟨w.seq + 1, w.epoch⟩, []⟩]) :
    w.Prepares w' where
  wellFormed := hw'
  epoch := hepoch
  seq_le := by omega
  target n hn := by
    rcases hn with hn | ⟨hn, hlt⟩
    · rw [hfile n hn]
      exact .inr ⟨rfl, Nat.lt_succ_self _⟩
    · exact .inr ⟨hn.trans hepoch, by omega⟩
  names s hs := by
    rcases hsegs with hsegs | hsegs
    · exact .inl (hsegs ▸ hs)
    rw [hsegs] at hs
    rcases mem_opened hs with hs | hs
    · exact .inl hs
    · rw [hs]
      exact .inr (.inr ⟨rfl, Nat.lt_succ_self _⟩)
  logged p _ := by
    rcases hsegs with hsegs | hsegs
    · rw [hsegs]
    · rw [hsegs, logged_opened]

theorem openNext_prepares (hw : w.WellFormed) (hfile : w.file = none) :
    w.Prepares (w.openNext fault).2 := by
  have hnum : ∀ s ∈ w.segments ++ [Segment.mk ⟨w.seq + 1, w.epoch⟩ []], s.name.seq ≤ w.seq + 1 := by
    intro s hs
    rcases mem_opened hs with hs | hs
    · exact Nat.le_succ_of_le (hw.numbered s hs)
    · rw [hs]
  have hlast : ∃ s ∈ w.segments ++ [Segment.mk ⟨w.seq + 1, w.epoch⟩ []],
      s.name = ⟨w.seq + 1, w.epoch⟩ :=
    ⟨_, mem_append_right _ (mem_singleton_self _), rfl⟩
  unfold openNext
  split
  · exact prepares_next
      ⟨hw.ascending, fun s hs => Nat.le_succ_of_le (hw.numbered s hs), by simp [hfile]⟩
      rfl rfl (by simp [hfile]) (.inl rfl)
  · exact prepares_next ⟨hw.ascending_next _, hnum, by simp [hfile]⟩ rfl rfl (by simp [hfile])
      (.inr rfl)
  refine prepares_next ⟨hw.ascending_next _, hnum, ?_⟩ rfl rfl (fun n hn => ?_) (.inr rfl)
  · rintro n hn
    cases Option.some.inj hn
    exact ⟨rfl, hlast⟩
  · exact (Option.some.inj hn).symm

theorem rotate_prepares (hw : w.WellFormed) : w.Prepares (w.rotate fault).2 := by
  have hclose := closeSegment_prepares hw
  unfold rotate
  split
  · exact hclose
  · exact hclose.trans (openNext_prepares fault hclose.wellFormed rfl)

theorem prepare_prepares (hw : w.WellFormed) : w.Prepares (w.prepare fault).2 := by
  unfold prepare
  split_ifs with hheal hfile hsize
  · exact .refl hw
  · exact openNext_prepares fault hw hfile
  · exact rotate_prepares fault hw
  · exact .refl hw

theorem file_prepare {fault : Option WriteFault} (h : (w.prepare fault).1 = true) :
    ∃ n, (w.prepare fault).2.file = some n := by
  unfold prepare rotate openNext at *
  split_ifs at h ⊢ with hheal hfile hsize hrotate
  · split at h
    · cases h
    · cases h
    · exact ⟨_, rfl⟩
  · split at h
    · cases h
    · cases h
    · exact ⟨_, rfl⟩
  · exact Option.ne_none_iff_exists'.mp hfile

/-- Writing into one of several segments of different numbers adds its rows once. -/
theorem logged_map_rows {segs : List (Segment R)} (rows : List R)
    (hasc : segs.Pairwise fun a b => a.name.seq < b.name.seq) (hn : ∃ s ∈ segs, s.name = n)
    (p : Name → Prop) [DecidablePred p] :
    Wal.logged p (segs.map fun s =>
      if some n = some s.name then { s with rows := s.rows ++ rows } else s) =
      Wal.logged p segs + if p n then (rows : Multiset R) else 0 := by
  obtain ⟨s, hs, rfl⟩ := hn
  obtain ⟨l, m, rfl⟩ := append_of_mem hs
  have hne : ∀ t ∈ l ++ m, ¬ some s.name = some t.name := by
    intro t ht heq
    have hseq : s.name.seq = t.name.seq := by rw [Option.some.inj heq]
    obtain ⟨-, hm, hl⟩ := pairwise_append.mp hasc
    rcases mem_append.mp ht with ht | ht
    · have := hl t ht s mem_cons_self
      omega
    · have := (pairwise_cons.mp hm).1 t ht
      omega
  have hself : ∀ k : List (Segment R), (∀ t ∈ k, t ∈ l ++ m) → (k.map fun t =>
      if some s.name = some t.name then { t with rows := t.rows ++ rows } else t) = k := by
    intro k hk
    refine (map_congr_left fun t ht => ?_).trans (map_id k)
    rw [if_neg (hne t (hk t ht)), id]
  rw [map_append, map_cons, if_pos rfl, hself l fun _ => mem_append_left _,
    hself m fun _ => mem_append_right _, logged_append, logged_append, logged_cons, logged_cons]
  by_cases hp : p s.name
  · simp only [hp, if_true, ← Multiset.coe_add]
    abel
  · simp only [hp, if_false]
    abel

/-- The writer moved on to `w'` and logged `rows` in a segment a write may go to. -/
structure Logs (w w' : SegmentWriter R) (rows : List R) : Prop extends Moves w w' where
  logged : ∃ n, w.Target n ∧ ∀ (p : Name → Prop) [DecidablePred p],
    logged p w'.segments = logged p w.segments + if p n then (rows : Multiset R) else 0

theorem Prepares.logs (h : w.Prepares w') : w.Logs w' [] := { h with
  logged :=
    ⟨⟨w.seq + 1, w.epoch⟩, .inr ⟨rfl, Nat.lt_succ_self _⟩, fun p _ => by simp [h.logged p]⟩ }

theorem Prepares.logs_logRows (h : w.Prepares w') (hn : w'.file = some n)
    (rows : List R) (bytes : ℕ) : w.Logs (w'.logRows rows bytes) rows := by
  have hwf := h.wellFormed
  have hname : ∀ s : Segment R,
      (if w'.file = some s.name then { s with rows := s.rows ++ rows } else s).name = s.name := by
    intro s
    split <;> rfl
  have hback : ∀ t ∈ (w'.logRows rows bytes).segments, ∃ s ∈ w'.segments, s.name = t.name := by
    intro t ht
    obtain ⟨s, hs, rfl⟩ := mem_map.mp ht
    exact ⟨s, hs, (hname s).symm⟩
  exact { h with
    wellFormed := {
      ascending := pairwise_map.mpr (hwf.ascending.imp fun {a b} hab => by
        rw [hname a, hname b]
        exact hab)
      numbered := fun t ht => by
        obtain ⟨s, hs, hst⟩ := hback t ht
        rw [← hst]
        exact hwf.numbered s hs
      file := fun m hm => by
        obtain ⟨hseq, s, hs, hsm⟩ := hwf.file m hm
        exact ⟨hseq, _, mem_map_of_mem hs, (hname s).trans hsm⟩ }
    names := fun t ht => by
      obtain ⟨s, hs, rfl⟩ := mem_map.mp ht
      by_cases hfile : w'.file = some s.name
      · rw [hname s]
        exact .inr (h.target _ (.inl hfile))
      · rw [if_neg hfile]
        exact h.names s hs
    logged := ⟨n, h.target n (.inl hn), fun p _ => by
      rw [← h.logged p, ← logged_map_rows rows hwf.ascending (hwf.file n hn).2 p]
      simp only [logRows, hn]⟩ }

/-- The rows a framed write leaves in the log. -/
def WriteResult.kept (r : WriteResult) (rows : List R) : List R :=
  if r = .refused then [] else rows

/-- **What a framed write does**, whichever way it ends. -/
theorem writeFrames_logs (rows : List R) (bytes : ℕ) (hw : w.WellFormed) :
    w.Logs (w.writeFrames fault rows bytes).2
      (WriteResult.kept (w.writeFrames fault rows bytes).1 rows) := by
  have hp := prepare_prepares fault hw
  unfold writeFrames
  by_cases hrows : rows = []
  · rw [if_pos hrows, hrows]
    exact (Prepares.refl hw).logs
  rw [if_neg hrows]
  cases hprep : w.prepare fault with
  | mk ok w' =>
    rw [hprep] at hp
    cases ok with
    | false => exact hp.logs
    | true =>
      have hok : (w.prepare fault).1 = true := by rw [hprep]
      obtain ⟨n, hn⟩ := file_prepare hok
      rw [hprep] at hn
      have hlog := hp.logs_logRows hn rows bytes
      cases fault with
      | none => exact hlog
      | some f =>
        cases f with
        | write => exact hp.logs
        | _ => exact hlog

/-- A checkpoint, wherever it stops: only segments numbered through `obsolete` leave. -/
structure Discards (obsolete : ℕ) (w w' : SegmentWriter R) : Prop where
  wellFormed : w'.WellFormed
  epoch : w'.epoch = w.epoch
  seq : w'.seq = w.seq
  file : ∀ n, w'.file = some n → w.file = some n
  sublist : w'.segments.Sublist w.segments
  kept : ∀ s ∈ w.segments, obsolete < s.name.seq → s ∈ w'.segments

end SegmentWriter

theorem removeThrough_sublist (obsolete n : ℕ) (segs : List (Segment R)) :
    (removeThrough obsolete n segs).Sublist segs := by
  fun_induction removeThrough obsolete n segs with
  | case1 => exact .refl _
  | case2 => exact .refl _
  | case3 n s segs hle ih => exact ih.cons s
  | case4 n s segs hlt ih => exact ih.cons_cons s

theorem mem_removeThrough {s : Segment R} (hlt : obsolete < s.name.seq) (n : ℕ)
    (segs : List (Segment R)) (hs : s ∈ segs) : s ∈ removeThrough obsolete n segs := by
  fun_induction removeThrough obsolete n segs with
  | case1 => exact hs
  | case2 => exact hs
  | case3 n t segs hle ih =>
    rcases mem_cons.mp hs with rfl | hs
    · omega
    · exact ih hs
  | case4 n t segs hlt' ih =>
    rcases mem_cons.mp hs with rfl | hs
    · exact mem_cons_self
    · exact mem_cons_of_mem _ (ih hs)

namespace SegmentWriter

variable {w : SegmentWriter R} {segs : List (Segment R)}

theorem discards_of_sublist (hw : w.WellFormed) (hsub : segs.Sublist w.segments)
    (hkept : ∀ s ∈ w.segments, obsolete < s.name.seq → s ∈ segs)
    (hopen : w.file = none ∨ obsolete < w.seq) :
    w.Discards obsolete { w with segments := segs } where
  wellFormed := {
    ascending := hw.ascending.sublist hsub
    numbered := fun s hs => hw.numbered s (hsub.subset hs)
    file := fun n hn => by
      obtain ⟨hseq, s, hs, hsn⟩ := hw.file n hn
      refine ⟨hseq, s, hkept s hs ?_, hsn⟩
      rcases hopen with hnone | hlt
      · cases hnone.symm.trans hn
      · rw [hsn, hseq]
        exact hlt }
  epoch := rfl
  seq := rfl
  file _ hn := hn
  sublist := hsub
  kept := hkept

theorem checkpointThrough_discards (fault : Option CheckpointFault) (obsolete : ℕ)
    (hw : w.WellFormed) :
    w.Discards obsolete (w.checkpointThrough fault obsolete) := by
  -- The open segment is numbered past `obsolete`, or the checkpoint closes it first.
  have key : ∀ w₁ : SegmentWriter R, w.Discards obsolete w₁ → (w₁.file = none ∨ obsolete < w₁.seq) →
      ∀ segs : List (Segment R), segs.Sublist w₁.segments →
      (∀ s ∈ w₁.segments, obsolete < s.name.seq → s ∈ segs) →
      w.Discards obsolete { w₁ with segments := segs } := by
    intro w₁ h₁ hopen segs hsub hkept
    have h₂ := discards_of_sublist h₁.wellFormed hsub hkept hopen
    exact ⟨h₂.wellFormed, h₁.epoch, h₁.seq, h₁.file, hsub.trans h₁.sublist,
      fun s hs hlt => hkept s (h₁.kept s hs hlt) hlt⟩
  have hfirst : w.Discards obsolete (if w.seq ≤ obsolete then w.closeSegment else w) ∧
      ((if w.seq ≤ obsolete then w.closeSegment else w).file = none ∨
        obsolete < (if w.seq ≤ obsolete then w.closeSegment else w).seq) := by
    split_ifs with hle
    · exact ⟨⟨(closeSegment_prepares hw).wellFormed, rfl, rfl, nofun, .refl _, fun _ h _ => h⟩,
        .inl rfl⟩
    · exact ⟨⟨hw, rfl, rfl, fun _ h => h, .refl _, fun _ h _ => h⟩, .inr (not_le.mp hle)⟩
  obtain ⟨h₁, hopen⟩ := hfirst
  have hfilter := key _ h₁ hopen _ filter_sublist
    fun s hs hlt => mem_filter.mpr ⟨hs, decide_eq_true hlt⟩
  unfold checkpointThrough
  cases fault with
  | none => exact hfilter
  | some f =>
    cases f with
    | close | readDir => exact h₁
    | remove n =>
      exact key _ h₁ hopen _ (removeThrough_sublist obsolete n _)
        fun s hs hlt => mem_removeThrough hlt n _ hs
    | syncDir => exact hfilter

theorem Discards.logged_eq {w' : SegmentWriter R} (h : w.Discards obsolete w') (hw : w.WellFormed)
    {p : Name → Prop} [DecidablePred p] (hp : ∀ s ∈ w.segments, p s.name → obsolete < s.name.seq) :
    Wal.logged p w'.segments = Wal.logged p w.segments := by
  have hnodup : w.segments.Nodup := hw.ascending.imp fun hab heq => by
    rw [heq] at hab
    exact lt_irrefl _ hab
  have hsub : w.segments.filter (fun s => p s.name) ⊆ w'.segments.filter fun s => p s.name := by
    intro s hs
    obtain ⟨hs, hps⟩ := mem_filter.mp hs
    exact mem_filter.mpr ⟨h.kept s hs (hp s hs (of_decide_eq_true hps)), hps⟩
  have hlen := (subperm_of_subset (hnodup.filter _) hsub).length_le
  rw [Wal.logged, Wal.logged, (h.sublist.filter _).eq_of_length_le hlen]

theorem create_wellFormed (maxBytes : ℕ) (hasc : segs.Pairwise fun a b => a.name.seq < b.name.seq) :
    (create maxBytes segs).WellFormed where
  ascending := hasc
  numbered := ((Fibers.foldl_sup_le_iff (fun s : Segment R => s.name.seq) segs).mp le_rfl).2
  file _ h := nomatch h

end SegmentWriter

end OtelStorage.Wal
