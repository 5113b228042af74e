import OtelStorage.Foundation.Delimited
import OtelStorage.Foundation.Fibers
import OtelStorage.Wal.Segments

/-!
# The segments of a log when writes fail

A write of bytes can fail after some of them landed.  Bytes written behind those would turn a tail
that recovery drops into damage in the middle of the log, so the writer *heals* first: it replaces
the torn segment by its whole frames and goes on in a new one, and until that succeeds it refuses to
write anything.  Healing itself can fail at every file operation it makes.

The model keeps the directory as files with their bytes.  Beside it stands what happened so far: the
bytes of every record whose write succeeded, with the segment it went to, the bytes of the writes
that failed, and the segments that checkpoints removed.  `trail` lists the directory after each
change, newest first, so that a statement about the trail is one about every point in time, also
between the file operations of one call.

Each call takes the faults it meets as an argument.  Temporary files are left out: their names are
not those of segments, and a leftover one is overwritten.
-/

namespace OtelStorage.Wal
namespace Torn

open Delimited

/-- A segment file. -/
structure File where
  name : Name
  content : Bytes
  deriving DecidableEq

/-- The segments an earlier writer left, in the order of their numbers. -/
structure Segments where
  files : List File
  ascending : Fibers.Strict (fun f : File => f.name.seq) files

/-- The directory and what happened to it. -/
structure Disk where
  files : List File
  log : List (ℕ × Bytes)
  failed : List Bytes
  discarded : List ℕ
  deriving DecidableEq

/-- The writer.  `file` is the open segment; `torn` the segment a failed write may have left bytes
in, and the length of its whole frames. -/
structure Writer where
  maxBytes : ℕ
  seq : ℕ
  epoch : ℕ
  file : Option Name
  size : ℕ
  kept : List (ℕ × ℕ)
  keptSize : ℕ
  sync : Bool
  torn : Option (Name × ℕ)
  rotateSyncErr : Bool
  disk : Disk
  trail : List Disk

/-! ## Faults -/

/-- Where healing can fail: reading the torn segment, writing its replacement, renaming it, syncing
the directory. -/
structure HealFault where
  read : Bool
  replace : Bool
  rename : Bool
  syncDir : Bool
  deriving Inhabited

/-- Where preparing a write can fail besides healing: closing a full segment, creating the next one,
syncing the directory. -/
structure PrepareFault where
  heal : HealFault
  close : Bool
  create : Bool
  syncDir : Bool
  deriving Inhabited

/-- Where a write can fail: preparing, which is done twice; the write itself, after `landed` bytes;
and the sync after it. -/
structure WriteFault where
  prepare : PrepareFault
  prepareAgain : PrepareFault
  landed : Option ℕ
  heal : HealFault
  sync : Bool
  deriving Inhabited

/-- Where sealing can fail. -/
structure SealFault where
  heal : HealFault
  close : Bool
  deriving Inhabited

/-- Where a sync can fail. -/
structure SyncFault where
  heal : HealFault
  sync : Bool
  deriving Inhabited

/-- Where a checkpoint can stop: closing the open segment, listing the directory, at a removal after
`remove` others, syncing the directory. -/
structure CheckpointFault where
  close : Bool
  readDir : Bool
  remove : Option ℕ
  syncDir : Bool
  deriving Inhabited

/-! ## The directory -/

namespace Disk

/-- What a file holds. -/
def content (d : Disk) (n : Name) : Option Bytes :=
  (d.files.find? fun f => f.name = n).map File.content

/-- The content of the file named `n` changed by `g`. -/
def update (d : Disk) (n : Name) (g : Bytes → Bytes) : Disk :=
  { d with files := d.files.map fun f => if f.name = n then ⟨f.name, g f.content⟩ else f }

/-- A new, empty file. -/
def add (d : Disk) (n : Name) : Disk := { d with files := d.files ++ [⟨n, []⟩] }

/-- A checkpoint removed the segment numbered `n`. -/
def remove (d : Disk) (n : ℕ) : Disk :=
  { d with files := d.files.filter fun f => f.name.seq ≠ n, discarded := d.discarded ++ [n] }

end Disk

/-! ## The writer -/

namespace Writer

/-- The directory changed. -/
def touch (w : Writer) (d : Disk) : Writer := { w with disk := d, trail := d :: w.trail }

/-- The size at which a segment is full, unless set. -/
def defaultMaxSegmentBytes : ℕ := 32 * 2 ^ 20

/-- Open a directory that holds the segments `prior`.  Their bytes count as written. -/
def create (maxBytes : ℕ) (prior : Segments) : Writer :=
  let d : Disk := ⟨prior.files, prior.files.map fun f => (f.name.seq, f.content), [], []⟩
  { maxBytes := if maxBytes = 0 then defaultMaxSegmentBytes else maxBytes
    seq := prior.files.foldl (fun last f => max last f.name.seq) 0
    epoch := 1
    file := none
    size := 0
    kept := prior.files.map fun f => (f.name.seq, f.content.length)
    keptSize := (prior.files.map fun f => f.content.length).sum
    sync := false
    torn := none
    rotateSyncErr := false
    disk := d
    trail := [d] }

/-- How many segment files there are, by the writer's own account. -/
def segments (w : Writer) : ℕ := w.kept.length + if w.file.isSome then 1 else 0

/-- How many bytes the segment files hold, by the writer's own account. -/
def bytes (w : Writer) : ℕ := if w.file.isSome then w.keptSize + w.size else w.keptSize

/-- Count a closed segment. -/
def keep (w : Writer) (k : ℕ × ℕ) : Writer :=
  { w with kept := w.kept ++ [k], keptSize := w.keptSize + k.2 }

/-- Drop the first kept segment numbered `seq`, if there is one. -/
def forget (w : Writer) (seq : ℕ) : Writer :=
  match w.kept.find? fun k => k.1 = seq with
  | none => w
  | some k => { w with kept := w.kept.eraseP fun k => k.1 = seq, keptSize := w.keptSize - k.2 }

/-- The last part of healing: the directory is synced before the tear is forgotten. -/
def healed (x : HealFault) (w : Writer) : Bool × Writer :=
  if x.syncDir then (false, w) else (true, { w with torn := none })

/-- Restore the torn segment to its whole frames.  A segment a checkpoint removed needs nothing, nor
does one the failed write left no byte in.  The open file is let go before the rename. -/
def heal (x : HealFault) (w : Writer) : Bool × Writer :=
  match w.torn with
  | none => (true, w)
  | some (name, good) =>
      if x.read then (false, w)
      else match w.disk.content name with
        | none => healed x w
        | some data =>
            if good < data.length then
              if x.replace then (false, w)
              else if x.rename then (false, { w with file := none })
              else healed x ({ w with file := none }.touch (w.disk.update name (List.take good)))
            else healed x w

/-- Close the open segment. -/
def closeSegment (fail : Bool) (w : Writer) : Bool × Writer :=
  match w.file with
  | none => (true, w)
  | some _ => (!fail, { w.keep (w.seq, w.size) with file := none })

/-- The next number is used up even when the file cannot be created. -/
def openNext (x : PrepareFault) (w : Writer) : Bool × Writer :=
  let w := { w with seq := w.seq + 1 }
  let name : Name := ⟨w.seq, w.epoch⟩
  if x.create then (false, w)
  else
    let w := w.touch (w.disk.add name)
    if x.syncDir then (false, w) else (true, { w with file := some name, size := 0 })

/-- Close the segment and open the next. -/
def rotate (x : PrepareFault) (w : Writer) : Bool × Writer :=
  match w.closeSegment x.close with
  | (false, w) => (false, { w with rotateSyncErr := true })
  | (true, w) => w.openNext x

/-- Healing comes first: the next segment must not be opened behind a torn one. -/
def prepare (x : PrepareFault) (w : Writer) : Bool × Writer :=
  match w.heal x.heal with
  | (false, w) => (false, w)
  | (true, w) =>
      if w.file = none then w.openNext x
      else if w.maxBytes ≤ w.size then w.rotate x
      else (true, w)

/-- The bytes `p` went to the open segment `n` whole. -/
def landWhole (w : Writer) (n : Name) (p : Bytes) : Writer :=
  { w with size := w.size + p.length }.touch
    { w.disk.update n (· ++ p) with log := w.disk.log ++ [(n.seq, p)] }

/-- The first `k` of the bytes `p` went to the open segment `n` and the write failed. -/
def landPart (w : Writer) (n : Name) (k : ℕ) (p : Bytes) : Writer :=
  { w with torn := some (n, w.size) }.touch
    { w.disk.update n (· ++ p.take k) with failed := w.disk.failed ++ [p] }

/-- `Write`: append the bytes to the current segment.  A failed write is healed at once, if it can
be. -/
def write (x : WriteFault) (p : Bytes) (w : Writer) : Bool × Writer :=
  match w.prepare x.prepareAgain with
  | (false, w) => (false, w)
  | (true, w) =>
      match w.file with
      | none => (false, w)
      | some n =>
          match x.landed with
          | none => (true, w.landWhole n p)
          | some k => (false, ((w.landPart n k p).heal x.heal).2)

/-- `WriteSeries` and the other writes of one record, given its frame. -/
def writeRecord (x : WriteFault) (p : Bytes) (w : Writer) : Bool × Writer :=
  match w.prepare x.prepare with
  | (false, w) => (false, w)
  | (true, w) =>
      match w.write x p with
      | (false, w) => (false, w)
      | (true, w) => (!(w.sync && x.sync), w)

/-- Answer a failed sync of a rotation, once. -/
def takeRotateSyncErr (w : Writer) : Bool × Writer :=
  (!w.rotateSyncErr, { w with rotateSyncErr := false })

/-- `Seal`: close the current segment and stamp later ones with `epoch`. -/
def sealThrough (x : SealFault) (epoch : ℕ) (w : Writer) : Option ℕ × Writer :=
  match w.heal x.heal with
  | (false, w) => (none, w)
  | (true, w) =>
      match w.closeSegment x.close with
      | (false, w) => (none, w)
      | (true, w) =>
          match w.takeRotateSyncErr with
          | (false, w) => (none, w)
          | (true, w) => (some w.seq, { w with epoch := epoch })

/-- `Sync`. -/
def syncFile (x : SyncFault) (w : Writer) : Bool × Writer :=
  match w.heal x.heal with
  | (false, w) => (false, w)
  | (true, w) =>
      match w.takeRotateSyncErr with
      | (false, w) => (false, w)
      | (true, w) => (w.file.isNone || !x.sync, w)

/-- Remove the files numbered through `obsolete` among those listed, until a removal fails. -/
def removeThrough (obsolete : ℕ) : Option ℕ → List File → Writer → Bool × Writer
  | _, [], w => (true, w)
  | fail, f :: fs, w =>
      if f.name.seq ≤ obsolete then
        match fail with
        | some 0 => (false, w)
        | some (k + 1) =>
            removeThrough obsolete (some k) fs
              ((w.touch (w.disk.remove f.name.seq)).forget f.name.seq)
        | none =>
            removeThrough obsolete none fs ((w.touch (w.disk.remove f.name.seq)).forget f.name.seq)
      else removeThrough obsolete fail fs w

/-- The listing and the removals of a checkpoint. -/
def discardThrough (x : CheckpointFault) (obsolete : ℕ) (w : Writer) : Bool × Writer :=
  if x.readDir then (false, w)
  else match removeThrough obsolete x.remove w.disk.files w with
    | (false, w) => (false, w)
    | (true, w) => (!x.syncDir, w)

/-- `Checkpoint`: discard the segments numbered through `obsolete`. -/
def checkpointThrough (x : CheckpointFault) (obsolete : ℕ) (w : Writer) : Bool × Writer :=
  if w.seq ≤ obsolete then
    match w.closeSegment x.close with
    | (false, w) => (false, w)
    | (true, w) => w.discardThrough x obsolete
  else w.discardThrough x obsolete

end Writer

/-! ## Runs -/

/-- A call on the writer, with the faults it meets. -/
inductive Call
  | write (x : WriteFault) (p : Bytes)
  | sealThrough (x : SealFault) (epoch : ℕ)
  | sync (x : SyncFault)
  | checkpointThrough (x : CheckpointFault) (obsolete : ℕ)
  | setEpoch (epoch : ℕ)
  | setSync (on : Bool)

/-- The writer after a call. -/
def Call.run : Call → Writer → Writer
  | .write x p, w => (w.writeRecord x p).2
  | .sealThrough x epoch, w => (w.sealThrough x epoch).2
  | .sync x, w => (w.syncFile x).2
  | .checkpointThrough x obsolete, w => (w.checkpointThrough x obsolete).2
  | .setEpoch epoch, w => { w with epoch := epoch }
  | .setSync on, w => { w with sync := on }

/-- The writer after some calls. -/
def runAll (calls : List Call) (w : Writer) : Writer := calls.foldl (fun w c => c.run w) w

end Torn
end OtelStorage.Wal
