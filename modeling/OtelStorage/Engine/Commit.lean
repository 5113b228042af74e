import OtelStorage.BucketIndex.Relations

/-!
# Committing the bucket index

An engine commits by building the index it wants from what it holds in memory, and saving it on the
condition that the stored index still is the one it last saw.  `nextIndex` builds it, `landed` is
what the engine becomes when the save went through, `adoptIndex` rebases it on the index of a rival
that was faster, and `adoptLoad` replaces its state by the stored index.

Versions of the index object are hashes of its content.  Here they are the content itself, with
`none` for the object that does not exist.

Block numbers are taken while the index is built, per attempt.  They are written onto the parts only
by an attempt that lands, so building returns the parts as they would be published.
-/

namespace OtelStorage

open Delimited BucketIndex SortedList

/-- A part of an engine: what its index entry records, and the plan of an identity it awaits. -/
structure Part where
  pref : Bytes
  minTime : Int64
  maxTime : Int64
  blocks : Interval
  claim : Claim
  level : UInt32
  term : UInt64
  rollup : Option Rollup
  pending : Option Plan
  deriving DecidableEq, Repr

/-- The entry a part is published under. -/
def Part.entry (p : Part) : Entry :=
  ⟨p.pref, p.minTime, p.maxTime, p.blocks, p.level, p.claim, p.term, p.rollup, false⟩

/-- The handle of a part opened from its index entry. -/
def Part.ofEntry (e : Entry) : Part :=
  ⟨e.pref, e.minTime, e.maxTime, e.blocks, e.claim, e.level, e.term, e.rollup, none⟩

/-- What an engine keeps in memory for its commits. -/
structure Engine where
  writerID : Bytes
  parts : List Part
  foreign : List Entry
  indexed : List Bytes
  removals : List Removal
  holes : List Entry
  wants : List Want
  pendingWants : List Want
  adoptedWants : List Want
  pendingHoles : List Want
  generation : Generation
  epochs : List WriterEpoch
  anonEpoch : UInt64
  flushedEpoch : UInt64
  lostParts : UInt64
  allocated : Block
  catalog : List Claim
  indexVersion : Option Index
  established : UInt64

/-- A new engine, over an index it has not seen. -/
def Engine.new (writerID : Bytes) : Engine :=
  ⟨writerID, [], [], [], [], [], [], [], [], [], default, [], 0, 0, 0, ⟨0, 0⟩, [], none, 0⟩

namespace Engine

variable (e : Engine) (stored : Option Index)

/-- The first block an attempt may allocate: above the mark, the entries added so far, the holes,
the engine's own parts and all four lists of wants. -/
def nextBlock (added : List Entry) (parts : List Part) (term : UInt64) : Block :=
  let seed : Index := { (default : Index) with
    entries := added ++ e.holes ++ parts.map Part.entry
    wanted := e.wants ++ e.pendingWants ++ e.adoptedWants ++ e.pendingHoles
    allocatedBlocks := e.allocated }
  seed.nextBlock term

/-- Give every part that awaits an identity the one its plan and the allocator make. -/
def assignParts : Allocator → List Part → List Part × Allocator
  | a, [] => ([], a)
  | a, p :: ps =>
      match p.pending with
      | none => (p :: (assignParts a ps).1, (assignParts a ps).2)
      | some plan =>
          let ((blocks, claim), a') := a.assign plan
          let p' := { p with
            blocks := blocks, claim := claim, level := plan.level, term := a'.next.term
            pending := none }
          (p' :: (assignParts a' ps).1, (assignParts a' ps).2)

/-- The watermarks: the writer's own slot set to `epoch`, every other as the engine holds it. -/
def stampEpochs (epoch : UInt64) (gen : Generation) (sorts : Sorts) : Index :=
  let ix : Index := { (default : Index) with
    flushedEpoch := e.anonEpoch, epochs := e.epochs, generation := gen }
  let ix := ix.setWriterEpoch e.writerID epoch gen
  { ix with epochs := trimWriters sorts.writers ix.epochs e.writerID maxWriters }

/-- The entries of rivals first, then the engine's own parts under the identities allocated to
them, and the mark of that allocation. -/
def publishParts (ix : Index) (parts : List Part) (term : UInt64) :
    Index × List Part :=
  let ix := e.foreign.foldl Index.add ix
  let (published, alloc) := assignParts (newAllocator (e.nextBlock ix.entries parts term)) parts
  let ix := (published.map Part.entry).foldl Index.add ix
  ({ ix with allocatedBlocks := alloc.mark }, published)

/-- The holes no entry of the commit revokes, and the losses it acknowledges. -/
def publishHoles (ix : Index) : Index :=
  let trimmed := trimHoles e.holes ix.entries e.catalog
  let ix := trimmed.foldl Index.add { ix with lostParts := e.lostParts }
  e.pendingHoles.foldl Index.recordHole ix

/-- The wants of the last index, the pending and the adopted ones stated at this generation, less
the discharged ones. -/
def publishWants (ix : Index) (gen : Generation) : Index :=
  let ix := { ix with wanted := e.wants }
  let ix := (e.pendingWants ++ e.adoptedWants).foldl
    (fun ix w => ix.recordWant { w with generation := gen }) ix
  { ix with wanted := trimWants ix.wanted ix.entries e.catalog }

/-- The prefixes this commit publishes as the engine's own: its parts and its holes. -/
def livePrefixes (ix : Index) (parts : List Part) : List Bytes :=
  parts.map Part.pref ++ (trimHoles e.holes ix.entries e.catalog).map Entry.pref ++
    e.pendingHoles.map Want.pref

/-- What building an index yields: the candidate, the parts as it publishes them, and the engine
with the bookkeeping the next index is diffed against. -/
structure Attempt where
  index : Index
  published : List Part
  engine : Engine

/-- Build the index the engine wants committed.  The two terms are the claim as it is read for the
generation and, again, for the blocks. -/
def nextIndex (parts : List Part) (epoch : UInt64) (genTerm blockTerm : UInt64) (sorts : Sorts) :
    Attempt :=
  let gen := e.generation.next genTerm
  let ix₀ := e.stampEpochs epoch gen sorts
  let (ix₁, published) := e.publishParts ix₀ parts blockTerm
  let live := e.livePrefixes ix₁ parts
  -- what was indexed and is not any more was removed here
  let removals := trimRemovals sorts.removals
    (e.removals ++ (e.indexed.filter fun p => !(parts.map Part.pref).contains p).map fun p =>
      ⟨p, gen⟩) live maxRemovals
  let ix₂ := e.publishHoles ix₁
  let ix₃ := e.publishWants { ix₂ with removed := removals } gen
  let ix₄ := Index.recordLineage { ix₃ with catalog := e.catalog }
  ⟨ix₄, published, { e with
    generation := gen, epochs := ix₀.epochs, anonEpoch := ix₀.flushedEpoch
    removals := removals, indexed := live }⟩

/-- The engine once its attempt has landed: wants, holes, marks and catalog are the index's, and the
parts carry the identities it published. -/
def landed (a : Attempt) : Engine :=
  { a.engine with
    parts := a.published
    indexVersion := some a.index
    wants := a.index.wanted, pendingWants := [], adoptedWants := []
    holes := a.index.holes, lostParts := a.index.lostParts
    allocated := a.index.allocatedBlocks, catalog := a.index.catalog, pendingHoles := [] }

/-- The data entries of a committed index that the engine does not account for itself. -/
def foreignEntries (entries : List Entry) (indexed : List Bytes) (removals : List Removal)
    (wants : List Want) : List Entry :=
  entries.filter fun e => !e.hole && !indexed.contains e.pref &&
    !removals.any (fun r => r.pref == e.pref) && !wants.any (fun w => w.pref == e.pref)

/-- The holes of both, those of `other` in place of the ones with their prefix. -/
def mergeHoles (cur other : List Entry) : List Entry := insertAll Entry.pref cur other

/-- Rebase on the stored index. -/
def adoptIndex : Engine :=
  let ix := stored.getD default
  let wants := insertAll Want.pref e.wants ix.wanted
  { e with
    indexVersion := stored
    generation := if ix.generation.compare e.generation = .gt then ix.generation else e.generation
    epochs := ix.epochs, anonEpoch := ix.flushedEpoch
    wants := wants
    holes := mergeHoles e.holes ix.holes
    lostParts := max e.lostParts ix.lostParts
    allocated := maxBlock e.allocated ix.allocatedBlocks
    catalog := mergeLineage [e.catalog, ix.catalog]
    foreign := foreignEntries ix.entries e.indexed e.removals wants }

/-- The flushed parts whose commit never landed and that the loaded index does not name. -/
def carriedParts (ix : Index) : List Part :=
  e.parts.filter fun p => p.pending.isSome && !(ix.entries.map Entry.pref).contains p.pref

/-- Replace the engine's state by the stored index; `opens` says which of its parts can be opened,
the others become wants. -/
def adoptLoad (opens : Entry → Bool) : Engine :=
  let ix := stored.getD default
  let data := ix.entries.filter Entry.data
  let carried := e.carriedParts ix
  let flushed := ix.writerEpoch e.writerID
  { e with
    indexVersion := stored, foreign := []
    holes := ix.holes, lostParts := ix.lostParts, allocated := ix.allocatedBlocks
    catalog := ix.catalog
    parts := (data.filter opens).map Part.ofEntry ++ carried
    indexed := (data.filter opens).map Entry.pref
    flushedEpoch := if carried.isEmpty then flushed else max flushed e.flushedEpoch
    epochs := ix.epochs, anonEpoch := ix.flushedEpoch
    generation := ix.generation, removals := ix.removed
    wants := ix.wanted
    pendingWants := (data.filter fun d => !opens d).map fun d => wantOf d e.generation }

/-! ## What an attempt publishes -/

theorem map_pref_assignParts (a : Allocator) (parts : List Part) :
    (assignParts a parts).1.map Part.pref = parts.map Part.pref := by
  induction parts generalizing a with
  | nil => rfl
  | cons p ps ih =>
    cases hplan : p.pending with
    | none | some plan => simp only [assignParts, hplan, List.map_cons, ih]

section NextIndex

variable (parts : List Part) (epoch : UInt64) (genTerm blockTerm : UInt64) (sorts : Sorts)
  (gen : Generation)

/-- The allocator of an attempt, at its first free block. -/
def allocator : Allocator :=
  newAllocator (e.nextBlock (insertAll Entry.pref [] e.foreign) parts blockTerm)

/-- The data entries of an attempt: those of rivals, and the engine's own parts over them. -/
def partEntries : List Entry :=
  insertAll Entry.pref (insertAll Entry.pref [] e.foreign)
    ((assignParts (e.allocator parts blockTerm) parts).1.map Part.entry)

/-- The holes that survive an attempt's data entries. -/
def keptHoles : List Entry := trimHoles e.holes (e.partEntries parts blockTerm) e.catalog

/-- All the wants an attempt starts from. -/
def statedWants : List Want :=
  insertAll Want.pref e.wants
    ((e.pendingWants ++ e.adoptedWants).map fun w => { w with generation := gen })

theorem stampEpochs_eq : e.stampEpochs epoch gen sorts =
    { (default : Index) with
      flushedEpoch := (e.stampEpochs epoch gen sorts).flushedEpoch
      epochs := (e.stampEpochs epoch gen sorts).epochs
      generation := gen } := by
  simp only [stampEpochs, Index.setWriterEpoch]
  split <;> rfl

theorem publishParts_eq (ix : Index) (h : ix.entries = []) :
    e.publishParts ix parts blockTerm =
      ({ ix with
          entries := e.partEntries parts blockTerm
          allocatedBlocks := (assignParts (e.allocator parts blockTerm) parts).2.mark },
        (assignParts (e.allocator parts blockTerm) parts).1) := by
  simp only [publishParts, foldl_add, h, partEntries, allocator]

/-- The entries of an attempt: data, then the holes kept, then the losses acknowledged. -/
def allEntries : List Entry :=
  insertAll Entry.pref (insertAll Entry.pref (e.partEntries parts blockTerm)
    (e.keptHoles parts blockTerm)) (e.pendingHoles.map Want.holeEntry)

/-- The prefixes an attempt publishes as the engine's own. -/
def live : List Bytes :=
  parts.map Part.pref ++ (e.keptHoles parts blockTerm).map Entry.pref ++
    e.pendingHoles.map Want.pref

/-- The tombstones an attempt starts from: the engine's, and one for each prefix that was indexed
and is no part any more. -/
def statedRemovals : List Removal :=
  e.removals ++ (e.indexed.filter fun p => !(parts.map Part.pref).contains p).map fun p => ⟨p, gen⟩

/-- **The index an attempt builds**, field by field. -/
theorem nextIndex_index : (e.nextIndex parts epoch genTerm blockTerm sorts).index =
    Index.recordLineage
      { entries := e.allEntries parts blockTerm
        flushedEpoch := (e.stampEpochs epoch (e.generation.next genTerm) sorts).flushedEpoch
        generation := e.generation.next genTerm
        removed := trimRemovals sorts.removals (e.statedRemovals parts (e.generation.next genTerm))
          (e.live parts blockTerm) maxRemovals
        epochs := (e.stampEpochs epoch (e.generation.next genTerm) sorts).epochs
        wanted := trimWants (e.statedWants (e.generation.next genTerm))
          (e.allEntries parts blockTerm) e.catalog
        lostParts := e.lostParts + UInt64.ofNat e.pendingHoles.length
        allocatedBlocks := (assignParts (e.allocator parts blockTerm) parts).2.mark
        catalog := e.catalog } := by
  have hstamp := e.stampEpochs_eq epoch sorts (e.generation.next genTerm)
  have hempty : (e.stampEpochs epoch (e.generation.next genTerm) sorts).entries = [] := by
    rw [hstamp]
    rfl
  have hparts := e.publishParts_eq parts blockTerm _ hempty
  simp only [nextIndex, hparts, publishHoles, publishWants, foldl_add, foldl_recordWant]
  obtain ⟨wanted, hholes⟩ := foldl_recordHole e.pendingHoles
    { e.stampEpochs epoch (e.generation.next genTerm) sorts with
      entries := insertAll Entry.pref (e.partEntries parts blockTerm) (e.keptHoles parts blockTerm)
      lostParts := e.lostParts
      allocatedBlocks := (assignParts (e.allocator parts blockTerm) parts).2.mark }
  rw [keptHoles] at hholes
  rw [hholes]
  have hgen : (e.stampEpochs epoch (e.generation.next genTerm) sorts).generation =
      e.generation.next genTerm := by
    rw [hstamp]
  simp only [hgen, livePrefixes, statedWants, statedRemovals, allEntries, live, keptHoles]

theorem nextIndex_generation : (e.nextIndex parts epoch genTerm blockTerm sorts).index.generation =
    e.generation.next genTerm := by
  rw [nextIndex_index, recordLineage_eq]

theorem nextIndex_entries : (e.nextIndex parts epoch genTerm blockTerm sorts).index.entries =
    e.allEntries parts blockTerm := by
  rw [nextIndex_index, recordLineage_eq]

theorem nextIndex_wanted : (e.nextIndex parts epoch genTerm blockTerm sorts).index.wanted =
    trimWants (e.statedWants (e.generation.next genTerm)) (e.allEntries parts blockTerm)
      e.catalog := by
  rw [nextIndex_index, recordLineage_eq]

theorem nextIndex_lostParts : (e.nextIndex parts epoch genTerm blockTerm sorts).index.lostParts =
    e.lostParts + UInt64.ofNat e.pendingHoles.length := by
  rw [nextIndex_index, recordLineage_eq]

theorem nextIndex_epochs : (e.nextIndex parts epoch genTerm blockTerm sorts).index.epochs =
    (e.stampEpochs epoch (e.generation.next genTerm) sorts).epochs := by
  rw [nextIndex_index, recordLineage_eq]

theorem nextIndex_removed : (e.nextIndex parts epoch genTerm blockTerm sorts).index.removed =
    trimRemovals sorts.removals (e.statedRemovals parts (e.generation.next genTerm))
      (e.live parts blockTerm) maxRemovals := by
  rw [nextIndex_index, recordLineage_eq]

/-- The claims an attempt's catalog is made of. -/
def statedClaims (v : Index) : List Claim :=
  e.catalog ++ v.entries.map Entry.claim ++ v.wanted.map Want.claim

theorem nextIndex_catalog {v : Index}
    (hv : v = (e.nextIndex parts epoch genTerm blockTerm sorts).index) :
    v.catalog =
      (Index.trimCatalog { v with catalog := mergeLineage [e.statedClaims v] }).catalog := by
  rw [hv, nextIndex_index, statedClaims]
  exact recordLineage_catalog _

theorem nextIndex_allocatedBlocks :
    (e.nextIndex parts epoch genTerm blockTerm sorts).index.allocatedBlocks =
      (assignParts (e.allocator parts blockTerm) parts).2.mark := by
  rw [nextIndex_index, recordLineage_eq]

theorem nextIndex_published : (e.nextIndex parts epoch genTerm blockTerm sorts).published =
    (assignParts (e.allocator parts blockTerm) parts).1 := by
  have hempty : (e.stampEpochs epoch (e.generation.next genTerm) sorts).entries = [] := by
    rw [stampEpochs_eq]
    rfl
  simp only [nextIndex, e.publishParts_eq parts blockTerm _ hempty]

theorem nextIndex_engine : (e.nextIndex parts epoch genTerm blockTerm sorts).engine = { e with
    generation := e.generation.next genTerm
    epochs := (e.stampEpochs epoch (e.generation.next genTerm) sorts).epochs
    anonEpoch := (e.stampEpochs epoch (e.generation.next genTerm) sorts).flushedEpoch
    removals := trimRemovals sorts.removals (e.statedRemovals parts (e.generation.next genTerm))
      (e.live parts blockTerm) maxRemovals
    indexed := e.live parts blockTerm } := by
  have hempty : (e.stampEpochs epoch (e.generation.next genTerm) sorts).entries = [] := by
    rw [stampEpochs_eq]
    rfl
  simp only [nextIndex, e.publishParts_eq parts blockTerm _ hempty, livePrefixes, statedRemovals,
    live, keptHoles]

end NextIndex

/-- The generation of the index an engine last saw. -/
def seen : Generation := (e.indexVersion.getD default).generation

theorem le_adoptIndex_generation :
    (e.adoptIndex stored).seen ≤ (e.adoptIndex stored).generation ∧
      e.generation ≤ (e.adoptIndex stored).generation := by
  simp only [adoptIndex, seen]
  split
  · next h =>
    rw [Generation.compare_eq_gt_iff] at h
    exact ⟨le_rfl, le_of_lt h⟩
  · next h =>
    rw [Generation.compare_eq_gt_iff] at h
    exact ⟨not_lt.mp h, le_rfl⟩

end Engine
end OtelStorage
