import OtelStorage.BucketIndex.Plan

/-!
# The bucket index

The index of a shard is one object: its parts, its writers' flush watermarks, the tombstones of the
parts taken out, the parts owed, and the marks that only ever rise.  Each list is kept sorted by a
key with one element a key, so adding to it is `insertBy`.

Two of the trims sort by generation, newest first, and generations tie: which of the tied elements
a trim keeps is up to the sort, so the trims take the sort as an argument.
-/

namespace OtelStorage.BucketIndex

open Delimited SortedList

/-! ## Generations -/

/-- Index states in order: the term they were committed under and a counter within it. -/
structure Generation where
  term : UInt64
  counter : UInt64
  deriving DecidableEq, Repr, Inhabited

namespace Generation

/-- Generations order by term, then counter. -/
def compare (g o : Generation) : Ordering :=
  if g.term ≠ o.term then (if o.term < g.term then .gt else .lt)
  else if g.counter ≠ o.counter then (if o.counter < g.counter then .gt else .lt)
  else .eq

/-- The generation of the next commit under `term`: a later term starts its own count. -/
def next (g : Generation) (term : UInt64) : Generation :=
  if g.term < term then ⟨term, 1⟩ else ⟨g.term, g.counter + 1⟩

/-- The next commit under `term` starts a count, or goes on with one not at its end. -/
def NoWrap (g : Generation) (term : UInt64) : Prop := g.term < term ∨ g.counter.toNat + 1 < 2 ^ 64

/-- The place of a generation in their order. -/
def key (g : Generation) : ℕ := g.term.toNat * 2 ^ 64 + g.counter.toNat

theorem key_injective : Function.Injective key := by
  rintro ⟨gt, gc⟩ ⟨ot, oc⟩ h
  have hg := gc.toNat_lt
  have ho := oc.toNat_lt
  simp only [key] at h
  rw [mk.injEq, ← UInt64.toNat_inj, ← UInt64.toNat_inj]
  omega

instance : LinearOrder Generation := LinearOrder.lift' key key_injective

variable {g o : Generation}

theorem lt_iff_toNat : g < o ↔ g.term.toNat < o.term.toNat ∨
    (g.term.toNat = o.term.toNat ∧ g.counter.toNat < o.counter.toNat) := by
  have hg := g.counter.toNat_lt
  have ho := o.counter.toNat_lt
  show g.key < o.key ↔ _
  simp only [key]
  omega

theorem term_le_of_le (h : g ≤ o) : g.term ≤ o.term := by
  rw [← not_lt, lt_iff_toNat] at h
  rw [UInt64.le_iff_toNat_le]
  omega

theorem compare_eq_gt_iff : g.compare o = .gt ↔ o < g := by
  rw [lt_iff_toNat, compare, ← UInt64.lt_iff_toNat_lt, ← UInt64.lt_iff_toNat_lt, UInt64.toNat_inj]
  by_cases ht : g.term = o.term
  · by_cases hc : g.counter = o.counter
    · simp [ht, hc]
    · simp [ht, hc]
  · simp [ht, Ne.symm ht]

theorem lt_next {term : UInt64} (h : g.NoWrap term) : g < g.next term := by
  rw [lt_iff_toNat, next]
  split
  · next hlt => exact .inl (UInt64.lt_iff_toNat_lt.mp hlt)
  · next hlt =>
    refine .inr ⟨rfl, ?_⟩
    rw [UInt64.toNat_add, UInt64.toNat_one, Nat.mod_eq_of_lt (h.resolve_left hlt)]
    exact Nat.lt_succ_self _

theorem term_le_next (g : Generation) (term : UInt64) :
    g.term ≤ (g.next term).term ∧ term ≤ (g.next term).term := by
  rw [next]
  split
  · next h => exact ⟨UInt64.le_of_lt h, UInt64.le_refl term⟩
  · next h => exact ⟨UInt64.le_refl _, UInt64.not_lt.mp h⟩

end Generation

/-! ## The lists of an index -/

/-- A part deliberately taken out, and the generation it was taken out at. -/
structure Removal where
  pref : Bytes
  generation : Generation
  deriving DecidableEq, Repr

/-- A named writer's flush watermark, and the generation it was last written at. -/
structure WriterEpoch where
  writer : Bytes
  epoch : UInt64
  generation : Generation
  deriving DecidableEq, Repr

/-- A part owed: its identity, and the generation the obligation was recorded at. -/
structure Want where
  pref : Bytes
  blocks : Interval
  claim : Claim
  level : UInt32
  term : UInt64
  minTime : Int64
  maxTime : Int64
  generation : Generation
  deriving DecidableEq, Repr

/-- The want for a part that is owed. -/
def wantOf (e : Entry) (g : Generation) : Want :=
  ⟨e.pref, e.blocks, e.claim, e.level, e.term, e.minTime, e.maxTime, g⟩

/-- The part a want asks for. -/
def Want.entry (w : Want) : Entry :=
  ⟨w.pref, w.minTime, w.maxTime, w.blocks, w.level, w.claim, w.term, none, false⟩

/-- The hole standing for the part a want owes. -/
def Want.holeEntry (w : Want) : Entry := { w.entry with hole := true }

/-- The index of a bucket. -/
structure Index where
  entries : List Entry := []
  flushedEpoch : UInt64 := 0
  generation : Generation := default
  removed : List Removal := []
  epochs : List WriterEpoch := []
  wanted : List Want := []
  lostParts : UInt64 := 0
  allocatedBlocks : Block := ⟨0, 0⟩
  catalog : List Claim := []
  deriving DecidableEq, Repr

/-- The empty index. -/
instance : Inhabited Index := ⟨{}⟩

/-- How many tombstones an index keeps. -/
def maxRemovals : ℕ := 4096
/-- How many watermarks it keeps. -/
def maxWriters : ℕ := 64
/-- How many catalogued claims it keeps. -/
def maxLineage : ℕ := maxRemovals

namespace Index

variable (ix : Index) (writer : Bytes)

/-- Add an entry, replacing the one with its prefix. -/
def add (e : Entry) : Index := { ix with entries := insertBy Entry.pref e ix.entries }

/-- Owe a part. -/
def recordWant (w : Want) : Index :=
  { ix with wanted := insertBy Want.pref w ix.wanted }

/-- Owe it no more. -/
def satisfyWant (pref : Bytes) : Index :=
  { ix with wanted := ix.wanted.filter fun w => w.pref ≠ pref }

/-- Acknowledge that the part `w` names is lost: a hole in its place, and one more lost part. -/
def recordHole (w : Want) : Index :=
  let ix := (ix.add w.holeEntry).satisfyWant w.pref
  { ix with lostParts := ix.lostParts + 1 }

/-- The holes of the index. -/
def holes : List Entry := ix.entries.filter fun e => e.hole

/-- A writer's watermark; the anonymous writer has a slot of its own. -/
def writerEpoch : UInt64 :=
  if writer = [] then ix.flushedEpoch
  else ((ix.epochs.find? fun w => w.writer = writer).map WriterEpoch.epoch).getD 0

/-- Set a writer's watermark. -/
def setWriterEpoch (epoch : UInt64) (gen : Generation) : Index :=
  if writer = [] then { ix with flushedEpoch := epoch }
  else { ix with epochs := insertBy WriterEpoch.writer ⟨writer, epoch, gen⟩ ix.epochs }

/-- The highest block the index names: the mark, and every valid identity and group. -/
def topBlock : Block :=
  let bump (top : Block) (iv : Interval) := if iv.valid then maxBlock top iv.max else top
  let top := ix.entries.foldl (fun top e => bump (bump top e.blocks) e.claim.group)
    ix.allocatedBlocks
  ix.wanted.foldl (fun top w => bump (bump top w.blocks) w.claim.group) top

/-- The block the next part committed under `term` takes: the first of a later term, or the one
above the highest. -/
def nextBlock (term : UInt64) : Block :=
  if ix.topBlock.term < term then ⟨term, 1⟩ else ⟨ix.topBlock.term, ix.topBlock.n + 1⟩

end Index

/-! ### Folds of updates -/

theorem foldl_add (es : List Entry) (ix : Index) :
    es.foldl Index.add ix = { ix with entries := insertAll Entry.pref ix.entries es } := by
  induction es generalizing ix with
  | nil => rfl
  | cons e es ih =>
    rw [List.foldl_cons, ih]
    rfl

theorem foldl_recordWant (f : Want → Want) (ws : List Want) (ix : Index) :
    ws.foldl (fun ix w => ix.recordWant (f w)) ix =
      { ix with wanted := insertAll Want.pref ix.wanted (ws.map f) } := by
  induction ws generalizing ix with
  | nil => rfl
  | cons w ws ih =>
    rw [List.foldl_cons, ih]
    rfl

theorem foldl_recordHole (ws : List Want) (ix : Index) :
    ∃ wanted, ws.foldl Index.recordHole ix = { ix with
      entries := insertAll Entry.pref ix.entries (ws.map Want.holeEntry)
      wanted := wanted
      lostParts := ix.lostParts + UInt64.ofNat ws.length } := by
  induction ws generalizing ix with
  | nil =>
    refine ⟨ix.wanted, ?_⟩
    rw [List.length_nil, show UInt64.ofNat 0 = 0 from rfl, UInt64.add_zero]
    rfl
  | cons w ws ih =>
    obtain ⟨wanted, h⟩ := ih (ix.recordHole w)
    refine ⟨wanted, ?_⟩
    rw [List.foldl_cons, h, List.length_cons, Nat.add_comm ws.length, UInt64.ofNat_add,
      ← UInt64.add_assoc]
    rfl

/-! ## Bounded lists -/

/-- Newest generation first. -/
def newestFirst (a b : Removal) : Prop := b.generation ≤ a.generation

/-- The writer itself first, then newest generation first. -/
def writersFirst (self : Bytes) (a b : WriterEpoch) : Prop :=
  a.writer = self ∨ (b.writer ≠ self ∧ b.generation ≤ a.generation)

instance : DecidableRel newestFirst := fun a b =>
  inferInstanceAs (Decidable (b.generation ≤ a.generation))

instance (self : Bytes) : DecidableRel (writersFirst self) := fun _ _ =>
  inferInstanceAs (Decidable (_ ∨ _))

instance : Std.Total newestFirst := ⟨fun a b => le_total b.generation a.generation⟩

instance : IsTrans Removal newestFirst := ⟨fun _ _ _ hab hbc => hbc.trans hab⟩

instance (self : Bytes) : Std.Total (writersFirst self) := by
  refine ⟨fun a b => ?_⟩
  by_cases ha : a.writer = self
  · exact .inl (.inl ha)
  by_cases hb : b.writer = self
  · exact .inr (.inl hb)
  rcases le_total b.generation a.generation with h | h
  · exact .inl (.inr ⟨hb, h⟩)
  · exact .inr (.inr ⟨ha, h⟩)

instance (self : Bytes) : IsTrans WriterEpoch (writersFirst self) := by
  refine ⟨fun a b c hab hbc => ?_⟩
  rcases hab with ha | ⟨hb, hba⟩
  · exact .inl ha
  rcases hbc with hb' | ⟨hc, hcb⟩
  · exact absurd hb' hb
  · exact .inr ⟨hc, hcb.trans hba⟩

/-- The sorts whose ties the source leaves open. -/
structure Sorts where
  removals : SortFunc Removal newestFirst
  writers : ∀ self, SortFunc WriterEpoch (writersFirst self)

/-- The stable sorts are among them. -/
def Sorts.stable : Sorts := ⟨.insertion newestFirst, fun self => .insertion (writersFirst self)⟩

/-- Tombstones by prefix. -/
def removalLE (a b : Removal) : Prop := a.pref ≤ b.pref

instance : DecidableRel removalLE := fun a b => inferInstanceAs (Decidable (a.pref ≤ b.pref))

/-- Drop the tombstones of parts that are live again, and all but the `keep` newest of the rest. -/
def trimRemovals (sort : SortFunc Removal newestFirst) (removals : List Removal)
    (live : List Bytes) (keep : ℕ) : List Removal :=
  let out := removals.filter fun r => !live.contains r.pref
  let out := if keep < out.length then (sort.sort out).take keep else out
  out.insertionSort removalLE

/-- Watermarks by writer. -/
def writerLE (a b : WriterEpoch) : Prop := a.writer ≤ b.writer

instance : DecidableRel writerLE := fun a b => inferInstanceAs (Decidable (a.writer ≤ b.writer))

/-- Keep `keep` watermarks, the writer's own and then the newest. -/
def trimWriters (sort : ∀ self, SortFunc WriterEpoch (writersFirst self))
    (epochs : List WriterEpoch) (self : Bytes) (keep : ℕ) : List WriterEpoch :=
  if epochs.length ≤ keep then epochs
  else (((sort self).sort epochs).take keep).insertionSort writerLE

/-! ## The tenure fence -/

/-- Why a commit of a clustered writer is refused. -/
inductive Superseded where
  | noClaim
  | claimMoved
  | indexAhead
  deriving DecidableEq, Repr

/-- An operation stamped with a term may commit while the claim is still that term and the index was
committed under no later one. -/
def checkTenure (stamped current indexed : UInt64) : Except Superseded Unit :=
  if current = 0 then .error .noClaim
  else if stamped ≠ current then .error .claimMoved
  else if current < indexed then .error .indexAhead
  else .ok ()

theorem checkTenure_eq_ok_iff (stamped current indexed : UInt64) :
    checkTenure stamped current indexed = .ok () ↔
      stamped ≠ 0 ∧ current = stamped ∧ indexed ≤ stamped := by
  unfold checkTenure
  by_cases h0 : current = 0
  · simp only [h0, if_true, reduceCtorEq, false_iff]
    rintro ⟨hne, heq, -⟩
    exact hne heq.symm
  by_cases hs : stamped = current
  · by_cases hi : current < indexed
    · simp [h0, hs, hi]
    · simp [h0, hs, hi, UInt64.not_lt.mp hi]
  · simp [h0, hs, Ne.symm hs]

end OtelStorage.BucketIndex
