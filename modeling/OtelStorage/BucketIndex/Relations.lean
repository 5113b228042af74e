import OtelStorage.BucketIndex.Catalog

/-!
# The relations of one index

Which part answers a want, and which part revokes a hole, are asked of one index over its lineage.
A single part answers when it has the wanted prefix, covers the wanted blocks or subsumes them.
Failing that the whole index may answer jointly: when the blocks its parts hold between them, with
the ancestry of every complete split group folded in, cover the want.

The trims of a commit are these questions asked of the entries the commit publishes: a want that is
discharged is dropped, and so is a hole that is revoked or answered.
-/

namespace OtelStorage.BucketIndex

open SortedList List

/-- `held` with the ancestry of every group whose members it holds, repeated, and the groups that
completes. -/
def realize (l : Lineage) (held : Interval) : Interval × (Fin l.length → Bool) :=
  if l.isEmpty then (held, fun _ => false)
  else close l held (buildIndex fun i => (l.get i).group)
    (fun c held => held.contains c.group) Claim.blocks

/-- The wider part, then the deeper, then the one first by name. -/
def betterSuccessor (a b : Entry) : Bool :=
  if a.blocks.len ≠ b.blocks.len then b.blocks.len < a.blocks.len
  else if a.level ≠ b.level then b.level < a.level
  else a.pref < b.pref

/-- The best successor of a list, the first of equals. -/
def bestSuccessor (es : List Entry) : Option Entry :=
  es.foldl (fun best e =>
    match best with
    | none => some e
    | some b => if betterSuccessor e b then some e else some b) none

/-- An index with the lineage its questions are answered over. -/
structure Relations where
  ix : Index
  l : Lineage

/-- The relations over the index's lineage and more claims. -/
def Index.relations (ix : Index) (extra : List Claim) : Relations :=
  ⟨ix, ix.lineage.withClaims extra⟩

namespace Relations

/-- Relations that also know the claim `c`. -/
def forClaim (rel : Relations) (c : Claim) : Relations :=
  if !c.valid then rel
  else if rel.l.any fun o => o.key == c.key then rel
  else rel.ix.relations (rel.l ++ [c])

/-- The blocks the admitted entries hold between them, complete groups folded in. -/
def covered (rel : Relations) (admits : Entry → Bool) : Interval :=
  let runs := (rel.ix.entries.filter fun e => admits e && e.blocks.valid).flatMap fun e =>
    e.blocks.runs
  (realize rel.l (Interval.fromRuns runs)).1

/-- Where the whole index covers the want, the best part descending from a split that supplies some
of its blocks. -/
def jointlySatisfying (rel : Relations) (w : Want) (admits : Entry → Bool) : Option Entry :=
  if !w.blocks.valid || !(rel.covered admits).contains w.blocks then none
  else bestSuccessor (rel.ix.entries.filter fun e =>
    admits e && e.blocks.valid &&
      (let l := (rel.forClaim e.claim).l
       (List.finRange l.length).any (ancestry l e.blocks).2 &&
         (ancestry l e.blocks).1.meets w.blocks))

/-- The entry that answers a want: the one with its prefix, else the best that contains or subsumes
it, else one of a joint answer. -/
def satisfying (rel : Relations) (w : Want) (admits : Entry → Bool) : Option Entry :=
  match rel.ix.entries.find? fun e => admits e && e.pref == w.pref with
  | some e => some e
  | none =>
      match bestSuccessor (rel.ix.entries.filter fun e =>
        admits e && (e.blocks.contains w.blocks || rel.l.subsumes e w.entry)) with
      | some e => some e
      | none => rel.jointlySatisfying w admits

/-- The entry, hole or not, that discharges a want. -/
def discharging (rel : Relations) (w : Want) : Option Entry :=
  (rel.forClaim w.claim).satisfying w fun _ => true

end Relations

variable {rel : Relations} {d : Entry} {w : Want} {admits : Entry → Bool} (l : Lineage)

/-- Wants by prefix. -/
def wantLE (a b : Want) : Prop := a.pref ≤ b.pref

instance : DecidableRel wantLE := fun a b => inferInstanceAs (Decidable (a.pref ≤ b.pref))

/-- The relations a commit trims its wants by. -/
def wantRelations (wants : List Want) (live : List Entry) (catalog : List Claim) : Relations :=
  Index.relations { (default : Index) with entries := live, catalog := catalog, wanted := wants } []

/-- Drop the wants that are discharged. -/
def trimWants (wants : List Want) (live : List Entry) (catalog : List Claim) : List Want :=
  (wants.filter fun w =>
    ((wantRelations wants live catalog).discharging w).isNone).insertionSort wantLE

/-- `e` replaces the hole `h`. -/
def revokes (e h : Entry) (l : Lineage) : Bool :=
  if !e.data || !h.hole then false else e.pref == h.pref || l.subsumes e h

/-- The relations a commit trims its holes by. -/
def holeRelations (holes live : List Entry) (catalog : List Claim) : Relations :=
  Index.relations { (default : Index) with entries := live ++ holes, catalog := catalog } []

/-- Drop the holes that are revoked by a part, or answered by a complete split group. -/
def trimHoles (holes live : List Entry) (catalog : List Claim) : List Entry :=
  let rel := holeRelations holes live catalog
  holes.filter fun h =>
    !(live.any (fun e => revokes e h rel.l) ||
      (h.hole && (rel.jointlySatisfying (wantOf h default) Entry.data).isSome))

/-! ## Where the answers come from -/

theorem bestSuccessor_mem {es : List Entry} (h : bestSuccessor es = some d) : d ∈ es := by
  have hone : bestSuccessor es = none ∨ ∃ e ∈ es, bestSuccessor es = some e := by
    refine foldl_choice (fun best e => ?_) es none
    cases best with
    | none => exact .inr rfl
    | some b => exact (ite_eq_or_eq _ (some e) (some b)).symm
  obtain ⟨e, he, heq⟩ := hone.resolve_left (h ▸ Option.some_ne_none d)
  exact Option.some.inj (h.symm.trans heq) ▸ he

@[simp] theorem Relations.forClaim_ix (rel : Relations) (c : Claim) :
    (rel.forClaim c).ix = rel.ix := by
  rw [Relations.forClaim]
  split
  · rfl
  · split <;> rfl

theorem Relations.jointlySatisfying_mem (h : rel.jointlySatisfying w admits = some d) :
    d ∈ rel.ix.entries := by
  rw [Relations.jointlySatisfying] at h
  split at h
  · exact absurd h (Option.some_ne_none d).symm
  · exact (mem_filter.mp (bestSuccessor_mem h)).1

theorem Relations.discharging_mem (h : rel.discharging w = some d) : d ∈ rel.ix.entries := by
  rw [Relations.discharging, Relations.satisfying] at h
  split at h
  · next e he =>
    cases h
    rw [Relations.forClaim_ix] at he
    exact mem_of_find?_eq_some he
  split at h
  · next e he =>
    cases h
    have hmem := (mem_filter.mp (bestSuccessor_mem he)).1
    rwa [Relations.forClaim_ix] at hmem
  · have hmem := Relations.jointlySatisfying_mem h
    rwa [Relations.forClaim_ix] at hmem

theorem Relations.discharging_of_pref (hd : d ∈ rel.ix.entries) (hpref : d.pref = w.pref) :
    (rel.discharging w).isSome = true := by
  rw [Relations.discharging, Relations.satisfying, Relations.forClaim_ix]
  cases hfind : rel.ix.entries.find? fun e => true && e.pref == w.pref with
  | some e => rfl
  | none =>
    have hne := List.find?_eq_none.mp hfind d hd
    exact absurd (by rw [hpref, beq_self_eq_true]; rfl) hne

theorem mem_trimWants {wants : List Want} {live : List Entry} {catalog : List Claim} :
    w ∈ trimWants wants live catalog ↔
      w ∈ wants ∧ (wantRelations wants live catalog).discharging w = none := by
  rw [trimWants, (perm_insertionSort wantLE _).mem_iff, mem_filter, Option.isNone_iff_eq_none]

/-! ## What the answers mean -/

/-- A group is complete when all its members are held. -/
def HoldsGroup (l : Lineage) (i : Fin l.length) (T : Set Block) : Prop :=
  (l.get i).group.valid = true ∧ (l.get i).group.blocks ⊆ T

/-- The blocks held with the ancestry of every complete group. -/
def realizeSet (l : Lineage) (S : Set Block) : Set Block :=
  Worklist.closure (HoldsGroup l) (fun i => (l.get i).blocks.blocks) S

theorem not_holdsGroup_empty (i : Fin l.length) : ¬ HoldsGroup l i ∅ := by
  rintro ⟨hvalid, hsub⟩
  obtain ⟨b, hb⟩ := Interval.valid_iff_nonempty.mp hvalid
  exact hsub hb

theorem holdsGroup_mono {l : Lineage} (i : Fin l.length) (S T : Set Block) (hST : S ⊆ T)
    (h : HoldsGroup l i S) : HoldsGroup l i T := ⟨h.1, h.2.trans hST⟩

/-- **`realize` adds the ancestry of every group it completes**, and names those groups. -/
theorem realize_closure (held : Interval) :
    (realize l held).1.blocks = realizeSet l held.blocks ∧
      ∀ i, (realize l held).2 i = true ↔ HoldsGroup l i (realizeSet l held.blocks) := by
  cases l with
  | nil => exact ⟨(closure_nil _).symm, fun i => i.elim0⟩
  | cons c l =>
    exact close_spec (closeSystem_contains (c :: l) Claim.group Claim.blocks)
      (not_holdsGroup_empty _) held

theorem realize_spec (held : Interval) :
    (realize l held).1.blocks = realizeSet l held.blocks := (realize_closure l held).1

theorem realizeSet_mono (S T : Set Block) (h : S ⊆ T) : realizeSet l S ⊆ realizeSet l T :=
  Worklist.closure_mono _ _ holdsGroup_mono (h.trans (Worklist.subset_closure _ _ T))

/-- The blocks a list of entries holds between them. -/
def blocksOf (es : List Entry) : Set Block := {b | ∃ e ∈ es, b ∈ e.blocks.blocks}

theorem fromRuns_blocksOf (es : List Entry) (hes : ∀ e ∈ es, e.blocks.valid = true) :
    (Interval.fromRuns (es.flatMap fun e => e.blocks.runs)).blocks = blocksOf es := by
  have hgood : ∀ r ∈ es.flatMap fun e => e.blocks.runs, validRun r.min r.max = true := by
    intro r hr
    obtain ⟨e, he, hr⟩ := mem_flatMap.mp hr
    exact (Interval.runs_canonical (hes e he)).good r hr
  ext b
  rw [(Interval.fromRuns_spec hgood).2]
  constructor
  · rintro ⟨r, hr, hb⟩
    obtain ⟨g, hg, rfl⟩ := mem_map.mp hr
    obtain ⟨e, he, hge⟩ := mem_flatMap.mp hg
    exact ⟨e, he, Interval.mem_blocks.mpr ⟨hes e he, g, hge, hb⟩⟩
  · rintro ⟨e, he, hb⟩
    obtain ⟨-, g, hg, hb⟩ := Interval.mem_blocks.mp hb
    exact ⟨g.run, mem_map.mpr ⟨g, mem_flatMap.mpr ⟨e, he, hg⟩, rfl⟩, hb⟩

/-- **What an index covers**: the blocks of its admitted entries, complete groups folded in. -/
theorem covered_spec (rel : Relations) (admits : Entry → Bool) : (rel.covered admits).blocks =
    realizeSet rel.l (blocksOf (rel.ix.entries.filter admits)) := by
  have hvalid : ∀ e ∈ rel.ix.entries.filter fun e => admits e && e.blocks.valid,
      e.blocks.valid = true := by
    intro e he
    have h := (mem_filter.mp he).2
    rw [Bool.and_eq_true] at h
    exact h.2
  have hsame : blocksOf (rel.ix.entries.filter fun e => admits e && e.blocks.valid) =
      blocksOf (rel.ix.entries.filter admits) := by
    ext b
    simp only [blocksOf, mem_filter, Bool.and_eq_true]
    constructor
    · rintro ⟨e, ⟨he, hadmit, -⟩, hb⟩
      exact ⟨e, ⟨he, hadmit⟩, hb⟩
    · rintro ⟨e, ⟨he, hadmit⟩, hb⟩
      exact ⟨e, ⟨he, hadmit, Interval.valid_iff_nonempty.mpr ⟨b, hb⟩⟩, hb⟩
  rw [Relations.covered, realize_spec, fromRuns_blocksOf _ hvalid, hsame]

end OtelStorage.BucketIndex
