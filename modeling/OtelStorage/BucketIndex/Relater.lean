import Mathlib.Algebra.BigOperators.Fin
import OtelStorage.BucketIndex.Interval
import OtelStorage.Foundation.Delimited
import OtelStorage.Foundation.FirstOccurrence
import OtelStorage.Foundation.Worklist

/-!
# Relating identities over a lineage

A split merge hands each of its outputs a fresh block, and records on all of them a *claim*: the
blocks the group covers jointly, and the group's own run of blocks.  A lineage is a set of claims,
and the relations between two parts follow the claims in both directions.

* `ancestry` climbs: from a block to the blocks its rows were taken from.
* `holds` descends: from a set of blocks to the members of every group whose whole ancestry it
  covers.

Both are computed by `close`, a work queue over an index of the claims' runs, and both are the
closures `Foundation.Worklist` speaks of: `ancestry_spec` and `holds_spec`.
-/

namespace OtelStorage.BucketIndex

open Delimited FirstOccurrence Runs SortedList List

/-- The ancestry a split merge's outputs hold jointly: the blocks they cover together, and the run
of their own blocks. -/
structure Claim where
  blocks : Interval
  group : Interval
  deriving DecidableEq, Repr

/-- The unset claim. -/
instance : Inhabited Claim := ⟨⟨default, default⟩⟩

/-- The claim names real blocks. -/
def Claim.valid (c : Claim) : Bool := c.blocks.valid && c.group.valid

theorem Claim.valid_iff (c : Claim) :
    c.valid = true ↔ c.blocks.valid = true ∧ c.group.valid = true := by
  rw [Claim.valid, Bool.and_eq_true]

/-- One tier of a downsampling layout. -/
structure RollupTier where
  before : Int64
  interval : Int64
  agg : UInt8
  deriving DecidableEq, Repr

/-- The layout a part's rows have had applied. -/
structure Rollup where
  tiers : List RollupTier
  deriving DecidableEq, Repr

/-- One part of an index, or a hole standing for a lost one.  A layout of `none` is unknown. -/
structure Entry where
  pref : Bytes
  minTime : Int64
  maxTime : Int64
  blocks : Interval := default
  level : UInt32 := 0
  claim : Claim := default
  term : UInt64 := 0
  rollup : Option Rollup := none
  hole : Bool := false
  deriving DecidableEq, Repr

/-- The entry names a real part. -/
def Entry.data (e : Entry) : Bool := !e.hole

/-- The split groups a set of entries records. -/
abbrev Lineage := List Claim

variable (entries : List Entry) {n : ℕ} (f : Fin n → Interval) {iv : Interval}

/-- The distinct claims the data-bearing entries carry. -/
def lineageOf : Lineage :=
  entries.foldl (fun out e =>
    if e.data && e.claim.valid && !out.contains e.claim then out ++ [e.claim] else out) []

theorem lineageOf_eq : lineageOf entries =
    appendNew Claim.valid [] ((entries.filter Entry.data).map Entry.claim) := by
  rw [lineageOf, appendNew, foldl_map, foldl_filter]
  refine foldl_ext _ _ _ fun out e _ => ?_
  cases e.data <;> rfl

theorem mem_lineageOf {entries : List Entry} {c : Claim} : c ∈ lineageOf entries ↔
    ∃ e ∈ entries, e.data = true ∧ e.claim.valid = true ∧ e.claim = c := by
  rw [lineageOf_eq, mem_appendNew, or_iff_right not_mem_nil, mem_map]
  constructor
  · rintro ⟨⟨e, he, rfl⟩, hvalid⟩
    exact ⟨e, (mem_filter.mp he).1, (mem_filter.mp he).2, hvalid, rfl⟩
  · rintro ⟨e, he, hdata, hvalid, rfl⟩
    exact ⟨⟨e, mem_filter.mpr ⟨he, hdata⟩, rfl⟩, hvalid⟩

/-- The entries have one identity, at one level. -/
def Entry.sameIdentity (e o : Entry) : Bool :=
  e.level == o.level && e.blocks.valid && e.blocks == o.blocks && e.claim == o.claim

/-! ## The run index -/

/-- The runs an interval contributes to an index or a queue: none when it is unset. -/
def Interval.heldRuns (iv : Interval) : List Gap := if iv.valid then iv.runs else []

/-- A run of the interval of claim number `claim`. -/
structure IndexedRun (n : ℕ) where
  run : Gap
  claim : Fin n

/-- Runs sorted by low bound, then high bound, then claim. -/
def indexedLE (a b : IndexedRun n) : Prop :=
  a.run.min.less b.run.min = true ∨ (a.run.min = b.run.min ∧
    (a.run.max.less b.run.max = true ∨ (a.run.max = b.run.max ∧ a.claim ≤ b.claim)))

instance : DecidableRel (indexedLE (n := n)) := fun _ _ => inferInstanceAs (Decidable (_ ∨ _))

/-- Pair each run with the highest bound reached so far. -/
def reachFrom : Block → List (IndexedRun n) → List (Block × IndexedRun n)
  | _, [] => []
  | top, r :: rs => (maxBlock r.run.max top, r) :: reachFrom (maxBlock r.run.max top) rs

/-- Each run with the reach up to it. -/
def withReach : List (IndexedRun n) → List (Block × IndexedRun n)
  | [] => []
  | r :: rs => (r.run.max, r) :: reachFrom r.run.max rs

/-- The index of the runs of one interval per claim, each with the reach of the runs before it. -/
def buildIndex : List (Block × IndexedRun n) :=
  withReach (((List.finRange n).flatMap fun i =>
    (f i).heldRuns.map fun r => ⟨r, i⟩).insertionSort indexedLE)

/-- The claim of every indexed run that meets `q`.  The runs whose reach ends before `q` are
skipped by a search, the ones that start after `q` are not looked at. -/
def meeting (index : List (Block × IndexedRun n)) (q : Gap) : List (Fin n) :=
  (((index.dropWhile fun x => x.1.less q.min).takeWhile fun x => !q.max.less x.2.run.min).filter
    fun x => !x.2.run.max.less q.min).map fun x => x.2.claim

variable (rs : List (IndexedRun n)) (l : Lineage)

theorem map_snd_reachFrom (top : Block) : (reachFrom top rs).map Prod.snd = rs := by
  induction rs generalizing top with
  | nil => rfl
  | cons r rs ih => rw [reachFrom, map_cons, ih]

theorem le_reach (top : Block) : ∀ x ∈ reachFrom top rs, x.2.run.max.key ≤ x.1.key := by
  induction rs generalizing top with
  | nil => exact nofun
  | cons r rs ih =>
    intro x hx
    rcases mem_cons.mp hx with rfl | hx
    · rw [key_maxBlock]
      exact le_max_left _ _
    · exact ih _ x hx

theorem map_snd_withReach : (withReach rs).map Prod.snd = rs := by
  cases rs with
  | nil => rfl
  | cons r rs => rw [withReach, map_cons, map_snd_reachFrom]

theorem le_withReach : ∀ x ∈ withReach rs, x.2.run.max.key ≤ x.1.key := by
  cases rs with
  | nil => exact nofun
  | cons r rs => exact forall_mem_cons.mpr ⟨le_rfl, le_reach rs _⟩

theorem indexedLE.min_le {a b : IndexedRun n} (h : indexedLE a b) :
    a.run.min.key ≤ b.run.min.key := by
  rcases h with h | ⟨h, -⟩
  · exact ((Block.less_iff _ _).mp h).le
  · rw [h]

theorem indexedLE_total (a b : IndexedRun n) : indexedLE a b ∨ indexedLE b a := by
  simp only [indexedLE, Block.less_iff]
  rcases Nat.lt_trichotomy a.run.min.key b.run.min.key with h | h | h
  · exact .inl (.inl h)
  · have hmin := Block.key_injective h
    rcases Nat.lt_trichotomy a.run.max.key b.run.max.key with h' | h' | h'
    · exact .inl (.inr ⟨hmin, .inl h'⟩)
    · have hmax := Block.key_injective h'
      rcases le_total a.claim b.claim with hc | hc
      · exact .inl (.inr ⟨hmin, .inr ⟨hmax, hc⟩⟩)
      · exact .inr (.inr ⟨hmin.symm, .inr ⟨hmax.symm, hc⟩⟩)
    · exact .inr (.inr ⟨hmin.symm, .inl h'⟩)
  · exact .inr (.inl h)

theorem indexedLE_trans (a b c : IndexedRun n) (hab : indexedLE a b) (hbc : indexedLE b c) :
    indexedLE a c := by
  simp only [indexedLE, Block.less_iff] at *
  rcases hab with hab | ⟨hab, hab'⟩
  · exact .inl (hab.trans_le (indexedLE.min_le (by simpa only [indexedLE, Block.less_iff])))
  rcases hbc with hbc | ⟨hbc, hbc'⟩
  · exact .inl (hab ▸ hbc)
  refine .inr ⟨hab.trans hbc, ?_⟩
  rcases hab' with hab' | ⟨hab', hclaim⟩
  · rcases hbc' with hbc' | ⟨hbc', -⟩
    · exact .inl (hab'.trans hbc')
    · exact .inl (hbc' ▸ hab')
  · rcases hbc' with hbc' | ⟨hbc', hclaim'⟩
    · exact .inl (hab' ▸ hbc')
    · exact .inr ⟨hab'.trans hbc', hclaim.trans hclaim'⟩

instance : Std.Total (indexedLE (n := n)) := ⟨indexedLE_total⟩
instance : IsTrans (IndexedRun n) indexedLE := ⟨indexedLE_trans⟩

/-- What an index is built to be: its runs sorted by low bound, each below its reach. -/
structure IsRunIndex (f : Fin n → Interval) (index : List (Block × IndexedRun n)) : Prop where
  mem_iff : ∀ r i, (∃ m, (m, (⟨r, i⟩ : IndexedRun n)) ∈ index) ↔ r ∈ (f i).heldRuns
  sorted : index.Pairwise fun x y => x.2.run.min.key ≤ y.2.run.min.key
  le_reach : ∀ x ∈ index, x.2.run.max.key ≤ x.1.key

theorem buildIndex_isRunIndex : IsRunIndex f (buildIndex f) := by
  have hruns : ∀ r i, (⟨r, i⟩ : IndexedRun n) ∈ ((List.finRange n).flatMap fun i =>
      (f i).heldRuns.map fun r => (⟨r, i⟩ : IndexedRun n)) ↔ r ∈ (f i).heldRuns := by
    intro r i
    simp only [mem_flatMap, mem_map, IndexedRun.mk.injEq]
    constructor
    · rintro ⟨j, -, s, hs, rfl, rfl⟩
      exact hs
    · intro hr
      exact ⟨i, mem_finRange i, r, hr, rfl, rfl⟩
  refine ⟨fun r i => ?_, ?_, le_withReach _⟩
  · rw [← hruns, ← (perm_insertionSort indexedLE _).mem_iff, ← map_snd_withReach
      (List.insertionSort _ _), mem_map]
    constructor
    · rintro ⟨m, hm⟩
      exact ⟨_, hm, rfl⟩
    · rintro ⟨⟨m, x⟩, hx, rfl⟩
      exact ⟨m, hx⟩
  · have hmin := (pairwise_insertionSort indexedLE ((List.finRange n).flatMap fun i =>
      (f i).heldRuns.map fun r => (⟨r, i⟩ : IndexedRun n))).imp fun h => h.min_le
    rw [← map_snd_withReach (List.insertionSort _ _), pairwise_map] at hmin
    exact hmin

variable {f}

/-- The search finds exactly the claims with a run that meets the query. -/
theorem IsRunIndex.mem_meeting {index : List (Block × IndexedRun n)}
    (h : IsRunIndex f index) (q : Gap) (i : Fin n) : i ∈ meeting index q ↔
      ∃ r ∈ (f i).heldRuns, r.min.key ≤ q.max.key ∧ q.min.key ≤ r.max.key := by
  simp only [meeting, mem_map, mem_filter, Bool.not_eq_true', Block.less_eq_false_iff]
  constructor
  · rintro ⟨⟨m, r, j⟩, ⟨hmem, hlo⟩, rfl⟩
    have hhi := mem_takeWhile_imp hmem
    rw [Bool.not_eq_true', Block.less_eq_false_iff] at hhi
    have hmem' := (dropWhile_sublist _).mem ((takeWhile_sublist _).mem hmem)
    exact ⟨r, (h.mem_iff r j).mp ⟨m, hmem'⟩, hhi, hlo⟩
  · rintro ⟨r, hr, hhi, hlo⟩
    obtain ⟨m, hm⟩ := (h.mem_iff r i).mpr hr
    have hreach : r.max.key ≤ m.key := h.le_reach (m, ⟨r, i⟩) hm
    refine ⟨(m, ⟨r, i⟩), ⟨?_, hlo⟩, rfl⟩
    refine mem_takeWhile_of_pairwise ?_ (mem_dropWhile_of_not hm ?_) ?_
    · refine (h.sorted.sublist (dropWhile_sublist _)).imp fun hle hb => ?_
      rw [Bool.not_eq_true', Block.less_eq_false_iff] at hb ⊢
      exact hle.trans hb
    · exact (Block.less_eq_false_iff _ _).mpr (hlo.trans hreach)
    · rw [Bool.not_eq_true', Block.less_eq_false_iff]
      exact hhi

/-! ## Closing a set of blocks under claims -/

/-- The blocks of a run. -/
def Gap.blocks (g : Gap) : Set Block := {b | g.min.key ≤ b.key ∧ b.key ≤ g.max.key}

/-- The work queue of `close`: `take` says whether a claim applies to what is held, `adds` what it
adds.  The runs a claim adds go on top of the stack, so the last of them is followed first. -/
def closeSystem (index : List (Block × IndexedRun l.length))
    (take : Claim → Interval → Bool) (adds : Claim → Interval) :
    Worklist.System Interval (Fin l.length) Gap Block where
  den := Interval.blocks
  span := Gap.blocks
  meeting := meeting index
  test i held := take (l.get i) held
  grow held i := held.union (adds (l.get i))
  pieces i := (adds (l.get i)).heldRuns.reverse

/-- Grow `iv` to a fixed point, and say which claims it went through. -/
def close (iv : Interval) (index : List (Block × IndexedRun l.length))
    (take : Claim → Interval → Bool) (adds : Claim → Interval) :
    Interval × (Fin l.length → Bool) :=
  if !iv.valid then (iv, fun _ => false)
  else
    let fuel := iv.runs.length +
      ((List.finRange l.length).map fun i => (adds (l.get i)).heldRuns.length).sum
    let s := (closeSystem l index take adds).run fuel ⟨iv, fun _ => false, iv.runs.reverse⟩
    (s.held, s.via)

/-- Every block whose rows `iv` includes. -/
def holds (iv : Interval) : Interval :=
  if l.isEmpty then iv
  else (close l iv (buildIndex fun i => (l.get i).blocks)
    (fun c held => held.contains c.blocks) Claim.group).1

/-- `iv` with every block its rows derive from, and the groups that descent passes through. -/
def ancestry (iv : Interval) : Interval × (Fin l.length → Bool) :=
  if l.isEmpty then (iv, fun _ => false)
  else close l iv (buildIndex fun i => (l.get i).group) (fun _ _ => true) Claim.blocks

/-- `e` holds every row `o` holds: a later tenure's copy of the same identity, or a part at a higher
level that holds the blocks. -/
def Lineage.subsumes (e o : Entry) : Bool :=
  if o.term < e.term && e.sameIdentity o then true
  else o.level < e.level && (holds l e.blocks).contains o.blocks

/-- `a` and `b` may hold a row in common. -/
def Lineage.overlaps (a b : Entry) : Bool :=
  let (upA, viaA) := ancestry l a.blocks
  let (upB, viaB) := ancestry l b.blocks
  if a.blocks.meets upB || b.blocks.meets upA then true
  else
    let common := upA.intersect upB
    if !common.valid then false
    else (List.finRange l.length).any fun i =>
      viaA i != viaB i && (l.get i).blocks.meets common

/-! ### The closures -/

/-- A group is passed through when a block of it is reached. -/
def ReachesGroup (i : Fin l.length) (T : Set Block) : Prop :=
  ((l.get i).group.blocks ∩ T).Nonempty

/-- A group is held when its whole ancestry is. -/
def CoversAncestry (i : Fin l.length) (T : Set Block) : Prop :=
  (l.get i).blocks.valid = true ∧ (l.get i).blocks.blocks ⊆ T

/-- The blocks the rows of `S` derive from. -/
def upSet (S : Set Block) : Set Block :=
  Worklist.closure (ReachesGroup l) (fun i => (l.get i).blocks.blocks) S

/-- The blocks whose rows `S` includes. -/
def holdSet (S : Set Block) : Set Block :=
  Worklist.closure (CoversAncestry l) (fun i => (l.get i).group.blocks) S

theorem mem_heldRuns {r : Gap} : r ∈ iv.heldRuns ↔ iv.valid = true ∧ r ∈ iv.runs := by
  by_cases h : iv.valid = true
  · simp [Interval.heldRuns, h]
  · simp [Interval.heldRuns, h]

theorem heldRuns_sub {r : Gap} (hr : r ∈ iv.heldRuns) :
    r.blocks.Nonempty ∧ r.blocks ⊆ iv.blocks := by
  obtain ⟨hiv, hr⟩ := mem_heldRuns.mp hr
  have hle := ((Interval.validRun_iff _ _).mp ((Interval.runs_canonical hiv).good r hr)).2.2
  refine ⟨⟨r.min, le_rfl, hle⟩, fun b hb => ?_⟩
  exact Interval.mem_blocks.mpr ⟨hiv, r, hr, hb.1, hb.2⟩

theorem mem_heldRuns_of_mem_blocks {b : Block} (hb : b ∈ iv.blocks) :
    ∃ r ∈ iv.heldRuns, b ∈ r.blocks := by
  obtain ⟨hiv, r, hr, hlo, hhi⟩ := Interval.mem_blocks.mp hb
  exact ⟨r, mem_heldRuns.mpr ⟨hiv, hr⟩, hlo, hhi⟩

/-- A run that is not empty meets an indexed run exactly in a block. -/
theorem meeting_buildIndex {q : Gap} (hq : q.blocks.Nonempty) (i : Fin n) :
    i ∈ meeting (buildIndex f) q ↔ ((f i).blocks ∩ q.blocks).Nonempty := by
  rw [(buildIndex_isRunIndex f).mem_meeting]
  constructor
  · rintro ⟨r, hr, hhi, hlo⟩
    obtain ⟨⟨b, hb⟩, hsub⟩ := heldRuns_sub hr
    obtain ⟨c, hc⟩ := hq
    have hkey := key_maxBlock r.min q.min
    refine ⟨maxBlock r.min q.min, hsub ⟨?_, ?_⟩, ?_, ?_⟩
    · exact hkey ▸ le_max_left _ _
    · exact hkey ▸ max_le (hb.1.trans hb.2) hlo
    · exact hkey ▸ le_max_right _ _
    · exact hkey ▸ max_le hhi (hc.1.trans hc.2)
  · rintro ⟨b, hb, hbq⟩
    obtain ⟨r, hr, hbr⟩ := mem_heldRuns_of_mem_blocks hb
    exact ⟨r, hr, hbr.1.trans hbq.2, hbq.1.trans hbr.2⟩

variable {l}

theorem close_spec {index : List (Block × IndexedRun l.length)}
    {take : Claim → Interval → Bool} {adds : Claim → Interval}
    {app : Fin l.length → Set Block → Prop} {idx : Fin l.length → Set Block}
    (hS : Worklist.Computes (closeSystem l index take adds) app
      (fun i => (adds (l.get i)).blocks) idx) (hempty : ∀ i, ¬ app i ∅) (iv : Interval) :
    (close l iv index take adds).1.blocks =
        Worklist.closure app (fun i => (adds (l.get i)).blocks) iv.blocks ∧
      ∀ i, (close l iv index take adds).2 i = true ↔
        app i (Worklist.closure app (fun i => (adds (l.get i)).blocks) iv.blocks) := by
  by_cases hiv : iv.valid = true
  · have hruns : iv.heldRuns = iv.runs := by rw [Interval.heldRuns, if_pos hiv]
    simp only [close, hiv, Bool.not_true, Bool.false_eq_true, if_false]
    refine hS.run_spec iv iv.runs.reverse (fun r hr => ?_) (fun x hx => ?_) hempty _ ?_
    · exact heldRuns_sub (hruns ▸ mem_reverse.mp hr)
    · obtain ⟨r, hr, hxr⟩ := mem_heldRuns_of_mem_blocks hx
      exact ⟨r, mem_reverse.mpr (hruns ▸ hr), hxr⟩
    · simp only [closeSystem, length_reverse]
      rw [Fin.sum_univ_def]
  · have hblocks : iv.blocks = ∅ := Interval.blocks_of_not_valid (Bool.eq_false_iff.mpr hiv)
    have hclosure : Worklist.closure app (fun i => (adds (l.get i)).blocks) ∅ = ∅ :=
      Set.subset_empty_iff.mp (Worklist.closure_subset _ _ subset_rfl
        fun i hi => absurd hi (hempty i))
    simp only [close, hiv, Bool.not_false, if_true, hblocks, hclosure, true_and]
    exact fun i => ⟨fun h => absurd h Bool.false_ne_true, fun h => absurd h (hempty i)⟩

theorem reachesGroup_mono (i : Fin l.length) (S T : Set Block) (hST : S ⊆ T)
    (h : ReachesGroup l i S) : ReachesGroup l i T :=
  h.mono (Set.inter_subset_inter_right _ hST)

theorem coversAncestry_mono (i : Fin l.length) (S T : Set Block) (hST : S ⊆ T)
    (h : CoversAncestry l i S) : CoversAncestry l i T := ⟨h.1, h.2.trans hST⟩

variable (l) (i : Fin l.length)

theorem closeSystem_meets (of adds : Claim → Interval) :
    Worklist.Computes (closeSystem l (buildIndex fun i => of (l.get i)) (fun _ _ => true) adds)
      (fun i T => ((of (l.get i)).blocks ∩ T).Nonempty) (fun i => (adds (l.get i)).blocks)
      (fun i => (of (l.get i)).blocks) where
  mem_meeting r i h := (meeting_buildIndex h.right i).mpr h
  test_iff r i h hi hne hr := by
    refine ⟨fun _ => ?_, fun _ => rfl⟩
    obtain ⟨b, hb, hbr⟩ := (meeting_buildIndex hne i).mp hi
    exact ⟨b, hb, hr hbr⟩
  den_grow h i := Interval.union_blocks h _
  pieces_sub i r hr := heldRuns_sub (mem_reverse.mp hr)
  pieces_cover i x hx := by
    obtain ⟨r, hr, hxr⟩ := mem_heldRuns_of_mem_blocks hx
    exact ⟨r, mem_reverse.mpr hr, hxr⟩
  mono i A B hAB hA := hA.mono (Set.inter_subset_inter_right _ hAB)
  trigger i A B hAB hB hA := by
    obtain ⟨b, hb, hbB⟩ := hB
    exact ⟨b, hb, hbB, fun hbA => hA ⟨b, hb, hbA⟩⟩

theorem closeSystem_contains (of adds : Claim → Interval) :
    Worklist.Computes (closeSystem l (buildIndex fun i => of (l.get i))
      (fun c held => held.contains (of c)) adds)
      (fun i T => (of (l.get i)).valid = true ∧ (of (l.get i)).blocks ⊆ T)
      (fun i => (adds (l.get i)).blocks) (fun i => (of (l.get i)).blocks) where
  mem_meeting r i h := (meeting_buildIndex h.right i).mpr h
  test_iff r i h hi hne hr := by
    have hvalid : h.valid = true := Interval.valid_iff_nonempty.mpr (hne.mono hr)
    exact (Interval.contains_iff h _).trans ⟨fun hc => hc.2, fun hc => ⟨hvalid, hc⟩⟩
  den_grow h i := Interval.union_blocks h _
  pieces_sub i r hr := heldRuns_sub (mem_reverse.mp hr)
  pieces_cover i x hx := by
    obtain ⟨r, hr, hxr⟩ := mem_heldRuns_of_mem_blocks hx
    exact ⟨r, mem_reverse.mpr hr, hxr⟩
  mono i A B hAB hA := ⟨hA.1, hA.2.trans hAB⟩
  trigger i A B hAB hB hA := by
    -- some block of the interval was missing before
    obtain ⟨b, hb, hbA⟩ := Set.not_subset.mp fun hsub => hA ⟨hB.1, hsub⟩
    exact ⟨b, hb, hB.2 hb, hbA⟩

theorem not_reachesGroup_empty : ¬ ReachesGroup l i ∅ := by
  simp [ReachesGroup]

theorem not_coversAncestry_empty : ¬ CoversAncestry l i ∅ := by
  rintro ⟨hvalid, hsub⟩
  obtain ⟨b, hb⟩ := Interval.valid_iff_nonempty.mp hvalid
  exact hsub hb

theorem closure_nil {app : Fin ([] : Lineage).length → Set Block → Prop}
    {add : Fin ([] : Lineage).length → Set Block} (S : Set Block) :
    Worklist.closure app add S = S :=
  subset_antisymm (Worklist.closure_subset _ _ subset_rfl fun i => i.elim0)
    (Worklist.subset_closure _ _ S)

/-- **`ancestry` climbs to every block the rows derive from**, and names the groups passed. -/
theorem ancestry_spec (iv : Interval) :
    (ancestry l iv).1.blocks = upSet l iv.blocks ∧
      ∀ i, (ancestry l iv).2 i = true ↔ ReachesGroup l i (upSet l iv.blocks) := by
  cases l with
  | nil => exact ⟨(closure_nil _).symm, fun i => i.elim0⟩
  | cons c l =>
    exact close_spec (closeSystem_meets (c :: l) Claim.group Claim.blocks)
      (not_reachesGroup_empty _) iv

/-- **`holds` descends to every block whose rows are included.** -/
theorem holds_spec (iv : Interval) : (holds l iv).blocks = holdSet l iv.blocks := by
  cases l with
  | nil => exact (closure_nil _).symm
  | cons c l =>
    exact (close_spec (closeSystem_contains (c :: l) Claim.blocks Claim.group)
      (not_coversAncestry_empty _) iv).1

/-! ### The relations between two parts -/

theorem sameIdentity_iff (e o : Entry) : e.sameIdentity o = true ↔
    e.level = o.level ∧ e.blocks.valid = true ∧ e.blocks = o.blocks ∧ e.claim = o.claim := by
  simp only [Entry.sameIdentity, Bool.and_eq_true, beq_iff_eq, and_assoc]

variable {l} in
theorem subset_holdSet_of_subsumes {e o : Entry} (h : l.subsumes e o = true) :
    o.blocks.valid = true ∧ o.blocks.blocks ⊆ holdSet l e.blocks.blocks := by
  unfold Lineage.subsumes at h
  split at h
  · next hid =>
    rw [Bool.and_eq_true, sameIdentity_iff] at hid
    obtain ⟨-, -, hvalid, heq, -⟩ := hid
    rw [← heq]
    exact ⟨hvalid, Worklist.subset_closure _ _ _⟩
  · rw [Bool.and_eq_true, Interval.contains_iff, holds_spec] at h
    exact ⟨h.2.2.1, h.2.2.2⟩

/-- Two parts overlap when one's blocks are among the other's ancestors, or when they share an
ancestor consumed by a group that only one of them descends through. -/
theorem overlaps_iff (a b : Entry) : l.overlaps a b = true ↔
    (a.blocks.blocks ∩ upSet l b.blocks.blocks).Nonempty ∨
    (b.blocks.blocks ∩ upSet l a.blocks.blocks).Nonempty ∨
    ∃ i, ¬ (ReachesGroup l i (upSet l a.blocks.blocks) ↔
      ReachesGroup l i (upSet l b.blocks.blocks)) ∧
      ((l.get i).blocks.blocks ∩ (upSet l a.blocks.blocks ∩ upSet l b.blocks.blocks)).Nonempty := by
  obtain ⟨hupA, hviaA⟩ := ancestry_spec l a.blocks
  obtain ⟨hupB, hviaB⟩ := ancestry_spec l b.blocks
  have hvia : ∀ i, ((ancestry l a.blocks).2 i != (ancestry l b.blocks).2 i) = true ↔
      ¬ (ReachesGroup l i (upSet l a.blocks.blocks) ↔
        ReachesGroup l i (upSet l b.blocks.blocks)) := by
    intro i
    rw [← hviaA, ← hviaB, bne_iff_ne, ← Bool.eq_iff_iff]
  have hmeetA := Interval.meets_iff a.blocks (ancestry l b.blocks).1
  have hmeetB := Interval.meets_iff b.blocks (ancestry l a.blocks).1
  have hcommon := Interval.intersect_blocks (ancestry l a.blocks).1 (ancestry l b.blocks).1
  rw [hupB] at hmeetA hcommon
  rw [hupA] at hmeetB hcommon
  simp only [Lineage.overlaps, Bool.if_true_left, Bool.or_eq_true, decide_eq_true_eq]
  rw [hmeetA, hmeetB, or_assoc]
  refine or_congr_right (or_congr_right ?_)
  by_cases hvalid : ((ancestry l a.blocks).1.intersect (ancestry l b.blocks).1).valid = true
  · simp only [hvalid, Bool.not_true, Bool.false_eq_true, if_false, any_eq_true,
      mem_finRange, true_and, Bool.and_eq_true, hvia, Interval.meets_iff, hcommon]
  · simp only [hvalid, Bool.not_false, if_true, Bool.false_eq_true, false_iff, not_exists, not_and]
    rintro i - ⟨b, -, hb⟩
    rw [← hcommon] at hb
    exact hvalid hb.1

end OtelStorage.BucketIndex
