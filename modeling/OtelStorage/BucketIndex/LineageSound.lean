import OtelStorage.BucketIndex.Descent
import OtelStorage.BucketIndex.Plan

/-!
# The lineage relations are sound

Replicas start from common flushed parts and merge on their own, each output planned by
`planMerge` and numbered by an allocator.  Whatever they do, the lineage collected from all the
parts that ever existed relates their identities soundly: parts that share a row overlap, and a
part that subsumes another holds its rows.

The rows are ghost state: no modelled function reads them.  A history of identities is a history of
`Descent` once each interval is read as its set of blocks (`Replicas.abs`), and the two relations
are the closures of that file.
-/

namespace OtelStorage.BucketIndex

open Delimited Function

/-- A part: what the index says of it, and the rows it holds. -/
structure Part (ρ : Type*) where
  entry : Entry
  rows : Set ρ

/-- The identity a plan is turned into. -/
def Part.identity {ρ : Type*} (p : Part ρ) : Interval × Claim := (p.entry.blocks, p.entry.claim)

/-- The flushed parts every replica starts from, the live parts of each replica, the parts each has
written since, and the blocks allocated so far. -/
structure Replicas (κ ρ : Type*) where
  flushed : List (Part ρ)
  live : κ → List (Part ρ)
  made : List (κ × Part ρ)
  used : Set Block

variable {κ ρ : Type*} (w : Replicas κ ρ) {p : Part ρ} {c : Descent.Claim Block}
  {src : List (Part ρ)}

/-- Every part that ever existed on any replica. -/
def Replicas.parts : List (Part ρ) := w.flushed ++ w.made.map Prod.snd

/-- The lineage collected from all parts. -/
def Replicas.lineage : Lineage := lineageOf (w.parts.map Part.entry)

/-- Flushed parts with a fresh block each and disjoint rows, live on every replica. -/
structure Replicas.IsStart (w : Replicas κ ρ) : Prop where
  live_eq : ∀ r, w.live r = w.flushed
  made_eq : w.made = []
  flushed : ∀ p ∈ w.flushed, p.entry.hole = false ∧ p.entry.level = flushPlan.level ∧
    ∃ b : Block, 1 ≤ b.n ∧ p.identity = ((newAllocator b).assign flushPlan).1
  blocks_ne : w.flushed.Pairwise fun p q => p.entry.blocks ≠ q.entry.blocks
  rows_disjoint : w.flushed.Pairwise fun p q => Disjoint p.rows q.rows
  used_eq : w.used = {b | ∃ p ∈ w.flushed, b ∈ p.entry.blocks.blocks}

/-- Replica `r` puts `outs` in the place of some of its parts, leaving `rest`. -/
def Replicas.replace [DecidableEq κ] (w : Replicas κ ρ) (r : κ) (rest outs : List (Part ρ))
    (fresh : Set Block) : Replicas κ ρ where
  flushed := w.flushed
  live := update w.live r (rest ++ outs)
  made := w.made ++ outs.map fun p => (r, p)
  used := w.used ∪ fresh

/-- The blocks a merge into `n` parts allocates, from `next` up: none when it writes one part. -/
def allocated (next : Block) (n : ℕ) : Set Block := {b | 1 < n ∧ ∃ i < n, b = nthBlock next i}

/-- A replica merges parts `src` of its live set into `n` parts.  The outputs' blocks, claims and
levels are the planned and assigned ones, no block they are given was allocated before, and their
rows partition the rows merged. -/
inductive Replicas.Step [DecidableEq κ] : Replicas κ ρ → Replicas κ ρ → Prop
  | merge {w : Replicas κ ρ} (r : κ) (src rest outs : List (Part ρ)) (n : ℕ) (next : Block)
      (addr : ℕ) (hlive : (w.live r).Perm (src ++ rest)) (hsrc : src ≠ []) (hn : 1 ≤ n)
      (hids : outs.map Part.identity = mergeIds next addr (src.map Part.entry) n)
      (hlevels : outs.map (fun p => p.entry.level) =
        (planMerge addr (src.map Part.entry) n).map Plan.level)
      (hdata : ∀ p ∈ outs, p.entry.hole = false)
      (hfits : 1 < n → RunFits next n) (hfresh : ∀ b ∈ allocated next n, b ∉ w.used)
      (hdisjoint : outs.Pairwise fun p q => Disjoint p.rows q.rows)
      (hrows : ⋃ p ∈ outs, p.rows = ⋃ p ∈ src, p.rows) :
      Replicas.Step w (w.replace r rest outs (allocated next n))

/-- The states of the histories. -/
inductive Replicas.Reachable [DecidableEq κ] : Replicas κ ρ → Prop
  | start {w : Replicas κ ρ} : w.IsStart → Replicas.Reachable w
  | step {w w' : Replicas κ ρ} : Replicas.Reachable w → Replicas.Step w w' → Replicas.Reachable w'

/-! ## Reading identities as sets -/

/-- The claim as sets of blocks. -/
def Claim.abs (c : Claim) : Descent.Claim Block := ⟨c.blocks.blocks, c.group.blocks⟩

/-- The part as sets. -/
def Part.abs (p : Part ρ) : Descent.Part Block ρ where
  blocks := p.entry.blocks.blocks
  claim := if p.entry.claim.valid then some p.entry.claim.abs else none
  rows := p.rows

/-- The replicas as sets. -/
def Replicas.abs : Descent.World Block κ ρ where
  flushed := w.flushed.map Part.abs
  live r := (w.live r).map Part.abs
  made := w.made.map fun x => (x.1, x.2.abs)
  used := w.used

theorem Part.abs_claim_eq_some :
    p.abs.claim = some c ↔ p.entry.claim.valid = true ∧ p.entry.claim.abs = c := by
  by_cases h : p.entry.claim.valid = true
  · simp [Part.abs, h]
  · simp [Part.abs, h]

theorem Replicas.abs_parts : w.abs.parts = w.parts.map Part.abs := by
  simp [Replicas.abs, Replicas.parts, Descent.World.parts, comp_def]

theorem Replicas.abs_replace [DecidableEq κ] (w : Replicas κ ρ) (r : κ) (rest outs : List (Part ρ))
    (fresh : Set Block) : (w.replace r rest outs fresh).abs =
      w.abs.replace r (rest.map Part.abs) (outs.map Part.abs) fresh := by
  have hlive : (fun s => (update w.live r (rest ++ outs) s).map Part.abs) =
      update (fun s => (w.live s).map Part.abs) r (rest.map Part.abs ++ outs.map Part.abs) := by
    funext s
    by_cases hs : s = r
    · subst hs
      rw [update_self, update_self, List.map_append]
    · rw [update_of_ne hs, update_of_ne hs]
  simp only [Replicas.abs, Replicas.replace, Descent.World.replace, hlive, List.map_append,
    List.map_map, comp_def]

theorem blocksOf_map_abs (ps : List (Part ρ)) :
    Descent.blocksOf (ps.map Part.abs) = ⋃ p ∈ ps, p.entry.blocks.blocks := by
  ext b
  simp [Descent.mem_blocksOf, Part.abs]

theorem rowsOf_map_abs (ps : List (Part ρ)) :
    Descent.rowsOf (ps.map Part.abs) = ⋃ p ∈ ps, p.rows := by
  ext x
  simp [Descent.mem_rowsOf, Part.abs]

theorem abs_mem_claimsOf {c : Claim} (hc : c ∈ claimsOf (src.map Part.entry)) :
    c.abs ∈ Descent.claimsOf (src.map Part.abs) := by
  obtain ⟨hvalid, e, he, rfl⟩ := mem_claimsOf.mp hc
  obtain ⟨p, hp, rfl⟩ := List.mem_map.mp he
  exact ⟨p.abs, List.mem_map_of_mem hp, Part.abs_claim_eq_some.mpr ⟨hvalid, rfl⟩⟩

/-- The planned union is the inputs' blocks with completed claims folded in. -/
theorem folded_mergedBlocks (src : List (Part ρ)) :
    Descent.Folded (Descent.claimsOf (src.map Part.abs)) (Descent.blocksOf (src.map Part.abs))
      (mergedBlocks (src.map Part.entry)).blocks := by
  refine realizeClaims_induction _ _ ?_ fun S c hc hgroup hS => ?_
  · have hunion : (unionOf (src.map Part.entry)).blocks = Descent.blocksOf (src.map Part.abs) := by
      rw [unionOf_blocks, blocksOf_map_abs]
      simp
    rw [hunion]
    exact Descent.Folded.start
  · exact Descent.Folded.fold hS (abs_mem_claimsOf hc) hgroup

theorem mergedBlocks_valid (hsrc : src ≠ []) (hvalid : ∀ p ∈ src, p.entry.blocks.valid = true) :
    (mergedBlocks (src.map Part.entry)).valid = true := by
  obtain ⟨p, hp⟩ := List.exists_mem_of_ne_nil src hsrc
  obtain ⟨b, hb⟩ := Interval.valid_iff_nonempty.mp (hvalid p hp)
  refine Interval.valid_iff_nonempty.mpr ⟨b, (folded_mergedBlocks src).subset ?_⟩
  exact Descent.mem_blocksOf.mpr ⟨p.abs, List.mem_map_of_mem hp, hb⟩

/-! ## Histories refine histories -/

variable {w}

theorem Replicas.IsStart.abs (h : w.IsStart) : Descent.IsStart w.abs := by
  have hone : ∀ p ∈ w.flushed, p.abs.claim = none ∧
      ∃ b, p.entry.blocks = ⟨b, b, []⟩ ∧ p.abs.blocks = {b} := by
    intro p hp
    obtain ⟨-, -, b, hb, hid⟩ := h.flushed p hp
    have hblocks : p.entry.blocks = ⟨b, b, []⟩ := congrArg Prod.fst hid
    have hclaim : p.entry.claim = default := congrArg Prod.snd hid
    refine ⟨?_, b, hblocks, ?_⟩
    · rw [Part.abs, hclaim]
      rfl
    · rw [Part.abs, hblocks]
      exact Interval.blocks_single hb
  refine ⟨fun r => congrArg (List.map Part.abs) (h.live_eq r),
    congrArg (List.map fun x : κ × Part ρ => (x.1, x.2.abs)) h.made_eq, ?_, ?_, ?_, ?_⟩
  · intro q hq
    obtain ⟨p, hp, rfl⟩ := List.mem_map.mp hq
    obtain ⟨hclaim, b, -, hb⟩ := hone p hp
    exact ⟨hclaim, b, hb⟩
  · refine List.pairwise_map.mpr (h.blocks_ne.imp_of_mem fun {p q} hp hq hne => ?_)
    obtain ⟨-, b, hpb, hb⟩ := hone p hp
    obtain ⟨-, c, hqc, hc⟩ := hone q hq
    rw [hb, hc, Set.disjoint_singleton]
    rintro rfl
    exact hne (hpb.trans hqc.symm)
  · exact List.pairwise_map.mpr h.rows_disjoint
  · rw [Replicas.abs, h.used_eq, blocksOf_map_abs]
    ext b
    simp

section Split

variable {outs : List (Part ρ)} {next : Block} {addr n : ℕ} (hn : 1 < n)
  (hids : outs.map Part.identity = mergeIds next addr (src.map Part.entry) n)
  (hfits : RunFits next n) (hvalid : (mergedBlocks (src.map Part.entry)).valid = true)
include hn hids hfits hvalid

theorem split_identity : outs.map Part.identity = (List.range n).map fun i =>
    (⟨nthBlock next i, nthBlock next i, []⟩,
      ⟨mergedBlocks (src.map Part.entry), splitRun next n⟩) := by
  have hclaim : (⟨mergedBlocks (src.map Part.entry), splitRun next n⟩ : Claim).valid = true :=
    (Claim.valid_iff _).mpr ⟨hvalid, (splitRun_spec hfits (by omega)).1⟩
  rw [hids, mergeIds_split next addr _ hn]
  simp only [hclaim, if_true]

theorem split_blocks (hp : p ∈ outs) : ∃ i < n, p.entry.blocks.blocks = {nthBlock next i} := by
  have hmem : p.identity ∈ outs.map Part.identity := List.mem_map_of_mem hp
  rw [split_identity hn hids hfits hvalid] at hmem
  obtain ⟨i, hi, hid⟩ := List.mem_map.mp hmem
  have hi' := List.mem_range.mp hi
  have hblocks : p.entry.blocks = ⟨nthBlock next i, nthBlock next i, []⟩ :=
    (congrArg Prod.fst hid).symm
  refine ⟨i, hi', ?_⟩
  rw [hblocks]
  exact Interval.blocks_single (one_le_nthBlock hfits hi')

theorem split_claim (hp : p ∈ outs) :
    p.entry.claim = ⟨mergedBlocks (src.map Part.entry), splitRun next n⟩ := by
  have hmem : p.identity ∈ outs.map Part.identity := List.mem_map_of_mem hp
  rw [split_identity hn hids hfits hvalid] at hmem
  obtain ⟨i, -, hid⟩ := List.mem_map.mp hmem
  exact (congrArg Prod.snd hid).symm

theorem split_distinct : (outs.map Part.abs).Pairwise fun p q => Disjoint p.blocks q.blocks := by
  have hpair : (outs.map Part.identity).Pairwise fun a b => Disjoint a.1.blocks b.1.blocks := by
    rw [split_identity hn hids hfits hvalid, List.pairwise_map]
    refine List.pairwise_lt_range.imp_of_mem fun {i j} hi hj hij => ?_
    have hi' := List.mem_range.mp hi
    have hj' := List.mem_range.mp hj
    rw [Interval.blocks_single (one_le_nthBlock hfits hi'),
      Interval.blocks_single (one_le_nthBlock hfits hj'), Set.disjoint_singleton]
    exact fun heq => hij.ne (nthBlock_injective hfits hi' hj' heq)
  rw [List.pairwise_map] at hpair ⊢
  exact hpair

theorem split_blocksOf : Descent.blocksOf (outs.map Part.abs) = (splitRun next n).blocks ∧
    Descent.blocksOf (outs.map Part.abs) = allocated next n := by
  have hmem : ∀ b, b ∈ Descent.blocksOf (outs.map Part.abs) ↔ ∃ i < n, b = nthBlock next i := by
    intro b
    rw [blocksOf_map_abs]
    have hids' := split_identity hn hids hfits hvalid
    constructor
    · intro hb
      obtain ⟨p, hp, hbp⟩ := Set.mem_iUnion₂.mp hb
      obtain ⟨i, hi, hblocks⟩ := split_blocks hn hids hfits hvalid hp
      rw [hblocks, Set.mem_singleton_iff] at hbp
      exact ⟨i, hi, hbp⟩
    · rintro ⟨i, hi, rfl⟩
      have hid := List.mem_map_of_mem (f := fun i => ((⟨nthBlock next i, nthBlock next i, []⟩,
        ⟨mergedBlocks (src.map Part.entry), splitRun next n⟩) : Interval × Claim))
        (List.mem_range.mpr hi)
      rw [← hids'] at hid
      obtain ⟨p, hp, hpid⟩ := List.mem_map.mp hid
      refine Set.mem_iUnion₂.mpr ⟨p, hp, ?_⟩
      have hblocks : p.entry.blocks = ⟨nthBlock next i, nthBlock next i, []⟩ :=
        congrArg Prod.fst hpid
      rw [hblocks, Interval.blocks_single (one_le_nthBlock hfits hi)]
      rfl
  constructor
  · ext b
    rw [hmem, (splitRun_spec hfits (by omega)).2]
  · ext b
    rw [hmem]
    exact ⟨fun h => ⟨hn, h⟩, fun h => h.2⟩

end Split

/-- **A merge planned and numbered by the code is a merge of sets.** -/
theorem Replicas.Step.abs [DecidableEq κ] {w' : Replicas κ ρ} (h : Replicas.Step w w')
    (hlive : ∀ r, ∀ p ∈ w.live r, p.entry.blocks.valid = true) : Descent.Step w.abs w'.abs := by
  obtain ⟨r, src, rest, outs, n, next, addr, hperm, hsrc, hn, hids, -, -, hfits, hfresh, hdisjoint,
    hrows⟩ := h
  have hmerged := mergedBlocks_valid hsrc fun p hp =>
    hlive r p (hperm.mem_iff.mpr (List.mem_append_left rest hp))
  have hperm' : (w.abs.live r).Perm (src.map Part.abs ++ rest.map Part.abs) :=
    List.map_append ▸ hperm.map Part.abs
  rw [Replicas.abs_replace]
  by_cases hone : n = 1
  · subst hone
    rw [mergeIds_one next addr _ hmerged] at hids
    obtain ⟨out, rfl⟩ : ∃ out, outs = [out] := List.length_eq_one_iff.mp (by
      simpa using congrArg List.length hids)
    have hid : out.identity = (mergedBlocks (src.map Part.entry), _) := (List.cons.inj hids).1
    have hempty : allocated next 1 = ∅ :=
      Set.eq_empty_of_forall_notMem fun b hb => absurd hb.1 (lt_irrefl 1)
    rw [hempty]
    refine Descent.Step.merge r _ _ out.abs hperm' (by simpa using hsrc) ?_ (fun c hc => ?_) ?_
    · rw [Part.abs, show out.entry.blocks = _ from congrArg Prod.fst hid]
      exact folded_mergedBlocks src
    · -- the claim kept is one the inputs carried
      obtain ⟨hvalid, rfl⟩ := Part.abs_claim_eq_some.mp hc
      have hclaim : out.entry.claim = widestClaim _ := congrArg Prod.snd hid
      rw [hclaim] at hvalid ⊢
      rcases widestClaim_mem (realizeClaims (unionOf (src.map Part.entry))
        (claimsOf (src.map Part.entry))).2 with hdef | hmem
      · rw [hdef] at hvalid
        exact absurd hvalid (by decide)
      · exact abs_mem_claimsOf (mem_of_mem_realizeClaims hmem)
    · rw [rowsOf_map_abs, ← hrows]
      simp [Part.abs]
  · have hlt : 1 < n := by omega
    obtain ⟨hrun, halloc⟩ := split_blocksOf hlt hids (hfits hlt) hmerged
    rw [← halloc]
    refine Descent.Step.split r _ _ _ (mergedBlocks (src.map Part.entry)).blocks hperm'
      (folded_mergedBlocks src) ?_ (split_distinct hlt hids (hfits hlt) hmerged) ?_ ?_ ?_
    · intro q hq
      obtain ⟨p, hp, rfl⟩ := List.mem_map.mp hq
      obtain ⟨i, hi, hblocks⟩ := split_blocks hlt hids (hfits hlt) hmerged hp
      exact ⟨nthBlock next i, hfresh _ ⟨hlt, i, hi, rfl⟩, hblocks⟩
    · intro q hq
      obtain ⟨p, hp, rfl⟩ := List.mem_map.mp hq
      have hclaim := split_claim hlt hids (hfits hlt) hmerged hp
      refine Part.abs_claim_eq_some.mpr ⟨?_, ?_⟩
      · rw [hclaim, Claim.valid_iff]
        exact ⟨hmerged, (splitRun_spec (hfits hlt) (by omega)).1⟩
      · rw [hclaim, hrun]
        rfl
    · exact List.pairwise_map.mpr hdisjoint
    · rw [rowsOf_map_abs, rowsOf_map_abs, hrows]

/-- Whole histories refine, and their parts have valid identities and are data. -/
theorem Replicas.Reachable.abs [DecidableEq κ] (h : w.Reachable) :
    Descent.Reachable w.abs ∧ ∀ p ∈ w.parts, p.entry.data = true := by
  induction h with
  | @start w h =>
    refine ⟨Descent.Reachable.start h.abs, fun p hp => ?_⟩
    rw [Replicas.parts, h.made_eq, List.map_nil, List.append_nil] at hp
    rw [Entry.data, (h.flushed p hp).1, Bool.not_false]
  | @step w w' _ hstep ih =>
    obtain ⟨hreach, hdata⟩ := ih
    have hsound := hreach.sound
    have hvalid : ∀ r, ∀ p ∈ w.live r, p.entry.blocks.valid = true := by
      intro r p hp
      have hon := hsound.descends.live_on r p.abs (List.mem_map_of_mem hp)
      exact Interval.valid_iff_nonempty.mpr (hsound.known.nonempty p.abs hon.mem_parts)
    refine ⟨Descent.Reachable.step hreach (hstep.abs hvalid), fun p hp => ?_⟩
    obtain ⟨r, src, rest, outs, n, next, addr, -, -, -, -, -, hout, -, -, -, -⟩ := hstep
    simp only [Replicas.parts, Replicas.replace, List.map_append, List.map_map, List.mem_append,
      ← or_assoc] at hp
    rcases hp with hp | hp
    · exact hdata p (List.mem_append.mpr hp)
    · obtain ⟨q, hq, rfl⟩ := List.mem_map.mp hp
      rw [comp_apply, Entry.data, hout q hq, Bool.not_false]

/-! ## The relations of the lineage -/

section Relations

theorem abs_mem_claims_of_mem_lineage {c : Claim} (hc : c ∈ w.lineage) : c.abs ∈ w.abs.claims := by
  obtain ⟨e, he, -, hvalid, rfl⟩ := mem_lineageOf.mp hc
  obtain ⟨p, hp, rfl⟩ := List.mem_map.mp he
  refine ⟨p.abs, ?_, Part.abs_claim_eq_some.mpr ⟨hvalid, rfl⟩⟩
  rw [Replicas.abs_parts]
  exact List.mem_map_of_mem hp

theorem exists_get_of_mem_claims (hdata : ∀ p ∈ w.parts, p.entry.data = true)
    (hc : c ∈ w.abs.claims) :
    ∃ i : Fin w.lineage.length, (w.lineage.get i).abs = c := by
  obtain ⟨q, hq, hclaim⟩ := hc
  rw [Replicas.abs_parts] at hq
  obtain ⟨p, hp, rfl⟩ := List.mem_map.mp hq
  obtain ⟨hvalid, rfl⟩ := Part.abs_claim_eq_some.mp hclaim
  have hmem : p.entry.claim ∈ w.lineage :=
    mem_lineageOf.mpr ⟨p.entry, List.mem_map_of_mem hp, hdata p hp, hvalid, rfl⟩
  obtain ⟨i, hi⟩ := List.mem_iff_get.mp hmem
  exact ⟨i, congrArg Claim.abs hi⟩

theorem upSet_lineage (hdata : ∀ p ∈ w.parts, p.entry.data = true) (S : Set Block) :
    upSet w.lineage S = Descent.up w.abs.claims S := by
  refine subset_antisymm (Worklist.closure_subset_of_rules Descent.meets_mono (fun i => ?_) S)
    (Worklist.closure_subset_of_rules reachesGroup_mono ?_ S)
  · exact ⟨⟨_, abs_mem_claims_of_mem_lineage (List.get_mem w.lineage i)⟩, fun _ hT => hT,
      subset_rfl⟩
  · rintro ⟨c, hc⟩
    obtain ⟨i, rfl⟩ := exists_get_of_mem_claims hdata hc
    exact ⟨i, fun _ hT => hT, subset_rfl⟩

theorem holdSet_lineage_subset (S : Set Block) :
    holdSet w.lineage S ⊆ Descent.hold w.abs.claims S := by
  refine Worklist.closure_subset_of_rules (fun c S T hST h => h.trans hST) (fun i => ?_) S
  exact ⟨⟨_, abs_mem_claims_of_mem_lineage (List.get_mem w.lineage i)⟩, fun _ hT => hT.2,
    subset_rfl⟩

end Relations

/-- **Lineage soundness.**  In every history, over the lineage collected from all parts: parts that
share a row overlap, and a part that subsumes another holds all of its rows. -/
theorem lineage_sound [DecidableEq κ] {w : Replicas κ ρ} (h : w.Reachable) {a b : Part ρ}
    (ha : a ∈ w.parts) (hb : b ∈ w.parts) :
    ((a.rows ∩ b.rows).Nonempty → w.lineage.overlaps a.entry b.entry = true) ∧
    (w.lineage.subsumes a.entry b.entry = true → b.rows ⊆ a.rows) := by
  obtain ⟨hreach, hdata⟩ := h.abs
  have hsound := hreach.sound
  have ha' : a.abs ∈ w.abs.parts := w.abs_parts ▸ List.mem_map_of_mem ha
  have hb' : b.abs ∈ w.abs.parts := w.abs_parts ▸ List.mem_map_of_mem hb
  refine ⟨?_, fun hsub => ?_⟩
  · rintro ⟨x, hxa, hxb⟩
    rw [overlaps_iff, upSet_lineage hdata, upSet_lineage hdata]
    rcases hsound.exists_shared_ancestor ha' hb' hxa hxb with hmeet | hmeet | ⟨c, hc, hvia, hmeet⟩
    · exact .inl hmeet
    · exact .inr (.inl hmeet)
    · obtain ⟨i, rfl⟩ := exists_get_of_mem_claims hdata hc
      exact .inr (.inr ⟨i, hvia, hmeet⟩)
  · refine hsound.rows_subset_of_hold ha' hb' ?_
    exact (subset_holdSet_of_subsumes hsub).2.trans (holdSet_lineage_subset _)

/-- A data entry of level `level` with the given identity, written under term 1. -/
def sampleEntry (name : Bytes) (blocks : Interval) (claim : Claim) (level : UInt32) : Entry :=
  ⟨name, 0, 0, blocks, level, claim, 1, none, false⟩

/-- Two flushed parts, and a replica that merges them and splits the rows the other way round. -/
def sampleFlushed : List (Part ℕ) :=
  [⟨sampleEntry [5] ⟨⟨1, 1⟩, ⟨1, 1⟩, []⟩ default 0, {0}⟩,
    ⟨sampleEntry [6] ⟨⟨1, 2⟩, ⟨1, 2⟩, []⟩ default 0, {1}⟩]

/-- The claim of that split. -/
def sampleClaim : Claim := ⟨⟨⟨1, 1⟩, ⟨1, 2⟩, []⟩, ⟨⟨2, 1⟩, ⟨2, 2⟩, []⟩⟩

/-- Its outputs. -/
def sampleSplit : List (Part ℕ) :=
  [⟨sampleEntry [7] ⟨⟨2, 1⟩, ⟨2, 1⟩, []⟩ sampleClaim 1, {1}⟩,
    ⟨sampleEntry [8] ⟨⟨2, 2⟩, ⟨2, 2⟩, []⟩ sampleClaim 1, {0}⟩]

/-- Both replicas before it. -/
def sampleStart : Replicas Bool ℕ :=
  ⟨sampleFlushed, fun _ => sampleFlushed, [], {b | ∃ p ∈ sampleFlushed, b ∈ p.entry.blocks.blocks}⟩

theorem sampleStart_isStart : sampleStart.IsStart where
  live_eq _ := rfl
  made_eq := rfl
  flushed := by
    intro p hp
    simp only [sampleStart, sampleFlushed, List.mem_cons, List.not_mem_nil, or_false] at hp
    rcases hp with rfl | rfl
    · exact ⟨rfl, rfl, ⟨1, 1⟩, by decide, rfl⟩
    · exact ⟨rfl, rfl, ⟨1, 2⟩, by decide, rfl⟩
  blocks_ne := by simp [sampleStart, sampleFlushed, sampleEntry]
  rows_disjoint := by simp [sampleStart, sampleFlushed]
  used_eq := rfl

theorem sampleSplit_step : Replicas.Step sampleStart
    (sampleStart.replace true [] sampleSplit (allocated ⟨2, 1⟩ 2)) := by
  refine Replicas.Step.merge true sampleFlushed [] sampleSplit 2 ⟨2, 1⟩ 0 (.refl _)
    (List.cons_ne_nil _ _) (by decide) (by decide) (by decide) ?_
    (fun _ => ⟨by decide, by decide⟩) ?_ ?_ ?_
  · simp [sampleSplit, sampleEntry]
  · rintro b ⟨-, i, hi, rfl⟩ ⟨p, hp, hb⟩
    simp only [sampleFlushed, List.mem_cons, List.not_mem_nil, or_false] at hp
    rcases hp with rfl | rfl
    · rw [sampleEntry, Interval.blocks_single (by decide)] at hb
      exact absurd (congrArg Block.term hb) (show ¬ (2 : UInt64) = 1 by decide)
    · rw [sampleEntry, Interval.blocks_single (by decide)] at hb
      exact absurd (congrArg Block.term hb) (show ¬ (2 : UInt64) = 1 by decide)
  · simp [sampleSplit]
  · simp [sampleSplit, sampleFlushed, Set.union_comm]

/-- The first flushed part and the second output of the split share row 0, and overlap. -/
theorem lineage_sound_sample :
    (sampleStart.replace true [] sampleSplit (allocated ⟨2, 1⟩ 2)).lineage.overlaps
      (sampleEntry [5] ⟨⟨1, 1⟩, ⟨1, 1⟩, []⟩ default 0)
      (sampleEntry [8] ⟨⟨2, 2⟩, ⟨2, 2⟩, []⟩ sampleClaim 1) = true := by
  refine (lineage_sound (a := ⟨sampleEntry [5] ⟨⟨1, 1⟩, ⟨1, 1⟩, []⟩ default 0, {0}⟩)
    (b := ⟨sampleEntry [8] ⟨⟨2, 2⟩, ⟨2, 2⟩, []⟩ sampleClaim 1, {0}⟩)
    (Replicas.Reachable.step (Replicas.Reachable.start sampleStart_isStart) sampleSplit_step)
    ?_ ?_).1 ⟨0, rfl, rfl⟩
  · simp [Replicas.parts, Replicas.replace, sampleStart, sampleFlushed]
  · simp [Replicas.parts, Replicas.replace, sampleStart, sampleSplit]

end OtelStorage.BucketIndex
