import Mathlib.Data.List.Perm.Basic
import Mathlib.Order.CompletePartialOrder
import OtelStorage.Foundation.Worklist

/-!
# What merging and splitting do to rows

This file is the lineage of parts seen as sets, over arbitrary types of blocks, replicas and rows.
A part holds rows and is identified by a set of blocks.  Replicas start from the same flushed
parts and from then on merge on their own: a merge either writes one part, identified by the
blocks of its inputs, or splits its rows over several parts with a fresh block each, which carry
jointly the claim to the blocks of the inputs.

Two questions are asked of the identities alone: may two parts share a row, and does one part hold
every row of another.  The answers follow the claims, upward for the first (`up`) and downward for
the second (`hold`), and the results of the file are that they are never wrong in the dangerous
direction: `exists_shared_ancestor` and `rows_subset_of_hold`.

The invariants come in four groups, each kept by a step for its own reason.

* `Known`: identities are made of blocks already used, so a fresh block is in none of them.
* `Rows`: every block stands for a set of rows, and a claim's ancestry stands for the same rows as
  its group.
* `Owned`: the blocks of a split group belong to one replica, and no replica's parts descend
  through a group of another.
* `Descends`: of two parts of one replica that share a row, one descends from the other.
-/

namespace OtelStorage.Descent

open Function

variable {β κ ρ : Type*} {r : κ} {x : ρ} {R : β → Set ρ}

/-- The blocks a group of parts covers jointly, and the blocks of its members. -/
structure Claim (β : Type*) where
  blocks : Set β
  group : Set β

/-- A part: its blocks, the claim it carries, and its rows. -/
structure Part (β ρ : Type*) where
  blocks : Set β
  claim : Option (Claim β)
  rows : Set ρ

/-- The parts every replica started from, the live parts of each, the parts each has made, and the
blocks handed out so far. -/
structure World (β κ ρ : Type*) where
  flushed : List (Part β ρ)
  live : κ → List (Part β ρ)
  made : List (κ × Part β ρ)
  used : Set β

variable (w : World β κ ρ) {p : Part β ρ} (C : Set (Claim β)) (ps : List (Part β ρ))

/-- All parts there ever were. -/
def World.parts : List (Part β ρ) := w.flushed ++ w.made.map Prod.snd

/-- The part exists, or existed, on replica `r`. -/
def World.On (r : κ) (p : Part β ρ) : Prop := p ∈ w.flushed ∨ (r, p) ∈ w.made

/-- The claims of all parts. -/
def World.claims : Set (Claim β) := {c | ∃ p ∈ w.parts, p.claim = some c}

variable {w}

theorem World.mem_parts : p ∈ w.parts ↔ p ∈ w.flushed ∨ ∃ r, (r, p) ∈ w.made := by
  simp [World.parts]

theorem World.On.mem_parts (h : w.On r p) : p ∈ w.parts :=
  World.mem_parts.mpr (h.imp_right fun h => ⟨r, h⟩)

/-! ## Ascent and descent -/

/-- The blocks the rows of `S` derive from: through each group that a block reached belongs to. -/
def up (S : Set β) : Set β :=
  Worklist.closure (fun (c : C) T => (c.1.group ∩ T).Nonempty) (fun c => c.1.blocks) S

/-- The blocks whose rows `S` includes: with the ancestry of a group, its members. -/
def hold (S : Set β) : Set β :=
  Worklist.closure (fun (c : C) T => c.1.blocks ⊆ T) (fun c => c.1.group) S

section Up

variable {C} {D : Set (Claim β)} {S T : Set β}

theorem meets_mono (c : C) (S T : Set β) (hST : S ⊆ T) (h : (c.1.group ∩ S).Nonempty) :
    (c.1.group ∩ T).Nonempty :=
  h.mono (Set.inter_subset_inter_right _ hST)

theorem subset_up : S ⊆ up C S := Worklist.subset_closure _ _ S

theorem up_subset_up (h : S ⊆ up C T) : up C S ⊆ up C T :=
  Worklist.closure_mono _ _ meets_mono h

theorem up_mono_claims (h : C ⊆ D) : up C S ⊆ up D S := by
  refine Worklist.closure_subset_of_rules meets_mono ?_ S
  rintro ⟨c, hc⟩
  exact ⟨⟨c, h hc⟩, fun _ hT => hT, subset_rfl⟩

/-- A block reached and not in the start is in the ancestry of a group that is passed through. -/
theorem exists_claim_of_mem_up {b : β} (hb : b ∈ up C S) (hbS : b ∉ S) :
    ∃ c ∈ C, (c.group ∩ up C S).Nonempty ∧ b ∈ c.blocks := by
  rcases (Worklist.mem_closure_iff _ _ meets_mono).mp hb with h | ⟨c, hc, hbc⟩
  · exact absurd h hbS
  · exact ⟨c.1, c.2, hc, hbc⟩

theorem up_subset (hS : S ⊆ T) (hT : ∀ c ∈ C, (c.group ∩ T).Nonempty → c.blocks ⊆ T) : up C S ⊆ T :=
  Worklist.closure_subset _ _ hS fun c => hT c.1 c.2

theorem claim_blocks_subset_up {c : Claim β} (hc : c ∈ C) (h : (c.group ∩ S).Nonempty) :
    c.blocks ⊆ up C S :=
  Worklist.closed_closure _ _ meets_mono S ⟨c, hc⟩ (meets_mono ⟨c, hc⟩ _ _ subset_up h)

end Up

/-! ## Histories -/

/-- `T` comes from `S` by folding in the ancestry of claims whose group is held. -/
inductive Folded (C : Set (Claim β)) (S : Set β) : Set β → Prop
  | start : Folded C S S
  | fold {T : Set β} {c : Claim β} : Folded C S T → c ∈ C → c.group ⊆ T → Folded C S (T ∪ c.blocks)

/-- The claims a list of parts carries. -/
def claimsOf : Set (Claim β) := {c | ∃ p ∈ ps, p.claim = some c}

/-- The blocks of a list of parts. -/
def blocksOf : Set β := ⋃ p ∈ ps, p.blocks

/-- Their rows. -/
def rowsOf : Set ρ := ⋃ p ∈ ps, p.rows

/-- Flushed parts, each with a block of its own and rows of its own, live on every replica. -/
structure IsStart (w : World β κ ρ) : Prop where
  live_eq : ∀ r, w.live r = w.flushed
  made_eq : w.made = []
  single : ∀ p ∈ w.flushed, p.claim = none ∧ ∃ b, p.blocks = {b}
  blocks_disjoint : w.flushed.Pairwise fun p q => Disjoint p.blocks q.blocks
  rows_disjoint : w.flushed.Pairwise fun p q => Disjoint p.rows q.rows
  used_eq : w.used = blocksOf w.flushed

/-- The world after replica `r` has put `outs` in the place of some of its parts, leaving `rest`. -/
def World.replace [DecidableEq κ] (w : World β κ ρ) (r : κ) (rest outs : List (Part β ρ))
    (fresh : Set β) : World β κ ρ where
  flushed := w.flushed
  live := update w.live r (rest ++ outs)
  made := w.made ++ outs.map fun p => (r, p)
  used := w.used ∪ fresh

section Histories

variable [DecidableEq κ]

/-- A replica merges parts of its live set, into one part or into several. -/
inductive Step : World β κ ρ → World β κ ρ → Prop
  | merge {w : World β κ ρ} (r : κ) (src rest : List (Part β ρ)) (out : Part β ρ)
      (hlive : (w.live r).Perm (src ++ rest)) (hsrc : src ≠ [])
      (hblocks : Folded (claimsOf src) (blocksOf src) out.blocks)
      (hclaim : ∀ c, out.claim = some c → c ∈ claimsOf src)
      (hrows : out.rows = rowsOf src) : Step w (w.replace r rest [out] ∅)
  | split {w : World β κ ρ} (r : κ) (src rest outs : List (Part β ρ)) (J : Set β)
      (hlive : (w.live r).Perm (src ++ rest))
      (hJ : Folded (claimsOf src) (blocksOf src) J)
      (hfresh : ∀ p ∈ outs, ∃ b, b ∉ w.used ∧ p.blocks = {b})
      (hdistinct : outs.Pairwise fun p q => Disjoint p.blocks q.blocks)
      (hclaim : ∀ p ∈ outs, p.claim = some ⟨J, blocksOf outs⟩)
      (hdisjoint : outs.Pairwise fun p q => Disjoint p.rows q.rows)
      (hrows : rowsOf outs = rowsOf src) : Step w (w.replace r rest outs (blocksOf outs))

/-- The worlds of the histories. -/
inductive Reachable : World β κ ρ → Prop
  | start {w : World β κ ρ} : IsStart w → Reachable w
  | step {w w' : World β κ ρ} : Reachable w → Step w w' → Reachable w'

end Histories

/-! ## What a replacement changes -/

section Replace

variable [DecidableEq κ] {rest outs : List (Part β ρ)} {fresh : Set β} {s : κ}

theorem mem_parts_replace : p ∈ (w.replace r rest outs fresh).parts ↔ p ∈ w.parts ∨ p ∈ outs := by
  simp only [World.replace, World.parts, List.map_append, List.map_map, List.mem_append, or_assoc]
  refine or_congr_right (or_congr_right ?_)
  simp

theorem claims_replace : (w.replace r rest outs fresh).claims = w.claims ∪ claimsOf outs := by
  ext c
  constructor
  · rintro ⟨p, hp, hc⟩
    exact (mem_parts_replace.mp hp).imp (fun hp => ⟨p, hp, hc⟩) (fun hp => ⟨p, hp, hc⟩)
  · rintro (⟨p, hp, hc⟩ | ⟨p, hp, hc⟩)
    · exact ⟨p, mem_parts_replace.mpr (.inl hp), hc⟩
    · exact ⟨p, mem_parts_replace.mpr (.inr hp), hc⟩

theorem mem_made_replace : (s, p) ∈ (w.replace r rest outs fresh).made ↔
    (s, p) ∈ w.made ∨ (s = r ∧ p ∈ outs) := by
  simp only [World.replace, List.mem_append, List.mem_map, Prod.mk.injEq]
  refine or_congr_right ⟨?_, ?_⟩
  · rintro ⟨q, hq, rfl, rfl⟩
    exact ⟨rfl, hq⟩
  · rintro ⟨rfl, hp⟩
    exact ⟨p, hp, rfl, rfl⟩

theorem on_replace : (w.replace r rest outs fresh).On s p ↔ w.On s p ∨ (s = r ∧ p ∈ outs) := by
  rw [World.On, mem_made_replace, World.On, or_assoc]
  rfl

end Replace

/-! ## Known blocks -/

/-- Identities are nonempty and made of blocks handed out. -/
structure Known (w : World β κ ρ) : Prop where
  nonempty : ∀ p ∈ w.parts, p.blocks.Nonempty
  used : ∀ p ∈ w.parts, p.blocks ⊆ w.used
  claim_used : ∀ c ∈ w.claims, c.blocks ⊆ w.used ∧ c.group ⊆ w.used

variable {ps} {fresh : Set β}

theorem mem_blocksOf {b : β} : b ∈ blocksOf ps ↔ ∃ p ∈ ps, b ∈ p.blocks := by
  simp [blocksOf]

theorem mem_rowsOf : x ∈ rowsOf ps ↔ ∃ p ∈ ps, x ∈ p.rows := by
  simp [rowsOf]

variable {C} {S T : Set β}

theorem Folded.subset (h : Folded C S T) : S ⊆ T := by
  induction h with
  | start => exact subset_rfl
  | fold _ _ _ ih => exact ih.trans Set.subset_union_left

theorem Folded.induct {U : Set β} (h : Folded C S T) (hS : S ⊆ U)
    (hC : ∀ c ∈ C, c.group ⊆ U → c.blocks ⊆ U) : T ⊆ U := by
  induction h with
  | start => exact hS
  | fold _ hc hg ih => exact Set.union_subset ih (hC _ hc (hg.trans ih))

section Sources

variable {src rest : List (Part β ρ)} {J : Set β}

theorem Known.folded_used (h : Known w) (hsrc : ∀ p ∈ src, p ∈ w.parts)
    (hJ : Folded (claimsOf src) (blocksOf src) J) : J ⊆ w.used := by
  refine hJ.induct ?_ ?_
  · intro b hb
    obtain ⟨p, hp, hbp⟩ := mem_blocksOf.mp hb
    exact h.used p (hsrc p hp) hbp
  · rintro c ⟨p, hp, hc⟩ -
    exact (h.claim_used c ⟨p, hsrc p hp, hc⟩).1

theorem claimsOf_subset (hsrc : ∀ p ∈ src, p ∈ w.parts) : claimsOf src ⊆ w.claims := by
  rintro c ⟨p, hp, hc⟩
  exact ⟨p, hsrc p hp, hc⟩

theorem Known.folded_nonempty (h : Known w) (hsrc : ∀ p ∈ src, p ∈ w.parts) (hne : src ≠ [])
    (hJ : Folded (claimsOf src) (blocksOf src) J) : J.Nonempty := by
  obtain ⟨p, hp⟩ := List.exists_mem_of_ne_nil src hne
  obtain ⟨b, hb⟩ := h.nonempty p (hsrc p hp)
  exact ⟨b, hJ.subset (mem_blocksOf.mpr ⟨p, hp, hb⟩)⟩

end Sources

theorem Known.start (h : IsStart w) : Known w := by
  have hparts : w.parts = w.flushed := by
    rw [World.parts, h.made_eq, List.map_nil, List.append_nil]
  refine ⟨fun p hp => ?_, fun p hp => ?_, ?_⟩
  · obtain ⟨-, b, hb⟩ := h.single p (hparts ▸ hp)
    exact hb ▸ Set.singleton_nonempty b
  · rw [h.used_eq]
    exact fun b hb => mem_blocksOf.mpr ⟨p, hparts ▸ hp, hb⟩
  · rintro c ⟨p, hp, hc⟩
    rw [(h.single p (hparts ▸ hp)).1] at hc
    exact absurd hc (by simp)

variable {rest outs src : List (Part β ρ)} {q : Part β ρ}

theorem Known.replace [DecidableEq κ] (h : Known w)
    (hout : ∀ p ∈ outs, p.blocks.Nonempty ∧ p.blocks ⊆ w.used ∪ fresh)
    (hclaim : ∀ c ∈ claimsOf outs, c.blocks ⊆ w.used ∪ fresh ∧ c.group ⊆ w.used ∪ fresh) :
    Known (w.replace r rest outs fresh) := by
  have hold : w.used ⊆ w.used ∪ fresh := Set.subset_union_left
  refine ⟨fun p hp => ?_, fun p hp => ?_, fun c hc => ?_⟩
  · rcases mem_parts_replace.mp hp with hp | hp
    · exact h.nonempty p hp
    · exact (hout p hp).1
  · rcases mem_parts_replace.mp hp with hp | hp
    · exact (h.used p hp).trans hold
    · exact (hout p hp).2
  · rw [claims_replace] at hc
    rcases hc with hc | hc
    · exact ⟨(h.claim_used c hc).1.trans hold, (h.claim_used c hc).2.trans hold⟩
    · exact hclaim c hc

/-! ## Blocks as sets of rows -/

/-- Each block stands for the rows `R` gives it: a part holds the rows of its blocks, and a claim's
ancestry stands for the rows of its group. -/
structure Rows (R : β → Set ρ) (w : World β κ ρ) : Prop where
  rows_eq : ∀ p ∈ w.parts, p.rows = ⋃ b ∈ p.blocks, R b
  claim_rows : ∀ c ∈ w.claims, ⋃ b ∈ c.blocks, R b = ⋃ b ∈ c.group, R b

theorem eq_of_pairwise_disjoint {α γ : Type*} {f : α → Set γ} {l : List α}
    (h : l.Pairwise fun p q => Disjoint (f p) (f q)) {p q : α} (hp : p ∈ l) (hq : q ∈ l) {x : γ}
    (hxp : x ∈ f p) (hxq : x ∈ f q) : p = q := by
  by_contra hne
  have hsymm : Std.Symm fun p q => Disjoint (f p) (f q) := ⟨fun _ _ h => h.symm⟩
  exact Set.disjoint_left.mp (h.forall hp hq hne) hxp hxq

theorem Rows.start (h : IsStart w) :
    Rows (fun b => {x | ∃ p ∈ w.flushed, b ∈ p.blocks ∧ x ∈ p.rows}) w := by
  have hparts : w.parts = w.flushed := by
    rw [World.parts, h.made_eq, List.map_nil, List.append_nil]
  refine ⟨fun p hp => ?_, ?_⟩
  · rw [hparts] at hp
    obtain ⟨-, b, hb⟩ := h.single p hp
    ext x
    simp only [hb, Set.mem_singleton_iff, Set.iUnion_iUnion_eq_left, Set.mem_ofPred_eq]
    constructor
    · exact fun hx => ⟨p, hp, hb ▸ rfl, hx⟩
    · rintro ⟨q, hq, hbq, hx⟩
      rwa [eq_of_pairwise_disjoint h.blocks_disjoint hp hq (hb ▸ rfl) hbq]
  · rintro c ⟨p, hp, hc⟩
    rw [(h.single p (hparts ▸ hp)).1] at hc
    exact absurd hc (by simp)

theorem Rows.folded {J : Set β} (h : Rows R w)
    (hsrc : ∀ p ∈ src, p ∈ w.parts) (hJ : Folded (claimsOf src) (blocksOf src) J) :
    ⋃ b ∈ J, R b = rowsOf src := by
  have hrow : ∀ p ∈ src, ∀ b ∈ p.blocks, R b ⊆ rowsOf src := by
    intro p hp b hb x hx
    refine mem_rowsOf.mpr ⟨p, hp, ?_⟩
    rw [h.rows_eq p (hsrc p hp)]
    exact Set.mem_biUnion hb hx
  refine subset_antisymm (Set.iUnion₂_subset ?_) fun x hx => ?_
  · refine hJ.induct (U := {b | R b ⊆ rowsOf src}) (fun b hb => ?_) ?_
    · obtain ⟨p, hp, hbp⟩ := mem_blocksOf.mp hb
      exact hrow p hp b hbp
    · rintro c ⟨p, hp, hc⟩ hgroup b hb
      calc R b ⊆ ⋃ b ∈ c.blocks, R b := Set.subset_biUnion_of_mem hb
        _ = ⋃ b ∈ c.group, R b := h.claim_rows c ⟨p, hsrc p hp, hc⟩
        _ ⊆ rowsOf src := Set.iUnion₂_subset fun b hb => hgroup hb
  · obtain ⟨p, hp, hxp⟩ := mem_rowsOf.mp hx
    rw [h.rows_eq p (hsrc p hp)] at hxp
    obtain ⟨b, hb, hxb⟩ := Set.mem_iUnion₂.mp hxp
    exact Set.mem_biUnion (hJ.subset (mem_blocksOf.mpr ⟨p, hp, hb⟩)) hxb

theorem Rows.replace [DecidableEq κ] (h : Rows R w)
    (hout : ∀ p ∈ outs, p.rows = ⋃ b ∈ p.blocks, R b)
    (hclaim : ∀ c ∈ claimsOf outs, ⋃ b ∈ c.blocks, R b = ⋃ b ∈ c.group, R b) :
    Rows R (w.replace r rest outs fresh) := by
  refine ⟨fun p hp => ?_, fun c hc => ?_⟩
  · exact (mem_parts_replace.mp hp).elim (h.rows_eq p) (hout p)
  · rw [claims_replace] at hc
    exact hc.elim (h.claim_rows c) (hclaim c)

theorem Rows.congr {R' : β → Set ρ} (h : Rows R w) (hk : Known w) (hR : ∀ b ∈ w.used, R' b = R b) :
    Rows R' w := by
  have hunion : ∀ S ⊆ w.used, ⋃ b ∈ S, R' b = ⋃ b ∈ S, R b :=
    fun S hS => Set.iUnion₂_congr fun b hb => hR b (hS hb)
  refine ⟨fun p hp => ?_, fun c hc => ?_⟩
  · rw [hunion _ (hk.used p hp)]
    exact h.rows_eq p hp
  · rw [hunion _ (hk.claim_used c hc).1, hunion _ (hk.claim_used c hc).2]
    exact h.claim_rows c hc

/-! ## Owners of groups -/

/-- Each block is common to all replicas or belongs to one.  A replica's parts and the ancestries of
its claims use common blocks and its own; the members of its groups are its own. -/
structure Owned (own : β → Option κ) (w : World β κ ρ) : Prop where
  flush : ∀ p ∈ w.flushed, p.claim = none ∧ ∃ b, p.blocks = {b} ∧ own b = none
  made : ∀ r p, (r, p) ∈ w.made → ∀ b ∈ p.blocks, own b = none ∨ own b = some r
  ancestry : ∀ r p c, (r, p) ∈ w.made → p.claim = some c →
    ∀ b ∈ c.blocks, own b = none ∨ own b = some r
  group : ∀ r p c, (r, p) ∈ w.made → p.claim = some c → ∀ b ∈ c.group, own b = some r

theorem Owned.start (h : IsStart w) : Owned (fun _ => none) w := by
  refine ⟨fun p hp => ?_, ?_, ?_, ?_⟩
  · obtain ⟨hclaim, b, hb⟩ := h.single p hp
    exact ⟨hclaim, b, hb, rfl⟩
  · exact fun r p hp => absurd (h.made_eq ▸ hp) List.not_mem_nil
  · exact fun r p c hp => absurd (h.made_eq ▸ hp) List.not_mem_nil
  · exact fun r p c hp => absurd (h.made_eq ▸ hp) List.not_mem_nil

section OwnedLemmas

variable {own own' : β → Option κ}

section

variable (h : Owned own w)

include h

theorem Owned.blocks_of_on (hp : w.On r p) : ∀ b ∈ p.blocks, own b = none ∨ own b = some r := by
  rcases hp with hp | hp
  · obtain ⟨-, b, hb, hown⟩ := h.flush p hp
    rw [hb]
    rintro b' rfl
    exact .inl hown
  · exact h.made r p hp

theorem Owned.made_of_claim (hp : w.On r p) {c : Claim β} (hc : p.claim = some c) :
    (r, p) ∈ w.made := by
  rcases hp with hp | hp
  · rw [(h.flush p hp).1] at hc
    exact absurd hc (by simp)
  · exact hp

theorem Owned.folded {J : Set β} (hsrc : ∀ p ∈ src, w.On r p)
    (hJ : Folded (claimsOf src) (blocksOf src) J) :
    ∀ b ∈ J, own b = none ∨ own b = some r := by
  refine hJ.induct (U := {b | own b = none ∨ own b = some r}) (fun b hb => ?_) ?_
  · obtain ⟨p, hp, hbp⟩ := mem_blocksOf.mp hb
    exact h.blocks_of_on (hsrc p hp) b hbp
  · rintro c ⟨p, hp, hc⟩ -
    exact h.ancestry r p c (h.made_of_claim (hsrc p hp) hc) hc

theorem Owned.congr (hk : Known w) (hown : ∀ b ∈ w.used, own' b = own b) :
    Owned own' w := by
  have hparts : ∀ s p, (s, p) ∈ w.made → p ∈ w.parts :=
    fun s p hp => World.mem_parts.mpr (.inr ⟨s, hp⟩)
  refine ⟨fun p hp => ?_, fun s p hp b hb => ?_, fun s p c hp hc b hb => ?_,
    fun s p c hp hc b hb => ?_⟩
  · obtain ⟨hclaim, b, hb, hnone⟩ := h.flush p hp
    refine ⟨hclaim, b, hb, ?_⟩
    rw [hown b (hk.used p (World.mem_parts.mpr (.inl hp)) (hb ▸ rfl))]
    exact hnone
  · rw [hown b (hk.used p (hparts s p hp) hb)]
    exact h.made s p hp b hb
  · rw [hown b ((hk.claim_used c ⟨p, hparts s p hp, hc⟩).1 hb)]
    exact h.ancestry s p c hp hc b hb
  · rw [hown b ((hk.claim_used c ⟨p, hparts s p hp, hc⟩).2 hb)]
    exact h.group s p c hp hc b hb

theorem Owned.replace [DecidableEq κ]
    (hblocks : ∀ p ∈ outs, ∀ b ∈ p.blocks, own b = none ∨ own b = some r)
    (hancestry : ∀ c ∈ claimsOf outs, ∀ b ∈ c.blocks, own b = none ∨ own b = some r)
    (hgroup : ∀ c ∈ claimsOf outs, ∀ b ∈ c.group, own b = some r) :
    Owned own (w.replace r rest outs fresh) := by
  refine ⟨h.flush, fun s p hp => ?_, fun s p c hp hc => ?_, fun s p c hp hc => ?_⟩
  · rcases mem_made_replace.mp hp with hold | ⟨rfl, hnew⟩
    · exact h.made s p hold
    · exact hblocks p hnew
  · rcases mem_made_replace.mp hp with hold | ⟨rfl, hnew⟩
    · exact h.ancestry s p c hold hc
    · exact hancestry c ⟨p, hnew, hc⟩
  · rcases mem_made_replace.mp hp with hold | ⟨rfl, hnew⟩
    · exact h.group s p c hold hc
    · exact hgroup c ⟨p, hnew, hc⟩

theorem Owned.up_subset (hp : w.On r p) :
    ∀ b ∈ up w.claims p.blocks, own b = none ∨ own b = some r := by
  refine Descent.up_subset (h.blocks_of_on hp) ?_
  rintro c ⟨q, hq, hc⟩ ⟨b, hbg, hb⟩
  rcases World.mem_parts.mp hq with hq | ⟨s, hq⟩
  · rw [(h.flush q hq).1] at hc
    exact absurd hc (by simp)
  have hs := h.group s q c hq hc b hbg
  -- the group met belongs to `s`, and what is reached to `r`
  obtain rfl : s = r := by
    rcases hb with hb | hb
    · rw [hs] at hb
      exact absurd hb (by simp)
    · rw [hs] at hb
      exact Option.some.inj hb
  exact h.ancestry s q c hq hc

end

end OwnedLemmas

/-! ## Descent on one replica -/

/-- The live parts of a replica hold each row of it once, and a part that shares a row with a live
one is an ancestor of it. -/
structure Descends (w : World β κ ρ) : Prop where
  live_on : ∀ r, ∀ p ∈ w.live r, w.On r p
  live_disjoint : ∀ r, (w.live r).Pairwise fun p q => Disjoint p.rows q.rows
  live_cover : ∀ r p, w.On r p → p.rows ⊆ rowsOf (w.live r)
  flush_disjoint : w.flushed.Pairwise fun p q => Disjoint p.rows q.rows
  flush_cover : ∀ p ∈ w.parts, p.rows ⊆ rowsOf w.flushed
  descent : ∀ r p q x, w.On r p → q ∈ w.live r → x ∈ p.rows → x ∈ q.rows →
    p.blocks ⊆ up w.claims q.blocks
  comparable : ∀ r p q x, w.On r p → w.On r q → x ∈ p.rows → x ∈ q.rows →
    p.blocks ⊆ up w.claims q.blocks ∨ q.blocks ⊆ up w.claims p.blocks

theorem Descends.start (h : IsStart w) : Descends w := by
  have hparts : w.parts = w.flushed := by
    rw [World.parts, h.made_eq, List.map_nil, List.append_nil]
  have hon : ∀ r p, w.On r p → p ∈ w.flushed := fun r p hp => hparts ▸ hp.mem_parts
  refine ⟨fun r p hp => .inl (h.live_eq r ▸ hp), fun r => h.live_eq r ▸ h.rows_disjoint,
    fun r p hp x hx => ?_, h.rows_disjoint, fun p hp x hx => ?_, fun r p q x hp hq hxp hxq => ?_,
    fun r p q x hp hq hxp hxq => ?_⟩
  · exact mem_rowsOf.mpr ⟨p, h.live_eq r ▸ hon r p hp, hx⟩
  · exact mem_rowsOf.mpr ⟨p, hparts ▸ hp, hx⟩
  · rw [eq_of_pairwise_disjoint h.rows_disjoint (hon r p hp) (h.live_eq r ▸ hq) hxp hxq]
    exact subset_up
  · rw [eq_of_pairwise_disjoint h.rows_disjoint (hon r p hp) (hon r q hq) hxp hxq]
    exact .inl subset_up

theorem blocks_subset_blocksOf (hp : p ∈ ps) :
    p.blocks ⊆ blocksOf ps := fun _ hb => mem_blocksOf.mpr ⟨p, hp, hb⟩

section Replacement

variable [DecidableEq κ] {q : Part β ρ}

theorem live_replace_self : (w.replace r rest outs fresh).live r = rest ++ outs :=
  update_self _ _ _

theorem mem_live_replace (hq : q ∈ outs) : q ∈ (w.replace r rest outs fresh).live r := by
  rw [live_replace_self]
  exact List.mem_append_right rest hq

theorem live_replace_of_ne {s : κ} (hs : s ≠ r) : (w.replace r rest outs fresh).live s = w.live s :=
  update_of_ne hs _ _

theorem claims_subset_replace : w.claims ⊆ (w.replace r rest outs fresh).claims := by
  rw [claims_replace]
  exact Set.subset_union_left

variable (h : Descends w) (hlive : (w.live r).Perm (src ++ rest)) (hrows : rowsOf outs = rowsOf src)
include h hlive hrows

omit [DecidableEq κ] in
theorem disjoint_rest_outs : ∀ p ∈ rest, ∀ q ∈ outs, Disjoint p.rows q.rows := by
  intro p hp q hq
  obtain ⟨-, -, hcross⟩ := List.pairwise_append.mp
    (hlive.pairwise (h.live_disjoint r) fun hd => hd.symm)
  refine Set.disjoint_left.mpr fun x hxp hxq => ?_
  obtain ⟨s, hs, hxs⟩ := mem_rowsOf.mp (hrows ▸ mem_rowsOf.mpr ⟨q, hq, hxq⟩)
  exact Set.disjoint_left.mp (hcross s hs p hp) hxs hxp

theorem descent_replace (hdisjoint : outs.Pairwise fun p q => Disjoint p.rows q.rows)
    (hup : ∀ q ∈ outs, blocksOf src ⊆ up (w.claims ∪ claimsOf outs) q.blocks) (s : κ)
    (p q : Part β ρ) (x : ρ) (hp : (w.replace r rest outs fresh).On s p)
    (hq : q ∈ (w.replace r rest outs fresh).live s) (hxp : x ∈ p.rows) (hxq : x ∈ q.rows) :
    p.blocks ⊆ up (w.replace r rest outs fresh).claims q.blocks := by
  have hmono : ∀ S : Set β, up w.claims S ⊆ up (w.replace r rest outs fresh).claims S :=
    fun S => up_mono_claims claims_subset_replace
  by_cases hs : s = r
  · subst hs
    rw [live_replace_self] at hq
    rcases List.mem_append.mp hq with hqrest | hqout
    · rcases on_replace.mp hp with hold | ⟨-, hnew⟩
      · have hq' := hlive.mem_iff.mpr (List.mem_append_right src hqrest)
        exact (h.descent s p q x hold hq' hxp hxq).trans (hmono _)
      · have hd := disjoint_rest_outs h hlive hrows q hqrest p hnew
        exact absurd hxp (Set.disjoint_left.mp hd hxq)
    rcases on_replace.mp hp with hold | ⟨-, hnew⟩
    · -- through the replaced part that held the row
      obtain ⟨t, ht, hxt⟩ := mem_rowsOf.mp (hrows ▸ mem_rowsOf.mpr ⟨q, hqout, hxq⟩)
      have ht' := hlive.mem_iff.mpr (List.mem_append_left rest ht)
      have hpt := (h.descent s p t x hold ht' hxp hxt).trans (hmono _)
      have htq := (blocks_subset_blocksOf ht).trans (hup q hqout)
      rw [claims_replace] at hpt ⊢
      exact hpt.trans (up_subset_up htq)
    · rw [eq_of_pairwise_disjoint hdisjoint hnew hqout hxp hxq]
      exact subset_up
  · rw [live_replace_of_ne hs] at hq
    have hold := (on_replace.mp hp).resolve_right fun hnew => hs hnew.1
    exact (h.descent s p q x hold hq hxp hxq).trans (hmono _)

theorem live_cover_replace (s : κ) (p : Part β ρ) (hp : (w.replace r rest outs fresh).On s p) :
    p.rows ⊆ rowsOf ((w.replace r rest outs fresh).live s) := by
  intro x hx
  by_cases hs : s = r
  · subst hs
    rw [live_replace_self]
    rcases on_replace.mp hp with hold | ⟨-, hnew⟩
    · obtain ⟨q, hq, hxq⟩ := mem_rowsOf.mp (h.live_cover s p hold hx)
      rcases List.mem_append.mp (hlive.mem_iff.mp hq) with hq | hq
      · obtain ⟨q', hq', hxq'⟩ := mem_rowsOf.mp (hrows.symm ▸ mem_rowsOf.mpr ⟨q, hq, hxq⟩)
        exact mem_rowsOf.mpr ⟨q', List.mem_append_right rest hq', hxq'⟩
      · exact mem_rowsOf.mpr ⟨q, List.mem_append_left outs hq, hxq⟩
    · exact mem_rowsOf.mpr ⟨p, List.mem_append_right rest hnew, hx⟩
  · rw [live_replace_of_ne hs]
    exact h.live_cover s p ((on_replace.mp hp).resolve_right fun hnew => hs hnew.1) hx

/-- **A replacement keeps descent** when the new parts partition the rows of the parts they replace
and have them among their ancestors. -/
theorem Descends.replace (hdisjoint : outs.Pairwise fun p q => Disjoint p.rows q.rows)
    (hup : ∀ q ∈ outs, blocksOf src ⊆ up (w.claims ∪ claimsOf outs) q.blocks) :
    Descends (w.replace r rest outs fresh) := by
  have hmono : ∀ S : Set β, up w.claims S ⊆ up (w.replace r rest outs fresh).claims S :=
    fun S => up_mono_claims claims_subset_replace
  refine ⟨fun s p hp => ?_, fun s => ?_, live_cover_replace h hlive hrows, h.flush_disjoint,
    fun p hp x hx => ?_, descent_replace h hlive hrows hdisjoint hup,
    fun s p q x hp hq hxp hxq => ?_⟩
  · by_cases hs : s = r
    · subst hs
      rw [live_replace_self] at hp
      rcases List.mem_append.mp hp with hp | hp
      · have hp' := hlive.mem_iff.mpr (List.mem_append_right src hp)
        exact on_replace.mpr (.inl (h.live_on s p hp'))
      · exact on_replace.mpr (.inr ⟨rfl, hp⟩)
    · rw [live_replace_of_ne hs] at hp
      exact on_replace.mpr (.inl (h.live_on s p hp))
  · by_cases hs : s = r
    · subst hs
      obtain ⟨-, hrest, -⟩ := List.pairwise_append.mp
        (hlive.pairwise (h.live_disjoint s) fun hd => hd.symm)
      rw [live_replace_self]
      exact List.pairwise_append.mpr ⟨hrest, hdisjoint, disjoint_rest_outs h hlive hrows⟩
    · rw [live_replace_of_ne hs]
      exact h.live_disjoint s
  · rcases mem_parts_replace.mp hp with hp | hp
    · exact h.flush_cover p hp hx
    · obtain ⟨t, ht, hxt⟩ := mem_rowsOf.mp (hrows ▸ mem_rowsOf.mpr ⟨p, hp, hx⟩)
      have ht' := hlive.mem_iff.mpr (List.mem_append_left rest ht)
      exact h.flush_cover t (h.live_on r t ht').mem_parts hxt
  · rcases on_replace.mp hp with hpold | ⟨rfl, hpnew⟩
    · rcases on_replace.mp hq with hqold | ⟨rfl, hqnew⟩
      · exact (h.comparable s p q x hpold hqold hxp hxq).imp (fun h' => h'.trans (hmono _))
          fun h' => h'.trans (hmono _)
      · exact .inl (descent_replace h hlive hrows hdisjoint hup s p q x hp
          (mem_live_replace hqnew) hxp hxq)
    · exact .inr (descent_replace h hlive hrows hdisjoint hup s q p x hq
        (mem_live_replace hpnew) hxq hxp)

end Replacement

/-! ## Whole histories -/

/-- The four invariants, for some reading of the blocks. -/
structure Sound (w : World β κ ρ) : Prop where
  known : Known w
  rows : ∃ R : β → Set ρ, Rows R w
  owned : ∃ own : β → Option κ, Owned own w
  descends : Descends w

theorem Sound.start (h : IsStart w) : Sound w :=
  ⟨Known.start h, ⟨_, Rows.start h⟩, ⟨_, Owned.start h⟩, Descends.start h⟩

section Histories

variable [DecidableEq κ] {w' : World β κ ρ}

/-- A merge into one part hands out no block; its output stands for the rows of its inputs. -/
theorem Sound.merge (h : Sound w) {out : Part β ρ} (hlive : (w.live r).Perm (src ++ rest))
    (hsrc : src ≠ []) (hblocks : Folded (claimsOf src) (blocksOf src) out.blocks)
    (hclaim : ∀ c, out.claim = some c → c ∈ claimsOf src) (hrows : out.rows = rowsOf src) :
    Sound (w.replace r rest [out] ∅) := by
  obtain ⟨hk, ⟨R, hR⟩, ⟨own, hown⟩, hd⟩ := h
  have hon : ∀ p ∈ src, w.On r p :=
    fun p hp => hd.live_on r p (hlive.mem_iff.mpr (List.mem_append_left rest hp))
  have hparts : ∀ p ∈ src, p ∈ w.parts := fun p hp => (hon p hp).mem_parts
  have hcarried : ∀ c ∈ claimsOf [out], c ∈ claimsOf src := by
    rintro c ⟨p, hp, hc⟩
    rw [List.mem_singleton.mp hp] at hc
    exact hclaim c hc
  refine ⟨hk.replace ?_ fun c hc => ?_, ⟨R, hR.replace ?_ fun c hc => ?_⟩,
    ⟨own, hown.replace ?_ (fun c hc => ?_) fun c hc => ?_⟩, hd.replace hlive ?_ ?_ ?_⟩
  · rintro p hp
    rw [List.mem_singleton.mp hp, Set.union_empty]
    exact ⟨hk.folded_nonempty hparts hsrc hblocks, hk.folded_used hparts hblocks⟩
  · rw [Set.union_empty]
    exact hk.claim_used c (claimsOf_subset hparts (hcarried c hc))
  · rintro p hp
    rw [List.mem_singleton.mp hp, hR.folded hparts hblocks, hrows]
  · exact hR.claim_rows c (claimsOf_subset hparts (hcarried c hc))
  · rintro p hp
    rw [List.mem_singleton.mp hp]
    exact hown.folded hon hblocks
  · obtain ⟨p, hp, hc⟩ := hcarried c hc
    exact hown.ancestry r p c (hown.made_of_claim (hon p hp) hc) hc
  · obtain ⟨p, hp, hc⟩ := hcarried c hc
    exact hown.group r p c (hown.made_of_claim (hon p hp) hc) hc
  · simp [rowsOf, hrows]
  · exact List.pairwise_singleton _ _
  · rintro q hq
    rw [List.mem_singleton.mp hq]
    exact hblocks.subset.trans subset_up

/-- A split hands each of its parts a fresh block, which stands for the rows the part got. -/
theorem Sound.split {J : Set β} (h : Sound w)
    (hlive : (w.live r).Perm (src ++ rest)) (hJ : Folded (claimsOf src) (blocksOf src) J)
    (hfresh : ∀ p ∈ outs, ∃ b, b ∉ w.used ∧ p.blocks = {b})
    (hdistinct : outs.Pairwise fun p q => Disjoint p.blocks q.blocks)
    (hclaim : ∀ p ∈ outs, p.claim = some ⟨J, blocksOf outs⟩)
    (hdisjoint : outs.Pairwise fun p q => Disjoint p.rows q.rows)
    (hrows : rowsOf outs = rowsOf src) : Sound (w.replace r rest outs (blocksOf outs)) := by
  classical
  obtain ⟨hk, ⟨R, hR⟩, ⟨own, hown⟩, hd⟩ := h
  have hon : ∀ p ∈ src, w.On r p :=
    fun p hp => hd.live_on r p (hlive.mem_iff.mpr (List.mem_append_left rest hp))
  have hparts : ∀ p ∈ src, p ∈ w.parts := fun p hp => (hon p hp).mem_parts
  have hnew : ∀ b ∈ w.used, b ∉ blocksOf outs := by
    intro b hb hbo
    obtain ⟨p, hp, hbp⟩ := mem_blocksOf.mp hbo
    obtain ⟨b', hb', hblocks⟩ := hfresh p hp
    rw [hblocks, Set.mem_singleton_iff] at hbp
    exact hb' (hbp ▸ hb)
  have hcarried : ∀ c ∈ claimsOf outs, c = ⟨J, blocksOf outs⟩ := by
    rintro c ⟨p, hp, hc⟩
    rw [hclaim p hp] at hc
    exact (Option.some.inj hc).symm
  -- a fresh block stands for the rows of the part that got it, and belongs to `r`
  set R' : β → Set ρ := fun b =>
    if b ∈ blocksOf outs then {x | ∃ p ∈ outs, b ∈ p.blocks ∧ x ∈ p.rows} else R b with hR'
  set own' : β → Option κ := fun b => if b ∈ blocksOf outs then some r else own b with hown'
  have hRows : Rows R' w := hR.congr hk fun b hb => if_neg (hnew b hb)
  have hOwned : Owned own' w := hown.congr hk fun b hb => if_neg (hnew b hb)
  have hmine : ∀ b ∈ blocksOf outs, own' b = some r := fun b hb => if_pos hb
  have hrow : ∀ p ∈ outs, p.rows = ⋃ b ∈ p.blocks, R' b := by
    intro p hp
    obtain ⟨b, -, hb⟩ := hfresh p hp
    have hmem : b ∈ blocksOf outs := mem_blocksOf.mpr ⟨p, hp, hb ▸ rfl⟩
    ext x
    simp only [hb, Set.mem_singleton_iff, Set.iUnion_iUnion_eq_left, hR', if_pos hmem,
      Set.mem_ofPred_eq]
    constructor
    · exact fun hx => ⟨p, hp, hb ▸ rfl, hx⟩
    · rintro ⟨q, hq, hbq, hx⟩
      rwa [eq_of_pairwise_disjoint hdistinct hp hq (hb ▸ rfl) hbq]
  have hgroup : ⋃ b ∈ blocksOf outs, R' b = rowsOf outs := by
    ext x
    simp only [Set.mem_iUnion₂, mem_rowsOf]
    constructor
    · rintro ⟨b, hb, hx⟩
      obtain ⟨p, hp, hbp⟩ := mem_blocksOf.mp hb
      exact ⟨p, hp, hrow p hp ▸ Set.mem_biUnion hbp hx⟩
    · rintro ⟨p, hp, hx⟩
      rw [hrow p hp] at hx
      obtain ⟨b, hb, hxb⟩ := Set.mem_iUnion₂.mp hx
      exact ⟨b, mem_blocksOf.mpr ⟨p, hp, hb⟩, hxb⟩
  refine ⟨hk.replace (fun p hp => ?_) fun c hc => ?_, ⟨R', hRows.replace hrow fun c hc => ?_⟩,
    ⟨own', hOwned.replace (fun p hp b hb => ?_) (fun c hc => ?_) fun c hc => ?_⟩,
    hd.replace hlive hrows hdisjoint fun q hq => ?_⟩
  · obtain ⟨b, -, hb⟩ := hfresh p hp
    exact ⟨hb ▸ Set.singleton_nonempty b, (blocks_subset_blocksOf hp).trans Set.subset_union_right⟩
  · rw [hcarried c hc]
    exact ⟨(hk.folded_used hparts hJ).trans Set.subset_union_left, Set.subset_union_right⟩
  · rw [hcarried c hc]
    rw [hRows.folded hparts hJ, hgroup, hrows]
  · exact .inr (hmine b (mem_blocksOf.mpr ⟨p, hp, hb⟩))
  · rw [hcarried c hc]
    exact hOwned.folded hon hJ
  · rw [hcarried c hc]
    exact hmine
  · -- the claim of the group leads from any member to the joint ancestry
    obtain ⟨b, -, hb⟩ := hfresh q hq
    have hmem : (⟨J, blocksOf outs⟩ : Claim β) ∈ w.claims ∪ claimsOf outs :=
      .inr ⟨q, hq, hclaim q hq⟩
    exact hJ.subset.trans (claim_blocks_subset_up hmem
      ⟨b, mem_blocksOf.mpr ⟨q, hq, hb ▸ rfl⟩, hb ▸ rfl⟩)

theorem Sound.step (h : Sound w) (hstep : Step w w') : Sound w' := by
  cases hstep with
  | merge r src rest out hlive hsrc hblocks hclaim hrows =>
    exact h.merge hlive hsrc hblocks hclaim hrows
  | split r src rest outs J hlive hJ hfresh hdistinct hclaim hdisjoint hrows =>
    exact h.split hlive hJ hfresh hdistinct hclaim hdisjoint hrows

theorem Reachable.sound (h : Reachable w) : Sound w := by
  induction h with
  | start h => exact Sound.start h
  | step _ hstep ih => exact ih.step hstep

end Histories

/-! ## The two relations -/

/-- **A part that holds another's blocks holds its rows.** -/
theorem Sound.rows_subset_of_hold (h : Sound w)
    (hp : p ∈ w.parts) (hq : q ∈ w.parts) (hsub : q.blocks ⊆ hold w.claims p.blocks) :
    q.rows ⊆ p.rows := by
  obtain ⟨R, hR⟩ := h.rows
  -- the blocks whose rows `p` has are closed under passing from an ancestry to its group
  have hheld : hold w.claims p.blocks ⊆ {b | R b ⊆ p.rows} := by
    refine Worklist.closure_subset _ _ (fun b hb => ?_) fun c hc b hb => ?_
    · rw [hR.rows_eq p hp]
      exact Set.subset_biUnion_of_mem hb
    · calc R b ⊆ ⋃ b ∈ c.1.group, R b := Set.subset_biUnion_of_mem hb
        _ = ⋃ b ∈ c.1.blocks, R b := (hR.claim_rows c.1 c.2).symm
        _ ⊆ p.rows := Set.iUnion₂_subset fun b hb => hc hb
  rw [hR.rows_eq q hq]
  exact Set.iUnion₂_subset fun b hb => hheld (hsub hb)

/-- A flushed part is an ancestor of every part that shares a row with it: nothing is above it. -/
theorem Sound.flush_subset_up (h : Sound w) {f : Part β ρ}
    (hp : w.On r p) (hf : f ∈ w.flushed) (hxp : x ∈ p.rows) (hxf : x ∈ f.rows) :
    f.blocks ⊆ up w.claims p.blocks := by
  obtain ⟨own, hown⟩ := h.owned
  rcases h.descends.comparable r p f x hp (.inl hf) hxp hxf with hpf | hfp
  · obtain ⟨-, b, hb, hnone⟩ := hown.flush f hf
    -- the block of a flush is in no group, so climbing from it stays there
    have hup : up w.claims f.blocks ⊆ f.blocks := by
      refine up_subset subset_rfl ?_
      rintro c ⟨q, hq, hc⟩ ⟨b', hbg, hbf⟩
      rcases World.mem_parts.mp hq with hq | ⟨s, hq⟩
      · rw [(hown.flush q hq).1] at hc
        exact absurd hc (by simp)
      · have := hown.group s q c hq hc b' hbg
        rw [hb, Set.mem_singleton_iff] at hbf
        rw [hbf, hnone] at this
        exact absurd this (by simp)
    obtain ⟨b', hb'⟩ := h.known.nonempty p hp.mem_parts
    have hmem := hup (hpf hb')
    rw [hb, Set.mem_singleton_iff] at hmem
    rw [hb, Set.singleton_subset_iff, ← hmem]
    exact subset_up hb'
  · exact hfp

/-- **Parts that share a row are related through their identities**: one's blocks are reached from
the other's, or they descend from a common block through a group that only one passes. -/
theorem Sound.exists_shared_ancestor (h : Sound w)
    (hp : p ∈ w.parts) (hq : q ∈ w.parts) (hxp : x ∈ p.rows) (hxq : x ∈ q.rows) :
    (p.blocks ∩ up w.claims q.blocks).Nonempty ∨ (q.blocks ∩ up w.claims p.blocks).Nonempty ∨
    ∃ c ∈ w.claims,
      ¬ ((c.group ∩ up w.claims p.blocks).Nonempty ↔ (c.group ∩ up w.claims q.blocks).Nonempty) ∧
      (c.blocks ∩ (up w.claims p.blocks ∩ up w.claims q.blocks)).Nonempty := by
  obtain ⟨own, hown⟩ := h.owned
  have hsame : ∀ r, w.On r p → w.On r q → (p.blocks ∩ up w.claims q.blocks).Nonempty ∨
      (q.blocks ∩ up w.claims p.blocks).Nonempty := by
    intro r hpr hqr
    obtain ⟨b, hb⟩ := h.known.nonempty p hp
    obtain ⟨b', hb'⟩ := h.known.nonempty q hq
    rcases h.descends.comparable r p q x hpr hqr hxp hxq with hsub | hsub
    · exact .inl ⟨b, hb, hsub hb⟩
    · exact .inr ⟨b', hb', hsub hb'⟩
  rcases World.mem_parts.mp hp with hpf | ⟨r, hpr⟩
  · rcases World.mem_parts.mp hq with hqf | ⟨s, hqs⟩
    · obtain ⟨b, hb⟩ := h.known.nonempty p hp
      have hpq := eq_of_pairwise_disjoint h.descends.flush_disjoint hpf hqf hxp hxq
      exact .inl ⟨b, hb, hpq ▸ subset_up hb⟩
    · exact (hsame s (.inl hpf) (.inr hqs)).imp_right .inl
  rcases World.mem_parts.mp hq with hqf | ⟨s, hqs⟩
  · exact (hsame r (.inr hpr) (.inl hqf)).imp_right .inl
  by_cases hrs : r = s
  · exact (hsame r (.inr hpr) (.inr (hrs ▸ hqs))).imp_right .inl
  -- on two replicas: both descend from the block of the flush the row came from
  obtain ⟨f, hf, hxf⟩ := mem_rowsOf.mp (h.descends.flush_cover p hp hxp)
  obtain ⟨b, hb⟩ := h.known.nonempty f (World.mem_parts.mpr (.inl hf))
  have hbp : b ∈ up w.claims p.blocks := h.flush_subset_up (.inr hpr) hf hxp hxf hb
  have hbq : b ∈ up w.claims q.blocks := h.flush_subset_up (.inr hqs) hf hxq hxf hb
  by_cases hmem : b ∈ p.blocks
  · exact .inl ⟨b, hmem, hbq⟩
  obtain ⟨c, hc, hmeet, hbc⟩ := exists_claim_of_mem_up hbp hmem
  refine .inr (.inr ⟨c, hc, fun hiff => hrs ?_, b, hbc, hbp, hbq⟩)
  -- the group passed by `p` belongs to `r`, so `q` cannot pass it
  obtain ⟨b₁, hg₁, hup₁⟩ := hmeet
  obtain ⟨b₂, hg₂, hup₂⟩ := hiff.mp ⟨b₁, hg₁, hup₁⟩
  obtain ⟨t, ht, htc⟩ := hc
  rcases World.mem_parts.mp ht with htf | ⟨u, htu⟩
  · rw [(hown.flush t htf).1] at htc
    exact absurd htc (by simp)
  have hown₁ := hown.up_subset (.inr hpr) b₁ hup₁
  have hown₂ := hown.up_subset (.inr hqs) b₂ hup₂
  rw [hown.group u t c htu htc b₁ hg₁] at hown₁
  rw [hown.group u t c htu htc b₂ hg₂] at hown₂
  exact (Option.some.inj (hown₁.resolve_left (by simp))).symm.trans
    (Option.some.inj (hown₂.resolve_left (by simp)))

end OtelStorage.Descent
