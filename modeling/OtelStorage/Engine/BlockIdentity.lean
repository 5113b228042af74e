import OtelStorage.Engine.Writers

/-!
# Block identities are never reused

Blocks are allocated per attempt, above everything the attempt can see: the mark the engine carries,
the entries it publishes, its holes and its wants.  Only the mark matters for what follows, because
it is the one of these that never shrinks.  An attempt's mark is at least the engine's, an engine's
mark is at least that of the index it saw, and a save goes through only over that very index.
-/

namespace OtelStorage

open BucketIndex SortedList CasStore List Function Option

/-! ## The first free block -/

theorem maxBlock_le_key (a b : Block) : a.key ≤ (maxBlock a b).key := by
  rw [key_maxBlock]
  exact le_max_left _ _

theorem le_foldl_bump {α : Type*} (f g : α → Interval) (xs : List α) (top : Block) :
    top.key ≤ (xs.foldl (fun top x =>
      let top := if (f x).valid then maxBlock top (f x).max else top
      if (g x).valid then maxBlock top (g x).max else top) top).key := by
  have hbump : ∀ (t : Block) (iv : Interval),
      t.key ≤ (if iv.valid then maxBlock t iv.max else t).key := by
    intro t iv
    split
    · exact maxBlock_le_key _ _
    · exact le_rfl
  induction xs generalizing top with
  | nil => exact le_rfl
  | cons x xs ih => exact ((hbump _ _).trans (hbump _ _)).trans (ih _)

theorem allocatedBlocks_le_topBlock (ix : Index) : ix.allocatedBlocks.key ≤ ix.topBlock.key :=
  (le_foldl_bump Entry.blocks (fun e => e.claim.group) ix.entries _).trans
    (le_foldl_bump Want.blocks (fun w => w.claim.group) ix.wanted _)

/-- The next block is above the highest one, and so is the one before it, while numbers do not wrap
around. -/
theorem topBlock_lt_nextBlock {ix : Index} {term : UInt64} (h : 1 ≤ (ix.nextBlock term).n.toNat) :
    ix.topBlock.key < (ix.nextBlock term).key ∧
      ix.topBlock.key ≤ (⟨(ix.nextBlock term).term, (ix.nextBlock term).n - 1⟩ : Block).key := by
  have hn := ix.topBlock.n.toNat_lt
  rw [Index.nextBlock] at h ⊢
  split
  · next hterm =>
    have hterm' := UInt64.lt_iff_toNat_lt.mp hterm
    simp only [Block.key_eq, UInt64.sub_self, UInt64.toNat_one, UInt64.toNat_zero]
    omega
  next hterm =>
  rw [if_neg hterm] at h
  simp only [UInt64.add_sub_cancel, Block.key_eq]
  rw [UInt64.toNat_add, UInt64.toNat_one] at h ⊢
  omega

/-! ## What an attempt allocates -/

/-- How many blocks an allocator takes for a plan: a group takes its whole run when it is opened. -/
def draws (a : Allocator) (plan : Plan) : ℕ :=
  if plan.blocks.valid then 0
  else
    match plan.group with
    | none => 1
    | some g => if (a.groups g.addr).isSome then 0 else g.n

/-- How many blocks an attempt takes. -/
def drawn : Allocator → List Part → ℕ
  | _, [] => 0
  | a, p :: ps =>
      match p.pending with
      | none => drawn a ps
      | some plan => draws a plan + drawn (a.assign plan).2 ps

/-- The blocks an attempt allocates: one to every part that awaits one. -/
def freshBlocks : List Part → List Part → List Block
  | p :: ps, q :: qs =>
      if p.awaitsBlock then q.blocks.min :: freshBlocks ps qs else freshBlocks ps qs
  | _, _ => []

variable (addr : ℕ) (parts : List Part) {p : Part} {g : SplitGroup} {s : Writer} {n : UInt64}

/-- How many parts of a list await a block of the group at `addr`. -/
def members : ℕ :=
  parts.countP fun p => p.awaitsGroup.any fun g => g.addr == addr

/-- No split group is awaited by more parts than it has blocks. -/
def GroupsFit : Prop :=
  ∀ p ∈ parts, ∀ g, p.awaitsGroup = some g → members g.addr parts ≤ g.n

/-- An allocator that has counted upward from `lo`, and whose open groups have room for the parts
still to come. -/
structure Counts (lo : Block) (a : Allocator) (parts : List Part) : Prop where
  term : a.next.term = lo.term
  lo_le : lo.n.toNat ≤ a.next.n.toNat
  fits : a.next.n.toNat + drawn a parts < 2 ^ 64
  open_term : ∀ addr r, a.groups addr = some r → r.next.term = lo.term
  open_lo : ∀ addr r, a.groups addr = some r → lo.n.toNat ≤ r.next.n.toNat
  open_room : ∀ addr r, a.groups addr = some r →
    r.next.n.toNat + members addr parts ≤ a.next.n.toNat
  closed_room : ∀ p ∈ parts, ∀ g, p.awaitsGroup = some g → a.groups g.addr = none →
    members g.addr parts ≤ g.n

/-- The block is one of those counted. -/
def Counted (lo : Block) (a : Allocator) (b : Block) : Prop :=
  b.term = lo.term ∧ lo.n.toNat ≤ b.n.toNat ∧ b.n.toNat < a.next.n.toNat

theorem members_cons (p : Part) (ps : List Part) : members addr (p :: ps) =
    members addr ps + if p.awaitsGroup.any (fun g => g.addr == addr) then 1 else 0 := by
  rw [members, members, countP_cons]

theorem members_cons_of_none (h : p.awaitsGroup = none) (addr : ℕ) (ps : List Part) :
    members addr (p :: ps) = members addr ps := by
  rw [members_cons, h]
  rfl

theorem members_cons_of_some (h : p.awaitsGroup = some g) (addr : ℕ) (ps : List Part) :
    members addr (p :: ps) = members addr ps + if g.addr = addr then 1 else 0 := by
  rw [members_cons, h]
  simp

theorem members_le_cons (p : Part) (ps : List Part) : members addr ps ≤ members addr (p :: ps) := by
  rw [members_cons]
  exact Nat.le_add_right _ _

theorem toNat_add_ofNat {k : ℕ} (h : n.toNat + k < 2 ^ 64) :
    (n + UInt64.ofNat k).toNat = n.toNat + k := by
  rw [UInt64.toNat_add, UInt64.toNat_ofNat']
  omega

section Step

variable {lo : Block} {a : Allocator} {ps : List Part}

theorem Counts.advance (h : Counts lo a (p :: ps)) (hp : p.awaitsGroup = none) {k : ℕ}
    {a' : Allocator} (hterm : a'.next.term = a.next.term)
    (hn : a'.next.n.toNat = a.next.n.toNat + k) (hgroups : a'.groups = a.groups)
    (hdrawn : drawn a (p :: ps) = k + drawn a' ps) : Counts lo a' ps where
  term := hterm.trans h.term
  lo_le := hn ▸ h.lo_le.trans (Nat.le_add_right _ _)
  fits := by
    have := h.fits
    omega
  open_term addr r hr := h.open_term addr r (hgroups ▸ hr)
  open_lo addr r hr := h.open_lo addr r (hgroups ▸ hr)
  open_room addr r hr := by
    have hroom := h.open_room addr r (hgroups ▸ hr)
    rw [members_cons_of_none hp] at hroom
    omega
  closed_room q hq g hg hr := by
    have hroom := h.closed_room q (mem_cons_of_mem p hq) g hg (hgroups ▸ hr)
    rwa [members_cons_of_none hp] at hroom

theorem Counts.openGroup (h : Counts lo a (p :: ps))
    (hp : p.awaitsGroup = some g) (hclosed : a.groups g.addr = none)
    (hdrawn : drawn a (p :: ps) = g.n + drawn (a.openGroup g).2 (p :: ps)) :
    Counts lo (a.openGroup g).2 (p :: ps) := by
  have hfits := h.fits
  have hn : (a.openGroup g).2.next.n.toNat = a.next.n.toNat + g.n :=
    toNat_add_ofNat (by omega)
  have hgroups : ∀ addr r, (a.openGroup g).2.groups addr = some r →
      (addr = g.addr ∧ r.next = a.next) ∨ a.groups addr = some r := by
    intro addr r hr
    by_cases heq : addr = g.addr
    · subst heq
      have hr' : update a.groups g.addr (some (a.openGroup g).1) g.addr = some r := hr
      rw [update_self] at hr'
      exact .inl ⟨rfl, (some.inj hr') ▸ rfl⟩
    · have hr' : update a.groups g.addr (some (a.openGroup g).1) addr = some r := hr
      rw [update_of_ne heq] at hr'
      exact .inr hr'
  refine ⟨h.term, ?_, ?_, ?_, ?_, ?_, ?_⟩
  · exact hn ▸ h.lo_le.trans (Nat.le_add_right _ _)
  · omega
  · intro addr r hr
    rcases hgroups addr r hr with ⟨-, hnext⟩ | hr
    · rw [hnext]
      exact h.term
    · exact h.open_term addr r hr
  · intro addr r hr
    rcases hgroups addr r hr with ⟨-, hnext⟩ | hr
    · rw [hnext]
      exact h.lo_le
    · exact h.open_lo addr r hr
  · intro addr r hr
    rcases hgroups addr r hr with ⟨rfl, hnext⟩ | hr
    · have hroom := h.closed_room p mem_cons_self g hp hclosed
      rw [hnext, hn]
      omega
    · have hroom := h.open_room addr r hr
      omega
  · intro q hq g' hg' hr
    refine h.closed_room q hq g' hg' ?_
    by_cases heq : g'.addr = g.addr
    · rw [heq]
      exact hclosed
    · have hr' : update a.groups g.addr (some (a.openGroup g).1) g'.addr = none := hr
      rwa [update_of_ne heq] at hr'

theorem Counts.assignMember (h : Counts lo a (p :: ps)) {r : GroupRun} (hp : p.awaitsGroup = some g)
    (hr : a.groups g.addr = some r) (hdrawn : drawn a (p :: ps) = drawn (a.assignMember g r).2 ps) :
    Counts lo (a.assignMember g r).2 ps ∧ Counted lo (a.assignMember g r).2 r.next := by
  have hroom := h.open_room g.addr r hr
  rw [members_cons_of_some hp, if_pos rfl] at hroom
  have hfits := h.fits
  have hnext : (r.next.n + 1).toNat = r.next.n.toNat + 1 := by
    rw [UInt64.toNat_add, UInt64.toNat_one]
    omega
  have hgroups : ∀ addr r', (a.assignMember g r).2.groups addr = some r' →
      (addr = g.addr ∧ r'.next = ⟨r.next.term, r.next.n + 1⟩) ∨
        (addr ≠ g.addr ∧ a.groups addr = some r') := by
    intro addr r' hr'
    by_cases heq : addr = g.addr
    · subst heq
      have hr'' : update a.groups g.addr
          (some ⟨r.run, ⟨r.next.term, r.next.n + 1⟩⟩) g.addr = some r' := hr'
      rw [update_self] at hr''
      exact .inl ⟨rfl, (some.inj hr'') ▸ rfl⟩
    · have hr'' : update a.groups g.addr
          (some ⟨r.run, ⟨r.next.term, r.next.n + 1⟩⟩) addr = some r' := hr'
      rw [update_of_ne heq] at hr''
      exact .inr ⟨heq, hr''⟩
  refine ⟨⟨h.term, h.lo_le, ?_, ?_, ?_, ?_, ?_⟩, h.open_term _ _ hr, h.open_lo _ _ hr, ?_⟩
  · show a.next.n.toNat + _ < 2 ^ 64
    omega
  · intro addr r' hr'
    rcases hgroups addr r' hr' with ⟨-, heq⟩ | ⟨-, hr'⟩
    · rw [heq]
      exact h.open_term _ _ hr
    · exact h.open_term addr r' hr'
  · intro addr r' hr'
    rcases hgroups addr r' hr' with ⟨-, heq⟩ | ⟨-, hr'⟩
    · have hlo := h.open_lo _ _ hr
      rw [heq]
      show lo.n.toNat ≤ (r.next.n + 1).toNat
      omega
    · exact h.open_lo addr r' hr'
  · intro addr r' hr'
    rcases hgroups addr r' hr' with ⟨rfl, heq⟩ | ⟨hne, hr'⟩
    · rw [heq]
      show (r.next.n + 1).toNat + members g.addr ps ≤ a.next.n.toNat
      omega
    · have hroom' := h.open_room addr r' hr'
      rw [members_cons_of_some hp, if_neg (Ne.symm hne)] at hroom'
      exact hroom'
  · intro q hq g' hg' hr'
    have hne : g'.addr ≠ g.addr := by
      intro heq
      have hr'' : update a.groups g.addr
          (some ⟨r.run, ⟨r.next.term, r.next.n + 1⟩⟩) g'.addr = none := hr'
      rw [heq, update_self] at hr''
      exact absurd hr'' (some_ne_none _)
    have hr'' : update a.groups g.addr
        (some ⟨r.run, ⟨r.next.term, r.next.n + 1⟩⟩) g'.addr = none := hr'
    rw [update_of_ne hne] at hr''
    exact (members_le_cons _ p ps).trans (h.closed_room q (mem_cons_of_mem p hq) g' hg' hr'')
  · show r.next.n.toNat < a.next.n.toNat
    omega

end Step

section Assign

variable {a : Allocator} {plan : Plan} {ps : List Part}

theorem assign_of_valid (h : plan.blocks.valid = true) :
    a.assign plan = ((plan.blocks, plan.claim), a) ∧ draws a plan = 0 := by
  rw [Allocator.assign, draws, if_pos h, if_pos h]
  exact ⟨rfl, rfl⟩

theorem assign_of_none (h : ¬ plan.blocks.valid = true) (hg : plan.group = none) :
    a.assign plan =
      ((⟨a.next, a.next, []⟩, plan.claim), { a with next := ⟨a.next.term, a.next.n + 1⟩ }) ∧
      draws a plan = 1 := by
  rw [Allocator.assign, draws, if_neg h, if_neg h, hg]
  exact ⟨rfl, rfl⟩

theorem assign_of_open (h : ¬ plan.blocks.valid = true) (hg : plan.group = some g)
    {r : GroupRun} (hr : a.groups g.addr = some r) :
    a.assign plan = a.assignMember g r ∧ draws a plan = 0 := by
  rw [Allocator.assign, draws, if_neg h, if_neg h, hg]
  simp only [hr, isSome_some, if_true, and_self]

theorem assign_of_closed (h : ¬ plan.blocks.valid = true)
    (hg : plan.group = some g) (hr : a.groups g.addr = none) :
    a.assign plan = (a.openGroup g).2.assign plan ∧ draws a plan = g.n ∧
      draws (a.openGroup g).2 plan = 0 := by
  have hself : (a.openGroup g).2.groups g.addr = some (a.openGroup g).1 :=
    update_self _ _ _
  obtain ⟨hassign, hdraws⟩ := assign_of_open h hg hself
  refine ⟨?_, ?_, hdraws⟩
  · rw [hassign, Allocator.assign, if_neg h, hg]
    simp only [hr]
  · rw [draws, if_neg h, hg]
    simp only [hr, isSome_none, Bool.false_eq_true, if_false]

theorem assign_next (h : a.next.n.toNat + draws a plan < 2 ^ 64) :
    (a.assign plan).2.next.n.toNat = a.next.n.toNat + draws a plan := by
  by_cases hvalid : plan.blocks.valid = true
  · obtain ⟨hassign, hdraws⟩ := assign_of_valid (a := a) hvalid
    rw [hassign, hdraws, Nat.add_zero]
  cases hg : plan.group with
  | none =>
    obtain ⟨hassign, hdraws⟩ := assign_of_none (a := a) hvalid hg
    rw [hassign, UInt64.toNat_add, UInt64.toNat_one]
    omega
  | some g =>
    cases hr : a.groups g.addr with
    | some r =>
      obtain ⟨hassign, hdraws⟩ := assign_of_open hvalid hg hr
      rw [hassign, hdraws]
      rfl
    | none =>
      obtain ⟨hassign, hdraws, -⟩ := assign_of_closed hvalid hg hr
      have hself : (a.openGroup g).2.groups g.addr = some (a.openGroup g).1 :=
        update_self _ _ _
      rw [hdraws] at h ⊢
      rw [hassign, (assign_of_open hvalid hg hself).1]
      exact toNat_add_ofNat h

/-- **One part of an attempt**: the allocator goes on counting, and a fresh block is one of those
counted. -/
theorem Counts.assign {lo : Block} (h : Counts lo a (p :: ps)) (hplan : p.pending = some plan) :
    Counts lo (a.assign plan).2 ps ∧
      (p.awaitsBlock = true → Counted lo (a.assign plan).2 (a.assign plan).1.1.min) := by
  have hdrawn : ∀ a : Allocator, drawn a (p :: ps) = draws a plan + drawn (a.assign plan).2 ps := by
    intro a
    rw [drawn, hplan]
  have hgroup : p.awaitsGroup = if plan.blocks.valid then none else plan.group := by
    rw [Part.awaitsGroup, hplan, bind_some]
  have hblock : p.awaitsBlock = !plan.blocks.valid := by
    rw [Part.awaitsBlock, hplan, any_some]
  have hfits := h.fits
  rw [hdrawn] at hfits
  have hnext : (a.assign plan).2.next.n.toNat = a.next.n.toNat + draws a plan :=
    assign_next (by omega)
  by_cases hvalid : plan.blocks.valid = true
  · obtain ⟨hassign, -⟩ := assign_of_valid (a := a) hvalid
    rw [if_pos hvalid] at hgroup
    refine ⟨h.advance hgroup (hassign ▸ rfl) hnext (hassign ▸ rfl) (hdrawn a), fun hb => ?_⟩
    rw [hblock, hvalid] at hb
    cases hb
  rw [if_neg hvalid] at hgroup
  cases hg : plan.group with
  | none =>
    obtain ⟨hassign, hdraws⟩ := assign_of_none (a := a) hvalid hg
    refine ⟨h.advance (hgroup.trans hg) (hassign ▸ rfl) hnext (hassign ▸ rfl) (hdrawn a),
      fun _ => ?_⟩
    have hmin : (a.assign plan).1.1.min = a.next := by rw [hassign]
    rw [hmin]
    exact ⟨h.term, h.lo_le, by omega⟩
  | some g =>
    -- with the group open, the fragment takes the group's next block
    have hopen : ∀ (b : Allocator) (r : GroupRun), Counts lo b (p :: ps) →
        b.groups g.addr = some r → Counts lo (b.assign plan).2 ps ∧
          Counted lo (b.assign plan).2 (b.assign plan).1.1.min := by
      intro b r hb hr
      obtain ⟨hassign, hdraws⟩ := assign_of_open hvalid hg hr
      have hdrawn' := hdrawn b
      rw [hdraws, Nat.zero_add, hassign] at hdrawn'
      rw [hassign]
      exact hb.assignMember (hgroup.trans hg) hr hdrawn'
    cases hr : a.groups g.addr with
    | some r =>
      obtain ⟨hcounts, hcounted⟩ := hopen a r h hr
      exact ⟨hcounts, fun _ => hcounted⟩
    | none =>
      obtain ⟨hassign, hdraws, hdraws'⟩ := assign_of_closed hvalid hg hr
      have hdrawn' : drawn a (p :: ps) = g.n + drawn (a.openGroup g).2 (p :: ps) := by
        rw [hdrawn, hdrawn, hdraws, hdraws', hassign, Nat.zero_add]
      obtain ⟨hcounts, hcounted⟩ := hopen _ _ (h.openGroup (hgroup.trans hg) hr hdrawn')
        (update_self _ _ _)
      rw [hassign]
      exact ⟨hcounts, fun _ => hcounted⟩

end Assign

variable {ps qs : List Part} {a : Allocator} {parts} {lo : Block} {s' : Writer}

/-- **A whole attempt**: it counts upward from where it began, by as many blocks as it takes, and
every fresh block is one of those. -/
theorem Counts.assignParts (h : Counts lo a parts) :
    (Engine.assignParts a parts).2.next.term = lo.term ∧
      (Engine.assignParts a parts).2.next.n.toNat = a.next.n.toNat + drawn a parts ∧
      ∀ b ∈ freshBlocks parts (Engine.assignParts a parts).1,
        Counted lo (Engine.assignParts a parts).2 b := by
  induction parts generalizing a with
  | nil => exact ⟨h.term, rfl, nofun⟩
  | cons p ps ih =>
    cases hplan : p.pending with
    | none =>
      have hblock : p.awaitsBlock = false := by
        rw [Part.awaitsBlock, hplan]
        rfl
      have hgroup : p.awaitsGroup = none := by
        rw [Part.awaitsGroup, hplan]
        rfl
      have hdrawn : drawn a (p :: ps) = drawn a ps := by rw [drawn, hplan]
      obtain ⟨hterm, hn, hfresh⟩ :=
        ih (h.advance hgroup rfl rfl rfl (hdrawn.trans (Nat.zero_add _).symm))
      simp only [Engine.assignParts, hplan, freshBlocks, hblock, Bool.false_eq_true, if_false,
        hdrawn]
      exact ⟨hterm, hn, hfresh⟩
    | some plan =>
      have hdrawn : drawn a (p :: ps) = draws a plan + drawn (a.assign plan).2 ps := by
        rw [drawn, hplan]
      obtain ⟨hcounts, hcounted⟩ := h.assign hplan
      obtain ⟨hterm, hn, hfresh⟩ := ih hcounts
      have hfits := h.fits
      have hnext : (a.assign plan).2.next.n.toNat = a.next.n.toNat + draws a plan :=
        assign_next (by omega)
      simp only [Engine.assignParts, hplan, freshBlocks]
      refine ⟨hterm, by omega, fun b hb => ?_⟩
      split at hb
      · next hblock =>
        rcases mem_cons.mp hb with rfl | hb
        · obtain ⟨hbterm, hblo, hblt⟩ := hcounted hblock
          have hle : (a.assign plan).2.next.n.toNat ≤
              (Engine.assignParts (a.assign plan).2 ps).2.next.n.toNat := by omega
          exact ⟨hbterm, hblo, hblt.trans_le hle⟩
        · exact hfresh b hb
      · exact hfresh b hb

/-! ## The parts that await a group -/

theorem members_append (ps qs : List Part) :
    members addr (ps ++ qs) = members addr ps + members addr qs := countP_append

theorem members_eq_zero {addr : ℕ} (h : ∀ p ∈ ps, ∀ g, p.awaitsGroup = some g → g.addr ≠ addr) :
    members addr ps = 0 := by
  rw [members, countP_eq_zero]
  intro p hp hany
  cases hg : p.awaitsGroup with
  | none =>
    rw [hg] at hany
    exact Bool.false_ne_true hany
  | some g =>
    rw [hg] at hany
    exact h p hp g hg (beq_iff_eq.mp hany)

theorem GroupsFit.sublist (h : GroupsFit qs) (hsub : ps.Sublist qs) :
    GroupsFit ps := fun p hp g hg =>
  (hsub.countP_le).trans (h p (hsub.mem hp) g hg)

theorem GroupsFit.append (hps : GroupsFit ps) (hqs : GroupsFit qs)
    (h : ∀ p ∈ ps, ∀ q ∈ qs, ∀ g g', p.awaitsGroup = some g → q.awaitsGroup = some g' →
      g.addr ≠ g'.addr) : GroupsFit (ps ++ qs) := by
  intro p hp g hg
  rw [members_append]
  rcases mem_append.mp hp with hp | hp
  · rw [members_eq_zero fun q hq g' hg' => (h p hp q hq g g' hg hg').symm, Nat.add_zero]
    exact hps p hp g hg
  · rw [members_eq_zero fun q hq g' hg' => h q hq p hp g' g hg' hg, Nat.zero_add]
    exact hqs p hp g hg

theorem GroupsFit.of_none (h : ∀ p ∈ ps, p.awaitsGroup = none) : GroupsFit ps :=
  fun p hp g hg => absurd ((h p hp).symm.trans hg) (some_ne_none g).symm

theorem awaitsGroup_of_planMerge {addr n : ℕ} {src : List Entry} {outs : List Part}
    (h : outs.map Part.pending = (planMerge addr src n).map some) :
    ∀ q ∈ outs, ∀ g, q.awaitsGroup = some g → g.addr = addr ∧ g.n = n := by
  intro q hq g hg
  have hmem : q.pending ∈ (planMerge addr src n).map some := h ▸ mem_map_of_mem hq
  obtain ⟨plan, hplan, heq⟩ := mem_map.mp hmem
  rw [Part.awaitsGroup, ← heq, bind_some] at hg
  split at hg
  · exact absurd hg (some_ne_none g).symm
  by_cases hn : n = 1
  · subst hn
    rw [planMerge] at hplan
    simp only [if_true, mem_singleton] at hplan
    rw [hplan] at hg
    exact absurd hg (some_ne_none g).symm
  · rw [planMerge_split addr src hn] at hplan
    rw [eq_of_mem_replicate hplan] at hg
    exact some.inj hg ▸ ⟨rfl, rfl⟩

theorem GroupsFit.step (h : GroupsFit ps) (hstep : PartsStep ps qs) :
    GroupsFit qs := by
  cases hstep with
  | flush p hp | repair p hp =>
    have hnone : p.awaitsGroup = none := by
      rw [Part.awaitsGroup, hp]
      rfl
    refine h.append (.of_none (forall_mem_singleton.mpr hnone)) ?_
    rintro _ _ q hq g g' - hg'
    rw [mem_singleton.mp hq, hnone] at hg'
    exact absurd hg' (some_ne_none g').symm
  | merge src outs addr _ houts haddr =>
    have hgroup := awaitsGroup_of_planMerge houts
    refine GroupsFit.append (h.sublist filter_sublist) (fun q hq g hg => ?_) ?_
    · -- a group of `n` fragments is awaited by the `n` outputs only
      rw [(hgroup q hq g hg).2]
      exact countP_le_length
    · intro p hp q hq g g' hg hg'
      rw [(hgroup q hq g' hg').1]
      exact haddr p (filter_sublist.mem hp) g hg
  | drop _ hsub => exact h.sublist hsub

theorem GroupsFit.run (h : GroupsFit ps) (hrun : PartsRun ps qs) :
    GroupsFit qs := by
  induction hrun with
  | refl => exact h
  | tail _ hstep ih => exact ih.step hstep

theorem pending_assignParts (a : Allocator) (parts : List Part) :
    ∀ p ∈ (Engine.assignParts a parts).1, p.pending = none := by
  induction parts generalizing a with
  | nil => exact nofun
  | cons p ps ih =>
    cases hplan : p.pending with
    | none =>
      simp only [Engine.assignParts, hplan]
      exact forall_mem_cons.mpr ⟨hplan, ih a⟩
    | some plan =>
      simp only [Engine.assignParts, hplan]
      exact forall_mem_cons.mpr ⟨rfl, ih _⟩

/-! ## Marks -/

/-- No number reaches the top: the first free block exists, and so does the one after the last the
attempt takes. -/
def NoWrap (e : Engine) (parts : List Part) (term : UInt64) : Prop :=
  1 ≤ (e.allocator parts term).next.n.toNat ∧
    (e.allocator parts term).next.n.toNat + drawn (e.allocator parts term) parts ≤ 2 ^ 64 - 1

theorem toNat_sub_one (h : 1 ≤ n.toNat) : (n - 1).toNat = n.toNat - 1 :=
  UInt64.toNat_sub_of_le n 1 (UInt64.le_iff_toNat_le.mpr h)

theorem Counted.le_mark {b : Block} (hb : Counted lo a b) (hterm : a.next.term = lo.term) :
    lo.key ≤ b.key ∧ b.key ≤ a.mark.key := by
  obtain ⟨hbterm, hlo, hlt⟩ := hb
  rw [Allocator.mark]
  simp only [Block.key_eq, hbterm, hterm, toNat_sub_one (Nat.one_le_of_lt hlt)]
  omega

theorem pred_key_le_mark (hterm : a.next.term = lo.term)
    (hpos : 1 ≤ lo.n.toNat) (hle : lo.n.toNat ≤ a.next.n.toNat) :
    (⟨lo.term, lo.n - 1⟩ : Block).key ≤ a.mark.key := by
  rw [Allocator.mark]
  simp only [Block.key_eq, hterm, toNat_sub_one hpos, toNat_sub_one (hpos.trans hle)]
  omega

/-- **The marks of one attempt**: its mark is at least the engine's, and its fresh blocks lie above
the engine's mark and up to its own. -/
theorem nextIndex_marks {e : Engine} {blockTerm : UInt64} (hfit : GroupsFit parts)
    (hwrap : NoWrap e parts blockTerm) (epoch : UInt64) (genTerm : UInt64) (sorts : Sorts)
    {a : Engine.Attempt} (ha : a = e.nextIndex parts epoch genTerm blockTerm sorts) :
    e.allocated.key ≤ a.index.allocatedBlocks.key ∧
      ∀ b ∈ freshBlocks parts a.published,
        e.allocated.key < b.key ∧ b.key ≤ a.index.allocatedBlocks.key := by
  obtain ⟨hpos, hfits⟩ := hwrap
  have hcounts : Counts (e.allocator parts blockTerm).next (e.allocator parts blockTerm) parts :=
    ⟨rfl, le_rfl, by omega, nofun, nofun, nofun, fun p hp g hg _ => hfit p hp g hg⟩
  obtain ⟨hterm, hn, hfresh⟩ := hcounts.assignParts
  obtain ⟨hlt, hle⟩ := topBlock_lt_nextBlock hpos
  have hmark := allocatedBlocks_le_topBlock { (default : Index) with
    entries := insertAll Entry.pref [] e.foreign ++ e.holes ++ parts.map Part.entry
    wanted := e.wants ++ e.pendingWants ++ e.adoptedWants ++ e.pendingHoles
    allocatedBlocks := e.allocated }
  rw [ha, Engine.nextIndex_allocatedBlocks, Engine.nextIndex_published]
  refine ⟨(hmark.trans hle).trans ?_, fun b hb => ?_⟩
  · exact pred_key_le_mark hterm hpos (hn ▸ Nat.le_add_right _ _)
  · obtain ⟨hlo, hhi⟩ := (hfresh b hb).le_mark hterm
    exact ⟨(hmark.trans_lt hlt).trans_le hlo, hhi⟩

/-- The mark of the index an engine last saw. -/
def Engine.seenMark (e : Engine) : Block := (e.indexVersion.getD default).allocatedBlocks

/-- The engine's mark is at least that of the index it saw; an attempt's fresh blocks lie above the
latter and up to the attempt's own mark. -/
structure MarkInv (s : Writer) : Prop where
  fit : GroupsFit s.engine.parts
  seen_le : s.engine.seenMark.key ≤ s.engine.allocated.key
  built : ∀ b, s.built = some b → (∀ p ∈ b.attempt.published, p.pending = none) ∧
    s.engine.seenMark.key ≤ b.attempt.index.allocatedBlocks.key ∧
    ∀ x ∈ freshBlocks b.parts b.attempt.published,
      s.engine.seenMark.key < x.key ∧ x.key ≤ b.attempt.index.allocatedBlocks.key

/-- Every attempt stays below the top of the numbers. -/
def noWrapRules : Rules := ⟨fun e parts _ term _ => NoWrap e parts term, fun _ _ => True⟩

theorem GroupsFit.of_pending_none (h : ∀ p ∈ ps, p.pending = none) :
    GroupsFit ps := .of_none fun p hp => by
  rw [Part.awaitsGroup, h p hp]
  rfl

theorem MarkInv.of_not_built (hfit : GroupsFit s.engine.parts)
    (hseen : s.engine.seenMark.key ≤ s.engine.allocated.key) (hbuilt : s.built = none) :
    MarkInv s :=
  ⟨hfit, hseen, fun b hb => absurd (hbuilt.symm.trans hb) (some_ne_none b).symm⟩

theorem MarkInv.act {o : Option Index} (h : MarkInv s)
    (hact : Writer.Act noWrapRules () o s () s') : MarkInv s' := by
  cases hact with
  | work parts _ _ _ hidle hparts => exact .of_not_built (h.fit.run hparts) h.seen_le hidle
  | load opens hidle =>
    refine .of_not_built ?_ le_rfl hidle
    refine GroupsFit.append (.of_pending_none fun p hp => ?_) (h.fit.sublist filter_sublist) ?_
    · obtain ⟨e, -, rfl⟩ := mem_map.mp hp
      rfl
    · rintro p hp _ _ g - hg -
      obtain ⟨e, -, rfl⟩ := mem_map.mp hp
      exact absurd hg (some_ne_none g).symm
  | build parts epoch genTerm blockTerm sorts _ hparts hrule =>
    have hfit := h.fit.run hparts
    obtain ⟨hle, hfresh⟩ := nextIndex_marks hfit hrule epoch genTerm sorts rfl
    have hengine := s.engine.nextIndex_engine parts epoch genTerm blockTerm sorts
    have hview : (s.build parts epoch genTerm blockTerm sorts).engine.seenMark =
        s.engine.seenMark := by
      rfl
    refine ⟨?_, ?_, fun b hb => ?_⟩
    · exact h.fit
    · exact h.seen_le
    cases hb
    refine ⟨?_, h.seen_le.trans hle, fun x hx => ?_⟩
    · exact pending_assignParts _ _
    · obtain ⟨hlt, hmark⟩ := hfresh x hx
      exact ⟨h.seen_le.trans_lt hlt, hmark⟩
  | restart => exact .of_not_built (.of_pending_none nofun) le_rfl rfl
  | fail => exact .of_not_built h.fit h.seen_le rfl
  | rebase hidle _ =>
    refine .of_not_built h.fit ?_ hidle
    show ((o.getD default).allocatedBlocks).key ≤
      (maxBlock s.engine.allocated (o.getD default).allocatedBlocks).key
    rw [key_maxBlock]
    exact le_max_right _ _

theorem MarkInv.saved {rules : Rules} (h : MarkInv s)
    (hs : (writersUnder rules).saved s s') : MarkInv s' := by
  obtain ⟨b, hb, rfl | rfl⟩ := hs
  · exact .of_not_built (.of_pending_none (h.built b hb).1) le_rfl rfl
  · exact .of_not_built h.fit h.seen_le rfl

theorem MarkInv.isNew (h : s.IsNew) : MarkInv s := by
  obtain ⟨writerID, rfl⟩ := h
  exact .of_not_built (.of_pending_none nofun) le_rfl rfl

/-- The blocks a landed commit allocated. -/
def Writer.fresh (s : Writer) : List Block :=
  match s.built with
  | none => []
  | some b => freshBlocks b.parts b.attempt.published

/-- **Block identities are never reused.**  In every run whose block numbers stay below the top, the
marks of the indexes that land never decrease, and every block a landed commit allocates is above
every block any earlier landed commit allocated. -/
theorem blocks_never_reused {W : Type*} [DecidableEq W] {σ : State Unit W Writer Index}
    (h : Reachable (writersUnder noWrapRules) Writer.IsNew σ) :
    σ.landed.Pairwise fun x y => y.2.allocatedBlocks.key ≤ x.2.allocatedBlocks.key ∧
      ∀ b ∈ x.1.fresh, ∀ b' ∈ y.1.fresh, b'.less b = true := by
  have hinv := (h.inv (L := fun _ s => MarkInv s) (fun _ hs => .isNew hs)
    (fun _ _ _ _ _ hs ha => hs.act ha) (fun _ _ _ hs _ hsv => hs.saved hsv)
    (fun _ _ _ _ _ ht => ht)).2
  -- every commit lies above the mark of the one it saw
  have hmarks : σ.landed.Pairwise fun x y => y.2.allocatedBlocks.key ≤ x.2.allocatedBlocks.key ∧
      ∀ b ∈ x.1.fresh, y.2.allocatedBlocks.key < b.key := by
    refine h.landed_pairwise (L := MarkInv)
      (R := fun y x => y.2.allocatedBlocks.key ≤ x.2.allocatedBlocks.key ∧
        ∀ b ∈ x.1.fresh, y.2.allocatedBlocks.key < b.key) hinv ?_ ?_
    · intro x y hx _ hxc _ hview
      obtain ⟨b, hb, hindex⟩ := map_eq_some_iff.mp hxc
      obtain ⟨-, hle, hfresh⟩ := hx.built b hb
      have hseen : x.1.engine.seenMark = y.2.allocatedBlocks := by
        have hversion : x.1.engine.indexVersion = some y.2 := hview
        rw [Engine.seenMark, hversion]
        rfl
      rw [hseen, hindex] at hle
      refine ⟨hle, fun c hc => ?_⟩
      rw [Writer.fresh, hb] at hc
      exact hseen ▸ (hfresh c hc).1
    · rintro x y z ⟨hxy, -⟩ ⟨hyz, hz⟩
      exact ⟨hxy.trans hyz, fun b hb => hxy.trans_lt (hz b hb)⟩
  refine hmarks.imp_of_mem fun {x y} hx hy hxy => ⟨hxy.1, fun b hb b' hb' => ?_⟩
  obtain ⟨hyinv, hyc⟩ := hinv y hy
  obtain ⟨c, hc, hindex⟩ := map_eq_some_iff.mp hyc
  rw [Writer.fresh, hc] at hb'
  have hle := ((hyinv.built c hc).2.2 b' hb').2
  rw [hindex] at hle
  exact (Block.less_iff _ _).mpr (hle.trans_lt (hxy.2 b hb))

/-- Two writers take turns: a flush of each, the second after losing a race, and a merge of the
first flush's part into two. -/
theorem blocks_never_reused_turns : ∃ σ : State Unit Bool Writer Index,
    Reachable (writersUnder noWrapRules) Writer.IsNew σ ∧
      σ.landed.map (fun x => x.1.fresh) = [[⟨0, 3⟩, ⟨0, 4⟩], [⟨0, 2⟩], [⟨0, 1⟩]] ∧
      σ.landed.Pairwise fun x y => y.2.allocatedBlocks.key ≤ x.2.allocatedBlocks.key ∧
        ∀ b ∈ x.1.fresh, ∀ b' ∈ y.1.fresh, b'.less b = true := by
  have r₀ := reachable_two noWrapRules
  have r := r₀
    |>.step (.act (w := true) (.flush [1] rfl rfl ⟨by decide, by decide⟩))
    |>.step (.save (w := true) rfl rfl ⟨_, rfl, .inl rfl⟩)
    -- the other writer built over the empty index, and has to rebase
    |>.step (.act (w := false) (.flush [2] rfl rfl ⟨by decide, by decide⟩))
    |>.step (.act (w := false) .fail)
    |>.step (.act (w := false) (.rebase rfl trivial))
    |>.step (.act (w := false) (.flush [2] rfl rfl ⟨by decide, by decide⟩))
    |>.step (.save (w := false) rfl rfl ⟨_, rfl, .inl rfl⟩)
    |>.step (.act (w := true) (.rebase rfl trivial))
    |>.step (.act (w := true) (.build _ 1 0 0 .stable rfl
      (.single (.merge [⟨[1], 0, 0, ⟨⟨0, 1⟩, ⟨0, 1⟩, []⟩, default, 0, 0, none, none⟩]
        ([[3], [4]].map fun pref => Part.bare pref
          (some ⟨default, default, some ⟨7, ⟨⟨0, 1⟩, ⟨0, 1⟩, []⟩, 2⟩, 1⟩)) 7
        (by decide) (by decide) (by decide))) ⟨by decide, by decide⟩))
    |>.step (.save (w := true) rfl rfl ⟨_, rfl, .inl rfl⟩)
  exact ⟨_, r, by decide, blocks_never_reused r⟩

end OtelStorage
