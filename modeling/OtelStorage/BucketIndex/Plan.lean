import OtelStorage.BucketIndex.Relater

/-!
# Planning merges and assigning blocks

A merge that writes one part inherits the union of its inputs' blocks.  A merge that splits its
output hands every fragment a fresh block of one run and records the union as the run's joint
claim.  In between, the claims of the inputs whose whole group is consumed are folded back into
the union.

Blocks are assigned per commit attempt by an allocator that counts upward from one block.  The
group of a split merge is identified by its address: two fragments share a run exactly when their
plans point at the same group.
-/

namespace OtelStorage.BucketIndex

open List Function

/-- The joint claim the outputs of one split merge will carry, and how many they are. -/
structure SplitGroup where
  addr : ℕ
  blocks : Interval
  n : ℕ
  deriving DecidableEq, Repr

/-- The identity a newly written part awaits until the commit that publishes it assigns one. -/
structure Plan where
  blocks : Interval
  claim : Claim
  group : Option SplitGroup
  level : UInt32
  deriving DecidableEq, Repr

/-- The plan of a flush output: a fresh block at level 0. -/
def flushPlan : Plan := ⟨default, default, none, 0⟩

/-- One pass over the claims: fold in each whose group is held by then, keep the others. -/
def realizePass : Interval → List Claim → Interval × List Claim
  | held, [] => (held, [])
  | held, c :: cs =>
      if held.contains c.group then realizePass (held.union c.blocks) cs
      else ((realizePass held cs).1, c :: (realizePass held cs).2)

/-- Passes repeat while one realizes a claim; each such pass uses up at least one. -/
def realizeLoop : ℕ → Interval → List Claim → Interval × List Claim
  | 0, held, claims => (held, claims)
  | fuel + 1, held, claims =>
      if claims.isEmpty then (held, claims)
      else
        let (held', rest) := realizePass held claims
        if rest.length = claims.length then (held', claims) else realizeLoop fuel held' rest

/-- Fold into `held` every claim whose group is wholly inside it, repeating while that keeps
realizing more; the claims still owed a member are returned. -/
def realizeClaims (held : Interval) (claims : List Claim) : Interval × List Claim :=
  realizeLoop claims.length held claims

/-- The claim over the most blocks, the first of equals. -/
def widestClaim (claims : List Claim) : Claim :=
  claims.foldl (fun best c => if best.blocks.len < c.blocks.len then c else best) default

variable (src : List Entry) (next : Block) {P : Set Block → Prop} {c : Claim}

/-- The union of the inputs' blocks. -/
def unionOf : Interval := src.foldl (fun u e => u.union e.blocks) default

/-- One level above the deepest input. -/
def levelOf : UInt32 := src.foldl (fun level e => max level (e.level + 1)) 0

/-- The claims the inputs carry. -/
def claimsOf : List Claim := (src.map Entry.claim).filter Claim.valid

/-- The plans of the `n` outputs of a merge over `src`, whose split group lives at `addr`. -/
def planMerge (addr : ℕ) (src : List Entry) (n : ℕ) : List Plan :=
  let (union, claims) := realizeClaims (unionOf src) (claimsOf src)
  if n = 1 then [⟨union, widestClaim claims, none, levelOf src⟩]
  else List.replicate n ⟨default, default, some ⟨addr, union, n⟩, levelOf src⟩

/-- The run one commit attempt allocated to a split group, and the next fragment's block. -/
structure GroupRun where
  run : Interval
  next : Block

/-- The identities of one commit attempt, taken upward from `next`. -/
structure Allocator where
  next : Block
  groups : ℕ → Option GroupRun

/-- An attempt's allocator, nothing taken yet. -/
def newAllocator : Allocator := ⟨next, fun _ => none⟩

namespace Allocator

variable (a : Allocator)

/-- The last block handed out, or the one below the first if none was. -/
def mark : Block := ⟨a.next.term, a.next.n - 1⟩

/-- Take the next `n` blocks. -/
def take (n : UInt64) : Block × Allocator :=
  (a.next, { a with next := ⟨a.next.term, a.next.n + n⟩ })

/-- Take the whole run of a split group. -/
def openGroup (g : SplitGroup) : GroupRun × Allocator :=
  let (lo, a') := a.take (UInt64.ofNat g.n)
  let r : GroupRun := ⟨⟨lo, ⟨lo.term, lo.n + UInt64.ofNat g.n - 1⟩, []⟩, lo⟩
  (r, { a' with groups := update a'.groups g.addr (some r) })

/-- Number the next fragment of the group at `g`, whose run is `r`. -/
def assignMember (g : SplitGroup) (r : GroupRun) : (Interval × Claim) × Allocator :=
  let claim : Claim := ⟨g.blocks, r.run⟩
  let a' := { a with
    groups := update a.groups g.addr (some ⟨r.run, ⟨r.next.term, r.next.n + 1⟩⟩) }
  ((⟨r.next, r.next, []⟩, if claim.valid then claim else default), a')

/-- Turn a plan into a real identity.  A plan that names its blocks keeps them; a split group takes
its whole run at once, before any of its fragments is numbered. -/
def assign (p : Plan) : (Interval × Claim) × Allocator :=
  if p.blocks.valid then ((p.blocks, p.claim), a)
  else
    match p.group with
    | none =>
        let (b, a') := a.take 1
        ((⟨b, b, []⟩, p.claim), a')
    | some g =>
        match a.groups g.addr with
        | some r => a.assignMember g r
        | none =>
            let (r, a') := a.openGroup g
            a'.assignMember g r

/-- The identities of a list of plans, assigned in order. -/
def assignAll : Allocator → List Plan → List (Interval × Claim) × Allocator
  | a, [] => ([], a)
  | a, p :: ps =>
      let (id, a') := a.assign p
      let (ids, a'') := assignAll a' ps
      (id :: ids, a'')

end Allocator

/-! ## The folded union -/

theorem foldl_union_blocks (u : Interval) :
    (src.foldl (fun u e => u.union e.blocks) u).blocks = u.blocks ∪ ⋃ e ∈ src, e.blocks.blocks := by
  induction src generalizing u with
  | nil => simp
  | cons e src ih =>
    rw [foldl_cons, ih, Interval.union_blocks]
    simp [Set.union_assoc]

theorem unionOf_blocks : (unionOf src).blocks = ⋃ e ∈ src, e.blocks.blocks := by
  have hempty : (default : Interval).blocks = ∅ := Interval.blocks_of_not_valid rfl
  rw [unionOf, foldl_union_blocks, hempty, Set.empty_union]

theorem mem_claimsOf {src : List Entry} :
    c ∈ claimsOf src ↔ c.valid = true ∧ ∃ e ∈ src, e.claim = c := by
  simp only [claimsOf, mem_filter, mem_map, and_comm]

variable (held : Interval) (claims : List Claim)

theorem realizePass_sublist : (realizePass held claims).2.Sublist claims := by
  induction claims generalizing held with
  | nil => exact List.Sublist.slnil
  | cons c cs ih =>
    rw [realizePass]
    split
    · exact (ih _).cons c
    · exact (ih held).cons_cons c

theorem realizeLoop_sublist (fuel : ℕ) (held : Interval) (claims : List Claim) :
    (realizeLoop fuel held claims).2.Sublist claims := by
  induction fuel generalizing held claims with
  | zero => exact .refl _
  | succ fuel ih =>
    rw [realizeLoop]
    split
    · exact .refl _
    · simp only
      split
      · exact .refl _
      · exact (ih _ _).trans (realizePass_sublist held claims)

/-- **Realizing keeps whatever a claim's group and ancestry agree on.**  Any property of block sets
that passes from a group to its ancestry, and to unions, passes to the realized union. -/
theorem realizePass_induction (hP : P held.blocks)
    (hstep : ∀ S, ∀ c ∈ claims, c.group.blocks ⊆ S → P S → P (S ∪ c.blocks.blocks)) :
    P (realizePass held claims).1.blocks := by
  induction claims generalizing held with
  | nil => exact hP
  | cons c cs ih =>
    have hstep' : ∀ S, ∀ c' ∈ cs, c'.group.blocks ⊆ S → P S → P (S ∪ c'.blocks.blocks) :=
      fun S c' hc' => hstep S c' (mem_cons_of_mem c hc')
    rw [realizePass]
    split
    · next hc =>
      refine ih _ ?_ hstep'
      rw [Interval.union_blocks]
      exact hstep _ c mem_cons_self ((Interval.contains_iff _ _).mp hc).2.2 hP
    · exact ih held hP hstep'

theorem realizeLoop_induction (fuel : ℕ) (held : Interval)
    (claims : List Claim) (hP : P held.blocks)
    (hstep : ∀ S, ∀ c ∈ claims, c.group.blocks ⊆ S → P S → P (S ∪ c.blocks.blocks)) :
    P (realizeLoop fuel held claims).1.blocks := by
  induction fuel generalizing held claims with
  | zero => exact hP
  | succ fuel ih =>
    have hpass := realizePass_induction held claims hP hstep
    rw [realizeLoop]
    split
    · exact hP
    simp only
    split
    · exact hpass
    · exact ih _ _ hpass fun S c hc =>
        hstep S c ((realizePass_sublist held claims).mem hc)

theorem realizeClaims_induction (hP : P held.blocks)
    (hstep : ∀ S, ∀ c ∈ claims, c.group.blocks ⊆ S → P S → P (S ∪ c.blocks.blocks)) :
    P (realizeClaims held claims).1.blocks :=
  realizeLoop_induction _ held claims hP hstep

theorem mem_of_mem_realizeClaims {held : Interval} {claims : List Claim}
    (h : c ∈ (realizeClaims held claims).2) : c ∈ claims :=
  (realizeLoop_sublist _ held claims).mem h

theorem widestClaim_mem : widestClaim claims = default ∨ widestClaim claims ∈ claims := by
  refine (SortedList.foldl_choice (g := id) (fun best c => ?_) claims default).imp_right ?_
  · exact (ite_eq_or_eq _ c best).symm
  · rintro ⟨c, hc, heq⟩
    rw [widestClaim, heq]
    exact hc

/-! ## What a merge is assigned -/

/-- The blocks, claims and level the outputs of a merge over `src` are given by an attempt whose
first free block is `next`. -/
def mergeIds (addr : ℕ) (src : List Entry) (n : ℕ) : List (Interval × Claim) :=
  ((newAllocator next).assignAll (planMerge addr src n)).1

/-- The joint ancestry of a merge: its inputs' blocks with the completed claims folded in. -/
def mergedBlocks : Interval := (realizeClaims (unionOf src) (claimsOf src)).1

/-- The `i`-th block of a run. -/
def nthBlock (i : ℕ) : Block := ⟨next.term, next.n + UInt64.ofNat i⟩

/-- The run of `n` blocks a split group takes. -/
def splitRun (n : ℕ) : Interval :=
  ⟨next, ⟨next.term, next.n + UInt64.ofNat n - 1⟩, []⟩

/-- The run exists: its blocks are numbered from 1 and stay within the term. -/
def RunFits (n : ℕ) : Prop := 1 ≤ next.n.toNat ∧ next.n.toNat + n ≤ 2 ^ 64

theorem mergeIds_one (addr : ℕ) (src : List Entry) (h : (mergedBlocks src).valid = true) :
    mergeIds next addr src 1 =
      [(mergedBlocks src, widestClaim (realizeClaims (unionOf src) (claimsOf src)).2)] := by
  rw [mergedBlocks] at h
  simp only [mergeIds, planMerge, if_true, Allocator.assignAll, Allocator.assign, h, mergedBlocks]

theorem planMerge_split (addr : ℕ) (src : List Entry) {n : ℕ} (hn : n ≠ 1) : planMerge addr src n =
    List.replicate n ⟨default, default, some ⟨addr, mergedBlocks src, n⟩, levelOf src⟩ := by
  simp only [planMerge, hn, if_false, mergedBlocks]

@[simp] theorem nthBlock_zero (b : Block) : nthBlock b 0 = b := by
  show (⟨b.term, b.n + 0⟩ : Block) = b
  rw [UInt64.add_zero]

theorem nthBlock_succ (b : Block) (i : ℕ) : nthBlock ⟨b.term, b.n + 1⟩ i = nthBlock b (i + 1) := by
  simp only [nthBlock, Block.mk.injEq, true_and, UInt64.ofNat_add]
  rw [UInt64.add_assoc, UInt64.add_comm 1]
  rfl

theorem assignAll_members (g : SplitGroup) (level : UInt32) (k : ℕ) (a : Allocator) (r : GroupRun)
    (hr : a.groups g.addr = some r) :
    (a.assignAll (List.replicate k ⟨default, default, some g, level⟩)).1 =
      (List.range k).map fun i => (⟨nthBlock r.next i, nthBlock r.next i, []⟩,
        if (⟨g.blocks, r.run⟩ : Claim).valid then ⟨g.blocks, r.run⟩ else default) := by
  induction k generalizing a r with
  | zero => rfl
  | succ k ih =>
    have hnone : (default : Interval).valid = false := rfl
    rw [replicate_succ, range_succ_eq_map, map_cons, map_map]
    simp only [Allocator.assignAll, Allocator.assign, hnone, Bool.false_eq_true, if_false, hr,
      Allocator.assignMember, nthBlock_zero]
    rw [ih _ ⟨r.run, ⟨r.next.term, r.next.n + 1⟩⟩ (update_self _ _ _)]
    simp only [nthBlock_succ, comp_def, Nat.succ_eq_add_one]

/-- A split merge gives its outputs the blocks of one fresh run, and all of them its claim. -/
theorem mergeIds_split (addr : ℕ) (src : List Entry) {n : ℕ} (hn : 1 < n) :
    mergeIds next addr src n = (List.range n).map fun i =>
      (⟨nthBlock next i, nthBlock next i, []⟩,
        if (⟨mergedBlocks src, splitRun next n⟩ : Claim).valid then
          ⟨mergedBlocks src, splitRun next n⟩ else default) := by
  obtain ⟨k, rfl⟩ : ∃ k, n = k + 1 := ⟨n - 1, by omega⟩
  have hnone : (default : Interval).valid = false := rfl
  -- the first fragment opens the group, and is then numbered like the others
  have hopen : ∀ g level, g.n = k + 1 →
      ((newAllocator next).assignAll (List.replicate (k + 1) ⟨default, default, some g, level⟩)).1 =
      (((newAllocator next).openGroup g).2.assignAll
        (List.replicate (k + 1) ⟨default, default, some g, level⟩)).1 := by
    intro g level _
    simp only [replicate_succ, Allocator.assignAll, Allocator.assign, hnone,
      Bool.false_eq_true, if_false, newAllocator, Allocator.openGroup, update_self]
  rw [mergeIds, planMerge_split addr src (by omega), hopen _ _ rfl,
    assignAll_members _ _ _ _ ((newAllocator next).openGroup _).1 (update_self _ _ _)]
  rfl

section RunFits

variable {next} {n i : ℕ} (h : RunFits next n)
include h

theorem nthBlock_n_toNat (hi : i < n) : (nthBlock next i).n.toNat = next.n.toNat + i := by
  obtain ⟨-, hfit⟩ := h
  simp only [nthBlock, UInt64.toNat_add, UInt64.toNat_ofNat']
  omega

theorem one_le_nthBlock (hi : i < n) : 1 ≤ (nthBlock next i).n := by
  rw [UInt64.le_iff_toNat_le, nthBlock_n_toNat h hi]
  exact h.1.trans (Nat.le_add_right _ _)

theorem nthBlock_injective {j : ℕ} (hi : i < n) (hj : j < n)
    (hij : nthBlock next i = nthBlock next j) : i = j := by
  have := nthBlock_n_toNat h hi
  rw [hij, nthBlock_n_toNat h hj] at this
  omega

/-- The run of a split group holds exactly the blocks of its members. -/
theorem splitRun_spec (hn : 0 < n) : (splitRun next n).valid = true ∧
    ∀ b, b ∈ (splitRun next n).blocks ↔ ∃ i < n, b = nthBlock next i := by
  obtain ⟨hone, hfit⟩ := h
  have htop : (splitRun next n).max = nthBlock next (n - 1) := by
    have hle : n - 1 + 1 = n := by omega
    simp only [splitRun, nthBlock, Block.mk.injEq, true_and]
    rw [← UInt64.toNat_inj]
    simp only [UInt64.toNat_sub, UInt64.toNat_add, UInt64.toNat_ofNat', UInt64.toNat_one]
    omega
  have hkey : ∀ i < n, (nthBlock next i).key = next.key + i := by
    intro i hi
    have hi' := nthBlock_n_toNat ⟨hone, hfit⟩ hi
    rw [Block.key_eq, hi', Block.key_eq]
    show next.term.toNat * 2 ^ 64 + _ = _
    omega
  have hrun : validRun next (splitRun next n).max = true := by
    have hless : (splitRun next n).max.less next = false := by
      rw [Block.less_eq_false_iff, htop, hkey _ (by omega)]
      exact Nat.le_add_right _ _
    have hn1 : decide (1 ≤ next.n) = true := decide_eq_true (UInt64.le_iff_toNat_le.mpr hone)
    simp only [validRun, hn1, hless, Bool.not_false, Bool.and_true, Bool.true_and]
    exact beq_self_eq_true _
  refine ⟨Interval.valid_run hrun, fun b => (Interval.mem_blocks_run hrun).trans ?_⟩
  rw [htop, hkey _ (by omega)]
  constructor
  · rintro ⟨hlo, hhi⟩
    refine ⟨b.key - next.key, by omega, Block.key_injective ?_⟩
    rw [hkey _ (by omega)]
    omega
  · rintro ⟨i, hi, rfl⟩
    rw [hkey i hi]
    omega

end RunFits

end OtelStorage.BucketIndex
