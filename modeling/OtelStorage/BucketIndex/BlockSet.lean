import OtelStorage.BucketIndex.Interval

/-!
# The algebra of block sets

A valid interval is the one encoding of the set it denotes: its runs are the maximal runs of the
set, and its bounds and gaps are read off them.  So the operations of the source, which
`BucketIndex.Interval` relates to the operations on sets, satisfy the laws of sets on encodings, as
equations (`block_set_algebra`).
-/

namespace OtelStorage.BucketIndex
namespace Interval

open Runs List

variable {a b iv : Interval}

/-- The two encodings are the same. -/
def equal (iv o : Interval) : Bool :=
  decide (iv.min = o.min) && decide (iv.max = o.max) && decide (iv.gaps = o.gaps)

/-- The interval that covers the blocks of a term with the given numbers. -/
def termBlocks (term : UInt64) (nums : List UInt64) : Interval :=
  if nums.any (· == 0) then default else fromRuns (nums.map fun n => ⟨⟨term, n⟩, ⟨term, n⟩⟩)

/-! ## One encoding for each set -/

/-- The bounds and gaps that `validFrom` accepts are those `ofMerged` writes for their runs. -/
theorem ofMerged_runsFrom {max : Block} : ∀ {gs : List Gap} {lo : Block},
    validFrom max lo gs = true → ofMerged (runsFrom max lo gs) = ⟨lo, max, gs⟩
  | [], lo, _ => rfl
  | g :: gs, lo, h => by
      unfold validFrom at h
      split at h
      · cases h
      split at h
      · cases h
      next hgap hrun =>
      simp only [Bool.or_eq_true, Bool.not_eq_true', Block.less_iff, Block.less_eq_false_iff,
        not_or, not_lt, not_le] at hgap
      obtain ⟨⟨hg, hlo⟩, hmax⟩ := hgap
      have hbound := max.key_lt
      have ih := ofMerged_runsFrom h
      obtain ⟨r, rs, hr⟩ := exists_cons_of_ne_nil (runsFrom_ne_nil max g.max.next gs)
      rw [hr] at ih
      obtain ⟨hmin, hlast, hgaps⟩ := (Interval.mk.injEq ..).mp ih
      rw [runsFrom, hr, ofMerged, Interval.mk.injEq, getLast_cons (cons_ne_nil r rs)]
      refine ⟨rfl, hlast, ?_⟩
      rw [gapsFrom, hgaps, hmin, Block.next_prev (by omega), Block.prev_next (by omega)]

theorem ofMerged_runs (h : iv.valid = true) : ofMerged iv.runs = iv := by
  unfold valid at h
  split at h
  · cases h
  · exact ofMerged_runsFrom h

theorem Gap.run_injective : Function.Injective Gap.run := by
  intro a b h
  obtain ⟨hmin, hmax⟩ := (Run.mk.injEq ..).mp h
  obtain ⟨amin, amax⟩ := a
  obtain ⟨bmin, bmax⟩ := b
  rw [Gap.mk.injEq]
  exact ⟨Block.key_injective hmin, Block.key_injective hmax⟩

theorem covers_iff (h : iv.valid = true) {x : ℕ} :
    Covers (iv.runs.map Gap.run) x ↔ ∃ b ∈ iv.blocks, b.key = x := by
  constructor
  · rintro ⟨r', hr', hlo, hhi⟩
    obtain ⟨r, hr, rfl⟩ := mem_map.mp hr'
    obtain ⟨b, rfl⟩ := exists_block_of_key (hhi.trans_lt r.max.key_lt)
    exact ⟨b, mem_blocks.mpr ⟨h, r, hr, hlo, hhi⟩, rfl⟩
  · rintro ⟨b, hb, rfl⟩
    exact hb.2

/-- **A set has one valid encoding.** -/
theorem eq_of_blocks_eq (ha : a.valid = true) (hb : b.valid = true) (h : a.blocks = b.blocks) :
    a = b := by
  have hgood : ∀ {iv : Interval}, iv.valid = true → ∀ r ∈ iv.runs.map Gap.run, r.lo ≤ r.hi := by
    intro iv hiv r' hr'
    obtain ⟨r, hr, rfl⟩ := mem_map.mp hr'
    exact ((validRun_iff _ _).mp ((runs_canonical hiv).good r hr)).2.2
  have hruns : a.runs.map Gap.run = b.runs.map Gap.run := by
    refine (runs_canonical ha).spread.ext (runs_canonical hb).spread (hgood ha) (hgood hb)
      fun x => ?_
    rw [covers_iff ha, covers_iff hb, h]
  rw [← ofMerged_runs ha, map_injective_iff.mpr Gap.run_injective hruns, ofMerged_runs hb]

theorem equal_iff : a.equal b = true ↔ a = b := by
  obtain ⟨amin, amax, agaps⟩ := a
  obtain ⟨bmin, bmax, bgaps⟩ := b
  simp only [equal, Bool.and_eq_true, decide_eq_true_eq, Interval.mk.injEq, and_assoc]

/-! ## The operations -/

theorem union_valid (ha : a.valid = true) : (a.union b).valid = true :=
  (union_valid_iff a b).mpr (.inl ha)

theorem union_comm (ha : a.valid = true) (hb : b.valid = true) : a.union b = b.union a := by
  refine eq_of_blocks_eq (union_valid ha) (union_valid hb) ?_
  rw [union_blocks, union_blocks, Set.union_comm]

theorem union_assoc {c : Interval} (ha : a.valid = true) :
    (a.union b).union c = a.union (b.union c) := by
  refine eq_of_blocks_eq (union_valid (union_valid ha)) (union_valid ha) ?_
  rw [union_blocks, union_blocks, union_blocks, union_blocks, Set.union_assoc]

theorem union_self (ha : a.valid = true) : a.union a = a := by
  refine eq_of_blocks_eq (union_valid ha) ha ?_
  rw [union_blocks, Set.union_self]

theorem intersect_eq_default_iff (ha : a.valid = true) (hb : b.valid = true) :
    intersect a b = default ↔ a.blocks ∩ b.blocks = ∅ := by
  have hfrom : intersect a b =
      fromRuns (intersectRuns (a.runs.length + b.runs.length) a.runs b.runs) := by
    simp only [intersect, ha, hb, Bool.not_true, Bool.or_self, Bool.false_eq_true, if_false]
  constructor
  · intro h
    rw [← intersect_blocks, h]
    exact blocks_of_not_valid rfl
  · intro h
    obtain ⟨hgood, -⟩ := intersectRuns_spec _ _ _ (runs_canonical ha) (runs_canonical hb) le_rfl
    have hinvalid : ¬ (intersect a b).valid = true := by
      rw [valid_iff_nonempty, intersect_blocks, h]
      exact Set.not_nonempty_empty
    rw [hfrom, (fromRuns_spec hgood).1, not_not] at hinvalid
    rw [hfrom, hinvalid]
    rfl

theorem termBlocks_spec {term : UInt64} {nums : List UInt64} (hne : nums ≠ []) (h0 : 0 ∉ nums) :
    (termBlocks term nums).valid = true ∧
      (termBlocks term nums).blocks = {b | b.term = term ∧ b.n ∈ nums} := by
  have hany : nums.any (· == 0) = false := by
    rw [any_eq_false]
    exact fun n hn h => h0 (eq_of_beq h ▸ hn)
  have hgood : ∀ r ∈ nums.map fun n => (⟨⟨term, n⟩, ⟨term, n⟩⟩ : Gap),
      validRun r.min r.max = true := by
    intro r hr
    obtain ⟨n, hn, rfl⟩ := mem_map.mp hr
    have hn0 : n.toNat ≠ 0 := fun hz =>
      h0 ((UInt64.toNat_inj.mp (hz.trans UInt64.toNat_zero.symm)) ▸ hn)
    exact validRun_self (UInt64.le_iff_toNat_le.mpr (Nat.one_le_iff_ne_zero.mpr hn0))
  obtain ⟨hvalid, hblocks⟩ := fromRuns_spec hgood
  simp only [termBlocks, hany, Bool.false_eq_true, if_false]
  refine ⟨hvalid.mpr fun h => hne (map_eq_nil_iff.mp h), ?_⟩
  ext b
  rw [hblocks, map_map, Set.mem_ofPred_eq]
  constructor
  · rintro ⟨r, hr, hlo, hhi⟩
    obtain ⟨n, hn, rfl⟩ := mem_map.mp hr
    have hb : (⟨term, n⟩ : Block) = b := Block.key_injective (le_antisymm hlo hhi)
    rw [← hb]
    exact ⟨rfl, hn⟩
  · rintro ⟨rfl, hn⟩
    exact ⟨_, mem_map.mpr ⟨b.n, hn, rfl⟩, le_rfl, le_rfl⟩

/-- **Block-set algebra is exact.**  On valid intervals, read as the sets of blocks they hold. -/
theorem block_set_algebra {a b : Interval} (ha : a.valid = true) (hb : b.valid = true)
    (c : Interval) :
    (a.contains b = true ↔ b.blocks ⊆ a.blocks) ∧
      ((a.union b).valid = true ∧ (a.union b).blocks = a.blocks ∪ b.blocks) ∧
      ((intersect a b).blocks = a.blocks ∩ b.blocks ∧
        (intersect a b = default ↔ a.blocks ∩ b.blocks = ∅) ∧
        ((intersect a b).valid = true ↔ (a.blocks ∩ b.blocks).Nonempty)) ∧
      (a.equal b = true ↔ a.blocks = b.blocks) ∧
      (∀ term nums, nums ≠ [] → 0 ∉ nums → (termBlocks term nums).valid = true ∧
        (termBlocks term nums).blocks = {x | x.term = term ∧ x.n ∈ nums}) ∧
      (a.union b).union c = a.union (b.union c) ∧ a.union b = b.union a ∧ a.union a = a := by
  refine ⟨?_, ⟨union_valid ha, union_blocks a b⟩,
    ⟨intersect_blocks a b, intersect_eq_default_iff ha hb, ?_⟩, ?_,
    fun _ _ hne h0 => termBlocks_spec hne h0, union_assoc ha, union_comm ha hb, union_self ha⟩
  · rw [contains_iff]
    exact ⟨fun h => h.2.2, fun h => ⟨ha, hb, h⟩⟩
  · rw [valid_iff_nonempty, intersect_blocks]
  · rw [equal_iff]
    exact ⟨congrArg blocks, eq_of_blocks_eq ha hb⟩

/-- A set that holds the last block of one term and the first of the next, and a range before it. -/
theorem block_set_algebra_at_term_end :
    ((⟨⟨0, 18446744073709551615⟩, ⟨1, 1⟩, [⟨⟨1, 0⟩, ⟨1, 0⟩⟩]⟩ : Interval).union
        ⟨⟨0, 5⟩, ⟨0, 18446744073709551614⟩, []⟩).blocks =
      (⟨⟨0, 18446744073709551615⟩, ⟨1, 1⟩, [⟨⟨1, 0⟩, ⟨1, 0⟩⟩]⟩ : Interval).blocks ∪
        (⟨⟨0, 5⟩, ⟨0, 18446744073709551614⟩, []⟩ : Interval).blocks :=
  (block_set_algebra (by decide) (by decide) default).2.1.2

end Interval
end OtelStorage.BucketIndex
