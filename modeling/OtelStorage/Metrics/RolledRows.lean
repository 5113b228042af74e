import Mathlib.Data.List.Induction
import OtelStorage.Metrics.Resolve

/-!
# What a rollup leaves alone

A rollup touches only samples before the cutoffs it applies and those the sources record: from the
latest cutoff on, a merge writes the rows of its sources as they are (`mem_rollSeries`).  Below it,
it writes representatives, all of them before the cutoff.
-/

namespace OtelStorage.Metrics

open Fibers Grid List

variable {F : Type*} {l : List (RollupRep F)} {tiers active : List DownsampleTier} {R ts : ℤ}
  {b : BucketAcc F} {xs : List (Sample F × RollupTag)} {s : Sample F} {P : Sample F → Prop}

/-- No tier of the list rolls up anything from `R` on. -/
def RollsBefore (R : ℤ) (tiers : List DownsampleTier) : Prop :=
  ∀ t ∈ tiers, 0 < t.interval → t.before ≤ R

theorem RollsBefore.mono {R' : ℤ} (h : RollsBefore R tiers) (hR : R ≤ R') :
    RollsBefore R' tiers := fun t ht hi => (h t ht hi).trans hR

theorem runTag_eq_raw {layout : List DownsampleTier} (h : RollsBefore R layout) (hts : R ≤ ts) :
    runTag layout ts = .raw := by
  have htier : tierAt layout ts = none := by
    rw [tierAt]
    induction layout with
    | nil => rfl
    | cons t layout ih =>
      have hskip : t.interval ≤ 0 ∨ t.before ≤ ts := by
        by_cases hi : 0 < t.interval
        · exact .inr ((h t mem_cons_self hi).trans hts)
        · exact .inl (not_lt.mp hi)
      rw [foldl_cons, if_pos hskip]
      exact ih fun u hu => h u (mem_cons_of_mem t hu)
  rw [runTag, htier]

theorem pickTier_eq_none (h : ∀ t ∈ active, t.before ≤ R) (hts : R ≤ ts) :
    pickTier active ts = none :=
  List.find?_eq_none.mpr fun t ht hlt =>
    absurd ((h t ht).trans hts) (not_le.mpr (of_decide_eq_true hlt))

/-! ## Representatives in order -/

theorem rollupOut_go_spec (cur : Sample F × ℤ) (rs : List (RollupRep F)) :
    (∀ y ∈ rollupOut.go cur rs, y.1 = cur.1 ∨ ∃ r ∈ rs, y.1 = r.sample) ∧
      (∀ y ∈ rollupOut.go cur rs, y.2 = cur.2 ∨ ∃ r ∈ rs, y.2 = r.covered) ∧
      (∃ y ∈ rollupOut.go cur rs, y.1 = cur.1) ∧
      ∀ r ∈ rs, ∃ y ∈ rollupOut.go cur rs, y.1.ts = r.sample.ts := by
  induction rs generalizing cur with
  | nil => exact ⟨fun y hy => .inl (mem_singleton.mp hy ▸ rfl),
      fun y hy => .inl (mem_singleton.mp hy ▸ rfl), ⟨cur, mem_cons_self, rfl⟩, nofun⟩
  | cons r rs ih =>
    rw [rollupOut.go]
    split
    · next hts =>
      obtain ⟨hsub, hlate, ⟨y, hy, hycur⟩, hcover⟩ := ih (cur.1, max cur.2 r.covered)
      refine ⟨fun z hz => (hsub z hz).imp_right exists_mem_cons_of_exists, fun z hz => ?_,
        ⟨y, hy, hycur⟩, fun r' hr' => ?_⟩
      · rcases hlate z hz with hz | hz
        · rcases max_choice cur.2 r.covered with hm | hm
          · exact .inl (hz.trans hm)
          · exact .inr ⟨r, mem_cons_self, hz.trans hm⟩
        · exact .inr (exists_mem_cons_of_exists hz)
      · rcases mem_cons.mp hr' with rfl | hr'
        · exact ⟨y, hy, (congrArg Sample.ts hycur).trans hts⟩
        · exact hcover r' hr'
    obtain ⟨hsub, hlate, ⟨y, hy, hycur⟩, hcover⟩ := ih (r.sample, r.covered)
    refine ⟨fun z hz => ?_, fun z hz => ?_, ⟨cur, mem_cons_self, rfl⟩, fun r' hr' => ?_⟩
    · rcases mem_cons.mp hz with rfl | hz
      · exact .inl rfl
      · exact .inr ((exists_mem_cons_iff _ _ _).mpr (hsub z hz))
    · rcases mem_cons.mp hz with rfl | hz
      · exact .inl rfl
      · exact .inr ((exists_mem_cons_iff _ _ _).mpr (hlate z hz))
    · rcases mem_cons.mp hr' with rfl | hr'
      · exact ⟨y, mem_cons_of_mem cur hy, congrArg Sample.ts hycur⟩
      · obtain ⟨z, hz, hzts⟩ := hcover r' hr'
        exact ⟨z, mem_cons_of_mem cur hz, hzts⟩

theorem rollupOut_go_strict {cur : Sample F × ℤ} {rs : List (RollupRep F)}
    (hcur : ∀ r ∈ rs, cur.1.ts ≤ r.sample.ts)
    (hrs : rs.Pairwise fun a b => a.sample.ts ≤ b.sample.ts) :
    (rollupOut.go cur rs).Pairwise fun a b => a.1.ts < b.1.ts := by
  induction rs generalizing cur with
  | nil => exact pairwise_singleton _ _
  | cons r rs ih =>
    obtain ⟨hr, hrs⟩ := pairwise_cons.mp hrs
    rw [rollupOut.go]
    split
    · exact ih (fun r' hr' => hcur r' (mem_cons_of_mem r hr')) hrs
    next hne =>
    have hlt : cur.1.ts < r.sample.ts := lt_of_le_of_ne (hcur r mem_cons_self) hne
    refine pairwise_cons.mpr ⟨fun y hy => ?_, ih hr hrs⟩
    rcases (rollupOut_go_spec _ _).1 y hy with hy | ⟨r', hr', hy⟩
    · rw [hy]
      exact hlt
    · rw [hy]
      exact hlt.trans_le (hr r' hr')

theorem mem_rollupOut {y : Sample F × ℤ} (h : y ∈ rollupOut l) :
    (∃ r ∈ l, y.1 = r.sample) ∧ ∃ r ∈ l, y.2 = r.covered := by
  cases l with
  | nil => cases h
  | cons r rs =>
    obtain ⟨hsub, hlate, -⟩ := rollupOut_go_spec (r.sample, r.covered) rs
    exact ⟨(exists_mem_cons_iff _ _ _).mpr (hsub y h), (exists_mem_cons_iff _ _ _).mpr (hlate y h)⟩

theorem exists_mem_rollupOut {r : RollupRep F} (h : r ∈ l) :
    ∃ y ∈ rollupOut l, y.1.ts = r.sample.ts := by
  cases l with
  | nil => cases h
  | cons r' rs =>
    obtain ⟨-, -, ⟨y, hy, hycur⟩, hcover⟩ := rollupOut_go_spec (r'.sample, r'.covered) rs
    rcases mem_cons.mp h with rfl | h
    · exact ⟨y, hy, congrArg Sample.ts hycur⟩
    · exact hcover r h

theorem rollupOut_strict (h : l.Pairwise fun a b => a.sample.ts ≤ b.sample.ts) :
    Strict Sample.ts ((rollupOut l).map Prod.fst) := by
  refine pairwise_map.mpr ?_
  cases l with
  | nil => exact .nil
  | cons r rs =>
    obtain ⟨hr, hrs⟩ := pairwise_cons.mp h
    exact rollupOut_go_strict hr hrs

variable [Float64 F]

/-! ## Buckets before the cutoff -/

/-- A bucket with samples, and what holds of those it keeps. -/
structure BucketAcc.Each (P : Sample F → Prop) (b : BucketAcc F) : Prop where
  n : b.n ≠ 0
  min : P b.min
  max : P b.max
  first : P b.first
  last : P b.last

theorem BucketAcc.each_addCounted (h : b.n = 0 ∨ b.Each P) (hs : P s) (counted : F) :
    (b.addCounted s counted).Each P := by
  rw [addCounted]
  split
  · exact ⟨Nat.one_ne_zero, hs, hs, hs, hs⟩
  · next hn =>
    have hb := h.resolve_left hn
    refine ⟨Nat.succ_ne_zero _, ?_, ?_, ?_, ?_⟩ <;> dsimp only [addWeighted] <;> split
    exacts [hs, hb.min, hs, hb.max, hs, hb.first, hs, hb.last]

theorem BucketAcc.each_addRep (h : b.n = 0 ∨ b.Each P) (hs : P s) (agg : Aggregation) :
    (b.addRep s agg).Each P := by
  have hrep : ∀ r : Option Aggregation, ({ b with repAgg := r } : BucketAcc F).n = 0 ∨
      ({ b with repAgg := r } : BucketAcc F).Each P :=
    fun r => h.imp (fun h0 => h0) fun hb => { hb with }
  rw [addRep]
  exact each_addCounted (hrep _) hs _

theorem BucketAcc.each_foldl_put {zs : List (Sample F × RollupTag)} (hzs : ∀ z ∈ zs, P z.1)
    (hne : zs ≠ []) (hb : b.n = 0) : (zs.foldl BucketAcc.put b).Each P := by
  have hput : ∀ (b : BucketAcc F) (z : Sample F × RollupTag), b.n = 0 ∨ b.Each P → P z.1 →
      (b.put z).Each P := by
    intro b z hb hz
    rw [BucketAcc.put]
    split
    · exact each_addRep hb hz _
    · exact each_addCounted hb hz _
  have hall : ∀ (zs : List (Sample F × RollupTag)), (∀ z ∈ zs, P z.1) →
      (zs.foldl BucketAcc.put b).n = 0 ∧ zs = [] ∨ (zs.foldl BucketAcc.put b).Each P := by
    intro zs hzs
    induction zs using List.reverseRecOn with
    | nil => exact .inl ⟨hb, rfl⟩
    | append_singleton zs z ih =>
      rw [foldl_append, foldl_cons, foldl_nil]
      right
      exact hput _ z ((ih fun y hy => hzs y (mem_append_left _ hy)).imp_left And.left)
        (hzs z (mem_append_right _ mem_cons_self))
  exact (hall zs hzs).resolve_left fun hnil => hne hnil.2

theorem BucketAcc.ts_result {Q : ℤ → Prop} (h : b.Each fun s => Q s.ts) {start : ℤ}
    (hstart : Q start) : Q (b.result start).ts := by
  rw [result]
  split
  · exact h.first
  · exact h.min
  · exact h.max
  · exact hstart
  · split <;> exact hstart
  · exact hstart
  · exact h.last

/-! ## The fold into buckets -/

/-- The bucket a rollup puts a sample into. -/
def bucketKey (active : List DownsampleTier) (z : Sample F × RollupTag) : BucketKey :=
  let (interval, _, _) := rollTarget active z.1.ts z.2
  if 0 < interval then ⟨interval, alignDown z.1.ts interval⟩ else ⟨0, z.1.ts⟩

/-- The state of a bucket a sample opens. -/
def openBucket (active : List DownsampleTier) (z : Sample F × RollupTag) : BucketAcc F :=
  let (_, agg, fixed) := rollTarget active z.1.ts z.2
  .new agg (if fixed then some agg else none)

theorem addToBucket_eq (active : List DownsampleTier) (buckets : List (BucketKey × BucketAcc F))
    (z : Sample F × RollupTag) :
    addToBucket active buckets z =
      if buckets.any fun b => b.1 = bucketKey active z then
        buckets.map fun b => if b.1 = bucketKey active z then (b.1, b.2.put z) else b
      else buckets ++ [(bucketKey active z, (openBucket active z).put z)] := rfl

/-- The buckets of some samples. -/
structure BucketsOf (active : List DownsampleTier) (zs : List (Sample F × RollupTag))
    (buckets : List (BucketKey × BucketAcc F)) : Prop where
  nodup : (buckets.map Prod.fst).Nodup
  mem : ∀ z ∈ zs, bucketKey active z ∈ buckets.map Prod.fst
  acc : ∀ b ∈ buckets, ∃ z ∈ zs, bucketKey active z = b.1 ∧
    b.2 = (fiber (bucketKey active) b.1 zs).foldl BucketAcc.put (openBucket active z)

theorem bucketsOf_foldl (active : List DownsampleTier) (zs : List (Sample F × RollupTag)) :
    BucketsOf active zs (zs.foldl (addToBucket active) []) := by
  induction zs using List.reverseRecOn with
  | nil => exact ⟨nodup_nil, nofun,
      nofun⟩
  | append_singleton zs z ih =>
    rw [foldl_append, foldl_cons, foldl_nil, addToBucket_eq]
    obtain ⟨buckets, hbuckets⟩ : ∃ bs, bs = zs.foldl (addToBucket active) [] := ⟨_, rfl⟩
    rw [← hbuckets] at ih ⊢
    have hfiber : fiber (bucketKey active) (bucketKey active z) (zs ++ [z]) =
        fiber (bucketKey active) (bucketKey active z) zs ++ [z] := by
      rw [fiber_append, fiber_cons_self, fiber_nil]
    have hother : ∀ k, k ≠ bucketKey active z →
        fiber (bucketKey active) k (zs ++ [z]) = fiber (bucketKey active) k zs := by
      intro k hk
      rw [fiber_append, fiber_cons_of_ne (bucketKey active) hk.symm, fiber_nil, append_nil]
    split
    · next hany =>
      -- the bucket is there
      have hkeys : (buckets.map fun b =>
          if b.1 = bucketKey active z then (b.1, b.2.put z) else b).map Prod.fst =
          buckets.map Prod.fst := by
        rw [map_map]
        refine map_congr_left fun b _ => ?_
        show (if b.1 = bucketKey active z then (b.1, b.2.put z) else b).1 = b.1
        split <;> rfl
      refine ⟨hkeys ▸ ih.nodup, fun y hy => ?_, fun b hb => ?_⟩
      · rw [hkeys]
        rcases mem_append.mp hy with hy | hy
        · exact ih.mem y hy
        · rw [mem_singleton.mp hy]
          obtain ⟨b, hb, hk⟩ := any_eq_true.mp hany
          exact mem_map.mpr ⟨b, hb, of_decide_eq_true hk⟩
      obtain ⟨b, hmem, rfl⟩ := mem_map.mp hb
      obtain ⟨y, hy, hyk, hacc⟩ := ih.acc b hmem
      split
      · next hk =>
        refine ⟨y, mem_append_left _ hy, hyk, ?_⟩
        dsimp only
        rw [hk, hfiber, foldl_append, ← hk, ← hacc]
        rfl
      · next hk =>
        refine ⟨y, mem_append_left _ hy, hyk, ?_⟩
        rw [hother b.1 hk]
        exact hacc
    next hany =>
    have hfresh : ∀ b ∈ buckets, b.1 ≠ bucketKey active z := fun b hb hk =>
      hany (any_eq_true.mpr ⟨b, hb, decide_eq_true hk⟩)
    have hnone : fiber (bucketKey active) (bucketKey active z) zs = [] :=
      fiber_eq_nil _ fun y hy hk => by
        obtain ⟨b, hb, hbk⟩ := mem_map.mp (ih.mem y hy)
        exact hfresh b hb (hbk.trans hk)
    refine ⟨?_, fun y hy => ?_, fun b hb => ?_⟩
    · rw [map_append]
      refine nodup_append.mpr ⟨ih.nodup, nodup_singleton _, fun k hk k' hk' => ?_⟩
      obtain ⟨b, hb, rfl⟩ := mem_map.mp hk
      rw [mem_singleton.mp hk']
      exact hfresh b hb
    · rw [map_append]
      rcases mem_append.mp hy with hy | hy
      · exact mem_append_left _ (ih.mem y hy)
      · rw [mem_singleton.mp hy]
        exact mem_append_right _ mem_cons_self
    rcases mem_append.mp hb with hb | hb
    · obtain ⟨y, hy, hyk, hacc⟩ := ih.acc b hb
      refine ⟨y, mem_append_left _ hy, hyk, ?_⟩
      rw [hother b.1 (hfresh b hb)]
      exact hacc
    rw [mem_singleton.mp hb]
    refine ⟨z, mem_append_right _ mem_cons_self, rfl, ?_⟩
    dsimp only
    rw [hfiber, hnone]
    rfl

/-! ## Buckets past the cutoff -/

/-- The bucket of a raw sample alone. -/
def soleBucket (s : Sample F) : BucketKey × BucketAcc F :=
  (⟨0, s.ts⟩, (BucketAcc.new .last none).add s)

/-- A bucket that starts before the cutoff and has only samples before it. -/
def Before (R : ℤ) (b : BucketKey × BucketAcc F) : Prop :=
  b.1.start ∈ Set.Ico 0 R ∧ b.2.Each fun s => s.ts ∈ Set.Ico 0 R

/-- A bucket after some samples: that of a raw one from the cutoff on, or one before it. -/
def BucketKind (R : ℤ) (xs : List (Sample F × RollupTag)) (b : BucketKey × BucketAcc F) : Prop :=
  (∃ x ∈ xs, R ≤ x.1.ts ∧ b = soleBucket x.1) ∨ Before R b

/-- What the buckets are after some samples. -/
structure BucketsOver (R : ℤ) (xs : List (Sample F × RollupTag))
    (buckets : List (BucketKey × BucketAcc F)) : Prop where
  kind : ∀ b ∈ buckets, BucketKind R xs b
  sole : ∀ x ∈ xs, R ≤ x.1.ts → soleBucket x.1 ∈ buckets

theorem alignDown_mem {w : ℤ} (hw : 0 < w) (hts : ts ∈ Set.Ico 0 (2 ^ 63)) :
    alignDown ts w ∈ Set.Icc 0 ts := by
  have hnonneg := floorTo_nonneg hw hts.1
  rw [alignDown, wrap_floorTo hw (le_trans (by decide) hnonneg) hts.2]
  exact ⟨hnonneg, floorTo_le hw⟩

theorem bucketsOver_foldl (hactive : ∀ t ∈ active, t.before ≤ R)
    (hts : ∀ x ∈ xs, x.1.ts ∈ Set.Ico 0 (2 ^ 63)) (hstrict : Strict tagTs xs)
    (hraw : ∀ x ∈ xs, R ≤ x.1.ts → x.2 = .raw) :
    BucketsOver R xs (xs.foldl (addToBucket active) []) := by
  have hbuckets := bucketsOf_foldl active xs
  -- a sample from the cutoff on has a bucket of its own, an earlier one a bucket that starts before
  have hown : ∀ x ∈ xs, R ≤ x.1.ts →
      bucketKey active x = ⟨0, x.1.ts⟩ ∧ openBucket active x = .new .last none := by
    intro x hx hR
    have htarget : rollTarget active x.1.ts x.2 = (0, .last, false) := by
      rw [rollTarget, pickTier_eq_none hactive hR, hraw x hx hR]
      rfl
    rw [bucketKey, openBucket, htarget]
    exact ⟨rfl, rfl⟩
  have hbefore : ∀ x ∈ xs, x.1.ts < R → (bucketKey active x).start ∈ Set.Ico 0 R := by
    intro x hx hR
    rw [bucketKey]
    dsimp only
    split
    · next hi => exact (alignDown_mem hi (hts x hx)).imp_right fun hle => hle.trans_lt hR
    · exact ⟨(hts x hx).1, hR⟩
  have hpast : ∀ x ∈ xs, ∀ y ∈ xs, bucketKey active x = bucketKey active y → R ≤ x.1.ts →
      R ≤ y.1.ts := by
    intro x hx y hy hk hR
    by_contra hlt
    have hstart := (hbefore y hy (not_le.mp hlt)).2
    rw [← hk, (hown x hx hR).1] at hstart
    exact absurd hstart (not_lt.mpr hR)
  have hkind : ∀ b ∈ xs.foldl (addToBucket active) [], ∀ x ∈ xs, bucketKey active x = b.1 →
      if R ≤ x.1.ts then b = soleBucket x.1 else Before R b := by
    intro b hb x hx hk
    obtain ⟨z, hz, hzk, hacc⟩ := hbuckets.acc b hb
    split
    · next hR =>
      have hfiber : fiber (bucketKey active) b.1 xs = [x] := by
        rw [← hstrict.fiber_eq hx]
        refine filter_congr fun y hy => decide_eq_decide.mpr ⟨fun hyk => ?_, fun hts => ?_⟩
        · have hk' := hk.trans hyk.symm
          have hRy := hpast x hx y hy hk' hR
          rw [(hown x hx hR).1, (hown y hy hRy).1] at hk'
          exact (congrArg BucketKey.start hk').symm
        · rw [hstrict.inj hy hx hts, hk]
      have hzx : z ∈ [x] := hfiber ▸ (mem_fiber _).mpr ⟨hz, hzk⟩
      rw [mem_singleton.mp hzx, hfiber, (hown x hx hR).2] at hacc
      refine Prod.ext (hk.symm.trans (hown x hx hR).1) (hacc.trans ?_)
      rw [foldl_cons, foldl_nil, BucketAcc.put, hraw x hx hR]
      rfl
    · next hR =>
      refine ⟨hk ▸ hbefore x hx (not_le.mp hR), ?_⟩
      rw [hacc]
      refine BucketAcc.each_foldl_put (fun y hy => ?_)
        (ne_nil_of_mem ((mem_fiber _).mpr ⟨hx, hk⟩)) rfl
      obtain ⟨hy, hyk⟩ := (mem_fiber _).mp hy
      exact ⟨(hts y hy).1, not_le.mp fun hRy => hR (hpast y hy x hx (hyk.trans hk.symm) hRy)⟩
  refine ⟨fun b hb => ?_, fun x hx hR => ?_⟩
  · obtain ⟨x, hx, hk, -⟩ := hbuckets.acc b hb
    have hb' := hkind b hb x hx hk
    split at hb'
    · next hR => exact .inl ⟨x, hx, hR, hb'⟩
    · exact .inr hb'
  · obtain ⟨b, hb, hk⟩ := mem_map.mp (hbuckets.mem x hx)
    have hb' := hkind b hb x hx hk.symm
    rw [if_pos hR] at hb'
    exact hb' ▸ hb

/-! ## The rows written -/

instance : Std.Total (RollupRep.le (F := F)) where
  total a b := by
    rw [RollupRep.le, RollupRep.le]
    omega

instance : IsTrans (RollupRep F) RollupRep.le where
  trans a b c hab hbc := by
    rw [RollupRep.le] at *
    omega

omit [Float64 F] in
theorem RollupRep.pairwise_insertionSort (reps : List (RollupRep F)) :
    (reps.insertionSort RollupRep.le).Pairwise fun a b => a.sample.ts ≤ b.sample.ts := by
  refine (List.pairwise_insertionSort RollupRep.le reps).imp fun {a b} hab => ?_
  rw [RollupRep.le] at hab
  omega

/-- **From the cutoff on a rollup leaves raw samples as they are.** -/
theorem downsampleCovering_spec (htiers : RollsBefore R tiers)
    (hts : ∀ x ∈ xs, x.1.ts ∈ Set.Ico 0 (2 ^ 63)) (hstrict : Strict tagTs xs)
    (hraw : ∀ x ∈ xs, R ≤ x.1.ts → x.2 = .raw) :
    Strict Sample.ts ((downsampleCovering xs tiers).map Prod.fst) ∧
      (∀ s ∈ (downsampleCovering xs tiers).map Prod.fst, 0 ≤ s.ts) ∧
      ∀ s, R ≤ s.ts → (s ∈ (downsampleCovering xs tiers).map Prod.fst ↔ s ∈ xs.map Prod.fst) := by
  rw [downsampleCovering]
  dsimp only
  split
  · rw [map_map]
    refine ⟨pairwise_map.mpr hstrict, fun s hs => ?_, fun _ _ => Iff.rfl⟩
    obtain ⟨x, hx, rfl⟩ := mem_map.mp hs
    exact (hts x hx).1
  obtain ⟨active, hactive⟩ : ∃ active : List DownsampleTier,
      active = (tiers.filter fun t => 0 < t.interval).insertionSort
        DownsampleTier.widestFirst := ⟨_, rfl⟩
  rw [← hactive]
  have hbefore : ∀ t ∈ active, t.before ≤ R := by
    intro t ht
    rw [hactive, mem_insertionSort] at ht
    obtain ⟨ht, hi⟩ := mem_filter.mp ht
    exact htiers t ht (of_decide_eq_true hi)
  have hover := bucketsOver_foldl hbefore hts hstrict hraw
  obtain ⟨reps, hreps⟩ : ∃ reps : List (RollupRep F),
      reps = (xs.foldl (addToBucket active) []).map fun b =>
        RollupRep.mk (b.2.result b.1.start) b.1.interval b.2.last.ts := ⟨_, rfl⟩
  rw [← hreps]
  have hsole : ∀ s : Sample F, (soleBucket s).2.result (soleBucket s).1.start = s := fun _ => rfl
  -- a representative is a raw sample or before the cutoff
  have hrep : ∀ r ∈ reps, r.sample ∈ xs.map Prod.fst ∨ r.sample.ts ∈ Set.Ico 0 R := by
    intro r hr
    rw [hreps] at hr
    obtain ⟨b, hb, rfl⟩ := mem_map.mp hr
    rcases hover.kind b hb with ⟨x, hx, -, rfl⟩ | ⟨hstart, hbelow⟩
    · exact .inl (mem_map.mpr ⟨x, hx, (hsole x.1).symm⟩)
    · exact .inr (BucketAcc.ts_result hbelow hstart)
  have hlate : ∀ r ∈ reps, R ≤ r.sample.ts → r.sample ∈ xs.map Prod.fst := fun r hr hR =>
    (hrep r hr).resolve_right fun hlt => absurd hR (not_le.mpr hlt.2)
  have hone : Strict Sample.ts (xs.map Prod.fst) := pairwise_map.mpr hstrict
  refine ⟨rollupOut_strict (RollupRep.pairwise_insertionSort reps), fun s hs => ?_,
    fun s hs => ⟨fun hmem => ?_, fun hmem => ?_⟩⟩
  · obtain ⟨y, hy, rfl⟩ := mem_map.mp hs
    obtain ⟨r, hr, hyr⟩ := (mem_rollupOut hy).1
    rw [hyr]
    rcases hrep r ((mem_insertionSort _).mp hr) with hr | hr
    · obtain ⟨x, hx, hxr⟩ := mem_map.mp hr
      exact hxr ▸ (hts x hx).1
    · exact hr.1
  · obtain ⟨y, hy, rfl⟩ := mem_map.mp hmem
    obtain ⟨r, hr, hyr⟩ := (mem_rollupOut hy).1
    rw [hyr] at hs ⊢
    exact hlate r ((mem_insertionSort _).mp hr) hs
  obtain ⟨x, hx, rfl⟩ := mem_map.mp hmem
  have hmem' : RollupRep.mk ((soleBucket x.1).2.result (soleBucket x.1).1.start)
      (soleBucket x.1).1.interval (soleBucket x.1).2.last.ts ∈
      reps.insertionSort RollupRep.le := by
    rw [mem_insertionSort, hreps]
    exact mem_map.mpr ⟨_, hover.sole x hx hs, rfl⟩
  obtain ⟨y, hy, hyts⟩ := exists_mem_rollupOut hmem'
  have hyts' : y.1.ts = x.1.ts := hyts
  obtain ⟨r, hr, hyr⟩ := (mem_rollupOut hy).1
  have hyx : y.1 ∈ xs.map Prod.fst := by
    rw [hyr]
    refine hlate r ((mem_insertionSort _).mp hr) ?_
    rw [← hyr, hyts']
    exact hs
  -- two rows at one timestamp are one
  have hfiber := hone.fiber_eq hmem
  have hy' : y.1 ∈ fiber Sample.ts x.1.ts (xs.map Prod.fst) :=
    (mem_fiber Sample.ts).mpr ⟨hyx, hyts'⟩
  rw [hfiber, mem_singleton] at hy'
  exact mem_map.mpr ⟨y, hy, hy'⟩

/-- **What a merge writes.**  Of sources from the epoch on its rows increase, and from the cutoff on
they are those of the sources. -/
theorem mem_rollSeries {runs : List (Run F)} (hruns : ∀ r ∈ runs, Strict Sample.ts r.samples)
    (hts : ∀ r ∈ runs, ∀ s ∈ r.samples, s.ts ∈ Set.Ico 0 (2 ^ 63))
    (hlayout : ∀ r ∈ runs, RollsBefore R r.layout)
    (hone : ∀ r ∈ runs, ∀ s ∈ r.samples, ∀ r' ∈ runs, ∀ s' ∈ r'.samples,
      R ≤ s.ts → s.ts = s'.ts → s = s') (htiers : RollsBefore R tiers) :
    Strict Sample.ts ((rollSeries runs tiers).map Prod.fst) ∧
      (∀ s ∈ (rollSeries runs tiers).map Prod.fst, 0 ≤ s.ts) ∧
      ∀ s, R ≤ s.ts → (s ∈ (rollSeries runs tiers).map Prod.fst ↔ ∃ r ∈ runs, s ∈ r.samples) := by
  have hgather := resolved_gather true hruns
  have hstrict := strict_gather true hruns
  -- from the cutoff on a merge keeps the one raw sample
  have hkeep : ∀ r ∈ runs, ∀ s ∈ r.samples, R ≤ s.ts → resolve s.ts runs = [(s, .raw)] := by
    intro r hr s hs hR
    refine resolve_const (fun y hy => ?_) fun hnil => ?_
    · obtain ⟨r', hr', htag, hy, hyts, -⟩ := mem_tiesAt hy
      rw [htag]
      exact ⟨runTag_eq_raw (hlayout r' hr') hR, (hone r hr s hs r' hr' _ hy hR hyts.symm).symm⟩
    · have hmem : _ ∈ tiesAt s.ts runs :=
        mem_filterMap.mpr ⟨r, mem_reverse.mpr hr, Run.at_of_mem (hruns r hr) hs⟩
      rw [hnil] at hmem
      cases hmem
  have hraw : ∀ x ∈ gather true runs, R ≤ x.1.ts → x.2 = .raw ∧ ∃ r ∈ runs, x.1 ∈ r.samples := by
    intro x hx hR
    obtain ⟨r, hr, s, hs, hsx⟩ := hgather.exists_sample hx
    have hfiber : x ∈ fiber tagTs s.ts (gather true runs) :=
      (mem_fiber tagTs).mpr ⟨hx, hsx.symm⟩
    rw [hgather.fibers, hkeep r hr s hs (hsx ▸ hR), mem_singleton] at hfiber
    rw [hfiber]
    exact ⟨rfl, r, hr, hs⟩
  have hdrop : dropRawDuplicates (gather true runs) = gather true runs :=
    dropRawDuplicates_strict (pairwise_map.mpr hstrict)
  rw [rollSeries, hdrop]
  have hpos : ∀ x ∈ gather true runs, x.1.ts ∈ Set.Ico 0 (2 ^ 63) := by
    intro x hx
    obtain ⟨r, hr, s, hs, hsx⟩ := hgather.exists_sample hx
    exact hsx ▸ hts r hr s hs
  obtain ⟨hout, hnonneg, hmem⟩ :=
    downsampleCovering_spec htiers hpos hstrict fun x hx hR => (hraw x hx hR).1
  refine ⟨hout, hnonneg, fun s hs => (hmem s hs).trans ⟨fun h => ?_, fun h => ?_⟩⟩
  · obtain ⟨x, hx, rfl⟩ := mem_map.mp h
    exact (hraw x hx hs).2
  obtain ⟨r, hr, hsr⟩ := h
  have hx : (s, RollupTag.raw) ∈ fiber tagTs s.ts (gather true runs) := by
    rw [hgather.fibers, hkeep r hr s hsr hs]
    exact mem_cons_self
  exact mem_map.mpr ⟨_, ((mem_fiber tagTs).mp hx).1, rfl⟩

end OtelStorage.Metrics
