import OtelStorage.Metrics.Regroup

/-!
# Rolling up

The buckets of a rollup hold each the fold of its samples (`bucketsOf_foldl`).  Where every sample's
key is its bucket under a layout, the representatives roll the raw samples up under that layout:
`rolls_downsampleCovering`.  It holds when the layout is applied, and when nothing is applied to
samples that are as wide as the layout already; then samples that share no bucket are written as
they are.
-/

namespace OtelStorage.Metrics

open Fibers Grid List

variable {F : Type*} [Float64 F] {agg : Aggregation} {policy layout active : List DownsampleTier}
  {xs : List (Sample F)} {qs : List (Item F)} {z : Sample F × RollupTag} {q : Item F}

/-- Every tier's bucket of a sample starts at a 64-bit integer. -/
def StartsIn (policy : List DownsampleTier) (xs : List (Sample F)) : Prop :=
  ∀ x ∈ xs, ∀ t ∈ policy, 0 < t.interval → floorTo x.ts t.interval ∈ Set.Ico (-2 ^ 63) (2 ^ 63)

instance (policy : List DownsampleTier) (xs : List (Sample F)) : Decidable (StartsIn policy xs) :=
  inferInstanceAs (Decidable (∀ x ∈ xs, ∀ t ∈ policy, 0 < t.interval →
    -2 ^ 63 ≤ floorTo x.ts t.interval ∧ floorTo x.ts t.interval < 2 ^ 63))

/-- Then so does the bucket of an item, which has a raw sample in it. -/
theorem Standing.alignDown_eq (hsub : SubLayout policy layout) (h : Standing agg layout qs xs)
    (hstarts : StartsIn policy xs) (hq : q ∈ qs)
    (hw : 0 < width layout (Item.ts q)) : alignDown (Item.ts q) (width layout (Item.ts q)) =
      floorTo (Item.ts q) (width layout (Item.ts q)) := by
  obtain ⟨x, hx⟩ := exists_mem_of_ne_nil _ (h.grouped.ne q hq)
  obtain ⟨hwidth, hstart⟩ := bucketOf_inj (h.within q hq x hx)
  rw [hwidth, if_pos hw] at hstart
  obtain ⟨t, ht, hi⟩ := hsub.width_mem hw
  have hin := hstarts x (h.perm.mem_iff.mp (mem_flatMap.mpr ⟨q, hq, hx⟩)) t ht (hi ▸ hw)
  rw [hi, hstart] at hin
  exact wrap_eq hin.1 hin.2

/-! ## Targets -/

/-- What a rollup makes of a sample it puts into the bucket the layout gives it. -/
structure Targets (agg : Aggregation) (layout active : List DownsampleTier)
    (z : Sample F × RollupTag) : Prop where
  key : bucketKey active z = bucketOf layout z.1.ts
  rolled : 0 < width layout z.1.ts → ∃ r, openBucket active z = (.new agg r : BucketAcc F) ∧
    (r = none ∨ r = some agg)
  raw : ¬ 0 < width layout z.1.ts → openBucket active z = (.new .last none : BucketAcc F)

theorem targets_raw (hnot : ¬ 0 < width layout z.1.ts)
    (htarget : rollTarget active z.1.ts z.2 = (0, .last, false)) : Targets agg layout active z := by
  refine ⟨?_, fun h => absurd h hnot, fun _ => ?_⟩
  · rw [bucketKey, htarget, bucketOf_raw hnot]
    rfl
  · rw [openBucket, htarget]
    rfl

section

variable
  (hwrap : 0 < width layout z.1.ts →
    alignDown z.1.ts (width layout z.1.ts) = floorTo z.1.ts (width layout z.1.ts))

include hwrap

theorem targets_applied (hp : Nested agg policy) (hsub : SubLayout policy layout)
    (hle : z.2.interval ≤ width layout z.1.ts) :
    Targets agg layout ((layout.filter fun t => 0 < t.interval).insertionSort
      DownsampleTier.widestFirst) z := by
  rcases pickTier_spec layout z.1.ts with ⟨hpick, hw⟩ | ⟨t, ht, hpick, hi, hw⟩
  · have htarget : rollTarget ((layout.filter fun t => 0 < t.interval).insertionSort
        DownsampleTier.widestFirst) z.1.ts z.2 = (0, .last, false) := by
      rw [rollTarget, hpick]
      exact if_neg (not_lt.mpr (hw ▸ hle))
    exact targets_raw hw.not_gt htarget
  have htarget : rollTarget ((layout.filter fun t => 0 < t.interval).insertionSort
      DownsampleTier.widestFirst) z.1.ts z.2 = (t.interval, agg, true) := by
    rw [rollTarget, hpick, ← hsub.agg_eq hp ht hi]
    exact if_neg (not_lt.mpr (hle.trans_eq hw))
  have hpos : 0 < width layout z.1.ts := hw ▸ hi
  refine ⟨?_, fun _ => ⟨some agg, ?_, .inr rfl⟩, fun h => absurd hpos h⟩
  · rw [bucketKey, htarget, bucketOf_pos hpos, ← hwrap hpos, hw]
    exact if_pos hi
  · rw [openBucket, htarget]
    rfl

theorem targets_kept (heq : z.2.interval = width layout z.1.ts)
    (hagg : 0 < z.2.interval → z.2.agg = agg) : Targets agg layout [] z := by
  by_cases hi : 0 < z.2.interval
  · have htarget : rollTarget [] z.1.ts z.2 = (z.2.interval, agg, false) := by
      rw [rollTarget, hagg hi]
      exact if_pos hi
    refine ⟨?_, fun _ => ⟨none, ?_, .inl rfl⟩, fun h => absurd (heq ▸ hi) h⟩
    · rw [bucketKey, htarget, bucketOf_pos (heq ▸ hi), ← hwrap (heq ▸ hi), ← heq]
      exact if_pos hi
    · rw [openBucket, htarget]
      rfl
  · have htarget : rollTarget [] z.1.ts z.2 = (0, .last, false) := by
      rw [rollTarget]
      exact if_neg hi
    exact targets_raw (heq ▸ hi) htarget

end

/-! ## Representatives -/

omit [Float64 F] in
theorem fiber_map_fst {κ : Type*} [DecidableEq κ] (key : Sample F × RollupTag → κ) (k : κ)
    (qs : List (Item F)) :
    fiber key k (qs.map Prod.fst) = (fiber (fun q => key q.1) k qs).map Prod.fst := filter_map

theorem Stands.retag (hF : Supports F agg) (hp : Nested agg policy) (hsub : SubLayout policy layout)
    {ys : List (Sample F)} (h : Stands agg z xs) (hperm : xs.Perm ys)
    (heq : z.2.interval = width layout z.1.ts) : Stands agg (z.1, runTag layout z.1.ts) ys := by
  rw [Stands] at h ⊢
  have hw : (runTag layout z.1.ts).interval = z.2.interval := heq.symm
  dsimp only
  rw [hw]
  split
  · next hi =>
    rw [if_pos hi] at h
    refine ⟨?_, h.2.perm hF hperm⟩
    rcases width_cases layout z.1.ts with ⟨-, hzero, -⟩ | ⟨t, htag, -, hwide⟩
    · exact absurd (heq.trans hzero) hi.ne'
    · rw [htag]
      exact hsub.agg_eq hp hwide.mem hwide.covers.1
  · next hi =>
    rw [if_neg hi] at h
    rw [h] at hperm
    exact (singleton_perm.mp hperm).symm

/-- **The representative of a bucket stands for the raw samples of it.** -/
theorem stands_result (hF : Supports F agg) (hp : Nested agg policy)
    (hsub : SubLayout policy layout)
    (h : Standing agg layout qs xs) (hstrict : Strict Item.ts qs)
    (htargets : ∀ q ∈ qs, Targets agg layout active q.1) (hq : q ∈ qs) {s : Sample F}
    (hs : s = ((fiber (bucketKey active) (bucketOf layout (Item.ts q)) (qs.map Prod.fst)).foldl
      BucketAcc.put (openBucket active q.1)).result (bucketOf layout (Item.ts q)).start) :
    bucketOf layout s.ts = bucketOf layout (Item.ts q) ∧
      Stands agg (s, runTag layout s.ts) (bucketFiber layout (bucketOf layout (Item.ts q)) xs) := by
  obtain ⟨ps, hps⟩ : ∃ ps, ps = fiber (fun q => bucketOf layout (Item.ts q))
    (bucketOf layout (Item.ts q)) qs := ⟨_, rfl⟩
  have hmem : ∀ p ∈ ps, p ∈ qs ∧ bucketOf layout (Item.ts p) = bucketOf layout (Item.ts q) :=
    fun p hp' => (mem_fiber (fun q => bucketOf layout (Item.ts q))).mp (hps ▸ hp')
  have hself : q ∈ ps := hps ▸ (mem_fiber (fun q => bucketOf layout (Item.ts q))).mpr ⟨hq, rfl⟩
  have hfiber : fiber (bucketKey active) (bucketOf layout (Item.ts q)) (qs.map Prod.fst) =
      ps.map Prod.fst := by
    rw [fiber_map_fst, hps]
    exact congrArg _ (filter_congr fun p hp' => by simp only [(htargets p hp').key])
  have hperm : (ps.flatMap Prod.snd).Perm (bucketFiber layout (bucketOf layout (Item.ts q)) xs) :=
    hps ▸ bucketFiber_perm h.within h.perm _
  rw [hfiber] at hs
  have hsubl : ps.Sublist qs := hps ▸ filter_sublist
  by_cases hw : 0 < width layout (Item.ts q)
  · obtain ⟨r, hopen, hr⟩ := (htargets q hq).rolled hw
    have hgrouped : Grouped agg ps := h.grouped.subset fun z hz => (hmem z hz).1
    have hrep := isRep_fold hF hgrouped (ne_nil_of_mem hself)
      (fun _ => (hstrict.sublist hsubl).imp fun hlt => hlt.le)
      (bucketOf layout (Item.ts q)).start (a := agg) (r := r) (hr.imp (⟨·, rfl⟩) id)
    rw [← hopen, ← hs] at hrep
    -- it is in the bucket
    have hbucket : bucketOf layout s.ts = bucketOf layout (Item.ts q) := by
      cases hsel : agg.selects with
      | true =>
        have hx := hperm.mem_iff.mp (hrep.mem hsel)
        exact ((mem_fiber (fun x : Sample F => bucketOf layout x.ts)).mp hx).2
      | false =>
        rw [hrep.ts hsel]
        exact bucketOf_start hp hsub _
    refine ⟨hbucket, ?_⟩
    obtain ⟨hws, hstart⟩ := bucketOf_inj hbucket
    have hpos : 0 < width layout s.ts := hws ▸ hw
    rw [if_pos hpos] at hstart
    have hstart' : (bucketOf layout (Item.ts q)).start = floorTo s.ts (width layout s.ts) := by
      rw [bucketOf_pos hw, hstart, hws]
    rw [Stands]
    have htag : (runTag layout s.ts).interval = width layout s.ts := rfl
    dsimp only
    rw [htag, if_pos hpos, ← hstart']
    refine ⟨?_, hrep.perm hF hperm⟩
    rcases width_cases layout s.ts with ⟨-, hzero, -⟩ | ⟨t, htag, -, hwide⟩
    · exact absurd hzero hpos.ne'
    · rw [htag]
      exact hsub.agg_eq hp hwide.mem hwide.covers.1
  · -- a raw sample is alone
    have hraw : ¬ 0 < q.1.2.interval := fun hi => hw (hi.trans_le (h.tagWidth q hq))
    have hall : ∀ p ∈ ps, Item.ts p = Item.ts q := by
      intro p hp'
      obtain ⟨-, hts⟩ := bucketOf_inj (hmem p hp').2.symm
      rw [if_neg hw] at hts
      exact hts.symm
    have hps' : ps = [q] := by
      have hfib : fiber Item.ts (Item.ts q) ps = ps :=
        filter_eq_self.mpr fun p hp' => decide_eq_true (hall p hp')
      rw [← hfib]
      exact Strict.fiber_eq (List.Pairwise.sublist hsubl hstrict) hself
    have hopen := (htargets q hq).raw hw
    have hsq : s = q.1.1 := by
      rw [hs, hps', hopen]
      show (BucketAcc.put (.new .last none) q.1).result _ = _
      rw [BucketAcc.put, if_neg hraw]
      rfl
    rw [hsq]
    refine ⟨rfl, Stands.retag hF hp hsub (h.grouped.stands q hq) ?_ ?_⟩
    · rw [hps', flatMap_cons, flatMap_nil, append_nil] at hperm
      exact hperm
    · exact le_antisymm (h.tagWidth q hq) ((not_lt.mp hw).trans (h.nonneg q hq))

/-- A rollup: what it writes, and what that covers. -/
structure RollsCovering (agg : Aggregation) (layout : List DownsampleTier) (xs : List (Sample F))
    (out : List (Sample F × ℤ)) : Prop where
  rolls : Rolls agg layout xs (out.map Prod.fst)
  covered : ∀ y ∈ out, ∃ x ∈ xs, y.2 ≤ x.ts

/-- What a rollup writes of a bucket. -/
def bucketRep (b : BucketKey × BucketAcc F) : RollupRep F :=
  ⟨b.2.result b.1.start, b.1.interval, b.2.last.ts⟩

section

variable {buckets : List (BucketKey × BucketAcc F)} {b : BucketKey × BucketAcc F}
  (hbuckets : BucketsOf active (qs.map Prod.fst) buckets)
  (htargets : ∀ q ∈ qs, Targets agg layout active q.1)

include hbuckets htargets

theorem exists_item_of_bucket (hb : b ∈ buckets) :
    ∃ q ∈ qs, bucketOf layout (Item.ts q) = b.1 ∧ bucketKey active q.1 = b.1 ∧
      b.2 = (fiber (bucketKey active) b.1 (qs.map Prod.fst)).foldl BucketAcc.put
        (openBucket active q.1) := by
  obtain ⟨z, hz, hk, hacc⟩ := hbuckets.acc b hb
  obtain ⟨q, hq, rfl⟩ := mem_map.mp hz
  exact ⟨q, hq, (htargets q hq).key.symm.trans hk, hk, hacc⟩

variable (h : Standing agg layout qs xs)

include h

theorem exists_covered (hb : b ∈ buckets) : ∃ x ∈ xs, b.2.last.ts ≤ x.ts := by
  obtain ⟨q, hq, -, hk, hacc⟩ := exists_item_of_bucket hbuckets htargets hb
  rw [hacc]
  refine (BucketAcc.each_foldl_put (P := fun s => ∃ x ∈ xs, s.ts ≤ x.ts) (fun z hz => ?_)
    (ne_nil_of_mem ((mem_fiber _).mpr ⟨mem_map_of_mem hq, hk⟩)) rfl).last
  obtain ⟨p, hp, rfl⟩ := mem_map.mp ((mem_fiber _).mp hz).1
  obtain ⟨x, hx, hle⟩ := h.le p hp
  exact ⟨x, h.perm.mem_iff.mp (mem_flatMap.mpr ⟨p, hp, hx⟩), hle⟩

variable (hF : Supports F agg) (hp : Nested agg policy) (hsub : SubLayout policy layout)
  (hstrict : Strict Item.ts qs)

include hF hp hsub hstrict

theorem stands_bucket (hb : b ∈ buckets) :
    bucketOf layout (bucketRep b).sample.ts = b.1 ∧
      Stands agg ((bucketRep b).sample, runTag layout (bucketRep b).sample.ts)
        (bucketFiber layout b.1 xs) := by
  obtain ⟨q, hq, hk, -, hacc⟩ := exists_item_of_bucket hbuckets htargets hb
  rw [bucketRep]
  rw [← hk] at hacc ⊢
  exact stands_result hF hp hsub h hstrict htargets hq (congrArg (BucketAcc.result · _) hacc)

theorem bucketRep_inj {b' : BucketKey × BucketAcc F} (hb : b ∈ buckets) (hb' : b' ∈ buckets)
    (hk : bucketOf layout (bucketRep b).sample.ts = bucketOf layout (bucketRep b').sample.ts) :
    b = b' := by
  rw [(stands_bucket hbuckets htargets h hF hp hsub hstrict hb).1,
    (stands_bucket hbuckets htargets h hF hp hsub hstrict hb').1] at hk
  exact inj_on_of_nodup_map hbuckets.nodup hb hb' hk

theorem mem_written {s : Sample F} :
    s ∈ (rollupOut ((buckets.map bucketRep).insertionSort RollupRep.le)).map Prod.fst ↔
      ∃ b ∈ buckets, (bucketRep b).sample = s := by
  have hout : ∀ y ∈ rollupOut ((buckets.map bucketRep).insertionSort RollupRep.le),
      ∃ b ∈ buckets, (bucketRep b).sample = y.1 := by
    intro y hy
    obtain ⟨r, hr, hyr⟩ := (mem_rollupOut hy).1
    obtain ⟨b, hb, rfl⟩ := mem_map.mp ((mem_insertionSort _).mp hr)
    exact ⟨b, hb, hyr.symm⟩
  constructor
  · intro hs
    obtain ⟨y, hy, rfl⟩ := mem_map.mp hs
    exact hout y hy
  · rintro ⟨b, hb, rfl⟩
    obtain ⟨y, hy, hyts⟩ := exists_mem_rollupOut
      ((mem_insertionSort RollupRep.le).mpr (mem_map_of_mem (f := bucketRep) hb))
    obtain ⟨b', hb', hyb⟩ := hout y hy
    have hbb : b' = b := bucketRep_inj hbuckets htargets h hF hp hsub hstrict hb' hb (by
      rw [hyb, hyts])
    exact mem_map.mpr ⟨y, hy, hyb.symm.trans (hbb ▸ rfl)⟩

/-- **Putting samples into the buckets of a layout.** -/
theorem rolls_buckets : RollsCovering agg layout xs
    (rollupOut ((buckets.map bucketRep).insertionSort RollupRep.le)) := by
  have hwritten {s : Sample F} := mem_written hbuckets htargets h hF hp hsub hstrict (s := s)
  have hstands {b : BucketKey × BucketAcc F} (hb : b ∈ buckets) :=
    stands_bucket hbuckets htargets h hF hp hsub hstrict hb
  refine ⟨⟨rollupOut_strict (RollupRep.pairwise_insertionSort _), fun s hs u hu hk => ?_,
    fun x hx => ?_, fun s hs => ?_, fun s hs => ?_⟩, fun y hy => ?_⟩
  · obtain ⟨b, hb, rfl⟩ := hwritten.mp hs
    obtain ⟨b', hb', rfl⟩ := hwritten.mp hu
    rw [bucketRep_inj hbuckets htargets h hF hp hsub hstrict hb hb' hk]
  · obtain ⟨q, hq, hxq⟩ := mem_flatMap.mp (h.perm.mem_iff.mpr hx)
    obtain ⟨b, hb, hk⟩ := mem_map.mp (hbuckets.mem q.1 (mem_map_of_mem hq))
    refine ⟨_, hwritten.mpr ⟨b, hb, rfl⟩, ?_⟩
    rw [(hstands hb).1, hk, (htargets q hq).key]
    exact (h.within q hq x hxq).symm
  · obtain ⟨b, hb, rfl⟩ := hwritten.mp hs
    obtain ⟨q, hq, hk, -⟩ := exists_item_of_bucket hbuckets htargets hb
    obtain ⟨x, hx⟩ := exists_mem_of_ne_nil _ (h.grouped.ne q hq)
    refine ⟨x, h.perm.mem_iff.mp (mem_flatMap.mpr ⟨q, hq, hx⟩), ?_⟩
    rw [(hstands hb).1, ← hk]
    exact h.within q hq x hx
  · obtain ⟨b, hb, rfl⟩ := hwritten.mp hs
    obtain ⟨hk, hst⟩ := hstands hb
    rw [hk]
    exact hst
  · obtain ⟨r, hr, hyr⟩ := (mem_rollupOut hy).2
    obtain ⟨b, hb, rfl⟩ := mem_map.mp ((mem_insertionSort _).mp hr)
    rw [hyr]
    exact exists_covered hbuckets htargets h hb

end

/-! ## The rollup -/

/-- Samples as wide as the layout that share no bucket with a neighbour share none. -/
theorem bucketOf_ne_of_not_shared (h : Standing agg layout qs xs) (hstrict : Strict Item.ts qs)
    (hwidth : ∀ q ∈ qs, q.1.2.interval = width layout (Item.ts q))
    (hshared : repBucketShared (qs.map Prod.fst) = false) {p : Item F} (hp : p ∈ qs)
    (hq : q ∈ qs) (hlt : Item.ts p < Item.ts q) :
    bucketOf layout (Item.ts p) ≠ bucketOf layout (Item.ts q) := by
  intro hk
  obtain ⟨-, hcell⟩ := bucketOf_inj hk
  have hw : 0 < width layout (Item.ts p) := by
    by_contra hraw
    rw [if_neg hraw] at hcell
    exact absurd hcell hlt.ne
  rw [if_pos hw, ← hwidth p hp] at hcell
  have hi : 0 < p.1.2.interval := hwidth p hp ▸ hw
  obtain ⟨hdvd, hbefore⟩ := h.tag p hp hi
  -- the next sample lies between the two
  obtain ⟨pre, post, rfl⟩ := append_of_mem hp
  obtain ⟨-, hpost, hpre⟩ := pairwise_append.mp hstrict
  have hqpost : q ∈ post := by
    rcases mem_append.mp hq with hq | hq
    · exact absurd (hpre q hq p mem_cons_self) hlt.not_gt
    · exact (mem_cons.mp hq).resolve_left fun heq => absurd hlt (heq ▸ lt_irrefl _)
  obtain ⟨hnext, hpost⟩ := pairwise_cons.mp hpost
  cases post with
  | nil => exact nomatch hqpost
  | cons u rest =>
    have hpu : Item.ts p ≤ Item.ts u := (hnext u mem_cons_self).le
    have huq : Item.ts u ≤ Item.ts q := Ordered.head_le (Strict.ordered hpost) hqpost
    have hcell' : floorTo (Item.ts u) p.1.2.interval = floorTo (Item.ts p) p.1.2.interval :=
      le_antisymm ((floorTo_mono hi huq).trans_eq hcell.symm) (floorTo_mono hi hpu)
    have hubefore : Item.ts u < p.1.2.before := by
      rw [← floorTo_lt_iff hi hdvd, hcell', floorTo_lt_iff hi hdvd]
      exact hbefore
    have hmem : (p.1, pre.length) ∈ ((pre ++ p :: u :: rest).map Prod.fst).zipIdx := by
      rw [mem_zipIdx_iff_getElem?]
      simp
    have hu : ((pre ++ p :: u :: rest).map Prod.fst)[pre.length + 1]? = some u.1 := by simp
    have hnot := any_eq_false.mp hshared _ hmem
    dsimp only at hnot
    rw [hu] at hnot
    have hshares : (decide (u.1.1.ts < p.1.2.before) && decide
        (alignDown u.1.1.ts p.1.2.interval = alignDown p.1.1.ts p.1.2.interval)) = true :=
      Bool.and_eq_true_iff.mpr ⟨decide_eq_true hubefore, decide_eq_true (congrArg wrap hcell')⟩
    simp only [Option.any_some, hshares, hi, decide_true, Bool.or_true, Bool.and_self,
      not_true_eq_false] at hnot

/-- Samples as wide as the layout, one a bucket, roll up what they stand for. -/
theorem rolls_self (hF : Supports F agg) (hp : Nested agg policy) (hsub : SubLayout policy layout)
    (h : Standing agg layout qs xs)
    (hstrict : Strict Item.ts qs) (hwidth : ∀ q ∈ qs, q.1.2.interval = width layout (Item.ts q))
    (hinj : ∀ p ∈ qs, ∀ q ∈ qs, bucketOf layout (Item.ts p) = bucketOf layout (Item.ts q) → p = q) :
    RollsCovering agg layout xs ((qs.map Prod.fst).map fun x => (x.1, x.1.ts)) := by
  have hout : (((qs.map Prod.fst).map fun x => (x.1, x.1.ts)).map Prod.fst) =
      qs.map fun q => q.1.1 := by
    rw [map_map, map_map]
    rfl
  have hraw : ∀ q ∈ qs, ∀ x ∈ q.2, x ∈ xs := fun q hq x hx =>
    h.perm.mem_iff.mp (mem_flatMap.mpr ⟨q, hq, hx⟩)
  refine ⟨?_, fun y hy => ?_⟩
  · rw [hout]
    refine ⟨pairwise_map.mpr hstrict, fun s hs u hu hk => ?_, fun x hx => ?_, fun s hs => ?_,
      fun s hs => ?_⟩
    · obtain ⟨p, hp', rfl⟩ := mem_map.mp hs
      obtain ⟨q, hq, rfl⟩ := mem_map.mp hu
      rw [hinj p hp' q hq hk]
    · obtain ⟨q, hq, hxq⟩ := mem_flatMap.mp (h.perm.mem_iff.mpr hx)
      exact ⟨q.1.1, mem_map.mpr ⟨q, hq, rfl⟩, (h.within q hq x hxq).symm⟩
    · obtain ⟨q, hq, rfl⟩ := mem_map.mp hs
      obtain ⟨x, hx⟩ := exists_mem_of_ne_nil _ (h.grouped.ne q hq)
      exact ⟨x, hraw q hq x hx, h.within q hq x hx⟩
    obtain ⟨q, hq, rfl⟩ := mem_map.mp hs
    refine Stands.retag hF hp hsub (h.grouped.stands q hq) ?_ (hwidth q hq)
    have hperm := bucketFiber_perm h.within h.perm (bucketOf layout (Item.ts q))
    have hone : fiber (fun q => bucketOf layout (Item.ts q)) (bucketOf layout (Item.ts q)) qs =
        [q] := by
      have hself : ∀ p ∈ qs, (bucketOf layout (Item.ts p) = bucketOf layout (Item.ts q) ↔
          Item.ts p = Item.ts q) := fun p hp' =>
        ⟨fun hk => by rw [hinj p hp' q hq hk], fun hts => by rw [hts]⟩
      rw [← Strict.fiber_eq hstrict hq]
      exact filter_congr fun p hp' => decide_eq_decide.mpr (hself p hp')
    rwa [hone, flatMap_cons, flatMap_nil, append_nil] at hperm
  · obtain ⟨z, hz, rfl⟩ := mem_map.mp hy
    obtain ⟨q, hq, rfl⟩ := mem_map.mp hz
    obtain ⟨x, hx, hle⟩ := h.le q hq
    exact ⟨x, hraw q hq x hx, hle⟩

/-- **A rollup rolls up.**  It holds under the layout, and under no tiers for samples as wide as the
layout. -/
theorem rolls_downsampleCovering (hF : Supports F agg) (hp : Nested agg policy)
    (hsub : SubLayout policy layout) (h : Standing agg layout qs xs) (hstarts : StartsIn policy xs)
    (hstrict : Strict Item.ts qs) {tiers : List DownsampleTier}
    (htiers : tiers = layout ∨ tiers = [] ∧ ∀ q ∈ qs, q.1.2.interval = width layout (Item.ts q)) :
    RollsCovering agg layout xs (downsampleCovering (qs.map Prod.fst) tiers) := by
  have htargets : ∀ q ∈ qs, Targets agg layout ((tiers.filter fun t => 0 < t.interval).insertionSort
      DownsampleTier.widestFirst) q.1 := by
    intro q hq
    rcases htiers with rfl | ⟨rfl, hwidth⟩
    · exact targets_applied (h.alignDown_eq hsub hstarts hq) hp hsub (h.tagWidth q hq)
    · exact targets_kept (h.alignDown_eq hsub hstarts hq) (hwidth q hq)
        (h.grouped.stands q hq).agg_eq
  rw [downsampleCovering]
  dsimp only
  split
  · next hskip =>
    rw [Bool.or_eq_true, Bool.and_eq_true, List.isEmpty_iff, List.map_eq_nil_iff] at hskip
    rcases hskip with rfl | ⟨hactive, hshared⟩
    · exact rolls_self hF hp hsub h hstrict (forall_mem_nil _) (forall_mem_nil _)
    have hwidth : ∀ q ∈ qs, q.1.2.interval = width layout (Item.ts q) := by
      intro q hq
      rcases htiers with rfl | ⟨-, hwidth⟩
      · -- no tier is active
        have hzero : ¬ 0 < width tiers (Item.ts q) := by
          rcases width_cases tiers (Item.ts q) with ⟨-, hw, -⟩ | ⟨t, -, -, hwide⟩
          · exact hw.not_gt
          · have hmem : t ∈ tiers.filter fun t => 0 < t.interval :=
              mem_filter.mpr ⟨hwide.mem, decide_eq_true hwide.covers.1⟩
            rw [isEmpty_iff.mp hactive] at hmem
            exact absurd hmem not_mem_nil
        exact le_antisymm (h.tagWidth q hq) ((not_lt.mp hzero).trans (h.nonneg q hq))
      · exact hwidth q hq
    have hne : ∀ {p q}, p ∈ qs → q ∈ qs → Item.ts p < Item.ts q → _ :=
      bucketOf_ne_of_not_shared h hstrict hwidth (Bool.not_eq_true' _ ▸ hshared)
    refine rolls_self hF hp hsub h hstrict hwidth fun p hp' q hq hk => ?_
    rcases lt_trichotomy (Item.ts p) (Item.ts q) with hlt | heq | hgt
    · exact absurd hk (hne hp' hq hlt)
    · exact Strict.inj hstrict hp' hq heq
    · exact absurd hk.symm (hne hq hp' hgt)
  · exact rolls_buckets (bucketsOf_foldl _ _) htargets h hF hp hsub hstrict

end OtelStorage.Metrics
