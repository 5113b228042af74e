import OtelStorage.Metrics.Buckets

/-!
# Rollups compose

A series' raw samples are spread over sources, the sources are merged in any grouping and rolled up
any number of times, and every result records the layout it holds.  As long as the layouts are
sub-layouts of one policy, a last merge under the policy gives what one rollup of all the raw
samples would have given (`rollups_compose`).

Selecting aggregations need nothing of the arithmetic, so this holds of binary floats.  A total is
regrouped, so there it holds of exact arithmetic.  A mean also has to carry its weight: a bucket
whose weights cancel has none to carry, and what it stood for is lost (`rollups_compose_limits`).
-/

namespace OtelStorage.Metrics

open Fibers List

variable {F : Type*} [Float64 F] {agg : Aggregation} {policy layout tiers : List DownsampleTier}
  {cs : List (List (Sample F) × Source F)} (src : List (Source F)) {xs : List (Sample F)}
  {ts : List ℤ}

/-! ## Sources and what they come from -/

/-- The newest of some timestamps. -/
def newest (ts : List ℤ) : WithBot ℤ := (ts.map WithBot.some).foldr max ⊥

/-- The newest timestamp any source covers. -/
def sourceCovered : WithBot ℤ := (src.map Source.mark).foldr max ⊥

/-- What a merge writes: its rows, the layout it records, bounds, and the watermark of its rows and
its sources. -/
def merged (applied layout : List DownsampleTier) (minTime maxTime : ℤ) :
    Source F :=
  let out := rollSeries (src.map Source.run) applied
  ⟨⟨out.map Prod.fst, layout⟩, minTime, maxTime,
    max (newest (out.map Prod.snd)) (sourceCovered src)⟩

/-- Bounds of a part, which hold for the rows of every series in it. -/
def Source.Bounded (s : Source F) : Prop := ∀ x ∈ s.run.samples, s.minTime ≤ x.ts ∧ x.ts ≤ s.maxTime

instance (s : Source F) : Decidable s.Bounded :=
  inferInstanceAs (Decidable (∀ x ∈ s.run.samples, s.minTime ≤ x.ts ∧ x.ts ≤ s.maxTime))

/-- The part a flush writes: raw samples, and no layout. -/
def flushedSource (xs : List (Sample F)) (minTime maxTime : ℤ) : Source F :=
  ⟨⟨xs, []⟩, minTime, maxTime, newest (xs.map Sample.ts)⟩

/-- **A source made of raw samples** by merges under sub-layouts of a policy, in the ways a merge is
planned. -/
inductive Derived (agg : Aggregation) (policy : List DownsampleTier) :
    List (Sample F) → Source F → Prop
  | raw {xs : List (Sample F)} {lo hi : ℤ} (hxs : Strict Sample.ts xs)
      (hb : (flushedSource xs lo hi).Bounded) :
      Derived agg policy xs (flushedSource xs lo hi)
  -- the recorded layout is applied
  | rolled {cs : List (List (Sample F) × Source F)} {tiers : List DownsampleTier} {lo hi : ℤ}
      (hcs : ∀ c ∈ cs, Derived agg policy c.1 c.2) (htiers : SubLayout policy tiers)
      (hb : (merged (cs.map Prod.snd) (mergeLayout (cs.map Prod.snd) tiers)
        (mergeLayout (cs.map Prod.snd) tiers) lo hi).Bounded) :
      Derived agg policy (cs.flatMap Prod.fst) (merged (cs.map Prod.snd)
        (mergeLayout (cs.map Prod.snd) tiers) (mergeLayout (cs.map Prod.snd) tiers) lo hi)
  -- the sources hold the layout: nothing is applied
  | kept {cs : List (List (Sample F) × Source F)} {lo hi : ℤ}
      (hcs : ∀ c ∈ cs, Derived agg policy c.1 c.2)
      (hholds : holdsLayout (cs.map Prod.snd) (mergeLayout (cs.map Prod.snd) []) = true)
      (hb : (merged (cs.map Prod.snd) [] (mergeLayout (cs.map Prod.snd) []) lo hi).Bounded) :
      Derived agg policy (cs.flatMap Prod.fst)
        (merged (cs.map Prod.snd) [] (mergeLayout (cs.map Prod.snd) []) lo hi)
  -- rolling a lone source up would change nothing: it is rewritten as it is
  | verbatim {c : List (Sample F) × Source F} {tiers : List DownsampleTier} {lo hi : ℤ}
      (hc : Derived agg policy c.1 c.2) (htiers : SubLayout policy tiers)
      (hsame : (rollSeries [c.2.run] (mergeLayout [c.2] tiers)).map Prod.fst = c.2.run.samples)
      (hb : (merged [c.2] [] (mergeLayout [c.2] tiers) lo hi).Bounded) :
      Derived agg policy c.1 (merged [c.2] [] (mergeLayout [c.2] tiers) lo hi)

/-- What holds of a derived source. -/
structure Traced (agg : Aggregation) (policy : List DownsampleTier) (xs : List (Sample F))
    (s : Source F) : Prop where
  rolls : Rolls agg s.run.layout xs s.run.samples
  sub : SubLayout policy s.run.layout
  bounded : s.Bounded
  mark : s.mark = newest (xs.map Sample.ts)

/-! ## A merge of sources -/

/-- Raw samples that may be regrouped: no timestamp is there twice, no bucket starts outside the
64-bit integers, and for a mean the weights are positive. -/
structure Rollable (agg : Aggregation) (policy : List DownsampleTier) (xs : List (Sample F)) :
    Prop where
  apart : xs.Pairwise fun x y => x.ts ≠ y.ts
  starts : StartsIn policy xs
  pos : agg = .avg → ∀ x ∈ xs, Float64.lt 0 x.weight = true

theorem Rollable.of_flatMap (h : Rollable agg policy (cs.flatMap Prod.fst))
    {c : List (Sample F) × Source F} (hc : c ∈ cs) : Rollable agg policy c.1 :=
  have hmem : ∀ x ∈ c.1, x ∈ cs.flatMap Prod.fst := fun _ hx => mem_flatMap.mpr ⟨c, hc, hx⟩
  ⟨(pairwise_flatMap.mp h.apart).1 c hc, fun x hx => h.starts x (hmem x hx),
    fun ha x hx => h.pos ha x (hmem x hx)⟩

theorem Rollable.perm {ys : List (Sample F)} (h : Rollable agg policy xs) (hperm : xs.Perm ys) :
    Rollable agg policy ys :=
  ⟨(hperm.pairwise_iff fun {_ _} => Ne.symm).mp h.apart,
    fun x hx => h.starts x (hperm.mem_iff.mpr hx),
    fun ha x hx => h.pos ha x (hperm.mem_iff.mpr hx)⟩

theorem Standing.flatMap {ι : Type*} {f : ι → List (Item F)}
    {g : ι → List (Sample F)} {is js : List ι} (h : ∀ i ∈ is, Standing agg layout (f i) (g i))
    (hperm : is.Perm js) : Standing agg layout (is.flatMap f) (js.flatMap g) := by
  have hitem : ∀ {P : Item F → Prop}, (∀ i ∈ is, ∀ q ∈ f i, P q) → ∀ q ∈ is.flatMap f, P q := by
    intro P hP q hq
    obtain ⟨i, hi, hq⟩ := mem_flatMap.mp hq
    exact hP i hi q hq
  refine ⟨⟨hitem fun i hi => (h i hi).grouped.stands, hitem fun i hi => (h i hi).grouped.ne,
    fun ha => hitem fun i hi => (h i hi).grouped.pos ha⟩, hitem fun i hi => (h i hi).within,
    hitem fun i hi => (h i hi).le, ?_, hitem fun i hi => (h i hi).tag,
    hitem fun i hi => (h i hi).nonneg, hitem fun i hi => (h i hi).tagWidth⟩
  rw [flatMap_assoc]
  exact (List.Perm.flatMap_left is fun i hi => (h i hi).perm).trans (hperm.flatMap_right g)

/-- **Merging sources rolls up the raw samples of all of them**, under a layout no finer than theirs
where they have samples. -/
theorem rolls_rollSeries (hF : Supports F agg) (hp : Nested agg policy)
    (hcs : ∀ c ∈ cs, Traced agg policy c.1 c.2)
    (hxs : Rollable agg policy (cs.flatMap Prod.fst))
    (hsub : SubLayout policy layout)
    (hle : ∀ c ∈ cs, ∀ s ∈ c.2.run.samples, width c.2.run.layout s.ts ≤ width layout s.ts)
    (htiers : tiers = layout ∨ tiers = [] ∧
      ∀ c ∈ cs, ∀ s ∈ c.2.run.samples, width c.2.run.layout s.ts = width layout s.ts) :
    RollsCovering agg layout (cs.flatMap Prod.fst)
      (rollSeries ((cs.map Prod.snd).map Source.run) tiers) := by
  obtain ⟨rs, hrs⟩ : ∃ rs, rs = cs.map fun c => (c.1, c.2.run) := ⟨_, rfl⟩
  have hmem : ∀ r ∈ rs, ∃ c ∈ cs, r = (c.1, c.2.run) := by
    intro r hr
    rw [hrs] at hr
    obtain ⟨c, hc, rfl⟩ := mem_map.mp hr
    exact ⟨c, hc, rfl⟩
  have hraws : rs.flatMap Prod.fst = cs.flatMap Prod.fst := by rw [hrs, flatMap_map]
  have hruns : (cs.map Prod.snd).map Source.run = rs.map Prod.snd := by
    rw [hrs, map_map, map_map]
    rfl
  have hstrict : ∀ r ∈ rs, Strict Sample.ts r.2.samples := by
    intro r hr
    obtain ⟨c, hc, rfl⟩ := hmem r hr
    exact (hcs c hc).rolls.strict
  have hstanding : Standing agg layout (rs.reverse.flatMap itemsOf) (cs.flatMap Prod.fst) := by
    rw [← hraws]
    refine Standing.flatMap (fun r hr => ?_) (reverse_perm rs)
    obtain ⟨c, hc, rfl⟩ := hmem r (mem_reverse.mp hr)
    refine (hcs c hc).rolls.standing hp (hcs c hc).sub hsub (hle c hc) fun ha x hx => ?_
    exact hxs.pos ha x (mem_flatMap.mpr ⟨c, hc, hx⟩)
  obtain ⟨qs, hqs, hq, hfrom⟩ := hstanding.gather hF hstrict hxs.apart
  have hgather : Strict tagTs (gather true (rs.map Prod.snd)) := strict_gather true fun r hr => by
    obtain ⟨c, hc, rfl⟩ := mem_map.mp hr
    exact hstrict c hc
  have hqstrict : Strict Item.ts qs := by
    rw [← hqs] at hgather
    exact (pairwise_map (f := Prod.fst)).mp hgather
  rw [rollSeries, hruns, dropRawDuplicates_strict (pairwise_map.mpr hgather), ← hqs]
  refine rolls_downsampleCovering hF hp hsub hq hxs.starts hqstrict
    (htiers.imp_right fun h => ⟨h.1, ?_⟩)
  -- a sample kept has the tag of one of the sources'
  intro q hqm
  obtain ⟨p, hpm, hts, htag⟩ := hfrom q hqm
  obtain ⟨r, hr, hpr⟩ := mem_flatMap.mp hpm
  obtain ⟨c, hc, rfl⟩ := hmem r (mem_reverse.mp hr)
  obtain ⟨s, hs, rfl⟩ := mem_map.mp hpr
  rw [← htag, ← hts]
  exact h.2 c hc s hs

theorem newest_le {b : WithBot ℤ} (h : ∀ t ∈ ts, (t : WithBot ℤ) ≤ b) :
    newest ts ≤ b := max_le_of_forall_le _ _ (forall_mem_map.mpr h)

theorem le_newest {t : ℤ} (h : t ∈ ts) : (t : WithBot ℤ) ≤ newest ts :=
  le_max_of_le (mem_map_of_mem h) le_rfl

/-- **What the rows cover and the sources' watermarks** come to the newest raw sample. -/
theorem newest_merged (hcs : ∀ c ∈ cs, Traced agg policy c.1 c.2)
    {out : List (Sample F × ℤ)} (h : RollsCovering agg layout (cs.flatMap Prod.fst) out) :
    max (newest (out.map Prod.snd)) (sourceCovered (cs.map Prod.snd)) =
      newest ((cs.flatMap Prod.fst).map Sample.ts) := by
  refine le_antisymm (max_le (newest_le fun t ht => ?_) ?_) (newest_le fun t ht => ?_)
  · obtain ⟨y, hy, rfl⟩ := mem_map.mp ht
    obtain ⟨x, hx, hle⟩ := h.covered y hy
    exact (WithBot.coe_le_coe.mpr hle).trans (le_newest (mem_map.mpr ⟨x, hx, rfl⟩))
  · refine max_le_of_forall_le _ _ fun m hm => ?_
    obtain ⟨s, hs, rfl⟩ := mem_map.mp hm
    obtain ⟨c, hc, rfl⟩ := mem_map.mp hs
    rw [(hcs c hc).mark]
    refine newest_le fun t ht => ?_
    obtain ⟨x, hx, rfl⟩ := mem_map.mp ht
    exact le_newest (mem_map.mpr ⟨x, mem_flatMap.mpr ⟨c, hc, hx⟩, rfl⟩)
  · obtain ⟨x, hx, rfl⟩ := mem_map.mp ht
    obtain ⟨c, hc, hx⟩ := mem_flatMap.mp hx
    refine le_max_of_le_right (le_max_of_le (x := c.2.mark) ?_ ?_)
    · exact mem_map.mpr ⟨c.2, mem_map.mpr ⟨c, hc, rfl⟩, rfl⟩
    · rw [(hcs c hc).mark]
      exact le_newest (mem_map.mpr ⟨x, hx, rfl⟩)

theorem rolls_raw (h : Strict Sample.ts xs) : Rolls agg [] xs xs := by
  have hbucket : ∀ ts, bucketOf [] ts = ⟨0, ts⟩ := fun ts => bucketOf_raw (lt_irrefl 0)
  have hts : ∀ {ts us : ℤ}, bucketOf [] ts = bucketOf [] us ↔ ts = us := by
    intro ts us
    rw [hbucket, hbucket]
    exact ⟨fun h => (BucketKey.mk.inj h).2, fun h => by rw [h]⟩
  refine ⟨h, fun s hs u hu hk => h.inj hs hu (hts.mp hk), fun x hx => ⟨x, hx, rfl⟩,
    fun s hs => ⟨s, hs, rfl⟩, fun s hs => ?_⟩
  have hfiber : bucketFiber [] (bucketOf [] s.ts) xs = [s] := by
    rw [← h.fiber_eq hs]
    exact filter_congr fun x _ => decide_eq_decide.mpr hts
  exact (if_neg (lt_irrefl 0)).mpr hfiber

/-- **Every derived source rolls its raw samples up under the layout it records.** -/
theorem Derived.traced (hF : Supports F agg) (hp : Nested agg policy)
    {s : Source F} (h : Derived agg policy xs s) (hxs : Rollable agg policy xs) :
    Traced agg policy xs s := by
  induction h with
  | raw hstrict hb => exact ⟨rolls_raw hstrict, SubLayout.nil, hb, rfl⟩
  | @rolled cs tiers lo hi hcs htiers hb ih =>
    have hcs := fun c hc => ih c hc (hxs.of_flatMap hc)
    have hsub : SubLayout policy (mergeLayout (cs.map Prod.snd) tiers) :=
      subLayout_mergeLayout (fun p hp => by
        obtain ⟨c, hc, rfl⟩ := mem_map.mp hp
        exact (hcs c hc).sub) htiers
    have hroll := rolls_rollSeries hF hp hcs hxs hsub (fun c hc s hs =>
      width_le_mergeLayout (mem_map.mpr ⟨c, hc, rfl⟩) ((hcs c hc).bounded s hs).1) (.inl rfl)
    exact ⟨hroll.rolls, hsub, hb, newest_merged hcs hroll⟩
  | @kept cs lo hi hcs hholds hb ih =>
    have hcs := fun c hc => ih c hc (hxs.of_flatMap hc)
    have hsub : SubLayout policy (mergeLayout (cs.map Prod.snd) []) :=
      subLayout_mergeLayout (fun p hp => by
        obtain ⟨c, hc, rfl⟩ := mem_map.mp hp
        exact (hcs c hc).sub) SubLayout.nil
    have hwidth : ∀ c ∈ cs, ∀ s ∈ c.2.run.samples, width c.2.run.layout s.ts =
        width (mergeLayout (cs.map Prod.snd) []) s.ts := fun c hc s hs =>
      width_eq_of_holdsLayout hholds (mem_map.mpr ⟨c, hc, rfl⟩) ((hcs c hc).bounded s hs).1
        ((hcs c hc).bounded s hs).2
    have hroll := rolls_rollSeries hF hp hcs hxs hsub (fun c hc s hs => (hwidth c hc s hs).le)
      (.inr ⟨rfl, hwidth⟩)
    exact ⟨hroll.rolls, hsub, hb, newest_merged hcs hroll⟩
  | @verbatim c tiers lo hi hc htiers hsame hb ih =>
    have hc := ih hxs
    have hone : [c].flatMap Prod.fst = c.1 := by
      rw [flatMap_cons, flatMap_nil, append_nil]
    have hcs : ∀ c' ∈ [c], Traced agg policy c'.1 c'.2 := fun c' hc' =>
      mem_singleton.mp hc' ▸ hc
    have hsub : SubLayout policy (mergeLayout [c.2] tiers) :=
      subLayout_mergeLayout (fun p hp => mem_singleton.mp hp ▸ hc.sub) htiers
    have hwidth : ∀ c' ∈ [c], ∀ s ∈ c'.2.run.samples,
        width c'.2.run.layout s.ts ≤ width (mergeLayout [c.2] tiers) s.ts := by
      intro c' hc' s hs
      rw [mem_singleton.mp hc'] at hs ⊢
      exact width_le_mergeLayout mem_cons_self (hc.bounded s hs).1
    have hxs' : Rollable agg policy ([c].flatMap Prod.fst) := hone.symm ▸ hxs
    have hroll := rolls_rollSeries hF hp hcs hxs' hsub hwidth (.inl rfl)
    -- under no tier the source stays as it is
    have hself : RollsCovering agg c.2.run.layout ([c].flatMap Prod.fst)
        (rollSeries [c.2.run] []) := by
      refine rolls_rollSeries hF hp hcs hxs' hc.sub (fun c' hc' s _ => ?_)
        (.inr ⟨rfl, fun c' hc' s _ => ?_⟩)
      · rw [mem_singleton.mp hc']
      · rw [mem_singleton.mp hc']
    have hmark := newest_merged hcs hself
    rw [hone] at hroll hself hmark
    have hrows : (rollSeries [c.2.run] []).map Prod.fst = c.2.run.samples :=
      Rolls.unique hF (.refl _) (fun x hx y hy hts =>
        inj_on_of_nodup_map (f := Sample.ts) (pairwise_map.mpr hxs.apart) hx hy hts)
        hself.rolls hc.rolls
    refine ⟨?_, hsub, hb, hmark⟩
    show Rolls agg (mergeLayout [c.2] tiers) c.1 ((rollSeries [c.2.run] []).map Prod.fst)
    rw [hrows, ← hsame]
    exact hroll.rolls

/-! ## One rollup -/

/-- One rollup of raw samples. -/
def downsample (xs : List (Sample F)) (tiers : List DownsampleTier) : List (Sample F) :=
  (downsampleCovering (xs.map fun x => (x, .raw)) tiers).map Prod.fst

/-- A last merge under the policy gives what one rollup of the raw samples gives. -/
structure Composed (policy : List DownsampleTier) (cs : List (List (Sample F) × Source F))
    (xs : List (Sample F)) : Prop where
  same : (rollSeries ((cs.map Prod.snd).map Source.run) policy).map Prod.fst = downsample xs policy
  ascending : Strict Sample.ts ((rollSeries ((cs.map Prod.snd).map Source.run) policy).map Prod.fst)
  newest : max (newest ((rollSeries ((cs.map Prod.snd).map Source.run) policy).map Prod.snd))
    (sourceCovered (cs.map Prod.snd)) = Metrics.newest (xs.map Sample.ts)

theorem newest_perm {us : List ℤ} (h : ts.Perm us) : newest ts = newest us :=
  le_antisymm (newest_le fun _ ht => le_newest (h.mem_iff.mp ht))
    (newest_le fun _ ht => le_newest (h.mem_iff.mpr ht))

/-- **Rollups compose** where the arithmetic supports the aggregation. -/
theorem composed (hF : Supports F agg) (hp : Nested agg policy)
    (hcs : ∀ c ∈ cs, Derived agg policy c.1 c.2) (hperm : xs.Perm (cs.flatMap Prod.fst))
    (hxs : Strict Sample.ts xs) (hstarts : StartsIn policy xs)
    (hpos : agg = .avg → ∀ x ∈ xs, Float64.lt 0 x.weight = true) : Composed policy cs xs := by
  have hraw : Rollable agg policy (cs.flatMap Prod.fst) :=
    Rollable.perm ⟨hxs.imp fun hlt => hlt.ne, hstarts, hpos⟩ hperm
  have htraced : ∀ c ∈ cs, Traced agg policy c.1 c.2 := fun c hc =>
    (hcs c hc).traced hF hp (hraw.of_flatMap hc)
  have hroll := rolls_rollSeries hF hp htraced hraw hp.subLayout
    (fun c hc s _ => (htraced c hc).sub.width_le s.ts) (.inl rfl)
  -- one rollup is that of one source of raw samples
  have hitems : (itemsOf (xs, ⟨xs, []⟩)).map Prod.fst = xs.map fun x => (x, .raw) := by
    rw [itemsOf, map_map]
    rfl
  have hstanding := Rolls.standing hp (c := (xs, ⟨xs, []⟩)) (rolls_raw hxs) SubLayout.nil
    hp.subLayout (fun s _ => width_nonneg policy s.ts) hpos
  have hitemsStrict : Strict Item.ts (itemsOf (xs, ⟨xs, []⟩)) := pairwise_map.mpr hxs
  have hdown := rolls_downsampleCovering hF hp hp.subLayout hstanding hstarts hitemsStrict
    (.inl rfl)
  rw [hitems] at hdown
  refine ⟨Rolls.unique hF hperm.symm (fun x hx y hy hts => ?_) hroll.rolls hdown.rolls,
    hroll.rolls.strict, (newest_merged htraced hroll).trans (newest_perm (hperm.symm.map _))⟩
  exact inj_on_of_nodup_map (f := Sample.ts) (pairwise_map.mpr hraw.apart) hx hy hts

theorem supports_float (h : agg.selects = true) : Supports Float agg := by
  cases agg with
  | last | first => trivial
  | min | max => exact Float64.compares_float
  | sum | count | avg => cases h

theorem supports_rat (agg : Aggregation) : Supports ℚ agg := by
  cases agg with
  | last | first => trivial
  | min | max => exact Float64.compares_rat
  | sum | count | avg => exact Float64.arithmetic_rat

/-- **Rollups compose** where no bucket starts outside the 64-bit integers.  Last, First, Min and
Max do so in binary floats, with any values and weights; every aggregation does in exact arithmetic,
Avg for positive weights. -/
theorem rollups_compose (hp : Nested agg policy) :
    (agg.selects = true → ∀ (cs : List (List (Sample Float) × Source Float))
      (xs : List (Sample Float)), (∀ c ∈ cs, Derived agg policy c.1 c.2) →
      xs.Perm (cs.flatMap Prod.fst) → Strict Sample.ts xs → StartsIn policy xs →
      Composed policy cs xs) ∧
    ∀ (cs : List (List (Sample ℚ) × Source ℚ)) (xs : List (Sample ℚ)),
      (∀ c ∈ cs, Derived agg policy c.1 c.2) → xs.Perm (cs.flatMap Prod.fst) →
      Strict Sample.ts xs → StartsIn policy xs → (agg = .avg → ∀ x ∈ xs, 0 < x.weight) →
      Composed policy cs xs := by
  refine ⟨fun hsel cs xs hcs hperm hxs hstarts => ?_, fun cs xs hcs hperm hxs hstarts hpos => ?_⟩
  · refine composed (supports_float hsel) hp hcs hperm hxs hstarts fun ha => ?_
    subst ha
    cases hsel
  · exact composed (supports_rat agg) hp hcs hperm hxs hstarts fun ha x hx =>
      decide_eq_true (hpos ha x hx)

/-- Two sources: one rolled up under some tiers, one raw. -/
def earlyLate (tiers : List DownsampleTier) (early late : List (Sample F)) (lo hi : ℤ) :
    List (List (Sample F) × Source F) :=
  let src := [flushedSource early lo hi]
  [(early, merged src (mergeLayout src tiers) (mergeLayout src tiers) lo hi),
    (late, flushedSource late lo hi)]

theorem derived_earlyLate {early late : List (Sample F)} {lo hi : ℤ}
    (htiers : SubLayout policy tiers) (hearly : Strict Sample.ts early)
    (hlate : Strict Sample.ts late) (hbound : (flushedSource early lo hi).Bounded)
    (hbounds : ∀ c ∈ earlyLate tiers early late lo hi, c.2.Bounded) :
    ∀ c ∈ earlyLate tiers early late lo hi, Derived agg policy c.1 c.2 := by
  obtain ⟨hrolled, hraw⟩ := forall_mem_cons.mp hbounds
  have hone : [(early, flushedSource early lo hi)].flatMap Prod.fst = early := append_nil _
  have hsrc : Derived agg policy ([(early, flushedSource early lo hi)].flatMap Prod.fst) _ :=
    Derived.rolled (forall_mem_singleton.mpr (Derived.raw hearly hbound)) htiers hrolled
  rw [hone] at hsrc
  have hlast : (flushedSource late lo hi).Bounded := hraw _ mem_cons_self
  exact forall_mem_cons.mpr ⟨hsrc, forall_mem_singleton.mpr (Derived.raw hlate hlast)⟩

/-- **What a rollup cannot carry.**  Of three samples of one bucket two are rolled up first.  For
Avg their weights cancel: the mean is a division by zero, in exact arithmetic and in floats, and the
last merge loses their values.  For Count in floats their weights, added first, are not rounded as
they are one by one.  And a bucket that starts below the lowest timestamp wraps past the cutoff,
where its total is read as a raw sample. -/
theorem rollups_compose_limits :
    (∃ (cs : List (List (Sample ℚ) × Source ℚ)) (xs : List (Sample ℚ)),
      (∀ c ∈ cs, Derived .avg [⟨10, 10, .avg⟩] c.1 c.2) ∧ xs.Perm (cs.flatMap Prod.fst) ∧
      Strict Sample.ts xs ∧ downsample xs [⟨10, 10, .avg⟩] = [⟨0, 3, 1⟩] ∧
      (rollSeries ((cs.map Prod.snd).map Source.run) [⟨10, 10, .avg⟩]).map Prod.fst = [⟨0, 5, 1⟩]) ∧
    (∃ (cs : List (List (Sample Float) × Source Float)) (xs : List (Sample Float)),
      (∀ c ∈ cs, Derived .avg [⟨10, 10, .avg⟩] c.1 c.2) ∧ xs.Perm (cs.flatMap Prod.fst) ∧
      Strict Sample.ts xs ∧ (downsample xs [⟨10, 10, .avg⟩]).map Sample.val = [3] ∧
      ((rollSeries ((cs.map Prod.snd).map Source.run) [⟨10, 10, .avg⟩]).map
        fun y => y.1.val.isNaN) = [true]) ∧
    (∃ (cs : List (List (Sample Float) × Source Float)) (xs : List (Sample Float)),
      (∀ c ∈ cs, Derived .count [⟨10, 10, .count⟩] c.1 c.2) ∧ xs.Perm (cs.flatMap Prod.fst) ∧
      Strict Sample.ts xs ∧
      (downsample xs [⟨10, 10, .count⟩]).map Sample.val = [9007199254740992] ∧
      (rollSeries ((cs.map Prod.snd).map Source.run) [⟨10, 10, .count⟩]).map (fun y => y.1.val) =
        [9007199254740994]) ∧
    (∃ (cs : List (List (Sample ℚ) × Source ℚ)) (xs : List (Sample ℚ)),
      (∀ c ∈ cs, Derived .sum [⟨0, 10, .sum⟩] c.1 c.2) ∧ xs.Perm (cs.flatMap Prod.fst) ∧
      Strict Sample.ts xs ∧ downsample xs [⟨0, 10, .sum⟩] = [⟨9223372036854775806, 3, 1⟩] ∧
      (rollSeries ((cs.map Prod.snd).map Source.run) [⟨0, 10, .sum⟩]).map Prod.fst =
        [⟨9223372036854775806, 1, 1⟩]) := by
  refine ⟨⟨earlyLate [⟨10, 10, .avg⟩] [⟨1, 1, 1⟩, ⟨2, 3, -1⟩] [⟨3, 5, 1⟩] 0 3,
    [⟨1, 1, 1⟩, ⟨2, 3, -1⟩, ⟨3, 5, 1⟩], ?_⟩,
    ⟨earlyLate [⟨10, 10, .avg⟩] [⟨1, 1, 1⟩, ⟨2, 3, -1⟩] [⟨3, 5, 1⟩] 0 3,
    [⟨1, 1, 1⟩, ⟨2, 3, -1⟩, ⟨3, 5, 1⟩], ?_⟩,
    ⟨earlyLate [⟨10, 10, .count⟩] [⟨2, 0, 1⟩, ⟨3, 0, 1⟩] [⟨1, 0, 9007199254740992⟩] 0 3,
    [⟨1, 0, 9007199254740992⟩, ⟨2, 0, 1⟩, ⟨3, 0, 1⟩], ?_⟩,
    ⟨earlyLate [⟨0, 10, .sum⟩] [⟨minInt64, 1, 1⟩] [⟨minInt64 + 1, 2, 1⟩] minInt64 maxInt64,
    [⟨minInt64, 1, 1⟩, ⟨minInt64 + 1, 2, 1⟩], ?_⟩⟩
  · exact ⟨derived_earlyLate (by decide) (by decide) (by decide) (by decide) (by decide +kernel),
      .refl _, by decide, by decide +kernel, by decide +kernel⟩
  · exact ⟨derived_earlyLate (by decide) (by decide) (by decide) (by decide) (by decide +kernel),
      .refl _, by decide, by decide +kernel, by decide +kernel⟩
  · exact ⟨derived_earlyLate (by decide) (by decide) (by decide) (by decide) (by decide +kernel),
      @perm_append_comm _ [_] [_, _], by decide, by decide +kernel, by decide +kernel⟩
  · exact ⟨derived_earlyLate (by decide) (by decide) (by decide) (by decide) (by decide +kernel),
      .refl _, by decide, by decide +kernel, by decide +kernel⟩

/-- Two parts of a series, one rolled up under the finer tier, merge under both tiers. -/
theorem rollups_compose_split :
    Composed [⟨10, 5, .avg⟩, ⟨20, 10, .avg⟩]
      (earlyLate [⟨10, 5, .avg⟩] [⟨1, 1, 1⟩, ⟨7, 5, 2⟩] [⟨2, 3, 1⟩, ⟨23, 4, (1 : ℚ)⟩] 0 23)
      [⟨1, 1, 1⟩, ⟨2, 3, 1⟩, ⟨7, 5, 2⟩, ⟨23, 4, 1⟩] :=
  (@rollups_compose .avg _ ⟨by decide, by decide, by decide⟩).2 _ _
    (derived_earlyLate (by decide) (by decide) (by decide) (by decide) (by decide +kernel))
    (by decide +kernel) (by decide) (by decide +kernel) (by decide +kernel)

end OtelStorage.Metrics
