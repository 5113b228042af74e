import OtelStorage.Metrics.BucketFold
import OtelStorage.Metrics.Layout

/-!
# What the samples of a merge stand for

A source rolled up under a layout has one sample for each bucket that holds raw samples, and it
stands for them: `Rolls`.  Raw samples of distinct timestamps determine it (`Rolls.unique`).

A merge keeps this.  Gathering its sources gives samples that stand for groups of the raw samples of
all of them (`Standing.gather`): where sources meet on a timestamp their groups are joined.  Putting
these into buckets joins the groups of each bucket (`rolls_downsampleCovering`), under the tiers it
applies, or under none where the samples are as wide as the layout already.
-/

namespace OtelStorage.Metrics

open Fibers Grid List

variable {F : Type*} [Float64 F] {agg : Aggregation} {policy layout : List DownsampleTier}
  {cs : List (List (Sample F) × Run F)} {xs : List (Sample F)} {ties : List (Tie F)} (t : ℤ)

/-- The raw samples of a bucket. -/
abbrev bucketFiber (layout : List DownsampleTier) (k : BucketKey) (xs : List (Sample F)) :
    List (Sample F) := fiber (fun x => bucketOf layout x.ts) k xs

/-- **Samples roll raw ones up under a layout.** -/
structure Rolls (agg : Aggregation) (layout : List DownsampleTier) (xs samples : List (Sample F)) :
    Prop where
  strict : Strict Sample.ts samples
  inj : ∀ s ∈ samples, ∀ u ∈ samples, bucketOf layout s.ts = bucketOf layout u.ts → s = u
  covers : ∀ x ∈ xs, ∃ s ∈ samples, bucketOf layout s.ts = bucketOf layout x.ts
  held : ∀ s ∈ samples, ∃ x ∈ xs, bucketOf layout x.ts = bucketOf layout s.ts
  stands : ∀ s ∈ samples,
    Stands agg (s, runTag layout s.ts) (bucketFiber layout (bucketOf layout s.ts) xs)

/-- **Raw samples are rolled up in one way.** -/
theorem Rolls.unique (hF : Supports F agg) {ys samples samples' : List (Sample F)}
    (hperm : xs.Perm ys) (hxs : ∀ x ∈ xs, ∀ y ∈ xs, x.ts = y.ts → x = y)
    (h : Rolls agg layout xs samples) (h' : Rolls agg layout ys samples') :
    samples = samples' := by
  -- two samples of one bucket stand for the same raw ones
  have hsame : ∀ s ∈ samples, ∀ u ∈ samples', bucketOf layout s.ts = bucketOf layout u.ts →
      s = u := by
    intro s hs u hu hk
    have hgroup : (bucketFiber layout (bucketOf layout s.ts) xs).Perm
        (bucketFiber layout (bucketOf layout u.ts) ys) := by
      rw [← hk]
      exact hperm.filter _
    obtain ⟨hw, hstart⟩ := bucketOf_inj hk
    have hst := h.stands s hs
    have hut := h'.stands u hu
    rw [Stands] at hst hut
    have hsw : (runTag layout s.ts).interval = width layout s.ts := rfl
    have huw : (runTag layout u.ts).interval = width layout s.ts := hw.symm
    dsimp only at hst hut
    rw [hsw] at hst
    rw [huw] at hut
    split at hstart
    · next hpos =>
      rw [if_pos hpos] at hst hut
      refine (hst.2.perm hF hgroup).unique (fun x hx y hy => ?_) (hstart ▸ hut.2)
      exact hxs x (hperm.mem_iff.mpr ((mem_fiber _).mp hx).1) y
        (hperm.mem_iff.mpr ((mem_fiber _).mp hy).1)
    · next hraw =>
      rw [if_neg hraw] at hst hut
      rw [hst, hut] at hgroup
      exact singleton_perm_singleton.mp hgroup
  refine h.strict.eq_of_mem_iff h'.strict fun s => ⟨fun hs => ?_, fun hs => ?_⟩
  · obtain ⟨x, hx, hxk⟩ := h.held s hs
    obtain ⟨u, hu, huk⟩ := h'.covers x (hperm.mem_iff.mp hx)
    exact hsame s hs u hu (hxk.symm.trans huk.symm) ▸ hu
  · obtain ⟨x, hx, hxk⟩ := h'.held s hs
    obtain ⟨u, hu, huk⟩ := h.covers x (hperm.mem_iff.mpr hx)
    exact (hsame u hu s hs (huk.trans hxk)) ▸ hu

/-! ## Samples with their groups -/

/-- A tagged sample and the raw samples it stands for. -/
abbrev Item (F : Type*) := (Sample F × RollupTag) × List (Sample F)

/-- The timestamp of an item. -/
abbrev Item.ts (q : Item F) : ℤ := q.1.1.ts

/-- **Tagged samples that stand for all raw ones**, each for some of its bucket. -/
structure Standing (agg : Aggregation) (layout : List DownsampleTier) (qs : List (Item F))
    (xs : List (Sample F)) : Prop where
  grouped : Grouped agg qs
  within : ∀ q ∈ qs, ∀ x ∈ q.2, bucketOf layout x.ts = bucketOf layout (Item.ts q)
  le : ∀ q ∈ qs, ∃ x ∈ q.2, Item.ts q ≤ x.ts
  perm : (qs.flatMap Prod.snd).Perm xs
  -- what a representative's tag says of its bucket
  tag : ∀ q ∈ qs, 0 < q.1.2.interval → q.1.2.interval ∣ q.1.2.before ∧ Item.ts q < q.1.2.before
  nonneg : ∀ q ∈ qs, 0 ≤ q.1.2.interval
  tagWidth : ∀ q ∈ qs, q.1.2.interval ≤ width layout (Item.ts q)

omit [Float64 F] in
theorem bucketFiber_perm {qs : List (Item F)}
    (hwithin : ∀ q ∈ qs, ∀ x ∈ q.2, bucketOf layout x.ts = bucketOf layout (Item.ts q))
    (hperm : (qs.flatMap Prod.snd).Perm xs) (k : BucketKey) :
    ((fiber (fun q => bucketOf layout (Item.ts q)) k qs).flatMap Prod.snd).Perm
      (bucketFiber layout k xs) := by
  refine List.Perm.trans (List.Perm.of_eq ?_) (hperm.filter _)
  clear hperm
  induction qs with
  | nil => rfl
  | cons q qs ih =>
    have hq := hwithin q mem_cons_self
    have hrest := ih fun q' hq' => hwithin q' (mem_cons_of_mem q hq')
    rw [flatMap_cons, filter_append, ← hrest]
    by_cases hk : bucketOf layout (Item.ts q) = k
    · have hall : q.2.filter (fun x => decide (bucketOf layout x.ts = k)) = q.2 :=
        filter_eq_self.mpr fun x hx => decide_eq_true ((hq x hx).trans hk)
      have hself : fiber (fun q => bucketOf layout (Item.ts q)) k (q :: qs) =
          q :: fiber (fun q => bucketOf layout (Item.ts q)) k qs :=
        filter_cons_of_pos (decide_eq_true hk)
      rw [hall, hself, flatMap_cons]
    · have hnone : q.2.filter (fun x => decide (bucketOf layout x.ts = k)) = [] :=
        filter_eq_nil_iff.mpr fun x hx h => hk ((hq x hx).symm.trans (of_decide_eq_true h))
      rw [hnone, fiber_cons_of_ne (fun q => bucketOf layout (Item.ts q)) hk, nil_append]

/-! ## Sources -/

/-- The samples of a source, with what they stand for. -/
def itemsOf (c : List (Sample F) × Run F) : List (Item F) :=
  c.2.samples.map fun s =>
    ((s, runTag c.2.layout s.ts), bucketFiber c.2.layout (bucketOf c.2.layout s.ts) c.1)

omit [Float64 F] in
theorem runTag_bounds (h : SubLayout policy layout) {ts : ℤ}
    (hi : 0 < (runTag layout ts).interval) :
    (runTag layout ts).interval ∣ (runTag layout ts).before ∧ ts < (runTag layout ts).before := by
  rcases width_cases layout ts with ⟨-, hw, -⟩ | ⟨t, htag, -, hwide⟩
  · exact absurd hw hi.ne'
  · rw [htag]
    exact ⟨(h t hwide.mem hwide.covers.1).1, hwide.covers.2⟩

/-- **The samples of a rolled source stand for its raw ones**, in its layout and in any that is no
finer where it has samples. -/
theorem Rolls.standing (hp : Nested agg policy) {c : List (Sample F) × Run F}
    (h : Rolls agg c.2.layout c.1 c.2.samples) (hsub : SubLayout policy c.2.layout)
    (hsub' : SubLayout policy layout)
    (hle : ∀ s ∈ c.2.samples, width c.2.layout s.ts ≤ width layout s.ts)
    (hpos : agg = .avg → ∀ x ∈ c.1, Float64.lt 0 x.weight = true) :
    Standing agg layout (itemsOf c) c.1 := by
  have hitem : ∀ {P : Item F → Prop}, (∀ s ∈ c.2.samples, P ((s, runTag c.2.layout s.ts),
      bucketFiber c.2.layout (bucketOf c.2.layout s.ts) c.1)) → ∀ q ∈ itemsOf c, P q := by
    intro P hP q hq
    obtain ⟨s, hs, rfl⟩ := mem_map.mp hq
    exact hP s hs
  have hne : ∀ s ∈ c.2.samples, ∃ x, x ∈ bucketFiber c.2.layout (bucketOf c.2.layout s.ts) c.1 := by
    intro s hs
    obtain ⟨x, hx, hxk⟩ := h.held s hs
    exact ⟨x, (mem_fiber _).mpr ⟨hx, hxk⟩⟩
  refine ⟨⟨hitem h.stands, hitem fun s hs => ?_, fun ha => hitem fun s _ x hx => ?_⟩,
    hitem fun s hs x hx => ?_, hitem fun s hs => ?_, ?_, hitem fun s _ hi => ?_,
    hitem fun s _ => width_nonneg _ _, hitem hle⟩
  · obtain ⟨x, hx⟩ := hne s hs
    exact ne_nil_of_mem hx
  · exact hpos ha x ((mem_fiber _).mp hx).1
  · exact bucketOf_coarsen hp hsub hsub' (hle s hs) ((mem_fiber _).mp hx).2
  · obtain ⟨x, hx⟩ := hne s hs
    have hst := h.stands s hs
    rw [Stands] at hst
    split at hst
    · cases hsel : agg.selects with
      | true => exact ⟨s, hst.2.mem hsel, le_rfl⟩
      | false =>
        -- the start of the bucket is at or before what it holds
        refine ⟨x, hx, ?_⟩
        obtain ⟨hw, hcell⟩ := bucketOf_inj ((mem_fiber _).mp hx).2
        next hi =>
          have hi' : 0 < width c.2.layout x.ts := hw ▸ hi
          rw [if_pos hi'] at hcell
          have hts : s.ts = floorTo s.ts (width c.2.layout s.ts) := hst.2.ts hsel
          show s.ts ≤ x.ts
          rw [hts, ← hw, ← hcell]
          exact floorTo_le hi'
    · rw [hst]
      exact ⟨s, mem_cons_self, le_rfl⟩
  · have hflat :
        (itemsOf c).flatMap Prod.snd = (c.2.samples.map fun s => bucketOf c.2.layout s.ts).flatMap
        fun k => bucketFiber c.2.layout k c.1 := by
      rw [itemsOf, flatMap_map, flatMap_map]
    rw [hflat]
    refine fibers_perm _ ?_ fun x hx => ?_
    · refine pairwise_map.mpr (h.strict.imp_of_mem fun {s u} hs hu hlt hk => ?_)
      rw [h.inj s hs u hu hk] at hlt
      exact absurd hlt (lt_irrefl _)
    · obtain ⟨s, hs, hk⟩ := h.covers x hx
      exact mem_map.mpr ⟨s, hs, hk⟩
  · exact runTag_bounds hsub hi

/-! ## Ties -/

/-- An item as its part in a tie. -/
def Item.tie (q : Item F) : Tie F := ⟨q.1.2, q.1.1, []⟩

omit [Float64 F] in
theorem tiesAt_items (hcs : ∀ c ∈ cs, Strict Sample.ts c.2.samples) (t : ℤ) :
    tiesAt t (cs.map Prod.snd) = (fiber Item.ts t (cs.reverse.flatMap itemsOf)).map Item.tie := by
  have hone : ∀ c ∈ cs, (c.2.at t).toList = (fiber Item.ts t (itemsOf c)).map Item.tie := by
    intro c hc
    have hfiber : fiber Item.ts t (itemsOf c) = (fiber Sample.ts t c.2.samples).map fun s =>
        ((s, runTag c.2.layout s.ts), bucketFiber c.2.layout (bucketOf c.2.layout s.ts) c.1) :=
      filter_map
    rw [hfiber]
    by_cases ht : ∃ s ∈ c.2.samples, s.ts = t
    · obtain ⟨s, hs, rfl⟩ := ht
      rw [Run.at_of_mem (hcs c hc) hs, (hcs c hc).fiber_eq hs]
      rfl
    · have hnone : ∀ s ∈ c.2.samples, s.ts ≠ t := fun s hs hst => ht ⟨s, hs, hst⟩
      rw [Run.at_eq_none.mpr hnone, fiber_eq_nil _ hnone]
      rfl
  rw [tiesAt, ← map_reverse, filterMap_map, filterMap_eq_flatMap_toList, fiber,
    filter_flatMap, map_flatMap]
  exact flatMap_congr fun c hc => hone c (mem_reverse.mp hc)

omit [Float64 F] in
theorem tieAgg_eq (h : ∀ x ∈ ties, 0 < x.tag.interval → x.tag.agg = agg) :
    tieAgg ties = if ∃ x ∈ ties, 0 < x.tag.interval then some agg else none := by
  induction ties using List.reverseRecOn with
  | nil => simp [tieAgg]
  | append_singleton ties y ih =>
    rw [tieAgg, foldl_append, foldl_cons, foldl_nil, ← tieAgg,
      ih fun x hx => h x (mem_append_left _ hx)]
    have hy := h y (mem_append_right _ mem_cons_self)
    by_cases hi : 0 < y.tag.interval
    · have hex : ∃ x ∈ ties ++ [y], 0 < x.tag.interval :=
        ⟨y, mem_append_right _ mem_cons_self, hi⟩
      rw [if_pos hi, if_pos hex, hy hi]
      split
      · rfl
      next a ha =>
      split at ha
      · next hsome =>
        cases ha
        rw [if_neg (lt_irrefl _), if_pos hsome]
      · cases ha
    · have hiff : (∃ x ∈ ties ++ [y], 0 < x.tag.interval) ↔ ∃ x ∈ ties, 0 < x.tag.interval := by
        simp only [mem_append, mem_singleton, or_and_right, exists_or, exists_eq_left, hi, or_false]
      rw [if_neg hi]
      exact if_congr hiff.symm rfl rfl

/-- Ties fold as samples of one bucket do, one raw sample at most among them; the tag is that of a
representative. -/
theorem foldl_tieStep (hagg : ∀ x ∈ ties, 0 < x.tag.interval → x.tag.agg = agg)
    (hraw : ties.Pairwise fun x y => 0 < x.tag.interval ∨ 0 < y.tag.interval) (b : BucketAcc F) :
    ∃ tag raw, ties.foldl (tieStep false t agg) (b, .raw, false) =
        ((ties.map fun x => (x.sample, x.tag)).foldl BucketAcc.put b, tag, raw) ∧
      (raw = true → ∃ x ∈ ties, ¬ 0 < x.tag.interval) ∧
      ((∃ x ∈ ties, 0 < x.tag.interval ∧ tag = x.tag) ∨
        tag = .raw ∧ ∀ x ∈ ties, ¬ 0 < x.tag.interval) := by
  induction ties using List.reverseRecOn with
  | nil => exact ⟨.raw, false, rfl, nofun, .inr ⟨rfl, nofun⟩⟩
  | append_singleton ties y ih =>
    obtain ⟨hp, -, hy⟩ := pairwise_append.mp hraw
    obtain ⟨tag, raw, hfold, hseen, htag⟩ := ih (fun x hx => hagg x (mem_append_left _ hx)) hp
    have hlast : y ∈ ties ++ [y] := mem_append_right _ mem_cons_self
    have hmap : ((ties ++ [y]).map fun x => (x.sample, x.tag)).foldl BucketAcc.put b =
        ((ties.map fun x => (x.sample, x.tag)).foldl BucketAcc.put b).put (y.sample, y.tag) := by
      rw [map_append, foldl_append]
      rfl
    rw [foldl_append, foldl_cons, foldl_nil, hfold, hmap]
    by_cases hi : 0 < y.tag.interval
    · have hstep : ∀ acc : BucketAcc F, tieStep false t agg (acc, tag, raw) y =
          (acc.put (y.sample, y.tag),
          if tag.interval < y.tag.interval ∨
              (y.tag.interval = tag.interval ∧ tag.before < y.tag.before)
            then y.tag else tag, raw) := by
        intro acc
        rw [tieStep, BucketAcc.put]
        simp only [if_pos hi, if_pos (hagg y hlast hi)]
      refine ⟨_, raw, hstep _, fun h => ?_, .inl ?_⟩
      · obtain ⟨x, hx, hxi⟩ := hseen h
        exact ⟨x, mem_append_left _ hx, hxi⟩
      split
      · exact ⟨y, hlast, hi, rfl⟩
      · next hwider =>
        rcases htag with ⟨x, hx, hxi, rfl⟩ | ⟨rfl, -⟩
        · exact ⟨x, mem_append_left _ hx, hxi, rfl⟩
        · exact absurd (.inl hi) hwider
    -- a raw sample: none has been seen
    have hfresh : raw = false := by
      by_contra hr
      obtain ⟨x, hx, hxi⟩ := hseen (Bool.not_eq_false _ ▸ hr)
      exact (hy x hx y mem_cons_self).elim hxi hi
    have hstep : ∀ acc : BucketAcc F, tieStep false t agg (acc, tag, raw) y =
        (acc.put (y.sample, y.tag), tag, true) := by
      intro acc
      rw [tieStep, BucketAcc.put, rawTieAt_false]
      simp only [if_neg hi, hfresh, Bool.false_eq_true, if_false]
    refine ⟨tag, true, hstep _, fun _ => ⟨y, hlast, hi⟩, htag.imp ?_ ?_⟩
    · rintro ⟨x, hx, hxi⟩
      exact ⟨x, mem_append_left _ hx, hxi⟩
    rintro ⟨htag, hall⟩
    refine ⟨htag, fun x hx => ?_⟩
    rcases mem_append.mp hx with hx | hx
    · exact hall x hx
    · exact mem_singleton.mp hx ▸ hi

theorem Standing.apart (hF : Supports F agg) {ps : List (Item F)}
    (h : Standing agg layout ps xs) (hxs : xs.Pairwise fun x y => x.ts ≠ y.ts) :
    ps.Pairwise fun p q => Item.ts p = Item.ts q →
      agg.selects = false ∧ (0 < p.1.2.interval ∨ 0 < q.1.2.interval) := by
  have hgroups := (pairwise_flatMap.mp ((h.perm.pairwise_iff fun {x y} => Ne.symm).mpr hxs)).2
  refine hgroups.imp_of_mem fun {p q} hp hq hpq hts => ?_
  have hmem : ∀ r ∈ ps, agg.selects = true ∨ ¬ 0 < r.1.2.interval → r.1.1 ∈ r.2 := by
    intro r hr hcase
    have hst := h.grouped.stands r hr
    rcases hcase with hsel | hraw
    · exact (hst.isRep hsel hF 0).mem hsel
    · rw [Stands, if_neg hraw] at hst
      rw [hst]
      exact mem_cons_self
  constructor
  · by_contra hsel
    have hsel := Bool.not_eq_false _ ▸ hsel
    exact hpq _ (hmem p hp (.inl hsel)) _ (hmem q hq (.inl hsel)) hts
  · by_contra hraw
    obtain ⟨hp', hq'⟩ := not_or.mp hraw
    exact hpq _ (hmem p hp (.inr hp')) _ (hmem q hq (.inr hq')) hts

/-- The raw samples that the items of a timestamp stand for. -/
def rawAt (ps : List (Item F)) (t : ℤ) : List (Sample F) := (fiber Item.ts t ps).flatMap Prod.snd

omit [Float64 F] in
theorem mem_rawAt {ps : List (Item F)} {t : ℤ} {x : Sample F} :
    x ∈ rawAt ps t ↔ ∃ p ∈ ps, Item.ts p = t ∧ x ∈ p.2 := by
  simp only [rawAt, mem_flatMap, mem_fiber, and_assoc]

/-- **Several items of a timestamp fold into one** that stands for all they stand for. -/
theorem Grouped.foldTies_eq (hF : Supports F agg) {ps : List (Item F)} (h : Grouped agg ps)
    (hts : ∀ p ∈ ps, Item.ts p = t) (hsel : agg.selects = false)
    (hraw : ps.Pairwise fun p q => 0 < p.1.2.interval ∨ 0 < q.1.2.interval)
    (hex : ∃ p ∈ ps, 0 < p.1.2.interval) :
    ∃ s, ∃ r ∈ ps, foldTies false t (ps.map Item.tie) = some (s, r.1.2) ∧ s.ts = t ∧
      Stands agg (s, r.1.2) (ps.flatMap Prod.snd) := by
  have hagg : ∀ x ∈ ps.map Item.tie, 0 < x.tag.interval → x.tag.agg = agg :=
    forall_mem_map.mpr fun r hr => (h.stands r hr).agg_eq
  have hrep : ∃ x ∈ ps.map Item.tie, 0 < x.tag.interval := by
    obtain ⟨p, hp, hi⟩ := hex
    exact ⟨p.tie, mem_map_of_mem hp, hi⟩
  obtain ⟨tag, raw, hfold, -, htag⟩ := foldl_tieStep t hagg (pairwise_map.mpr hraw)
    (.new .last (some agg))
  obtain ⟨r, hr, hri, rfl⟩ : ∃ r ∈ ps, 0 < r.1.2.interval ∧ tag = r.1.2 := by
    rcases htag with ⟨x, hx, hi, htag⟩ | ⟨-, hnone⟩
    · obtain ⟨r, hr, rfl⟩ := mem_map.mp hx
      exact ⟨r, hr, hi, htag⟩
    · obtain ⟨x, hx, hi⟩ := hrep
      exact absurd hi (hnone x hx)
  have hisrep := isRep_fold hF h (ne_nil_of_mem hr)
    (fun hmm => by rcases hmm with rfl | rfl <;> cases hsel) t (a := .last)
    (r := some agg) (.inr rfl)
  have hmap : (ps.map Item.tie).map (fun x => (x.sample, x.tag)) = ps.map Prod.fst := by
    rw [map_map]
    rfl
  rw [hmap] at hfold
  obtain ⟨s, hs⟩ : ∃ s, s = ((ps.map Prod.fst).foldl BucketAcc.put
    (.new .last (some agg))).result t := ⟨_, rfl⟩
  rw [← hs] at hisrep
  have hsts : s.ts = t := hisrep.ts hsel
  -- the start of the widest bucket is the timestamp they meet on
  have hstart : floorTo t r.1.2.interval = t := by
    have hst := h.stands r hr
    rw [Stands, if_pos hri] at hst
    rw [← hts r hr]
    exact (hst.2.ts hsel).symm
  refine ⟨s, r, hr, ?_, hsts, ?_⟩
  · rw [foldTies, tieAgg_eq hagg, if_pos hrep]
    dsimp only
    rw [foldReps, hfold]
    dsimp only
    rw [← hs, ← hsts]
  · rw [Stands, if_pos hri]
    refine ⟨(h.stands r hr).agg_eq hri, ?_⟩
    dsimp only
    rw [hsts, hstart]
    exact hisrep

/-- **What is kept of a timestamp stands for all groups there.** -/
theorem Standing.resolve_eq (hF : Supports F agg) (hcs : ∀ c ∈ cs, Strict Sample.ts c.2.samples)
    (h : Standing agg layout (cs.reverse.flatMap itemsOf) xs)
    (hxs : xs.Pairwise fun x y => x.ts ≠ y.ts) {t : ℤ}
    (hne : fiber Item.ts t (cs.reverse.flatMap itemsOf) ≠ []) :
    ∃ m, resolve t (cs.map Prod.snd) = [m] ∧ m.1.ts = t ∧
      Stands agg m (rawAt (cs.reverse.flatMap itemsOf) t) ∧
      ∃ p ∈ cs.reverse.flatMap itemsOf, Item.ts p = t ∧ p.1.2 = m.2 := by
  have hapart := (h.apart hF hxs).sublist (filter_sublist (p := fun q => Item.ts q = t))
  have hmem : ∀ p ∈ fiber Item.ts t (cs.reverse.flatMap itemsOf),
      p ∈ cs.reverse.flatMap itemsOf ∧ Item.ts p = t := fun p hp => (mem_fiber _).mp hp
  rw [resolve, tiesAt_items hcs, rawAt]
  rcases hcase : fiber Item.ts t (cs.reverse.flatMap itemsOf) with _ | ⟨p, _ | ⟨q, rest⟩⟩
  · exact absurd hcase hne
  · obtain ⟨hp, hpt⟩ := hmem p (hcase ▸ mem_cons_self)
    refine ⟨p.1, rfl, hpt, ?_, p, hp, hpt, rfl⟩
    rw [flatMap_cons, flatMap_nil, append_nil]
    exact h.grouped.stands p hp
  -- several: none is selected, and one is a representative
  rw [← fiber, hcase] at hapart
  rw [hcase] at hmem
  have hpairs := hapart.imp_of_mem fun {r r'} hr hr' h' =>
    h' ((hmem r hr).2.trans (hmem r' hr').2.symm)
  obtain ⟨hsel, hrep⟩ := (pairwise_cons.mp hpairs).1 q mem_cons_self
  have hgrouped : Grouped agg (p :: q :: rest) := h.grouped.subset fun z hz => (hmem z hz).1
  obtain ⟨s, r, hr, hfold, hsts, hstands⟩ := hgrouped.foldTies_eq t hF (fun z hz => (hmem z hz).2)
    hsel (hpairs.imp fun hpq => hpq.2) (hrep.elim (fun hi => ⟨p, mem_cons_self, hi⟩) fun hi =>
      ⟨q, mem_cons_of_mem _ mem_cons_self, hi⟩)
  exact ⟨(s, r.1.2), congrArg Option.toList hfold, hsts, hstands, r, (hmem r hr).1, (hmem r hr).2,
    rfl⟩

/-- **One sample for the items of every timestamp** stands for all raw samples still. -/
theorem Standing.regroup {ps : List (Item F)} (h : Standing agg layout ps xs)
    {ms : List (Sample F × RollupTag)} (hstrict : Strict tagTs ms)
    (hkept : ∀ m ∈ ms, Stands agg m (rawAt ps m.1.ts) ∧ ∃ p ∈ ps, Item.ts p = m.1.ts ∧ p.1.2 = m.2)
    (hall : ∀ p ∈ ps, ∃ m ∈ ms, m.1.ts = Item.ts p) :
    Standing agg layout (ms.map fun m => (m, rawAt ps m.1.ts)) xs := by
  refine ⟨⟨forall_mem_map.mpr fun m hm => (hkept m hm).1, forall_mem_map.mpr fun m hm => ?_,
      fun ha => forall_mem_map.mpr fun m hm x hx => ?_⟩,
    forall_mem_map.mpr fun m hm x hx => ?_, forall_mem_map.mpr fun m hm => ?_, ?_,
    forall_mem_map.mpr fun m hm hi => ?_, forall_mem_map.mpr fun m hm => ?_,
    forall_mem_map.mpr fun m hm => ?_⟩
  · obtain ⟨p, hp, hpt, -⟩ := (hkept m hm).2
    obtain ⟨x, hx⟩ := exists_mem_of_ne_nil _ (h.grouped.ne p hp)
    exact ne_nil_of_mem (mem_rawAt.mpr ⟨p, hp, hpt, hx⟩)
  · obtain ⟨p, hp, -, hxp⟩ := mem_rawAt.mp hx
    exact h.grouped.pos ha p hp x hxp
  · obtain ⟨p, hp, hpt, hxp⟩ := mem_rawAt.mp hx
    exact (h.within p hp x hxp).trans (by rw [hpt])
  · obtain ⟨p, hp, hpt, -⟩ := (hkept m hm).2
    obtain ⟨x, hx, hle⟩ := h.le p hp
    exact ⟨x, mem_rawAt.mpr ⟨p, hp, hpt, hx⟩, hpt.ge.trans hle⟩
  · have hflat : (ms.map fun m => (m, rawAt ps m.1.ts)).flatMap Prod.snd =
        ((ms.map fun m => m.1.ts).flatMap fun t => fiber Item.ts t ps).flatMap Prod.snd := by
      rw [flatMap_map, flatMap_map, flatMap_assoc]
      rfl
    rw [hflat]
    refine ((fibers_perm Item.ts ?_ fun p hp => ?_).flatMap_right _).trans h.perm
    · exact pairwise_map.mpr (hstrict.imp fun hlt => hlt.ne)
    · exact mem_map.mpr (hall p hp)
  · obtain ⟨p, hp, hpt, htag⟩ := (hkept m hm).2
    have := h.tag p hp (htag ▸ hi)
    rw [htag, hpt] at this
    exact this
  · obtain ⟨p, hp, -, htag⟩ := (hkept m hm).2
    exact htag ▸ h.nonneg p hp
  · obtain ⟨p, hp, hpt, htag⟩ := (hkept m hm).2
    have := h.tagWidth p hp
    rw [htag, hpt] at this
    exact this

/-- **Gathered samples stand for the raw samples of all sources.** -/
theorem Standing.gather (hF : Supports F agg) (hcs : ∀ c ∈ cs, Strict Sample.ts c.2.samples)
    (h : Standing agg layout (cs.reverse.flatMap itemsOf) xs)
    (hxs : xs.Pairwise fun x y => x.ts ≠ y.ts) :
    ∃ qs : List (Item F), qs.map Prod.fst = gather true (cs.map Prod.snd) ∧
      Standing agg layout qs xs ∧
      ∀ q ∈ qs, ∃ p ∈ cs.reverse.flatMap itemsOf, Item.ts p = Item.ts q ∧ p.1.2 = q.1.2 := by
  have hruns : ∀ r ∈ cs.map Prod.snd, Strict Sample.ts r.samples := forall_mem_map.mpr hcs
  have hres := resolved_gather true hruns
  have hstrict := strict_gather true hruns
  have hitems : ∀ t, fiber Item.ts t (cs.reverse.flatMap itemsOf) = [] →
      resolve t (cs.map Prod.snd) = [] := by
    intro t hnil
    refine resolve_nil ?_
    rw [tiesAt_items hcs, hnil]
    rfl
  have hkept : ∀ m ∈ Metrics.gather true (cs.map Prod.snd),
      Stands agg m (rawAt (cs.reverse.flatMap itemsOf) m.1.ts) ∧
        ∃ p ∈ cs.reverse.flatMap itemsOf, Item.ts p = m.1.ts ∧ p.1.2 = m.2 := by
    intro m hm
    have hfiber := (hres.fibers m.1.ts).symm.trans (hstrict.fiber_eq hm)
    obtain ⟨m', hm', -, hst, htag⟩ := h.resolve_eq hF hcs hxs fun hnil =>
      absurd ((hitems _ hnil).symm.trans hfiber) nofun
    obtain rfl : m' = m := (List.cons.inj (hm'.symm.trans hfiber)).1
    exact ⟨hst, htag⟩
  refine ⟨_, ?_, h.regroup hstrict hkept fun p hp => ?_,
    forall_mem_map.mpr fun m hm => (hkept m hm).2⟩
  · rw [map_map]
    exact map_id _
  · obtain ⟨m, hm, hmt, -⟩ := h.resolve_eq hF hcs hxs
      (ne_nil_of_mem ((mem_fiber _).mpr ⟨hp, rfl⟩))
    have hmem : m ∈ fiber tagTs (Item.ts p) (Metrics.gather true (cs.map Prod.snd)) := by
      rw [hres.fibers, hm]
      exact mem_cons_self
    exact ⟨m, ((mem_fiber _).mp hmem).1, hmt⟩

end OtelStorage.Metrics
