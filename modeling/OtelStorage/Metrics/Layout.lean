import Mathlib.Data.List.MinMax
import OtelStorage.Foundation.FirstOccurrence
import OtelStorage.Metrics.RolledRows

/-!
# Layouts

A layout is a set of tiers, and what it comes to is the *width* it gives each timestamp: that of its
widest tier whose cutoff is later.  The source looks it up in two ways, in the tiers as they stand
(`tierAt`) and in the tiers ordered widest first (`pickTier`); both find the width.

Where widths divide one another and cutoffs are multiples of their width, a bucket never straddles a
cutoff: the width is the same all over it (`bucketOf_eq_of_cell`), and what shares a bucket of one
layout shares one of any coarser layout.

A merge records the tiers of its sources and those it was asked for (`mergeLayout`), and applies
what it records, unless its sources hold that layout already (`holdsLayout`).
-/

namespace OtelStorage.Metrics

open FirstOccurrence Grid List

/-! ## The tiers a merge records -/

/-- A tier stays in a layout unless one of its width and aggregation has a later cutoff and no other
aggregation shares the width. -/
def DownsampleTier.kept (layout : List DownsampleTier) (t : DownsampleTier) : Bool :=
  let mixed := layout.any fun o => o.interval = t.interval && o.agg ≠ t.agg
  let later := layout.any fun o => o.interval = t.interval && o.agg = t.agg && t.before < o.before
  0 < t.interval && (!later || mixed)

/-- The tiers of a layout that matter, widest first. -/
def compactLayout (layout : List DownsampleTier) : List DownsampleTier :=
  (layout.foldl (fun out t => if t.kept layout && !out.contains t then out ++ [t] else out)
    []).insertionSort DownsampleTier.widestFirst

/-- Some timestamp of a span is told apart by what two layouts assign it.  An assignment changes
only at a cutoff. -/
def anyBreakpoint (a b : List DownsampleTier) (lo hi : ℤ)
    (f : Option DownsampleTier → Option DownsampleTier → Bool) : Bool :=
  let differs (ts : ℤ) : Bool := f (tierAt a ts) (tierAt b ts)
  differs lo || [a, b].any fun layout => layout.any fun t =>
    0 < t.interval && lo < t.before && t.before ≤ hi && differs t.before

/-- Two layouts assign some timestamp of a span another width or aggregation. -/
def layoutsDiffer (a b : List DownsampleTier) (lo hi : ℤ) : Bool :=
  anyBreakpoint a b lo hi fun ta tb => match ta, tb with
    | none, none => false
    | some s, some t => s.interval ≠ t.interval || s.agg ≠ t.agg
    | _, _ => true

/-- What a merge takes of a part, for one series: its samples, its recorded tiers and bounds, and
the watermark it records. -/
structure Source (F : Type*) where
  run : Run F
  minTime : ℤ
  maxTime : ℤ
  mark : WithBot ℤ

variable {F : Type*} {layout policy a b tiers : List DownsampleTier} {ts us lo hi : ℤ}
  {t : DownsampleTier} {agg : Aggregation} {src : List (Source F)} {p : Source F}

/-- The layout a merge rolls its samples up to. -/
def mergeLayout (src : List (Source F)) (tiers : List DownsampleTier) : List DownsampleTier :=
  compactLayout ((src.flatMap fun p => p.run.layout.filter fun t => p.minTime < t.before) ++ tiers)

/-- Every source records the layout over its own span. -/
def holdsLayout (src : List (Source F)) (layout : List DownsampleTier) : Bool :=
  src.all fun p => !layoutsDiffer p.run.layout layout p.minTime p.maxTime

/-! ## Widths -/

/-- A tier rolls a timestamp up. -/
def DownsampleTier.Covers (t : DownsampleTier) (ts : ℤ) : Prop := 0 < t.interval ∧ ts < t.before

/-- The widest tier of a layout for a timestamp. -/
structure WidestAt (layout : List DownsampleTier) (ts : ℤ) (t : DownsampleTier) : Prop where
  mem : t ∈ layout
  covers : t.Covers ts
  widest : ∀ u ∈ layout, u.Covers ts → u.interval ≤ t.interval

theorem tierAt_spec (layout : List DownsampleTier) (ts : ℤ) :
    (tierAt layout ts = none ∧ ∀ t ∈ layout, ¬ t.Covers ts) ∨
      ∃ t, tierAt layout ts = some t ∧ WidestAt layout ts t := by
  induction layout using List.reverseRecOn with
  | nil => exact .inl ⟨rfl, nofun⟩
  | append_singleton layout u ih =>
    rw [tierAt, foldl_append, foldl_cons, foldl_nil, ← tierAt]
    have hforall : ∀ {P : DownsampleTier → Prop}, (∀ t ∈ layout, P t) → P u →
        ∀ t ∈ layout ++ [u], P t := fun hl hu =>
      forall_mem_append.mpr ⟨hl, forall_mem_singleton.mpr hu⟩
    have hlast : u ∈ layout ++ [u] := mem_append_right _ mem_cons_self
    split
    · next hskip =>
      have hu : ¬ u.Covers ts := fun hc => by
        have := hc.1
        have := hc.2
        omega
      rcases ih with ⟨hnone, hall⟩ | ⟨t, ht, hwide⟩
      · exact .inl ⟨hnone, hforall hall hu⟩
      · exact .inr ⟨t, ht, mem_append_left _ hwide.mem, hwide.covers,
          hforall hwide.widest fun hc => absurd hc hu⟩
    next hcov =>
    have hu : u.Covers ts := ⟨by omega, by omega⟩
    right
    rcases ih with ⟨hnone, hall⟩ | ⟨t, ht, hwide⟩
    · rw [hnone]
      exact ⟨u, rfl, hlast, hu, hforall (fun t ht hc => absurd hc (hall t ht)) fun _ => le_rfl⟩
    rw [ht]
    dsimp only
    split
    · next hwider =>
      refine ⟨u, rfl, hlast, hu, hforall (fun v hv hc => ?_) fun _ => le_rfl⟩
      have := hwide.widest v hv hc
      omega
    · next hnarrow =>
      refine ⟨t, rfl, mem_append_left _ hwide.mem, hwide.covers, hforall hwide.widest fun _ => ?_⟩
      omega

/-- The width a layout gives a timestamp, 0 where it stays raw. -/
def width (layout : List DownsampleTier) (ts : ℤ) : ℤ := (runTag layout ts).interval

theorem width_cases (layout : List DownsampleTier) (ts : ℤ) :
    (runTag layout ts = .raw ∧ width layout ts = 0 ∧ ∀ t ∈ layout, ¬ t.Covers ts) ∨
      ∃ t, runTag layout ts = ⟨t.interval, t.before, t.agg⟩ ∧ width layout ts = t.interval ∧
        WidestAt layout ts t := by
  rw [width, runTag]
  rcases tierAt_spec layout ts with ⟨hnone, hall⟩ | ⟨t, ht, hwide⟩
  · rw [hnone]
    exact .inl ⟨rfl, rfl, hall⟩
  · rw [ht]
    exact .inr ⟨t, rfl, rfl, hwide⟩

theorem width_nonneg (layout : List DownsampleTier) (ts : ℤ) : 0 ≤ width layout ts := by
  rcases width_cases layout ts with ⟨-, hw, -⟩ | ⟨t, -, hw, hwide⟩
  · exact hw.ge
  · exact hw ▸ hwide.covers.1.le

theorem le_width (ht : t ∈ layout) (hc : t.Covers ts) : t.interval ≤ width layout ts := by
  rcases width_cases layout ts with ⟨-, -, hall⟩ | ⟨u, -, hw, hwide⟩
  · exact absurd hc (hall t ht)
  · exact hw ▸ hwide.widest t ht hc

theorem width_le_width (h : ∀ t ∈ a, t.Covers ts → ∃ u ∈ b, u.Covers us ∧ t.interval ≤ u.interval) :
    width a ts ≤ width b us := by
  rcases width_cases a ts with ⟨-, hw, -⟩ | ⟨t, -, hw, hwide⟩
  · rw [hw]
    exact width_nonneg b us
  · obtain ⟨u, hu, hc, hle⟩ := h t hwide.mem hwide.covers
    rw [hw]
    exact hle.trans (le_width hu hc)

instance : Std.Total DownsampleTier.widestFirst := ⟨fun a b => by
  rw [DownsampleTier.widestFirst, DownsampleTier.widestFirst]
  omega⟩

instance : IsTrans DownsampleTier DownsampleTier.widestFirst := ⟨fun a b c hab hbc => by
  rw [DownsampleTier.widestFirst] at *
  omega⟩

theorem pickTier_spec (layout : List DownsampleTier) (ts : ℤ) :
    let active := (layout.filter fun t => 0 < t.interval).insertionSort DownsampleTier.widestFirst
    (pickTier active ts = none ∧ width layout ts = 0) ∨
      ∃ t ∈ layout, pickTier active ts = some t ∧ 0 < t.interval ∧
      width layout ts = t.interval := by
  intro active
  have hmem : ∀ t, t ∈ active ↔ t ∈ layout ∧ 0 < t.interval := by
    intro t
    rw [mem_insertionSort, mem_filter, decide_eq_true_eq]
  have hsorted : active.Pairwise DownsampleTier.widestFirst := pairwise_insertionSort _ _
  cases hpick : pickTier active ts with
  | none =>
    refine .inl ⟨rfl, ?_⟩
    rcases width_cases layout ts with ⟨-, hw, -⟩ | ⟨t, -, -, hwide⟩
    · exact hw
    · have hnot := List.find?_eq_none.mp hpick t ((hmem t).mpr ⟨hwide.mem, hwide.covers.1⟩)
      exact absurd (decide_eq_true hwide.covers.2) hnot
  | some t =>
    obtain ⟨hlt, before, after, hsplit, hbefore⟩ := List.find?_eq_some_iff_append.mp hpick
    obtain ⟨ht, hi⟩ := (hmem t).mp (hsplit ▸ mem_append_right _ mem_cons_self)
    have hc : t.Covers ts := ⟨hi, of_decide_eq_true hlt⟩
    refine .inr ⟨t, ht, rfl, hi, le_antisymm ?_ (le_width ht hc)⟩
    rcases width_cases layout ts with ⟨-, hw, -⟩ | ⟨u, -, hw, hwide⟩
    · exact hw ▸ hi.le
    rw [hw]
    have hu := (hmem u).mpr ⟨hwide.mem, hwide.covers.1⟩
    rw [hsplit] at hu hsorted
    rcases mem_append.mp hu with hu | hu
    · have := hbefore u hu
      simp only [hwide.covers.2, decide_true, Bool.not_true] at this
      cases this
    rcases mem_cons.mp hu with rfl | hu
    · exact le_rfl
    · have hwf := (pairwise_cons.mp (pairwise_append.mp hsorted).2.1).1 u hu
      rw [DownsampleTier.widestFirst] at hwf
      omega

/-! ## Buckets -/

/-- The bucket of a timestamp under a layout. -/
def bucketOf (layout : List DownsampleTier) (ts : ℤ) : BucketKey :=
  if 0 < width layout ts then ⟨width layout ts, floorTo ts (width layout ts)⟩ else ⟨0, ts⟩

theorem bucketOf_pos (h : 0 < width layout ts) :
    bucketOf layout ts = ⟨width layout ts, floorTo ts (width layout ts)⟩ := if_pos h

theorem bucketOf_raw (h : ¬ 0 < width layout ts) : bucketOf layout ts = ⟨0, ts⟩ := if_neg h

theorem bucketOf_inj (h : bucketOf layout ts = bucketOf layout us) :
    width layout ts = width layout us ∧
      if 0 < width layout ts then floorTo ts (width layout ts) = floorTo us (width layout ts)
      else ts = us := by
  have hts := width_nonneg layout ts
  have hus := width_nonneg layout us
  by_cases h₁ : 0 < width layout ts <;> by_cases h₂ : 0 < width layout us
  · rw [bucketOf_pos h₁, bucketOf_pos h₂] at h
    obtain ⟨hw, hs⟩ := BucketKey.mk.inj h
    rw [if_pos h₁]
    exact ⟨hw, hs.trans (by rw [hw])⟩
  · rw [bucketOf_pos h₁, bucketOf_raw h₂] at h
    exact absurd (BucketKey.mk.inj h).1 h₁.ne'
  · rw [bucketOf_raw h₁, bucketOf_pos h₂] at h
    exact absurd (BucketKey.mk.inj h).1.symm h₂.ne'
  · rw [bucketOf_raw h₁, bucketOf_raw h₂] at h
    rw [if_neg h₁]
    exact ⟨by omega, (BucketKey.mk.inj h).2⟩

/-! ## Nested layouts -/

/-- A policy: one aggregation, widths that divide one another, cutoffs that are multiples of their
width. -/
structure Nested (agg : Aggregation) (policy : List DownsampleTier) : Prop where
  agg : ∀ t ∈ policy, 0 < t.interval → t.agg = agg
  nest : ∀ t ∈ policy, ∀ u ∈ policy, 0 < t.interval → 0 < u.interval →
    t.interval ∣ u.interval ∨ u.interval ∣ t.interval
  aligned : ∀ t ∈ policy, 0 < t.interval → t.interval ∣ t.before

/-- A sub-layout of a policy: each tier one of its tiers, with an aligned cutoff no later. -/
def SubLayout (policy layout : List DownsampleTier) : Prop :=
  ∀ t ∈ layout, 0 < t.interval → t.interval ∣ t.before ∧
    ∃ p ∈ policy, p.interval = t.interval ∧ p.agg = t.agg ∧ t.before ≤ p.before

instance (policy layout : List DownsampleTier) : Decidable (SubLayout policy layout) :=
  inferInstanceAs (Decidable (∀ t ∈ layout, 0 < t.interval → t.interval ∣ t.before ∧
    ∃ p ∈ policy, p.interval = t.interval ∧ p.agg = t.agg ∧ t.before ≤ p.before))

theorem Nested.subLayout (h : Nested agg policy) : SubLayout policy policy := fun t ht hi =>
  ⟨h.aligned t ht hi, t, ht, rfl, rfl, le_rfl⟩

theorem SubLayout.nil : SubLayout policy [] := nofun

theorem SubLayout.agg_eq (hp : Nested agg policy) (h : SubLayout policy layout) (ht : t ∈ layout)
    (hi : 0 < t.interval) : t.agg = agg := by
  obtain ⟨-, p, hpm, hpi, hpa, -⟩ := h t ht hi
  exact hpa.symm.trans (hp.agg p hpm (hpi ▸ hi))

theorem SubLayout.width_le (h : SubLayout policy layout) (ts : ℤ) :
    width layout ts ≤ width policy ts := by
  refine width_le_width fun t ht hc => ?_
  obtain ⟨-, p, hp, hpi, -, hpb⟩ := h t ht hc.1
  exact ⟨p, hp, ⟨hpi ▸ hc.1, hc.2.trans_le hpb⟩, hpi.ge⟩

theorem SubLayout.width_mem (h : SubLayout policy layout) (hw : 0 < width layout ts) :
    ∃ p ∈ policy, p.interval = width layout ts := by
  rcases width_cases layout ts with ⟨-, hw', -⟩ | ⟨t, -, hw', hwide⟩
  · exact absurd hw' hw.ne'
  · obtain ⟨-, p, hp, hpi, -⟩ := h t hwide.mem hwide.covers.1
    exact ⟨p, hp, hpi.trans hw'.symm⟩

/-- **A bucket has one width.**  What shares a bucket of some width of the policy shares that of a
layout that is no finer there. -/
theorem bucketOf_eq_of_cell (hp : Nested agg policy) (h : SubLayout policy layout) {w : ℤ}
    (hw : 0 < w) (hmem : ∃ p ∈ policy, p.interval = w) (hle : w ≤ width layout ts)
    (hcell : floorTo us w = floorTo ts w) : bucketOf layout us = bucketOf layout ts := by
  obtain ⟨p, hpm, rfl⟩ := hmem
  -- tiers at least that wide cover both or neither
  have hcovers : ∀ t ∈ layout, p.interval ≤ t.interval → (t.Covers us ↔ t.Covers ts) := by
    intro t ht hpt
    refine and_congr_right fun hi => ?_
    obtain ⟨hdvd, q, hqm, hqi, -⟩ := h t ht hi
    have hpw : p.interval ∣ t.interval := by
      rcases hp.nest p hpm q hqm hw (hqi ▸ hi) with hd | hd
      · exact hqi ▸ hd
      · rw [le_antisymm hpt (hqi ▸ Int.le_of_dvd hw hd)]
    rw [← floorTo_lt_iff hw (hpw.trans hdvd), hcell, floorTo_lt_iff hw (hpw.trans hdvd)]
  have hpos : 0 < width layout ts := hw.trans_le hle
  rcases width_cases layout ts with ⟨-, hw', -⟩ | ⟨t, -, hwt, hwide⟩
  · exact absurd hw' hpos.ne'
  have hpt : p.interval ≤ t.interval := hwt ▸ hle
  have hus : width layout us = t.interval := by
    refine le_antisymm ?_ (le_width hwide.mem ((hcovers t hwide.mem hpt).mpr hwide.covers))
    rcases width_cases layout us with ⟨-, hw', -⟩ | ⟨u, -, hwu, hwide'⟩
    · exact hw' ▸ hwide.covers.1.le
    · rw [hwu]
      by_contra hlt
      have hpu : p.interval ≤ u.interval := hpt.trans (not_le.mp hlt).le
      exact hlt (hwide.widest u hwide'.mem ((hcovers u hwide'.mem hpu).mp hwide'.covers))
  have hdvd : p.interval ∣ t.interval := by
    obtain ⟨-, q, hqm, hqi, -⟩ := h t hwide.mem hwide.covers.1
    rcases hp.nest p hpm q hqm hw (hqi ▸ hwide.covers.1) with hd | hd
    · exact hqi ▸ hd
    · rw [le_antisymm hpt (hqi ▸ Int.le_of_dvd hw hd)]
  have hstart : floorTo us t.interval = floorTo ts t.interval := by
    rw [← floorTo_floorTo hw hdvd, hcell, floorTo_floorTo hw hdvd]
  rw [bucketOf_pos hpos, bucketOf_pos (hus ▸ hwide.covers.1), hus, hwt, hstart]

theorem bucketOf_start (hp : Nested agg policy) (h : SubLayout policy layout) (ts : ℤ) :
    bucketOf layout (bucketOf layout ts).start = bucketOf layout ts := by
  by_cases hw : 0 < width layout ts
  · rw [bucketOf_pos hw]
    refine (bucketOf_eq_of_cell hp h hw (h.width_mem hw) le_rfl ?_).trans (bucketOf_pos hw)
    exact floorTo_floorTo hw dvd_rfl
  · rw [bucketOf_raw hw]
    exact bucketOf_raw hw

/-- What shares a bucket shares it in a layout that is no finer there. -/
theorem bucketOf_coarsen {coarse : List DownsampleTier} (hp : Nested agg policy)
    (h : SubLayout policy layout) (hc : SubLayout policy coarse)
    (hle : width layout ts ≤ width coarse ts) (heq : bucketOf layout us = bucketOf layout ts) :
    bucketOf coarse us = bucketOf coarse ts := by
  obtain ⟨-, hcell⟩ := bucketOf_inj heq.symm
  split at hcell
  · next hw => exact bucketOf_eq_of_cell hp hc hw (h.width_mem hw) hle hcell.symm
  · rw [hcell]

/-! ## The layout of a merge -/

theorem mem_compactLayout : t ∈ compactLayout layout ↔ t ∈ layout ∧ t.kept layout = true := by
  have hnew : t ∈ appendNew (DownsampleTier.kept layout) [] layout ↔
      t ∈ layout ∧ t.kept layout = true := by
    rw [mem_appendNew, or_iff_right not_mem_nil]
  rw [compactLayout, mem_insertionSort]
  exact hnew

theorem width_le_compactLayout (layout : List DownsampleTier) (ts : ℤ) :
    width layout ts ≤ width (compactLayout layout) ts := by
  refine width_le_width fun t ht hc => ?_
  -- of the tiers of this width the one with the latest cutoff is kept
  obtain ⟨u, hu⟩ : ∃ u, u ∈ (layout.filter fun o => o.interval = t.interval).argmax
      DownsampleTier.before := by
    refine Option.ne_none_iff_exists'.mp fun hnone => ?_
    have hmem : t ∈ layout.filter fun o => o.interval = t.interval :=
      mem_filter.mpr ⟨ht, decide_eq_true rfl⟩
    rw [argmax_eq_none.mp hnone] at hmem
    cases hmem
  obtain ⟨hul, hui⟩ := mem_filter.mp (argmax_mem hu)
  have hui := of_decide_eq_true hui
  have hmax : ∀ o ∈ layout, o.interval = t.interval → o.before ≤ u.before := fun o ho hoi =>
    le_of_mem_argmax (mem_filter.mpr ⟨ho, decide_eq_true hoi⟩) hu
  have hkept : u.kept layout = true := by
    have hlater : (layout.any fun o =>
        o.interval = u.interval && o.agg = u.agg && u.before < o.before) = false := by
      rw [any_eq_false]
      intro o ho hoo
      simp only [Bool.and_eq_true, decide_eq_true_eq] at hoo
      have := hmax o ho (hoo.1.1.trans hui)
      omega
    have hpos : 0 < u.interval := hui ▸ hc.1
    simp only [DownsampleTier.kept, hlater, hpos, decide_true, Bool.not_false, Bool.true_or,
      Bool.and_self]
  have hle := hmax t ht rfl
  exact ⟨u, mem_compactLayout.mpr ⟨hul, hkept⟩, ⟨hui ▸ hc.1, hc.2.trans_le hle⟩, hui.ge⟩

theorem subLayout_mergeLayout
    (hsrc : ∀ p ∈ src, SubLayout policy p.run.layout) (ht : SubLayout policy tiers) :
    SubLayout policy (mergeLayout src tiers) := by
  intro t hmem hi
  rcases mem_append.mp (mem_compactLayout.mp hmem).1 with h | h
  · obtain ⟨p, hp, htp⟩ := mem_flatMap.mp h
    exact hsrc p hp t (mem_filter.mp htp).1 hi
  · exact ht t h hi

/-- **The layout of a merge is no finer than that of a source, where the source has samples.** -/
theorem width_le_mergeLayout (hmem : p ∈ src) (hts : p.minTime ≤ ts) :
    width p.run.layout ts ≤ width (mergeLayout src tiers) ts := by
  refine le_trans (width_le_width fun t htp hc => ⟨t, ?_, hc, le_rfl⟩) (width_le_compactLayout _ ts)
  refine mem_append_left _ (mem_flatMap.mpr ⟨p, hmem, mem_filter.mpr ⟨htp, ?_⟩⟩)
  exact decide_eq_true (hts.trans_lt hc.2)

theorem tierAt_congr (h : ∀ t ∈ layout, t.Covers ts ↔ t.Covers us) :
    tierAt layout ts = tierAt layout us := by
  rw [tierAt, tierAt]
  refine foldl_ext _ _ none fun best t ht => ?_
  have hskip : (t.interval ≤ 0 ∨ t.before ≤ ts) ↔ (t.interval ≤ 0 ∨ t.before ≤ us) := by
    have := h t ht
    simp only [DownsampleTier.Covers] at this
    omega
  simp only [hskip]

/-- Between two cutoffs nothing changes: a timestamp is assigned what the last cutoff up to it is,
or the start of the span. -/
theorem exists_breakpoint (layout : List DownsampleTier) (hlo : lo ≤ ts) :
    ∃ m, m ≤ ts ∧ (m = lo ∨ ∃ t ∈ layout, 0 < t.interval ∧ lo < t.before ∧ t.before = m) ∧
      ∀ t ∈ layout, t.Covers ts ↔ t.Covers m := by
  obtain ⟨cuts, hcuts⟩ : ∃ cuts : List ℤ, cuts = lo :: (layout.filter fun t =>
      0 < t.interval && lo < t.before && t.before ≤ ts).map DownsampleTier.before := ⟨_, rfl⟩
  have hcut : ∀ {t}, t ∈ layout → 0 < t.interval → lo < t.before → t.before ≤ ts →
      t.before ∈ cuts := fun ht hpos hlt hle => by
    rw [hcuts]
    refine mem_cons_of_mem _ (mem_map.mpr ⟨_, mem_filter.mpr ⟨ht, ?_⟩, rfl⟩)
    simp only [hpos, hlt, hle, decide_true, Bool.and_self]
  obtain ⟨m, hm⟩ : ∃ m, m ∈ cuts.argmax id := by
    refine Option.ne_none_iff_exists'.mp fun hnone => ?_
    exact absurd (argmax_eq_none.mp hnone) (hcuts ▸ cons_ne_nil _ _)
  have hmax : ∀ c ∈ cuts, c ≤ m := fun c hc => le_of_mem_argmax hc hm
  have hlom : lo ≤ m := hmax lo (hcuts ▸ mem_cons_self)
  have hwhere : m ≤ ts ∧
      (m = lo ∨ ∃ t ∈ layout, 0 < t.interval ∧ lo < t.before ∧ t.before = m) := by
    have hmem := argmax_mem hm
    rw [hcuts] at hmem
    rcases mem_cons.mp hmem with rfl | hmem
    · exact ⟨hlo, .inl rfl⟩
    · obtain ⟨t, ht, rfl⟩ := mem_map.mp hmem
      simp only [mem_filter, Bool.and_eq_true, decide_eq_true_eq] at ht
      exact ⟨ht.2.2, .inr ⟨t, ht.1, ht.2.1.1, ht.2.1.2, rfl⟩⟩
  refine ⟨m, hwhere.1, hwhere.2, fun t ht => and_congr_right fun hpos =>
    ⟨hwhere.1.trans_lt, fun hlt => ?_⟩⟩
  by_contra hle
  have := hmax _ (hcut ht hpos (by omega) (by omega))
  omega

/-- **Cutoffs are enough**: a question about what two layouts assign the timestamps of a span is
answered at its start and at the cutoffs in it. -/
theorem anyBreakpoint_iff (hspan : lo ≤ hi)
    (f : Option DownsampleTier → Option DownsampleTier → Bool) :
    anyBreakpoint a b lo hi f = true ↔
      ∃ ts, lo ≤ ts ∧ ts ≤ hi ∧ f (tierAt a ts) (tierAt b ts) = true := by
  have hlists : ∀ t : DownsampleTier, (∃ layout ∈ [a, b], t ∈ layout) ↔ t ∈ a ++ b := fun t => by
    rw [mem_append, exists_mem_cons_iff, exists_mem_cons_iff]
    simp only [not_mem_nil, false_and, exists_false, or_false]
  rw [anyBreakpoint, Bool.or_eq_true]
  simp only [any_eq_true, Bool.and_eq_true, decide_eq_true_eq]
  constructor
  · rintro (h | ⟨layout, -, t, -, ⟨⟨-, hlo⟩, hhi⟩, h⟩)
    · exact ⟨lo, le_rfl, hspan, h⟩
    · exact ⟨t.before, hlo.le, hhi, h⟩
  · rintro ⟨ts, hlo, hhi, h⟩
    obtain ⟨m, hmts, hm, hcovers⟩ := exists_breakpoint (a ++ b) hlo
    rw [tierAt_congr fun t ht => hcovers t (mem_append_left _ ht),
      tierAt_congr fun t ht => hcovers t (mem_append_right _ ht)] at h
    rcases hm with rfl | ⟨t, ht, hpos, hlt, rfl⟩
    · exact .inl h
    · obtain ⟨layout, hl, htl⟩ := (hlists t).mpr ht
      exact .inr ⟨layout, hl, t, htl, ⟨⟨hpos, hlt⟩, hmts.trans hhi⟩, h⟩

/-- What a layout assigns a timestamp: a width and an aggregation. -/
def assigned (layout : List DownsampleTier) (ts : ℤ) : Option (ℤ × Aggregation) :=
  (tierAt layout ts).map fun t => (t.interval, t.agg)

theorem layoutsDiffer_iff (hspan : lo ≤ hi) :
    layoutsDiffer a b lo hi = true ↔ ∃ ts, lo ≤ ts ∧ ts ≤ hi ∧ assigned a ts ≠ assigned b ts := by
  rw [layoutsDiffer, anyBreakpoint_iff hspan]
  refine exists_congr fun ts => and_congr_right fun _ => and_congr_right fun _ => ?_
  rw [assigned, assigned]
  cases tierAt a ts with
  | none => cases tierAt b ts <;> simp
  | some s =>
    cases tierAt b ts with
    | none => simp
    | some t => simp [or_iff_not_imp_left]

theorem width_eq_assigned (layout : List DownsampleTier) (ts : ℤ) :
    width layout ts = (assigned layout ts).elim 0 Prod.fst := by
  rw [width, runTag, assigned]
  cases tierAt layout ts <;> rfl

theorem width_eq_of_not_differ
    (h : layoutsDiffer a b lo hi = false) (hlo : lo ≤ ts) (hhi : ts ≤ hi) :
    width a ts = width b ts := by
  have hsame : assigned a ts = assigned b ts := by
    by_contra hne
    rw [(layoutsDiffer_iff (hlo.trans hhi)).mpr ⟨ts, hlo, hhi, hne⟩] at h
    exact Bool.noConfusion h
  rw [width_eq_assigned, width_eq_assigned, hsame]

theorem width_eq_of_holdsLayout (h : holdsLayout src layout = true)
    (hp : p ∈ src) (hlo : p.minTime ≤ ts) (hhi : ts ≤ p.maxTime) :
    width p.run.layout ts = width layout ts := by
  refine width_eq_of_not_differ ?_ hlo hhi
  have := all_eq_true.mp h p hp
  rwa [Bool.not_eq_true'] at this

end OtelStorage.Metrics
