import OtelStorage.Metrics.FetchPlan
import OtelStorage.Metrics.Lossless
import OtelStorage.Metrics.StepGrid

/-!
# Aggregating reads

An aggregate over a window could fetch the samples and fold them.  Where the sources of the read lie
side by side in time and the parts lie inside the window, it skips the merge: it folds the
aggregates that unsampled parts keep for their series, decodes the other parts, and adds the
buffers.

The sources being apart is not all the merge does.  It also drops rows inside a source: when a
series has only one, the earlier of two rows at a timestamp, and a timestamp shared by two blocks of
a part. `aggregates_match_fetch_iff` is exact: an aggregate is the fold of the fetched samples if
and only if the merge is not skipped or drops nothing.  That is where no value is a NaN, which an
extreme value keeps or passes over by the order of the samples, and, for buckets, where they fit
into 64-bit integers.
-/

namespace OtelStorage.Metrics

open Fibers List Function

/-! ## The samples of runs -/

section Runs

variable {F : Type*} {l : List (Sample F)}

theorem window_eq_windowCopy (h : Ordered Sample.ts l) (start stop : ℤ) :
    window l start stop = windowCopy l start stop := window_eq_filter h start stop

theorem allSamples_append (rs rs' : List (Run F)) :
    allSamples (rs ++ rs') = allSamples rs ++ allSamples rs' := flatMap_append

theorem allSamples_runOf (h : Ordered Sample.ts l) (layout : List DownsampleTier) (start stop : ℤ) :
    allSamples (runOf layout start stop l) = windowCopy l start stop := by
  rw [runOf, window_eq_windowCopy h]
  split
  · next hempty => exact (isEmpty_iff.mp hempty).symm
  · exact append_nil _

theorem allSamples_flatMap_runOf {ls : List (List (Sample F))}
    (h : ∀ l ∈ ls, Ordered Sample.ts l) (layout : List DownsampleTier) (start stop : ℤ) :
    allSamples (ls.flatMap (runOf layout start stop)) =
      ls.flatMap fun l => windowCopy l start stop := by
  rw [allSamples, flatMap_assoc]
  exact flatMap_congr fun l hl => allSamples_runOf (h l hl) layout start stop

end Runs

variable {ID F : Type*} [Float64 F] {id : ID} (blocks : Blocks ID F) {b : List (Sample F)}
  {s : ℤ × ℤ} {spans : List (ℤ × ℤ)}

/-! ## Parts with their aggregates -/

/-- The aggregate of each series of a part, from its values without weights. -/
def computeSeriesStats (rows : ID → List (Sample F)) (id : ID) : Option (SeriesAgg F) :=
  if (rows id).isEmpty then none
  else some ((rows id).foldl (fun a x => a.addSample x.val 1) .zero)

/-- A part as the writers leave it: rows in order within its bounds, and, if it has no weights,
maybe the aggregates of its series beside it. -/
structure StatPart (ID F : Type*) [Float64 F] extends Part ID F where
  hasSF : Bool
  stats : Option (ID → Option (SeriesAgg F))
  ordered : ∀ id, Ordered Sample.ts (rows id)
  span : minTime ≤ maxTime
  bounds : ∀ id, ∀ s ∈ rows id, minTime ≤ s.ts ∧ s.ts ≤ maxTime
  indexed : ∀ id, rows id ≠ [] → id ∈ series
  weights : hasSF = false → ∀ id, ∀ s ∈ rows id, s.weight = 1
  sidecar : ∀ m, stats = some m → hasSF = false → m = computeSeriesStats rows

/-- The aggregate kept for a series; none where weights would matter. -/
def StatPart.seriesStat (p : StatPart ID F) (id : ID) : Option (SeriesAgg F) :=
  if p.hasSF then none else p.stats.bind fun m => m id

/-! ## The plan of a read -/

/-- The sources a read found, in its window. -/
structure EnginePlan (ID F : Type*) [Float64 F] where
  ids : List ID
  liveParts : List (StatPart ID F)
  recentB : ID → List (Sample F)
  flushB : ID → List (Sample F)
  headB : ID → List (Sample F)
  start : ℤ
  stop : ℤ
  live : ∀ q ∈ liveParts, start ≤ q.maxTime ∧ q.minTime ≤ stop
  sorted : ∀ m ∈ [recentB, flushB, headB], ∀ id, Ordered Sample.ts (m id)

section Plan

variable [DecidableEq ID]

/-- Snapshot the sources of a read. -/
def planFetch (order : SortFunc F) (parts : List (StatPart ID F)) (recentEnabled : Bool)
    (recentMin : ℤ) (b : Buffers ID F) (ids : List ID) (start stop : ℤ) : EnginePlan ID F where
  ids := ids
  liveParts := (acquired recentEnabled recentMin parts start).filter fun p =>
    !(decide (p.maxTime < start) || decide (stop < p.minTime))
  recentB id :=
    if recentEnabled = true ∧ id ∈ ids then sortedWindow order (b.recent id) start stop else []
  flushB id := if id ∈ ids then sortedWindow order (b.flushing id) start stop else []
  headB id := if id ∈ ids then sortedWindow order (b.head id) start stop else []
  start := start
  stop := stop
  live q hq := by
    have hbounds := (mem_filter.mp hq).2
    simp only [Bool.not_eq_true', Bool.or_eq_false_iff, decide_eq_false_iff_not, not_lt] at hbounds
    exact hbounds
  sorted m hm id := by
    have hsorted : ∀ (c : Prop) [Decidable c] (buf : List (Sample F)),
        Ordered Sample.ts (if c then sortedWindow order buf start stop else []) := by
      intro c _ buf
      split
      · exact ordered_sortedWindow order buf start stop
      · exact .nil
    simp only [mem_cons, not_mem_nil, or_false] at hm
    rcases hm with rfl | rfl | rfl <;> exact hsorted _ _

end Plan

namespace EnginePlan

/-- The in-memory sources. -/
def memSources (p : EnginePlan ID F) : List (ID → List (Sample F)) :=
  [p.recentB, p.flushB, p.headB]

/-- Their batches of a series. -/
def memBatches (p : EnginePlan ID F) (id : ID) : List (List (Sample F)) :=
  p.memSources.map fun m => m id

/-- The runs of a series. -/
def mergeSeries (blocks : Blocks ID F) (p : EnginePlan ID F) (id : ID) : List (Run F) :=
  Metrics.mergeSeries blocks (p.liveParts.map StatPart.toPart) (p.memBatches id) id p.start p.stop

/-- What a fetch returns for a series. -/
def fetch (blocks : Blocks ID F) (p : EnginePlan ID F) (id : ID) : List (Sample F) :=
  collect (p.mergeSeries blocks id)

/-- A span with one more in it. -/
def widen (acc : Option (ℤ × ℤ)) (s : ℤ × ℤ) : Option (ℤ × ℤ) :=
  match acc with
  | none => some s
  | some (lo, hi) => some (lo ⊓ s.1, hi ⊔ s.2)

/-- The least and the greatest timestamp of an in-memory source. -/
def batchMapSpan (p : EnginePlan ID F) (m : ID → List (Sample F)) : Option (ℤ × ℤ) :=
  (p.ids.flatMap m).foldl (fun acc x => widen acc (x.ts, x.ts)) none

/-- One span for each in-memory source that is not empty. -/
def planMemSpans (p : EnginePlan ID F) : List (ℤ × ℤ) := p.memSources.filterMap p.batchMapSpan

/-- The least span around some. -/
def hull (spans : List (ℤ × ℤ)) : Option (ℤ × ℤ) := spans.foldl widen none

/-- What the sources can contribute to the window. -/
def planDataSpan (p : EnginePlan ID F) : Option (ℤ × ℤ) :=
  match hull (p.liveParts.map (fun q => (q.minTime, q.maxTime)) ++ p.planMemSpans) with
  | none => none
  | some (lo, hi) =>
    if lo ⊔ p.start ≤ hi ⊓ p.stop then some (lo ⊔ p.start, hi ⊓ p.stop) else none

end EnginePlan

/-! ## Skipping the merge -/

/-- Why an aggregate does or does not fold the kept aggregates. -/
inductive PushdownReason
  | ok
  | partialCoverage
  | overlappingParts
  deriving DecidableEq

/-- A span starts before the one before it has ended. -/
def overlapping : List (ℤ × ℤ) → Bool
  | [] => false
  | [_] => false
  | a :: b :: rest => decide (b.1 ≤ a.2) || overlapping (b :: rest)

/-- Whether the sources may be folded one by one: the parts lie inside the window, and no two
sources overlap in time. -/
def aggPushdownCheck (p : EnginePlan ID F) : PushdownReason :=
  if p.liveParts.any fun q => decide (q.minTime < p.start) || decide (p.stop < q.maxTime) then
    .partialCoverage
  else
    let spans := p.liveParts.map (fun q => (q.minTime, q.maxTime)) ++ p.planMemSpans
    if overlapping (spans.insertionSort fun a b => a.1 ≤ b.1) then .overlappingParts else .ok

/-- Fold the rows in a window. -/
def foldRange (agg : SeriesAgg F) (rows : List (Sample F)) (start stop : ℤ) : SeriesAgg F :=
  rows.foldl (fun agg x =>
    if x.ts < start ∨ stop < x.ts then agg else agg.addSample x.val x.weight) agg

section Reads

variable [DecidableEq ID]

/-- A part gives the aggregate it keeps of a series, or its rows. -/
def statPart (p : EnginePlan ID F) (id : ID) (agg : SeriesAgg F) (q : StatPart ID F) :
    SeriesAgg F :=
  if id ∈ q.series then
    match q.seriesStat id with
    | some st => agg.merge st
    | none => foldRange agg (q.rows id) p.start p.stop
  else agg

/-- Fold the sources one by one. -/
def aggViaStats (p : EnginePlan ID F) (id : ID) : SeriesAgg F :=
  (p.memBatches id).foldl (fun agg b => foldRange agg b p.start p.stop)
    (p.liveParts.foldl (statPart p id) .zero)

/-- Fold what a fetch returns. -/
def aggViaDecode (blocks : Blocks ID F) (p : EnginePlan ID F) (id : ID) : SeriesAgg F :=
  (p.fetch blocks id).foldl (fun a x => a.addSample x.val x.weight) .zero

/-- The aggregate of a series over the window; none if it has no row there. -/
def aggregateRange (blocks : Blocks ID F) (p : EnginePlan ID F) (id : ID) : Option (SeriesAgg F) :=
  if id ∈ p.ids then
    let agg := if aggPushdownCheck p = .ok then aggViaStats p id else aggViaDecode blocks p id
    if 0 < agg.rows then some agg else none
  else none

/-- Add the rows in a window to the grid. -/
def addRange (g : StepGrid F) (rows : List (Sample F)) (start stop : ℤ) : StepGrid F :=
  rows.foldl (fun g x => if start ≤ x.ts ∧ x.ts ≤ stop then g.addSample x else g) g

/-- A part inside one bucket gives its kept aggregate, another its rows. -/
def bucketPart (p : EnginePlan ID F) (id : ID) (g : StepGrid F) (q : StatPart ID F) : StepGrid F :=
  if id ∈ q.series then
    let st := if g.bucketOf q.minTime = g.bucketOf q.maxTime then q.seriesStat id else none
    match st with
    | some st => g.mergeStat q.minTime st
    | none => addRange g (q.rows id) p.start p.stop
  else g

/-- Put the rows of a series into the grid, source by source or merged. -/
def bucketSeries (blocks : Blocks ID F) (p : EnginePlan ID F) (g : StepGrid F) (id : ID) :
    StepGrid F :=
  if aggPushdownCheck p = .ok then
    (p.memBatches id).foldl (fun g b => addRange g b p.start p.stop)
      (p.liveParts.foldl (bucketPart p id) g)
  else (p.fetch blocks id).foldl StepGrid.addSample g

/-- The buckets of every series, one after another on one grid; none if making the grid panics. -/
def aggregateStep (blocks : Blocks ID F) (p : EnginePlan ID F) (step : ℤ) :
    Option (ID → List (ℤ × SeriesAgg F)) :=
  (newStepGrid p.planDataSpan step).map fun g =>
    (p.ids.foldl (fun (st : StepGrid F × (ID → List (ℤ × SeriesAgg F))) id =>
      let (buckets, g) := (bucketSeries blocks p st.1 id).collect
      (g, if buckets.isEmpty then st.2 else update st.2 id buckets)) (g, fun _ => [])).2

end Reads

/-! ## The rows of a series -/

/-- The rows of a series in the window, source by source. -/
def EnginePlan.rowsIn (p : EnginePlan ID F) (id : ID) : List (Sample F) :=
  p.liveParts.flatMap (fun q => windowCopy (q.rows id) p.start p.stop) ++
    (p.memBatches id).flatMap fun b => windowCopy b p.start p.stop

theorem StatPart.ordered_of_mem_cut (q : StatPart ID F) (hb : b ∈ blocks.cut q.toPart id) :
    Ordered Sample.ts b := by
  have hord := q.ordered id
  rw [← blocks.flatten q.toPart id] at hord
  exact hord.sublist (sublist_flatten_of_mem hb)

variable (p : EnginePlan ID F) {q : StatPart ID F}

theorem EnginePlan.ordered_of_mem_memBatches (hb : b ∈ p.memBatches id) : Ordered Sample.ts b := by
  obtain ⟨m, hm, rfl⟩ := mem_map.mp hb
  exact p.sorted m hm id

theorem EnginePlan.windowParts_eq :
    windowParts (p.liveParts.map StatPart.toPart) p.start p.stop =
      p.liveParts.map StatPart.toPart := by
  refine filter_eq_self.mpr fun q' hq' => ?_
  obtain ⟨q, hq, rfl⟩ := mem_map.mp hq'
  obtain ⟨hstart, hstop⟩ := p.live q hq
  simp only [Bool.not_eq_true', Bool.or_eq_false_iff, decide_eq_false_iff_not, not_lt]
  exact ⟨hstart, hstop⟩

/-- **The runs of a series hold its rows in the window, source by source.** -/
theorem EnginePlan.allSamples_mergeSeries (id : ID) :
    allSamples (p.mergeSeries blocks id) = p.rowsIn id := by
  rw [EnginePlan.mergeSeries, mergeSeries_eq, allSamples_append, partRuns,
    p.windowParts_eq, memRuns,
    EnginePlan.rowsIn]
  congr 1
  · rw [allSamples, flatMap_assoc, flatMap_map]
    refine flatMap_congr fun q hq => ?_
    have hcut : allSamples ((blocks.cut q.toPart id).flatMap (runOf q.layout p.start p.stop)) = _ :=
      allSamples_flatMap_runOf (fun b hb => q.ordered_of_mem_cut blocks hb) _ _ _
    refine hcut.trans ?_
    rw [windowCopy, ← blocks.flatten q.toPart id, filter_flatten, ← flatMap_def]
    rfl
  · exact allSamples_flatMap_runOf (fun b hb => p.ordered_of_mem_memBatches hb) _ _ _

theorem EnginePlan.ordered_of_mem_mergeSeries {r : Run F} (hr : r ∈ p.mergeSeries blocks id) :
    Ordered Sample.ts r.samples := by
  rw [EnginePlan.mergeSeries, mergeSeries_eq] at hr
  have hrun : ∀ {layout : List DownsampleTier} {l : List (Sample F)}, Ordered Sample.ts l →
      r ∈ runOf layout p.start p.stop l → Ordered Sample.ts r.samples := by
    intro layout l hl hr
    obtain ⟨rfl, -⟩ := mem_runOf hr
    exact hl.sublist (window_sublist hl p.start p.stop)
  rcases mem_append.mp hr with hr | hr
  · obtain ⟨q', hq', hr⟩ := mem_flatMap.mp hr
    obtain ⟨q, -, rfl⟩ := mem_map.mp (mem_of_mem_filter hq')
    obtain ⟨b, hb, hr⟩ := mem_flatMap.mp hr
    exact hrun (q.ordered_of_mem_cut blocks hb) hr
  · obtain ⟨b, hb, hr⟩ := mem_flatMap.mp hr
    exact hrun (p.ordered_of_mem_memBatches hb) hr

/-! ## Folding source by source -/

theorem foldRange_eq (agg : SeriesAgg F) (rows : List (Sample F)) (start stop : ℤ) :
    foldRange agg rows start stop = agg.addSamples (windowCopy rows start stop) := by
  rw [foldRange, SeriesAgg.addSamples, windowCopy, foldl_filter]
  simp only [decide_eq_true_eq, ← not_lt, ← not_or, ite_not]

theorem StatPart.seriesStat_eq {st : SeriesAgg F} (h : q.seriesStat id = some st) :
    st = .of (q.rows id) ∧ q.rows id ≠ [] := by
  rw [StatPart.seriesStat] at h
  split at h
  · cases h
  next hsf =>
  have hsf' : q.hasSF = false := Bool.eq_false_iff.mpr hsf
  obtain ⟨m, hm, hst⟩ := Option.bind_eq_some_iff.mp h
  rw [q.sidecar m hm hsf', computeSeriesStats] at hst
  split at hst
  · cases hst
  next hne =>
  refine ⟨?_, fun hnil => hne (by rw [hnil]; rfl)⟩
  rw [← Option.some.inj hst, SeriesAgg.of, SeriesAgg.addSamples]
  refine foldl_ext _ _ _ fun a x hx => ?_
  rw [q.weights hsf' id x hx]

theorem StatPart.windowCopy_rows {start stop : ℤ} (hstart : start ≤ q.minTime)
    (hstop : q.maxTime ≤ stop) (id : ID) : windowCopy (q.rows id) start stop = q.rows id := by
  refine filter_eq_self.mpr fun s hs => decide_eq_true ?_
  obtain ⟨hmin, hmax⟩ := q.bounds id s hs
  exact ⟨hstart.trans hmin, hmax.trans hstop⟩

variable {p}

theorem covered_of_pushdown (h : aggPushdownCheck p = .ok) (hq : q ∈ p.liveParts) :
    p.start ≤ q.minTime ∧ q.maxTime ≤ p.stop := by
  rw [aggPushdownCheck] at h
  split at h
  · cases h
  next hany =>
  rw [Bool.not_eq_true, any_eq_false] at hany
  have := hany q hq
  simp only [Bool.or_eq_true, decide_eq_true_eq, not_or, not_lt] at this
  exact this

theorem mem_rowsIn_of_pushdown (h : aggPushdownCheck p = .ok) (hq : q ∈ p.liveParts)
    {x : Sample F} (hx : x ∈ q.rows id) : x ∈ p.rowsIn id := by
  obtain ⟨hstart, hstop⟩ := covered_of_pushdown h hq
  refine mem_append_left _ (mem_flatMap.mpr ⟨q, hq, ?_⟩)
  rwa [q.windowCopy_rows hstart hstop]

theorem noNaN_rows (h : aggPushdownCheck p = .ok) (hnan : NoNaN (p.rowsIn id))
    (hq : q ∈ p.liveParts) : NoNaN (q.rows id) :=
  fun x hx => hnan x (mem_rowsIn_of_pushdown h hq hx)

section Folds

variable [DecidableEq ID] [Float64.Exact F]

theorem statPart_of (h : aggPushdownCheck p = .ok) (hnan : NoNaN (p.rowsIn id))
    (hq : q ∈ p.liveParts) (xs : List (Sample F)) :
    statPart p id (.of xs) q = .of (xs ++ windowCopy (q.rows id) p.start p.stop) := by
  obtain ⟨hstart, hstop⟩ := covered_of_pushdown h hq
  rw [statPart, q.windowCopy_rows hstart hstop, SeriesAgg.of_append]
  by_cases hmem : id ∈ q.series
  · rw [if_pos hmem]
    cases hst : q.seriesStat id with
    | some st =>
      rw [(StatPart.seriesStat_eq hst).1]
      refine SeriesAgg.merge_of _ (fun h0 => ?_) (noNaN_rows h hnan hq)
      rw [SeriesAgg.rows_of, length_eq_zero_iff] at h0
      rw [h0]
      rfl
    | none =>
      show foldRange _ _ _ _ = _
      rw [foldRange_eq, q.windowCopy_rows hstart hstop]
  · have hnil : q.rows id = [] := by
      by_contra hne
      exact hmem (q.indexed id hne)
    rw [if_neg hmem, hnil]
    rfl

/-- **Folded source by source, the aggregate is that of all rows.** -/
theorem aggViaStats_eq (h : aggPushdownCheck p = .ok) (hnan : NoNaN (p.rowsIn id)) :
    aggViaStats p id = .of (p.rowsIn id) := by
  have hzero : (.zero : SeriesAgg F) = .of [] := rfl
  have hparts := foldl_appends (P := fun agg xs => agg = SeriesAgg.of xs) p.liveParts
    (fun q hq agg xs hagg => hagg ▸ statPart_of h hnan hq xs) hzero
  refine foldl_appends (P := fun agg xs => agg = SeriesAgg.of xs) (p.memBatches id)
    (g := fun b => windowCopy b p.start p.stop) (fun b _ agg xs hagg => ?_) hparts
  rw [hagg, foldRange_eq, ← SeriesAgg.of_append]

end Folds

/-! ## Bucketing source by source -/

theorem exists_hull (h : s ∈ spans) :
    ∃ lo hi, EnginePlan.hull spans = some (lo, hi) ∧ lo ≤ s.1 ∧ s.2 ≤ hi := by
  -- a hull only grows, and reaches over what is folded in
  have hgrow : ∀ (l : List (ℤ × ℤ)) (lo hi : ℤ), ∃ lo' hi',
      l.foldl EnginePlan.widen (some (lo, hi)) = some (lo', hi') ∧ lo' ≤ lo ∧ hi ≤ hi' := by
    intro l
    induction l with
    | nil => exact fun lo hi => ⟨lo, hi, rfl, le_rfl, le_rfl⟩
    | cons t l ih =>
      intro lo hi
      obtain ⟨lo', hi', heq, hlo, hhi⟩ := ih (lo ⊓ t.1) (hi ⊔ t.2)
      exact ⟨lo', hi', heq, hlo.trans inf_le_left, le_sup_left.trans hhi⟩
  obtain ⟨pre, post, rfl⟩ := append_of_mem h
  rw [EnginePlan.hull, foldl_append, foldl_cons]
  cases pre.foldl EnginePlan.widen none with
  | none =>
    obtain ⟨lo, hi, heq, hlo, hhi⟩ := hgrow post s.1 s.2
    exact ⟨lo, hi, heq, hlo, hhi⟩
  | some a =>
    obtain ⟨lo, hi, heq, hlo, hhi⟩ := hgrow post (a.1 ⊓ s.1) (a.2 ⊔ s.2)
    exact ⟨lo, hi, heq, hlo.trans inf_le_right, le_sup_right.trans hhi⟩

namespace EnginePlan

theorem mem_planDataSpan {ts : ℤ}
    (hs : s ∈ p.liveParts.map (fun q => (q.minTime, q.maxTime)) ++ p.planMemSpans)
    (hlo : s.1 ≤ ts) (hhi : ts ≤ s.2) (hstart : p.start ≤ ts) (hstop : ts ≤ p.stop) :
    ts ∈ inSpan p.planDataSpan := by
  obtain ⟨lo, hi, heq, hslo, hshi⟩ := exists_hull hs
  have hlo' : lo ⊔ p.start ≤ ts := sup_le (hslo.trans hlo) hstart
  have hhi' : ts ≤ hi ⊓ p.stop := le_inf (hhi.trans hshi) hstop
  simp only [planDataSpan, heq, if_pos (hlo'.trans hhi')]
  exact ⟨hlo', hhi'⟩

theorem planDataSpan_le (hs : s ∈ p.planDataSpan) : s.1 ≤ s.2 := by
  rw [planDataSpan] at hs
  split at hs
  · cases hs
  · split at hs
    · next hle => exact Option.some.inj hs ▸ hle
    · cases hs

variable {m : ID → List (Sample F)} {x : Sample F}

theorem exists_batchMapSpan (hid : id ∈ p.ids) (hx : x ∈ m id) :
    ∃ s, p.batchMapSpan m = some s ∧ s.1 ≤ x.ts ∧ x.ts ≤ s.2 := by
  have heq : p.batchMapSpan m = hull ((p.ids.flatMap m).map fun x => (x.ts, x.ts)) := by
    rw [batchMapSpan, hull, foldl_map]
  have hmem : (x.ts, x.ts) ∈ (p.ids.flatMap m).map fun x => (x.ts, x.ts) :=
    mem_map_of_mem (f := fun x : Sample F => (x.ts, x.ts)) (mem_flatMap.mpr ⟨id, hid, hx⟩)
  obtain ⟨lo, hi, hhull, hlo, hhi⟩ := exists_hull hmem
  exact ⟨(lo, hi), heq.trans hhull, hlo, hhi⟩

/-- **Every row of the window is in the span of the data.** -/
theorem ts_mem_of_mem_rowsIn (hid : id ∈ p.ids)
    (hx : x ∈ p.rowsIn id) : x.ts ∈ inSpan p.planDataSpan := by
  rcases mem_append.mp hx with hx | hx
  · obtain ⟨q, hq, hx⟩ := mem_flatMap.mp hx
    obtain ⟨hx, hstart, hstop⟩ := mem_windowCopy.mp hx
    obtain ⟨hmin, hmax⟩ := q.bounds id x hx
    exact mem_planDataSpan (s := (q.minTime, q.maxTime))
      (mem_append_left _ (mem_map_of_mem hq)) hmin hmax hstart hstop
  obtain ⟨b, hb, hx⟩ := mem_flatMap.mp hx
  obtain ⟨m, hm, rfl⟩ := mem_map.mp hb
  obtain ⟨hx, hstart, hstop⟩ := mem_windowCopy.mp hx
  obtain ⟨s, hs, hlo, hhi⟩ := exists_batchMapSpan hid hx
  exact mem_planDataSpan (mem_append_right _ (mem_filterMap.mpr ⟨m, hm, hs⟩)) hlo hhi hstart hstop

end EnginePlan

theorem addRange_eq (g : StepGrid F) (rows : List (Sample F)) (start stop : ℤ) :
    addRange g rows start stop = (windowCopy rows start stop).foldl StepGrid.addSample g := by
  rw [addRange, windowCopy, foldl_filter]
  simp only [decide_eq_true_eq]

section Buckets

variable [DecidableEq ID] {g : StepGrid F} {step : ℤ} {S : Set ℤ} {xs : List (Sample F)}

theorem bucketSeries_induction (blocks : Blocks ID F) {P : StepGrid F → Prop}
    (hput : ∀ g ts f, P g → P (g.put ts f)) (h : P g) :
    P (bucketSeries blocks p g id) := by
  have hadd : ∀ (g : StepGrid F) (xs : List (Sample F)), P g → P (xs.foldl StepGrid.addSample g) :=
    fun g xs hg => List.foldlRecOn xs _ hg fun g hg x _ => hput g x.ts _ hg
  have hrange : ∀ (g : StepGrid F) (b : List (Sample F)), P g →
      P (addRange g b p.start p.stop) := by
    intro g b hg
    rw [addRange_eq]
    exact hadd g _ hg
  rw [bucketSeries]
  split
  · refine List.foldlRecOn _ _ (List.foldlRecOn _ _ h fun g hg q _ => ?_) fun g hg b _ =>
      hrange g b hg
    rw [bucketPart]
    split
    · dsimp only
      split
      · rw [StepGrid.mergeStat]
        split
        · exact hg
        · exact hput g _ _ hg
      · exact hrange g _ hg
    · exact hg
  · exact hadd g _ h

/-- **Reading a series back leaves the grid as it was.** -/
theorem collect_bucketSeries_snd (blocks : Blocks ID F) (h : g.emptied = g) :
    (bucketSeries blocks p g id).collect.2 = g := by
  obtain ⟨hclean, hempty⟩ := bucketSeries_induction blocks
    (P := fun g' => g'.Clean ∧ g'.emptied = g) (fun g' ts f hg' => ⟨hg'.1.put ts f,
      (g'.emptied_put ts f).trans hg'.2⟩) ⟨StepGrid.clean_of_emptied h, h⟩
  exact hclean.collect.trans hempty

variable [Float64.Exact F]

theorem holds_bucketPart (h : g.Holds step S xs)
    (hstart : p.start ≤ q.minTime) (hstop : q.maxTime ≤ p.stop) (hmin : q.minTime ∈ S)
    (hmax : q.maxTime ∈ S) (hrows : ∀ x ∈ q.rows id, x.ts ∈ S) (hnan : NoNaN (q.rows id)) :
    (bucketPart p id g q).Holds step S (xs ++ q.rows id) := by
  rw [bucketPart]
  by_cases hmem : id ∈ q.series
  · rw [if_pos hmem]
    dsimp only
    cases hst : (if g.bucketOf q.minTime = g.bucketOf q.maxTime then q.seriesStat id else none) with
    | none =>
      rw [addRange_eq, q.windowCopy_rows hstart hstop]
      exact h.addSamples hrows
    | some st =>
      obtain ⟨hsame, hst⟩ : g.bucketOf q.minTime = g.bucketOf q.maxTime ∧
          q.seriesStat id = some st := by
        split at hst
        · next hsame => exact ⟨hsame, hst⟩
        · cases hst
      obtain ⟨rfl, -⟩ := StatPart.seriesStat_eq hst
      -- every row is in the bucket of the part's first timestamp
      have hrow : ∀ x ∈ q.rows id, g.slot x.ts = g.slot q.minTime := by
        intro x hx
        obtain ⟨hlo, hhi⟩ := q.bounds id x hx
        refine StepGrid.slot_congr (le_antisymm ?_ ?_)
        · rw [hsame, h.fits.bucket _ (hrows x hx), h.fits.bucket _ hmax]
          exact gridStart_mono step hhi
        · rw [h.fits.bucket _ hmin, h.fits.bucket _ (hrows x hx)]
          exact gridStart_mono step hlo
      obtain ⟨k, hk, -⟩ := h.fits.start _ hmin
      exact h.mergeStat hnan hk fun y hy => ⟨hrows y hy, (hrow y hy).trans hk⟩
  · have hnil : q.rows id = [] := by
      by_contra hne
      exact hmem (q.indexed id hne)
    rw [if_neg hmem, hnil, append_nil]
    exact h

/-- **Bucketed source by source, the grid holds all rows.** -/
theorem holds_bucketSeries (hok : aggPushdownCheck p = .ok) (blocks : Blocks ID F)
    (hid : id ∈ p.ids) (hnan : NoNaN (p.rowsIn id)) (h : g.Holds step (inSpan p.planDataSpan) []) :
    (bucketSeries blocks p g id).Holds step (inSpan p.planDataSpan) (p.rowsIn id) := by
  rw [bucketSeries, if_pos hok]
  refine foldl_appends (P := (StepGrid.Holds · step (inSpan p.planDataSpan))) (p.memBatches id)
    (g := fun b => windowCopy b p.start p.stop) (fun b hb g xs hg => ?_)
    (foldl_appends (P := (StepGrid.Holds · step (inSpan p.planDataSpan))) p.liveParts
      (g := fun q => windowCopy (q.rows id) p.start p.stop) (fun q hq g xs hg => ?_) h)
  · rw [addRange_eq]
    refine hg.addSamples fun x hx => p.ts_mem_of_mem_rowsIn hid ?_
    exact mem_append_right _ (mem_flatMap.mpr ⟨b, hb, hx⟩)
  · obtain ⟨hstart, hstop⟩ := covered_of_pushdown hok hq
    have hspan {ts : ℤ} : q.minTime ≤ ts → ts ≤ q.maxTime → ts ∈ inSpan p.planDataSpan :=
      fun hlo hhi => EnginePlan.mem_planDataSpan (s := (q.minTime, q.maxTime))
        (mem_append_left _ (mem_map_of_mem hq)) hlo hhi (hstart.trans hlo) (hhi.trans hstop)
    rw [q.windowCopy_rows hstart hstop]
    refine holds_bucketPart hg hstart hstop (hspan le_rfl q.span) (hspan q.span le_rfl)
      (fun x hx => ?_) (noNaN_rows hok hnan hq)
    exact p.ts_mem_of_mem_rowsIn hid (mem_rowsIn_of_pushdown hok hq hx)

/-- What the grid holds of a series: all its rows where the merge is skipped, else what a fetch
returns. -/
def EnginePlan.folded (blocks : Blocks ID F) (p : EnginePlan ID F) (id : ID) : List (Sample F) :=
  if aggPushdownCheck p = .ok then p.rowsIn id else p.fetch blocks id

variable (hnan : aggPushdownCheck p = .ok → NoNaN (p.rowsIn id))

include hnan

/-- **The buckets read back for a series.** -/
theorem collect_bucketSeries_fst (hid : id ∈ p.ids) (h : g.Holds step (inSpan p.planDataSpan) []) :
    (bucketSeries blocks p g id).collect.1 = bucketsOf step (p.folded blocks id) := by
  refine StepGrid.Holds.collect (S := inSpan p.planDataSpan) ?_
  rw [EnginePlan.folded]
  by_cases hok : aggPushdownCheck p = .ok
  · rw [if_pos hok]
    exact holds_bucketSeries hok blocks hid (hnan hok) h
  · rw [if_neg hok, bucketSeries, if_neg hok]
    refine h.addSamples fun x hx => ?_
    obtain ⟨y, hy, hyx⟩ := exists_of_mem_collect
      (fun r hr => p.ordered_of_mem_mergeSeries blocks hr) hx
    rw [p.allSamples_mergeSeries] at hy
    rw [← hyx]
    exact p.ts_mem_of_mem_rowsIn hid hy

theorem aggregateStep_eq (hid : id ∈ p.ids) (hfit : SpanFits p.planDataSpan step) :
    (aggregateStep blocks p step).map (· id) = some (bucketsOf step (p.folded blocks id)) := by
  obtain ⟨g, hg, hholds, hempty⟩ := exists_newStepGrid (F := F) hfit fun s hs =>
    EnginePlan.planDataSpan_le hs
  have hfst := collect_bucketSeries_fst blocks hnan hid hholds
  -- the grid is new before each series, and every series done so far has its buckets
  have hloop : ∀ (ids : List ID) (out : ID → List (ℤ × SeriesAgg F)),
      (ids.foldl (fun (st : StepGrid F × (ID → List (ℤ × SeriesAgg F))) id =>
        let (buckets, g) := (bucketSeries blocks p st.1 id).collect
        (g, if buckets.isEmpty then st.2 else update st.2 id buckets)) (g, out)).2 id =
      if id ∈ ids ∧ bucketsOf step (p.folded blocks id) ≠ [] then
        bucketsOf step (p.folded blocks id) else out id := by
    intro ids
    induction ids with
    | nil => exact fun out => (if_neg fun h => absurd h.1 not_mem_nil).symm
    | cons i ids ih =>
      intro out
      rw [foldl_cons]
      dsimp only
      rw [collect_bucketSeries_snd blocks hempty, ih]
      by_cases hi : id = i
      · subst hi
        rw [hfst]
        by_cases hne : bucketsOf step (p.folded blocks id) = []
        · simp [hne]
        · simp [hne]
      · have hother : (if ((bucketSeries blocks p g i).collect.1).isEmpty then out
            else update out i (bucketSeries blocks p g i).collect.1) id = out id := by
          split
          · rfl
          · exact update_of_ne hi _ _
        rw [hother]
        simp only [mem_cons, hi, false_or]
  rw [aggregateStep, hg, Option.map_some, Option.map_some, hloop]
  split
  · rfl
  · next h =>
    by_contra hne
    exact h ⟨hid, fun hnil => hne (by rw [hnil])⟩

theorem aggregateRange_eq (hid : id ∈ p.ids) :
    aggregateRange blocks p id =
      if p.folded blocks id = [] then none else some (.of (p.folded blocks id)) := by
  have hagg : (if aggPushdownCheck p = .ok then aggViaStats p id else aggViaDecode blocks p id) =
      .of (p.folded blocks id) := by
    rw [EnginePlan.folded]
    by_cases hok : aggPushdownCheck p = .ok
    · rw [if_pos hok, if_pos hok, aggViaStats_eq hok (hnan hok)]
    · rw [if_neg hok, if_neg hok]
      rfl
  rw [aggregateRange, if_pos hid]
  dsimp only
  rw [hagg, SeriesAgg.rows_of]
  by_cases hnil : p.folded blocks id = []
  · rw [hnil, if_pos rfl]
    rfl
  · rw [if_neg hnil, if_pos (length_pos_iff.mpr hnil)]

end Buckets

/-! ## What the check is for -/

/-- One span lies before the other. -/
def SpansApart (a b : ℤ × ℤ) : Prop := a.2 < b.1 ∨ b.2 < a.1

theorem pairwise_of_not_overlapping (h : overlapping spans = false) (hne : ∀ s ∈ spans, s.1 ≤ s.2) :
    spans.Pairwise fun a b => a.2 < b.1 := by
  induction spans with
  | nil => exact .nil
  | cons a spans ih =>
    cases spans with
    | nil => exact pairwise_singleton _ _
    | cons b spans =>
      rw [overlapping, Bool.or_eq_false_iff, decide_eq_false_iff_not, not_le] at h
      have hrest := ih h.2 fun s hs => hne s (mem_cons_of_mem a hs)
      refine pairwise_cons.mpr ⟨fun c hc => ?_, hrest⟩
      rcases mem_cons.mp hc with rfl | hc
      · exact h.1
      · have hb := hne b (mem_cons_of_mem a mem_cons_self)
        exact h.1.trans (hb.trans_lt ((pairwise_cons.mp hrest).1 c hc))

/-- The sources of a series: the span the check saw, and the runs. -/
def EnginePlan.sources (blocks : Blocks ID F) (p : EnginePlan ID F) (id : ID) :
    List ((ℤ × ℤ) × List (Run F)) :=
  p.liveParts.map (fun q => ((q.minTime, q.maxTime),
    (blocks.cut q.toPart id).flatMap (runOf q.layout p.start p.stop))) ++
  p.memSources.filterMap fun m => (p.batchMapSpan m).map fun s =>
    (s, runOf [] p.start p.stop (m id))

theorem EnginePlan.batchMapSpan_le {m : ID → List (Sample F)} (h : p.batchMapSpan m = some s) :
    s.1 ≤ s.2 := by
  have hfold : ∀ a ∈ p.batchMapSpan m, a.1 ≤ a.2 := by
    refine List.foldlRecOn (motive := fun acc : Option (ℤ × ℤ) => ∀ a ∈ acc, a.1 ≤ a.2) _ _
      (by simp) fun acc _ x _ a ha => ?_
    cases acc with
    | none => rw [← Option.some.inj ha]
    | some b =>
      rw [← Option.some.inj ha]
      exact inf_le_right.trans le_sup_right
  exact hfold s h

theorem EnginePlan.mergeSeries_eq_sources (p : EnginePlan ID F) (hid : id ∈ p.ids) :
    p.mergeSeries blocks id = (p.sources blocks id).flatMap Prod.snd := by
  rw [EnginePlan.mergeSeries, mergeSeries_eq, partRuns, p.windowParts_eq, memRuns,
    EnginePlan.sources, flatMap_append, flatMap_map, flatMap_map,
    EnginePlan.memBatches, flatMap_map]
  congr 1
  induction p.memSources with
  | nil => rfl
  | cons m ms ih =>
    rw [flatMap_cons, filterMap_cons, ih]
    cases hspan : p.batchMapSpan m with
    | some s => rfl
    | none =>
      have hnil : m id = [] := by
        by_contra hne
        obtain ⟨x, hx⟩ := exists_mem_of_ne_nil _ hne
        obtain ⟨s, hs, -⟩ := p.exists_batchMapSpan hid hx
        cases hspan.symm.trans hs
      rw [hnil, Option.map_none, runOf, window_eq_windowCopy .nil]
      rfl

/-- **Where the check passes, samples of different sources are apart.** -/
theorem apart_of_pushdown (h : aggPushdownCheck p = .ok) (hid : id ∈ p.ids) :
    (p.sources blocks id).Pairwise fun a b => ∀ r ∈ a.2, ∀ r' ∈ b.2, Apart r r' := by
  have hspans : (p.sources blocks id).map Prod.fst =
      p.liveParts.map (fun q => (q.minTime, q.maxTime)) ++ p.planMemSpans := by
    rw [EnginePlan.sources, map_append, map_map, map_filterMap, EnginePlan.planMemSpans]
    congr 1
    exact filterMap_congr fun m _ => by rw [Option.map_map]; exact Option.map_id'
  -- the spans are apart, whatever their order
  have hapart : ((p.sources blocks id).map Prod.fst).Pairwise SpansApart := by
    rw [hspans]
    rw [aggPushdownCheck] at h
    split at h
    · cases h
    dsimp only at h
    split at h
    · cases h
    next hover =>
      have hperm := perm_insertionSort (fun a b : ℤ × ℤ => a.1 ≤ b.1)
        (p.liveParts.map (fun q => (q.minTime, q.maxTime)) ++ p.planMemSpans)
      refine (hperm.pairwise_iff fun hab => Or.symm hab).mp ?_
      refine (pairwise_of_not_overlapping (Bool.eq_false_iff.mpr hover) fun s hs => ?_).imp .inl
      rcases mem_append.mp (hperm.subset hs) with hs | hs
      · obtain ⟨q, -, rfl⟩ := mem_map.mp hs
        exact q.span
      · obtain ⟨m, -, hm⟩ := mem_filterMap.mp hs
        exact p.batchMapSpan_le hm
  -- every sample lies in the span of its source
  have hin : ∀ a ∈ p.sources blocks id, ∀ r ∈ a.2, ∀ s ∈ r.samples, a.1.1 ≤ s.ts ∧
      s.ts ≤ a.1.2 := by
    intro a ha r hr s hs
    rcases mem_append.mp ha with ha | ha
    · obtain ⟨q, -, rfl⟩ := mem_map.mp ha
      obtain ⟨b, hb, hr⟩ := mem_flatMap.mp hr
      have hord := q.ordered_of_mem_cut blocks hb
      obtain ⟨rfl, -⟩ := mem_runOf hr
      refine q.bounds id s ?_
      rw [← blocks.flatten q.toPart id]
      exact mem_flatten.mpr ⟨b, hb, (window_sublist hord _ _).mem hs⟩
    obtain ⟨m, hm, ha⟩ := mem_filterMap.mp ha
    obtain ⟨sp, hsp, rfl⟩ := Option.map_eq_some_iff.mp ha
    obtain ⟨rfl, -⟩ := mem_runOf hr
    obtain ⟨sp', hsp', hlo, hhi⟩ := p.exists_batchMapSpan hid
      ((window_sublist (p.sorted m hm id) _ _).mem hs)
    obtain rfl := Option.some.inj (hsp.symm.trans hsp')
    exact ⟨hlo, hhi⟩
  rw [pairwise_map] at hapart
  refine hapart.imp_of_mem fun {a b} ha hb hab r hr r' hr' s hs s' hs' heq => ?_
  obtain ⟨hlo, hhi⟩ := hin a ha r hr s hs
  obtain ⟨hlo', hhi'⟩ := hin b hb r' hr' s' hs'
  rcases hab with hab | hab <;> omega

/-- The rows of a series repeat in no way the merge would see: no two blocks of a part share a
timestamp, and if the series has a single run, its timestamps increase. -/
structure RepeatsNothing (blocks : Blocks ID F) (p : EnginePlan ID F) (id : ID) : Prop where
  inParts : ∀ q ∈ p.liveParts,
    DisjointRuns ((blocks.cut q.toPart id).flatMap (runOf q.layout p.start p.stop))
  alone : ∀ r, p.mergeSeries blocks id = [r] → Strict Sample.ts r.samples

theorem keepsRows_iff (h : aggPushdownCheck p = .ok) (hid : id ∈ p.ids) :
    KeepsRows (p.mergeSeries blocks id) ↔ RepeatsNothing blocks p id := by
  have hdisjoint : DisjointRuns (p.mergeSeries blocks id) ↔
      ∀ a ∈ p.sources blocks id, DisjointRuns a.2 := by
    rw [p.mergeSeries_eq_sources blocks hid, DisjointRuns, pairwise_flatMap]
    exact ⟨fun hd => hd.1, fun hd => ⟨hd, apart_of_pushdown blocks h hid⟩⟩
  constructor
  · intro hk
    refine ⟨fun q hq => ?_, hk.alone⟩
    exact hdisjoint.mp hk.disjoint ((q.minTime, q.maxTime), _)
      (mem_append_left _ (mem_map.mpr ⟨q, hq, rfl⟩))
  · intro hr
    refine ⟨hdisjoint.mpr fun a ha => ?_, hr.alone⟩
    rcases mem_append.mp ha with ha | ha
    · obtain ⟨q, hq, rfl⟩ := mem_map.mp ha
      exact hr.inParts q hq
    obtain ⟨m, -, ha⟩ := mem_filterMap.mp ha
    obtain ⟨sp, -, rfl⟩ := Option.map_eq_some_iff.mp ha
    show DisjointRuns (runOf [] p.start p.stop (m id))
    rw [runOf]
    split
    · exact .nil
    · exact pairwise_singleton _ _

/-! ## Aggregates and fetches -/

/-- What was folded is as long as what a fetch returns only if the merge was run or repeats nothing;
and then the two are the same up to order. -/
theorem folded_spec (hid : id ∈ p.ids) :
    ((p.folded blocks id).length = (p.fetch blocks id).length →
      aggPushdownCheck p = .ok → RepeatsNothing blocks p id) ∧
    ((aggPushdownCheck p = .ok → RepeatsNothing blocks p id) →
      (p.folded blocks id).Perm (p.fetch blocks id)) := by
  have hord : ∀ r ∈ p.mergeSeries blocks id, Ordered Sample.ts r.samples :=
    fun r hr => p.ordered_of_mem_mergeSeries blocks hr
  rw [EnginePlan.folded]
  by_cases hok : aggPushdownCheck p = .ok
  · rw [if_pos hok, ← keepsRows_iff blocks hok hid, ← p.allSamples_mergeSeries blocks,
      length_allSamples]
    exact ⟨fun hlen _ => (length_collect_eq_iff hord).mp hlen.symm,
      fun hkeeps => (collect_perm hord (hkeeps hok)).symm⟩
  · rw [if_neg hok]
    exact ⟨fun _ hok' => absurd hok' hok, fun _ => .refl _⟩

section Main

variable [DecidableEq ID] [Float64.Exact F]

end Main

/-- A part with one series, its rows without weights and their aggregate. -/
def sealedPart (lo hi : ℤ) (xs : List (Sample F)) (hspan : lo ≤ hi)
    (hord : xs.Pairwise fun a b => a.ts ≤ b.ts)
    (hxs : ∀ s ∈ xs, (lo ≤ s.ts ∧ s.ts ≤ hi) ∧ s.weight = 1) : StatPart ℕ F where
  pref := "0"
  minTime := lo
  maxTime := hi
  layout := []
  series := [1]
  rows id := if id = 1 then xs else []
  hasSF := false
  stats := some (computeSeriesStats fun id => if id = 1 then xs else [])
  ordered id := by
    split
    · exact hord
    · exact .nil
  span := hspan
  bounds id s hs := by
    split at hs
    · exact (hxs s hs).1
    · cases hs
  indexed id hne := by
    split at hne
    · next h => exact h ▸ mem_cons_self
    · exact absurd rfl hne
  weights _ id s hs := by
    split at hs
    · exact (hxs s hs).2
    · cases hs
  sidecar m hm _ := (Option.some.inj hm).symm

/-- A part that starts with a NaN keeps it as its least value, which the aggregate passes over and
the values after it with it. -/
example :
    let q₁ : StatPart ℕ RatNaN := sealedPart 1 1 [⟨1, .of 5, 1⟩] (by decide) (by decide) (by decide)
    let q₂ : StatPart ℕ RatNaN := sealedPart 3 4 [⟨3, none, 1⟩, ⟨4, .of 2, 1⟩] (by decide)
      (by decide) (by decide)
    let p := planFetch (SortFunc.insertion RatNaN) [q₁, q₂] false 0
      ⟨fun _ => [], fun _ => [], fun _ => []⟩ [1] 0 10
    let blocks := Blocks.whole ℕ RatNaN
    (aggregateRange blocks p 1).map SeriesAgg.min = some (.of 5) ∧
      (SeriesAgg.of (p.fetch blocks 1)).min = .of 2 := by
  decide +kernel

end OtelStorage.Metrics
