import OtelStorage.Metrics.Freshest

/-!
# Reading a series

A read of a series gathers its rows from the parts, oldest part first, and then from the in-memory
buffers.  A part is read whole or block by block, and each block is a source of its own.

For raw parts with one row a timestamp, how a part is cut into blocks does not show, and what a read
returns depends only on what the parts hold at each timestamp (`held`, `column_partRuns`).  Two
lists of parts that hold the same give the same reads (`read_congr`).
-/

namespace OtelStorage.Metrics

open Fibers List

variable {ID F : Type*} {l : List (Sample F)} {start stop : ℤ} {r : Run F}

/-- A part: its time bounds, the rollup it records, the series of its index and their rows. -/
structure Part (ID F : Type*) where
  pref : String
  minTime : ℤ
  maxTime : ℤ
  layout : List DownsampleTier
  series : List ID
  rows : ID → List (Sample F)

/-- A part of raw rows, one a timestamp and series, within its bounds. -/
structure Part.Raw (p : Part ID F) : Prop where
  layout : p.layout = []
  strict : ∀ id, Strict Sample.ts (p.rows id)
  bounds : ∀ id, ∀ s ∈ p.rows id, p.minTime ≤ s.ts ∧ s.ts ≤ p.maxTime
  range : ∀ id, ∀ s ∈ p.rows id, minInt64 ≤ s.ts ∧ s.ts ≤ maxInt64
  series : ∀ id, p.rows id ≠ [] → id ∈ p.series

/-- How the parts are read: the rows of a series in a part, cut into blocks. -/
structure Blocks (ID F : Type*) where
  cut : Part ID F → ID → List (List (Sample F))
  flatten : ∀ p id, (cut p id).flatten = p.rows id

/-- Every part read whole. -/
def Blocks.whole (ID F : Type*) : Blocks ID F where
  cut p id := [p.rows id]
  flatten p id := by rw [flatten_cons, flatten_nil, append_nil]

variable (blocks : Blocks ID F) (parts : List (Part ID F)) (id : ID) (mem : List (List (Sample F)))

/-- The parts whose time bounds meet a window. -/
def windowParts (start stop : ℤ) : List (Part ID F) :=
  parts.filter fun p => !(decide (p.maxTime < start) || decide (stop < p.minTime))

/-- The runs of a series: its blocks in the parts, then the in-memory batches. -/
def mergeSeries (mem : List (List (Sample F))) (id : ID) (start stop : ℤ) : List (Run F) :=
  let runs := (windowParts parts start stop).foldl (fun runs p =>
    (blocks.cut p id).foldl (fun runs block => addRun runs block p.layout start stop) runs) []
  mem.foldl (fun runs batch => addRun runs batch [] start stop) runs

/-- The samples a read returns. -/
def read [Float64 F] (mem : List (List (Sample F))) (id : ID) (start stop : ℤ) : List (Sample F) :=
  collect (mergeSeries blocks parts mem id start stop)

/-! ## Runs added one after another -/

/-- The window of a source, as a run if it is not empty. -/
def runOf (layout : List DownsampleTier) (start stop : ℤ) (l : List (Sample F)) : List (Run F) :=
  if (window l start stop).isEmpty then [] else [⟨window l start stop, layout⟩]

theorem addRun_eq (runs : List (Run F)) (l : List (Sample F)) (layout : List DownsampleTier)
    (start stop : ℤ) : addRun runs l layout start stop = runs ++ runOf layout start stop l := by
  rw [addRun, runOf]
  split
  · rw [append_nil]
  · rfl

theorem foldl_addRun (ls : List (List (Sample F))) (runs : List (Run F))
    (layout : List DownsampleTier) (start stop : ℤ) :
    ls.foldl (fun runs l => addRun runs l layout start stop) runs =
      runs ++ ls.flatMap (runOf layout start stop) := by
  simp only [addRun_eq]
  exact foldl_append_eq_append

/-- The runs of the parts. -/
def partRuns (start stop : ℤ) : List (Run F) :=
  (windowParts parts start stop).flatMap fun p =>
    (blocks.cut p id).flatMap (runOf p.layout start stop)

/-- The runs of the in-memory batches. -/
def memRuns (start stop : ℤ) : List (Run F) :=
  mem.flatMap (runOf [] start stop)

theorem mergeSeries_eq (start stop : ℤ) :
    mergeSeries blocks parts mem id start stop =
      partRuns blocks parts id start stop ++ memRuns mem start stop := by
  simp only [mergeSeries, foldl_addRun]
  rw [foldl_append_eq_append, nil_append]
  rfl

/-! ## What sources hold at a timestamp -/

/-- What a source holds at a timestamp of the window. -/
def fiberIn (start stop t : ℤ) (l : List (Sample F)) : List (Sample F) :=
  if start ≤ t ∧ t ≤ stop then fiber Sample.ts t l else []

theorem fiber_window (h : Ordered Sample.ts l) (start stop t : ℤ) :
    fiber Sample.ts t (window l start stop) = fiberIn start stop t l := by
  rw [window_eq_filter h, fiberIn,
    fiber_filter Sample.ts (c := start ≤ t ∧ t ≤ stop) fun s hs => by rw [hs]]
  simp only [decide_eq_true_eq]

theorem column_runOf (h : Ordered Sample.ts l) (layout : List DownsampleTier) (start stop t : ℤ) :
    column t (runOf layout start stop l) = fiberIn start stop t l := by
  rw [runOf, ← fiber_window h]
  split
  · next hempty =>
    rw [isEmpty_iff.mp hempty]
    rfl
  · rw [column_cons]
    rfl

theorem column_flatMap {β : Type*} (f : β → List (Run F)) (l : List β) (t : ℤ) :
    column t (l.flatMap f) = overlayAll (l.map fun b => column t (f b)) := by
  induction l with
  | nil => rfl
  | cons b l ih => rw [flatMap_cons, column_append, ih, map_cons, overlayAll]

/-- What parts hold of a series at a timestamp: the rows of the last part that has it. -/
def held (t : ℤ) : List (Sample F) :=
  overlayAll (parts.map fun p => fiber Sample.ts t (p.rows id))

theorem held_append (qs : List (Part ID F)) (id : ID) (t : ℤ) :
    held (parts ++ qs) id t = overlay (held parts id t) (held qs id t) := by
  rw [held, map_append, overlayAll_append]
  rfl

variable {parts}

theorem length_held_le (h : ∀ p ∈ parts, p.Raw) (id : ID) (t : ℤ) :
    (held parts id t).length ≤ 1 := by
  refine length_overlayAll_le fun m hm => ?_
  obtain ⟨p, hp, rfl⟩ := mem_map.mp hm
  exact ((h p hp).strict id).fiber_length_le t

variable {id} {p : Part ID F}

theorem strict_of_mem_cut
    (h : Strict Sample.ts (p.rows id)) {b : List (Sample F)} (hb : b ∈ blocks.cut p id) :
    Strict Sample.ts b := by
  rw [← blocks.flatten p id] at h
  exact h.sublist (sublist_flatten_of_mem hb)

/-- **How a part is cut into blocks does not show.** -/
theorem overlayAll_cut (h : p.Raw) (id : ID) (start stop t : ℤ) :
    overlayAll ((blocks.cut p id).map (fiberIn start stop t)) =
      fiberIn start stop t (p.rows id) := by
  by_cases hin : start ≤ t ∧ t ≤ stop
  · have hflat : ((blocks.cut p id).map (fiber Sample.ts t)).flatten =
        fiber Sample.ts t (p.rows id) := by
      rw [← blocks.flatten p id, fiber, filter_flatten]
      rfl
    have hfiber : fiberIn (F := F) start stop t = fiber Sample.ts t :=
      funext fun l => by rw [fiberIn, if_pos hin]
    rw [hfiber, overlayAll_eq_flatten, hflat]
    rw [hflat]
    exact (h.strict id).fiber_length_le t
  · have hfiber : fiberIn (F := F) start stop t = fun _ => [] :=
      funext fun l => by rw [fiberIn, if_neg hin]
    rw [hfiber]
    exact overlayAll_eq_nil.mpr fun m hm => (mem_map.mp hm).elim fun _ h => h.2.symm

/-- **What the runs of the parts hold.**  Parts outside the window have nothing in it. -/
theorem column_partRuns (h : ∀ p ∈ parts, p.Raw) (id : ID) (start stop t : ℤ) :
    column t (partRuns blocks parts id start stop) =
      if start ≤ t ∧ t ≤ stop then held parts id t else [] := by
  have hpart : ∀ p ∈ parts,
      column t ((blocks.cut p id).flatMap (runOf p.layout start stop)) =
        fiberIn start stop t (p.rows id) := by
    intro p hp
    rw [column_flatMap, ← overlayAll_cut blocks (h p hp)]
    refine congrArg overlayAll (map_congr_left fun b hb => ?_)
    exact column_runOf (strict_of_mem_cut blocks ((h p hp).strict id) hb).ordered _ _ _ _
  have hwindow : ∀ p ∈ parts,
      (!(decide (p.maxTime < start) || decide (stop < p.minTime))) = false →
      fiberIn start stop t (p.rows id) = [] := by
    intro p hp hout
    rw [fiberIn]
    split
    · next hin =>
      refine fiber_eq_nil Sample.ts fun s hs heq => ?_
      obtain ⟨hmin, hmax⟩ := (h p hp).bounds id s hs
      simp only [Bool.not_eq_false', Bool.or_eq_true, decide_eq_true_eq] at hout
      omega
    · rfl
  rw [partRuns, column_flatMap, windowParts]
  have hmap :
      ((parts.filter fun p => !(decide (p.maxTime < start) || decide (stop < p.minTime))).map
        fun p => column t ((blocks.cut p id).flatMap (runOf p.layout start stop))) =
      (parts.filter fun p => !(decide (p.maxTime < start) || decide (stop < p.minTime))).map
        fun p => fiberIn start stop t (p.rows id) :=
    map_congr_left fun p hp => hpart p (mem_of_mem_filter hp)
  rw [hmap, overlayAll_filter_map _ _ hwindow]
  by_cases hin : start ≤ t ∧ t ≤ stop
  · rw [if_pos hin, held]
    refine congrArg overlayAll (map_congr_left fun p _ => ?_)
    rw [fiberIn, if_pos hin]
  · rw [if_neg hin]
    refine overlayAll_eq_nil.mpr fun m hm => ?_
    obtain ⟨p, -, rfl⟩ := mem_map.mp hm
    rw [fiberIn, if_neg hin]

/-! ## Reads -/

theorem mem_runOf {layout : List DownsampleTier} (h : r ∈ runOf layout start stop l) :
    r = ⟨window l start stop, layout⟩ ∧ window l start stop ≠ [] := by
  rw [runOf] at h
  split at h
  · cases h
  · next hne => exact ⟨mem_singleton.mp h, fun hnil => hne (isEmpty_iff.mpr hnil)⟩

theorem window_sublist (h : Ordered Sample.ts l) (start stop : ℤ) :
    (window l start stop).Sublist l := by
  rw [window_eq_filter h]
  exact filter_sublist

theorem rawRun_of_mem_runOf (h : Ordered Sample.ts l) (hr : r ∈ runOf [] start stop l) :
    RawRun r := by
  obtain ⟨rfl, -⟩ := mem_runOf hr
  exact ⟨h.sublist (window_sublist h start stop), fun _ _ => rfl⟩

variable {mem}

theorem rawRun_of_mem_memRuns (h : ∀ b ∈ mem, Ordered Sample.ts b)
    (hr : r ∈ memRuns mem start stop) : RawRun r := by
  obtain ⟨b, hb, hr⟩ := mem_flatMap.mp hr
  exact rawRun_of_mem_runOf (h b hb) hr

theorem strictRun_of_mem_partRuns
    (h : ∀ p ∈ parts, p.Raw) (hr : r ∈ partRuns blocks parts id start stop) :
    StrictRun r ∧ r.samples ≠ [] := by
  obtain ⟨p, hp, hr⟩ := mem_flatMap.mp hr
  obtain ⟨b, hb, hr⟩ := mem_flatMap.mp hr
  have hraw := h p (mem_of_mem_filter hp)
  have hstrict := strict_of_mem_cut blocks (hraw.strict id) hb
  rw [hraw.layout] at hr
  have hrun := rawRun_of_mem_runOf hstrict.ordered hr
  obtain ⟨rfl, hne⟩ := mem_runOf hr
  exact ⟨⟨hrun, hstrict.sublist (window_sublist hstrict.ordered start stop)⟩, hne⟩

theorem partRuns_eq_nil_iff (h : ∀ p ∈ parts, p.Raw) :
    partRuns blocks parts id start stop = [] ↔
      ∀ t, column t (partRuns blocks parts id start stop) = [] := by
  refine ⟨fun hnil t => by rw [hnil]; rfl, fun hcol => ?_⟩
  refine eq_nil_iff_forall_not_mem.mpr fun r hr => ?_
  obtain ⟨-, hne⟩ := strictRun_of_mem_partRuns blocks h hr
  obtain ⟨s, hs⟩ := exists_mem_of_ne_nil _ hne
  have hfiber := overlayAll_eq_nil.mp (hcol s.ts) _
    (mem_map_of_mem (f := fun r => fiber Sample.ts s.ts r.samples) hr)
  exact absurd ((mem_fiber Sample.ts).mpr ⟨hs, rfl⟩) (hfiber ▸ not_mem_nil)

variable [Float64 F]

/-- What a read merges, when the parts give a run or there is no in-memory batch. -/
theorem merged_read (h : ∀ p ∈ parts, p.Raw) (hmem : ∀ b ∈ mem, Ordered Sample.ts b)
    (hne : partRuns blocks parts id start stop = [] → memRuns mem start stop = []) :
    Merged (partRuns blocks parts id start stop ++ memRuns mem start stop)
      (gather false (partRuns blocks parts id start stop ++ memRuns mem start stop)) := by
  refine merged_gather (fun r hr => ?_) fun r hr => ?_
  · rcases mem_append.mp hr with hr | hr
    · exact (strictRun_of_mem_partRuns blocks h hr).1.toRawRun
    · exact rawRun_of_mem_memRuns hmem hr
  -- a run that is alone is one of a part
  have hpart : r ∈ partRuns blocks parts id start stop := by
    cases hp : partRuns blocks parts id start stop with
    | nil =>
      rw [hp, hne hp] at hr
      exact absurd hr.symm (cons_ne_nil _ _)
    | cons x xs =>
      rw [hp, cons_append] at hr
      rw [(List.cons.inj hr).1]
      exact mem_cons_self
  exact (strictRun_of_mem_partRuns blocks h hpart).1.strict

/-- **Parts that hold the same give the same reads.** -/
theorem read_congr (blocks' : Blocks ID F) {parts parts' : List (Part ID F)}
    (h : ∀ p ∈ parts, p.Raw) (h' : ∀ p ∈ parts', p.Raw)
    (hheld : ∀ t, start ≤ t ∧ t ≤ stop → held parts' id t = held parts id t)
    (hmem : ∀ b ∈ mem, Ordered Sample.ts b) :
    read blocks' parts' mem id start stop = read blocks parts mem id start stop := by
  have hcol : ∀ t, column t (partRuns blocks' parts' id start stop) =
      column t (partRuns blocks parts id start stop) := by
    intro t
    rw [column_partRuns blocks' h', column_partRuns blocks h]
    split
    · next hin => exact hheld t hin
    · rfl
  rw [read, read, mergeSeries_eq, mergeSeries_eq]
  have hnil : partRuns blocks' parts' id start stop = [] ↔
      partRuns blocks parts id start stop = [] := by
    rw [partRuns_eq_nil_iff blocks' h', partRuns_eq_nil_iff blocks h]
    exact forall_congr' fun t => by rw [hcol t]
  by_cases hempty : partRuns blocks parts id start stop = []
  · rw [hnil.mpr hempty, hempty]
  · have hm := merged_read blocks h hmem (fun hnil => absurd hnil hempty)
    have hm' := merged_read blocks' h' hmem (fun hnil' => absurd (hnil.mp hnil') hempty)
    refine eq_of_fiber_eq hm'.ordered hm.ordered fun t => ?_
    rw [collect, collect, hm'.fibers t, hm.fibers t, column_append, column_append, hcol t]

theorem fiber_read_self (h : ∀ p ∈ parts, p.Raw) (id : ID) (t : ℤ) :
    fiber Sample.ts t (read blocks parts [] id t t) = held parts id t := by
  have hm : Merged (partRuns blocks parts id t t ++ memRuns [] t t) _ :=
    merged_read blocks h (fun _ hb => absurd hb not_mem_nil) fun _ => rfl
  rw [read, mergeSeries_eq, collect, hm.fibers t, column_append, column_partRuns blocks h,
    if_pos ⟨le_rfl, le_rfl⟩]
  rfl

end OtelStorage.Metrics
