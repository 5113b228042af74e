import OtelStorage.Metrics.RecentTier

/-!
# A flush changes no read

The samples of a flush are read from the head before it, from the buffers set aside while the part
is written, and from the part after it is published.  `flush_changes_no_read_iff` compares the
three, and with what they should be: each timestamp once, with the sample appended last.

They are that if no series has a timestamp twice in its buffer, whatever older raw parts there are
and however the new rows are cut into parts and blocks.  A repeated timestamp is dropped by a read
that has one run, and returned twice by one that has several; so a flush that cuts a series in two
shows it (`flush_repeats_timestamp`).
-/

namespace OtelStorage.Metrics

open Fibers List Function

variable {ID F : Type*} {l : List (Sample F)} {start stop : ℤ}

theorem eq_of_perm_of_length_le_one {α : Type*} {l m : List α} (h : l.Perm m) (hm : m.length ≤ 1) :
    l = m := by
  match m with
  | [] => exact h.eq_nil
  | [a] => exact perm_singleton.mp h

theorem overlayAll_eq_getLast? {α : Type*} {ls : List (List α)} (h : ∀ l ∈ ls, l.length ≤ 1) :
    overlayAll ls = ls.flatten.getLast?.toList := by
  induction ls with
  | nil => rfl
  | cons l ls ih =>
    obtain ⟨hl, hls⟩ := forall_mem_cons.mp h
    rw [overlayAll, ih hls, flatten_cons]
    cases hlast : ls.flatten.getLast? with
    | none =>
      rw [List.getLast?_eq_none_iff.mp hlast, append_nil]
      rcases l with _ | ⟨a, _ | ⟨b, l⟩⟩
      · rfl
      · rfl
      · exact absurd hl (by simp)
    | some a =>
      rw [List.getLast?_append, hlast]
      exact overlay_eq_right hl (cons_ne_nil a [])

theorem fiber_length_le_of_nodup (h : (l.map Sample.ts).Nodup) (t : ℤ) :
    (fiber Sample.ts t l).length ≤ 1 := by
  have hnodup : ((fiber Sample.ts t l).map Sample.ts).Nodup := h.sublist (filter_sublist.map _)
  have hconst :
      (fiber Sample.ts t l).map Sample.ts = List.replicate (fiber Sample.ts t l).length t :=
    eq_replicate_iff.mpr ⟨length_map _, fun u hu => by
      obtain ⟨x, hx, rfl⟩ := mem_map.mp hu
      exact ((mem_fiber Sample.ts).mp hx).2⟩
  rw [hconst] at hnodup
  exact nodup_replicate.mp hnodup

theorem exists_repeated (h : ¬ (l.map Sample.ts).Nodup) :
    ∃ t, 1 < (fiber Sample.ts t l).length := by
  by_contra hno
  refine h (nodup_iff_count_le_one.mpr fun t => ?_)
  rw [List.count, countP_map, countP_eq_length_filter]
  exact not_lt.mp fun hlt => hno ⟨t, hlt⟩

theorem fiberIn_sortedWindow_perm (order : SortFunc F) (buf : List (Sample F)) {t : ℤ}
    (hin : start ≤ t ∧ t ≤ stop) :
    (fiberIn start stop t (sortedWindow order buf start stop)).Perm (fiber Sample.ts t buf) := by
  rw [fiberIn, if_pos hin]
  refine ((sortedWindow_perm order buf start stop).filter _).trans (List.Perm.of_eq ?_)
  rw [windowCopy, filter_filter]
  refine filter_congr fun s _ => ?_
  rw [← Bool.decide_and, decide_eq_decide]
  exact ⟨fun h => h.1, fun h => ⟨h, h ▸ hin⟩⟩

theorem column_memRuns (order : SortFunc F) (bufs : List (List (Sample F))) (start stop t : ℤ) :
    column t (memRuns (bufs.map fun buf => sortedWindow order buf start stop) start stop) =
      overlayAll
        (bufs.map fun buf => fiberIn start stop t (sortedWindow order buf start stop)) := by
  rw [memRuns, column_flatMap, map_map]
  exact congrArg overlayAll (map_congr_left fun buf _ =>
    column_runOf (ordered_sortedWindow order buf start stop) [] start stop t)

/-- The samples appended last at the timestamps of a window, each timestamp once. -/
structure Latest (start stop : ℤ) (appended out : List (Sample F)) : Prop where
  strict : Strict Sample.ts out
  last : ∀ t, fiber Sample.ts t out =
    if start ≤ t ∧ t ≤ stop then (fiber Sample.ts t appended).getLast?.toList else []

theorem Latest.eq {appended appended' out out' : List (Sample F)}
    (h : Latest start stop appended out) (h' : Latest start stop appended' out')
    (hsame : ∀ t, fiber Sample.ts t appended = fiber Sample.ts t appended') : out = out' :=
  eq_of_fiber_eq h.strict.ordered h'.strict.ordered fun t => by rw [h.last, h'.last, hsame]

section

variable [Float64 F]

/-- **A read of sources with one sample a timestamp.** -/
theorem latest_read (order : SortFunc F) (blocks : Blocks ID F) {parts : List (Part ID F)}
    (hparts : ∀ p ∈ parts, p.Raw) {bufs : List (List (Sample F))}
    (hbufs : ∀ b ∈ bufs, (b.map Sample.ts).Nodup) (id : ID) (start stop : ℤ) :
    Latest start stop ((parts.flatMap fun p => p.rows id) ++ bufs.flatten)
      (read blocks parts (bufs.map fun b => sortedWindow order b start stop) id start stop) := by
  have hruns : ∀ r ∈ partRuns blocks parts id start stop ++
      memRuns (bufs.map fun b => sortedWindow order b start stop) start stop, StrictRun r := by
    intro r hr
    rcases mem_append.mp hr with hr | hr
    · exact (strictRun_of_mem_partRuns blocks hparts hr).1
    · obtain ⟨l, hl, hr⟩ := mem_flatMap.mp hr
      obtain ⟨b, hb, rfl⟩ := mem_map.mp hl
      have hstrict := strict_sortedWindow order (hbufs b hb) start stop
      exact ⟨rawRun_of_mem_runOf hstrict.ordered hr, strict_of_mem_runOf hstrict hr⟩
  rw [read, mergeSeries_eq]
  refine ⟨collect_strict hruns, fun t => ?_⟩
  rw [fiber_collect hruns, column_append, column_partRuns blocks hparts, column_memRuns]
  split_ifs with hin
  · have hfibers : (bufs.map fun b => fiberIn start stop t (sortedWindow order b start stop)) =
        bufs.map (fiber Sample.ts t) := map_congr_left fun b hb =>
      eq_of_perm_of_length_le_one (fiberIn_sortedWindow_perm order b hin)
        (fiber_length_le_of_nodup (hbufs b hb) t)
    have hflat : fiber Sample.ts t ((parts.flatMap fun p => p.rows id) ++ bufs.flatten) =
        ((parts.map fun p => fiber Sample.ts t (p.rows id)) ++
          bufs.map (fiber Sample.ts t)).flatten := by
      rw [fiber_append, flatten_append, flatMap_def, fiber, filter_flatten, fiber,
        filter_flatten, map_map]
      rfl
    rw [hfibers, held, ← overlayAll_append, overlayAll_eq_getLast?, hflat]
    · intro l hl
      rcases mem_append.mp hl with hl | hl
      · obtain ⟨p, hp, rfl⟩ := mem_map.mp hl
        exact ((hparts p hp).strict id).fiber_length_le t
      · obtain ⟨b, hb, rfl⟩ := mem_map.mp hl
        exact fiber_length_le_of_nodup (hbufs b hb) t
  · rw [overlay_nil_left]
    refine overlayAll_eq_nil.mpr fun l hl => ?_
    obtain ⟨b, -, rfl⟩ := mem_map.mp hl
    rw [fiberIn, if_neg hin]

/-- A buffer read behind a part returns a repeated timestamp again. -/
theorem le_length_fiber_read (order : SortFunc F) (blocks : Blocks ID F) {p : Part ID F}
    (hp : p.Raw) (buf : List (Sample F)) {id : ID} {start stop t u : ℤ} (ht : start ≤ t ∧ t ≤ stop)
    (hu : start ≤ u ∧ u ≤ stop) (hheld : held [p] id u ≠ []) (hnone : held [p] id t = []) :
    (fiber Sample.ts t (read blocks [p] ([[], [], buf].map fun b => sortedWindow order b start stop)
      id start stop)).length = (fiber Sample.ts t buf).length := by
  have hraw : ∀ q ∈ [p], q.Raw := fun q hq => mem_singleton.mp hq ▸ hp
  have hruns : partRuns blocks [p] id start stop ≠ [] := fun hnil => by
    have hcol := (partRuns_eq_nil_iff blocks hraw).mp hnil u
    rw [column_partRuns blocks hraw, if_pos hu] at hcol
    exact hheld hcol
  have hmem : ∀ b ∈ [[], [], buf].map fun b => sortedWindow order b start stop,
      Ordered Sample.ts b :=
    fun b hb => by
      obtain ⟨c, -, rfl⟩ := mem_map.mp hb
      exact ordered_sortedWindow order c start stop
  have hmerged := merged_read blocks hraw hmem fun hnil => absurd hnil hruns
  rw [read, mergeSeries_eq, collect, hmerged.fibers t, column_append, column_partRuns blocks hraw,
    if_pos ht,
    hnone, overlay_nil_left, column_memRuns, ← (fiberIn_sortedWindow_perm order buf ht).length_eq]
  simp [overlayAll, sortedWindow, ascending, windowCopy, fiberIn]

end

/-! ## The three reads -/

/-- What a flush writes: the rows of the buffers, under an index that lists their series. -/
structure FlushWrites (head : ID → List (Sample F)) (outs : List (Part ID F)) : Prop
    extends WritesRows head [] outs where
  series : ∀ p ∈ outs, ∀ id, p.rows id ≠ [] → id ∈ p.series

namespace TierEngine

variable [Float64 F] {e : TierEngine ID F}

/-- The engine before the flush, while it writes, and after it is published. -/
structure SameReads (e : TierEngine ID F) (order : SortFunc F) (blocks : Blocks ID F) (id : ID)
    (start stop : ℤ) : Prop where
  latest : Latest start stop ((e.parts.flatMap fun p => p.rows id) ++ e.head id)
    (e.fetch order blocks id start stop)
  writing : e.beginFlush.fetch order blocks id start stop = e.fetch order blocks id start stop
  published : ∀ outs, FlushWrites e.head outs →
    (e.beginFlush.publish outs).fetch order blocks id start stop =
    e.fetch order blocks id start stop

theorem fetch_eq (hrecent : e.recent = none) (order : SortFunc F)
    (blocks : Blocks ID F) (id : ID) (start stop : ℤ) :
    e.fetch order blocks id start stop = read blocks e.parts
      ([[], e.detached id, e.head id].map fun b => sortedWindow order b start stop)
      id start stop := by
  rw [fetch, hrecent, Buffers.memBatches, buffers, hrecent]
  rfl

omit [Float64 F] in
theorem exists_sole [DecidableEq ID] (id : ID) (x : Sample F)
    (hrange : minInt64 ≤ x.ts ∧ x.ts ≤ maxInt64) {t : ℤ}
    (ht : x.ts ≠ t) : ∃ p : Part ID F, p.Raw ∧ held [p] id x.ts ≠ [] ∧ held [p] id t = [] := by
  have hrow : ∀ id', ∀ s ∈ update (fun _ => []) id [x] id', s = x := fun id' s hs => by
    rw [update_apply] at hs
    split_ifs at hs
    · exact mem_singleton.mp hs
    · cases hs
  refine ⟨⟨"", x.ts, x.ts, [], [id], update (fun _ => []) id [x]⟩, ⟨rfl, fun id' => ?_,
    fun id' s hs => ?_, fun id' s hs => ?_, fun id' hid' => ?_⟩, ?_, ?_⟩
  · show Strict Sample.ts (update (fun _ => []) id [x] id')
    rw [update_apply]
    split_ifs
    · exact pairwise_singleton _ _
    · exact .nil
  · rw [hrow id' s hs]
    exact ⟨le_rfl, le_rfl⟩
  · rw [hrow id' s hs]
    exact hrange
  · by_contra hne
    refine hid' ?_
    show update (fun _ => []) id [x] id' = []
    exact update_of_ne (fun h => hne (mem_singleton.mpr h)) _ _
  · simp [held, overlayAll, fiber]
  · simp [held, overlayAll, fiber, ht]

theorem sameReads_of_nodup (hrecent : e.recent = none)
    (hflushing : e.flushing = none) (hparts : ∀ p ∈ e.parts, p.Raw)
    (hrange : ∀ id, ∀ x ∈ e.head id, minInt64 ≤ x.ts ∧ x.ts ≤ maxInt64)
    (hnodup : ∀ id, ((e.head id).map Sample.ts).Nodup) (order : SortFunc F) (blocks : Blocks ID F)
    (id : ID) (start stop : ℤ) : e.SameReads order blocks id start stop := by
  have hempty : (([] : List (Sample F)).map Sample.ts).Nodup := nodup_nil
  have hread : ∀ {g : TierEngine ID F}, g.recent = none → (∀ p ∈ g.parts, p.Raw) →
      ((g.detached id).map Sample.ts).Nodup → ((g.head id).map Sample.ts).Nodup →
      Latest start stop ((g.parts.flatMap fun p => p.rows id) ++ (g.detached id ++ g.head id))
        (g.fetch order blocks id start stop) := by
    intro g hg hraw hdetached hhead
    have hbufs : ∀ b ∈ [[], g.detached id, g.head id], (b.map Sample.ts).Nodup := by
      simp only [forall_mem_cons]
      exact ⟨hempty, hdetached, hhead, nofun⟩
    rw [fetch_eq hg]
    simpa using latest_read order blocks hraw hbufs id start stop
  have hdetached : e.detached id = [] := by rw [detached, hflushing]; rfl
  have hbefore := hread hrecent hparts (hdetached ▸ hempty) (hnodup id)
  rcases e.beginFlush_cases with ⟨-, -, heq⟩ | ⟨-, heq⟩
  · refine ⟨by simpa [hdetached] using hbefore, ?_, fun outs houts => ?_⟩
    · rw [heq]
      refine (hread (g := { e with flushing := some e.head, head := fun _ => [] }) hrecent hparts
        (hnodup id) hempty).eq hbefore fun t => ?_
      show fiber Sample.ts t (_ ++ (e.head id ++ [])) = fiber Sample.ts t
          (_ ++ (e.detached id ++ e.head id))
      rw [hdetached, append_nil, nil_append]
    have hafter : (e.beginFlush.publish outs) =
        { e with parts := e.parts ++ outs, flushing := none, head := fun _ => [] } := by
      simp only [heq, publish, populateRecent, hrecent]
    have hraw : ∀ p ∈ e.parts ++ outs, p.Raw := fun p hp => by
      rcases mem_append.mp hp with hp | hp
      · exact hparts p hp
      · refine ⟨houts.layout p hp, fun id => houts.toWritesRows.strict (hnodup id) hp,
          houts.bounds p hp, fun id s hs => ?_, houts.series p hp⟩
        exact hrange id s (houts.toWritesRows.mem_iff.mp ⟨p, hp, hs⟩)
    rw [hafter]
    refine (hread (g := { e with parts := e.parts ++ outs, flushing := none, head := fun _ => [] })
      hrecent hraw hempty hempty).eq hbefore fun t => ?_
    show fiber Sample.ts t ((e.parts ++ outs).flatMap (fun p => p.rows id) ++ ([] ++ [])) = _
    rw [hdetached, flatMap_append, append_nil, append_nil, nil_append, fiber_append, fiber_append]
    exact congrArg _ (eq_of_perm_of_length_le_one ((houts.rows id).filter _)
      (fiber_length_le_of_nodup (hnodup id) t))
  · have hstay : ∀ outs, e.publish outs = e := fun outs => by rw [publish, hflushing]
    exact ⟨by simpa [hdetached] using hbefore, by rw [heq], fun outs _ => by rw [heq, hstay]⟩

/-- **A flush changes no read, exactly if no buffer has a timestamp twice**: for every set of older
raw parts, before the flush, while it writes and after it is published, each timestamp is returned
once, with the sample appended last. -/
theorem flush_changes_no_read_iff [DecidableEq ID] (order : SortFunc F) (blocks : Blocks ID F)
    (ids : List ID) (head : ID → List (Sample F)) (hids : ∀ id, head id ≠ [] → id ∈ ids)
    (hrange : ∀ id, ∀ x ∈ head id, minInt64 ≤ x.ts ∧ x.ts ≤ maxInt64) :
    (∀ e : TierEngine ID F, e.ids = ids → e.head = head → e.recent = none → e.flushing = none →
      (∀ p ∈ e.parts, p.Raw) → ∀ id start stop, e.SameReads order blocks id start stop) ↔
      ∀ id, ((head id).map Sample.ts).Nodup := by
  constructor
  · intro hsame id
    by_contra hdup
    obtain ⟨t, ht⟩ := exists_repeated hdup
    obtain ⟨x, hx⟩ := exists_mem_of_length_pos (Nat.zero_lt_one.trans ht)
    -- an older part with one row, at another timestamp
    obtain ⟨u, hu, hrange'⟩ : ∃ u, u ≠ t ∧ minInt64 ≤ u ∧ u ≤ maxInt64 := by
      by_cases h0 : t = 0
      · exact ⟨1, by omega, by decide⟩
      · exact ⟨0, Ne.symm h0, by decide⟩
    obtain ⟨p, hp, hheld, hnone⟩ := exists_sole id { x with ts := u } hrange' hu
    have hsame := (hsame ⟨ids, head, none, [p], 0, 0, none, maxInt64⟩ rfl rfl rfl rfl
      (fun q hq => mem_singleton.mp hq ▸ hp) id (min t u) (max t u)).latest
    have hlen := hsame.strict.fiber_length_le t
    rw [fetch_eq rfl] at hlen
    have hread := le_length_fiber_read order blocks hp (head id)
      ⟨min_le_left t u, le_max_left t u⟩ ⟨min_le_right t u, le_max_right t u⟩ hheld hnone
    exact absurd (hread ▸ hlen) (not_le.mpr ht)
  · rintro hnodup e - rfl hrecent hflushing hparts id start stop
    exact sameReads_of_nodup hrecent hflushing hparts hrange hnodup order blocks id start stop

/-- Two samples that arrived out of order. -/
theorem flush_changes_no_read_late :
    (⟨[1], update (fun _ => []) 1 [⟨20, 7, 1⟩, ⟨10, 5, 2⟩], none, [], 0, 0, none, maxInt64⟩ :
      TierEngine ℕ ℚ).SameReads (.insertion ℚ) (.whole ℕ ℚ) 1 0 30 := by
  have hrow : ∀ {id : ℕ} {P : List (Sample ℚ) → Prop}, P [⟨20, 7, 1⟩, ⟨10, 5, 2⟩] → P [] →
      P (update (fun _ => []) 1 [⟨20, 7, 1⟩, ⟨10, 5, 2⟩] id) := fun {id P} h h' => by
    rw [update_apply]
    split_ifs
    · exact h
    · exact h'
  refine (flush_changes_no_read_iff _ _ [1] (update (fun _ => []) 1 [⟨20, 7, 1⟩, ⟨10, 5, 2⟩])
    (fun id hid => ?_) (fun id => ?_)).mpr (fun id => ?_) _ rfl rfl rfl rfl
    (fun _ hp => absurd hp not_mem_nil) _ _ _
  · by_contra hne
    exact hid (update_of_ne (fun h => hne (mem_singleton.mpr h)) _ _)
  · exact hrow (P := fun l => ∀ x ∈ l, minInt64 ≤ x.ts ∧ x.ts ≤ maxInt64) (by decide) (by decide)
  · exact hrow (P := fun l => (l.map Sample.ts).Nodup) (by decide) (by decide)

/-- **A flush repeats a timestamp.**  Five samples at three timestamps are written to parts of at
most three rows.  Before the flush each timestamp is read once; after it the first is returned
twice. -/
theorem flush_repeats_timestamp :
    let rows : List (Sample ℚ) := [⟨0, 10, 1⟩, ⟨0, 11, 1⟩, ⟨1, 12, 1⟩, ⟨1, 13, 1⟩, ⟨2, 14, 1⟩]
    let e : TierEngine ℕ ℚ := ⟨[1], update (fun _ => []) 1 rows, none, [], 2, 0, none, maxInt64⟩
    let outs : List (Part ℕ ℚ) := [⟨"a", 0, 1, [], [1], update (fun _ => []) 1 (rows.take 3)⟩,
      ⟨"b", 1, 2, [], [1], update (fun _ => []) 1 (rows.drop 3)⟩]
    e.fetch (.insertion ℚ) (.whole ℕ ℚ) 1 0 2 = [⟨0, 11, 1⟩, ⟨1, 13, 1⟩, ⟨2, 14, 1⟩] ∧
      (e.beginFlush.publish outs).fetch (.insertion ℚ) (.whole ℕ ℚ) 1 0 2 =
        [⟨0, 10, 1⟩, ⟨0, 11, 1⟩, ⟨1, 13, 1⟩, ⟨2, 14, 1⟩] := by
  decide +kernel

end TierEngine

end OtelStorage.Metrics
