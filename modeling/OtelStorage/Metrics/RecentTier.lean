import OtelStorage.Metrics.Compaction
import OtelStorage.Metrics.FetchPlan
import OtelStorage.Metrics.RolledRows

/-!
# The recent tier

An engine may keep the samples of its recent flushes in memory.  A read that starts at or after the
oldest of them skips the parts altogether; any other read merges the tier with the parts it mirrors.
An engine without the tier, put through the same history, is the yardstick: its parts and buffers
are the same (`step_disabled`), so only the tier can make a difference to a read.

It does.  After a restart the tier is empty, and the next flush sets its oldest timestamp from that
flush alone, although rows of the parts that were loaded may be newer (`tier_hides_loaded_part`).

`tier_transparent` says when it does not: in every history where no timestamp of a series is written
twice, a flush brings nothing below a rollup, and a flush after a restart finds the loaded parts
behind the recent window.  The invariant is that from some timestamp on the tier holds exactly what
the parts hold.
-/

namespace OtelStorage.Metrics

open Fibers List Function

variable {ID F : Type*} {y : Tie F} {layout : List DownsampleTier} {stop t : ℤ}
  {l : List (Sample F)} {parts : List (Part ID F)} {r : Run F}

/-! ## What a read finds at a timestamp -/

theorem mem_tiesAt_flatMap {β : Type*} {f : β → List (Run F)} {l : List β} :
    y ∈ tiesAt t (l.flatMap f) ↔ ∃ b ∈ l, y ∈ tiesAt t (f b) := by
  simp only [tiesAt, mem_filterMap, mem_reverse, mem_flatMap]
  grind

theorem mem_tiesAt_runOf (h : Strict Sample.ts l) {start : ℤ} :
    y ∈ tiesAt t (runOf layout start stop l) ↔
      y.tag = runTag layout t ∧ y.sample ∈ l ∧ y.sample.ts = t ∧ y.rest = [] ∧
        start ≤ t ∧ t ≤ stop := by
  have hwindow := window_eq_filter h.ordered start stop
  have hstrict := h.sublist (window_sublist h.ordered start stop)
  constructor
  · intro hy
    obtain ⟨r, hr, htag, hs, hts, hrest⟩ := mem_tiesAt hy
    obtain ⟨rfl, -⟩ := mem_runOf hr
    rw [hwindow] at hs
    obtain ⟨hs, hin⟩ := mem_filter.mp hs
    exact ⟨htag, hs, hts, hrest, hts ▸ of_decide_eq_true hin⟩
  · obtain ⟨tag, s, rest⟩ := y
    dsimp only
    rintro ⟨rfl, hs, rfl, rfl, hin⟩
    have hmem : s ∈ window l start stop := by
      rw [hwindow]
      exact mem_filter.mpr ⟨hs, decide_eq_true hin⟩
    have hrun : runOf layout start stop l = [⟨window l start stop, layout⟩] := by
      refine if_neg fun hnil => ?_
      rw [isEmpty_iff.mp hnil] at hmem
      cases hmem
    rw [hrun]
    exact mem_filterMap.mpr ⟨⟨window l start stop, layout⟩, mem_cons_self,
      Run.at_of_mem (r := ⟨window l start stop, layout⟩) hstrict hmem⟩

theorem strict_of_mem_runOf (h : Strict Sample.ts l) {start : ℤ}
    (hr : r ∈ runOf layout start stop l) :
    Strict Sample.ts r.samples := by
  obtain ⟨rfl, -⟩ := mem_runOf hr
  exact h.sublist (window_sublist h.ordered start stop)

theorem mem_tiesAt_partRuns (blocks : Blocks ID F) {id : ID}
    (hstrict : ∀ p ∈ parts, Strict Sample.ts (p.rows id))
    (hbounds : ∀ p ∈ parts, ∀ s ∈ p.rows id, p.minTime ≤ s.ts ∧ s.ts ≤ p.maxTime) {start : ℤ} :
    y ∈ tiesAt t (partRuns blocks parts id start stop) ↔
      ∃ p ∈ parts, y.tag = runTag p.layout t ∧ y.sample ∈ p.rows id ∧ y.sample.ts = t ∧
        y.rest = [] ∧ start ≤ t ∧ t ≤ stop := by
  have hcut : ∀ {p : Part ID F}, p ∈ parts → ∀ b ∈ blocks.cut p id, Strict Sample.ts b :=
    fun hp b hb => strict_of_mem_cut blocks (hstrict _ hp) hb
  rw [partRuns, mem_tiesAt_flatMap]
  constructor
  · rintro ⟨p, hp, hy⟩
    have hp' := mem_of_mem_filter hp
    obtain ⟨b, hb, hy⟩ := mem_tiesAt_flatMap.mp hy
    obtain ⟨htag, hs, hother⟩ := (mem_tiesAt_runOf (hcut hp' b hb)).mp hy
    refine ⟨p, hp', htag, ?_, hother⟩
    rw [← blocks.flatten p id]
    exact mem_flatten.mpr ⟨b, hb, hs⟩
  · rintro ⟨p, hp, htag, hs, hts, hrest, hstart, hstop⟩
    have hlive : p ∈ windowParts parts start stop := by
      have hin := hbounds p hp _ hs
      refine mem_filter.mpr ⟨hp, ?_⟩
      simp only [Bool.not_eq_true', Bool.or_eq_false_iff, decide_eq_false_iff_not]
      omega
    rw [← blocks.flatten p id] at hs
    obtain ⟨b, hb, hs⟩ := mem_flatten.mp hs
    exact ⟨p, hlive, mem_tiesAt_flatMap.mpr ⟨b, hb,
      (mem_tiesAt_runOf (hcut hp b hb)).mpr ⟨htag, hs, hts, hrest, hstart, hstop⟩⟩⟩

theorem strict_of_mem_partRuns (blocks : Blocks ID F) {id : ID}
    (hstrict : ∀ p ∈ parts, Strict Sample.ts (p.rows id)) {start : ℤ}
    (hr : r ∈ partRuns blocks parts id start stop) : Strict Sample.ts r.samples := by
  obtain ⟨p, hp, hr⟩ := mem_flatMap.mp hr
  obtain ⟨b, hb, hr⟩ := mem_flatMap.mp hr
  exact strict_of_mem_runOf (strict_of_mem_cut blocks (hstrict p (mem_of_mem_filter hp)) hb) hr

theorem strict_sortedWindow (order : SortFunc F) {buf : List (Sample F)}
    (h : (buf.map Sample.ts).Nodup) (start stop : ℤ) :
    Strict Sample.ts (sortedWindow order buf start stop) := by
  have hnodup : ((sortedWindow order buf start stop).map Sample.ts).Nodup :=
    ((sortedWindow_perm order buf start stop).map Sample.ts).nodup_iff.mpr
      (h.sublist (filter_sublist.map Sample.ts))
  exact ((ordered_sortedWindow order buf start stop).and (pairwise_map.mp hnodup)).imp
    fun hab => lt_of_le_of_ne hab.1 hab.2

/-- **Runs that repeat what others hold.**  Where one of the tier has a sample, the parts have the
same raw one and the rest has none; the parts may be left out if they hold nothing else. -/
theorem resolve_mirrored [Float64 F] {acquired parts tier rest : List (Run F)}
    (hacquired : tiesAt t acquired = tiesAt t parts ∨
      tiesAt t acquired = [] ∧ (tiesAt t tier = [] → tiesAt t parts = []))
    (htier : ∀ y ∈ tiesAt t tier, y.tag = .raw ∧ tiesAt t rest = [] ∧ tiesAt t parts ≠ [] ∧
      ∀ z ∈ tiesAt t parts, z.tag = .raw ∧ z.sample = y.sample) :
    resolve t (acquired ++ (tier ++ rest)) = resolve t (parts ++ rest) := by
  have hties : tiesAt t (acquired ++ (tier ++ rest)) =
      tiesAt t rest ++ tiesAt t tier ++ tiesAt t acquired := by
    rw [tiesAt_append, tiesAt_append]
  cases hcases : tiesAt t tier with
  | nil =>
    have hsame : tiesAt t acquired = tiesAt t parts :=
      hacquired.elim id fun ⟨hnil, hparts⟩ => hnil.trans (hparts hcases).symm
    refine resolve_congr ?_
    rw [hties, hcases, append_nil, hsame, tiesAt_append]
  | cons y ys =>
    have hy : y ∈ tiesAt t tier := hcases ▸ mem_cons_self
    obtain ⟨-, hrest, hne, hparts⟩ := htier y hy
    rw [hrest, nil_append] at hties
    -- the other ties of the tier are those of the parts too
    have hall : ∀ z ∈ tiesAt t (acquired ++ (tier ++ rest)), z.tag = .raw ∧
        z.sample = y.sample := by
      intro z hz
      rw [hties] at hz
      rcases mem_append.mp hz with hz | hz
      · obtain ⟨htag, -, -, hz⟩ := htier z hz
        obtain ⟨w, hw⟩ := exists_mem_of_ne_nil _ hne
        exact ⟨htag, (hz w hw).2.symm.trans (hparts w hw).2⟩
      · rcases hacquired with hsame | ⟨hnil, -⟩
        · exact hparts z (hsame ▸ hz)
        · exact absurd hz (hnil ▸ not_mem_nil)
    rw [resolve_const hall (by rw [hties, hcases]; exact cons_ne_nil _ _)]
    refine (resolve_const (fun z hz => ?_) ?_).symm
    · rw [tiesAt_append, hrest, nil_append] at hz
      exact hparts z hz
    · rw [tiesAt_append, hrest, nil_append]
      exact hne

/-! ## The engine -/

/-- What of an engine a read depends on.  `recent` is absent when the tier is off. -/
structure TierEngine (ID F : Type*) where
  ids : List ID
  head : ID → List (Sample F)
  flushing : Option (ID → List (Sample F))
  parts : List (Part ID F)
  newest : ℤ
  window : ℤ
  recent : Option (ID → List (Sample F))
  recentMin : ℤ

/-- Parts written with these rows: split in any way, each in order and within its bounds. -/
structure WritesRows {ID F : Type*} (rows : ID → List (Sample F)) (layout : List DownsampleTier)
    (outs : List (Part ID F)) : Prop where
  rows : ∀ id, (outs.flatMap fun p => p.rows id).Perm (rows id)
  ordered : ∀ p ∈ outs, ∀ id, Ordered Sample.ts (p.rows id)
  layout : ∀ p ∈ outs, p.layout = layout
  bounds : ∀ p ∈ outs, ∀ id, ∀ s ∈ p.rows id, p.minTime ≤ s.ts ∧ s.ts ≤ p.maxTime

/-- The latest cutoff below which a merge's output holds representatives. -/
def rolledBefore (tiers marker : List DownsampleTier) : ℤ :=
  let cutoff := tiers.foldl (fun c t => if 0 < t.interval then c ⊔ t.before else c) minInt64
  marker.foldl (fun c t => c ⊔ t.before) cutoff

theorem rolledBefore_le_iff {tiers marker : List DownsampleTier} {R : ℤ} :
    rolledBefore tiers marker ≤ R ↔
      minInt64 ≤ R ∧ (∀ t ∈ tiers, 0 < t.interval → t.before ≤ R) ∧ ∀ t ∈ marker, t.before ≤ R := by
  have htiers : tiers.foldl (fun c t => if 0 < t.interval then c ⊔ t.before else c) minInt64 =
      (tiers.filter fun t => 0 < t.interval).foldl (fun c t => c ⊔ t.before) minInt64 := by
    rw [foldl_filter]
    simp only [decide_eq_true_eq]
  rw [rolledBefore, htiers, foldl_sup_le_iff, foldl_sup_le_iff, and_assoc]
  simp only [mem_filter, decide_eq_true_eq, and_imp]

/-- What an engine goes through.  A merge takes the parts with the given prefixes; a restart finds
the parts in some order, and the log, if there is one, gives the unflushed samples back. -/
inductive Act (ID F : Type*) where
  | append (id : ID) (x : Sample F)
  | beginFlush
  | abortFlush
  | publish (outs : List (Part ID F))
  | merge (removed : List String) (tiers marker : List DownsampleTier) (outs : List (Part ID F))
  | restart (parts : List (Part ID F)) (replay : Bool)

namespace TierEngine

/-- A new engine; the tier is on when it has a window. -/
def new (window : ℤ) : TierEngine ID F where
  ids := []
  head := fun _ => []
  flushing := none
  parts := []
  newest := 0
  window := window
  recent := if 0 < window then some fun _ => [] else none
  recentMin := maxInt64

/-- The least first timestamp of the series' buffers, in the order the samples arrived. -/
def minFirst (ids : List ID) (r : ID → List (Sample F)) : ℤ :=
  ids.foldl (fun m id =>
    match r id with
    | [] => m
    | s :: _ => if s.ts < m then s.ts else m) maxInt64

variable (e : TierEngine ID F) (removed : List String)

/-- Drop from the tier what is older than a cutoff. -/
def trimRecentBelow (cutoff : ℤ) : TierEngine ID F :=
  match e.recent with
  | none => e
  | some r =>
    let r' := fun id => (r id).filter fun s => cutoff ≤ s.ts
    { e with recent := some r', recentMin := minFirst e.ids r' }

/-- The oldest timestamp the tier keeps at a flush. -/
def cutoff : ℤ := if e.newest = 0 then 0 else e.newest - e.window

/-- The samples of a flush enter the tier. -/
def populateRecent (detached : ID → List (Sample F)) : TierEngine ID F :=
  match e.recent with
  | none => e
  | some r =>
    let r' := fun id => r id ++ (detached id).filter fun s => e.cutoff ≤ s.ts
    { e with recent := some r' }.trimRecentBelow e.cutoff

/-- The parts of a flush are published, and its samples enter the tier. -/
def publish (outs : List (Part ID F)) : TierEngine ID F :=
  match e.flushing with
  | none => e
  | some detached =>
    { ({ e with parts := e.parts ++ outs } : TierEngine ID F).populateRecent detached with
      flushing := none }

/-- The samples of the flush in progress. -/
def detached (id : ID) : List (Sample F) := e.flushing.elim [] fun d => d id

/-- The samples that are in no part, as the log has them. -/
def pending (id : ID) : List (Sample F) := e.detached id ++ e.head id

/-- The parts a merge reads. -/
def selected : List (Part ID F) :=
  e.parts.filter fun p => removed.contains p.pref

/-- A sample enters the head. -/
def append [DecidableEq ID] (e : TierEngine ID F) (id : ID) (x : Sample F) : TierEngine ID F :=
  { e with
    ids := if id ∈ e.ids then e.ids else e.ids ++ [id]
    head := update e.head id (e.head id ++ [x])
    newest := e.newest ⊔ x.ts }

/-- The buffers are set aside for a flush; without a sample there is nothing to flush. -/
def beginFlush : TierEngine ID F :=
  match e.flushing with
  | some _ => e
  | none =>
    if e.ids.any fun id => !(e.head id).isEmpty then
      { e with flushing := some e.head, head := fun _ => [] }
    else e

/-- A failed flush puts its samples back before those that came since. -/
def abortFlush : TierEngine ID F :=
  match e.flushing with
  | none => e
  | some detached => { e with head := fun id => detached id ++ e.head id, flushing := none }

/-- The outputs of a merge take the place of its inputs. -/
def publishMerge (tiers marker : List DownsampleTier) (outs : List (Part ID F)) : TierEngine ID F :=
  { e with parts := replaceParts e.parts removed outs }.trimRecentBelow (rolledBefore tiers marker)

/-- A new engine over the parts, with the samples the log gives back. -/
def restart (parts : List (Part ID F)) (replay : Bool) : TierEngine ID F :=
  let head := fun id => if replay then e.pending id else []
  { (new e.window : TierEngine ID F) with
    ids := e.ids
    head := head
    parts := parts
    newest := (e.ids.flatMap head).foldl (fun n x => n ⊔ x.ts) 0 }

/-- The engine after an action. -/
def step [DecidableEq ID] (e : TierEngine ID F) : Act ID F → TierEngine ID F
  | .append id x => e.append id x
  | .beginFlush => e.beginFlush
  | .abortFlush => e.abortFlush
  | .publish outs => e.publish outs
  | .merge removed tiers marker outs => e.publishMerge removed tiers marker outs
  | .restart parts replay => e.restart parts replay

/-- The in-memory sources of a read. -/
def buffers : Buffers ID F where
  recent id := e.recent.elim [] fun r => r id
  flushing := e.detached
  head := e.head

/-- What a fetch of a series returns. -/
def fetch [Float64 F] (order : SortFunc F) (blocks : Blocks ID F) (e : TierEngine ID F) (id : ID)
    (start stop : ℤ) : List (Sample F) :=
  read blocks (acquired e.recent.isSome e.recentMin e.parts start)
    (e.buffers.memBatches order id start stop) id start stop

/-- What of an action is decided by the engine it happens to: the rows that are written, the parts
that are found. -/
def Valid [Float64 F] (e : TierEngine ID F) : Act ID F → Prop
  | .publish outs => ∃ detached, e.flushing = some detached ∧ WritesRows detached [] outs
  | .merge removed tiers marker outs =>
    (∀ t ∈ tiers ++ marker, t.before ≤ maxInt64) ∧
      WritesRows (fun id => (rollSeries (sourceRuns (e.selected removed) id) tiers).map Prod.fst)
        marker outs
  | .restart parts _ => parts.Perm e.parts
  | _ => True

/-- The engine with its tier off. -/
def disabled : TierEngine ID F :=
  { e with recent := none, recentMin := maxInt64, window := 0 }

theorem beginFlush_cases :
    (e.flushing = none ∧ (e.ids.any fun id => !(e.head id).isEmpty) = true ∧
      e.beginFlush = { e with flushing := some e.head, head := fun _ => [] }) ∨
    ((e.flushing ≠ none ∨ (e.ids.any fun id => !(e.head id).isEmpty) = false) ∧
      e.beginFlush = e) := by
  unfold beginFlush
  cases hf : e.flushing with
  | some d => exact .inr ⟨.inl nofun, rfl⟩
  | none =>
    cases hany : e.ids.any fun id => !(e.head id).isEmpty with
    | true => exact .inl ⟨rfl, rfl, by simp⟩
    | false => exact .inr ⟨.inr rfl, by simp⟩

/-- **The tier has no part in what else an engine does.** -/
theorem step_disabled [DecidableEq ID] (e : TierEngine ID F) (act : Act ID F) :
    e.disabled.step act = (e.step act).disabled := by
  cases act with
  | append id x | restart ps replay => rfl
  | beginFlush =>
    rcases e.beginFlush_cases with ⟨hnone, hany, heq⟩ | ⟨hnot, heq⟩
    · rcases e.disabled.beginFlush_cases with ⟨-, -, heq'⟩ | ⟨hnot', -⟩
      · exact heq'.trans (congrArg disabled heq).symm
      · exact absurd hnot' (not_or.mpr ⟨not_not.mpr hnone, Bool.ne_false_iff.mpr hany⟩)
    · rcases e.disabled.beginFlush_cases with ⟨hnone, hany, -⟩ | ⟨-, heq'⟩
      · exact absurd hnot (not_or.mpr ⟨not_not.mpr hnone, Bool.ne_false_iff.mpr hany⟩)
      · exact heq'.trans (congrArg disabled heq).symm
  | abortFlush =>
    obtain ⟨ids, head, flushing, parts, newest, window, recent, recentMin⟩ := e
    cases flushing <;> rfl
  | publish outs =>
    obtain ⟨ids, head, flushing, parts, newest, window, recent, recentMin⟩ := e
    cases flushing <;> cases recent <;> rfl
  | merge removed tiers marker outs =>
    obtain ⟨ids, head, flushing, parts, newest, window, recent, recentMin⟩ := e
    cases recent <;> rfl

end TierEngine

/-! ## Histories -/

section Histories

variable {e e₀ : TierEngine ID F} {outs : List (Part ID F)} {window : ℤ} {x : Sample F}
  {flushing : Option (ID → List (Sample F))} {d rows : ID → List (Sample F)}
  {tiers marker : List DownsampleTier} {removed : List String}

/-- What a history has seen: the timestamps written, the latest cutoff of a rollup, and the parts of
the last restart. -/
structure Past (ID F : Type*) where
  seen : List (ID × ℤ)
  rolled : ℤ
  loaded : List (Part ID F)

/-- Nothing seen. -/
def Past.start : Past ID F := ⟨[], minInt64, []⟩

/-- One action more. -/
def Past.note (g : Past ID F) : Act ID F → Past ID F
  | .append id x => { g with seen := (id, x.ts) :: g.seen }
  | .merge _ tiers marker _ => { g with rolled := g.rolled ⊔ rolledBefore tiers marker }
  | .restart parts _ => { g with loaded := parts }
  | _ => g

/-- A rule for histories. -/
abbrev HistoryRule (ID F : Type*) := Past ID F → TierEngine ID F → Act ID F → Prop

/-- Anything may happen. -/
def anyActs : HistoryRule ID F := fun _ _ _ => True

/-- No timestamp of a series is written twice, and all lie inside the range of 64-bit integers and
after zero; a flush brings nothing below a rollup; and the parts of the last restart lie behind the
window of a flush. -/
def calmActs : HistoryRule ID F := fun g e act =>
  match act with
  | .append id x => 0 < x.ts ∧ x.ts < maxInt64 ∧ (id, x.ts) ∉ g.seen
  | .publish _ => (∀ id, ∀ x ∈ e.detached id, g.rolled ≤ x.ts) ∧
      ∀ p ∈ g.loaded, p.maxTime < (e.newest - e.window) ⊔ g.rolled
  | _ => True

/-- An engine with a window and one without, after the same history. -/
inductive Lockstep [Float64 F] [DecidableEq ID] (rule : HistoryRule ID F) (window : ℤ) :
    TierEngine ID F → TierEngine ID F → Past ID F → Prop
  | new : Lockstep rule window (.new window) (.new 0) .start
  | step {e e₀ : TierEngine ID F} {g : Past ID F} (h : Lockstep rule window e e₀ g) (act : Act ID F)
      (hvalid : e.Valid act) (hrule : rule g e act) :
      Lockstep rule window (e.step act) (e₀.step act) (g.note act)

/-- The engine without a window is the other with its tier off. -/
theorem Lockstep.eq_disabled [Float64 F] [DecidableEq ID] {rule : HistoryRule ID F}
    {g : Past ID F} (h : Lockstep rule window e e₀ g) : e₀ = e.disabled := by
  induction h with
  | new => rfl
  | step h act _ _ ih => rw [ih, TierEngine.step_disabled]

/-! ## What the tier mirrors -/

/-- The tier holds exactly what the parts hold from some timestamp on, which is not below a rollup,
nor above the window unless a loaded part is. -/
structure Mirrors (e : TierEngine ID F) (g : Past ID F) (r : ID → List (Sample F)) (C : ℤ) :
    Prop where
  rolled : g.rolled ≤ C
  tier : ∀ id, ∀ x ∈ r id, C ≤ x.ts ∧ ∃ p ∈ e.parts, x ∈ p.rows id
  nodup : ∀ id, ((r id).map Sample.ts).Nodup
  parts : ∀ p ∈ e.parts, ∀ id, ∀ x ∈ p.rows id, C ≤ x.ts → x ∈ r id
  min : e.recentMin = maxInt64 ∨ ∃ id, ∃ x ∈ r id, e.recentMin = x.ts
  reach : C ≤ (e.newest - e.window) ⊔ g.rolled ∨ ∃ p ∈ g.loaded, C ≤ p.maxTime + 1

/-- A sample that is in no part yet: written, in range, and no newer than the newest. -/
structure Buffered (e : TierEngine ID F) (g : Past ID F) (id : ID) (x : Sample F) : Prop where
  known : id ∈ e.ids
  seen : (id, x.ts) ∈ g.seen
  pos : 0 < x.ts
  lt : x.ts < maxInt64
  newest : x.ts ≤ e.newest

/-- The state of an engine after a calm history. -/
structure Calm (e : TierEngine ID F) (g : Past ID F) : Prop where
  rolled : g.rolled ≤ maxInt64
  busy : ∀ d, e.flushing = some d → 0 < e.newest
  pending : ∀ id, ∀ x ∈ e.pending id, Buffered e g id x
  nodup : ∀ id, ((e.pending id).map Sample.ts).Nodup
  strict : ∀ p ∈ e.parts, ∀ id, Strict Sample.ts (p.rows id)
  layout : ∀ p ∈ e.parts, RollsBefore g.rolled p.layout
  nonneg : ∀ p ∈ e.parts, ∀ id, ∀ x ∈ p.rows id, 0 ≤ x.ts
  bounds : ∀ p ∈ e.parts, ∀ id, ∀ x ∈ p.rows id, p.minTime ≤ x.ts ∧ x.ts ≤ p.maxTime
  live : ∀ p ∈ e.parts, ∀ id, ∀ x ∈ p.rows id, g.rolled ≤ x.ts →
    (id, x.ts) ∈ g.seen ∧ 0 < x.ts ∧ x.ts < maxInt64
  one : ∀ p ∈ e.parts, ∀ q ∈ e.parts, ∀ id, ∀ x ∈ p.rows id, ∀ y ∈ q.rows id,
    g.rolled ≤ x.ts → x.ts = y.ts → x = y
  apart : ∀ p ∈ e.parts, ∀ id, ∀ x ∈ p.rows id, ∀ y ∈ e.pending id, g.rolled ≤ x.ts → x.ts ≠ y.ts
  mirrors : ∀ r, e.recent = some r → ∃ C, Mirrors e g r C

/-! ## A read of a calm engine -/

variable {g : Past ID F}

section Fetch

variable (order : SortFunc F) (blocks : Blocks ID F) {id : ID} {start C t : ℤ}
  {r : ID → List (Sample F)}

/-- The runs of the tier. -/
def tierRuns (r : ID → List (Sample F)) (id : ID) (start stop : ℤ) : List (Run F) :=
  runOf [] start stop (sortedWindow order (r id) start stop)

/-- The runs of the buffers behind the tier. -/
def TierEngine.pendingRuns (e : TierEngine ID F) (id : ID) (start stop : ℤ) : List (Run F) :=
  memRuns [sortedWindow order (e.detached id) start stop,
    sortedWindow order (e.head id) start stop] start stop

theorem TierEngine.fetch_some [Float64 F] (hr : e.recent = some r) :
    e.fetch order blocks id start stop =
      collect (partRuns blocks (acquired true e.recentMin e.parts start) id start stop ++
        (tierRuns order r id start stop ++ e.pendingRuns order id start stop)) := by
  rw [TierEngine.fetch, read, mergeSeries_eq, TierEngine.buffers, hr]
  rfl

theorem TierEngine.fetch_disabled [Float64 F] : e.disabled.fetch order blocks id start stop =
    collect (partRuns blocks e.parts id start stop ++ e.pendingRuns order id start stop) := by
  have hnone : runOf [] start stop (sortedWindow order ([] : List (Sample F)) start stop) = [] := by
    rw [runOf, window_sortedWindow]
    rfl
  have hmem : memRuns (e.disabled.buffers.memBatches order id start stop) start stop =
      runOf [] start stop (sortedWindow order ([] : List (Sample F)) start stop) ++
        e.pendingRuns order id start stop := rfl
  rw [TierEngine.fetch, read, mergeSeries_eq, hmem, hnone, nil_append]
  rfl

theorem TierEngine.fetch_none [Float64 F] (hr : e.recent = none) :
    e.fetch order blocks id start stop = e.disabled.fetch order blocks id start stop := by
  have hparts : acquired e.recent.isSome e.recentMin e.parts start = e.parts := by
    rw [hr]
    rfl
  have hbuffers : e.buffers = e.disabled.buffers := by
    rw [TierEngine.buffers, hr]
    rfl
  rw [TierEngine.fetch, hparts, hbuffers]
  rfl

theorem mem_of_mem_acquired {p : Part ID F}
    (hp : p ∈ acquired true e.recentMin e.parts start) : p ∈ e.parts := by
  rw [acquired] at hp
  split at hp
  · exact hp
  · cases hp

variable {order blocks}

theorem Calm.strict_of_mem_pendingRuns (h : Calm e g) {q : Run F}
    (hq : q ∈ e.pendingRuns order id start stop) : Strict Sample.ts q.samples := by
  obtain ⟨b, hb, hq⟩ := mem_flatMap.mp hq
  rcases mem_pair.mp hb with rfl | rfl
  · refine strict_of_mem_runOf (strict_sortedWindow order ?_ start stop) hq
    exact (h.nodup id).sublist ((sublist_append_left _ _).map Sample.ts)
  · refine strict_of_mem_runOf (strict_sortedWindow order ?_ start stop) hq
    exact (h.nodup id).sublist ((sublist_append_right _ _).map Sample.ts)

theorem mem_pending_of_tie {t : ℤ} (hy : y ∈ tiesAt t (e.pendingRuns order id start stop)) :
    y.sample ∈ e.pending id ∧ y.sample.ts = t := by
  obtain ⟨b, hb, hy⟩ := mem_tiesAt_flatMap.mp hy
  obtain ⟨q, hq, -, hy, hts, -⟩ := mem_tiesAt hy
  obtain ⟨rfl, -⟩ := mem_runOf hq
  refine ⟨?_, hts⟩
  rcases mem_pair.mp hb with rfl | rfl
  · exact mem_append_left _ (mem_sortedWindow.mp
      ((window_sublist (ordered_sortedWindow _ _ _ _) _ _).mem hy)).1
  · exact mem_append_right _ (mem_sortedWindow.mp
      ((window_sublist (ordered_sortedWindow _ _ _ _) _ _).mem hy)).1

theorem Mirrors.mem_tie (hm : Mirrors e g r C) :
    y ∈ tiesAt t (tierRuns order r id start stop) ↔
      y.tag = .raw ∧ y.sample ∈ r id ∧ y.sample.ts = t ∧ y.rest = [] ∧ start ≤ t ∧ t ≤ stop := by
  rw [tierRuns, mem_tiesAt_runOf (strict_sortedWindow order (hm.nodup id) start stop)]
  constructor
  · rintro ⟨htag, hs, hts, hrest, hin⟩
    exact ⟨htag, (mem_sortedWindow.mp hs).1, hts, hrest, hin⟩
  · rintro ⟨htag, hs, hts, hrest, hin⟩
    exact ⟨htag, mem_sortedWindow.mpr ⟨hs, hts.symm ▸ hin⟩, hts, hrest, hin⟩

/-- A read that skips the parts starts where all they hold is in the tier. -/
theorem Calm.skipped (h : Calm e g) (hm : Mirrors e g r C) (hstart : ¬ start < e.recentMin)
    (hnil : tiesAt t (tierRuns order r id start stop) = []) :
    tiesAt t (partRuns blocks e.parts id start stop) = [] := by
  refine eq_nil_iff_forall_not_mem.mpr fun z hz => ?_
  obtain ⟨p, hp, -, hz, hzts, -, hin⟩ :=
    (mem_tiesAt_partRuns blocks (h.strict · · id) (h.bounds · · id)).mp hz
  have hle : e.recentMin ≤ z.sample.ts := (not_lt.mp hstart).trans (hzts ▸ hin.1)
  rcases hm.min with hmax | ⟨id', x, hx, hmin⟩
  · rw [hmax] at hle
    exact absurd hle (not_le.mpr (h.live p hp id _ hz (h.rolled.trans hle)).2.2)
  have hmem := hm.parts p hp id _ hz (((hm.tier id' x hx).1.trans hmin.ge).trans hle)
  have htie : (⟨.raw, z.sample, []⟩ : Tie F) ∈ tiesAt t (tierRuns order r id start stop) :=
    hm.mem_tie.mpr ⟨rfl, hmem, hzts, rfl, hin⟩
  exact absurd htie (hnil ▸ not_mem_nil)

/-- **The tier does not show.**  At a timestamp the tier holds, the parts hold the same raw sample
and no other buffer has one; at any other it adds nothing, and no part that is skipped has any. -/
theorem Calm.fetch_eq [Float64 F] (h : Calm e g) (order : SortFunc F)
    (blocks : Blocks ID F) (id : ID) (start stop : ℤ) :
    e.fetch order blocks id start stop = e.disabled.fetch order blocks id start stop := by
  cases hr : e.recent with
  | none => exact TierEngine.fetch_none order blocks hr
  | some r =>
    obtain ⟨C, hm⟩ := h.mirrors r hr
    rw [TierEngine.fetch_some order blocks hr, TierEngine.fetch_disabled order blocks]
    refine collect_congr (fun q hq => ?_) (fun q hq => ?_) fun t => ?_
    · rcases mem_append.mp hq with hq | hq
      · exact strict_of_mem_partRuns blocks (fun p hp => h.strict p (mem_of_mem_acquired hp) id) hq
      · rcases mem_append.mp hq with hq | hq
        · exact strict_of_mem_runOf (strict_sortedWindow order (hm.nodup id) start stop) hq
        · exact h.strict_of_mem_pendingRuns hq
    · rcases mem_append.mp hq with hq | hq
      · exact strict_of_mem_partRuns blocks (h.strict · · id) hq
      · exact h.strict_of_mem_pendingRuns hq
    refine resolve_mirrored ?_ fun y hy => ?_
    · by_cases hstart : start < e.recentMin
      · left
        rw [acquired, if_pos (by simpa using hstart)]
      · have hskip : acquired true e.recentMin e.parts start = [] :=
          if_neg (by simpa using hstart)
        exact .inr ⟨by rw [hskip]; rfl, h.skipped hm hstart⟩
    obtain ⟨htag, hy, hyts, -, hin⟩ := hm.mem_tie.mp hy
    obtain ⟨hC, p, hp, hyp⟩ := hm.tier id _ hy
    have hrolled : g.rolled ≤ y.sample.ts := hm.rolled.trans hC
    refine ⟨htag, eq_nil_iff_forall_not_mem.mpr fun z hz => ?_, fun hnil => ?_, fun z hz => ?_⟩
    · obtain ⟨hz, hzts⟩ := mem_pending_of_tie hz
      exact h.apart p hp id _ hyp _ hz hrolled (hyts.trans hzts.symm)
    · have htie : (⟨runTag p.layout t, y.sample, []⟩ : Tie F) ∈
          tiesAt t (partRuns blocks e.parts id start stop) :=
        (mem_tiesAt_partRuns blocks (h.strict · · id) (h.bounds · · id)).mpr
          ⟨p, hp, rfl, hyp, hyts, rfl, hin⟩
      exact absurd htie (hnil ▸ not_mem_nil)
    · obtain ⟨q, hq, hztag, hz, hzts, -, -⟩ :=
        (mem_tiesAt_partRuns blocks (h.strict · · id) (h.bounds · · id)).mp hz
      refine ⟨?_, (h.one p hp q hq id _ hyp _ hz hrolled (hyts.trans hzts.symm)).symm⟩
      rw [hztag]
      exact runTag_eq_raw (h.layout q hq) (hyts ▸ hrolled)

end Fetch

/-! ## Steps that leave the parts alone -/

variable {id : ID}

theorem Buffered.mono {e' : TierEngine ID F} {g g' : Past ID F}
    (h : Buffered e g id x) (hids : e.ids ⊆ e'.ids) (hseen : g.seen ⊆ g'.seen)
    (hnewest : e.newest ≤ e'.newest) : Buffered e' g' id x :=
  ⟨hids h.known, hseen h.seen, h.pos, h.lt, h.newest.trans hnewest⟩

variable {head : ID → List (Sample F)} {p : Part ID F}

theorem Calm.rebuffer (h : Calm e g) {ids : List ID} {newest : ℤ}
    {seen : List (ID × ℤ)} (hnewest : e.newest ≤ newest) (hseen : g.seen ⊆ seen)
    (hbusy : ∀ d, flushing = some d → 0 < newest)
    (hpending : ∀ id, ∀ x ∈ ({ e with head, flushing } : TierEngine ID F).pending id,
      Buffered { e with ids, newest } { g with seen } id x)
    (hnodup : ∀ id,
      ((({ e with head, flushing } : TierEngine ID F).pending id).map Sample.ts).Nodup)
    (hapart : ∀ p ∈ e.parts, ∀ id, ∀ x ∈ p.rows id,
      ∀ y ∈ ({ e with head, flushing } : TierEngine ID F).pending id, g.rolled ≤ x.ts →
      x.ts ≠ y.ts) :
    Calm { e with ids, head, flushing, newest } { g with seen } where
  rolled := h.rolled
  busy := hbusy
  pending id x hx := by
    obtain ⟨hid, hs, hpos, hlt, hle⟩ := hpending id x hx
    exact ⟨hid, hs, hpos, hlt, hle⟩
  nodup := hnodup
  strict := h.strict
  layout := h.layout
  nonneg := h.nonneg
  bounds := h.bounds
  live p hp id x hx hR := (h.live p hp id x hx hR).imp_left fun hx => hseen hx
  one := h.one
  apart := hapart
  mirrors r hr := by
    obtain ⟨C, hm⟩ := h.mirrors r hr
    refine ⟨C, hm.rolled, hm.tier, hm.nodup, hm.parts, hm.min, hm.reach.imp_left fun hC => ?_⟩
    exact hC.trans (sup_le_sup_right (sub_le_sub_right hnewest e.window) g.rolled)

theorem TierEngine.pending_append [DecidableEq ID] (e : TierEngine ID F) (id id' : ID)
    (x : Sample F) :
    (e.append id x).pending id' = e.pending id' ++ if id' = id then [x] else [] := by
  show e.detached id' ++ update e.head id (e.head id ++ [x]) id' = _
  by_cases hid : id' = id
  · subst hid
    rw [update_self, if_pos rfl, ← append_assoc]
    rfl
  · rw [update_of_ne hid, if_neg hid, append_nil]
    rfl

theorem Calm.append [DecidableEq ID] (h : Calm e g)
    (hpos : 0 < x.ts) (hlt : x.ts < maxInt64) (hfresh : (id, x.ts) ∉ g.seen) :
    Calm (e.append id x) { g with seen := (id, x.ts) :: g.seen } := by
  have hmem : ∀ id' y, y ∈ (e.append id x).pending id' → y ∈ e.pending id' ∨ id' = id ∧ y = x := by
    intro id' y hy
    rw [e.pending_append, mem_append] at hy
    refine hy.imp_right fun hy => ?_
    split at hy
    · next hid => exact ⟨hid, mem_singleton.mp hy⟩
    · cases hy
  have hsub : g.seen ⊆ (id, x.ts) :: g.seen := subset_cons_self _ _
  refine h.rebuffer le_sup_left hsub (fun d hd => (h.busy d hd).trans_le le_sup_left) ?_ ?_ ?_
  · intro id' y hy
    rcases hmem id' y hy with hy | ⟨rfl, rfl⟩
    · refine (h.pending id' y hy).mono (fun i hi => ?_) hsub le_sup_left
      split
      · exact hi
      · exact mem_append_left _ hi
    refine ⟨?_, mem_cons_self, hpos, hlt, le_sup_right⟩
    dsimp only
    split
    · next hid => exact hid
    · exact mem_append_right _ mem_cons_self
  · intro id'
    show (((e.append id x).pending id').map Sample.ts).Nodup
    rw [e.pending_append]
    split
    · next hid =>
      subst hid
      rw [map_append, nodup_append]
      refine ⟨h.nodup id', nodup_singleton _, fun t ht u hu heq => hfresh ?_⟩
      obtain ⟨y, hy, rfl⟩ := mem_map.mp ht
      rw [← mem_singleton.mp hu, ← heq]
      exact (h.pending id' y hy).seen
    · rw [append_nil]
      exact h.nodup id'
  · intro p hp id' y hy z hz hR
    rcases hmem id' z hz with hz | ⟨rfl, rfl⟩
    · exact h.apart p hp id' y hy z hz hR
    · intro heq
      exact hfresh (heq ▸ (h.live p hp id' y hy hR).1)

theorem Calm.divide (h : Calm e g)
    (hpending : ∀ id, ({ e with head, flushing } : TierEngine ID F).pending id = e.pending id)
    (hbusy : ∀ d, flushing = some d → 0 < e.newest) : Calm { e with head, flushing } g := by
  refine h.rebuffer le_rfl (List.Subset.refl _) hbusy (fun id x hx => ?_) (fun id => ?_)
    fun p hp id x hx y hy => ?_
  · rw [hpending] at hx
    exact h.pending id x hx
  · rw [hpending]
    exact h.nodup id
  · rw [hpending] at hy
    exact h.apart p hp id x hx y hy

theorem Calm.beginFlush (h : Calm e g) : Calm e.beginFlush g := by
  rcases e.beginFlush_cases with ⟨hnone, hany, heq⟩ | ⟨-, heq⟩
  · rw [heq]
    refine h.divide (fun id => ?_) fun _ _ => ?_
    · rw [TierEngine.pending, TierEngine.pending, TierEngine.detached, TierEngine.detached, hnone]
      exact append_nil _
    · obtain ⟨id, -, hid⟩ := any_eq_true.mp hany
      obtain ⟨x, hx⟩ := exists_mem_of_ne_nil (e.head id) fun hnil => by simp [hnil] at hid
      have hb := h.pending id x (mem_append_right _ hx)
      exact hb.pos.trans_le hb.newest
  · rw [heq]
    exact h

theorem Calm.abortFlush (h : Calm e g) : Calm e.abortFlush g := by
  rw [TierEngine.abortFlush]
  cases hd : e.flushing with
  | none => exact h
  | some d =>
    refine h.divide (fun id => ?_) nofun
    rw [TierEngine.pending, TierEngine.pending, TierEngine.detached, TierEngine.detached, hd]
    exact nil_append _

/-! ## Steps that write parts -/

theorem TierEngine.minFirst_spec (ids : List ID) (r : ID → List (Sample F)) :
    minFirst ids r = maxInt64 ∨ ∃ id, ∃ x ∈ r id, minFirst ids r = x.ts := by
  rw [minFirst]
  refine List.foldlRecOn ids _ (motive := fun m => m = maxInt64 ∨ ∃ id, ∃ x ∈ r id, m = x.ts)
    (.inl rfl) fun m hm id _ => ?_
  cases hr : r id with
  | nil => exact hm
  | cons x xs =>
    dsimp only
    split
    · exact .inr ⟨id, x, hr ▸ mem_cons_self, rfl⟩
    · exact hm

theorem TierEngine.trimRecentBelow_spec (cutoff : ℤ) :
    ∃ recent recentMin, e.trimRecentBelow cutoff = { e with recent, recentMin } ∧
      ∀ r', recent = some r' → ∃ r, e.recent = some r ∧
        (∀ id x, x ∈ r' id ↔ x ∈ r id ∧ cutoff ≤ x.ts) ∧ (∀ id, (r' id).Sublist (r id)) ∧
        recentMin = minFirst e.ids r' := by
  rw [trimRecentBelow]
  cases hr : e.recent with
  | none => exact ⟨e.recent, e.recentMin, rfl, fun r' hr' => absurd (hr.symm.trans hr') nofun⟩
  | some r =>
    refine ⟨_, _, rfl, fun r' hr' => ⟨r, rfl, ?_⟩⟩
    cases hr'
    refine ⟨fun id x => ?_, fun id => filter_sublist, rfl⟩
    rw [mem_filter, decide_eq_true_eq]

theorem TierEngine.publish_spec (hd : e.flushing = some d) (outs : List (Part ID F)) :
    ∃ recent recentMin, e.publish outs =
        { e with parts := e.parts ++ outs, flushing := none, recent, recentMin } ∧
      ∀ r', recent = some r' → ∃ r, e.recent = some r ∧
        (∀ id x, x ∈ r' id ↔ (x ∈ r id ∨ x ∈ d id) ∧ e.cutoff ≤ x.ts) ∧
        (∀ id, (r' id).Sublist (r id ++ d id)) ∧ recentMin = minFirst e.ids r' := by
  rw [publish, hd]
  dsimp only [populateRecent]
  cases hr : e.recent with
  | none =>
    refine ⟨e.recent, e.recentMin, ?_, fun r' hr' => absurd (hr.symm.trans hr') nofun⟩
    rw [hr]
  | some r =>
    refine ⟨_, _, rfl, fun r' hr' => ⟨r, rfl, ?_⟩⟩
    cases hr'
    refine ⟨fun id x => ?_, fun id => filter_sublist.trans (filter_sublist.append_left (r id)), rfl⟩
    rw [mem_filter, mem_append, mem_filter, decide_eq_true_eq]
    tauto

theorem WritesRows.strict (h : WritesRows rows layout outs)
    (hnodup : ((rows id).map Sample.ts).Nodup) (hp : p ∈ outs) :
    Strict Sample.ts (p.rows id) := by
  have hflat : ((outs.flatMap fun p => p.rows id).map Sample.ts).Nodup :=
    ((h.rows id).map Sample.ts).nodup_iff.mpr hnodup
  have hsub : (p.rows id).Sublist (outs.flatMap fun p => p.rows id) := by
    rw [flatMap_def]
    exact sublist_flatten_of_mem (mem_map_of_mem hp)
  have hone : ((p.rows id).map Sample.ts).Nodup := hflat.sublist (hsub.map Sample.ts)
  exact ((h.ordered p hp id).and (pairwise_map.mp hone)).imp fun hab =>
    lt_of_le_of_ne hab.1 hab.2

theorem WritesRows.mem_iff (h : WritesRows rows layout outs) :
    (∃ p ∈ outs, x ∈ p.rows id) ↔ x ∈ rows id := by
  rw [← (h.rows id).mem_iff, mem_flatMap]

theorem Calm.publish (h : Calm e g) (hd : e.flushing = some d)
    (houts : WritesRows d [] outs) (hrolled : ∀ id, ∀ x ∈ e.detached id, g.rolled ≤ x.ts)
    (hloaded : ∀ p ∈ g.loaded, p.maxTime < (e.newest - e.window) ⊔ g.rolled) :
    Calm (e.publish outs) g := by
  have hdetached : ∀ id, e.detached id = d id := fun id => by rw [TierEngine.detached, hd]; rfl
  have hpending : ∀ id, e.pending id = d id ++ e.head id := fun id => by
    rw [TierEngine.pending, hdetached]
  have hnodup : ∀ id, ((d id).map Sample.ts).Nodup := fun id =>
    (h.nodup id).sublist ((hpending id ▸ sublist_append_left _ _ : (d id).Sublist _).map _)
  have hbuffered : ∀ id, ∀ x ∈ d id, Buffered e g id x := fun id x hx =>
    h.pending id x (hpending id ▸ mem_append_left _ hx)
  have hcutoff : e.cutoff = e.newest - e.window := if_neg (h.busy d hd).ne'
  have hout : ∀ {p : Part ID F}, p ∈ outs → ∀ {id : ID} {x : Sample F}, x ∈ p.rows id → x ∈ d id :=
    fun hp _ _ hx => houts.mem_iff.mp ⟨_, hp, hx⟩
  have hdR : ∀ id, ∀ x ∈ d id, g.rolled ≤ x.ts := fun id x hx => hrolled id x (hdetached id ▸ hx)
  -- a sample of the flush is at no timestamp of the head, nor of a part
  have hdhead : ∀ id, ∀ x ∈ d id, ∀ y ∈ e.head id, x.ts ≠ y.ts := by
    intro id x hx y hy
    have hn := h.nodup id
    rw [hpending, map_append, nodup_append] at hn
    exact hn.2.2 x.ts (mem_map_of_mem hx) y.ts (mem_map_of_mem hy)
  have hdpart : ∀ p ∈ e.parts, ∀ id, ∀ x ∈ p.rows id, ∀ y ∈ d id, g.rolled ≤ x.ts → x.ts ≠ y.ts :=
    fun p hp id x hx y hy => h.apart p hp id x hx y (hpending id ▸ mem_append_left _ hy)
  have hdone : ∀ id, ∀ x ∈ d id, ∀ y ∈ d id, x.ts = y.ts → x = y := fun id x hx y hy heq =>
    inj_on_of_nodup_map (hnodup id) hx hy heq
  obtain ⟨recent, recentMin, heq, hrecent⟩ := e.publish_spec hd outs
  rw [heq]
  refine
    { rolled := h.rolled
      busy := nofun
      pending := fun id x hx => ?_
      nodup := fun id => ?_
      strict := forall_mem_append.mpr ⟨h.strict, fun p hp id => houts.strict (hnodup id) hp⟩
      layout := forall_mem_append.mpr ⟨h.layout, fun p hp => houts.layout p hp ▸ nofun⟩
      nonneg := forall_mem_append.mpr
        ⟨h.nonneg, fun p hp id x hx => (hbuffered id x (hout hp hx)).pos.le⟩
      bounds := forall_mem_append.mpr ⟨h.bounds, houts.bounds⟩
      live := forall_mem_append.mpr ⟨h.live, fun p hp id x hx _ => ?_⟩
      one := fun p hp q hq id x hx y hy hR hxy => ?_
      apart := fun p hp id x hx y hy hR => ?_
      mirrors := fun r' hr' => ?_ }
  · have hb := h.pending id x (hpending id ▸ mem_append_right _ hx)
    exact { hb with }
  · exact (h.nodup id).sublist ((sublist_append_right _ _).map Sample.ts)
  · have hb := hbuffered id x (hout hp hx)
    exact ⟨hb.seen, hb.pos, hb.lt⟩
  · rcases mem_append.mp hp with hp | hp
    · rcases mem_append.mp hq with hq | hq
      · exact h.one p hp q hq id x hx y hy hR hxy
      · exact absurd hxy (hdpart p hp id x hx y (hout hq hy) hR)
    · rcases mem_append.mp hq with hq | hq
      · exact absurd hxy.symm (hdpart q hq id y hy x (hout hp hx) (hxy ▸ hR))
      · exact hdone id x (hout hp hx) y (hout hq hy) hxy
  · rcases mem_append.mp hp with hp | hp
    · exact h.apart p hp id x hx y (mem_append_right _ hy) hR
    · exact hdhead id x (hout hp hx) y hy
  obtain ⟨r, hr, hmem, hsub, hmin⟩ := hrecent r' hr'
  obtain ⟨C, hm⟩ := h.mirrors r hr
  -- the tier reaches back to the window, or to the last rollup
  have hC : C ≤ (e.newest - e.window) ⊔ g.rolled :=
    hm.reach.elim id fun ⟨p, hp, hC⟩ => hC.trans (Int.add_one_le_of_lt (hloaded p hp))
  refine ⟨(e.newest - e.window) ⊔ g.rolled, le_sup_right, fun id x hx => ?_, fun id => ?_,
    fun p hp id x hx hCx => ?_, ?_, .inl le_rfl⟩
  · obtain ⟨hx, hcut⟩ := (hmem id x).mp hx
    rw [hcutoff] at hcut
    rcases hx with hx | hx
    · obtain ⟨hCx, p, hp, hxp⟩ := hm.tier id x hx
      exact ⟨sup_le hcut (hm.rolled.trans hCx), p, mem_append_left _ hp, hxp⟩
    · obtain ⟨p, hp, hxp⟩ := houts.mem_iff.mpr hx
      exact ⟨sup_le hcut (hdR id x hx), p, mem_append_right _ hp, hxp⟩
  · refine List.Nodup.sublist ((hsub id).map Sample.ts) ?_
    rw [map_append, nodup_append]
    refine ⟨hm.nodup id, hnodup id, fun t ht u hu => ?_⟩
    obtain ⟨x, hx, rfl⟩ := mem_map.mp ht
    obtain ⟨y, hy, rfl⟩ := mem_map.mp hu
    obtain ⟨hCx, p, hp, hxp⟩ := hm.tier id x hx
    exact hdpart p hp id x hxp y hy (hm.rolled.trans hCx)
  · refine (hmem id x).mpr ⟨?_, hcutoff ▸ le_sup_left.trans hCx⟩
    rcases mem_append.mp hp with hp | hp
    · exact .inl (hm.parts p hp id x hx (hC.trans hCx))
    · exact .inr (hout hp hx)
  · rw [hmin]
    exact TierEngine.minFirst_spec _ _

theorem Calm.ts_mem (h : Calm e g) (hp : p ∈ e.parts) (hx : x ∈ p.rows id) :
    x.ts ∈ Set.Ico 0 (2 ^ 63) := by
  refine ⟨h.nonneg p hp id x hx, ?_⟩
  rcases lt_or_ge x.ts g.rolled with hlt | hge
  · exact (hlt.trans_le h.rolled).trans (by decide)
  · exact (h.live p hp id x hx hge).2.2.trans (by decide)

/-- **From the last rollup on a merge changes no row.** -/
theorem Calm.mem_merged [Float64 F] (h : Calm e g)
    (houts : WritesRows
      (fun id => (rollSeries (sourceRuns (e.selected removed) id) tiers).map Prod.fst)
      marker outs) :
    (∀ p ∈ outs, ∀ id, Strict Sample.ts (p.rows id) ∧ ∀ x ∈ p.rows id, 0 ≤ x.ts) ∧
      ∀ id x, g.rolled ⊔ rolledBefore tiers marker ≤ x.ts →
        ((∃ p ∈ replaceParts e.parts removed outs, x ∈ p.rows id) ↔ ∃ p ∈ e.parts,
          x ∈ p.rows id) := by
  have hsel : ∀ p ∈ e.selected removed, p ∈ e.parts := fun p hp => mem_of_mem_filter hp
  have hrun : ∀ {id : ID} {q : Run F}, q ∈ sourceRuns (e.selected removed) id →
      ∃ p ∈ e.selected removed, q = ⟨window (p.rows id) minInt64 maxInt64, p.layout⟩ := by
    intro id q hq
    rw [sourceRuns_eq] at hq
    obtain ⟨p, hp, hq⟩ := mem_flatMap.mp hq
    exact ⟨p, hp, (mem_runOf hq).1⟩
  have hwindow : ∀ p ∈ e.selected removed, ∀ id,
      (window (p.rows id) minInt64 maxInt64).Sublist (p.rows id) := fun p hp id =>
    window_sublist (h.strict p (hsel p hp) id).ordered _ _
  obtain ⟨htiers, -⟩ := (rolledBefore_le_iff.mp (le_refl (rolledBefore tiers marker))).2
  have hroll : ∀ id,
      Strict Sample.ts ((rollSeries (sourceRuns (e.selected removed) id) tiers).map Prod.fst) ∧
      (∀ x ∈ (rollSeries (sourceRuns (e.selected removed) id) tiers).map Prod.fst, 0 ≤ x.ts) ∧
      ∀ x, g.rolled ⊔ rolledBefore tiers marker ≤ x.ts →
        (x ∈ (rollSeries (sourceRuns (e.selected removed) id) tiers).map Prod.fst ↔
          ∃ q ∈ sourceRuns (e.selected removed) id, x ∈ q.samples) := by
    refine fun id => mem_rollSeries (fun q hq => ?_) (fun q hq x hx => ?_) (fun q hq => ?_)
      (fun q hq x hx q' hq' y hy hR hxy => ?_) fun t ht hi => (htiers t ht hi).trans le_sup_right
    · obtain ⟨p, hp, rfl⟩ := hrun hq
      exact (h.strict p (hsel p hp) id).sublist (hwindow p hp id)
    · obtain ⟨p, hp, rfl⟩ := hrun hq
      exact h.ts_mem (hsel p hp) ((hwindow p hp id).mem hx)
    · obtain ⟨p, hp, rfl⟩ := hrun hq
      exact (h.layout p (hsel p hp)).mono le_sup_left
    · obtain ⟨p, hp, rfl⟩ := hrun hq
      obtain ⟨p', hp', rfl⟩ := hrun hq'
      exact h.one p (hsel p hp) p' (hsel p' hp') id x ((hwindow p hp id).mem hx) y
        ((hwindow p' hp' id).mem hy) (le_sup_left.trans hR) hxy
  refine ⟨fun p hp id => ⟨houts.strict ?_ hp, fun x hx => ?_⟩, fun id x hR => ?_⟩
  · exact pairwise_map.mpr ((hroll id).1.imp fun hlt => hlt.ne)
  · exact (hroll id).2.1 x (houts.mem_iff.mp ⟨p, hp, hx⟩)
  have hmerged : (∃ p ∈ outs, x ∈ p.rows id) ↔ ∃ p ∈ e.selected removed, x ∈ p.rows id := by
    rw [houts.mem_iff, (hroll id).2.2 x hR]
    constructor
    · rintro ⟨q, hq, hx⟩
      obtain ⟨p, hp, rfl⟩ := hrun hq
      exact ⟨p, hp, (hwindow p hp id).mem hx⟩
    · rintro ⟨p, hp, hx⟩
      obtain ⟨-, hpos, hlt⟩ := h.live p (hsel p hp) id x hx (le_sup_left.trans hR)
      have hmin : minInt64 ≤ x.ts := le_trans (by decide) hpos.le
      have hmem : x ∈ window (p.rows id) minInt64 maxInt64 := by
        rw [window_eq_filter (h.strict p (hsel p hp) id).ordered]
        exact mem_filter.mpr ⟨hx, decide_eq_true ⟨hmin, hlt.le⟩⟩
      refine ⟨⟨window (p.rows id) minInt64 maxInt64, p.layout⟩, ?_, hmem⟩
      rw [sourceRuns_eq]
      refine mem_flatMap.mpr ⟨p, hp, ?_⟩
      rw [runOf, if_neg fun hnil => by simp [isEmpty_iff.mp hnil] at hmem]
      exact mem_cons_self
  -- a part is kept or selected
  have hsplit : ∀ p, p ∈ e.parts ↔
      p ∈ (e.parts.filter fun p => !removed.contains p.pref) ∨ p ∈ e.selected removed := by
    intro p
    rw [TierEngine.selected, mem_filter, mem_filter]
    cases removed.contains p.pref <;> simp
  simp only [replaceParts, mem_append, hsplit, or_and_right, exists_or, hmerged]

theorem Calm.publishMerge [Float64 F] (h : Calm e g)
    (hbefore : ∀ t ∈ tiers ++ marker, t.before ≤ maxInt64)
    (houts : WritesRows
      (fun id => (rollSeries (sourceRuns (e.selected removed) id) tiers).map Prod.fst)
      marker outs) :
    Calm (e.publishMerge removed tiers marker outs)
      { g with rolled := g.rolled ⊔ rolledBefore tiers marker } := by
  obtain ⟨hnew, hrows⟩ := h.mem_merged houts
  obtain ⟨R, hR⟩ : ∃ R, R = rolledBefore tiers marker := ⟨_, rfl⟩
  obtain ⟨-, -, hmarker⟩ := rolledBefore_le_iff.mp (le_refl (rolledBefore tiers marker))
  rw [← hR] at hrows hmarker ⊢
  have hRmax : R ≤ maxInt64 := by
    rw [hR, rolledBefore_le_iff]
    exact ⟨by decide, fun t ht _ => hbefore t (mem_append_left _ ht),
      fun t ht => hbefore t (mem_append_right _ ht)⟩
  have hpart : ∀ {p : Part ID F}, p ∈ replaceParts e.parts removed outs → p ∈ e.parts ∨ p ∈ outs :=
    fun hp => (mem_append.mp hp).imp_left mem_of_mem_filter
  -- a row from the last rollup on was in a part before
  have hold : ∀ {p : Part ID F}, p ∈ replaceParts e.parts removed outs → ∀ {id : ID} {x : Sample F},
      x ∈ p.rows id → g.rolled ⊔ R ≤ x.ts → ∃ q ∈ e.parts, x ∈ q.rows id :=
    fun hp id x hx hx' => (hrows id x hx').mp ⟨_, hp, hx⟩
  obtain ⟨recent, recentMin, heq, hrecent⟩ :=
    ({ e with parts := replaceParts e.parts removed outs } : TierEngine ID F).trimRecentBelow_spec R
  rw [TierEngine.publishMerge, ← hR, heq]
  refine
    { h with
      rolled := sup_le h.rolled hRmax
      pending := fun id x hx => ?_
      strict := fun p hp id => (hpart hp).elim (h.strict p · id) fun hp => (hnew p hp id).1
      nonneg := fun p hp id => (hpart hp).elim (h.nonneg p · id) fun hp => (hnew p hp id).2
      layout := fun p hp => ?_
      bounds := fun p hp id x hx => (hpart hp).elim (fun hp => h.bounds p hp id x hx)
        fun hp => houts.bounds p hp id x hx
      live := fun p hp id x hx hR => ?_
      one := fun p hp q hq id x hx y hy hR hxy => ?_
      apart := fun p hp id x hx y hy hR => ?_
      mirrors := fun r' hr' => ?_ }
  · have hb := h.pending id x hx
    exact { hb with }
  · rcases hpart hp with hp | hp
    · exact (h.layout p hp).mono le_sup_left
    · rw [houts.layout p hp]
      exact fun t ht _ => (hmarker t ht).trans le_sup_right
  · obtain ⟨q, hq, hxq⟩ := hold hp hx hR
    exact h.live q hq id x hxq (le_sup_left.trans hR)
  · obtain ⟨p', hp', hxp⟩ := hold hp hx hR
    obtain ⟨q', hq', hyq⟩ := hold hq hy (hxy ▸ hR)
    exact h.one p' hp' q' hq' id x hxp y hyq (le_sup_left.trans hR) hxy
  · obtain ⟨q, hq, hxq⟩ := hold hp hx hR
    exact h.apart q hq id x hxq y hy (le_sup_left.trans hR)
  obtain ⟨r, hr, hmem, hsub, hmin⟩ := hrecent r' hr'
  obtain ⟨C, hm⟩ := h.mirrors r hr
  refine ⟨C ⊔ R, sup_le_sup_right hm.rolled R, fun id x hx => ?_,
    fun id => (hm.nodup id).sublist ((hsub id).map Sample.ts), fun p hp id x hx hCx => ?_, ?_, ?_⟩
  · obtain ⟨hx, hRx⟩ := (hmem id x).mp hx
    obtain ⟨hCx, hxp⟩ := hm.tier id x hx
    exact ⟨sup_le hCx hRx, (hrows id x (sup_le (hm.rolled.trans hCx) hRx)).mpr hxp⟩
  · obtain ⟨hC, hRx⟩ := sup_le_iff.mp hCx
    obtain ⟨q, hq, hxq⟩ := hold hp hx (sup_le (hm.rolled.trans hC) hRx)
    exact (hmem id x).mpr ⟨hm.parts q hq id x hxq hC, hRx⟩
  · rw [hmin]
    exact TierEngine.minFirst_spec _ _
  · rcases hm.reach with hC | ⟨p, hp, hC⟩
    · exact .inl ((sup_le_sup_right hC R).trans (sup_assoc _ _ _).le)
    · rcases le_total R C with hRC | hCR
      · exact .inr ⟨p, hp, (sup_eq_left.mpr hRC).le.trans hC⟩
      · exact .inl ((sup_eq_right.mpr hCR).le.trans (le_sup_right.trans le_sup_right))

theorem TierEngine.new_recent {r : ID → List (Sample F)}
    (h : (TierEngine.new window : TierEngine ID F).recent = some r) (id : ID) : r id = [] := by
  rw [TierEngine.new] at h
  split at h
  · rw [← Option.some.inj h]
  · cases h

theorem Calm.restart (h : Calm e g) (hparts : parts.Perm e.parts) (replay : Bool) :
    Calm (e.restart parts replay) { g with loaded := parts } := by
  obtain ⟨head, hhead⟩ : ∃ head : ID → List (Sample F),
      head = fun id => if replay then e.pending id else [] := ⟨_, rfl⟩
  have hpending : ∀ id, (e.restart parts replay).pending id = head id := fun id => by
    rw [hhead]
    rfl
  have hsub : ∀ id, (head id).Sublist (e.pending id) := by
    intro id
    rw [hhead]
    split
    · exact .refl _
    · exact nil_sublist _
  have hnewest : ∀ id, ∀ x ∈ head id, x.ts ≤ (e.restart parts replay).newest := by
    intro id x hx
    have hle := (foldl_sup_le_iff Sample.ts (e.ids.flatMap head)).mp
      (le_refl ((e.ids.flatMap head).foldl (fun n x => n ⊔ x.ts) 0))
    have hmem := mem_flatMap.mpr ⟨id, (h.pending id x ((hsub id).mem hx)).known, hx⟩
    rw [hhead] at hle hmem
    exact hle.2 x hmem
  have hmem : ∀ {p : Part ID F}, p ∈ parts → p ∈ e.parts := fun hp => hparts.mem_iff.mp hp
  refine
    { rolled := h.rolled
      busy := nofun
      pending := fun id x hx => ?_
      nodup := fun id => ?_
      strict := fun p hp => h.strict p (hmem hp)
      layout := fun p hp => h.layout p (hmem hp)
      nonneg := fun p hp => h.nonneg p (hmem hp)
      bounds := fun p hp => h.bounds p (hmem hp)
      live := fun p hp => h.live p (hmem hp)
      one := fun p hp q hq => h.one p (hmem hp) q (hmem hq)
      apart := fun p hp id x hx y hy => ?_
      mirrors := fun r hr => ?_ }
  · rw [hpending] at hx
    have hb := h.pending id x ((hsub id).mem hx)
    exact { hb with newest := hnewest id x hx }
  · rw [hpending]
    exact (h.nodup id).sublist ((hsub id).map Sample.ts)
  · rw [hpending] at hy
    exact h.apart p (hmem hp) id x hx y ((hsub id).mem hy)
  -- the tier is empty, and mirrors what lies after all parts
  have hnil := TierEngine.new_recent hr
  obtain ⟨C, hC⟩ : ∃ C, C = parts.foldl (fun c p => c ⊔ (p.maxTime + 1)) g.rolled := ⟨_, rfl⟩
  have hle : ∀ {R : ℤ}, C ≤ R ↔ g.rolled ≤ R ∧ ∀ p ∈ parts, p.maxTime + 1 ≤ R := by
    rw [hC]
    exact foldl_sup_le_iff _ _
  obtain ⟨hrolled, hbehind⟩ := hle.mp le_rfl
  refine ⟨C, hrolled, fun id x hx => ?_, fun id => ?_, fun p hp id x hx hCx => ?_, .inl rfl, ?_⟩
  · exact absurd hx (hnil id ▸ not_mem_nil)
  · rw [hnil]
    exact nodup_nil
  · have hmax := (h.bounds p (hmem hp) id x hx).2
    have hpC := hbehind p hp
    omega
  by_contra hreach
  rw [not_or] at hreach
  obtain ⟨hnot, hnone⟩ := hreach
  have hlt : g.rolled < C := lt_of_not_ge fun hge => hnot (hge.trans le_sup_right)
  have hall : ∀ p ∈ parts, p.maxTime + 1 ≤ C - 1 := fun p hp =>
    Int.le_sub_one_of_lt (lt_of_not_ge fun hge => hnone ⟨p, hp, hge⟩)
  have hself := hle.mpr ⟨Int.le_sub_one_of_lt hlt, hall⟩
  omega

/-! ## The tier is transparent in calm histories -/

theorem calm_new (window : ℤ) : Calm (TierEngine.new window : TierEngine ID F) .start where
  rolled := show minInt64 ≤ maxInt64 by decide
  busy := nofun
  pending := nofun
  nodup _ := nodup_nil
  strict := nofun
  layout := nofun
  nonneg := nofun
  bounds := nofun
  live := nofun
  one := nofun
  apart := nofun
  mirrors r hr := by
    have hnil := TierEngine.new_recent hr
    refine ⟨minInt64, le_rfl, fun id x hx => ?_, fun id => ?_, nofun, .inl rfl, .inl le_sup_right⟩
    · exact absurd hx (hnil id ▸ not_mem_nil)
    · rw [hnil]
      exact nodup_nil

theorem Calm.step [Float64 F] [DecidableEq ID] (h : Calm e g) {act : Act ID F}
    (hvalid : e.Valid act) (hrule : calmActs g e act) : Calm (e.step act) (g.note act) := by
  cases act with
  | append id x => exact h.append hrule.1 hrule.2.1 hrule.2.2
  | beginFlush => exact h.beginFlush
  | abortFlush => exact h.abortFlush
  | publish outs =>
    obtain ⟨d, hd, houts⟩ := hvalid
    exact h.publish hd houts hrule.1 hrule.2
  | merge removed tiers marker outs => exact h.publishMerge hvalid.1 hvalid.2
  | restart parts replay => exact h.restart hvalid replay

theorem Lockstep.calm [Float64 F] [DecidableEq ID] (h : Lockstep calmActs window e e₀ g) :
    Calm e g := by
  induction h with
  | new => exact calm_new window
  | step _ act hvalid hrule ih => exact ih.step hvalid hrule

end Histories

/-! ## A part the tier hides -/

/-- A part with one row. -/
def solePart (pref : String) (id : ℕ) (x : Sample ℚ) : Part ℕ ℚ :=
  ⟨pref, x.ts, x.ts, [], [id], update (fun _ => []) id [x]⟩

theorem writesRows_solePart (pref : String) (id : ℕ) (x : Sample ℚ) :
    WritesRows (update (fun _ => []) id [x]) [] [solePart pref id x] := by
  have hrow : ∀ id', update (fun _ => []) id [x] id' = if id' = id then [x] else [] :=
    fun id' => by rw [update_apply]
  refine ⟨fun id' => ?_, fun p hp id' => ?_, fun p hp => ?_, fun p hp id' s hs => ?_⟩
  · rw [flatMap_cons, flatMap_nil, append_nil]
    rfl
  · rw [mem_singleton.mp hp]
    show Ordered Sample.ts (update (fun _ => []) id [x] id')
    rw [hrow]
    split
    · exact pairwise_singleton _ _
    · exact .nil
  · rw [mem_singleton.mp hp]
    rfl
  · rw [mem_singleton.mp hp] at hs ⊢
    have hs' : s ∈ update (fun _ => []) id [x] id' := hs
    rw [hrow] at hs'
    split at hs'
    · rw [mem_singleton.mp hs']
      exact ⟨le_rfl, le_rfl⟩
    · cases hs'

/-- An engine that flushed a sample of series 1. -/
def flushed (window : ℤ) : TierEngine ℕ ℚ :=
  (((TierEngine.new window).step (.append 1 ⟨160, 7, 1⟩)).step .beginFlush).step
    (.publish [solePart "a" 1 ⟨160, 7, 1⟩])

/-- The same, started again, after an older sample of series 2 was flushed. -/
def reopened (window : ℤ) : TierEngine ℕ ℚ :=
  ((((flushed window).step (.restart [solePart "a" 1 ⟨160, 7, 1⟩] true)).step
    (.append 2 ⟨150, 8, 1⟩)).step .beginFlush).step (.publish [solePart "b" 2 ⟨150, 8, 1⟩])

end OtelStorage.Metrics
