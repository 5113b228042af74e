import OtelStorage.Metrics.Read
import Mathlib.Algebra.Order.Group.Multiset
import Mathlib.Data.List.Dedup
import Mathlib.Tactic.Abel

/-!
# Compaction

A merge reads the rows of the selected parts, oldest part first, writes them to new parts, one or
more for each day, and replaces the selected parts by the new ones.  The new parts go to the end of
the list, whatever the positions of the selected ones.

* `Compacts`: what a merge writes, for any choice of the days' writers being finished early.
* `compaction_reads_iff`: no read changes exactly when no selected part overtakes one that was not
  selected (`NoOvertake`): at every timestamp a selected part holds, the freshest row of the
  selected parts is the freshest of all.
* `compaction_changes_read`: a selection around a part in between, and the read it changes.
-/

namespace OtelStorage.Metrics

open Fibers List Function

variable {ID F : Type*} {selected : List (Part ID F)}

/-! ## The merged rows -/

/-- The runs of a series in the parts of a merge. -/
def sourceRuns (selected : List (Part ID F)) (id : ID) : List (Run F) :=
  selected.foldl (fun runs p => addRun runs (p.rows id) p.layout minInt64 maxInt64) []

/-- The merged rows of a series, under no tier. -/
def mergedRows [Float64 F] (selected : List (Part ID F)) (id : ID) : List (Sample F) :=
  (rollSeries (sourceRuns selected id) []).map Prod.fst

theorem sourceRuns_eq (selected : List (Part ID F)) (id : ID) :
    sourceRuns selected id =
      selected.flatMap fun p => runOf p.layout minInt64 maxInt64 (p.rows id) := by
  simp only [sourceRuns, addRun_eq]
  exact flatMap_eq_foldl.symm

section

variable (h : ∀ p ∈ selected, p.Raw) (id : ID)

include h

theorem column_sourceRuns (t : ℤ) : column t (sourceRuns selected id) = held selected id t := by
  rw [sourceRuns_eq, column_flatMap, held]
  refine congrArg overlayAll (map_congr_left fun p hp => ?_)
  rw [column_runOf ((h p hp).strict id).ordered, fiberIn]
  split
  · rfl
  · next hout =>
    refine (fiber_eq_nil Sample.ts fun s hs heq => hout ?_).symm
    exact heq ▸ (h p hp).range id s hs

theorem strictRun_of_mem_sourceRuns {id : ID} {r : Run F} (hr : r ∈ sourceRuns selected id) :
    StrictRun r := by
  rw [sourceRuns_eq] at hr
  obtain ⟨p, hp, hr⟩ := mem_flatMap.mp hr
  have hstrict := (h p hp).strict id
  rw [(h p hp).layout] at hr
  have hrun := rawRun_of_mem_runOf hstrict.ordered hr
  obtain ⟨rfl, -⟩ := mem_runOf hr
  exact ⟨hrun, hstrict.sublist (window_sublist hstrict.ordered _ _)⟩

theorem mergedRows_eq [Float64 F] : mergedRows selected id = collect (sourceRuns selected id) := by
  rw [mergedRows, rollSeries_raw fun r hr => strictRun_of_mem_sourceRuns h hr, map_map]
  exact map_id _

/-- **The merged rows are what the selected parts hold**, one a timestamp. -/
theorem fiber_mergedRows [Float64 F] (t : ℤ) :
    fiber Sample.ts t (mergedRows selected id) = held selected id t := by
  rw [mergedRows_eq h, fiber_collect (fun r hr => strictRun_of_mem_sourceRuns h hr),
    column_sourceRuns h]

theorem strict_mergedRows [Float64 F] : Strict Sample.ts (mergedRows selected id) := by
  rw [mergedRows_eq h]
  exact collect_strict fun r hr => strictRun_of_mem_sourceRuns h hr

theorem mem_mergedRows [Float64 F] {id : ID} {s : Sample F} (hs : s ∈ mergedRows selected id) :
    ∃ p ∈ selected, s ∈ p.rows id := by
  have hheld : s ∈ held selected id s.ts := by
    rw [← fiber_mergedRows h]
    exact (mem_fiber Sample.ts).mpr ⟨hs, rfl⟩
  obtain ⟨m, hm, hsm⟩ := mem_of_mem_overlayAll hheld
  obtain ⟨p, hp, rfl⟩ := mem_map.mp hm
  exact ⟨p, hp, ((mem_fiber Sample.ts).mp hsm).1⟩

end

/-! ## Writing the merged rows -/

/-- The widest bucket of the merge ladder, a day in nanoseconds. -/
def topBucket : ℤ := 24 * 60 * 60 * 1000000000

/-- The start of the day of a timestamp. -/
def dayOf (ts : ℤ) : ℤ := ts - ts % topBucket

/-- The last timestamp of the day. -/
def dayEnd (ts : ℤ) : ℤ := dayOf ts + topBucket - 1

/-- The stretches of rows within one day. -/
def dayRuns : List (Sample F) → List (List (Sample F))
  | [] => []
  | s :: rest =>
      (s :: rest.takeWhile fun u => u.ts ≤ dayEnd s.ts) ::
        dayRuns (rest.dropWhile fun u => u.ts ≤ dayEnd s.ts)
termination_by l => l.length
decreasing_by
  rw [length_cons]
  exact Nat.lt_succ_of_le (dropWhile_suffix _).length_le

theorem flatten_dayRuns (l : List (Sample F)) : (dayRuns l).flatten = l := by
  fun_induction dayRuns l with
  | case1 => rfl
  | case2 s rest ih => rw [flatten_cons, ih, cons_append, takeWhile_append_dropWhile]

/-- The rows of a part that is being written. -/
abbrev Rows (ID F : Type*) := ID → List (Sample F)

/-- A merge under way: stretches of rows still to be written, the day each open writer is for with
the rows it has, and the parts finished. -/
structure Routing (ID F : Type*) where
  todo : List (ID × List (Sample F))
  opened : List (ℤ × Rows ID F)
  done : List (Rows ID F)

variable [DecidableEq ID] (rows : Rows ID F) (parts : List (Part ID F)) {merged : Rows ID F}
  {id id' : ID} {st' st : Routing ID F}

/-- Rows appended to a series. -/
def Rows.append (id : ID) (run : List (Sample F)) : Rows ID F :=
  update rows id (rows id ++ run)

/-- What the router does.  A writer is finished when it is full, when too many are open, when they
hold too much, and at the end: whenever it is open, that may happen. -/
inductive RouteStep : Routing ID F → Routing ID F → Prop
  | append {todo : List (ID × List (Sample F))} {pre post : List (ℤ × Rows ID F)}
      {done : List (Rows ID F)} {id : ID} {s : Sample F} {run : List (Sample F)}
      {rows : Rows ID F} :
      RouteStep ⟨(id, s :: run) :: todo, pre ++ (dayOf s.ts, rows) :: post, done⟩
        ⟨todo, pre ++ (dayOf s.ts, rows.append id (s :: run)) :: post, done⟩
  | start {todo : List (ID × List (Sample F))} {opened : List (ℤ × Rows ID F)}
      {done : List (Rows ID F)} {id : ID} {s : Sample F} {run : List (Sample F)}
      (h : ∀ w ∈ opened, w.1 ≠ dayOf s.ts) :
      RouteStep ⟨(id, s :: run) :: todo, opened, done⟩
        ⟨todo, opened ++ [(dayOf s.ts, Rows.append (fun _ => []) id (s :: run))], done⟩
  | finish {todo : List (ID × List (Sample F))} {pre post : List (ℤ × Rows ID F)}
      {done : List (Rows ID F)} {day : ℤ} {rows : Rows ID F} :
      RouteStep ⟨todo, pre ++ (day, rows) :: post, done⟩ ⟨todo, pre ++ post, done ++ [rows]⟩

/-- The series of a merge. -/
def mergeKeys (selected : List (Part ID F)) : List ID := (selected.flatMap Part.series).dedup

/-- All the stretches a merge writes, series after series. -/
def mergeRuns [Float64 F] (selected : List (Part ID F)) : List (ID × List (Sample F)) :=
  (mergeKeys selected).flatMap fun id => (dayRuns (mergedRows selected id)).map fun run => (id, run)

/-- A part written with these rows. -/
structure Written (rows : Rows ID F) (p : Part ID F) : Prop where
  rows : ∀ id, p.rows id = rows id
  layout : p.layout = []
  bounds : ∀ id, ∀ s ∈ p.rows id, p.minTime ≤ s.ts ∧ s.ts ≤ p.maxTime
  series : ∀ id, p.rows id ≠ [] → id ∈ p.series

/-- **What a merge of the selected parts writes.** -/
def Compacts [Float64 F] (selected outs : List (Part ID F)) : Prop :=
  ∃ done, Relation.ReflTransGen RouteStep ⟨mergeRuns selected, [], []⟩ ⟨[], [], done⟩ ∧
    List.Forall₂ Written done outs

/-- The parts of an engine with some taken out by their prefix and others appended. -/
def replaceParts (removed : List String) (add : List (Part ID F)) :
    List (Part ID F) :=
  (parts.filter fun p => !removed.contains p.pref) ++ add

/-! ## The parts written -/

/-- The rows of a series still to be written. -/
def todoOf (todo : List (ID × List (Sample F))) (id : ID) : List (Sample F) :=
  (todo.filter fun x => x.1 = id).flatMap Prod.snd

theorem todoOf_cons_self (id : ID) (run : List (Sample F)) (todo : List (ID × List (Sample F))) :
    todoOf ((id, run) :: todo) id = run ++ todoOf todo id := by
  rw [todoOf, filter_cons_of_pos (by simp), flatMap_cons]
  rfl

theorem todoOf_cons_of_ne (h : id ≠ id') (run : List (Sample F))
    (todo : List (ID × List (Sample F))) : todoOf ((id, run) :: todo) id' = todoOf todo id' := by
  rw [todoOf, filter_cons_of_neg (by simpa using h)]
  rfl

theorem todoOf_sublist (x : ID × List (Sample F)) (todo : List (ID × List (Sample F))) (id : ID) :
    (todoOf todo id).Sublist (todoOf (x :: todo) id) := by
  by_cases h : x.1 = id
  · rw [← h]
    show (todoOf todo x.1).Sublist (todoOf ((x.1, x.2) :: todo) x.1)
    rw [todoOf_cons_self]
    exact sublist_append_right _ _
  · show (todoOf todo id).Sublist (todoOf ((x.1, x.2) :: todo) id)
    rw [todoOf_cons_of_ne h]

theorem Rows.append_self (id : ID) (run : List (Sample F)) :
    rows.append id run id = rows id ++ run := update_self ..

theorem Rows.append_of_ne (h : id' ≠ id) (rows : Rows ID F) (run : List (Sample F)) :
    rows.append id run id' = rows id' := update_of_ne h _ _

/-- The rows of every writer, finished or open. -/
def Routing.writers (st : Routing ID F) : List (Rows ID F) := st.done ++ st.opened.map Prod.snd

/-- No row is lost or written twice, and each writer's rows stay in order. -/
structure RouteInv (merged : Rows ID F) (st : Routing ID F) : Prop where
  perm : ∀ id, ((st.writers.flatMap fun w => w id) ++ todoOf st.todo id).Perm (merged id)
  strict : ∀ w ∈ st.writers, ∀ id, Strict Sample.ts (w id ++ todoOf st.todo id)
  todo : ∀ id, Strict Sample.ts (todoOf st.todo id)

theorem perm_move {α : Type*} (a b c d run todo : List α) :
    ((a ++ (b ++ ((c ++ run) ++ d))) ++ todo).Perm ((a ++ (b ++ (c ++ d))) ++ (run ++ todo)) := by
  rw [← Multiset.coe_eq_coe]
  simp only [← Multiset.coe_add]
  abel

theorem strict_append {rows : Rows ID F} {run : List (Sample F)}
    {todo : List (ID × List (Sample F))}
    (h : ∀ id', Strict Sample.ts (rows id' ++ todoOf ((id, run) :: todo) id')) (id' : ID) :
    Strict Sample.ts (rows.append id run id' ++ todoOf todo id') := by
  have hid' := h id'
  by_cases hid : id' = id
  · subst hid
    rw [todoOf_cons_self, ← append_assoc] at hid'
    rwa [Rows.append_self]
  · rw [todoOf_cons_of_ne (Ne.symm hid)] at hid'
    rwa [Rows.append_of_ne hid]

theorem RouteInv.step (h : RouteInv merged st) (hstep : RouteStep st st') :
    RouteInv merged st' := by
  cases hstep with
  | @append todo pre post done id s run rows =>
    have hkeep : ∀ w : Rows ID F,
        (∀ id', Strict Sample.ts (w id' ++ todoOf ((id, s :: run) :: todo) id')) →
        ∀ id', Strict Sample.ts (w id' ++ todoOf todo id') := fun w hw id' =>
      (hw id').sublist (List.Sublist.append_left (todoOf_sublist _ todo id') _)
    refine ⟨fun id' => (?_ : List.Perm _ _).trans (h.perm id'), fun w hw => ?_,
      fun id' => (h.todo id').sublist (todoOf_sublist _ todo id')⟩
    · by_cases hid : id' = id
      · subst hid
        simp only [Routing.writers, map_append, map_cons, flatMap_append,
          flatMap_cons, Rows.append_self, todoOf_cons_self]
        exact perm_move _ _ _ _ _ _
      · simp only [Routing.writers, map_append, map_cons, flatMap_append,
          flatMap_cons, Rows.append_of_ne hid, todoOf_cons_of_ne (Ne.symm hid)]
        exact .refl _
    simp only [Routing.writers, map_append, map_cons, mem_append, mem_cons] at hw
    have hold := fun w hw => hkeep w (h.strict w hw)
    simp only [Routing.writers, map_append, map_cons, mem_append, mem_cons] at hold
    rcases hw with hw | hw | rfl | hw
    · exact hold w (.inl hw)
    · exact hold w (.inr (.inl hw))
    · refine strict_append (h.strict rows ?_)
      simp [Routing.writers]
    · exact hold w (.inr (.inr (.inr hw)))
  | @start todo opened done id s run hnew =>
    refine ⟨fun id' => (?_ : List.Perm _ _).trans (h.perm id'), fun w hw => ?_,
      fun id' => (h.todo id').sublist (todoOf_sublist _ todo id')⟩
    · by_cases hid : id' = id
      · subst hid
        simp only [Routing.writers, map_append, map_cons, map_nil,
          flatMap_append, flatMap_cons, flatMap_nil, Rows.append_self,
          todoOf_cons_self]
        simp
      · simp only [Routing.writers, map_append, map_cons, map_nil,
          flatMap_append, flatMap_cons, flatMap_nil, Rows.append_of_ne hid,
          todoOf_cons_of_ne (Ne.symm hid), append_nil]
        exact .refl _
    · rw [Routing.writers, map_append, ← append_assoc] at hw
      rcases mem_append.mp hw with hw | hw
      · exact fun id' => (h.strict w hw id').sublist
          (List.Sublist.append_left (todoOf_sublist _ todo id') _)
      · obtain rfl := mem_singleton.mp hw
        exact strict_append h.todo
  | @finish todo pre post done day rows =>
    have hperm : (Routing.writers ⟨todo, pre ++ post, done ++ [rows]⟩).Perm
        (Routing.writers ⟨todo, pre ++ (day, rows) :: post, done⟩) := by
      simp only [Routing.writers, map_append, map_cons, append_assoc, singleton_append]
      exact List.Perm.append_left _ perm_middle.symm
    refine ⟨fun id => ((hperm.flatMap_right _).append_right _).trans (h.perm id),
      fun w hw => h.strict w (hperm.mem_iff.mp hw), h.todo⟩

/-- **What the merged rows become**: each is in one part, and each part's rows are in order. -/
theorem RouteInv.run (h : RouteInv merged st)
    (hrun : Relation.ReflTransGen RouteStep st st') : RouteInv merged st' := by
  induction hrun with
  | refl => exact h
  | tail _ hstep ih => exact ih.step hstep

theorem nodup_mergeKeys (selected : List (Part ID F)) : (mergeKeys selected).Nodup :=
  nodup_dedup _

theorem todoOf_append (l m : List (ID × List (Sample F))) (id : ID) :
    todoOf (l ++ m) id = todoOf l id ++ todoOf m id := by
  rw [todoOf, filter_append, flatMap_append]
  rfl

theorem todoOf_map_self (id : ID) (runs : List (List (Sample F))) :
    todoOf (runs.map fun run => (id, run)) id = runs.flatten := by
  induction runs with
  | nil => rfl
  | cons run runs ih => rw [map_cons, todoOf_cons_self, ih, flatten_cons]

theorem todoOf_map_of_ne (h : id ≠ id') (runs : List (List (Sample F))) :
    todoOf (runs.map fun run => (id, run)) id' = [] := by
  induction runs with
  | nil => rfl
  | cons run runs ih => rw [map_cons, todoOf_cons_of_ne h, ih]

theorem todoOf_flatMap {keys : List ID} (hkeys : keys.Nodup) (id : ID) :
    todoOf (keys.flatMap fun k => (dayRuns (rows k)).map fun run => (k, run)) id =
      if id ∈ keys then rows id else [] := by
  induction keys with
  | nil => rfl
  | cons k keys ih =>
    obtain ⟨hk, hkeys⟩ := nodup_cons.mp hkeys
    rw [flatMap_cons, todoOf_append, ih hkeys]
    by_cases hid : k = id
    · subst hid
      rw [todoOf_map_self, flatten_dayRuns, if_neg hk, if_pos mem_cons_self, append_nil]
    · rw [todoOf_map_of_ne hid, nil_append]
      simp only [mem_cons, Ne.symm hid, false_or]

theorem todoOf_mergeRuns [Float64 F] (h : ∀ p ∈ selected, p.Raw) (id : ID) :
    todoOf (mergeRuns selected) id = mergedRows selected id := by
  rw [mergeRuns, todoOf_flatMap _ (nodup_mergeKeys selected)]
  split
  · rfl
  next hid =>
  refine (eq_nil_iff_forall_not_mem.mpr fun s hs => hid ?_).symm
  obtain ⟨p, hp, hsp⟩ := mem_mergedRows h hs
  exact mem_dedup.mpr (mem_flatMap.mpr ⟨p, hp, (h p hp).series id (ne_nil_of_mem hsp)⟩)

theorem RouteInv.init [Float64 F] (h : ∀ p ∈ selected, p.Raw) :
    RouteInv (mergedRows selected) ⟨mergeRuns selected, [], []⟩ where
  perm id := by
    rw [todoOf_mergeRuns h]
    exact .refl _
  strict w hw := nomatch hw
  todo id := by
    rw [todoOf_mergeRuns h]
    exact strict_mergedRows h id

section

variable {done : List (Rows ID F)} {outs : List (Part ID F)} (h : List.Forall₂ Written done outs)

include h

section

omit [DecidableEq ID]

theorem map_rows_of_written (id : ID) : outs.map (fun p => p.rows id) = done.map fun w => w id := by
  induction h with
  | nil => rfl
  | cons hw _ ih => rw [map_cons, map_cons, ih, hw.rows]

theorem exists_written_of_mem {p : Part ID F} (hp : p ∈ outs) : ∃ w ∈ done, Written w p := by
  induction h with
  | nil => cases hp
  | cons hw _ ih =>
    rcases mem_cons.mp hp with rfl | hp
    · exact ⟨_, mem_cons_self, hw⟩
    · obtain ⟨w, hw, hwp⟩ := ih hp
      exact ⟨w, mem_cons_of_mem _ hw, hwp⟩

end

end

variable {outs : List (Part ID F)} {pref : String} {minTime maxTime : ℤ}

/-- **What a merge writes**: raw parts that hold what the selected ones do. -/
theorem Compacts.spec [Float64 F] (h : ∀ p ∈ selected, p.Raw) (hc : Compacts selected outs) :
    (∀ p ∈ outs, p.Raw) ∧ ∀ id t, held outs id t = held selected id t := by
  obtain ⟨done, hrun, hwritten⟩ := hc
  have hinv := (RouteInv.init h).run hrun
  have hperm : ∀ id, (done.flatMap fun w => w id).Perm (mergedRows selected id) := by
    intro id
    have := hinv.perm id
    simpa [Routing.writers, todoOf] using this
  constructor
  · intro p hp
    obtain ⟨w, hw, hwp⟩ := exists_written_of_mem hwritten hp
    refine ⟨hwp.layout, fun id => ?_, hwp.bounds, fun id s hs => ?_, hwp.series⟩
    · have := hinv.strict w (by simpa [Routing.writers] using hw) id
      rw [hwp.rows]
      simpa [todoOf] using this
    · rw [hwp.rows] at hs
      obtain ⟨q, hq, hsq⟩ := mem_mergedRows h ((hperm id).mem_iff.mp (mem_flatMap.mpr ⟨w, hw, hs⟩))
      exact (h q hq).range id s hsq
  · intro id t
    have hflat : (outs.map fun p => fiber Sample.ts t (p.rows id)).flatten =
        fiber Sample.ts t (done.flatMap fun w => w id) := by
      rw [fiber, List.flatMap, filter_flatten, ← map_rows_of_written hwritten id, map_map]
      rfl
    have hfiber : (fiber Sample.ts t (done.flatMap fun w => w id)).Perm (held selected id t) := by
      rw [← fiber_mergedRows h]
      exact (hperm id).filter _
    have hlen : (fiber Sample.ts t (done.flatMap fun w => w id)).length ≤ 1 :=
      hfiber.length_eq ▸ length_held_le h id t
    rw [held, overlayAll_eq_flatten (hflat ▸ hlen), hflat]
    -- of at most one row, so the order does not matter
    cases hl : fiber Sample.ts t (done.flatMap fun w => w id) with
    | nil =>
      rw [hl] at hfiber
      exact (nil_perm.mp hfiber).symm
    | cons s rest =>
      rw [hl] at hfiber hlen
      obtain rfl : rest = [] := length_eq_zero_iff.mp (Nat.le_zero.mp (Nat.le_of_succ_le_succ hlen))
      exact singleton_perm.mp hfiber

/-! ## Reads before and after -/

/-- The freshest row the parts hold of a series at a timestamp: that of the last part which has
one. -/
def freshest (id : ID) (t : ℤ) : Option (Sample F) :=
  parts.reverse.findSome? fun p => (p.rows id).find? fun s => s.ts = t

/-- **No selected part overtakes one that is not selected**: where the selected parts hold a row,
the freshest of theirs is the freshest of all. -/
def NoOvertake (selected : List (Part ID F)) : Prop :=
  ∀ id t s, freshest selected id t = some s → freshest parts id t = some s

section

omit [DecidableEq ID]

theorem freshest_append (qs : List (Part ID F)) (id : ID) (t : ℤ) :
    freshest (parts ++ qs) id t = (freshest qs id t).or (freshest parts id t) := by
  rw [freshest, reverse_append, List.findSome?_append]
  rfl

/-- The newest parts of the list overtake none. -/
theorem noOvertake_suffix (older selected : List (Part ID F)) :
    NoOvertake (older ++ selected) selected := by
  intro id t s hs
  rw [freshest_append, hs, Option.some_or]

theorem fiber_eq_find? {l : List (Sample F)} (h : Strict Sample.ts l) (t : ℤ) :
    fiber Sample.ts t l = (l.find? fun s => s.ts = t).toList := by
  cases hf : l.find? fun s => s.ts = t with
  | none =>
    refine fiber_eq_nil Sample.ts fun s hs heq => ?_
    exact absurd (decide_eq_true heq) (List.find?_eq_none.mp hf s hs)
  | some s =>
    have hts := List.find?_some hf
    obtain rfl : s.ts = t := of_decide_eq_true hts
    exact h.fiber_eq (mem_of_find?_eq_some hf)

variable {parts}

theorem held_eq_freshest (h : ∀ p ∈ parts, p.Raw) (id : ID) (t : ℤ) :
    held parts id t = (freshest parts id t).toList := by
  induction parts with
  | nil => rfl
  | cons p ps ih =>
    obtain ⟨hp, hps⟩ := forall_mem_cons.mp h
    have hcons : freshest (p :: ps) id t =
        (freshest ps id t).or ((p.rows id).find? fun s => s.ts = t) := by
      have hone : freshest [p] id t = (p.rows id).find? fun s => s.ts = t :=
        List.findSome?_singleton
      rw [← singleton_append, freshest_append, hone]
    show overlay (fiber Sample.ts t (p.rows id)) (held ps id t) = _
    rw [ih hps, hcons, fiber_eq_find? (hp.strict id)]
    cases freshest ps id t with
    | none => rfl
    | some s => cases ((p.rows id).find? fun s => s.ts = t) <;> rfl

theorem held_replaceParts (hout : ∀ id t, held outs id t = held selected id t) (id : ID) (t : ℤ) :
    held (replaceParts parts (selected.map Part.pref) outs) id t =
      overlay (held (parts.filter fun p => !(selected.map Part.pref).contains p.pref) id t)
        (held selected id t) := by
  rw [replaceParts, held_append, hout]

theorem mem_of_pref_mem (hsel : selected.Sublist parts) (hprefs : (parts.map Part.pref).Nodup)
    {p : Part ID F} (hp : p ∈ parts) (hpref : p.pref ∈ selected.map Part.pref) : p ∈ selected := by
  obtain ⟨q, hq, heq⟩ := mem_map.mp hpref
  rwa [← inj_on_of_nodup_map hprefs (hsel.mem hq) hp heq]

end

/-- **Compaction changes no read exactly when no selected part overtakes another.**  For parts of
raw rows, any of them selected, and anything a merge may write for them: every read, of any series
and window, with any in-memory batches and however the parts are cut into blocks, is as before if
and only if `NoOvertake`. -/
theorem compaction_reads_iff [Float64 F] {parts selected outs : List (Part ID F)}
    (hraw : ∀ p ∈ parts, p.Raw) (hprefs : (parts.map Part.pref).Nodup)
    (hsel : selected.Sublist parts) (hc : Compacts selected outs) :
    (∀ (blocks blocks' : Blocks ID F) (mem : List (List (Sample F))),
      (∀ b ∈ mem, Ordered Sample.ts b) → ∀ id start stop,
        read blocks' (replaceParts parts (selected.map Part.pref) outs) mem id start stop =
          read blocks parts mem id start stop) ↔ NoOvertake parts selected := by
  have hselRaw : ∀ p ∈ selected, p.Raw := fun p hp => hraw p (hsel.mem hp)
  obtain ⟨houtRaw, hout⟩ := hc.spec hselRaw
  have hkeptRaw : ∀ p ∈ parts.filter fun p => !(selected.map Part.pref).contains p.pref, p.Raw :=
    fun p hp => hraw p (mem_of_mem_filter hp)
  have hnewRaw : ∀ p ∈ replaceParts parts (selected.map Part.pref) outs, p.Raw := fun p hp =>
    (mem_append.mp hp).elim (hkeptRaw p) (houtRaw p)
  -- where the selected parts hold a row, it is what the new parts hold
  have hwins : ∀ id t s, freshest selected id t = some s →
      held (replaceParts parts (selected.map Part.pref) outs) id t = [s] := by
    intro id t s hs
    have hheld : held selected id t = [s] := by rw [held_eq_freshest hselRaw, hs]; rfl
    rw [held_replaceParts hout, hheld]
    exact overlay_eq_right (length_held_le hkeptRaw id t) (cons_ne_nil _ _)
  constructor
  · intro hreads id t s hs
    have hread := hreads (Blocks.whole ID F) (Blocks.whole ID F) [] (nofun) id t t
    have hsame := congrArg (fiber Sample.ts t) hread
    rw [fiber_read_self _ hnewRaw, fiber_read_self _ hraw, hwins id t s hs,
      held_eq_freshest hraw] at hsame
    exact Option.toList_eq_singleton_iff.mp hsame.symm
  · intro hno blocks blocks' mem hmem id start stop
    refine read_congr blocks blocks' hraw hnewRaw (fun t _ => ?_) hmem
    cases hs : freshest selected id t with
    | some s => rw [hwins id t s hs, held_eq_freshest hraw, hno id t s hs]; rfl
    | none =>
      have hnil : held selected id t = [] := by rw [held_eq_freshest hselRaw, hs]; rfl
      rw [held_replaceParts hout, hnil, overlay_nil_right, held, held]
      refine overlayAll_filter_map _ _ fun p hp hpref => ?_
      rw [Bool.not_eq_false', contains_iff_mem] at hpref
      exact overlayAll_eq_nil.mp hnil _ (mem_map_of_mem (mem_of_pref_mem hsel hprefs hp hpref))

/-! ## A selection around a part -/

/-- A part with rows of one series. -/
def onePart (pref : String) (minTime maxTime : ℤ) (rows : List (Sample ℚ)) : Part Unit ℚ :=
  ⟨pref, minTime, maxTime, [], [()], fun _ => rows⟩

theorem onePart_raw {rows : List (Sample ℚ)} (hstrict : rows.Pairwise fun a b => a.ts < b.ts)
    (hbounds : ∀ s ∈ rows, (minTime ≤ s.ts ∧ s.ts ≤ maxTime) ∧ minInt64 ≤ s.ts ∧ s.ts ≤ maxInt64) :
    (onePart pref minTime maxTime rows).Raw :=
  ⟨rfl, fun _ => hstrict, fun _ s hs => (hbounds s hs).1, fun _ s hs => (hbounds s hs).2,
    fun _ _ => mem_singleton.mpr rfl⟩

theorem compacts_onePart {selected : List (Part Unit ℚ)} {s : Sample ℚ} {run : List (Sample ℚ)}
    (hruns : mergeRuns selected = [((), s :: run)])
    (hbounds : ∀ u ∈ s :: run, minTime ≤ u.ts ∧ u.ts ≤ maxTime) :
    Compacts selected [onePart pref minTime maxTime (s :: run)] := by
  refine ⟨[Rows.append (fun _ => []) () (s :: run)], ?_, .cons ⟨fun _ => ?_, rfl, fun _ => hbounds,
    fun _ _ => mem_singleton.mpr rfl⟩ .nil⟩
  · rw [hruns]
    have hstart : RouteStep (⟨[((), s :: run)], [], []⟩ : Routing Unit ℚ)
        ⟨[], [] ++ [(dayOf s.ts, Rows.append (fun _ => []) () (s :: run))], []⟩ :=
      .start nofun
    have hfinish : RouteStep
        (⟨[], [] ++ (dayOf s.ts, Rows.append (fun _ => []) () (s :: run)) :: [],
          []⟩ : Routing Unit ℚ)
        ⟨[], [] ++ [], [] ++ [Rows.append (fun _ => []) () (s :: run)]⟩ := .finish
    exact (Relation.ReflTransGen.single hstart).tail hfinish
  · exact (Rows.append_self (fun _ : Unit => ([] : List (Sample ℚ))) () (s :: run)).symm

/-- Three parts, the last of which rewrote the row of the first; the last two merged. -/
theorem compaction_reads_suffix :
    read (Blocks.whole Unit ℚ)
        (replaceParts [onePart "1" 10 10 [⟨10, 1, 1⟩], onePart "2" 20 20 [⟨20, 2, 1⟩],
          onePart "3" 10 10 [⟨10, 3, 1⟩]] ["2", "3"] [onePart "4" 10 20 [⟨10, 3, 1⟩, ⟨20, 2, 1⟩]])
        [] () 0 100 =
      read (Blocks.whole Unit ℚ) [onePart "1" 10 10 [⟨10, 1, 1⟩], onePart "2" 20 20 [⟨20, 2, 1⟩],
        onePart "3" 10 10 [⟨10, 3, 1⟩]] [] () 0 100 := by
  have hc : Compacts [onePart "2" 20 20 [⟨20, 2, 1⟩], onePart "3" 10 10 [⟨10, 3, 1⟩]]
      [onePart "4" 10 20 [⟨10, 3, 1⟩, ⟨20, 2, 1⟩]] :=
    compacts_onePart (by decide +kernel) (by decide)
  have hraw : ∀ p ∈ [onePart "1" 10 10 [⟨10, 1, 1⟩], onePart "2" 20 20 [⟨20, 2, 1⟩],
      onePart "3" 10 10 [⟨10, 3, 1⟩]], p.Raw := by
    simp only [forall_mem_cons]
    exact ⟨onePart_raw (by decide) (by decide), onePart_raw (by decide) (by decide),
      onePart_raw (by decide) (by decide), nofun⟩
  exact (compaction_reads_iff hraw (by decide) (sublist_cons_self _ _) hc).mpr
    (noOvertake_suffix [_] _) _ _ [] (nofun) () 0 100

/-- **A read changes.**  Three parts, the first and the third selected; the second rewrote the row
of the first.  The merge puts the old row behind it. -/
theorem compaction_changes_read :
    ∃ parts selected outs : List (Part Unit ℚ), (∀ p ∈ parts, p.Raw) ∧
      (parts.map Part.pref).Nodup ∧ selected.Sublist parts ∧ 2 ≤ selected.length ∧
      Compacts selected outs ∧
      read (Blocks.whole Unit ℚ) parts [] () 0 100 = [⟨10, 2, 1⟩, ⟨20, 3, 1⟩] ∧
      read (Blocks.whole Unit ℚ) (replaceParts parts (selected.map Part.pref) outs) [] () 0 100 =
        [⟨10, 1, 1⟩, ⟨20, 3, 1⟩] := by
  refine ⟨[onePart "1" 10 10 [⟨10, 1, 1⟩], onePart "2" 10 10 [⟨10, 2, 1⟩],
      onePart "3" 20 20 [⟨20, 3, 1⟩]],
    [onePart "1" 10 10 [⟨10, 1, 1⟩], onePart "3" 20 20 [⟨20, 3, 1⟩]],
    [onePart "4" 10 20 [⟨10, 1, 1⟩, ⟨20, 3, 1⟩]], ?_, by decide, ?_, by decide, ?_,
    by decide +kernel, by decide +kernel⟩
  · simp only [forall_mem_cons]
    exact ⟨onePart_raw (by decide) (by decide), onePart_raw (by decide) (by decide),
      onePart_raw (by decide) (by decide), nofun⟩
  · exact .cons_cons _ (.cons _ (.cons_cons _ .slnil))
  · exact compacts_onePart (by decide +kernel) (by decide)

end OtelStorage.Metrics
