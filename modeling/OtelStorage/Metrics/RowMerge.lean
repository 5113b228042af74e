import OtelStorage.Foundation.LazyColumn
import OtelStorage.Metrics.Freshest
import Mathlib.Data.List.Induction

/-!
# Copying stretches is merging row by row

The columns of a merge.  A run is a timestamp and a value column in step, and a weight column that
is absent while every weight is `1`; the result is built in the same form, its weights stored from
the first one that is not `1` (`appendWeight`).  Each run has a cursor.

* `collectMany`: the merge as the engine runs it, stretch by stretch.
* `collectManyNaive`: the merge one row at a time, with no stretches and no rivals.

Both return the columns of the same rows (`collectLoop_eq`, `naiveLoop_eq`), those of `collectMany`
on samples.  That a row at a time gives the same rows is `merged_rowLoop`: a single leading run is a
tie of one.
-/

namespace OtelStorage.Metrics
namespace Columnar

open BinarySearch Fibers LazyColumn List

variable {F : Type*}

/-! ## Columns -/

/-- One source of a merge: columns in step, in timestamp order. -/
structure TsRun (F : Type*) where
  ts : List ℤ
  vals : List F
  sf : Option (List F)
  vals_length : vals.length = ts.length
  sf_length : Fits ts.length sf
  ascending : ts.Pairwise (· ≤ ·)

/-- A run and how far it is consumed. -/
structure Cursor (F : Type*) where
  run : TsRun F
  pos : ℕ

/-- What a merge returns. -/
structure Columns (F : Type*) where
  ts : List ℤ
  vals : List F
  sf : Option (List F)
  deriving DecidableEq

section Model

variable [One F] (cs : List (Cursor F)) (ts : ℤ) (runs : List (TsRun F))

/-- The weight of a row. -/
def TsRun.weight (r : TsRun F) (i : ℕ) : F :=
  match r.sf with
  | none => 1
  | some sf => sf.getD i 1

/-- The next timestamp of a run. -/
def Cursor.head (c : Cursor F) : Option ℤ := c.run.ts[c.pos]?

/-- Add a weight to a column that has `n` rows with it. -/
def appendWeight [DecidableEq F] (sf : Option (List F)) (w : F) (n : ℕ) : Option (List F) :=
  push 1 sf (n - 1) w

/-- No rows. -/
def Columns.empty : Columns F := ⟨[], [], none⟩

/-- Append one row. -/
def Columns.append [DecidableEq F] (out : Columns F) (t : ℤ) (v w : F) : Columns F where
  ts := out.ts ++ [t]
  vals := out.vals ++ [v]
  sf := appendWeight out.sf w (out.vals ++ [v]).length

/-- Append the row `k` of a run. -/
def Columns.appendRow [DecidableEq F] (out : Columns F) (r : TsRun F) (k : ℕ) : Columns F :=
  match r.ts[k]?, r.vals[k]? with
  | some t, some v => out.append t v (r.weight k)
  | _, _ => out

/-- Append the rows `[lo, hi)` of a run: as slices while no weight is stored on either side. -/
def emitRange [DecidableEq F] (r : TsRun F) (lo hi : ℕ) (out : Columns F) : Columns F :=
  if r.sf = none ∧ out.sf = none then
    ⟨out.ts ++ (r.ts.take hi).drop lo, out.vals ++ (r.vals.take hi).drop lo, none⟩
  else (List.range' lo (hi - lo)).foldl (fun out k => out.appendRow r k) out

/-! ## The merge by stretches -/

/-- `Metrics.leadFrom` on cursors. -/
def leadFrom (acc : Option Lead) (i : ℕ) : List (Cursor F) → Option Lead
  | [] => acc
  | c :: cs => match c.head with
      | none => leadFrom acc (i + 1) cs
      | some t => leadFrom (leadStep acc i t) (i + 1) cs

/-- The leading cursor. -/
def leadRun : Option Lead := leadFrom none 0 cs

/-- The newest of the raw runs that hold a timestamp next. -/
def rawTie : Option (Cursor F) :=
  cs.reverse.find? fun c => c.head = some ts

/-- Past a timestamp it holds next. -/
def Cursor.advance (c : Cursor F) : Cursor F :=
  if c.head = some ts then { c with pos := c.pos + 1 } else c

/-- Every cursor past a timestamp. -/
def advanceTie : List (Cursor F) := cs.map (Cursor.advance ts)

/-- How far the leading run is copied. -/
def stretchEnd (c : Cursor F) (rival : Option ℤ) : ℕ :=
  match rival with
  | none => c.run.ts.length
  | some t => c.pos + bound (fun s => decide (s < t)) (c.run.ts.drop c.pos)

/-- The merge loop.  Every round takes a row at least, so the number of rows is fuel enough. -/
def collectLoop [DecidableEq F] : ℕ → List (Cursor F) → Columns F → Columns F
  | 0, _, out => out
  | n + 1, cs, out => match leadRun cs with
      | none => out
      | some l =>
          if l.rival = some l.ts then
            let out := match rawTie cs l.ts with
              | none => out
              | some c => out.appendRow c.run c.pos
            collectLoop n (advanceTie cs l.ts) out
          else match cs[l.lead]? with
            | none => out
            | some c =>
                let hi := stretchEnd c l.rival
                collectLoop n (cs.set l.lead { c with pos := hi }) (emitRange c.run c.pos hi out)

/-- The rows of all runs. -/
def totalRows : ℕ := (runs.map fun r => r.ts.length).sum

/-- Merge raw runs, freshest last. -/
def collectMany [DecidableEq F] (runs : List (TsRun F)) : Columns F :=
  collectLoop (totalRows runs) (runs.map fun r => ⟨r, 0⟩) .empty

/-! ## The merge row by row -/

/-- The smallest next timestamp. -/
def minHead : Option ℤ :=
  cs.foldl (fun acc c => match c.head, acc with
    | none, _ => acc
    | some t, none => some t
    | some t, some m => if t < m then some t else acc) none

/-- The value and weight of the last run at a timestamp. -/
def winner [Zero F] (cs : List (Cursor F)) (ts : ℤ) : F × F :=
  cs.foldl (fun win c =>
    if c.head = some ts then (c.run.vals.getD c.pos 0, c.run.weight c.pos) else win) (0, 1)

/-- One row a round. -/
def naiveLoop [DecidableEq F] [Zero F] : ℕ → List (Cursor F) → Columns F → Columns F
  | 0, _, out => out
  | n + 1, cs, out => match minHead cs with
      | none => out
      | some t =>
          naiveLoop n (advanceTie cs t) (out.append t (winner cs t).1 (winner cs t).2)

/-- Merge raw runs one row at a time. -/
def collectManyNaive [DecidableEq F] [Zero F] (runs : List (TsRun F)) : Columns F :=
  naiveLoop (totalRows runs) (runs.map fun r => ⟨r, 0⟩) .empty

end Model

/-! ## Rows -/

section Rows

variable [One F] (r : TsRun F)

/-- The rows of a run. -/
def TsRun.rows (r : TsRun F) : List (Sample F) :=
  List.zipWith (fun t p => ⟨t, p.1, p.2⟩) r.ts (r.vals.zip (entries 1 r.ts.length r.sf))

/-- The columns of some rows. -/
def Columns.ofRows [DecidableEq F] (rows : List (Sample F)) : Columns F :=
  ⟨rows.map Sample.ts, rows.map Sample.val, ofEntries 1 (rows.map Sample.weight)⟩

theorem TsRun.getElem?_weights {k : ℕ} (hk : k < r.ts.length) :
    (entries 1 r.ts.length r.sf)[k]? = some (r.weight k) := by
  rw [TsRun.weight]
  cases hsf : r.sf with
  | none => rw [entries_none, List.getElem?_replicate, if_pos hk]
  | some sf =>
    have hlen : k < sf.length := (r.sf_length sf hsf).symm ▸ hk
    show sf[k]? = some (sf.getD k 1)
    rw [getD_eq_getElem?_getD, List.getElem?_eq_getElem hlen, Option.getD_some]

theorem TsRun.getElem?_rows (k : ℕ) :
    r.rows[k]? = r.ts[k]?.bind fun t => r.vals[k]?.map fun v => ⟨t, v, r.weight k⟩ := by
  rw [TsRun.rows, List.getElem?_zipWith]
  cases hts : r.ts[k]? with
  | none => rfl
  | some t =>
    have hk : k < r.ts.length := (List.getElem?_eq_some_iff.mp hts).1
    rw [Option.bind_some, List.zip, List.getElem?_zipWith, r.getElem?_weights hk]
    cases r.vals[k]? <;> rfl

theorem TsRun.length_rows : r.rows.length = r.ts.length := by
  rw [TsRun.rows, length_zipWith, length_zip, length_entries 1 r.sf_length, r.vals_length,
    min_self, min_self]

theorem TsRun.map_rows :
    r.rows.map Sample.ts = r.ts ∧ r.rows.map Sample.val = r.vals ∧
      r.rows.map Sample.weight = entries 1 r.ts.length r.sf := by
  have hw := length_entries 1 r.sf_length
  have hv := r.vals_length
  rw [TsRun.rows, map_zipWith, map_zipWith, map_zipWith]
  refine ⟨?_, ?_, ?_⟩ <;> refine ext_getElem? fun k => ?_ <;>
    rw [List.getElem?_zipWith, List.zip, List.getElem?_zipWith] <;>
    rcases Nat.lt_or_ge k r.ts.length with hk | hk <;>
    simp [hk, hv, hw]

theorem Columns.append_ofRows [DecidableEq F] (rows : List (Sample F)) (s : Sample F) :
    (Columns.ofRows rows).append s.ts s.val s.weight = Columns.ofRows (rows ++ [s]) := by
  have hsf := push_ofEntries 1 (rows.map Sample.weight) s.weight
  rw [length_map] at hsf
  simp only [Columns.append, Columns.ofRows, appendWeight, length_append, length_map,
    length_singleton, Nat.add_sub_cancel, map_append, map_singleton, hsf]

theorem Columns.appendRow_ofRows [DecidableEq F] (rows : List (Sample F)) (r : TsRun F) (k : ℕ) :
    (Columns.ofRows rows).appendRow r k = Columns.ofRows (rows ++ r.rows[k]?.toList) := by
  rw [r.getElem?_rows, Columns.appendRow]
  cases r.ts[k]? with
  | none => rw [Option.bind_none, Option.toList_none, append_nil]
  | some t =>
    cases r.vals[k]? with
    | none => rw [Option.bind_some, Option.map_none, Option.toList_none, append_nil]
    | some v => exact Columns.append_ofRows rows ⟨t, v, r.weight k⟩

theorem foldl_appendRow [DecidableEq F] (n : ℕ) (lo : ℕ) (rows : List (Sample F)) :
    (List.range' lo n).foldl (fun out k => out.appendRow r k) (Columns.ofRows rows) =
      Columns.ofRows (rows ++ (r.rows.drop lo).take n) := by
  induction n generalizing lo rows with
  | zero => rw [take_zero, append_nil]; rfl
  | succ n ih =>
    have hcons : (r.rows.drop lo).take (n + 1) =
        r.rows[lo]?.toList ++ (r.rows.drop (lo + 1)).take n := by
      rcases Nat.lt_or_ge lo r.rows.length with hlo | hlo
      · rw [drop_eq_getElem_cons hlo, List.getElem?_eq_getElem hlo]
        rfl
      · rw [drop_eq_nil_of_le hlo, drop_eq_nil_of_le (hlo.trans (Nat.le_succ lo)),
          List.getElem?_eq_none hlo, take_nil, take_nil]
        rfl
    rw [List.range'_succ, foldl_cons, Columns.appendRow_ofRows, ih, hcons, append_assoc]

/-- **A range of rows**, copied or one by one. -/
theorem emitRange_ofRows [DecidableEq F] (lo hi : ℕ) (rows : List (Sample F)) :
    emitRange r lo hi (Columns.ofRows rows) = Columns.ofRows
      (rows ++ (r.rows.take hi).drop lo) := by
  rw [emitRange]
  split
  · next h =>
    obtain ⟨hts, hvals, hw⟩ := r.map_rows
    rw [h.1, entries_none] at hw
    -- no row on either side has a weight of its own
    have hones : ∀ w ∈ (rows ++ (r.rows.take hi).drop lo).map Sample.weight, w = 1 := by
      rw [map_append, map_drop, map_take, hw]
      refine forall_mem_append.mpr ⟨(ofEntries_eq_none 1).mp h.2, fun w hmem => ?_⟩
      exact eq_of_mem_replicate (mem_of_mem_take (mem_of_mem_drop hmem))
    rw [Columns.ofRows, Columns.ofRows, (ofEntries_eq_none 1).mpr hones, map_append,
      map_append, map_drop, map_take, map_drop, map_take, hts, hvals]
  · rw [foldl_appendRow, drop_take]

end Rows

/-! ## Cursors and runs of samples -/

section Rest

variable [One F] (c : Cursor F) {t : ℤ} (cs : List (Cursor F))

/-- The samples a cursor has left. -/
def Cursor.rest : Run F := ⟨c.run.rows.drop c.pos, []⟩

theorem Cursor.head_rest : c.rest.samples.head?.map Sample.ts = c.head := by
  rw [Cursor.rest, List.head?_drop, ← List.getElem?_map, c.run.map_rows.1, Cursor.head]

theorem Cursor.rest_eq_cons {c : Cursor F} (h : c.head = some t) :
    ∃ s, s.ts = t ∧ c.run.rows[c.pos]? = some s ∧
      c.rest.samples = s :: c.run.rows.drop (c.pos + 1) := by
  rw [← c.head_rest, Cursor.rest, List.head?_drop, Option.map_eq_some_iff] at h
  obtain ⟨s, hs, hts⟩ := h
  obtain ⟨hpos, rfl⟩ := List.getElem?_eq_some_iff.mp hs
  exact ⟨_, hts, hs, drop_eq_getElem_cons hpos⟩

theorem Cursor.rest_eq_nil {c : Cursor F} (h : c.head = none) : c.rest.samples = [] := by
  rwa [← c.head_rest, Option.map_eq_none_iff, List.head?_eq_none_iff] at h

theorem leadFrom_rest (acc : Option Lead) (i : ℕ) (cs : List (Cursor F)) :
    leadFrom acc i cs = Metrics.leadFrom acc i (cs.map Cursor.rest) := by
  induction cs generalizing acc i with
  | nil => rfl
  | cons c cs ih =>
    rw [map_cons, leadFrom, Metrics.leadFrom]
    cases hhead : c.head with
    | none => simp only [Cursor.rest_eq_nil hhead, ih]
    | some t =>
      obtain ⟨s, rfl, -, hs⟩ := Cursor.rest_eq_cons hhead
      simp only [hs, ih]

theorem leadRun_rest : leadRun cs = Metrics.leadRun (cs.map Cursor.rest) := leadFrom_rest none 0 cs

theorem Cursor.rest_advance (ts : ℤ) (c : Cursor F) :
    (c.advance ts).rest = c.rest.advance false ts := by
  rw [Cursor.advance]
  cases hhead : c.head with
  | none =>
    rw [if_neg (Option.some_ne_none ts).symm, Run.advance_nil false ts (Cursor.rest_eq_nil hhead)]
  | some t =>
    obtain ⟨s, rfl, -, hs⟩ := Cursor.rest_eq_cons hhead
    by_cases ht : s.ts = ts
    · rw [if_pos (congrArg some ht), ← ht, Run.advance_cons_self hs]
      rfl
    · rw [if_neg fun h => ht (Option.some.inj h), Run.advance_of_ne false hs ht]

theorem advanceTie_rest (ts : ℤ) :
    (advanceTie cs ts).map Cursor.rest = Metrics.advanceTie false (cs.map Cursor.rest) ts := by
  rw [advanceTie, Metrics.advanceTie, map_map, map_map]
  exact map_congr_left fun c _ => c.rest_advance ts

theorem Cursor.tie_rest (ts : ℤ) (c : Cursor F) :
    (c.rest.tie ts).map Tie.sample = if c.head = some ts then c.run.rows[c.pos]? else none := by
  cases hhead : c.head with
  | none =>
    rw [if_neg (Option.some_ne_none ts).symm, Run.tie, Cursor.rest_eq_nil hhead]
    rfl
  | some t =>
    obtain ⟨s, rfl, hrow, hs⟩ := Cursor.rest_eq_cons hhead
    by_cases ht : s.ts = ts
    · rw [if_pos (congrArg some ht), ← ht, Run.tie_eq_some hs, hrow]
      rfl
    · rw [if_neg fun h => ht (Option.some.inj h), Run.tie, hs]
      exact congrArg (Option.map Tie.sample) (if_neg ht)

theorem Cursor.raw_rest : RawRun c.rest := by
  refine ⟨?_, fun s _ => runTag_nil s.ts⟩
  have hasc := c.run.ascending
  rw [← c.run.map_rows.1] at hasc
  exact (pairwise_map.mp hasc).sublist (drop_sublist _ _)

theorem raw_rests : ∀ r ∈ cs.map Cursor.rest, RawRun r := by
  intro r hr
  obtain ⟨c, -, rfl⟩ := mem_map.mp hr
  exact c.raw_rest

end Rest

/-! ## Both merges, on samples -/

section Loops

variable [Float64 F] {runs : List (Run F)} (acc : Option Lead) {c : Cursor F}

theorem head?_filterMap_tie (ts : ℤ) (cs : List (Cursor F)) :
    (cs.filterMap fun c => c.rest.tie ts).head?.map Tie.sample =
      (cs.find? fun c => c.head = some ts).bind fun c => c.run.rows[c.pos]? := by
  induction cs with
  | nil => rfl
  | cons c cs ih =>
    have htie := c.tie_rest ts
    by_cases hhead : c.head = some ts
    · rw [if_pos hhead] at htie
      obtain ⟨s, -, hrow, -⟩ := Cursor.rest_eq_cons hhead
      rw [hrow, Option.map_eq_some_iff] at htie
      obtain ⟨t, ht, rfl⟩ := htie
      simp only [filterMap_cons, ht]
      rw [List.find?_cons_of_pos (by simpa using hhead), Option.bind_some, hrow]
      rfl
    · rw [if_neg hhead, Option.map_eq_none_iff] at htie
      simp only [filterMap_cons, htie]
      rw [List.find?_cons_of_neg (by simpa using hhead), ih]

theorem foldTie_rest (cs : List (Cursor F)) (ts : ℤ) :
    foldTie false (cs.map Cursor.rest) ts =
      (rawTie cs ts).bind fun c => c.run.rows[c.pos]?.map fun s => (s, .raw) := by
  have hagg : tieAgg (tied (cs.map Cursor.rest) ts) = none :=
    tieAgg_eq_none fun t ht => tag_of_mem_tied (raw_rests cs) ht
  have htied : tied (cs.map Cursor.rest) ts = cs.reverse.filterMap fun c => c.rest.tie ts := by
    rw [tied, ← map_reverse, filterMap_map]
    rfl
  have hhead :=
    congrArg (Option.map fun s => (s, RollupTag.raw)) (head?_filterMap_tie ts cs.reverse)
  simp only [foldTie, hagg, rawTieAt_false]
  rw [Option.map_map, Option.map_bind] at hhead
  rw [htied]
  exact hhead

theorem stretchEnd_eq {t : ℤ} (h : c.head = some t) (rival : Option ℤ) :
    stretchEnd c rival = c.pos + stretch c.rest rival := by
  have hpos : c.pos < c.run.ts.length := (List.getElem?_eq_some_iff.mp h).1
  cases rival with
  | none =>
    rw [stretchEnd, stretch, Cursor.rest, length_drop, c.run.length_rows]
    omega
  | some x =>
    rw [stretchEnd, ← c.run.map_rows.1, ← map_drop, bound_map]
    rfl

/-- One row a round, on samples. -/
def rowLoop : ℕ → List (Run F) → List (Sample F × RollupTag)
  | 0, _ => []
  | n + 1, runs => match Metrics.leadRun runs with
      | none => []
      | some l => (foldTie false runs l.ts).toList ++ rowLoop n (Metrics.advanceTie false runs l.ts)

theorem merged_rowLoop (n : ℕ) (hruns : ∀ r ∈ runs, RawRun r) (hn : total runs ≤ n) :
    Merged runs (rowLoop n runs) := by
  induction n generalizing runs with
  | zero => exact Merged.nil (Nat.le_zero.mp hn)
  | succ n ih =>
    have hlead := leadOf_leadRun runs
    rw [rowLoop]
    cases hl : Metrics.leadRun runs with
    | none =>
      rw [hl] at hlead
      exact Merged.nil (total_eq_zero hlead)
    | some l =>
      rw [hl] at hlead
      have hadv : ∀ r ∈ Metrics.advanceTie false runs l.ts, RawRun r := fun r hr => by
        obtain ⟨r', hr', rfl⟩ := mem_map.mp hr
        exact (hruns r' hr').advance l.ts
      have hless : total (Metrics.advanceTie false runs l.ts) < total runs :=
        total_advance_lt hlead.lead
      exact (ih hadv (Nat.le_of_lt_succ (hless.trans_le hn))).tie hruns hlead.least hlead.lead

/-- **A stretch is what its rows are one at a time.** -/
theorem fst_rowLoop {n : ℕ} (hruns : ∀ r ∈ runs, RawRun r) (hn : total runs ≤ n) :
    (rowLoop n runs).map Prod.fst = (Metrics.collectLoop false n runs).map Prod.fst := by
  have hrow := merged_rowLoop n hruns hn
  have hstretch := merged_collectLoop n hruns hn
  exact eq_of_fiber_eq hrow.ordered hstretch.ordered fun t => by
    rw [hrow.fibers t, hstretch.fibers t]

theorem ts_leadStep (i : ℕ) (t : ℤ) :
    (leadStep acc i t).map Lead.ts = some (acc.elim t fun l => if t < l.ts then t else l.ts) := by
  cases acc with
  | none => rfl
  | some l =>
    by_cases ht : t < l.ts
    · simp [leadStep, ht]
    · cases hr : l.rival with
      | none => simp [leadStep, ht, hr]
      | some r => by_cases hlt : t < r <;> simp [leadStep, ht, hr, hlt]

omit [Float64 F] in
theorem ts_leadFrom (i : ℕ) (cs : List (Cursor F)) :
    (leadFrom acc i cs).map Lead.ts = cs.foldl (fun acc c => match c.head, acc with
      | none, _ => acc
      | some t, none => some t
      | some t, some m => if t < m then some t else acc) (acc.map Lead.ts) := by
  induction cs generalizing acc i with
  | nil => rfl
  | cons c cs ih =>
    rw [leadFrom, foldl_cons]
    cases hhead : c.head with
    | none => exact ih acc (i + 1)
    | some t =>
      refine (ih (leadStep acc i t) (i + 1)).trans ?_
      rw [ts_leadStep]
      cases acc with
      | none => rfl
      | some l => by_cases ht : t < l.ts <;> simp [ht]

omit [Float64 F] in
theorem minHead_eq (cs : List (Cursor F)) : minHead cs = (leadRun cs).map Lead.ts :=
  (ts_leadFrom none 0 cs).symm

theorem winner_eq {cs : List (Cursor F)} {ts : ℤ} (h : rawTie cs ts = some c) :
    winner cs ts = (c.run.vals.getD c.pos 0, c.run.weight c.pos) := by
  induction cs using List.reverseRecOn with
  | nil => exact absurd h (Option.some_ne_none c).symm
  | append_singleton cs d ih =>
    rw [rawTie, reverse_append, reverse_singleton, singleton_append] at h
    rw [winner, foldl_append, foldl_cons, foldl_nil]
    by_cases hhead : d.head = some ts
    · rw [List.find?_cons_of_pos (by simpa using hhead)] at h
      cases h
      rw [if_pos hhead]
    · rw [List.find?_cons_of_neg (by simpa using hhead)] at h
      rw [if_neg hhead]
      exact ih h

/-- **The merge by stretches** returns the columns of the merge on samples. -/
theorem collectLoop_eq [DecidableEq F] (n : ℕ) (cs : List (Cursor F)) (rows : List (Sample F)) :
    collectLoop n cs (Columns.ofRows rows) = Columns.ofRows
      (rows ++ (Metrics.collectLoop false n (cs.map Cursor.rest)).map Prod.fst) := by
  induction n generalizing cs rows with
  | zero => rw [collectLoop, Metrics.collectLoop, map_nil, append_nil]
  | succ n ih =>
    rw [collectLoop, Metrics.collectLoop, leadRun_rest]
    cases hl : Metrics.leadRun (cs.map Cursor.rest) with
    | none => rw [map_nil, append_nil]
    | some l =>
      by_cases htie : l.rival = some l.ts
      · have hout : (match rawTie cs l.ts with
              | none => Columns.ofRows rows
              | some c => (Columns.ofRows rows).appendRow c.run c.pos) =
            Columns.ofRows
              (rows ++ (foldTie false (cs.map Cursor.rest) l.ts).toList.map Prod.fst) := by
          rw [foldTie_rest]
          cases rawTie cs l.ts with
          | none => rw [Option.bind_none, Option.toList_none, map_nil, append_nil]
          | some c =>
            rw [Option.bind_some]
            show (Columns.ofRows rows).appendRow c.run c.pos = _
            rw [Columns.appendRow_ofRows]
            cases c.run.rows[c.pos]? <;> rfl
        simp only [if_pos htie, hout, ih, advanceTie_rest, map_append, append_assoc]
      have hlead := leadOf_leadRun (cs.map Cursor.rest)
      rw [hl] at hlead
      simp only [if_neg htie, List.getElem?_map]
      cases hc : cs[l.lead]? with
      | none => rw [Option.map_none, map_nil, append_nil]
      | some c =>
        have hhead : c.head = some l.ts := by
          have := hlead.lead
          rwa [headAt, List.getElem?_map, hc, Option.map_some, Option.bind_some,
            c.head_rest] at this
        -- the cursor after the stretch has the run without it left
        have hrest : Cursor.rest { c with pos := stretchEnd c l.rival } =
            { c.rest with samples := c.rest.samples.drop (stretch c.rest l.rival) } := by
          rw [Cursor.rest, stretchEnd_eq hhead, ← drop_drop]
          rfl
        have hrows : (c.run.rows.take (stretchEnd c l.rival)).drop c.pos =
            c.rest.samples.take (stretch c.rest l.rival) := by
          rw [stretchEnd_eq hhead, drop_take, Nat.add_sub_cancel_left]
          rfl
        simp only [Option.map_some, emitRange_ofRows, ih, map_set, hrest, hrows,
          map_append, fst_emit, append_assoc]

/-- **The merge row by row** returns the columns of one row a round on samples. -/
theorem naiveLoop_eq [DecidableEq F] (n : ℕ) (cs : List (Cursor F)) (rows : List (Sample F)) :
    naiveLoop n cs (Columns.ofRows rows) = Columns.ofRows
      (rows ++ (rowLoop n (cs.map Cursor.rest)).map Prod.fst) := by
  induction n generalizing cs rows with
  | zero => rw [naiveLoop, rowLoop, map_nil, append_nil]
  | succ n ih =>
    rw [naiveLoop, rowLoop, minHead_eq, leadRun_rest]
    cases hl : Metrics.leadRun (cs.map Cursor.rest) with
    | none =>
      show Columns.ofRows rows = _
      rw [map_nil, append_nil]
    | some l =>
      have hlead := leadOf_leadRun (cs.map Cursor.rest)
      rw [hl] at hlead
      obtain ⟨s, hfold, hts, -⟩ := round_tie (raw_rests cs) hlead.least hlead.lead
      have hraw := hfold
      rw [foldTie_rest, Option.bind_eq_some_iff] at hraw
      obtain ⟨c, hc, hrow⟩ := hraw
      obtain ⟨s', hs', hpair⟩ := Option.map_eq_some_iff.mp hrow
      obtain rfl : s' = s := congrArg Prod.fst hpair
      -- the winner's value and weight are those of its row
      have hwin : winner cs l.ts = (s'.val, s'.weight) := by
        rw [c.run.getElem?_rows, Option.bind_eq_some_iff] at hs'
        obtain ⟨t, -, hmap⟩ := hs'
        obtain ⟨v, hv, rfl⟩ := Option.map_eq_some_iff.mp hmap
        rw [winner_eq hc, getD_eq_getElem?_getD, hv, Option.getD_some]
      have happend := Columns.append_ofRows rows s'
      rw [hts] at happend
      simp only [Option.map_some, hwin, happend, ih, advanceTie_rest, hfold, Option.toList_some,
        map_append, map_singleton, append_assoc]

end Loops

/-! ## The merge -/

section Merge

variable [Float64 F] (runs : List (TsRun F)) {r : TsRun F}

theorem rest_start :
    (runs.map fun r => (⟨r, 0⟩ : Cursor F)).map Cursor.rest = runs.map fun r => ⟨r.rows, []⟩ := by
  rw [map_map]
  rfl

theorem total_start : total (runs.map fun r => (⟨r.rows, []⟩ : Run F)) = totalRows runs := by
  rw [total, totalRows, map_map]
  exact congrArg List.sum (map_congr_left fun r _ => r.length_rows)

theorem raw_start : ∀ r ∈ runs.map fun r => (⟨r.rows, []⟩ : Run F), RawRun r := by
  rw [← rest_start]
  exact raw_rests _

theorem empty_eq_ofRows [DecidableEq F] : (Columns.empty : Columns F) = Columns.ofRows [] := rfl

/-- The rows of the merge. -/
def mergedRows : List (Sample F) :=
  (Metrics.collectMany false (runs.map fun r => ⟨r.rows, []⟩)).map Prod.fst

theorem collectMany_eq_ofRows [DecidableEq F] :
    collectMany runs = Columns.ofRows (mergedRows runs) := by
  rw [collectMany, empty_eq_ofRows, collectLoop_eq, rest_start, nil_append, ← total_start]
  rfl

theorem collectManyNaive_eq_ofRows [DecidableEq F] :
    collectManyNaive runs = Columns.ofRows (mergedRows runs) := by
  rw [collectManyNaive, empty_eq_ofRows, naiveLoop_eq, rest_start, nil_append,
    fst_rowLoop (raw_start runs) (total_start runs).le, ← total_start]
  rfl

omit [Float64 F] in
theorem column_eq_singleton {pre post : List (Run F)} {r : Run F}
    (hstrict : ∀ x ∈ pre ++ r :: post, Strict Sample.ts x.samples) {s : Sample F}
    (hs : s ∈ r.samples) (hpost : ∀ x ∈ post, ∀ u ∈ x.samples, u.ts ≠ s.ts) :
    column s.ts (pre ++ r :: post) = [s] := by
  have hr : fiber Sample.ts s.ts r.samples = [s] :=
    (hstrict r (mem_append_right _ mem_cons_self)).fiber_eq hs
  have hpre : (column s.ts pre).length ≤ 1 := length_overlayAll_le fun m hm => by
    obtain ⟨x, hx, rfl⟩ := mem_map.mp hm
    exact (hstrict x (mem_append_left _ hx)).fiber_length_le s.ts
  rw [column_append, column_cons, column_eq_nil hpost, overlay_nil_right, hr,
    overlay_eq_right hpre (cons_ne_nil _ _)]

theorem TsRun.strict_rows (h : r.ts.Pairwise (· < ·)) : Strict Sample.ts r.rows := by
  rw [← r.map_rows.1] at h
  exact pairwise_map.mp h

theorem TsRun.ts_mem {t : ℤ} : t ∈ r.ts ↔ ∃ s ∈ r.rows, s.ts = t := by
  conv_lhs => rw [← r.map_rows.1, mem_map]

/-- The rows of the freshest-wins union: at each timestamp that of the last run holding it. -/
structure FreshestUnion (runs : List (TsRun F)) (rows : List (Sample F)) : Prop where
  once : Strict Sample.ts rows
  mem_iff : ∀ s, s ∈ rows ↔
    ∃ pre r post, runs = pre ++ r :: post ∧ s ∈ r.rows ∧ ∀ q ∈ post, s.ts ∉ q.ts

theorem freshestUnion_mergedRows {runs : List (TsRun F)}
    (hruns : ∀ r ∈ runs, r.ts.Pairwise (· < ·)) : FreshestUnion runs (mergedRows runs) := by
  have hmerged := merged_collectMany (raw_start runs)
  have hstrict : ∀ r ∈ runs.map fun r => (⟨r.rows, []⟩ : Run F), Strict Sample.ts r.samples := by
    intro r hr
    obtain ⟨x, hx, rfl⟩ := mem_map.mp hr
    exact TsRun.strict_rows (hruns x hx)
  have hmem : ∀ s, s ∈ mergedRows runs ↔ s ∈ column s.ts (runs.map fun r => ⟨r.rows, []⟩) := by
    intro s
    rw [← hmerged.fibers s.ts, mem_fiber]
    exact ⟨fun h => ⟨h, rfl⟩, fun h => h.1⟩
  have hlast : ∀ pre r post s, runs = pre ++ r :: post → s ∈ r.rows → (∀ q ∈ post, s.ts ∉ q.ts) →
      column s.ts (runs.map fun r => ⟨r.rows, []⟩) = [s] := by
    intro pre r post s heq hs hpost
    rw [heq, map_append, map_cons] at hstrict ⊢
    refine column_eq_singleton hstrict hs fun x hx u hu => ?_
    obtain ⟨q, hq, rfl⟩ := mem_map.mp hx
    exact fun hts => hpost q hq (TsRun.ts_mem.mpr ⟨u, hu, hts⟩)
  refine ⟨strict_of_fiber_length_le hmerged.ordered fun t => ?_, fun s => ⟨fun hs => ?_, ?_⟩⟩
  · rw [mergedRows, hmerged.fibers t]
    refine length_overlayAll_le fun m hm => ?_
    obtain ⟨x, hx, rfl⟩ := mem_map.mp hm
    exact (hstrict x hx).fiber_length_le t
  · -- some run holds the timestamp; the last one that does wins it
    have hcol := (hmem s).mp hs
    obtain ⟨x, hx, hsx⟩ := mem_column hcol
    obtain ⟨r₀, hr₀, rfl⟩ := mem_map.mp hx
    have hholds : ∃ r ∈ runs, s.ts ∈ r.ts := ⟨r₀, hr₀, TsRun.ts_mem.mpr ⟨s, hsx, rfl⟩⟩
    obtain ⟨pre, r, post, heq, hr, hpost⟩ := exists_last hholds
    obtain ⟨u, hu, hts⟩ := TsRun.ts_mem.mp hr
    have hone := hlast pre r post u heq hu (hts.symm ▸ hpost)
    rw [hts] at hone
    rw [hone, mem_singleton] at hcol
    exact ⟨pre, r, post, heq, hcol ▸ hu, hpost⟩
  · rintro ⟨pre, r, post, heq, hs, hpost⟩
    rw [hmem, hlast pre r post s heq hs hpost]
    exact mem_singleton.mpr rfl

/-- **Copying stretches is merging row by row**: the same timestamps, values and weights, in the
same columns.  Where every run's timestamps increase it is the freshest-wins union. -/
theorem collectMany_eq_rowwise [DecidableEq F] (runs : List (TsRun F)) :
    collectMany runs = collectManyNaive runs ∧
      ((∀ r ∈ runs, r.ts.Pairwise (· < ·)) →
        ∃ rows, collectMany runs = Columns.ofRows rows ∧ FreshestUnion runs rows) :=
  ⟨(collectMany_eq_ofRows runs).trans (collectManyNaive_eq_ofRows runs).symm, fun h =>
    ⟨mergedRows runs, collectMany_eq_ofRows runs, freshestUnion_mergedRows h⟩⟩

end Merge

/-- Two runs that tie at `2`, the newer one weighted. -/
theorem collectMany_eq_rowwise_tie :
    let older : TsRun ℚ := ⟨[1, 2], [10, 20], none, rfl, Fits.none _, by decide⟩
    let newer : TsRun ℚ := ⟨[2, 3], [21, 30], some [5, 1], rfl, fits_some.mpr rfl, by decide⟩
    collectMany [older, newer] = ⟨[1, 2, 3], [10, 21, 30], some [1, 5, 1]⟩ ∧
      collectManyNaive [older, newer] = ⟨[1, 2, 3], [10, 21, 30], some [1, 5, 1]⟩ ∧
      ∃ rows, collectMany [older, newer] = Columns.ofRows rows ∧
        FreshestUnion [older, newer] rows := by
  intro older newer
  have h := collectMany_eq_rowwise [older, newer]
  have hmany : collectMany [older, newer] = ⟨[1, 2, 3], [10, 21, 30], some [1, 5, 1]⟩ := by
    decide +kernel
  exact ⟨hmany, h.1 ▸ hmany, h.2 (by decide)⟩

end Columnar
end OtelStorage.Metrics
