import OtelStorage.Foundation.LazyColumn
import OtelStorage.Metrics.Replica
import Mathlib.Data.Vector.Defs

/-!
# The buffers of a head

A buffer keeps its samples in three columns, the weights only from the first that is not `1` on.
`SampleBuf.Holds b xs` says that the columns are those of the samples `xs`; appending, replaying and
the recent tier's trim keep that (`Holds.appendSample`, `replay_eq`, `Holds.trimBufBelow`).  The
head's own trim leaves the weights where they are, and keeps it exactly if there are none or nothing
is dropped (`Holds.aligned_trim_iff`).

The slot table of a head is an array of pages of 256 slots, made as they are needed; it is a map
from slots to buffers (`HeadBuffers.get_set`).  The buffers of a failed flush come back in one of
two ways, into the map with more of them; both give the same map (`reattachFlush_eq`).
-/

namespace OtelStorage.Metrics

open Function
open List hiding Vector

variable {ID S F : Type*}

/-! ## Columns -/

namespace SampleBuf

/-- The weight column is absent or has one entry a row. -/
structure Aligned (b : SampleBuf F) : Prop where
  values : b.values.length = b.ts.length
  sf : LazyColumn.Fits b.ts.length b.sf

/-- Samples of a replayed run, which have no weights; a weight column goes on with ones. -/
def replay [One F] (b : SampleBuf F) (xs : List (ℤ × F)) : SampleBuf F where
  ts := b.ts ++ xs.map Prod.fst
  values := b.values ++ xs.map Prod.snd
  sf := b.sf.map (· ++ List.replicate xs.length 1)

/-- The entries of a column in the rows from `cutoff` on. -/
def rowsFrom {α : Type*} (cutoff : ℤ) (ts : List ℤ) (column : List α) : List α :=
  ((ts.zip column).filter fun p => cutoff ≤ p.1).map Prod.snd

variable (b : SampleBuf F)

/-- The samples from `cutoff` on, every column cut. -/
def trimBufBelow (cutoff : ℤ) : SampleBuf F :=
  let keep := (b.ts.filter fun t => cutoff ≤ t).length
  if keep = 0 then ⟨[], [], none⟩
  else if keep = b.ts.length then b
  else ⟨b.ts.filter fun t => cutoff ≤ t, rowsFrom cutoff b.ts b.values,
    b.sf.map (rowsFrom cutoff b.ts)⟩

/-- The columns are those of the samples. -/
structure Holds [One F] (b : SampleBuf F) (xs : List (Sample F)) : Prop where
  ts : b.ts = xs.map Sample.ts
  values : b.values = xs.map Sample.val
  sf : b.sf = some (xs.map Sample.weight) ∨ b.sf = none ∧ ∀ x ∈ xs, x.weight = 1

theorem samples_of_columns (xs : List (Sample F)) :
    List.zipWith (fun (p : ℤ × F) w => (⟨p.1, p.2, w⟩ : Sample F))
      ((xs.map Sample.ts).zip (xs.map Sample.val)) (xs.map Sample.weight) = xs := by
  induction xs with
  | nil => rfl
  | cons x xs ih => simp only [map_cons, zip_cons_cons, zipWith_cons_cons, ih]

theorem rowsFrom_map {α : Type*} (cutoff : ℤ) (xs : List (Sample F)) (f : Sample F → α) :
    rowsFrom cutoff (xs.map Sample.ts) (xs.map f) = (xs.filter fun x => cutoff ≤ x.ts).map f := by
  rw [rowsFrom, zip_map', filter_map, map_map]
  rfl

section

variable [One F] {b} {xs : List (Sample F)}

theorem Holds.aligned (h : b.Holds xs) : b.Aligned := by
  refine ⟨by rw [h.values, h.ts, length_map, length_map], ?_⟩
  rcases h.sf with hsf | ⟨hsf, -⟩
  · rw [hsf, LazyColumn.fits_some, h.ts, length_map, length_map]
  · rw [hsf]
    exact LazyColumn.Fits.none _

theorem Holds.samples (h : b.Holds xs) : b.samples = xs := by
  have hweights : b.sf.getD (List.replicate b.ts.length 1) = xs.map Sample.weight := by
    rcases h.sf with hsf | ⟨hsf, hone⟩
    · rw [hsf, Option.getD_some]
    · rw [hsf, Option.getD_none, h.ts, length_map, eq_comm, eq_replicate_iff]
      exact ⟨length_map _, fun w hw => by
        obtain ⟨x, hx, rfl⟩ := mem_map.mp hw
        exact hone x hx⟩
  rw [SampleBuf.samples, hweights, h.ts, h.values, samples_of_columns]

theorem holds_empty : (empty : SampleBuf F).Holds [] :=
  ⟨rfl, rfl, .inr ⟨rfl, nofun⟩⟩

/-- **The recent tier's trim drops whole samples.** -/
theorem Holds.trimBufBelow (h : b.Holds xs) (cutoff : ℤ) :
    (b.trimBufBelow cutoff).Holds (xs.filter fun x => cutoff ≤ x.ts) := by
  have hts :
      (b.ts.filter fun t => cutoff ≤ t) = (xs.filter fun x => cutoff ≤ x.ts).map Sample.ts := by
    rw [h.ts, filter_map]
    rfl
  rw [SampleBuf.trimBufBelow, hts, length_map]
  split_ifs with hnone hall
  · rw [length_eq_zero_iff.mp hnone]
    exact holds_empty
  · rw [h.ts, length_map] at hall
    rw [filter_eq_self.mpr (length_filter_eq_length_iff.mp hall)]
    exact h
  refine ⟨rfl, by rw [h.ts, h.values, rowsFrom_map], ?_⟩
  rcases h.sf with hsf | ⟨hsf, hone⟩
  · left
    rw [hsf, Option.map_some, h.ts, rowsFrom_map]
  · right
    exact ⟨by rw [hsf, Option.map_none], fun x hx => hone x (mem_of_mem_filter hx)⟩

theorem Holds.trim_eq (h : b.Holds xs) (t : ℤ) :
    b.trim t = ⟨(xs.filter fun x => t < x.ts).map Sample.ts,
      (xs.filter fun x => t < x.ts).map Sample.val, b.sf⟩ := by
  rw [SampleBuf.trim, h.ts, h.values, zip_map', filter_map, map_map, map_map]
  rfl

/-- **The head's trim keeps the weights with their samples exactly if there are none or nothing is
dropped.** -/
theorem Holds.aligned_trim_iff (h : b.Holds xs) (t : ℤ) :
    (b.trim t).Aligned ↔ b.sf = none ∨ ∀ u ∈ b.ts, t < u := by
  have hall : (xs.filter fun x => t < x.ts).length = xs.length ↔ ∀ u ∈ b.ts, t < u := by
    rw [length_filter_eq_length_iff, h.ts, forall_mem_map]
    simp only [decide_eq_true_eq]
  rw [h.trim_eq, ← hall]
  rcases h.sf with hsf | ⟨hsf, -⟩
  · rw [hsf]
    constructor
    · intro haligned
      have hlen := LazyColumn.fits_some.mp haligned.sf
      rw [length_map, length_map] at hlen
      exact .inr hlen.symm
    · rintro (hnone | hlen)
      · cases hnone
      · exact ⟨by simp, LazyColumn.fits_some.mpr (by rw [length_map, length_map, hlen])⟩
  · rw [hsf]
    exact ⟨fun _ => .inl rfl, fun _ => ⟨by simp, LazyColumn.Fits.none _⟩⟩

theorem Holds.trim (h : b.Holds xs) {t : ℤ} (hkeep : b.sf = none ∨ ∀ u ∈ b.ts, t < u) :
    (b.trim t).Holds (xs.filter fun x => t < x.ts) := by
  rw [h.trim_eq]
  refine ⟨rfl, rfl, ?_⟩
  rcases h.sf with hsf | ⟨hsf, hone⟩
  · left
    rcases hkeep with hnone | hall
    · rw [hsf] at hnone
      cases hnone
    · rw [h.ts, forall_mem_map] at hall
      rw [hsf, filter_eq_self.mpr fun x hx => decide_eq_true (hall x hx)]
  · exact .inr ⟨hsf, fun x hx => hone x (mem_of_mem_filter hx)⟩

variable [DecidableEq F]

theorem Holds.appendSample (h : b.Holds xs) (x : Sample F) :
    (b.appendSample x).Holds (xs ++ [x]) := by
  refine ⟨by simp [SampleBuf.appendSample, h.ts], by simp [SampleBuf.appendSample, h.values], ?_⟩
  rcases h.sf with hsf | ⟨hsf, hone⟩
  · left
    simp [SampleBuf.appendSample, hsf]
  by_cases hx : x.weight = 1
  · refine .inr ⟨by simp [SampleBuf.appendSample, hsf, hx], fun y hy => ?_⟩
    rcases mem_append.mp hy with hy | hy
    · exact hone y hy
    · rwa [mem_singleton.mp hy]
  left
  have hones : List.replicate b.ts.length 1 = xs.map Sample.weight := by
    rw [eq_comm, eq_replicate_iff, h.ts, forall_mem_map]
    exact ⟨by rw [length_map, length_map], hone⟩
  simp [SampleBuf.appendSample, hsf, hx, hones]

theorem replay_eq (ys : List (ℤ × F)) :
    b.replay ys = (ys.map fun p => (⟨p.1, p.2, 1⟩ : Sample F)).foldl SampleBuf.appendSample b := by
  induction ys generalizing b with
  | nil =>
    cases b with
    | mk ts values sf => simp [SampleBuf.replay]
  | cons p ys ih =>
    rw [map_cons, foldl_cons, ← ih]
    cases hsf : b.sf <;> simp [SampleBuf.replay, SampleBuf.appendSample, hsf, replicate_succ]

theorem Holds.foldl_appendSample (h : b.Holds xs) (ys : List (Sample F)) :
    (ys.foldl SampleBuf.appendSample b).Holds (xs ++ ys) := by
  induction ys generalizing b xs with
  | nil => rwa [append_nil]
  | cons y ys ih =>
    rw [foldl_cons, append_cons]
    exact ih (h.appendSample y)

end

end SampleBuf

/-! ## The slot table -/

/-- A page has `2 ^ 8` slots. -/
def headSlotBits : ℕ := 8

/-- The slots of a page. -/
def headSlotSize : ℕ := 1 <<< headSlotBits

theorem and_lt_headSlotSize (ref : ℕ) : ref &&& (headSlotSize - 1) < headSlotSize :=
  Nat.and_lt_two_pow ref (n := 8) (by decide)

/-- The pages of the slots, made when one of their slots is first set. -/
structure HeadBuffers (P : Type*) where
  pages : List (Option (Vector (Option P) headSlotSize))

namespace HeadBuffers

variable {P : Type*} (s : HeadBuffers P) (ref : ℕ)

/-- A table without pages. -/
def empty : HeadBuffers P := ⟨[]⟩

/-- What a slot holds. -/
def get : Option P :=
  (s.pages.getD (ref >>> headSlotBits) none).bind fun page =>
    page.get ⟨ref &&& (headSlotSize - 1), and_lt_headSlotSize ref⟩

/-- Set a slot, making its page if need be. -/
def set (buf : Option P) : HeadBuffers P :=
  let p := ref >>> headSlotBits
  let i := ref &&& (headSlotSize - 1)
  let pages := s.pages ++ List.replicate (p + 1 - s.pages.length) none
  match pages.getD p none with
  | some page => ⟨pages.set p (some (page.set i buf (and_lt_headSlotSize ref)))⟩
  | none =>
    if buf.isNone then ⟨pages⟩
    else ⟨pages.set p
      (some ((Vector.replicate headSlotSize none).set i buf (and_lt_headSlotSize ref)))⟩

theorem slot_eq_iff {a b : ℕ} : a = b ↔ a >>> headSlotBits = b >>> headSlotBits ∧
    a &&& (headSlotSize - 1) = b &&& (headSlotSize - 1) := by
  have hlow : ∀ n : ℕ, n &&& (headSlotSize - 1) = n % 256 := fun n =>
    Nat.and_two_pow_sub_one_eq_mod n 8
  have hhigh : ∀ n : ℕ, n >>> headSlotBits = n / 256 := fun n => Nat.shiftRight_eq_div_pow n 8
  rw [hlow, hlow, hhigh, hhigh]
  omega

@[simp] theorem get_empty : (empty : HeadBuffers P).get ref = none := by
  simp [get, empty]

theorem getD_padded (l : List (Option (Vector (Option P) headSlotSize))) (n q : ℕ) :
    (l ++ List.replicate n none).getD q none = l.getD q none := by
  simp only [getD_eq_getElem?_getD, List.getElem?_append, List.getElem?_replicate]
  split_ifs with hlt
  · rfl
  · rw [List.getElem?_eq_none (Nat.le_of_not_lt hlt)]
    rfl
  · rw [List.getElem?_eq_none (Nat.le_of_not_lt hlt)]

theorem get_set_page {l : List (Option (Vector (Option P) headSlotSize))} {p : ℕ}
    (hp : p < l.length) (page : Vector (Option P) headSlotSize) (r : ℕ) :
    (⟨l.set p (some page)⟩ : HeadBuffers P).get r =
      if r >>> headSlotBits = p then page.get ⟨r &&& (headSlotSize - 1), and_lt_headSlotSize r⟩
      else (⟨l⟩ : HeadBuffers P).get r := by
  simp only [get, getD_eq_getElem?_getD]
  split_ifs with heq
  · rw [heq, List.getElem?_set_self hp]
    rfl
  · rw [List.getElem?_set_ne (Ne.symm heq)]

theorem get_set_slot {s : HeadBuffers P} {ref r : ℕ} {buf : Option P}
    {page : Vector (Option P) headSlotSize}
    (hpage : ∀ r, r >>> headSlotBits = ref >>> headSlotBits →
      page.get ⟨r &&& (headSlotSize - 1), and_lt_headSlotSize r⟩ = s.get r) :
    (if r >>> headSlotBits = ref >>> headSlotBits then
      (page.set (ref &&& (headSlotSize - 1)) buf (and_lt_headSlotSize ref)).get
        ⟨r &&& (headSlotSize - 1), and_lt_headSlotSize r⟩
      else s.get r) = update s.get ref buf r := by
  by_cases hr : r = ref
  · subst hr
    rw [if_pos rfl, update_self]
    exact Vector.getElem_set_self _
  rw [update_of_ne hr]
  split_ifs with heq
  · rw [← hpage r heq]
    exact Vector.getElem_set_ne _ _ fun hi => hr (slot_eq_iff.mpr ⟨heq, hi.symm⟩)
  · rfl

/-- **The table is a map from slots.** -/
theorem get_set (buf : Option P) : (s.set ref buf).get = update s.get ref buf := by
  funext r
  obtain ⟨pages, hpages⟩ : ∃ pages, s.pages ++
      List.replicate (ref >>> headSlotBits + 1 - s.pages.length) none = pages := ⟨_, rfl⟩
  have hlt : ref >>> headSlotBits < pages.length := by
    rw [← hpages, length_append, length_replicate]
    omega
  have hsame : ∀ r, (⟨pages⟩ : HeadBuffers P).get r = s.get r := fun r => by
    rw [get, get, ← hpages, getD_padded]
  simp only [set, hpages]
  cases hpage : pages.getD (ref >>> headSlotBits) none with
  | some page =>
    rw [get_set_page hlt, hsame]
    refine get_set_slot fun r hr => ?_
    rw [← hsame, get, hr, hpage]
    rfl
  | none =>
    have hnone : ∀ r, r >>> headSlotBits = ref >>> headSlotBits → s.get r = none := fun r hr => by
      rw [← hsame, get, hr, hpage]
      rfl
    dsimp only
    split_ifs with hbuf
    · rw [hsame, Option.isNone_iff_eq_none.mp hbuf, ← hnone ref rfl, update_eq_self]
    · rw [get_set_page hlt, hsame]
      refine get_set_slot fun r hr => ?_
      rw [hnone r hr]
      exact Vector.getElem_replicate _

end HeadBuffers

namespace Head

theorem get_foldl_set {slotOf : ID → ℕ} {ids : List ID} (hids : (ids.map slotOf).Nodup)
    (table : HeadBuffers ID) (slot : ℕ) :
    (ids.foldl (fun table id => table.set (slotOf id) (some id)) table).get slot =
      (ids.find? fun id => slotOf id = slot).or (table.get slot) := by
  induction ids generalizing table with
  | nil => rfl
  | cons id ids ih =>
    obtain ⟨hid, hids⟩ := nodup_cons.mp hids
    rw [foldl_cons, ih hids, HeadBuffers.get_set, List.find?_cons]
    by_cases heq : slotOf id = slot
    · subst heq
      have hnone : ids.find? (fun id' => slotOf id' = slotOf id) = none := by
        refine List.find?_eq_none.mpr fun id' hmem hsame => hid ?_
        rw [← of_decide_eq_true hsame]
        exact mem_map_of_mem hmem
      rw [hnone, update_self, decide_eq_true rfl]
      rfl
    · rw [update_of_ne (Ne.symm heq), decide_eq_false heq]

theorem noteTSRef_eq (h : Head ID S F) (r : ℕ) (t : ℤ) : h.noteTSRef r t = { h with
    bufferedMin := if h.bufferedKnown then min h.bufferedMin t else t
    bufferedKnown := true
    marks := update h.marks (h.slotAt r) (some (raise (h.marks (h.slotAt r)) t))
    newest := max h.newest t } := by
  have hmark := congrArg (fun g : Head ID S F => { g with newest := max g.newest t })
    (setMark_raise (h.noteBufferedTS t) (h.slotAt r) t)
  rw [noteBufferedTS_eq] at hmark
  rw [Head.noteTSRef, noteBufferedTS_eq]
  exact hmark

variable [DecidableEq ID] (h : Head ID S F) {id : ID}

/-- The table of the slots, filled from the buffers of the identities. -/
def resetPages : HeadBuffers ID :=
  h.bufferIDs.foldl (fun table id =>
    match h.ref id with
    | some ref => table.set (h.slotAt ref) (some id)
    | none => table) .empty

variable {h}

/-- **The slots lead to the buffers of the identities.** -/
theorem WellFormed.get_resetPages (hw : h.WellFormed) :
    h.resetPages.get = h.resetBuffers.buffers := by
  have href : ∀ id ∈ h.bufferIDs, ∃ r, h.ref id = some r := fun id hid =>
    Option.ne_none_iff_exists'.mp fun hnone =>
      ref_eq_none.mp hnone (mem_of_mem_filter hid)
  have hset : h.resetPages = h.bufferIDs.foldl (fun table id => table.set (h.slotOf id) (some id))
      .empty := by
    rw [resetPages]
    refine foldl_ext _ _ _ fun table id hid => ?_
    obtain ⟨r, hr⟩ := href id hid
    rw [hr, slotOf_eq hr]
  have hslots : (h.bufferIDs.map h.slotOf).Nodup := by
    refine List.Nodup.map_on (fun id hid id' hid' hsame => ?_) (hw.ids.filter _)
    obtain ⟨r, hr⟩ := href id hid
    obtain ⟨r', hr'⟩ := href id' hid'
    by_contra hne
    rw [slotOf_eq hr, slotOf_eq hr'] at hsame
    exact hw.slotAt_ne hr hr' hne hsame
  funext slot
  rw [hset, get_foldl_set hslots, HeadBuffers.get_empty, Option.or_none]
  rfl

/-! ## Registered series -/

theorem WellFormed.ref_opened (hw : h.WellFormed) (id id' : ID) (s : S) :
    (h.opened id s).ref id' ≠ none ↔ h.ref id' ≠ none ∨ id' = id := by
  obtain ⟨-, ⟨r, href, -⟩, hother⟩ := hw.opened id s
  by_cases hid : id' = id
  · subst hid
    simp [href]
  · rw [ref_ne_none, hother id' hid, ref_ne_none, or_iff_left hid]

theorem Linked.registerSeries (hl : h.Linked) (hash : S → ID) (s : S) :
    (h.registerSeries hash s).Linked ∧
      (∀ id, (h.registerSeries hash s).ref id ≠ none ↔ h.ref id ≠ none ∨ id = hash s) ∧
      ∃ series stateRefs free next,
      h.registerSeries hash s = { h with series, stateRefs, free, next } := by
  rw [Head.registerSeries]
  split_ifs with hnew
  · obtain ⟨slot, free, next, heq, -⟩ := register_eq hl.wf (hash s) s
    obtain ⟨hwf, hself, hstate, hrest⟩ := hl.wf.register hnew s
    have hsamples : (h.register (hash s) s).samples = h.samples := by rw [heq]
    have hbuffers : (h.register (hash s) s).buffers = h.buffers := by rw [heq]
    refine ⟨⟨hwf, fun id => ?_⟩, fun id => ?_, _, _, _, _, heq⟩
    · rw [hsamples, hl.held]
      by_cases hid : id = hash s
      · subst hid
        rw [hwf.held_iff, hstate]
        refine iff_of_false ?_ fun hne => hne rfl
        rintro ⟨r, href, -⟩
        cases hnew.symm.trans href
      · refine exists_congr fun r => ?_
        rw [(hrest id r hid).1, hbuffers]
        exact and_congr_right fun href => by rw [(hrest id r hid).2 href]
    · by_cases hid : id = hash s
      · subst hid
        simp [hself]
      · simp only [hid, or_false, Option.ne_none_iff_exists', (hrest id _ hid).1]
  · exact ⟨hl, fun id => ⟨.inl, fun hor => hor.elim (fun hne => hne) fun hid => hid ▸ hnew⟩,
      _, _, _, _, rfl⟩

theorem Linked.bufForRef_eq (hl : h.Linked) {r : ℕ} (href : h.ref id = some r) (s : S) :
    h.bufForRef id r = (id, h.opened id s) ∧ (h.opened id s).ref id = some r := by
  obtain ⟨-, hid, -⟩ := hl.wf.bufForRef href
  have hopened : h.opened id s = (h.bufForRef id r).2 := by
    simp [Head.opened, href]
  refine ⟨Prod.ext hid hopened.symm, ?_⟩
  rw [hopened, Head.bufForRef]
  cases h.buffers (h.slotAt r) <;> exact href

variable [DecidableEq F] [One F]

theorem WellFormed.ref_put_iff (hw : h.WellFormed) (id id' : ID) (s : S) (x : Sample F) :
    (h.put id s x).ref id' ≠ none ↔ h.ref id' ≠ none ∨ id' = id :=
  hw.ref_opened id id' s

/-! ## Replayed runs -/

/-- A logged run without weights of a registered series; nothing is checked. -/
def replaySamples (h : Head ID S F) (id : ID) (xs : List (ℤ × F)) : Head ID S F :=
  match h.ref id with
  | none => h
  | some ref =>
    let (buf, h) := h.bufForRef id ref
    let h := { h with
      samples := update h.samples buf (some (((h.samples buf).getD SampleBuf.empty).replay xs)) }
    xs.foldl (fun h p => h.noteTSRef ref p.1) (h.grow (xs.length * sampleBytes))

/-- A logged run with weights. -/
def replaySamplesSF (h : Head ID S F) (id : ID) (xs : List (Sample F)) : Head ID S F :=
  match h.ref id with
  | none => h
  | some ref =>
    let (buf, h) := h.bufForRef id ref
    (xs.foldl (fun h x => (h.appendTo buf x).noteTSRef ref x.ts) h).grow (xs.length * sampleBytes)

/-- **A replayed run is put sample by sample.** -/
theorem Linked.replaySamplesSF_eq (hl : h.Linked) (hid : h.ref id ≠ none)
    (s : S) (xs : List (Sample F)) :
    h.replaySamplesSF id xs = xs.foldl (fun h x => h.put id s x) (h.opened id s) := by
  obtain ⟨r, href⟩ := Option.ne_none_iff_exists'.mp hid
  obtain ⟨hbuf, hopen⟩ := hl.bufForRef_eq href s
  have hheld := (hl.wf.opened id s).2.1
  rw [replaySamplesSF, href]
  simp only [hbuf]
  generalize h.opened id s = g at hopen hheld
  induction xs generalizing g with
  | nil => simp [Head.grow]
  | cons x xs ih =>
    have hput : g.put id s x = ((g.appendTo id x).noteTSRef r x.ts).grow sampleBytes := by
      rw [hheld.put_eq, slotOf_eq hopen, ← append_eq_deposit, noteTSRef_eq, noteTSRef_eq]
      rfl
    have hgrow : ∀ (n : ℤ) (g : Head ID S F),
        xs.foldl (fun g x => (g.appendTo id x).noteTSRef r x.ts) (g.grow n) =
          (xs.foldl (fun g x => (g.appendTo id x).noteTSRef r x.ts) g).grow n := by
      intro n g
      refine foldl_hom (fun g : Head ID S F => g.grow n) fun g x => ?_
      rw [noteTSRef_eq, noteTSRef_eq]
      rfl
    have hkeeps : (g.put id s x).ref = g.ref ∧ (g.put id s x).Held id := by
      rw [hput, noteTSRef_eq]
      exact ⟨rfl, hheld⟩
    rw [foldl_cons, foldl_cons, ← ih (g.put id s x) (by rw [hkeeps.1, hopen]) hkeeps.2, hput, hgrow]
    simp only [Head.grow, length_cons, sampleBytes]
    congr 1
    omega

theorem Linked.ref_replaySamplesSF (hl : h.Linked) (hid : h.ref id ≠ none)
    (id' : ID) (xs : List (Sample F)) : (h.replaySamplesSF id' xs).ref id ≠ none := by
  by_cases hid' : h.ref id' = none
  · rwa [replaySamplesSF, hid']
  obtain ⟨r, href⟩ := Option.ne_none_iff_exists'.mp hid'
  rw [hl.replaySamplesSF_eq hid' (h.series.get ⟨r, ref_lt href⟩).2]
  generalize (h.series.get ⟨r, ref_lt href⟩).2 = s
  have hopened := hl.opened id' s
  have hid := (hl.wf.ref_opened id' id s).mpr (.inl hid)
  generalize h.opened id' s = g at hopened hid
  induction xs generalizing g with
  | nil => exact hid
  | cons x xs ih =>
    exact ih _ (hopened.put id' s x) ((hopened.wf.ref_put_iff id' id s x).mpr (.inl hid))

theorem Linked.replaySamples_eq (hl : h.Linked) (id : ID) (xs : List (ℤ × F)) :
    h.replaySamples id xs = h.replaySamplesSF id (xs.map fun p => ⟨p.1, p.2, 1⟩) := by
  rw [replaySamples, replaySamplesSF]
  cases href : h.ref id with
  | none => rfl
  | some r =>
    obtain ⟨s, hs⟩ : ∃ s, s = (h.series.get ⟨r, ref_lt href⟩).2 := ⟨_, rfl⟩
    obtain ⟨b, hb⟩ : ∃ b, (h.opened id s).samples id = some b := by
      rw [hl.samples_opened, update_self]
      exact ⟨_, rfl⟩
    simp only [(hl.bufForRef_eq href s).1, length_map, hb, Option.getD_some]
    generalize h.opened id s = g at hb
    generalize (xs.length : ℤ) * sampleBytes = n
    induction xs generalizing g b with
    | nil =>
      have hself : b.replay [] = b := by rw [SampleBuf.replay_eq]; rfl
      rw [hself, ← hb, update_eq_self]
      rfl
    | cons p xs ih =>
      rw [map_cons, foldl_cons, foldl_cons, ← ih (b.appendSample ⟨p.1, p.2, 1⟩)]
      · have hreplay : b.replay (p :: xs) = (b.appendSample ⟨p.1, p.2, 1⟩).replay xs := by
          rw [SampleBuf.replay_eq, SampleBuf.replay_eq]
          rfl
        rw [hreplay, noteTSRef_eq, noteTSRef_eq]
        simp only [Head.grow, Head.appendTo, update_idem]
        rfl
      · rw [noteTSRef_eq]
        simp only [Head.appendTo, hb, Option.getD_some, update_self]

section Reattach

/-- Live samples go behind older ones. -/
def appendLiveSamples (older live : SampleBuf F) : SampleBuf F :=
  live.samples.foldl SampleBuf.appendSample older

/-- The live buffers go into the map of the detached ones, from which the empty ones are deleted. -/
def reuseDetachedSamples (detached active : ID → Option (SampleBuf F)) (id : ID) :
    Option (SampleBuf F) :=
  let older := (detached id).filter fun b => !b.ts.isEmpty
  match active id, older with
  | some live, some b => some (appendLiveSamples b live)
  | some live, none => some live
  | none, older => older

/-- The detached buffers go into the map of the live ones; empty ones are passed over. -/
def foldDetachedSamples (detached active : ID → Option (SampleBuf F)) (id : ID) :
    Option (SampleBuf F) :=
  match detached id with
  | none => active id
  | some b =>
    if b.ts.isEmpty then active id
    else match active id with
      | some live => some (appendLiveSamples b live)
      | none => some b

/-- The number of identities with a buffer. -/
def bufferCount (h : Head ID S F) (samples : ID → Option (SampleBuf F)) : ℕ :=
  ((h.series.map Prod.fst).filter fun id => (samples id).isSome).length

/-- The buffers of a failed flush come back, into the larger of the two maps. -/
def reattachFlush (h : Head ID S F) (d : Detached ID F) : Head ID S F :=
  let samples :=
    if h.bufferCount h.samples < h.bufferCount d.samples then
      reuseDetachedSamples d.samples h.samples
    else foldDetachedSamples d.samples h.samples
  let h := { h with samples := samples }
  { h with buffers := h.resetPages.get }.restoreMeasures d

section

omit [DecidableEq ID]

theorem foldDetachedSamples_eq (detached active : ID → Option (SampleBuf F)) :
    foldDetachedSamples detached active = rejoined detached active := by
  funext id
  rw [foldDetachedSamples, rejoined]
  cases detached id with
  | none => rfl
  | some b => cases active id <;> rfl

theorem reuseDetachedSamples_eq (detached active : ID → Option (SampleBuf F)) :
    reuseDetachedSamples detached active = rejoined detached active := by
  funext id
  rw [reuseDetachedSamples, rejoined]
  cases detached id with
  | none => cases active id <;> rfl
  | some b =>
    by_cases hempty : b.ts.isEmpty = true
    · cases active id <;> simp [Option.filter, hempty]
    · cases active id <;> simp [Option.filter, hempty, appendLiveSamples]

end

/-- **Both ways back are the same.** -/
theorem reattachFlush_eq (hw : h.WellFormed) (d : Detached ID F) :
    h.reattachFlush d = h.reattach d := by
  have hsamples : (if h.bufferCount h.samples < h.bufferCount d.samples then
      reuseDetachedSamples d.samples h.samples else foldDetachedSamples d.samples h.samples) =
      rejoined d.samples h.samples := by
    rw [reuseDetachedSamples_eq, foldDetachedSamples_eq, ite_self]
  have hpages := WellFormed.get_resetPages
    (hw.remeasure (rejoined d.samples h.samples) h.newest h.bufferedMin h.bufferedKnown h.bytes
      h.detachedBytes)
  rw [reattachFlush, hsamples]
  simp only [hpages]
  rfl

end Reattach

end Head

end OtelStorage.Metrics
