import OtelStorage.Metrics.Downsample
import Mathlib.Data.List.GetD
import Mathlib.Data.List.Nodup
import Mathlib.Logic.Function.Basic

/-!
# The in-memory head

The head holds the identities it has seen, in the order they were registered, and for each one a
*slot* that leads to its newest admitted timestamp and to its sample buffer.  A buffer is reached in
two ways, through the map of buffers by identity and through the slot; the slot holds a pointer,
which is modelled by the identity the buffer was made for.

An identity is the hash of a series.  Nothing here needs the hash to be injective: two series with
one hash are one identity to the head, the first one seen.
-/

namespace OtelStorage.Metrics

open List Function

/-- One series' samples in arrival order.  Without weights every weight is `1`. -/
structure SampleBuf (F : Type*) where
  ts : List ℤ
  values : List F
  sf : Option (List F)
  deriving DecidableEq, Repr

/-- The per-call admission limits; zero is no limit. -/
structure AppendLimits (S : Type*) where
  minTimestamp : ℤ
  enforceMinTimestamp : Bool
  maxSeries : ℤ
  maxSeriesSoft : ℤ
  overflow : Option (S → S)
  maxInFlightBytes : ℤ

/-- How an append ends. -/
inductive AdmitOutcome
  | admitted
  | rejectOOO
  | rejectRetention
  | rejectCardinality
  | rejectBytes
  | admittedOverflow
  deriving DecidableEq, Repr

/-- The head.  `marks` and `buffers` are what the slots hold. -/
structure Head (ID S F : Type*) where
  series : List (ID × S)
  stateRefs : List ℕ
  free : List ℕ
  next : ℕ
  marks : ℕ → Option ℤ
  buffers : ℕ → Option ID
  samples : ID → Option (SampleBuf F)
  newest : ℤ
  bufferedMin : ℤ
  bufferedKnown : Bool
  bytes : ℤ
  detachedBytes : ℤ

/-- What the head knows of one identity: its buffer, its newest timestamp once one was admitted, and
its place in the index. -/
structure HeadSeriesState (ID : Type*) where
  buffer : Option ID
  newest : Option ℤ
  ref : ℕ
  known : Bool
  deriving DecidableEq, Repr

/-- What an append answers: the outcome, the identity the sample landed under, and the series record
to log, if one is due. -/
structure Appended (ID S : Type*) where
  outcome : AdmitOutcome
  effID : ID
  logSeries : Bool
  series : Option S

/-- The memory charged for a buffered sample. -/
def sampleBytes : ℤ := 16

/-- A sample is late when it lies more than `window` behind the newest one.  The difference wraps
as a 64-bit integer does. -/
def late (window ts : ℤ) (newest : Option ℤ) : Bool :=
  match newest with
  | some n => decide (0 < window ∧ ts < (n - window).bmod (2 ^ 64))
  | none => false

namespace SampleBuf

variable {F : Type*} [DecidableEq F] [One F]

/-- A buffer without samples. -/
def empty : SampleBuf F := ⟨[], [], none⟩

/-- Weights are kept from the first one that is not `1` on; the ones before it are filled in. -/
def appendSample (b : SampleBuf F) (x : Sample F) : SampleBuf F where
  ts := b.ts ++ [x.ts]
  values := b.values ++ [x.val]
  sf :=
    match b.sf with
    | some w => some (w ++ [x.weight])
    | none => if x.weight ≠ 1 then some (List.replicate b.ts.length 1 ++ [x.weight]) else none

end SampleBuf

namespace Head

variable {ID S F : Type*} [DecidableEq ID] {h : Head ID S F} {id id' : ID} {r r' : ℕ}

/-- An empty head. -/
def new : Head ID S F where
  series := []
  stateRefs := []
  free := []
  next := 0
  marks := fun _ => none
  buffers := fun _ => none
  samples := fun _ => none
  newest := 0
  bufferedMin := 0
  bufferedKnown := false
  bytes := 0
  detachedBytes := 0

/-- The place of an identity in the index. -/
def ref (h : Head ID S F) (id : ID) : Option ℕ := h.series.findIdx? fun p => p.1 = id

/-- The slot of a place in the index. -/
def slotAt (h : Head ID S F) (ref : ℕ) : ℕ := h.stateRefs.getD ref 0

/-- What the head knows of an identity. -/
def seriesState (h : Head ID S F) (id : ID) : HeadSeriesState ID :=
  match h.ref id with
  | none => ⟨none, none, 0, false⟩
  | some ref => ⟨h.buffers (h.slotAt ref), h.marks (h.slotAt ref), ref, true⟩

/-- The bytes buffered or being flushed. -/
def inFlightBytes (h : Head ID S F) : ℤ := h.bytes + h.detachedBytes

/-- A released slot is used before a new one. -/
def alloc (h : Head ID S F) : ℕ × Head ID S F :=
  match h.free with
  | slot :: free => (slot, { h with free := free })
  | [] => (h.next, { h with next := h.next + 1 })

/-- Identities without a slot get one. -/
def fillRefs : ℕ → Head ID S F → Head ID S F
  | 0, h => h
  | n + 1, h =>
    let (slot, h) := h.alloc
    fillRefs n { h with stateRefs := h.stateRefs ++ [slot] }

/-- An identity known not to be present enters the index. -/
def register (h : Head ID S F) (id : ID) (s : S) : Head ID S F :=
  let h := { h with series := h.series ++ [(id, s)] }
  fillRefs (h.series.length - h.stateRefs.length) h

/-- The buffer behind `ref`, made for `id` if there is none. -/
def bufForRef (h : Head ID S F) (id : ID) (ref : ℕ) : ID × Head ID S F :=
  match h.buffers (h.slotAt ref) with
  | some p => (p, h)
  | none =>
    (id, { h with
      samples := update h.samples id (some SampleBuf.empty)
      buffers := update h.buffers (h.slotAt ref) (some id) })

/-- A sample enters the buffer of `p`. -/
def appendTo [DecidableEq F] [One F] (h : Head ID S F) (p : ID) (x : Sample F) : Head ID S F :=
  let buf := (h.samples p).getD SampleBuf.empty
  { h with samples := update h.samples p (some (buf.appendSample x)) }

/-- Count `n` bytes more. -/
def grow (h : Head ID S F) (n : ℤ) : Head ID S F := { h with bytes := h.bytes + n }

/-- Count a timestamp in the least one buffered. -/
def noteBufferedTS (h : Head ID S F) (ts : ℤ) : Head ID S F :=
  if h.bufferedKnown = false ∨ ts < h.bufferedMin then
    { h with bufferedMin := ts, bufferedKnown := true }
  else h

/-- Set the newest timestamp of a slot. -/
def setMark (h : Head ID S F) (slot : ℕ) (ts : ℤ) : Head ID S F :=
  { h with marks := update h.marks slot (some ts) }

/-- An admitted timestamp advances its series' newest and the head's. -/
def noteTSRef (h : Head ID S F) (ref : ℕ) (ts : ℤ) : Head ID S F :=
  let h := h.noteBufferedTS ts
  let h :=
    match h.marks (h.slotAt ref) with
    | some newest => if newest < ts then h.setMark (h.slotAt ref) ts else h
    | none => h.setMark (h.slotAt ref) ts
  { h with newest := max h.newest ts }

section Append

variable [DecidableEq F] [One F] (hash : S → ID)

/-- The sample goes to the overflow series, which no cap applies to. -/
def appendOverflow (h : Head ID S F) (ov : S) (x : Sample F) :
    Appended ID S × Head ID S F :=
  let oid := hash ov
  let state := h.seriesState oid
  let (buf, ref, h) :=
    match state.buffer with
    | some buf => (buf, state.ref, h)
    | none =>
      let (ref, h) :=
        if state.known then (state.ref, h)
        else
          let h := h.register oid ov
          ((h.ref oid).getD 0, h)
      let (buf, h) := h.bufForRef oid ref
      (buf, ref, h)
  let h := ((h.appendTo buf x).grow sampleBytes).noteTSRef ref x.ts
  (⟨.admittedOverflow, oid, state.buffer = none, some ov⟩, h)

/-- Admission of a series not yet in the index: a final answer, or the series registered. -/
def admitNew (limits : AppendLimits S) (h : Head ID S F) (id : ID) (s : S) (x : Sample F) :
    Option (Appended ID S) × Head ID S F :=
  let cardinality : ℤ := h.series.length
  if 0 < limits.maxSeries ∧ limits.maxSeries ≤ cardinality then
    (some ⟨.rejectCardinality, id, false, none⟩, h)
  else
    match limits.overflow with
    | some overflow =>
      if 0 < limits.maxSeriesSoft ∧ limits.maxSeriesSoft ≤ cardinality then
        let (answer, h) := h.appendOverflow hash (overflow s) x
        (some answer, h)
      else (none, h.register id s)
    | none => (none, h.register id s)

/-- One sample of the series `s`, whose identity is its hash. -/
def appendByID (window : ℤ) (limits : AppendLimits S) (h : Head ID S F) (s : S) (x : Sample F) :
    Appended ID S × Head ID S F :=
  let id := hash s
  if limits.enforceMinTimestamp = true ∧ x.ts < limits.minTimestamp then
    (⟨.rejectRetention, id, false, none⟩, h)
  else
    let state := h.seriesState id
    if late window x.ts state.newest then (⟨.rejectOOO, id, false, none⟩, h)
    else if 0 < limits.maxInFlightBytes ∧ limits.maxInFlightBytes ≤ h.inFlightBytes then
      (⟨.rejectBytes, id, false, none⟩, h)
    else
      match state.buffer with
      | some buf =>
        (⟨.admitted, id, false, none⟩,
          ((h.appendTo buf x).grow sampleBytes).noteTSRef state.ref x.ts)
      | none =>
        if state.known then
          let (buf, h) := h.bufForRef id state.ref
          (⟨.admitted, id, true, h.series[state.ref]?.map Prod.snd⟩,
            ((h.appendTo buf x).grow sampleBytes).noteTSRef state.ref x.ts)
        else
          match h.admitNew hash limits id s x with
          | (some answer, h) => (answer, h)
          | (none, h) =>
            let ref := (h.ref id).getD 0
            let (buf, h) := h.bufForRef id ref
            (⟨.admitted, id, true, some s⟩,
              ((h.appendTo buf x).grow sampleBytes).noteTSRef ref x.ts)

end Append

/-! ## The invariant of the slots -/

/-- Every identity has a slot of its own, free slots are nobody's, a slot without an identity holds
nothing, and the buffer behind an identity's slot is its own. -/
structure WellFormed (h : Head ID S F) : Prop where
  ids : (h.series.map Prod.fst).Nodup
  refs : h.stateRefs.length = h.series.length
  slots : h.stateRefs.Nodup
  used : ∀ r ∈ h.stateRefs, r < h.next ∧ r ∉ h.free
  freeSlots : h.free.Nodup ∧ ∀ r ∈ h.free, r < h.next
  unused : ∀ r, r ∉ h.stateRefs → h.buffers r = none ∧ h.marks r = none
  owner : ∀ id ref p, h.ref id = some ref → h.buffers (h.slotAt ref) = some p → p = id

theorem wellFormed_new : (new : Head ID S F).WellFormed where
  ids := nodup_nil
  refs := rfl
  slots := nodup_nil
  used _ hr := nomatch hr
  freeSlots := ⟨nodup_nil, nofun⟩
  unused _ _ := ⟨rfl, rfl⟩
  owner _ _ _ href := absurd href nofun

theorem ref_lt (href : h.ref id = some r) : r < h.series.length :=
  (List.findIdx?_eq_some_iff_getElem.mp href).1

theorem ref_eq_none : h.ref id = none ↔ id ∉ h.series.map Prod.fst := by
  simp only [ref, List.findIdx?_eq_none_iff, decide_eq_false_iff_not, mem_map, not_exists, not_and]

theorem id_of_ref (href : h.ref id = some r) : (h.series.map Prod.fst)[r]? = some id := by
  obtain ⟨hlt, hid, -⟩ := List.findIdx?_eq_some_iff_getElem.mp href
  rw [List.getElem?_map, List.getElem?_eq_getElem hlt]
  exact congrArg some (of_decide_eq_true hid)

theorem ref_inj (href : h.ref id = some r) (href' : h.ref id' = some r) : id = id' :=
  Option.some.inj ((id_of_ref href).symm.trans (id_of_ref href'))

namespace WellFormed

theorem slotAt_mem (hw : h.WellFormed) (href : h.ref id = some r) : h.slotAt r ∈ h.stateRefs := by
  have hlt : r < h.stateRefs.length := hw.refs ▸ ref_lt href
  rw [slotAt, getD_eq_getElem _ _ hlt]
  exact getElem_mem hlt

theorem slotAt_ne (hw : h.WellFormed) (href : h.ref id = some r) (href' : h.ref id' = some r')
    (hne : id ≠ id') : h.slotAt r ≠ h.slotAt r' := by
  intro heq
  have hlt : r < h.stateRefs.length := hw.refs ▸ ref_lt href
  have hlt' : r' < h.stateRefs.length := hw.refs ▸ ref_lt href'
  rw [slotAt, slotAt, getD_eq_getElem _ _ hlt, getD_eq_getElem _ _ hlt'] at heq
  have hr : r = r' := (hw.slots.getElem_inj_iff).mp heq
  subst hr
  exact hne (ref_inj href href')

end WellFormed

theorem register_eq (hw : h.WellFormed) (id : ID) (s : S) : ∃ slot free next,
    h.register id s = { h with
      series := h.series ++ [(id, s)], stateRefs := h.stateRefs ++ [slot]
      free := free, next := next } ∧
    slot ∉ h.stateRefs ∧ slot < next ∧ slot ∉ free ∧ h.next ≤ next ∧ (∀ r ∈ free, r ∈ h.free) ∧
      free.Nodup := by
  have hone : (h.series ++ [(id, s)]).length - h.stateRefs.length = 1 := by
    rw [hw.refs, length_append, length_singleton]
    omega
  obtain ⟨hnodup, hlt⟩ := hw.freeSlots
  simp only [register, hone, fillRefs]
  cases hfree : h.free with
  | nil =>
    refine ⟨h.next, [], h.next + 1, by simp [alloc], ?_, by omega, not_mem_nil,
      by omega, nofun, nodup_nil⟩
    exact fun hmem => lt_irrefl _ (hw.used _ hmem).1
  | cons slot free =>
    rw [hfree] at hnodup hlt
    refine ⟨slot, free, h.next, by simp [alloc], ?_, hlt slot mem_cons_self,
      (nodup_cons.mp hnodup).1, le_rfl, fun r hr => mem_cons_of_mem _ hr,
      (nodup_cons.mp hnodup).2⟩
    intro hmem
    exact (hw.used _ hmem).2 (hfree ▸ mem_cons_self)

theorem ref_append (h : Head ID S F) (id id' : ID) (s : S) (refs free : List ℕ) (next : ℕ) :
    ({ h with series := h.series ++ [(id, s)], stateRefs := refs, free := free, next := next } :
      Head ID S F).ref id' =
      (h.ref id').or (if id = id' then some h.series.length else none) := by
  simp only [ref, List.findIdx?_append, List.findIdx?_singleton]
  by_cases hid : id = id' <;> simp [hid]

theorem slotAt_append {refs : List ℕ} (slot : ℕ) (hr : r < refs.length) :
    (refs ++ [slot]).getD r 0 = refs.getD r 0 := by
  rw [getD_append _ _ _ _ hr]

/-- The identity is in the index and has a buffer. -/
def Held (h : Head ID S F) (id : ID) : Prop :=
  ∃ r, h.ref id = some r ∧ h.buffers (h.slotAt r) = some id

/-- The slot of an identity in the index. -/
def slotOf (h : Head ID S F) (id : ID) : ℕ := h.slotAt ((h.ref id).getD 0)

/-- What an admitted sample needs: its series in the index, with a buffer. -/
def opened (h : Head ID S F) (id : ID) (s : S) : Head ID S F :=
  let h := if h.ref id = none then h.register id s else h
  (h.bufForRef id ((h.ref id).getD 0)).2

theorem slotOf_eq (href : h.ref id = some r) : h.slotOf id = h.slotAt r := by
  rw [slotOf, href, Option.getD_some]

theorem WellFormed.register (hw : h.WellFormed) (href : h.ref id = none) (s : S) :
    (h.register id s).WellFormed ∧ (h.register id s).ref id = some h.series.length ∧
      (h.register id s).seriesState id = ⟨none, none, h.series.length, true⟩ ∧
      ∀ id' r, id' ≠ id → (((h.register id s).ref id' = some r ↔ h.ref id' = some r) ∧
        (h.ref id' = some r → (h.register id s).slotAt r = h.slotAt r)) := by
  obtain ⟨slot, free, next, heq, hslot, hnext, hfree, hle, hsub, hnodup⟩ := register_eq hw id s
  have hnew : (h.stateRefs ++ [slot]).getD h.series.length 0 = slot := by
    rw [← hw.refs, getD_append_right _ _ _ _ le_rfl]
    simp
  have hold : ∀ {id' : ID} {r : ℕ}, h.ref id' = some r →
      (h.stateRefs ++ [slot]).getD r 0 = h.stateRefs.getD r 0 := fun hr =>
    slotAt_append slot (hw.refs ▸ ref_lt hr)
  rw [heq]
  have hrefs : ∀ id', id' ≠ id → ({ h with
      series := h.series ++ [(id, s)], stateRefs := h.stateRefs ++ [slot], free := free
      next := next } : Head ID S F).ref id' = h.ref id' := by
    intro id' hne
    rw [ref_append, if_neg (Ne.symm hne), Option.or_none]
  refine ⟨?_, ?_, ?_, ?_⟩
  · exact {
      ids := by
        show ((h.series ++ [(id, s)]).map Prod.fst).Nodup
        rw [map_append, map_singleton, ← concat_eq_append]
        exact hw.ids.concat (ref_eq_none.mp href)
      refs := by simp [hw.refs]
      slots := by
        show (h.stateRefs ++ [slot]).Nodup
        rw [← concat_eq_append]
        exact hw.slots.concat hslot
      used := by
        intro r hr
        rcases mem_append.mp hr with hr | hr
        · obtain ⟨hlt, hnot⟩ := hw.used r hr
          exact ⟨hlt.trans_le hle, fun hmem => hnot (hsub r hmem)⟩
        · rw [mem_singleton.mp hr]
          exact ⟨hnext, hfree⟩
      freeSlots := ⟨hnodup, fun r hr => (hw.freeSlots.2 r (hsub r hr)).trans_le hle⟩
      unused := fun r hr => hw.unused r fun hmem => hr (mem_append_left _ hmem)
      owner := by
        intro id' r p hr hp
        by_cases hid : id' = id
        · subst hid
          rw [ref_append, if_pos rfl, href, Option.none_or] at hr
          rw [← Option.some.inj hr, slotAt, hnew, (hw.unused slot hslot).1] at hp
          cases hp
        · rw [hrefs id' hid] at hr
          rw [slotAt, hold hr] at hp
          exact hw.owner id' r p hr hp }
  · rw [ref_append, if_pos rfl, href, Option.none_or]
  · rw [seriesState, ref_append, if_pos rfl, href, Option.none_or]
    simp only [slotAt, hnew, hw.unused slot hslot]
  · intro id' r hne
    rw [hrefs id' hne]
    exact ⟨Iff.rfl, fun hr => hold hr⟩

theorem WellFormed.bufForRef (hw : h.WellFormed) (href : h.ref id = some r) :
    (h.bufForRef id r).2.WellFormed ∧ (h.bufForRef id r).1 = id ∧
      (h.bufForRef id r).2.Held id ∧
      ∀ id', id' ≠ id → (h.bufForRef id r).2.seriesState id' = h.seriesState id' := by
  unfold Head.bufForRef
  cases hbuf : h.buffers (h.slotAt r) with
  | some p =>
    have hp := hw.owner id r p href hbuf
    subst hp
    exact ⟨hw, rfl, ⟨r, href, hbuf⟩, fun _ _ => rfl⟩
  | none =>
    have hmem := hw.slotAt_mem href
    refine ⟨?_, rfl, ⟨r, href, update_self _ _ _⟩, ?_⟩
    · exact { hw with
        unused := by
          intro k hk
          have hne : k ≠ h.slotAt r := fun heq => hk (heq ▸ hmem)
          exact ⟨(update_of_ne hne _ _).trans (hw.unused k hk).1, (hw.unused k hk).2⟩
        owner := by
          intro id' k p hk hp
          by_cases hid : id' = id
          · subst hid
            obtain rfl : r = k := Option.some.inj (href.symm.trans hk)
            have hp : update h.buffers (h.slotAt r) (some id') (h.slotAt r) = some p := hp
            rw [update_self] at hp
            exact (Option.some.inj hp).symm
          · have hne : h.slotAt k ≠ h.slotAt r := hw.slotAt_ne hk href hid
            exact hw.owner id' k p hk ((update_of_ne hne _ _).symm.trans hp) }
    · intro id' hne
      cases hk : h.ref id' with
      | none =>
        have hk' : ∀ (b : ℕ → Option ID) (m : ID → Option (SampleBuf F)),
          ({ h with samples := m, buffers := b } : Head ID S F).ref id' = none := fun _ _ => hk
        simp only [seriesState, hk, hk']
      | some k =>
        have hslot : h.slotAt k ≠ h.slotAt r := hw.slotAt_ne hk href hne
        have hk' : ∀ (b : ℕ → Option ID) (m : ID → Option (SampleBuf F)),
          ({ h with samples := m, buffers := b } : Head ID S F).ref id' = some k := fun _ _ => hk
        simp only [seriesState, hk, hk']
        congr 1
        exact update_of_ne hslot _ _

/-- Opening a series keeps the invariant, gives the series a buffer, and leaves every other series
as it was. -/
theorem WellFormed.opened (hw : h.WellFormed) (id : ID) (s : S) :
    (h.opened id s).WellFormed ∧ (h.opened id s).Held id ∧
      ∀ id', id' ≠ id → (h.opened id s).seriesState id' = h.seriesState id' := by
  unfold Head.opened
  cases href : h.ref id with
  | some r =>
    obtain ⟨hwf, -, hheld, hother⟩ := hw.bufForRef href
    simp only [reduceCtorEq, if_false, href, Option.getD_some]
    exact ⟨hwf, hheld, hother⟩
  | none =>
    obtain ⟨hwr, hself, -, hrest⟩ := hw.register href s
    obtain ⟨hwf, -, hheld, hother⟩ := hwr.bufForRef hself
    simp only [if_true, hself, Option.getD_some]
    refine ⟨hwf, hheld, fun id' hne => (hother id' hne).trans ?_⟩
    have hbuffers : (h.register id s).buffers = h.buffers ∧ (h.register id s).marks = h.marks := by
      obtain ⟨slot, free, next, heq, -⟩ := register_eq hw id s
      rw [heq]
      exact ⟨rfl, rfl⟩
    unfold seriesState
    cases hk : h.ref id' with
    | none =>
      have hk' : (h.register id s).ref id' = none := by
        cases hk' : (h.register id s).ref id' with
        | none => rfl
        | some k => exact absurd (((hrest id' k hne).1.mp hk').symm.trans hk) nofun
      simp only [hk']
    | some k =>
      obtain ⟨hiff, hslot⟩ := hrest id' k hne
      simp only [hiff.mpr hk, hslot hk, hbuffers]

theorem slotOf_bufForRef (h : Head ID S F) (id id' : ID) (r : ℕ) :
    (h.bufForRef id r).2.slotOf id' = h.slotOf id' := by
  unfold Head.bufForRef
  cases h.buffers (h.slotAt r) <;> rfl

/-- Opening a series adds it to the index if it is not there, and nothing else is counted. -/
theorem WellFormed.opened_fields (hw : h.WellFormed) (id : ID) (s : S) :
    (h.opened id s).bytes = h.bytes ∧ (h.opened id s).detachedBytes = h.detachedBytes ∧
      (h.opened id s).series.length =
        h.series.length + (if (h.seriesState id).known then 0 else 1) ∧
      (h.opened id s).marks ((h.opened id s).slotOf id) = (h.seriesState id).newest := by
  have hbuf : ∀ (g : Head ID S F) (k : ℕ), (g.bufForRef id k).2.bytes = g.bytes ∧
      (g.bufForRef id k).2.detachedBytes = g.detachedBytes ∧
      (g.bufForRef id k).2.series = g.series ∧ (g.bufForRef id k).2.marks = g.marks := by
    intro g k
    unfold Head.bufForRef
    cases g.buffers (g.slotAt k) <;> exact ⟨rfl, rfl, rfl, rfl⟩
  unfold Head.opened
  cases href : h.ref id with
  | some r =>
    simp only [reduceCtorEq, if_false, hbuf, slotOf_bufForRef, seriesState, href, if_true,
      slotOf_eq href, add_zero, and_self]
  | none =>
    obtain ⟨-, hself, hstate, -⟩ := hw.register href s
    have hmark : (h.register id s).marks ((h.register id s).slotAt h.series.length) = none := by
      have := congrArg HeadSeriesState.newest hstate
      rwa [seriesState, hself] at this
    obtain ⟨slot, free, next, heq, -⟩ := register_eq hw id s
    have hfields : (h.register id s).bytes = h.bytes ∧
        (h.register id s).detachedBytes = h.detachedBytes ∧
        (h.register id s).series.length = h.series.length + 1 := by
      rw [heq]
      exact ⟨rfl, rfl, length_append⟩
    simp only [if_true, hbuf, slotOf_bufForRef, slotOf_eq hself, hmark, hfields, seriesState, href,
      Bool.false_eq_true, if_false, and_self]

theorem WellFormed.slotOf_opened (hw : h.WellFormed) (href : h.ref id' = some r) (id : ID) (s : S) :
    (h.opened id s).slotOf id' = h.slotOf id' := by
  unfold Head.opened
  cases hk : h.ref id with
  | some k =>
    simp only [reduceCtorEq, if_false]
    exact slotOf_bufForRef h id id' _
  | none =>
    have hne : id' ≠ id := by
      rintro rfl
      cases href.symm.trans hk
    obtain ⟨-, -, -, hrest⟩ := hw.register hk s
    obtain ⟨hiff, hslot⟩ := hrest id' r hne
    simp only [if_true]
    rw [slotOf_bufForRef, slotOf_eq (hiff.mpr href), slotOf_eq href, hslot href]

theorem known_eq_false : (h.seriesState id).known = false ↔ h.ref id = none := by
  unfold seriesState
  cases h.ref id <;> simp

theorem ref_of_known (hknown : (h.seriesState id).known = true) :
    h.ref id = some (h.seriesState id).ref := by
  unfold seriesState at *
  cases href : h.ref id <;> simp_all

theorem Held.opened (hheld : h.Held id) (s : S) : h.opened id s = h := by
  obtain ⟨r, href, hbuf⟩ := hheld
  simp [Head.opened, href, Head.bufForRef, hbuf]

theorem Held.seriesState (hheld : h.Held id) :
    h.seriesState id = ⟨some id, h.marks (h.slotOf id), (h.ref id).getD 0, true⟩ := by
  obtain ⟨r, href, hbuf⟩ := hheld
  simp only [Head.seriesState, href, hbuf, slotOf, Option.getD_some]

theorem WellFormed.held_iff (hw : h.WellFormed) : h.Held id ↔ (h.seriesState id).buffer ≠ none := by
  constructor
  · intro hheld
    rw [hheld.seriesState]
    exact nofun
  · intro hbuf
    unfold Head.seriesState at hbuf
    cases href : h.ref id with
    | none => simp [href] at hbuf
    | some r =>
      simp only [href] at hbuf
      obtain ⟨p, hp⟩ := Option.ne_none_iff_exists'.mp hbuf
      exact ⟨r, href, hp.trans (congrArg some (hw.owner id r p href hp))⟩

/-! ## Admitted samples -/

/-- The newest of what was seen and a timestamp. -/
def raise (seen : Option ℤ) (ts : ℤ) : ℤ :=
  match seen with
  | some newest => max newest ts
  | none => ts

section Marks

omit [DecidableEq ID]

variable (h)

theorem noteBufferedTS_eq (ts : ℤ) : h.noteBufferedTS ts = { h with
    bufferedMin := if h.bufferedKnown then min h.bufferedMin ts else ts
    bufferedKnown := true } := by
  unfold noteBufferedTS
  obtain ⟨_, _, _, _, _, _, _, _, bufferedMin, bufferedKnown, _, _⟩ := h
  cases bufferedKnown with
  | false => simp
  | true =>
    by_cases hlt : ts < bufferedMin
    · simp [hlt, min_eq_right hlt.le]
    · simp [hlt, min_eq_left (not_lt.mp hlt)]

theorem setMark_raise (slot : ℕ) (ts : ℤ) :
    (match h.marks slot with
      | some newest => if newest < ts then h.setMark slot ts else h
      | none => h.setMark slot ts) = h.setMark slot (raise (h.marks slot) ts) := by
  cases hm : h.marks slot with
  | none => rfl
  | some newest =>
    dsimp only
    split_ifs with hlt
    · rw [raise, max_eq_right hlt.le]
    · rw [raise, max_eq_left (not_lt.mp hlt), setMark, ← hm, update_eq_self]

end Marks

section Put

variable [DecidableEq F] [One F]

/-- A sample enters the buffer of `id`, whose slot is `slot`. -/
def deposit (h : Head ID S F) (id : ID) (slot : ℕ) (x : Sample F) : Head ID S F :=
  { h with
    samples := update h.samples id (some (((h.samples id).getD SampleBuf.empty).appendSample x))
    marks := update h.marks slot (some (raise (h.marks slot) x.ts))
    newest := max h.newest x.ts
    bufferedMin := if h.bufferedKnown then min h.bufferedMin x.ts else x.ts
    bufferedKnown := true
    bytes := h.bytes + sampleBytes }

/-- **What every admitted sample does**, whether its series is buffered, known or new. -/
def put (h : Head ID S F) (id : ID) (s : S) (x : Sample F) : Head ID S F :=
  (h.opened id s).deposit id ((h.opened id s).slotOf id) x

theorem Held.put_eq (hheld : h.Held id) (s : S) (x : Sample F) :
    h.put id s x = h.deposit id (h.slotOf id) x := by
  rw [put, hheld.opened]

theorem append_eq_deposit (h : Head ID S F) (id : ID) (r : ℕ) (x : Sample F) :
    ((h.appendTo id x).grow sampleBytes).noteTSRef r x.ts = h.deposit id (h.slotAt r) x := by
  have hmark := congrArg (fun g : Head ID S F => { g with newest := max g.newest x.ts })
    (setMark_raise (((h.appendTo id x).grow sampleBytes).noteBufferedTS x.ts) (h.slotAt r) x.ts)
  rw [noteBufferedTS_eq] at hmark
  rw [noteTSRef, noteBufferedTS_eq]
  exact hmark

theorem deposit_comm (h : Head ID S F) {slot slot' : ℕ} (hid : id ≠ id')
    (hslot : slot ≠ slot') (x y : Sample F) :
    (h.deposit id slot x).deposit id' slot' y = (h.deposit id' slot' y).deposit id slot x := by
  have hmin : ∀ (k : Bool) (m a b : ℤ),
      min (if k then min m a else a) b = min (if k then min m b else b) a := by
    intro k m a b
    cases k
    · exact min_comm a b
    · exact min_right_comm m a b
  unfold deposit
  simp only [update_of_ne hid.symm, update_of_ne hid,
    update_of_ne hslot.symm, update_of_ne hslot, if_true, hmin h.bufferedKnown,
    update_comm hid.symm, update_comm hslot.symm, max_right_comm h.newest]

theorem alloc_deposit (h : Head ID S F) (id : ID) (slot : ℕ) (x : Sample F) :
    (h.deposit id slot x).alloc = (h.alloc.1, h.alloc.2.deposit id slot x) := by
  unfold alloc
  cases hfree : h.free with
  | nil | cons f free => simp [deposit, hfree]

theorem fillRefs_deposit (n : ℕ) (h : Head ID S F) (id : ID) (slot : ℕ) (x : Sample F) :
    fillRefs n (h.deposit id slot x) = (fillRefs n h).deposit id slot x := by
  induction n generalizing h with
  | zero => rfl
  | succ n ih =>
    unfold fillRefs
    rw [alloc_deposit]
    exact ih { h.alloc.2 with stateRefs := h.alloc.2.stateRefs ++ [h.alloc.1] }

theorem register_deposit (h : Head ID S F) (id id' : ID) (slot : ℕ) (s : S) (x : Sample F) :
    (h.deposit id slot x).register id' s = (h.register id' s).deposit id slot x :=
  fillRefs_deposit _ { h with series := h.series ++ [(id', s)] } id slot x

theorem bufForRef_deposit (h : Head ID S F) (hid : id ≠ id') (slot r : ℕ) (x : Sample F) :
    ((h.deposit id slot x).bufForRef id' r).2 = (h.bufForRef id' r).2.deposit id slot x := by
  have hbuf : (h.deposit id slot x).buffers ((h.deposit id slot x).slotAt r) =
      h.buffers (h.slotAt r) := rfl
  unfold bufForRef
  rw [hbuf]
  cases h.buffers (h.slotAt r) with
  | some p => rfl
  | none =>
    unfold deposit
    simp only [update_of_ne hid, update_comm hid.symm]
    rfl

theorem opened_deposit (h : Head ID S F) (hid : id ≠ id') (slot : ℕ) (s : S) (x : Sample F) :
    (h.deposit id slot x).opened id' s = (h.opened id' s).deposit id slot x := by
  have href : (h.deposit id slot x).ref id' = h.ref id' := rfl
  unfold opened
  rw [href]
  cases hk : h.ref id' with
  | none =>
    simp only [if_true, register_deposit]
    exact bufForRef_deposit _ hid slot _ x
  | some k =>
    simp only [reduceCtorEq, if_false]
    exact bufForRef_deposit _ hid slot _ x

section

variable (hw : h.WellFormed)

include hw

theorem WellFormed.deposit (hheld : h.Held id) (x : Sample F) :
    (h.deposit id (h.slotOf id) x).WellFormed := { hw with
  unused k hk := by
    obtain ⟨r, href, -⟩ := hheld
    have hmem : h.slotOf id ∈ h.stateRefs := slotOf_eq href ▸ hw.slotAt_mem href
    have hne : k ≠ h.slotOf id := fun heq => hk (heq.symm ▸ hmem)
    exact ⟨(hw.unused k hk).1, (update_of_ne hne _ _).trans (hw.unused k hk).2⟩ }

theorem WellFormed.seriesState_deposit (hheld : h.Held id) (hne : id' ≠ id) (x : Sample F) :
    (h.deposit id (h.slotOf id) x).seriesState id' = h.seriesState id' := by
  obtain ⟨r, href, -⟩ := hheld
  unfold seriesState
  have href' : (h.deposit id (h.slotOf id) x).ref id' = h.ref id' := rfl
  rw [href']
  cases hk : h.ref id' with
  | none => rfl
  | some k =>
    have hslot : h.slotAt k ≠ h.slotOf id := slotOf_eq href ▸ hw.slotAt_ne hk href hne
    have hmark : (h.deposit id (h.slotOf id) x).marks (h.slotAt k) = h.marks (h.slotAt k) :=
      update_of_ne hslot _ _
    dsimp only
    rw [show (h.deposit id (h.slotOf id) x).slotAt k = h.slotAt k from rfl, hmark]
    rfl

/-- **What a sample does to the invariant and to what the head knows.** -/
theorem WellFormed.put (id : ID) (s : S) (x : Sample F) :
    (h.put id s x).WellFormed ∧ (h.put id s x).Held id ∧
      ∀ id', id' ≠ id → (h.put id s x).seriesState id' = h.seriesState id' := by
  obtain ⟨hwo, hheld, hother⟩ := hw.opened id s
  exact ⟨hwo.deposit hheld x, hheld, fun id' hne =>
    (hwo.seriesState_deposit hheld hne x).trans (hother id' hne)⟩

theorem WellFormed.held_put (hheld : h.Held id) (id' : ID) (s : S) (x : Sample F) :
    (h.put id' s x).Held id := by
  obtain ⟨hwp, hself, hother⟩ := hw.put id' s x
  by_cases hid : id = id'
  · rw [hid]
    exact hself
  · rw [hwp.held_iff, hother id hid]
    exact hw.held_iff.mp hheld

/-- **Samples of different series commute**, once the first one's series has a buffer. -/
theorem WellFormed.put_comm (hheld : h.Held id) (hid : id ≠ id') (s s' : S) (x y : Sample F) :
    (h.put id' s' y).put id s x = (h.put id s x).put id' s' y := by
  obtain ⟨hwo, hheld', hother⟩ := hw.opened id' s'
  have hstay : (h.opened id' s').Held id := by
    rw [hwo.held_iff, hother id hid]
    exact hw.held_iff.mp hheld
  have hslot : (h.opened id' s').slotOf id = h.slotOf id := by
    obtain ⟨r, href, -⟩ := hheld
    exact hw.slotOf_opened href id' s'
  have hslots : h.slotOf id ≠ (h.opened id' s').slotOf id' := by
    obtain ⟨r, href, -⟩ := hstay
    obtain ⟨r', href', -⟩ := hheld'
    rw [← hslot, slotOf_eq href, slotOf_eq href']
    exact hwo.slotAt_ne href href' hid
  have hleft : (h.put id' s' y).put id s x = (h.put id' s' y).deposit id (h.slotOf id) x := by
    rw [Head.put, (hw.held_put hheld id' s' y).opened]
    exact congrArg (fun k => (h.put id' s' y).deposit id k x) hslot
  have hright : (h.put id s x).put id' s' y =
      ((h.opened id' s').deposit id (h.slotOf id) x).deposit id'
        ((h.opened id' s').slotOf id') y := by
    have hopen := opened_deposit h hid (h.slotOf id) s' x
    rw [Head.put, Head.put, hheld.opened, hopen]
    rfl
  rw [hleft, hright, Head.put]
  exact deposit_comm _ hid.symm hslots.symm y x

theorem inFlightBytes_put (id : ID) (s : S) (x : Sample F) :
    (h.put id s x).inFlightBytes = h.inFlightBytes + sampleBytes := by
  obtain ⟨hbytes, hdetached, -⟩ := hw.opened_fields id s
  show (h.opened id s).bytes + sampleBytes + (h.opened id s).detachedBytes = _
  rw [hbytes, hdetached, inFlightBytes]
  omega

theorem length_series_put (id : ID) (s : S) (x : Sample F) :
    (h.put id s x).series.length = h.series.length + if (h.seriesState id).known then 0 else 1 :=
  (hw.opened_fields id s).2.2.1

theorem newest_put (id : ID) (s : S) (x : Sample F) :
    ((h.put id s x).seriesState id).newest = some (raise (h.seriesState id).newest x.ts) := by
  obtain ⟨-, hheld, -⟩ := hw.put id s x
  obtain ⟨-, -, -, hmark⟩ := hw.opened_fields id s
  rw [hheld.seriesState]
  show update _ _ _ _ = _
  rw [hmark]
  exact update_self _ _ _

/-- What admission decides, from what the head knows of the series, the bytes in flight and the
number of series: the outcome, and the series an admitted sample lands under. -/
def verdict (window : ℤ) (limits : AppendLimits S) (state : HeadSeriesState ID)
    (bytes cardinality : ℤ) (s : S) (ts : ℤ) : AdmitOutcome × Option S :=
  if limits.enforceMinTimestamp = true ∧ ts < limits.minTimestamp then (.rejectRetention, none)
  else if late window ts state.newest then (.rejectOOO, none)
  else if 0 < limits.maxInFlightBytes ∧ limits.maxInFlightBytes ≤ bytes then (.rejectBytes, none)
  else if state.known then (.admitted, some s)
  else if 0 < limits.maxSeries ∧ limits.maxSeries ≤ cardinality then (.rejectCardinality, none)
  else
    match limits.overflow with
    | some overflow =>
      if 0 < limits.maxSeriesSoft ∧ limits.maxSeriesSoft ≤ cardinality then
        (.admittedOverflow, some (overflow s))
      else (.admitted, some s)
    | none => (.admitted, some s)

/-- The head after a verdict. -/
def settle (hash : S → ID) (h : Head ID S F) (x : Sample F) : Option S → Head ID S F
  | some s => h.put (hash s) s x
  | none => h

theorem put_of_buffer (hbuf : (h.seriesState id).buffer = some id') (s : S) (x : Sample F) :
    ((h.appendTo id' x).grow sampleBytes).noteTSRef (h.seriesState id).ref x.ts = h.put id s x := by
  have hheld : h.Held id := hw.held_iff.mpr (hbuf ▸ nofun)
  have hself : some id = some id' := by
    rw [← hbuf, hheld.seriesState]
  rw [append_eq_deposit, put, hheld.opened, hheld.seriesState, ← Option.some.inj hself]
  rfl

theorem put_of_ref (href : h.ref id = some r) (s : S) (x : Sample F) :
    (((h.bufForRef id r).2.appendTo (h.bufForRef id r).1 x).grow sampleBytes).noteTSRef r x.ts =
      h.put id s x := by
  obtain ⟨-, hfst, -⟩ := hw.bufForRef href
  have hopen : h.opened id s = (h.bufForRef id r).2 := by
    simp only [opened, href, reduceCtorEq, if_false, Option.getD_some]
  rw [append_eq_deposit, put, hfst, hopen, slotOf_bufForRef, slotOf_eq href]
  congr 1
  unfold bufForRef
  cases h.buffers (h.slotAt r) <;> rfl

theorem put_of_register (href : h.ref id = none) (s : S) (x : Sample F) :
    ((((h.register id s).bufForRef id (((h.register id s).ref id).getD 0)).2.appendTo
      ((h.register id s).bufForRef id (((h.register id s).ref id).getD 0)).1 x).grow
      sampleBytes).noteTSRef (((h.register id s).ref id).getD 0) x.ts = h.put id s x := by
  obtain ⟨hwr, hself, -⟩ := hw.register href s
  have hopen : (h.register id s).opened id s = h.opened id s := by
    simp only [opened, href, hself, reduceCtorEq, if_false, if_true, Option.getD_some]
  rw [hself, Option.getD_some, put_of_ref hwr hself s x, put, put, hopen]

end

theorem appendOverflow_eq (hash : S → ID) (hw : h.WellFormed) (ov : S) (x : Sample F) :
    (h.appendOverflow hash ov x).1.outcome = .admittedOverflow ∧
      (h.appendOverflow hash ov x).2 = h.put (hash ov) ov x := by
  unfold appendOverflow
  dsimp only
  cases hbuf : (h.seriesState (hash ov)).buffer with
  | some p => exact ⟨rfl, put_of_buffer hw hbuf ov x⟩
  | none =>
    cases hknown : (h.seriesState (hash ov)).known with
    | true => exact ⟨rfl, put_of_ref hw (ref_of_known hknown) ov x⟩
    | false => exact ⟨rfl, put_of_register hw (known_eq_false.mp hknown) ov x⟩

/-- **One append is a verdict and at most one sample put.** -/
theorem appendByID_eq (hash : S → ID) (window : ℤ) (limits : AppendLimits S) (hw : h.WellFormed)
    (s : S) (x : Sample F) :
    let v := verdict window limits (h.seriesState (hash s)) h.inFlightBytes h.series.length s x.ts
    (h.appendByID hash window limits s x).1.outcome = v.1 ∧
      (h.appendByID hash window limits s x).2 = h.settle hash x v.2 := by
  unfold appendByID verdict
  dsimp only
  by_cases hmin : limits.enforceMinTimestamp = true ∧ x.ts < limits.minTimestamp
  · rw [if_pos hmin, if_pos hmin]
    exact ⟨rfl, rfl⟩
  rw [if_neg hmin, if_neg hmin]
  by_cases hlate : late window x.ts (h.seriesState (hash s)).newest = true
  · rw [if_pos hlate, if_pos hlate]
    exact ⟨rfl, rfl⟩
  rw [if_neg hlate, if_neg hlate]
  by_cases hbytes : 0 < limits.maxInFlightBytes ∧ limits.maxInFlightBytes ≤ h.inFlightBytes
  · rw [if_pos hbytes, if_pos hbytes]
    exact ⟨rfl, rfl⟩
  rw [if_neg hbytes, if_neg hbytes]
  cases hknown : (h.seriesState (hash s)).known with
  | true =>
    cases hbuf : (h.seriesState (hash s)).buffer with
    | some p => exact ⟨rfl, put_of_buffer hw hbuf s x⟩
    | none => exact ⟨rfl, put_of_ref hw (ref_of_known hknown) s x⟩
  | false =>
    have hnew := known_eq_false.mp hknown
    have hbuf : (h.seriesState (hash s)).buffer = none := by rw [seriesState, hnew]
    simp only [hbuf, admitNew, Bool.false_eq_true, if_false]
    by_cases hcap : 0 < limits.maxSeries ∧ limits.maxSeries ≤ (h.series.length : ℤ)
    · rw [if_pos hcap, if_pos hcap]
      exact ⟨rfl, rfl⟩
    rw [if_neg hcap, if_neg hcap]
    cases limits.overflow with
    | none => exact ⟨rfl, put_of_register hw hnew s x⟩
    | some overflow =>
      by_cases hsoft : 0 < limits.maxSeriesSoft ∧ limits.maxSeriesSoft ≤ (h.series.length : ℤ)
      · simp only [if_pos hsoft]
        exact appendOverflow_eq hash hw (overflow s) x
      · simp only [if_neg hsoft, true_and]
        exact put_of_register hw hnew s x

end Put

end Head
end OtelStorage.Metrics
