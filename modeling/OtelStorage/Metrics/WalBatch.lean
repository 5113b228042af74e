import Mathlib.Data.List.Induction
import OtelStorage.Metrics.Head

/-!
# Staging a durable write

An engine with a log decides a whole write before it logs it and applies it only once the log took
it.  The decisions are made against a head that is not touched, so the staged batch predicts what
the samples before would have done to it: the newest timestamp of each series, the bytes in flight,
the number of series, and which series have a buffer by then.

`staged_write` says the predictions are exact: staging and applying is appending the samples one by
one.  The argument has two halves.  A sample that is admitted always does the same thing to the
head, `Head.put`; and samples of different series commute once a series has its buffer, so the batch
may group them by series.
-/

namespace OtelStorage.Metrics

open List Function

/-- What the batch holds for one series: what the head knew of it when its first sample was staged,
and the samples. -/
structure WalSeriesAcc (ID S F : Type*) where
  id : ID
  isNew : Bool
  register : Bool
  knownRef : Bool
  series : Option S
  newest : ℤ
  buffer : Option ID
  prior : Option ℤ
  identityRef : ℕ
  samples : List (Sample F)

/-- The series in first-admitted order, the number of samples, and of identities to register. -/
structure WalBatch (ID S F : Type*) where
  accs : List (WalSeriesAcc ID S F)
  samples : ℕ
  registered : ℕ

namespace WalSeriesAcc

variable {ID S F : Type*} (a : WalSeriesAcc ID S F)

/-- A series as the head knows it, with nothing staged. -/
def ofState (id : ID) (state : HeadSeriesState ID) : WalSeriesAcc ID S F where
  id := id
  isNew := false
  register := false
  knownRef := state.known
  series := none
  newest := 0
  buffer := state.buffer
  prior := state.newest
  identityRef := state.ref
  samples := []

/-- Stage a sample. -/
def add (x : Sample F) : WalSeriesAcc ID S F :=
  { a with
    newest := if a.samples = [] then x.ts else max a.newest x.ts
    samples := a.samples ++ [x] }

/-- The series' newest timestamp once the staged samples are applied. -/
def admissionNewest : ℤ :=
  match a.prior with
  | some prior => max a.newest prior
  | none => a.newest

end WalSeriesAcc

namespace WalBatch

variable {ID S F : Type*} [DecidableEq ID] (b : WalBatch ID S F) (acc : WalSeriesAcc ID S F)

/-- Nothing staged. -/
def empty : WalBatch ID S F := ⟨[], 0, 0⟩

/-- Where a series stands in the batch. -/
def pos (id : ID) : Option ℕ := b.accs.findIdx? fun a => a.id = id

/-- A series enters the batch. -/
def start : ℕ × WalBatch ID S F :=
  (b.accs.length, { b with
    accs := b.accs ++ [acc]
    registered := if acc.register then b.registered + 1 else b.registered })

/-- Stage a sample of the `k`-th series. -/
def add (k : ℕ) (x : Sample F) : WalBatch ID S F :=
  { b with accs := b.accs.modify k fun a => a.add x, samples := b.samples + 1 }

/-- A sample of a series the batch does not hold yet. -/
def startAdd (x : Sample F) : WalBatch ID S F :=
  let (k, b) := b.start acc
  b.add k x

/-- One sample is decided as if every sample staged so far had been applied, and staged when it is
admitted.  The head is only read. -/
def admitSample (hash : S → ID) (window : ℤ) (limits : AppendLimits S) (h : Head ID S F)
    (b : WalBatch ID S F) (s : S) (x : Sample F) : AdmitOutcome × WalBatch ID S F :=
  let id := hash s
  if limits.enforceMinTimestamp = true ∧ x.ts < limits.minTimestamp then (.rejectRetention, b)
  else
    let staged := b.pos id
    let newest :=
      match staged with
      | some k => (b.accs[k]?).map WalSeriesAcc.admissionNewest
      | none => (h.seriesState id).newest
    if late window x.ts newest then (.rejectOOO, b)
    else if 0 < limits.maxInFlightBytes ∧
        limits.maxInFlightBytes ≤ h.inFlightBytes + b.samples * sampleBytes then
      (.rejectBytes, b)
    else
      match staged with
      | some k => (.admitted, b.add k x)
      | none =>
        let acc := WalSeriesAcc.ofState id (h.seriesState id)
        match acc.buffer with
        | some _ => (.admitted, b.startAdd acc x)
        | none =>
          let acc := { acc with isNew := true }
          if acc.knownRef then (.admitted, b.startAdd acc x)
          else
            let cardinality : ℤ := h.series.length + b.registered
            if 0 < limits.maxSeries ∧ limits.maxSeries ≤ cardinality then (.rejectCardinality, b)
            else
              let admitted :=
                (AdmitOutcome.admitted,
                  b.startAdd { acc with register := true, series := some s } x)
              match limits.overflow with
              | none => admitted
              | some overflow =>
                if 0 < limits.maxSeriesSoft ∧ limits.maxSeriesSoft ≤ cardinality then
                  let ov := overflow s
                  match b.pos (hash ov) with
                  | some k => (.admittedOverflow, b.add k x)
                  | none =>
                    let a := WalSeriesAcc.ofState (hash ov) (h.seriesState (hash ov))
                    let a :=
                      if a.buffer = none then
                        { a with isNew := true, register := !a.knownRef, series := some ov }
                      else a
                    (.admittedOverflow, b.startAdd a x)
                else admitted

/-- The series of an entry is registered if need be and gets a buffer; the answer is the buffer, the
place of the series and the head. -/
def openAcc (h : Head ID S F) (a : WalSeriesAcc ID S F) : ID × ℕ × Head ID S F :=
  let h :=
    match a.register, a.series with
    | true, some s => if h.ref a.id = none then h.register a.id s else h
    | _, _ => h
  let ref := if a.knownRef then a.identityRef else (h.ref a.id).getD 0
  match a.buffer with
  | some buf => (buf, ref, h)
  | none =>
    let (buf, h) := h.bufForRef a.id ref
    (buf, ref, h)

/-- The samples of one series enter the head; its newest timestamp is set once, at the end. -/
def applyAcc [DecidableEq F] [One F] (h : Head ID S F) (a : WalSeriesAcc ID S F) : Head ID S F :=
  let (buf, ref, h) := openAcc h a
  let h := a.samples.foldl (fun h x => (h.appendTo buf x).noteBufferedTS x.ts) h
  let h := h.grow (a.samples.length * sampleBytes)
  let h :=
    match a.prior with
    | none => h.setMark (h.slotAt ref) a.newest
    | some prior => if prior < a.newest then h.setMark (h.slotAt ref) a.newest else h
  { h with newest := max h.newest a.newest }

/-- All samples enter the head. -/
def apply [DecidableEq F] [One F] (b : WalBatch ID S F) (h : Head ID S F) : Head ID S F :=
  b.accs.foldl applyAcc h

end WalBatch

/-! ## The two ways to write -/

section Write

variable {ID S F : Type*} [DecidableEq ID]

/-- The samples are decided one after another into a batch. -/
def stageAll (hash : S → ID) (window : ℤ) (limits : AppendLimits S) (h : Head ID S F) :
    WalBatch ID S F → List (S × Sample F) → List AdmitOutcome × WalBatch ID S F
  | b, [] => ([], b)
  | b, (s, x) :: xs =>
    let (out, b) := b.admitSample hash window limits h s x
    let (outs, b) := stageAll hash window limits h b xs
    (out :: outs, b)

variable [DecidableEq F] [One F]

/-- The samples are appended one after another. -/
def appendAll (hash : S → ID) (window : ℤ) (limits : AppendLimits S) :
    Head ID S F → List (S × Sample F) → List AdmitOutcome × Head ID S F
  | h, [] => ([], h)
  | h, (s, x) :: xs =>
    let (answer, h) := h.appendByID hash window limits s x
    let (outs, h) := appendAll hash window limits h xs
    (answer.outcome :: outs, h)

/-- A write.  Without a log the samples are appended; with one they are staged, logged, and applied
only if the log took them. -/
def appendBatch (hash : S → ID) (window : ℤ) (limits : AppendLimits S) (log : Option Bool)
    (h : Head ID S F) (xs : List (S × Sample F)) : Option (List AdmitOutcome) × Head ID S F :=
  match log with
  | none =>
    let (outs, h) := appendAll hash window limits h xs
    (some outs, h)
  | some logged =>
    let (outs, b) := stageAll hash window limits h .empty xs
    if logged then (some outs, b.apply h) else (none, h)

end Write

/-! ## The samples of one series -/

section Apply

variable {ID S F : Type*} [DecidableEq ID] {a : WalSeriesAcc ID S F} {xs : List (Sample F)}
  {h : Head ID S F} {id : ID} {b : WalBatch ID S F} {s : S}

/-- The newest of some samples. -/
def newestOf (xs : List (Sample F)) : ℤ :=
  match xs with
  | [] => 0
  | x :: xs => xs.foldl (fun m y => max m y.ts) x.ts

theorem newestOf_append (hxs : xs ≠ []) (x : Sample F) :
    newestOf (xs ++ [x]) = max (newestOf xs) x.ts := by
  cases xs with
  | nil => exact absurd rfl hxs
  | cons y xs => simp [newestOf, foldl_append]

/-- The batch's entry is about the head it will be applied to: it holds what the head knows of the
series, and at least one sample. -/
structure Fits (h : Head ID S F) (a : WalSeriesAcc ID S F) : Prop where
  state : h.seriesState a.id = ⟨a.buffer, a.prior, a.identityRef, a.knownRef⟩
  register : a.register = !a.knownRef
  series : a.register = true → a.series ≠ none
  samples : a.samples ≠ []
  newest : a.newest = newestOf a.samples

theorem Fits.of_state {g : Head ID S F} (hfits : Fits h a)
    (hstate : g.seriesState a.id = h.seriesState a.id) : Fits g a :=
  { hfits with state := hstate.trans hfits.state }

theorem Fits.exists_series (hfits : Fits h a) (s₀ : S) :
    ∃ s, a.register = true → a.series = some s := by
  by_cases hr : a.register = true
  · obtain ⟨s, hs⟩ := Option.ne_none_iff_exists'.mp (hfits.series hr)
    exact ⟨s, fun _ => hs⟩
  · exact ⟨s₀, fun h => absurd h hr⟩

/-- The batch was staged against `h`. -/
structure Staged (h : Head ID S F) (b : WalBatch ID S F) : Prop where
  fits : ∀ a ∈ b.accs, Fits h a
  ids : (b.accs.map WalSeriesAcc.id).Nodup
  samples : b.samples = (b.accs.map fun a => a.samples.length).sum
  registered : b.registered = (b.accs.filter WalSeriesAcc.register).length

theorem staged_empty (h : Head ID S F) : Staged h .empty :=
  ⟨nofun, nodup_nil, rfl, rfl⟩

theorem pos_eq_none : b.pos id = none ↔ id ∉ b.accs.map WalSeriesAcc.id := by
  simp only [WalBatch.pos, List.findIdx?_eq_none_iff, decide_eq_false_iff_not, mem_map,
    not_exists, not_and]

theorem exists_of_pos {k : ℕ} (hpos : b.pos id = some k) :
    ∃ l a r, b.accs = l ++ a :: r ∧ l.length = k ∧ a.id = id := by
  obtain ⟨hlt, hid, -⟩ := List.findIdx?_eq_some_iff_getElem.mp hpos
  refine ⟨b.accs.take k, b.accs[k], b.accs.drop (k + 1), ?_, ?_, of_decide_eq_true hid⟩
  · rw [getElem_cons_drop, take_append_drop]
  · exact length_take_of_le hlt.le

/-- What a batch that fits does to the head. -/
structure Applied (h g : Head ID S F) (accs : List (WalSeriesAcc ID S F)) : Prop where
  wellFormed : g.WellFormed
  other : ∀ id, id ∉ accs.map WalSeriesAcc.id → g.seriesState id = h.seriesState id
  held : ∀ a ∈ accs, g.Held a.id ∧ (g.seriesState a.id).newest = some a.admissionNewest
  bytes : g.inFlightBytes = h.inFlightBytes + (accs.map fun a => a.samples.length).sum * sampleBytes
  length : g.series.length = h.series.length + (accs.filter WalSeriesAcc.register).length

/-- The newest timestamp a batch predicts for a series is the one the head will have. -/
theorem Applied.newest {g : Head ID S F} (hg : Applied h g b.accs) (id : ID) :
    (match b.pos id with
      | some k => (b.accs[k]?).map WalSeriesAcc.admissionNewest
      | none => (h.seriesState id).newest) = (g.seriesState id).newest := by
  cases hpos : b.pos id with
  | none => rw [hg.other _ (pos_eq_none.mp hpos)]
  | some k =>
    obtain ⟨l, a, r, haccs, rfl, hid⟩ := exists_of_pos hpos
    have hmem : a ∈ b.accs := haccs ▸ mem_append_right _ mem_cons_self
    rw [← hid, (hg.held a hmem).2, haccs]
    simp

theorem Fits.add (hfits : Fits h a) (x : Sample F) : Fits h (a.add x) := { hfits with
  samples := by simp [WalSeriesAcc.add]
  newest := by
    show (if a.samples = [] then x.ts else max a.newest x.ts) = newestOf (a.samples ++ [x])
    rw [if_neg hfits.samples, newestOf_append hfits.samples, hfits.newest] }

theorem modify_length_append {α : Type*} (f : α → α) (l : List α) (a : α) (r : List α) :
    (l ++ a :: r).modify l.length f = l ++ f a :: r := by
  induction l with
  | nil => rfl
  | cons b l ih => exact congrArg (b :: ·) ih

theorem openAcc_eq (hw : h.WellFormed)
    (hfits : Fits h a) (hs : a.register = true → a.series = some s) :
    ∃ r, WalBatch.openAcc h a = (a.id, r, h.opened a.id s) ∧
      (h.opened a.id s).slotAt r = (h.opened a.id s).slotOf a.id := by
  have hknown : (h.seriesState a.id).known = a.knownRef := by rw [hfits.state]
  have hbuf : (h.seriesState a.id).buffer = a.buffer := by rw [hfits.state]
  have href : (h.seriesState a.id).ref = a.identityRef := by rw [hfits.state]
  have hregister := hfits.register
  unfold WalBatch.openAcc
  cases hkn : a.knownRef with
  | true =>
    rw [hkn] at hknown hregister
    have hr := Head.ref_of_known hknown
    rw [href] at hr
    refine ⟨a.identityRef, ?_, ?_⟩
    · simp only [hregister, Bool.not_true, if_true]
      cases hb : a.buffer with
      | some p =>
        have hheld : h.Held a.id := hw.held_iff.mpr (by rw [hbuf, hb]; exact Option.some_ne_none p)
        have hp : some a.id = some p := by rw [← hb, ← hbuf, hheld.seriesState]
        rw [hheld.opened, Option.some.inj hp]
      | none =>
        obtain ⟨-, hfst, -⟩ := hw.bufForRef hr
        simp only [Head.opened, hr, reduceCtorEq, if_false, Option.getD_some, hfst]
    · have hslot := hw.slotOf_opened hr a.id s
      rw [hslot, Head.slotOf_eq hr]
      simp only [Head.opened, hr, reduceCtorEq, if_false, Option.getD_some, Head.bufForRef]
      cases h.buffers (h.slotAt a.identityRef) <;> rfl
  | false =>
    rw [hkn] at hknown hregister
    have hr := Head.known_eq_false.mp hknown
    have hb : a.buffer = none := by rw [← hbuf, Head.seriesState, hr]
    obtain ⟨hwr, hself, -⟩ := hw.register hr s
    obtain ⟨-, hfst, -⟩ := hwr.bufForRef hself
    have hser := hs hregister
    refine ⟨h.series.length, ?_, ?_⟩
    · simp only [hregister, hser, hr, hb, Bool.not_false, if_true, Bool.false_eq_true, if_false,
        hself, Option.getD_some, Head.opened, hfst]
    · simp only [Head.opened, hr, if_true, hself, Option.getD_some]
      rw [Head.slotOf_bufForRef, Head.slotOf_eq hself, Head.bufForRef]
      cases (h.register a.id s).buffers ((h.register a.id s).slotAt h.series.length) <;> rfl

variable [DecidableEq F] [One F]

/-- The samples enter the buffer; what they add to the counts and marks is left to the end. -/
def bufferAll (id : ID) (h : Head ID S F) (xs : List (Sample F)) : Head ID S F :=
  xs.foldl (fun h x => (h.appendTo id x).noteBufferedTS x.ts) h

/-- The counts and marks, set once for all samples. -/
def finish (slot n : ℕ) (newest : ℤ) (prior : Option ℤ) (h : Head ID S F) : Head ID S F :=
  { h with
    bytes := h.bytes + n * sampleBytes
    marks := update h.marks slot (some (Head.raise prior newest))
    newest := max h.newest newest }

theorem bufferAll_fields (id : ID) (h : Head ID S F) (xs : List (Sample F)) :
    (bufferAll id h xs).marks = h.marks ∧ (bufferAll id h xs).stateRefs = h.stateRefs := by
  induction xs generalizing h with
  | nil => exact ⟨rfl, rfl⟩
  | cons x xs ih =>
    have hstep : bufferAll id h (x :: xs) =
        bufferAll id ((h.appendTo id x).noteBufferedTS x.ts) xs := rfl
    rw [hstep, (ih _).1, (ih _).2, Head.noteBufferedTS_eq]
    exact ⟨rfl, rfl⟩

/-- Marking each sample as it comes and marking once at the end come to the same. -/
theorem foldl_deposit (h : Head ID S F) (id : ID) (slot : ℕ) (hxs : xs ≠ []) :
    xs.foldl (fun h x => h.deposit id slot x) h =
      finish slot xs.length (newestOf xs) (h.marks slot) (bufferAll id h xs) := by
  induction xs using List.reverseRecOn with
  | nil => exact absurd rfl hxs
  | append_singleton xs x ih =>
    have hbuffer : bufferAll id h (xs ++ [x]) =
        ((bufferAll id h xs).appendTo id x).noteBufferedTS x.ts := foldl_append
    rw [foldl_append, hbuffer, foldl_cons, foldl_nil]
    by_cases hnil : xs = []
    · subst hnil
      have hbytes : h.bytes + sampleBytes = h.bytes + ((1 : ℕ) : ℤ) * sampleBytes := by
        rw [Nat.cast_one, one_mul]
      rw [Head.noteBufferedTS_eq]
      simp only [finish, bufferAll, Head.deposit, Head.appendTo, foldl_nil, hbytes]
      rfl
    rw [ih hnil, newestOf_append hnil, Head.noteBufferedTS_eq, length_append, length_singleton]
    have hraise : Head.raise (some (Head.raise (h.marks slot) (newestOf xs))) x.ts =
        Head.raise (h.marks slot) (max (newestOf xs) x.ts) := by
      cases h.marks slot with
      | none => rfl
      | some p => exact max_assoc p (newestOf xs) x.ts
    have hbytes : (bufferAll id h xs).bytes + xs.length * sampleBytes + sampleBytes =
        (bufferAll id h xs).bytes + ((xs.length + 1 : ℕ) : ℤ) * sampleBytes := by
      rw [sampleBytes]
      push_cast
      omega
    simp only [finish, Head.deposit, Head.appendTo, update_self, update_idem,
      hraise, max_assoc, hbytes]
    rfl

theorem foldl_put_held (hheld : h.Held id) (s : S) (xs : List (Sample F)) :
    xs.foldl (fun g x => g.put id s x) h =
      xs.foldl (fun g x => g.deposit id (h.slotOf id) x) h := by
  induction xs generalizing h with
  | nil => rfl
  | cons x xs ih =>
    rw [foldl_cons, foldl_cons, hheld.put_eq]
    exact ih (h := h.deposit id (h.slotOf id) x) hheld

section

variable (hw : h.WellFormed) {accs : List (WalSeriesAcc ID S F)}

include hw

theorem foldl_put (id : ID) (s : S) (hxs : xs ≠ []) :
    xs.foldl (fun g x => g.put id s x) h =
      finish ((h.opened id s).slotOf id) xs.length (newestOf xs) (h.seriesState id).newest
        (bufferAll id (h.opened id s) xs) := by
  obtain ⟨-, hheld, -⟩ := hw.opened id s
  obtain ⟨-, -, -, hmark⟩ := hw.opened_fields id s
  have hopen : xs.foldl (fun g x => g.put id s x) h =
      xs.foldl (fun g x => g.put id s x) (h.opened id s) := by
    cases xs with
    | nil => exact absurd rfl hxs
    | cons x xs =>
      rw [foldl_cons, foldl_cons, Head.put, Head.put, hheld.opened]
  rw [hopen, foldl_put_held hheld, foldl_deposit _ id _ hxs, hmark]

/-! ## Applying what was staged -/

theorem applyAcc_eq (hfits : Fits h a) (hs : a.register = true → a.series = some s) :
    WalBatch.applyAcc h a = a.samples.foldl (fun g x => g.put a.id s x) h := by
  have hprior : (h.seriesState a.id).newest = a.prior := by rw [hfits.state]
  obtain ⟨-, -, -, hmark⟩ := hw.opened_fields a.id s
  obtain ⟨r, hopen, hslot⟩ := openAcc_eq hw hfits hs
  obtain ⟨hmarks, hrefs⟩ := bufferAll_fields a.id (h.opened a.id s) a.samples
  rw [foldl_put hw a.id s hfits.samples, hprior, ← hfits.newest]
  unfold WalBatch.applyAcc
  rw [hopen]
  -- The mark is compared with what was there before, which is what the entry holds.
  have hraise := Head.setMark_raise
    ((bufferAll a.id (h.opened a.id s) a.samples).grow (a.samples.length * sampleBytes))
    ((h.opened a.id s).slotOf a.id) a.newest
  have hthere : ((bufferAll a.id (h.opened a.id s) a.samples).grow
      (a.samples.length * sampleBytes)).marks ((h.opened a.id s).slotOf a.id) = a.prior := by
    rw [← hprior, ← hmark]
    exact congrFun hmarks _
  have hat : ((bufferAll a.id (h.opened a.id s) a.samples).grow
      (a.samples.length * sampleBytes)).slotAt r = (h.opened a.id s).slotOf a.id := by
    rw [← hslot]
    exact congrArg (fun l : List ℕ => l.getD r 0) hrefs
  rw [hthere] at hraise
  have hfinal := congrArg (fun g : Head ID S F => { g with newest := max g.newest a.newest }) hraise
  rw [← hat] at hfinal ⊢
  cases hp : a.prior with
  | none | some prior =>
    rw [hp] at hfinal
    exact hfinal

/-- What some samples of one series do to the head. -/
structure Puts (h g : Head ID S F) (id : ID) (xs : List (Sample F)) : Prop where
  wellFormed : g.WellFormed
  other : ∀ id', id' ≠ id → g.seriesState id' = h.seriesState id'
  bytes : g.inFlightBytes = h.inFlightBytes + xs.length * sampleBytes
  held : xs ≠ [] → g.Held id
  newest : xs ≠ [] →
    (g.seriesState id).newest = some (Head.raise (h.seriesState id).newest (newestOf xs))
  length : xs ≠ [] → g.series.length = h.series.length + if (h.seriesState id).known then 0 else 1

theorem puts_foldl (id : ID) (s : S) (xs : List (Sample F)) :
    Puts h (xs.foldl (fun g x => g.put id s x) h) id xs := by
  induction xs using List.reverseRecOn with
  | nil =>
    exact ⟨hw, fun _ _ => rfl, by simp, fun hne => absurd rfl hne, fun hne => absurd rfl hne,
      fun hne => absurd rfl hne⟩
  | append_singleton xs x ih =>
    rw [foldl_append, foldl_cons, foldl_nil]
    obtain ⟨hwp, hheld, hother⟩ := ih.wellFormed.put id s x
    have hnewest := Head.newest_put ih.wellFormed id s x
    have hlength := Head.length_series_put ih.wellFormed id s x
    refine ⟨hwp, fun id' hne => (hother id' hne).trans (ih.other id' hne), ?_, fun _ => hheld,
      fun _ => ?_, fun _ => ?_⟩
    · rw [Head.inFlightBytes_put ih.wellFormed, ih.bytes, length_append, length_singleton,
        sampleBytes]
      push_cast
      omega
    · rw [hnewest]
      by_cases hnil : xs = []
      · subst hnil
        rfl
      · rw [ih.newest hnil, newestOf_append hnil]
        cases (h.seriesState id).newest with
        | none => rfl
        | some p => exact congrArg some (max_assoc p (newestOf xs) x.ts)
    · rw [hlength]
      by_cases hnil : xs = []
      · subst hnil
        rfl
      · rw [ih.length hnil, (ih.held hnil).seriesState]
        rfl

theorem puts_applyAcc (hfits : Fits h a) (s₀ : S) :
    Puts h (WalBatch.applyAcc h a) a.id a.samples := by
  obtain ⟨s, hs⟩ := hfits.exists_series s₀
  rw [applyAcc_eq hw hfits hs]
  exact puts_foldl hw a.id s a.samples

theorem foldl_put_comm {id' : ID} (hheld : h.Held id)
    (hid : id ≠ id') (s s' : S) (x : Sample F) (ys : List (Sample F)) :
    ys.foldl (fun g y => g.put id' s' y) (h.put id s x) =
      (ys.foldl (fun g y => g.put id' s' y) h).put id s x := by
  induction ys generalizing h with
  | nil => rfl
  | cons y ys ih =>
    rw [foldl_cons, foldl_cons, ← hw.put_comm hheld hid s s' x y]
    exact ih (hw.put id' s' y).1 (hw.held_put hheld id' s' y)

/-- **A sample commutes with applying the entries of other series.** -/
theorem foldl_applyAcc_put (hheld : h.Held id) (s : S) (x : Sample F) (hfits : ∀ a ∈ accs, Fits h a)
    (hids : (accs.map WalSeriesAcc.id).Nodup) (hid : id ∉ accs.map WalSeriesAcc.id) :
    accs.foldl WalBatch.applyAcc (h.put id s x) = (accs.foldl WalBatch.applyAcc h).put id s x := by
  induction accs generalizing h with
  | nil => rfl
  | cons a accs ih =>
    obtain ⟨hne, hrest⟩ := not_or.mp (fun hmem => hid (mem_cons.mpr hmem))
    obtain ⟨hnotin, hnodup⟩ := nodup_cons.mp hids
    have hfit := hfits a mem_cons_self
    obtain ⟨s', hs'⟩ := hfit.exists_series s
    obtain ⟨hwp, -, hother⟩ := hw.put id s x
    have hfit' : Fits (h.put id s x) a := hfit.of_state (hother a.id (Ne.symm hne))
    have happly := puts_applyAcc hw hfit s
    have hstay : (WalBatch.applyAcc h a).Held id := by
      rw [happly.wellFormed.held_iff, happly.other id hne]
      exact hw.held_iff.mp hheld
    rw [foldl_cons, foldl_cons, applyAcc_eq hwp hfit' hs',
      foldl_put_comm hw hheld hne s s' x a.samples, ← applyAcc_eq hw hfit hs']
    refine ih happly.wellFormed hstay (fun c hc => ?_) hnodup hrest
    refine (hfits c (mem_cons_of_mem _ hc)).of_state (happly.other c.id ?_)
    rintro heq
    exact hnotin (heq ▸ mem_map_of_mem hc)

theorem applied_foldl (s₀ : S) (hfits : ∀ a ∈ accs, Fits h a)
    (hids : (accs.map WalSeriesAcc.id).Nodup) :
    Applied h (accs.foldl WalBatch.applyAcc h) accs := by
  induction accs generalizing h with
  | nil => exact ⟨hw, fun _ _ => rfl, nofun, by simp, by simp⟩
  | cons a accs ih =>
    obtain ⟨hnotin, hnodup⟩ := nodup_cons.mp hids
    have hfit := hfits a mem_cons_self
    have happly := puts_applyAcc hw hfit s₀
    have hrest := ih happly.wellFormed (fun c hc =>
      (hfits c (mem_cons_of_mem _ hc)).of_state (happly.other c.id fun heq =>
        hnotin (heq ▸ mem_map_of_mem hc))) hnodup
    rw [foldl_cons]
    refine ⟨hrest.wellFormed, fun id hid => ?_, fun c hc => ?_, ?_, ?_⟩
    · obtain ⟨hne, hid⟩ := not_or.mp (fun hmem => hid (mem_cons.mpr hmem))
      exact (hrest.other id hid).trans (happly.other id hne)
    · rcases mem_cons.mp hc with rfl | hc
      · have hstate := hrest.other c.id hnotin
        constructor
        · rw [hrest.wellFormed.held_iff, hstate]
          exact happly.wellFormed.held_iff.mp (happly.held hfit.samples)
        · rw [hstate, happly.newest hfit.samples, hfit.state, ← hfit.newest,
            WalSeriesAcc.admissionNewest]
          cases c.prior with
          | none => rfl
          | some p => exact congrArg some (max_comm p c.newest)
      · exact hrest.held c hc
    · rw [hrest.bytes, happly.bytes, map_cons, sum_cons, sampleBytes]
      push_cast
      omega
    · rw [hrest.length, happly.length hfit.samples, hfit.state, filter_cons, hfit.register]
      cases a.knownRef
      · simp only [Bool.false_eq_true, if_false, Bool.not_false, if_true, length_cons]
        omega
      · rfl

/-! ## The batch -/

/-- Adding a sample to an entry is putting it after everything staged. -/
theorem Staged.add (hb : Staged h b) {k : ℕ} (hpos : b.pos id = some k) (s : S) (x : Sample F) :
    Staged h (b.add k x) ∧ (b.add k x).apply h = (b.apply h).put id s x := by
  obtain ⟨l, a, r, haccs, rfl, rfl⟩ := exists_of_pos hpos
  have hmodify : (b.add l.length x).accs = l ++ a.add x :: r := by
    rw [WalBatch.add, haccs]
    exact modify_length_append _ l a r
  have hfits := hb.fits
  have hids := hb.ids
  rw [haccs] at hfits hids
  have hfit : Fits h a := hfits a (mem_append_right _ mem_cons_self)
  rw [map_append, map_cons] at hids
  obtain ⟨hl, hr, hlr⟩ := nodup_append.mp hids
  obtain ⟨hnotin, hr⟩ := nodup_cons.mp hr
  constructor
  · refine ⟨fun c hc => ?_, ?_, ?_, ?_⟩
    · rw [hmodify] at hc
      rcases mem_append.mp hc with hc | hc
      · exact hfits c (mem_append_left _ hc)
      · rcases mem_cons.mp hc with rfl | hc
        · exact hfit.add x
        · exact hfits c (mem_append_right _ (mem_cons_of_mem _ hc))
    · rw [hmodify, map_append, map_cons]
      exact hids
    · have hsum := hb.samples
      rw [haccs] at hsum
      rw [hmodify]
      simp only [WalBatch.add, hsum, map_append, map_cons, sum_append, sum_cons,
        WalSeriesAcc.add, length_append, length_singleton]
      omega
    · have hcount := hb.registered
      rw [haccs] at hcount
      rw [hmodify]
      show b.registered = _
      rw [hcount]
      have hsame : (a.add x).register = a.register := rfl
      simp only [filter_append, filter_cons, length_append, hsame]
      split_ifs <;> rfl
  · have hl' : Applied h (l.foldl WalBatch.applyAcc h) l :=
      applied_foldl hw s (fun c hc => hfits c (mem_append_left _ hc)) hl
    have hout : ∀ c ∈ a :: r, c.id ∉ l.map WalSeriesAcc.id := fun c hc hmem =>
      hlr c.id hmem c.id (mem_map_of_mem (f := WalSeriesAcc.id) hc) rfl
    have hfit' : Fits (l.foldl WalBatch.applyAcc h) a :=
      hfit.of_state (hl'.other a.id (hout a mem_cons_self))
    have happly := puts_applyAcc hl'.wellFormed hfit' s
    have hother : ∀ c ∈ r, Fits (WalBatch.applyAcc (l.foldl WalBatch.applyAcc h) a) c := by
      intro c hc
      have hne : c.id ≠ a.id := fun heq => hnotin (heq ▸ mem_map_of_mem hc)
      refine (hfits c (mem_append_right _ (mem_cons_of_mem _ hc))).of_state ?_
      exact (happly.other c.id hne).trans (hl'.other c.id (hout c (mem_cons_of_mem _ hc)))
    obtain ⟨s', hs'⟩ := hfit'.exists_series s
    have hstep : WalBatch.applyAcc (l.foldl WalBatch.applyAcc h) (a.add x) =
        (WalBatch.applyAcc (l.foldl WalBatch.applyAcc h) a).put a.id s x := by
      rw [applyAcc_eq hl'.wellFormed (hfit'.add x) hs', applyAcc_eq hl'.wellFormed hfit' hs']
      show (a.samples ++ [x]).foldl (fun (g : Head ID S F) y => g.put a.id s' y) _ = _
      have hheld : (a.samples.foldl (fun g y => g.put a.id s' y)
          (l.foldl WalBatch.applyAcc h)).Held a.id :=
        (puts_foldl hl'.wellFormed a.id s' a.samples).held hfit.samples
      rw [foldl_append, foldl_cons, foldl_nil]
      rw [hheld.put_eq, hheld.put_eq]
    unfold WalBatch.apply
    rw [hmodify, haccs, foldl_append, foldl_append, foldl_cons, foldl_cons, hstep]
    exact foldl_applyAcc_put happly.wellFormed (happly.held hfit.samples) s x hother hr hnotin

theorem Staged.startAdd (hb : Staged h b) (acc : WalSeriesAcc ID S F) (hpos : b.pos acc.id = none)
    (hstate : h.seriesState acc.id = ⟨acc.buffer, acc.prior, acc.identityRef, acc.knownRef⟩)
    (hregister : acc.register = !acc.knownRef)
    (hs : acc.register = true → acc.series = some s) (hsamples : acc.samples = []) (x : Sample F) :
    Staged h (b.startAdd acc x) ∧ (b.startAdd acc x).apply h = (b.apply h).put acc.id s x := by
  have haccs : (b.startAdd acc x).accs = b.accs ++ [acc.add x] := by
    exact modify_length_append _ b.accs acc []
  have hadd : (acc.add x).samples = [x] := by simp [WalSeriesAcc.add, hsamples]
  have hfit : Fits h (acc.add x) := {
    state := hstate
    register := hregister
    series := fun hr => by
      rw [show (acc.add x).series = acc.series from rfl, hs hr]
      exact nofun
    samples := by rw [hadd]; exact nofun
    newest := by
      rw [hadd]
      show (if acc.samples = [] then x.ts else max acc.newest x.ts) = x.ts
      rw [if_pos hsamples] }
  have hnotin := pos_eq_none.mp hpos
  constructor
  · refine ⟨fun c hc => ?_, ?_, ?_, ?_⟩
    · rw [haccs] at hc
      rcases mem_append.mp hc with hc | hc
      · exact hb.fits c hc
      · rw [mem_singleton.mp hc]
        exact hfit
    · rw [haccs, map_append, map_singleton, ← concat_eq_append]
      exact hb.ids.concat hnotin
    · rw [haccs, map_append, sum_append, ← hb.samples]
      simp [WalBatch.startAdd, WalBatch.start, WalBatch.add, hadd]
    · rw [haccs, filter_append, length_append, ← hb.registered]
      show (if acc.register then b.registered + 1 else b.registered) = _
      have hsame : (acc.add x).register = acc.register := rfl
      rw [filter_cons, hsame]
      cases acc.register <;> rfl
  · have happlied : Applied h (b.apply h) b.accs := applied_foldl hw s hb.fits hb.ids
    have hfit' : Fits (b.apply h) (acc.add x) := hfit.of_state (happlied.other acc.id hnotin)
    have hfold : (b.startAdd acc x).apply h = WalBatch.applyAcc (b.apply h) (acc.add x) := by
      rw [WalBatch.apply, haccs, foldl_append]
      rfl
    rw [hfold, applyAcc_eq happlied.wellFormed hfit' hs, hadd]
    rfl

theorem Staged.startAdd_ofState (hb : Staged h b) (hpos : b.pos id = none) (isNew register : Bool)
    (series : Option S) (hregister : register = !(h.seriesState id).known)
    (hs : register = true → series = some s) (x : Sample F) :
    let acc : WalSeriesAcc ID S F := WalSeriesAcc.ofState id (h.seriesState id)
    let b' := b.startAdd { acc with isNew := isNew, register := register, series := series } x
    Staged h b' ∧ b'.apply h = (b.apply h).put id s x :=
  hb.startAdd hw _ hpos rfl hregister hs rfl x

theorem Staged.startAdd_overflow (hb : Staged h b) (hpos : b.pos id = none) (s : S) (x : Sample F) :
    let acc : WalSeriesAcc ID S F := WalSeriesAcc.ofState id (h.seriesState id)
    let b' := b.startAdd (if acc.buffer = none then
      { acc with isNew := true, register := !acc.knownRef, series := some s } else acc) x
    Staged h b' ∧ b'.apply h = (b.apply h).put id s x := by
  intro acc
  by_cases hbuf : acc.buffer = none
  · rw [if_pos hbuf]
    exact hb.startAdd_ofState hw hpos true (!acc.knownRef) (some s) rfl (fun _ => rfl) x
  have hknown : (h.seriesState id).known = true := by
    by_contra hne
    apply hbuf
    show (h.seriesState id).buffer = none
    rw [Head.seriesState, Head.known_eq_false.mp (Bool.eq_false_iff.mpr hne)]
  rw [if_neg hbuf]
  exact hb.startAdd_ofState hw hpos false false none (congrArg Bool.not hknown).symm
    (fun hr => absurd hr Bool.false_ne_true) x

/-- **One decision.**  Against the head with the batch applied, the batch decides as an append
would, and staging what it admits is putting it there. -/
theorem Staged.admitSample (hb : Staged h b)
    (hash : S → ID) (window : ℤ) (limits : AppendLimits S) (s : S) (x : Sample F) :
    let g := b.apply h
    let v := Head.verdict window limits (g.seriesState (hash s)) g.inFlightBytes g.series.length s
      x.ts
    (b.admitSample hash window limits h s x).1 = v.1 ∧
      Staged h (b.admitSample hash window limits h s x).2 ∧
      (b.admitSample hash window limits h s x).2.apply h = g.settle hash x v.2 := by
  have happlied : Applied h (b.apply h) b.accs := applied_foldl hw s hb.fits hb.ids
  have hbytes : (b.apply h).inFlightBytes = h.inFlightBytes + b.samples * sampleBytes := by
    rw [happlied.bytes, hb.samples]
  have hlength : ((b.apply h).series.length : ℤ) = h.series.length + b.registered := by
    rw [happlied.length, hb.registered]
    push_cast
    rfl
  dsimp only
  rw [hbytes, hlength]
  unfold WalBatch.admitSample Head.verdict
  dsimp only
  by_cases hmin : limits.enforceMinTimestamp = true ∧ x.ts < limits.minTimestamp
  · rw [if_pos hmin, if_pos hmin]
    exact ⟨rfl, hb, rfl⟩
  rw [if_neg hmin, if_neg hmin]
  rw [happlied.newest]
  by_cases hlate : late window x.ts ((b.apply h).seriesState (hash s)).newest = true
  · rw [if_pos hlate, if_pos hlate]
    exact ⟨rfl, hb, rfl⟩
  rw [if_neg hlate, if_neg hlate]
  by_cases hcap : 0 < limits.maxInFlightBytes ∧
      limits.maxInFlightBytes ≤ h.inFlightBytes + b.samples * sampleBytes
  · rw [if_pos hcap, if_pos hcap]
    exact ⟨rfl, hb, rfl⟩
  rw [if_neg hcap, if_neg hcap]
  cases hpos : b.pos (hash s) with
  | some k =>
    obtain ⟨l, a, r, haccs, -, hid⟩ := exists_of_pos hpos
    have hmem : a ∈ b.accs := haccs ▸ mem_append_right _ mem_cons_self
    have hknown : ((b.apply h).seriesState (hash s)).known = true := by
      rw [← hid, (happlied.held a hmem).1.seriesState]
    rw [if_pos hknown]
    exact ⟨rfl, hb.add hw hpos s x⟩
  | none =>
    have hstate := happlied.other _ (pos_eq_none.mp hpos)
    rw [hstate]
    cases hknown : (h.seriesState (hash s)).known with
    | true =>
      have hstart := fun isNew => hb.startAdd_ofState (s := s) hw hpos isNew false none
        (congrArg Bool.not hknown).symm (fun hr => absurd hr Bool.false_ne_true) x
      simp only [WalSeriesAcc.ofState, hknown, if_true]
      simp only [WalSeriesAcc.ofState, hknown] at hstart
      cases hbuf : (h.seriesState (hash s)).buffer with
      | some p =>
        rw [hbuf] at hstart
        exact ⟨rfl, hstart false⟩
      | none =>
        rw [hbuf] at hstart
        exact ⟨rfl, hstart true⟩
    | false =>
      have hbuf : (h.seriesState (hash s)).buffer = none := by
        rw [Head.seriesState, Head.known_eq_false.mp hknown]
      have hnew := hb.startAdd_ofState hw hpos true true (some s)
        (congrArg Bool.not hknown).symm (fun _ => rfl) x
      simp only [WalSeriesAcc.ofState, hknown, hbuf, Bool.false_eq_true, if_false] at hnew ⊢
      by_cases hseries : 0 < limits.maxSeries ∧
          limits.maxSeries ≤ (h.series.length : ℤ) + b.registered
      · rw [if_pos hseries, if_pos hseries]
        exact ⟨rfl, hb, rfl⟩
      rw [if_neg hseries, if_neg hseries]
      cases limits.overflow with
      | none => exact ⟨rfl, hnew⟩
      | some overflow =>
        by_cases hsoft : 0 < limits.maxSeriesSoft ∧
            limits.maxSeriesSoft ≤ (h.series.length : ℤ) + b.registered
        · simp only [if_pos hsoft]
          cases hover : b.pos (hash (overflow s)) with
          | some k => exact ⟨rfl, hb.add hw hover (overflow s) x⟩
          | none => exact ⟨rfl, hb.startAdd_overflow hw hover (overflow s) x⟩
        · simp only [if_neg hsoft]
          exact ⟨trivial, hnew⟩

/-- **A whole batch.**  The samples are decided as if they were appended to the head with the batch
applied, and applying the batch in the end leaves that head. -/
theorem Staged.stageAll (hash : S → ID) (window : ℤ)
    (limits : AppendLimits S) (xs : List (S × Sample F)) (hb : Staged h b) :
    (stageAll hash window limits h b xs).1 = (appendAll hash window limits (b.apply h) xs).1 ∧
      (stageAll hash window limits h b xs).2.apply h =
        (appendAll hash window limits (b.apply h) xs).2 := by
  induction xs generalizing b with
  | nil => exact ⟨rfl, rfl⟩
  | cons sx xs ih =>
    obtain ⟨s, x⟩ := sx
    have happlied : Applied h (b.apply h) b.accs := applied_foldl hw s hb.fits hb.ids
    obtain ⟨hout, hstaged, hhead⟩ := hb.admitSample hw hash window limits s x
    obtain ⟨hout', hhead'⟩ :=
      Head.appendByID_eq hash window limits happlied.wellFormed s x
    obtain ⟨houts, hlast⟩ := ih hstaged
    rw [hhead, ← hhead'] at houts hlast
    exact ⟨congrArg₂ List.cons (hout.trans hout'.symm) houts, hlast⟩

end

/-- **A durable write is the write.**  Whatever the head, the limits and the samples, a write whose
log took it has the outcomes and leaves the head of the write without a log, and a write whose log
failed leaves the head as it was. -/
theorem staged_write (hash : S → ID) (window : ℤ) (limits : AppendLimits S) {h : Head ID S F}
    (hw : h.WellFormed) (xs : List (S × Sample F)) :
    appendBatch hash window limits (some true) h xs = appendBatch hash window limits none h xs ∧
      appendBatch hash window limits (some false) h xs = (none, h) := by
  obtain ⟨houts, hhead⟩ := (staged_empty h).stageAll hw hash window limits xs
  refine ⟨?_, rfl⟩
  show (some _, _) = (some _, _)
  rw [houts, hhead]
  rfl

end Apply

/-- A write to a new head: series 1 and 2 are registered, series 3 goes to the overflow series 0,
and the late sample of series 1 is rejected. -/
theorem staged_write_overflow :
    let limits : AppendLimits ℕ :=
      { enforceMinTimestamp := false, minTimestamp := 0, maxInFlightBytes := 0, maxSeries := 0,
        maxSeriesSoft := 2, overflow := some fun _ => 0 }
    let xs : List (ℕ × Sample ℚ) :=
      [(1, ⟨10, 1, 1⟩), (2, ⟨10, 1, 2⟩), (3, ⟨11, 1, 1⟩), (1, ⟨2, 1, 1⟩), (1, ⟨9, 1, 1⟩)]
    Head.WellFormed (Head.new : Head ℕ ℕ ℚ) ∧
      appendBatch id 5 limits (some true) Head.new xs = appendBatch id 5 limits none Head.new xs ∧
      (appendBatch id 5 limits (some true) (Head.new : Head ℕ ℕ ℚ) xs).1 =
        some [.admitted, .admitted, .admittedOverflow, .rejectOOO, .admitted] :=
  ⟨Head.wellFormed_new, (staged_write id 5 _ Head.wellFormed_new _).1, by decide +kernel⟩

end OtelStorage.Metrics
