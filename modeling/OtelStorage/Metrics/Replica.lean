import Mathlib.Data.List.Induction
import OtelStorage.Metrics.Head
import OtelStorage.Metrics.Read

/-!
# Replica refresh

An owner decides which samples of a shard are accepted, and flushes them to parts in a shared store.
A replica buffers the accepted samples as they are, and from time to time *refreshes*: it loads the
parts the owner has published, and drops from its buffers what those parts hold.

What they hold is decided from one timestamp a series, the newest of the series in any part: every
buffered sample at or below it is dropped.  A sample that the owner accepted late, after a newer one
of its series was flushed, is dropped as well, and is then in no part and no replica
(`refresh_drops_late_sample`).  And the weights of a buffer stay where they are when its samples are
dropped, so those that remain may change weight.

`refresh_keeps_samples` is the case that is sound: every accepted sample is newer than what is being
flushed or published of its series, and a series' samples weigh the same.
-/

namespace OtelStorage.Metrics

open List Function

variable {ID S F : Type*}

/-! ## Buffers -/

namespace SampleBuf

section

variable [One F]

/-- The samples of a buffer, with their weights by position. -/
def samples (b : SampleBuf F) : List (Sample F) :=
  List.zipWith (fun p w => ⟨p.1, p.2, w⟩) (b.ts.zip b.values)
    (b.sf.getD (List.replicate b.ts.length 1))

end

/-- The timestamps after a watermark, with their values.  The weights are left as they are. -/
def trim (b : SampleBuf F) (t : ℤ) : SampleBuf F :=
  let kept := (b.ts.zip b.values).filter fun p => t < p.1
  { b with ts := kept.map Prod.fst, values := kept.map Prod.snd }

/-- All samples weigh `w`. -/
structure Uniform (w : F) (b : SampleBuf F) [One F] : Prop where
  values : b.values.length = b.ts.length
  sf : b.sf = none ∧ (w = 1 ∨ b.ts = []) ∨ ∃ k, b.ts.length ≤ k ∧ b.sf = some (List.replicate k w)

theorem zipWith_replicate {α β γ : Type*} (f : α → β → γ) (b : β) {l : List α} {k : ℕ}
    (h : l.length ≤ k) : List.zipWith f l (List.replicate k b) = l.map fun a => f a b :=
  List.ext_getElem (by simp [h]) (by simp)

section

variable [One F] {b : SampleBuf F} {w : F} {x : Sample F}

theorem Uniform.samples_eq (h : b.Uniform w) :
    b.samples = (b.ts.zip b.values).map fun p => ⟨p.1, p.2, w⟩ := by
  have hlen : (b.ts.zip b.values).length = b.ts.length := by
    rw [length_zip, h.values, Nat.min_self]
  rw [samples]
  rcases h.sf with ⟨hsf, hw | hnil⟩ | ⟨k, hk, hsf⟩
  · rw [hsf, Option.getD_none, zipWith_replicate _ _ hlen.le, hw]
  · rw [hnil, zip_nil_left, zipWith_nil_left, map_nil]
  · rw [hsf, Option.getD_some, zipWith_replicate _ _ (hlen.trans_le hk)]

theorem uniform_empty (w : F) : (empty : SampleBuf F).Uniform w :=
  ⟨rfl, .inl ⟨rfl, .inr rfl⟩⟩

theorem Uniform.trim (h : b.Uniform w) (t : ℤ) :
    (b.trim t).Uniform w ∧ (b.trim t).samples = b.samples.filter fun x => t < x.ts := by
  obtain ⟨kept, hkept⟩ : ∃ kept, kept = (b.ts.zip b.values).filter fun p => t < p.1 := ⟨_, rfl⟩
  have hzip : (kept.map Prod.fst).zip (kept.map Prod.snd) = kept := by
    rw [zip_map']
    exact map_id' kept
  have hlen : kept.length ≤ b.ts.length := by
    rw [hkept]
    refine (length_filter_le _ _).trans ?_
    rw [length_zip]
    exact Nat.min_le_left _ _
  have htrim : b.trim t = ⟨kept.map Prod.fst, kept.map Prod.snd, b.sf⟩ := by rw [hkept]; rfl
  have hunif : (b.trim t).Uniform w := by
    rw [htrim]
    refine ⟨by simp, h.sf.imp (fun ⟨hsf, hw⟩ => ⟨hsf, hw.imp_right fun hnil => ?_⟩)
      fun ⟨k, hk, hsf⟩ => ⟨k, by simpa using hlen.trans hk, hsf⟩⟩
    rw [hkept, hnil]
    rfl
  refine ⟨hunif, ?_⟩
  rw [hunif.samples_eq, h.samples_eq, htrim, filter_map]
  show List.map _ ((kept.map Prod.fst).zip (kept.map Prod.snd)) = _
  rw [hzip, hkept]
  rfl

/-- Otherwise a sample may take the weight of one that was dropped: here that at 20 weighed 5. -/
example : (SampleBuf.trim ⟨[10, 20], [3, 4], some [2, 5]⟩ 10 : SampleBuf ℚ).samples =
  [⟨20, 4, 2⟩] := by
  decide +kernel

variable [DecidableEq F]

theorem Uniform.appendSample (h : b.Uniform w) (hx : x.weight = w) :
    (b.appendSample x).Uniform w ∧ (b.appendSample x).samples = b.samples ++ [x] := by
  have hunif : (b.appendSample x).Uniform w := by
    refine ⟨by simp [SampleBuf.appendSample, h.values], ?_⟩
    rcases h.sf with ⟨hsf, hw | hnil⟩ | ⟨k, hk, hsf⟩
    · refine .inl ⟨?_, .inl hw⟩
      simp [SampleBuf.appendSample, hsf, hx, hw]
    · by_cases hw : w = 1
      · refine .inl ⟨?_, .inl hw⟩
        simp [SampleBuf.appendSample, hsf, hx, hw]
      · refine .inr ⟨1, ?_, ?_⟩
        · simp [SampleBuf.appendSample, hnil]
        · simp [SampleBuf.appendSample, hsf, hnil, hx, hw]
    · refine .inr ⟨k + 1, ?_, ?_⟩
      · simpa [SampleBuf.appendSample] using hk
      · simp [SampleBuf.appendSample, hsf, hx, replicate_succ']
  refine ⟨hunif, ?_⟩
  rw [hunif.samples_eq, h.samples_eq]
  show List.map _ ((b.ts ++ [x.ts]).zip (b.values ++ [x.val])) = _
  rw [zip_append h.values.symm, map_append]
  subst hx
  rfl

theorem Uniform.foldl_appendSample (xs : List (Sample F))
    (h : b.Uniform w) (hxs : ∀ x ∈ xs, x.weight = w) :
    (xs.foldl SampleBuf.appendSample b).Uniform w ∧
      (xs.foldl SampleBuf.appendSample b).samples = b.samples ++ xs := by
  induction xs generalizing b with
  | nil => exact ⟨h, (append_nil _).symm⟩
  | cons x xs ih =>
    obtain ⟨hunif, hsamples⟩ := h.appendSample (hxs x mem_cons_self)
    obtain ⟨hunif', hsamples'⟩ := ih hunif fun y hy => hxs y (mem_cons_of_mem x hy)
    refine ⟨hunif', ?_⟩
    rw [foldl_cons, hsamples', hsamples, append_assoc, singleton_append]

end

end SampleBuf

/-! ## Heads -/

/-- What a flush takes from a head. -/
structure Detached (ID F : Type*) where
  samples : ID → Option (SampleBuf F)
  bytes : ℤ
  min : ℤ
  known : Bool

namespace Head

variable {id : ID} {d : Detached ID F} {h h' : Head ID S F}

/-- The identities with a buffer, in the order they were registered. -/
def bufferIDs (h : Head ID S F) : List ID :=
  (h.series.map Prod.fst).filter fun id => (h.samples id).isSome

/-- The buffers move aside for a flush, if they hold a sample; the identities stay. -/
def detach (h : Head ID S F) : Option (Detached ID F × Head ID S F) :=
  if h.bufferIDs.any fun id => (h.samples id).any fun b => !b.ts.isEmpty then
    some (⟨h.samples, h.bytes, h.bufferedMin, h.bufferedKnown⟩,
      { h with
        samples := fun _ => none, buffers := fun _ => none, bytes := 0, detachedBytes := h.bytes
        bufferedKnown := false })
  else none

/-- The measures of the buffers, counted again. -/
def recountBytes (h : Head ID S F) : Head ID S F :=
  let ts := h.bufferIDs.flatMap fun id => (h.samples id).elim [] SampleBuf.ts
  let h := ts.foldl noteBufferedTS { h with bufferedKnown := false }
  { h with bytes := ts.length * sampleBytes }

/-- Every sample at or below its series' watermark is dropped; a series without one keeps all. -/
def trimBelowCovered (h : Head ID S F) (covered : ID → Option ℤ) : Head ID S F :=
  let samples := fun id => (h.samples id).map fun buf =>
    match covered id with
    | none => buf
    | some t => buf.trim t
  { h with samples := samples }.recountBytes

theorem foldl_noteBufferedTS (ts : List ℤ) (h : Head ID S F) :
    ∃ m k, ts.foldl noteBufferedTS h = { h with bufferedMin := m, bufferedKnown := k } := by
  induction ts generalizing h with
  | nil => exact ⟨_, _, rfl⟩
  | cons t ts ih =>
    rw [foldl_cons, noteBufferedTS_eq]
    obtain ⟨m, k, heq⟩ := ih { h with
      bufferedMin := if h.bufferedKnown then min h.bufferedMin t else t, bufferedKnown := true }
    exact ⟨m, k, heq⟩

theorem recountBytes_eq (h : Head ID S F) :
    ∃ m k n, h.recountBytes = { h with bufferedMin := m, bufferedKnown := k, bytes := n } := by
  obtain ⟨m, k, heq⟩ := foldl_noteBufferedTS
    (h.bufferIDs.flatMap fun id => (h.samples id).elim [] SampleBuf.ts)
    { h with bufferedKnown := false }
  have hbytes := congrArg (fun g : Head ID S F => { g with
    bytes :=
      (h.bufferIDs.flatMap fun id => (h.samples id).elim [] SampleBuf.ts).length * sampleBytes })
    heq
  exact ⟨m, k, _, hbytes⟩

/-- The buffers after a trim. -/
def trimmed (covered : ID → Option ℤ) (samples : ID → Option (SampleBuf F)) (id : ID) :
    Option (SampleBuf F) :=
  (samples id).map fun buf =>
    match covered id with
    | none => buf
    | some t => buf.trim t

theorem trimBelowCovered_eq (h : Head ID S F) (covered : ID → Option ℤ) :
    ∃ m k n, h.trimBelowCovered covered =
      { h with
        samples := trimmed covered h.samples, bufferedMin := m, bufferedKnown := k, bytes := n } :=
  recountBytes_eq { h with samples := trimmed covered h.samples }

theorem samples_trimBelowCovered (h : Head ID S F) (covered : ID → Option ℤ) :
    (h.trimBelowCovered covered).samples = trimmed covered h.samples := by
  obtain ⟨m, k, n, heq⟩ := trimBelowCovered_eq h covered
  rw [heq]

theorem detach_eq (hd : h.detach = some (d, h')) :
    d = ⟨h.samples, h.bytes, h.bufferedMin, h.bufferedKnown⟩ ∧ h' = { h with
      samples := fun _ => none, buffers := fun _ => none, bytes := 0, detachedBytes := h.bytes
      bufferedKnown := false } := by
  rw [Head.detach] at hd
  split at hd
  · cases hd
    exact ⟨rfl, rfl⟩
  · cases hd

variable [DecidableEq ID]

/-- The buffers of the slots, from the buffers of the identities. -/
def resetBuffers (h : Head ID S F) : Head ID S F :=
  { h with buffers := fun slot => h.bufferIDs.find? fun id => h.slotOf id = slot }

/-- A series' record. -/
def registerSeries (hash : S → ID) (h : Head ID S F) (s : S) : Head ID S F :=
  if h.ref (hash s) = none then h.register (hash s) s else h

section

variable [DecidableEq F] [One F]

/-- The buffers after a failed flush. -/
def rejoined (older live : ID → Option (SampleBuf F)) (id : ID) : Option (SampleBuf F) :=
  match older id with
  | none => live id
  | some b =>
    if b.ts.isEmpty then live id
    else some (((live id).elim [] SampleBuf.samples).foldl SampleBuf.appendSample b)

/-- The measures of the buffers of a failed flush come back. -/
def restoreMeasures (h : Head ID S F) (d : Detached ID F) : Head ID S F :=
  { h with
    bufferedMin :=
      if !d.known || decide (0 < h.bytes) && !h.bufferedKnown then minInt64
      else if !h.bufferedKnown || decide (d.min < h.bufferedMin) then d.min
      else h.bufferedMin
    bufferedKnown := true
    bytes := h.bytes + d.bytes
    detachedBytes := 0 }

/-- The buffers of a failed flush come back before what was appended since. -/
def reattach (h : Head ID S F) (d : Detached ID F) : Head ID S F :=
  { h with samples := rejoined d.samples h.samples }.resetBuffers.restoreMeasures d

/-- A logged sample of a registered series; nothing is checked. -/
def replaySample (h : Head ID S F) (id : ID) (x : Sample F) : Head ID S F :=
  match h.ref id with
  | none => h
  | some ref =>
    let (buf, h) := h.bufForRef id ref
    ((h.appendTo buf x).grow sampleBytes).noteTSRef ref x.ts

/-- An accepted sample reaches a replica: its series' record, then the sample. -/
def applyReplicated (hash : S → ID) (h : Head ID S F) (s : S) (x : Sample F) : Head ID S F :=
  (h.registerSeries hash s).replaySample (hash s) x

end

/-! ### Slots and buffers -/

/-- A head whose slots lead to its buffers. -/
structure Linked (h : Head ID S F) : Prop where
  wf : h.WellFormed
  held : ∀ id, h.samples id ≠ none ↔ h.Held id

theorem linked_new : (new : Head ID S F).Linked :=
  ⟨wellFormed_new, fun _ => ⟨fun h => absurd rfl h, fun ⟨_, href, _⟩ => absurd href nofun⟩⟩

theorem WellFormed.remeasure (hw : h.WellFormed) (samples : ID → Option (SampleBuf F))
    (newest bufferedMin : ℤ) (bufferedKnown : Bool) (bytes detachedBytes : ℤ) :
    ({ h with samples, newest, bufferedMin, bufferedKnown, bytes, detachedBytes } :
      Head ID S F).WellFormed :=
  { hw with }

theorem Linked.trimBelowCovered (hl : h.Linked) (covered : ID → Option ℤ) :
    (h.trimBelowCovered covered).Linked := by
  obtain ⟨m, k, n, heq⟩ := trimBelowCovered_eq h covered
  rw [heq]
  exact ⟨hl.wf.remeasure _ _ _ _ _ _, fun id =>
    (not_congr Option.map_eq_none_iff).trans (hl.held id)⟩

theorem Linked.samples_opened (hl : h.Linked) (id : ID) (s : S) :
    (h.opened id s).samples = update h.samples id (some ((h.samples id).getD SampleBuf.empty)) := by
  by_cases hheld : h.Held id
  · obtain ⟨b, hb⟩ := Option.ne_none_iff_exists'.mp ((hl.held id).mpr hheld)
    rw [hheld.opened, hb, Option.getD_some, ← hb, update_eq_self]
  rw [not_not.mp fun hne => hheld ((hl.held id).mp hne), Option.getD_none, Head.opened]
  cases href : h.ref id with
  | some r =>
    have hbuf : h.buffers (h.slotAt r) = none := by
      cases hbuf : h.buffers (h.slotAt r) with
      | none => rfl
      | some p => exact absurd ⟨r, href, hl.wf.owner id r p href hbuf ▸ hbuf⟩ hheld
    simp only [reduceCtorEq, if_false, href, Option.getD_some, Head.bufForRef, hbuf]
  | none =>
    obtain ⟨slot, free, next, heq, -⟩ := register_eq hl.wf id s
    obtain ⟨-, hself, hstate, -⟩ := hl.wf.register href s
    have hbuf := congrArg HeadSeriesState.buffer hstate
    simp only [Head.seriesState, hself] at hbuf
    have hsamples : (h.register id s).samples = h.samples := by rw [heq]
    simp only [if_true, hself, Option.getD_some, Head.bufForRef, hbuf, hsamples]

theorem Linked.opened (hl : h.Linked) (id : ID) (s : S) : (h.opened id s).Linked := by
  obtain ⟨hwf, hheld, hother⟩ := hl.wf.opened id s
  refine ⟨hwf, fun id' => ?_⟩
  by_cases hid : id' = id
  · subst hid
    rw [hl.samples_opened, update_self]
    exact iff_of_true nofun hheld
  · rw [hl.samples_opened, update_of_ne hid, hl.held, hl.wf.held_iff, hwf.held_iff, hother id' hid]

theorem ref_ne_none : h.ref id ≠ none ↔ (h.seriesState id).known = true := by
  rw [Ne, ← known_eq_false, Bool.not_eq_false]

theorem Linked.detach (hl : h.Linked) (hd : h.detach = some (d, h')) : h'.Linked := by
  obtain ⟨-, rfl⟩ := detach_eq hd
  refine ⟨?_, fun _ => ⟨fun hne => absurd rfl hne, fun ⟨_, _, hbuf⟩ => absurd hbuf nofun⟩⟩
  exact ⟨hl.wf.ids, hl.wf.refs, hl.wf.slots, hl.wf.used, hl.wf.freeSlots,
    fun r hr => ⟨rfl, (hl.wf.unused r hr).2⟩, fun _ _ _ _ => nofun⟩

theorem WellFormed.resetBuffers (hw : h.WellFormed)
    (hknown : ∀ id, h.samples id ≠ none → h.ref id ≠ none) :
    h.resetBuffers.WellFormed ∧ ∀ id, h.samples id ≠ none ↔ h.resetBuffers.Held id := by
  have hfound : ∀ {slot : ℕ} {p : ID}, (h.bufferIDs.find? fun id => h.slotOf id = slot) = some p →
      ∃ r, h.ref p = some r ∧ h.slotAt r = slot := by
    intro slot p hp
    have hslot : h.slotOf p = slot := by
      simpa using List.find?_some (p := fun id => decide (h.slotOf id = slot)) hp
    have hmem := mem_of_mem_filter (mem_of_find?_eq_some hp)
    obtain ⟨r, href⟩ := Option.ne_none_iff_exists'.mp fun hnone => ref_eq_none.mp hnone hmem
    exact ⟨r, href, (slotOf_eq href).symm.trans hslot⟩
  -- two identities do not share a slot
  have howner : ∀ id ref p, h.ref id = some ref →
      (h.bufferIDs.find? fun id => h.slotOf id = h.slotAt ref) = some p → p = id := by
    intro id ref p href hp
    obtain ⟨r, hr, hslot⟩ := hfound hp
    by_contra hne
    exact hw.slotAt_ne hr href hne hslot
  refine ⟨⟨hw.ids, hw.refs, hw.slots, hw.used, hw.freeSlots, fun r hr => ⟨?_, (hw.unused r hr).2⟩,
    howner⟩, fun id => ⟨fun hid => ?_, fun hid => ?_⟩⟩
  · rw [Head.resetBuffers]
    cases hp : h.bufferIDs.find? fun id => h.slotOf id = r with
    | none => exact hp
    | some p =>
      obtain ⟨r', href, hslot⟩ := hfound hp
      exact absurd (hslot ▸ hw.slotAt_mem href) hr
  · obtain ⟨r, href⟩ := Option.ne_none_iff_exists'.mp (hknown id hid)
    refine ⟨r, href, ?_⟩
    show (h.bufferIDs.find? fun id => h.slotOf id = h.slotAt r) = some id
    have hmem : id ∈ h.bufferIDs := by
      refine mem_filter.mpr ⟨?_, Option.isSome_iff_ne_none.mpr hid⟩
      by_contra hnot
      exact hknown id hid (ref_eq_none.mpr hnot)
    cases hp : h.bufferIDs.find? fun id => h.slotOf id = h.slotAt r with
    | none => exact absurd (decide_eq_true (slotOf_eq href)) (List.find?_eq_none.mp hp id hmem)
    | some p => rw [howner id r p href hp]
  · obtain ⟨_, _, hbuf⟩ := hid
    exact Option.isSome_iff_ne_none.mp (mem_filter.mp (mem_of_find?_eq_some hbuf)).2

/-! ### What a head buffers -/

section

variable [One F] {w : ID → F} {x : Sample F}

/-- The buffered samples of an identity. -/
def buffered (h : Head ID S F) (id : ID) : List (Sample F) :=
  (h.samples id).elim [] SampleBuf.samples

/-- A head whose slots lead to its buffers, and whose series' samples weigh the same. -/
structure Sound (w : ID → F) (h : Head ID S F) : Prop where
  wf : h.WellFormed
  held : ∀ id, h.samples id ≠ none ↔ h.Held id
  uniform : ∀ id b, h.samples id = some b → b.Uniform (w id)

theorem Sound.linked (hs : h.Sound w) : h.Linked := ⟨hs.wf, hs.held⟩

theorem sound_new (w : ID → F) : (new : Head ID S F).Sound w :=
  ⟨wellFormed_new, linked_new.held, nofun⟩

theorem Sound.weight (hs : h.Sound w) (hx : x ∈ h.buffered id) : x.weight = w id := by
  rw [buffered] at hx
  cases hb : h.samples id with
  | none =>
    rw [hb] at hx
    cases hx
  | some b =>
    rw [hb, Option.elim_some, (hs.uniform id b hb).samples_eq] at hx
    obtain ⟨p, -, rfl⟩ := mem_map.mp hx
    rfl

/-- **What a trim leaves.** -/
theorem Sound.trimBelowCovered (hs : h.Sound w) (covered : ID → Option ℤ) :
    (h.trimBelowCovered covered).Sound w ∧ ∀ id, (h.trimBelowCovered covered).buffered id =
      (h.buffered id).filter fun x => ∀ t ∈ covered id, t < x.ts := by
  have hl := hs.linked.trimBelowCovered covered
  have hbuf : ∀ id b, h.samples id = some b →
      ∃ b', (h.trimBelowCovered covered).samples id = some b' ∧
      b'.Uniform (w id) ∧ b'.samples = b.samples.filter fun x => ∀ t ∈ covered id, t < x.ts := by
    intro id b hb
    rw [samples_trimBelowCovered, trimmed, hb]
    cases covered id with
    | none =>
      refine ⟨b, rfl, hs.uniform id b hb, ?_⟩
      exact (filter_eq_self.mpr fun x _ => decide_eq_true nofun).symm
    | some t =>
      obtain ⟨hunif, htrim⟩ := (hs.uniform id b hb).trim t
      refine ⟨b.trim t, rfl, hunif, htrim.trans (filter_congr fun x _ => ?_)⟩
      simp
  have hnone : ∀ id, h.samples id = none → (h.trimBelowCovered covered).samples id = none := by
    intro id hb
    rw [samples_trimBelowCovered, trimmed, hb]
    rfl
  refine ⟨⟨hl.wf, hl.held, fun id b' hb' => ?_⟩, fun id => ?_⟩
  · cases hb : h.samples id with
    | none => rw [hnone id hb] at hb'; cases hb'
    | some b =>
      obtain ⟨b'', hb'', hunif, -⟩ := hbuf id b hb
      rwa [Option.some.inj (hb'.symm.trans hb'')]
  rw [buffered, buffered]
  cases hb : h.samples id with
  | none => rw [hnone id hb]; rfl
  | some b =>
    obtain ⟨b'', hb'', -, hsamples⟩ := hbuf id b hb
    rw [hb'']
    exact hsamples

/-- **What a detach leaves and takes.** -/
theorem Sound.detach (hs : h.Sound w) (hd : h.detach = some (d, h')) :
    h'.Sound w ∧ (∀ id, h'.buffered id = []) ∧ d.samples = h.samples ∧
      ∀ id, h'.ref id = h.ref id := by
  have hl := hs.linked.detach hd
  obtain ⟨rfl, rfl⟩ := detach_eq hd
  exact ⟨⟨hl.wf, hl.held, nofun⟩, fun _ => rfl, rfl, fun _ => rfl⟩

variable [DecidableEq F]

/-- **A sample put is appended to its series' buffer**, made for it if there is none. -/
theorem Linked.samples_put (hl : h.Linked) (id : ID) (s : S) (x : Sample F) :
    (h.put id s x).samples = update h.samples id
      (some (((h.samples id).getD SampleBuf.empty).appendSample x)) := by
  show update (h.opened id s).samples id
    (some ((((h.opened id s).samples id).getD SampleBuf.empty).appendSample x)) = _
  rw [hl.samples_opened, update_self, update_idem, Option.getD_some]

theorem Linked.put (hl : h.Linked) (id : ID) (s : S) (x : Sample F) : (h.put id s x).Linked := by
  obtain ⟨hwf, hheld, -⟩ := hl.wf.put id s x
  refine ⟨hwf, fun id' => ?_⟩
  by_cases hid : id' = id
  · subst hid
    rw [hl.samples_put, update_self]
    exact iff_of_true nofun hheld
  · rw [hl.samples_put, update_of_ne hid,
      ← update_of_ne hid (some ((h.samples id).getD SampleBuf.empty)) h.samples,
      ← hl.samples_opened id s]
    exact (hl.opened id s).held id'

/-- **What a sample put adds.** -/
theorem Sound.put (hs : h.Sound w) (hx : x.weight = w id) (s : S) :
    (h.put id s x).Sound w ∧ ∀ id', (h.put id s x).buffered id' =
      h.buffered id' ++ if id' = id then [x] else [] := by
  have hsamples := hs.linked.samples_put id s x
  obtain ⟨b, hb, hunif, hbs⟩ : ∃ b, (h.samples id).getD SampleBuf.empty = b ∧ b.Uniform (w id) ∧
      b.samples = h.buffered id := by
    rw [buffered]
    cases hb : h.samples id with
    | none => exact ⟨_, rfl, SampleBuf.uniform_empty _, rfl⟩
    | some b => exact ⟨b, rfl, hs.uniform id b hb, rfl⟩
  obtain ⟨hunif', happend⟩ := hunif.appendSample hx
  rw [hb] at hsamples
  refine ⟨⟨(hs.linked.put id s x).wf, (hs.linked.put id s x).held, fun id' b' hb' => ?_⟩,
    fun id' => ?_⟩
  · by_cases hid : id' = id
    · subst hid
      rw [hsamples, update_self] at hb'
      rwa [← Option.some.inj hb']
    · rw [hsamples, update_of_ne hid] at hb'
      exact hs.uniform id' b' hb'
  rw [buffered, hsamples]
  by_cases hid : id' = id
  · subst hid
    rw [update_self, if_pos rfl, Option.elim_some, happend, hbs]
  · rw [update_of_ne hid, if_neg hid, append_nil]
    rfl

theorem WellFormed.ref_put (hw : h.WellFormed) (hid : h.ref id ≠ none)
    (id' : ID) (s : S) (x : Sample F) : (h.put id' s x).ref id ≠ none := by
  obtain ⟨-, ⟨r, href, -⟩, hother⟩ := hw.put id' s x
  by_cases heq : id = id'
  · rw [heq, href]
    exact nofun
  · rw [ref_ne_none, hother id heq]
    exact ref_ne_none.mp hid

theorem WellFormed.applyReplicated (hw : h.WellFormed) (hash : S → ID) (s : S) (x : Sample F) :
    h.applyReplicated hash s x = h.put (hash s) s x := by
  rw [Head.applyReplicated, registerSeries]
  split
  · next hnone =>
    obtain ⟨-, hself, -⟩ := hw.register hnone s
    rw [replaySample, hself]
    have hput := put_of_register hw hnone s x
    rw [hself] at hput
    exact hput
  · next hsome =>
    obtain ⟨r, href⟩ := Option.ne_none_iff_exists'.mp hsome
    rw [replaySample, href]
    exact put_of_ref hw href s x

theorem samples_reattach (h : Head ID S F) (d : Detached ID F) :
    (h.reattach d).samples = rejoined d.samples h.samples := rfl

omit [DecidableEq ID] in
theorem rejoined_ne_none {older live : ID → Option (SampleBuf F)}
    (hid : rejoined older live id ≠ none) : older id ≠ none ∨ live id ≠ none := by
  rw [rejoined] at hid
  cases ho : older id with
  | none =>
    rw [ho] at hid
    exact .inr hid
  | some b => exact .inl nofun

theorem Linked.reattach (hl : h.Linked) (hknown : ∀ id, d.samples id ≠ none → h.ref id ≠ none) :
    (h.reattach d).Linked := by
  have hknown' : ∀ id, rejoined d.samples h.samples id ≠ none → h.ref id ≠ none := by
    intro id hid
    rcases rejoined_ne_none hid with hd | hh
    · exact hknown id hd
    · obtain ⟨r, href, -⟩ := (hl.held id).mp hh
      rw [href]
      exact nofun
  have hw : ({ h with samples := rejoined d.samples h.samples } : Head ID S F).WellFormed :=
    hl.wf.remeasure _ _ _ _ _ _
  obtain ⟨hwr, hheld⟩ := hw.resetBuffers hknown'
  exact ⟨hwr.remeasure _ _ _ _ _ _, hheld⟩

/-- **What comes back after a failed flush.** -/
theorem Sound.reattach (hs : h.Sound w) (hunif : ∀ id b, d.samples id = some b → b.Uniform (w id))
    (hknown : ∀ id, d.samples id ≠ none → h.ref id ≠ none) :
    (h.reattach d).Sound w ∧ ∀ id, (h.reattach d).buffered id =
      (d.samples id).elim [] SampleBuf.samples ++ h.buffered id := by
  -- each buffer is the older one, the newer one, or the one appended to the other
  have hcases : ∀ id, (∀ b, rejoined d.samples h.samples id = some b → b.Uniform (w id)) ∧
      (rejoined d.samples h.samples id).elim [] SampleBuf.samples =
        (d.samples id).elim [] SampleBuf.samples ++ h.buffered id := by
    intro id
    rw [rejoined]
    cases hd : d.samples id with
    | none => exact ⟨hs.uniform id, rfl⟩
    | some older =>
      have holder := hunif id older hd
      dsimp only
      split
      · next hempty =>
        refine ⟨hs.uniform id, ?_⟩
        rw [Option.elim_some, holder.samples_eq, isEmpty_iff.mp hempty]
        rfl
      · obtain ⟨hunif', happend⟩ :=
          holder.foldl_appendSample (h.buffered id) fun x hx => hs.weight hx
        refine ⟨fun b hb => ?_, happend⟩
        rw [← Option.some.inj hb]
        exact hunif'
  have hl := hs.linked.reattach hknown
  exact ⟨⟨hl.wf, hl.held, fun id => (hcases id).1⟩, fun id => (hcases id).2⟩

end

end Head

/-! ## Watermarks -/

/-- A part as a flush writes it: its rows by series. -/
structure FlushedPart (ID F : Type*) where
  rows : List (ID × Sample F)

section Watermarks

variable [DecidableEq ID] {covered : ID → Option ℤ} {t : ℤ} {id : ID}

/-- One more row: it opens an entry, or raises that of the row before. -/
def noteWatermark (out : List (ID × ℤ)) (row : ID × Sample F) : List (ID × ℤ) :=
  match out.getLast? with
  | some (id, newest) =>
    if id = row.1 then out.dropLast ++ [(id, max newest row.2.ts)] else out ++ [(row.1, row.2.ts)]
  | none => [(row.1, row.2.ts)]

/-- The newest timestamp of each series of a part. -/
def computeWatermarks (rows : List (ID × Sample F)) : List (ID × ℤ) := rows.foldl noteWatermark []

/-- Raise a series' watermark. -/
def cover (covered : ID → Option ℤ) (entry : ID × ℤ) : ID → Option ℤ :=
  match covered entry.1 with
  | some prev => if prev < entry.2 then update covered entry.1 (some entry.2) else covered
  | none => update covered entry.1 (some entry.2)

/-- The newest timestamp of each series in any part. -/
def coveredBy (parts : List (FlushedPart ID F)) : ID → Option ℤ :=
  parts.foldl (fun covered p => (computeWatermarks p.rows).foldl cover covered) fun _ => none

theorem mem_computeWatermarks {rows : List (ID × Sample F)} {e : ID × ℤ}
    (h : e ∈ computeWatermarks rows) : ∃ x, (e.1, x) ∈ rows ∧ x.ts = e.2 := by
  rw [computeWatermarks] at h
  induction rows using List.reverseRecOn generalizing e with
  | nil => cases h
  | append_singleton rows row ih =>
    have hold : e ∈ rows.foldl noteWatermark [] → ∃ x, (e.1, x) ∈ rows ++ [row] ∧ x.ts = e.2 :=
      fun h => (ih h).imp fun x hx => ⟨mem_append_left _ hx.1, hx.2⟩
    have hself : row ∈ rows ++ [row] := mem_append_right _ mem_cons_self
    rw [foldl_append, foldl_cons, foldl_nil, noteWatermark] at h
    split at h
    · next id newest hlast =>
      have hlast' : (id, newest) ∈ rows.foldl noteWatermark [] := mem_of_getLast? hlast
      split at h
      · next hid =>
        rcases mem_append.mp h with h | h
        · exact hold (dropLast_subset _ h)
        -- the raised entry is the old one or the row's
        subst hid
        rw [mem_singleton.mp h]
        obtain ⟨x, hx, hts⟩ := ih hlast'
        rcases max_choice newest row.2.ts with hmax | hmax
        · exact ⟨x, mem_append_left _ hx, hts.trans hmax.symm⟩
        · exact ⟨row.2, hself, hmax.symm⟩
      · rcases mem_append.mp h with h | h
        · exact hold h
        · rw [mem_singleton.mp h]
          exact ⟨row.2, hself, rfl⟩
    · rw [mem_singleton.mp h]
      exact ⟨row.2, hself, rfl⟩

theorem cover_cases (covered : ID → Option ℤ) (entry : ID × ℤ) :
    cover covered entry = covered ∨
      cover covered entry = update covered entry.1 (some entry.2) := by
  rw [cover]
  cases covered entry.1 with
  | none => exact .inr rfl
  | some prev =>
    dsimp only
    split
    · exact .inr rfl
    · exact .inl rfl

theorem cover_eq_some {entry : ID × ℤ} (h : cover covered entry id = some t) :
    covered id = some t ∨ entry = (id, t) := by
  rcases cover_cases covered entry with heq | heq
  · exact .inl (heq ▸ h)
  rw [heq] at h
  by_cases hid : id = entry.1
  · subst hid
    rw [update_self] at h
    exact .inr (Prod.ext rfl (Option.some.inj h))
  · rw [update_of_ne hid] at h
    exact .inl h

theorem foldl_cover_eq_some {entries : List (ID × ℤ)}
    (h : entries.foldl cover covered id = some t) : covered id = some t ∨ (id, t) ∈ entries := by
  induction entries generalizing covered with
  | nil => exact .inl h
  | cons e entries ih =>
    have hrest : cover covered e id = some t ∨ (id, t) ∈ entries := ih h
    rcases hrest with h | h
    · exact (cover_eq_some h).imp_right fun he => mem_cons.mpr (.inl he.symm)
    · exact .inr (mem_cons_of_mem e h)

theorem exists_row_of_covered {parts : List (FlushedPart ID F)}
    (h : coveredBy parts id = some t) : ∃ p ∈ parts, ∃ x, (id, x) ∈ p.rows ∧ x.ts = t := by
  have hfold : ∀ (parts : List (FlushedPart ID F)) (covered : ID → Option ℤ),
      parts.foldl (fun covered p => (computeWatermarks p.rows).foldl cover covered) covered id =
        some t →
      covered id = some t ∨ ∃ p ∈ parts, (id, t) ∈ computeWatermarks p.rows := by
    intro parts
    induction parts with
    | nil => exact fun _ h => .inl h
    | cons p parts ih =>
      intro covered h
      rcases ih _ h with h | ⟨q, hq, hmem⟩
      · exact (foldl_cover_eq_some h).imp_right fun h => ⟨p, mem_cons_self, h⟩
      · exact .inr ⟨q, mem_cons_of_mem p hq, hmem⟩
  rcases hfold parts _ h with h | ⟨p, hp, hmem⟩
  · cases h
  · exact ⟨p, hp, mem_computeWatermarks hmem⟩

end Watermarks

/-! ## A shard -/

/-- An owner and a replica.  `stream` is what the owner accepted and the replica has not applied
yet; `applied` is what it has. -/
structure Shard (ID S F : Type*) where
  owner : Head ID S F
  flushing : Option (Detached ID F)
  published : List (FlushedPart ID F)
  stream : List (S × Sample F)
  replica : Head ID S F
  loaded : List (FlushedPart ID F)
  applied : List (ID × Sample F)

/-- What happens in a shard. -/
inductive ShardAct (ID S F : Type*) where
  | write (limits : AppendLimits S) (s : S) (x : Sample F)
  | beginFlush
  | abortFlush
  | publish (outs : List (FlushedPart ID F))
  | apply
  | refresh

/-- The series an accepted sample is under. -/
def acceptedAs (limits : AppendLimits S) (s : S) : AdmitOutcome → Option S
  | .admitted => some s
  | .admittedOverflow => limits.overflow.map fun overflow => overflow s
  | _ => none

theorem acceptedAs_verdict (window : ℤ) (limits : AppendLimits S) (state : HeadSeriesState ID)
    (bytes cardinality : ℤ) (s : S) (ts : ℤ) :
    acceptedAs limits s (Head.verdict window limits state bytes cardinality s ts).1 =
      (Head.verdict window limits state bytes cardinality s ts).2 := by
  rw [Head.verdict]
  split_ifs
  · rfl
  · rfl
  · rfl
  · rfl
  · rfl
  · cases hov : limits.overflow with
    | none => rfl
    | some overflow =>
      rw [acceptedAs, hov]
      rfl
  · cases limits.overflow <;> rfl

namespace Shard

/-- A shard without samples. -/
def new : Shard ID S F := ⟨.new, none, [], [], .new, [], []⟩

/-- A sample is in a part. -/
def HeldBy (parts : List (FlushedPart ID F)) (id : ID) (x : Sample F) : Prop :=
  ∃ p ∈ parts, (id, x) ∈ p.rows

theorem heldBy_append {x : Sample F} {ps qs : List (FlushedPart ID F)} {id : ID} :
    HeldBy (ps ++ qs) id x ↔ HeldBy ps id x ∨ HeldBy qs id x := by
  simp only [HeldBy, mem_append, or_and_right, exists_or]

variable [One F] {window : ℤ} {w : ID → F} {sh : Shard ID S F}

/-- The samples of the flush in progress. -/
def detached (sh : Shard ID S F) (id : ID) : List (Sample F) :=
  sh.flushing.elim [] fun d => (d.samples id).elim [] SampleBuf.samples

theorem detached_of_none (h : sh.flushing = none) (id : ID) : sh.detached id = [] := by
  rw [detached, h]
  rfl

theorem detached_of_some {d : Detached ID F} (h : sh.flushing = some d) (id : ID) :
    sh.detached id = (d.samples id).elim [] SampleBuf.samples := by
  rw [detached, h]
  rfl

variable [DecidableEq ID] [DecidableEq F]

/-- The series under which the owner accepts a sample, if it does. -/
def accepts (hash : S → ID) (window : ℤ) (sh : Shard ID S F) (limits : AppendLimits S) (s : S)
    (x : Sample F) : Option S :=
  acceptedAs limits s (sh.owner.appendByID hash window limits s x).1.outcome

/-- Load what is published, and drop from the head what it covers. -/
def refresh (sh : Shard ID S F) : Shard ID S F :=
  { sh with
    loaded := sh.published
    replica :=
      if sh.published.isEmpty then sh.replica
      else sh.replica.trimBelowCovered (coveredBy sh.published) }

/-- The shard after an action. -/
def step (hash : S → ID) (window : ℤ) (sh : Shard ID S F) : ShardAct ID S F → Shard ID S F
  | .write limits s x =>
    { sh with
      owner := (sh.owner.appendByID hash window limits s x).2
      stream := sh.stream ++ ((sh.accepts hash window limits s x).map fun s' => (s', x)).toList }
  | .beginFlush =>
    match sh.flushing, sh.owner.detach with
    | none, some (d, owner) => { sh with owner := owner, flushing := some d }
    | _, _ => sh
  | .abortFlush =>
    match sh.flushing with
    | none => sh
    | some d => { sh with owner := sh.owner.reattach d, flushing := none }
  | .publish outs =>
    match sh.flushing with
    | none => sh
    | some _ => { sh with flushing := none, published := sh.published ++ outs }
  | .apply =>
    match sh.stream with
    | [] => sh
    | (s, x) :: rest =>
      { sh with
        stream := rest
        replica := sh.replica.applyReplicated hash s x
        applied := sh.applied ++ [(hash s, x)] }
  | .refresh => sh.refresh

/-- A flush publishes the rows it took, in parts of any size. -/
def Valid (sh : Shard ID S F) : ShardAct ID S F → Prop
  | .publish outs => ∀ id,
      (((outs.flatMap FlushedPart.rows).filter fun row => row.1 = id).map Prod.snd).Perm
      (sh.detached id)
  | _ => True

/-- A rule for what happens in a shard. -/
abbrev Rule (ID S F : Type*) := Shard ID S F → ShardAct ID S F → Prop

/-- The shards reached by steps that meet a rule. -/
inductive Reached (hash : S → ID) (window : ℤ) (rule : Rule ID S F) : Shard ID S F → Prop
  | new : Reached hash window rule .new
  | step {sh : Shard ID S F} (h : Reached hash window rule sh) (act : ShardAct ID S F)
      (hvalid : sh.Valid act) (hrule : rule sh act) :
      Reached hash window rule (sh.step hash window act)

/-- Anything may happen. -/
def anyWrites : Rule ID S F := fun _ _ => True

/-- An accepted sample is newer than what is being flushed or published of its series, and weighs
what the series' samples weigh. -/
def orderedWrites (hash : S → ID) (window : ℤ) (w : ID → F) : Rule ID S F := fun sh act =>
  match act with
  | .write limits s x => ∀ s', sh.accepts hash window limits s x = some s' →
      x.weight = w (hash s') ∧ (∀ y ∈ sh.detached (hash s'), y.ts < x.ts) ∧
        ∀ y, HeldBy sh.published (hash s') y → y.ts < x.ts
  | _ => True

/-- **No sample that reached the replica is lost**: it is in the replica's head or in a part the
replica loaded. -/
def Keeps (sh : Shard ID S F) : Prop :=
  ∀ e ∈ sh.applied, e.2 ∈ sh.replica.buffered e.1 ∨ HeldBy sh.loaded e.1 e.2

/-! ## Ordered writes -/

/-- The state of a shard after ordered writes. -/
structure Tracks (hash : S → ID) (w : ID → F) (sh : Shard ID S F) : Prop where
  owner : sh.owner.Sound w
  replica : sh.replica.Sound w
  flush : ∀ d, sh.flushing = some d → (∀ id b, d.samples id = some b → b.Uniform (w id)) ∧
    ∀ id, d.samples id ≠ none → sh.owner.ref id ≠ none
  weights : ∀ e ∈ sh.stream, e.2.weight = w (hash e.1)
  accepted : ∀ e ∈ sh.applied ++ sh.stream.map (fun e => (hash e.1, e.2)),
    e.2 ∈ sh.detached e.1 ++ sh.owner.buffered e.1 ∨ HeldBy sh.published e.1 e.2
  fresh : ∀ id, ∀ x ∈ sh.owner.buffered id, ∀ y ∈ sh.detached id, y.ts < x.ts
  past : ∀ id, ∀ x ∈ sh.detached id ++ sh.owner.buffered id, ∀ y, HeldBy sh.published id y →
    y.ts < x.ts
  loaded : ∀ p ∈ sh.loaded, p ∈ sh.published
  keeps : sh.Keeps

omit [DecidableEq F] in
theorem tracks_new (hash : S → ID) (w : ID → F) : (new : Shard ID S F).Tracks hash w where
  owner := Head.sound_new w
  replica := Head.sound_new w
  flush := nofun
  weights := nofun
  accepted := nofun
  fresh := nofun
  past := nofun
  loaded := nofun
  keeps := nofun

variable {hash : S → ID}

/-- An append is at most one sample put, under the series it was accepted as. -/
theorem owner_write (hw : sh.owner.WellFormed) (limits : AppendLimits S) (s : S) (x : Sample F) :
    (sh.owner.appendByID hash window limits s x).2 =
      sh.owner.settle hash x (sh.accepts hash window limits s x) := by
  obtain ⟨hout, hhead⟩ := Head.appendByID_eq hash window limits hw s x
  rw [hhead, accepts, hout, acceptedAs_verdict]

section

variable (h : sh.Tracks hash w)

include h

theorem Tracks.write {x : Sample F} {limits : AppendLimits S} {s : S}
    (hrule : orderedWrites hash window w sh (.write limits s x)) :
    (sh.step hash window (.write limits s x)).Tracks hash w := by
  have howner : (sh.owner.appendByID hash window limits s x).2 =
      sh.owner.settle hash x (sh.accepts hash window limits s x) :=
        owner_write h.owner.wf limits s x
  rw [step, howner]
  cases hacc : sh.accepts hash window limits s x with
  | none =>
    rw [Option.map_none, Option.toList_none, append_nil]
    exact h
  | some s' =>
    obtain ⟨hweight, hflush, hpast⟩ := hrule s' hacc
    obtain ⟨hsound, hbuf⟩ := h.owner.put hweight s'
    rw [Option.map_some, Option.toList_some]
    -- the new sample is newer than all that left the head
    have hmem : ∀ id y, y ∈ (sh.owner.put (hash s') s' x).buffered id →
        y ∈ sh.owner.buffered id ∨ id = hash s' ∧ y = x := by
      intro id y hy
      rw [hbuf, mem_append] at hy
      refine hy.imp_right fun hy => ?_
      split at hy
      · next hid => exact ⟨hid, mem_singleton.mp hy⟩
      · cases hy
    have hgrow : ∀ id y, y ∈ sh.owner.buffered id →
        y ∈ (sh.owner.put (hash s') s' x).buffered id := by
      intro id y hy
      rw [hbuf]
      exact mem_append_left _ hy
    refine
      { h with
        owner := hsound
        flush := fun d hd => ⟨(h.flush d hd).1, fun id hid =>
          h.owner.wf.ref_put ((h.flush d hd).2 id hid) _ _ _⟩
        weights := fun e he => ?_
        accepted := fun e he => ?_
        fresh := fun id y hy z hz => ?_
        past := fun id y hy z hz => ?_ }
    · rcases mem_append.mp he with he | he
      · exact h.weights e he
      · rw [mem_singleton.mp he]
        exact hweight
    · have hold : e ∈ sh.applied ++ sh.stream.map (fun e => (hash e.1, e.2)) ∨
          e = (hash s', x) := by
        rw [map_append, ← append_assoc] at he
        exact (mem_append.mp he).imp_right mem_singleton.mp
      rcases hold with he | rfl
      · refine (h.accepted e he).imp_left fun he => ?_
        exact mem_append.mpr ((mem_append.mp he).imp_right (hgrow e.1 e.2))
      · refine .inl (mem_append_right _ ?_)
        show x ∈ (sh.owner.put (hash s') s' x).buffered (hash s')
        rw [hbuf, if_pos rfl]
        exact mem_append_right _ mem_cons_self
    · rcases hmem id y hy with hy | ⟨rfl, rfl⟩
      · exact h.fresh id y hy z hz
      · exact hflush z hz
    · rcases mem_append.mp hy with hy | hy
      · exact h.past id y (mem_append_left _ hy) z hz
      · rcases hmem id y hy with hy | ⟨rfl, rfl⟩
        · exact h.past id y (mem_append_right _ hy) z hz
        · exact hpast z hz

theorem Tracks.beginFlush : (sh.step hash window .beginFlush).Tracks hash w := by
  rw [step]
  cases hf : sh.flushing with
  | some d => exact h
  | none =>
    cases hd : sh.owner.detach with
    | none => exact h
    | some p =>
      obtain ⟨d, owner⟩ := p
      obtain ⟨hsound, hempty, hsamples, href⟩ := h.owner.detach hd
      have hold := sh.detached_of_none hf
      have hnew :
          ∀ id, ({ sh with owner := owner, flushing := some d } : Shard ID S F).detached id ++
          owner.buffered id = sh.detached id ++ sh.owner.buffered id := by
        intro id
        rw [hempty, hold, append_nil, nil_append, detached, Head.buffered, ← hsamples]
        rfl
      refine
        { h with
          owner := hsound
          flush := fun d' hd' => ?_
          accepted := fun e he => ?_
          fresh := fun id x hx => absurd hx (hempty id ▸ not_mem_nil)
          past := fun id x hx => ?_ }
      · cases hd'
        refine ⟨fun id b hb => h.owner.uniform id b (hsamples ▸ hb), fun id hid => ?_⟩
        obtain ⟨r, hr, -⟩ := (h.owner.held id).mp (hsamples ▸ hid)
        rw [href, hr]
        exact nofun
      · rw [hnew]
        exact h.accepted e he
      · rw [hnew] at hx
        exact h.past id x hx

theorem Tracks.abortFlush : (sh.step hash window .abortFlush).Tracks hash w := by
  rw [step]
  cases hf : sh.flushing with
  | none => exact h
  | some d =>
    obtain ⟨hunif, hknown⟩ := h.flush d hf
    obtain ⟨hsound, hbuf⟩ := h.owner.reattach hunif hknown
    have hnew : ∀ id, ({ sh with owner := sh.owner.reattach d, flushing := none } :
        Shard ID S F).detached id ++ (sh.owner.reattach d).buffered id =
          sh.detached id ++ sh.owner.buffered id := by
      intro id
      rw [hbuf, sh.detached_of_some hf]
      rfl
    refine
      { h with
        owner := hsound
        flush := nofun
        accepted := fun e he => ?_
        fresh := fun id x hx => nofun
        past := fun id x hx => ?_ }
    · rw [hnew]
      exact h.accepted e he
    · rw [hnew] at hx
      exact h.past id x hx

theorem Tracks.publish {outs : List (FlushedPart ID F)} (hvalid : sh.Valid (.publish outs)) :
    (sh.step hash window (.publish outs)).Tracks hash w := by
  have hrows : ∀ id x, HeldBy outs id x ↔ x ∈ sh.detached id := by
    intro id x
    rw [← (hvalid id).mem_iff, mem_map]
    constructor
    · rintro ⟨p, hp, hx⟩
      exact ⟨(id, x), mem_filter.mpr ⟨mem_flatMap.mpr ⟨p, hp, hx⟩, by simp⟩, rfl⟩
    · rintro ⟨row, hrow, rfl⟩
      obtain ⟨hrow, hid⟩ := mem_filter.mp hrow
      obtain ⟨p, hp, hrow⟩ := mem_flatMap.mp hrow
      refine ⟨p, hp, ?_⟩
      rw [← of_decide_eq_true hid]
      exact hrow
  rw [step]
  cases hf : sh.flushing with
  | none => exact h
  | some d =>
    refine
      { h with
        flush := nofun
        accepted := fun e he => ?_
        fresh := fun id x hx => nofun
        past := fun id x hx y hy => ?_
        loaded := fun p hp => mem_append_left _ (h.loaded p hp) }
    · rcases h.accepted e he with hmem | hheld
      · rcases mem_append.mp hmem with hmem | hmem
        · exact .inr (heldBy_append.mpr (.inr ((hrows _ _).mpr hmem)))
        · exact .inl (mem_append_right _ hmem)
      · exact .inr (heldBy_append.mpr (.inl hheld))
    · have hx' : x ∈ sh.owner.buffered id := hx
      rcases heldBy_append.mp hy with hy | hy
      · exact h.past id x (mem_append_right _ hx') y hy
      · exact h.fresh id x hx' y ((hrows _ _).mp hy)

theorem Tracks.apply : (sh.step hash window .apply).Tracks hash w := by
  rw [step]
  cases hstream : sh.stream with
  | nil => exact h
  | cons e rest =>
    obtain ⟨s, x⟩ := e
    have hmem : ∀ e ∈ (s, x) :: rest, e ∈ sh.stream := fun e he => hstream ▸ he
    obtain ⟨hsound, hbuf⟩ := h.replica.put (h.weights (s, x) (hmem _ mem_cons_self)) s
    have hput := h.replica.wf.applyReplicated hash s x
    rw [← hput] at hsound hbuf
    refine
      { h with
        replica := hsound
        weights := fun e he => h.weights e (hmem e (mem_cons_of_mem _ he))
        accepted := fun e he => h.accepted e ?_
        keeps := fun e he => ?_ }
    · rw [hstream, map_cons]
      rw [append_assoc, singleton_append] at he
      exact he
    rcases mem_append.mp he with he | he
    · refine (h.keeps e he).imp_left fun hmem => ?_
      show e.2 ∈ (sh.replica.applyReplicated hash s x).buffered e.1
      rw [hbuf]
      exact mem_append_left _ hmem
    refine .inl ?_
    rw [mem_singleton.mp he]
    show x ∈ (sh.replica.applyReplicated hash s x).buffered (hash s)
    rw [hbuf, if_pos rfl]
    exact mem_append_right _ mem_cons_self

/-- **A refresh drops only what the loaded parts hold.** -/
theorem Tracks.refresh : (sh.step hash window .refresh).Tracks hash w := by
  obtain ⟨hsound, hbuf⟩ := h.replica.trimBelowCovered (coveredBy sh.published)
  -- an accepted sample that no part holds is newer than its series' watermark
  have hkeep : ∀ e ∈ sh.applied, e.2 ∈ sh.replica.buffered e.1 → ¬ HeldBy sh.published e.1 e.2 →
      e.2 ∈ (sh.replica.trimBelowCovered (coveredBy sh.published)).buffered e.1 := by
    intro e he hmem hnot
    rw [hbuf]
    refine mem_filter.mpr ⟨hmem, decide_eq_true fun t ht => ?_⟩
    obtain ⟨p, hp, y, hy, rfl⟩ := exists_row_of_covered ht
    exact h.past e.1 e.2 ((h.accepted e (mem_append_left _ he)).resolve_right hnot) y ⟨p, hp, hy⟩
  have hkeeps : ∀ e ∈ sh.applied, e.2 ∈ sh.refresh.replica.buffered e.1 ∨
      HeldBy sh.published e.1 e.2 := by
    intro e he
    by_cases hheld : HeldBy sh.published e.1 e.2
    · exact .inr hheld
    refine .inl ?_
    have hmem := (h.keeps e he).resolve_right fun ⟨p, hp, hx⟩ => hheld ⟨p, h.loaded p hp, hx⟩
    rw [Shard.refresh]
    dsimp only
    split
    · exact hmem
    · exact hkeep e he hmem hheld
  refine
    { h with
      replica := ?_
      loaded := fun p hp => hp
      keeps := hkeeps }
  show sh.refresh.replica.Sound w
  rw [Shard.refresh]
  dsimp only
  split
  · exact h.replica
  · exact hsound

end

theorem Reached.tracks (h : Reached hash window (orderedWrites hash window w) sh) :
    sh.Tracks hash w := by
  induction h with
  | new => exact tracks_new hash w
  | step _ act hvalid hrule ih =>
    cases act with
    | write limits s x => exact ih.write hrule
    | beginFlush => exact ih.beginFlush
    | abortFlush => exact ih.abortFlush
    | publish outs => exact ih.publish hvalid
    | apply => exact ih.apply
    | refresh => exact ih.refresh

/-- **A refresh loses nothing** when writes are ordered: in every state reached, each sample applied
to the replica is in its head or in a part it loaded. -/
theorem refresh_keeps_samples (h : Reached hash window (orderedWrites hash window w) sh) :
    sh.Keeps :=
  h.tracks.keeps

end Shard

/-! ## A late sample -/

/-- No limits. -/
def AppendLimits.none : AppendLimits S := ⟨0, false, 0, 0, Option.none, 0⟩

namespace Shard

/-- The owner accepted a sample at 100 and is flushing it. -/
def flushing100 : Shard ℕ ℕ ℚ :=
  (new.step id 10 (.write .none 1 ⟨100, 7, 1⟩)).step id 10 .beginFlush

theorem detached_flushing100 (i : ℕ) :
    flushing100.detached i = if i = 1 then [⟨100, 7, 1⟩] else [] := by
  have hflushing : flushing100.flushing = some ⟨update (update (fun _ => none) 1
      (some SampleBuf.empty)) 1 (some ⟨[100], [7], none⟩), 16, 100, true⟩ := rfl
  rw [detached_of_some hflushing]
  by_cases hi : i = 1
  · subst hi
    rfl
  · simp [hi]

/-- The sample at 100 is published, one at `t` accepted; the replica applies both and refreshes. -/
def refreshed (t : ℤ) : Shard ℕ ℕ ℚ :=
  ((((flushing100.step id 10 (.publish [⟨[(1, ⟨100, 7, 1⟩)]⟩])).step id 10
    (.write .none 1 ⟨t, 8, 1⟩)).step id 10 .apply).step id 10 .apply).step id 10 .refresh

theorem valid_publish100 : flushing100.Valid (.publish [⟨[(1, ⟨100, 7, 1⟩)]⟩]) := by
  intro i
  rw [detached_flushing100]
  by_cases hi : i = 1
  · subst hi
    exact .refl _
  have hnil : [(1, (⟨100, 7, 1⟩ : Sample ℚ))].filter (fun row => row.1 = i) = [] := by
    simp [Ne.symm hi]
  rw [if_neg hi]
  show (([(1, (⟨100, 7, 1⟩ : Sample ℚ))].filter fun row => row.1 = i).map Prod.snd).Perm []
  rw [hnil]
  rfl

/-- **A refresh drops a sample that no part holds.**  The sample at 95 is within the window of 10,
and was accepted after the one at 100 was flushed. -/
theorem refresh_drops_late_sample :
    Reached id 10 anyWrites (refreshed 95) ∧ (1, ⟨95, 8, 1⟩) ∈ (refreshed 95).applied ∧
      (refreshed 95).replica.buffered 1 = [] ∧
      ¬ HeldBy (refreshed 95).loaded 1 ⟨95, 8, 1⟩ := by
  have hflushing : Reached id 10 anyWrites flushing100 :=
    .step (.step .new (.write .none 1 ⟨100, 7, 1⟩) trivial trivial) .beginFlush trivial trivial
  refine ⟨.step (.step (.step (.step (.step hflushing _ valid_publish100 trivial)
    (.write .none 1 ⟨95, 8, 1⟩) trivial trivial) .apply trivial trivial) .apply trivial trivial)
    .refresh trivial trivial, by decide +kernel, by decide +kernel, ?_⟩
  rintro ⟨p, hp, hmem⟩
  have hload : (refreshed 95).loaded = [⟨[(1, ⟨100, 7, 1⟩)]⟩] := rfl
  rw [hload] at hp
  rw [mem_singleton.mp hp] at hmem
  exact absurd hmem (by decide +kernel)

/-- With a newer sample instead, it stays in the head. -/
theorem refresh_keeps_newer_sample :
    Reached id 10 (orderedWrites id 10 fun _ => 1) (refreshed 105) ∧ (refreshed 105).Keeps ∧
      (refreshed 105).replica.buffered 1 = [⟨105, 8, 1⟩] := by
  have hflushing : Reached id 10 (orderedWrites id 10 fun _ => 1) flushing100 := by
    refine .step (.step .new (.write .none 1 ⟨100, 7, 1⟩) trivial ?_) .beginFlush trivial trivial
    exact fun s' _ => ⟨rfl, nofun, fun y ⟨p, hp, _⟩ => nomatch hp⟩
  have hreached : Reached id 10 (orderedWrites id 10 fun _ => 1) (refreshed 105) := by
    refine .step (.step (.step (.step (.step hflushing _ valid_publish100 trivial)
      (.write .none 1 ⟨105, 8, 1⟩) trivial ?_) .apply trivial trivial) .apply trivial trivial)
      .refresh trivial trivial
    refine fun s' _ => ⟨rfl, nofun, fun y ⟨p, hp, hy⟩ => ?_⟩
    have hp' : p ∈ [(⟨[(1, ⟨100, 7, 1⟩)]⟩ : FlushedPart ℕ ℚ)] := hp
    rw [mem_singleton.mp hp'] at hy
    rw [(Prod.mk.inj (mem_singleton.mp hy)).2]
    decide
  exact ⟨hreached, refresh_keeps_samples hreached, by decide +kernel⟩

end Shard

end OtelStorage.Metrics
