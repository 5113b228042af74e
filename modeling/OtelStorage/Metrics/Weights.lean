import OtelStorage.Metrics.HeadBuffers

/-!
# Weights stay with their samples

A series has up to three buffers: that of the recent tier, that of the flush under way, and the live
one of the head.  `BufferTiers.step` runs the operations that move samples between them or drop
some. The samples a series has been given are recorded beside the buffers, in their order; the
buffers are *intact* if each one's weights are absent or one a row, and what they hold one after
another is a sublist of the record.

Every operation but one keeps them intact.  `trimBelowCovered` drops timestamps and values and
leaves the weights, so that they move to other samples (`trim_moves_weights`); it keeps the buffers
intact exactly if a buffer it cuts has no weights, and that is the whole condition on a run
(`intact_iff_keepsWeights`).
-/

namespace OtelStorage.Metrics

open List Function Option

variable {ID S F : Type*}

/-- The sample buffers of an engine, and the samples its series were given. -/
structure BufferTiers (ID S F : Type*) where
  head : Head ID S F
  flushing : Option (Detached ID F)
  /-- Absent if the tier is off. -/
  recent : Option (ID → Option (SampleBuf F))
  accepted : ID → List (Sample F)

/-- What changes the buffers. -/
inductive TierOp (ID S F : Type*)
  | append (window : ℤ) (limits : AppendLimits S) (s : S) (x : Sample F)
  | registerSeries (s : S)
  | replaySamples (id : ID) (xs : List (ℤ × F))
  | replaySamplesSF (id : ID) (xs : List (Sample F))
  | detach
  | reattach
  /-- The flush under way succeeds, and the recent tier takes its samples. -/
  | publish (recentWindow : ℤ)
  | trimBelowCovered (covered : ID → Option ℤ)
  | trimRecentBelow (cutoff : ℤ)

/-- Every buffer of the recent tier is cut, and those left without a sample go. -/
def trimRecent (cutoff : ℤ) (recent : ID → Option (SampleBuf F)) (id : ID) : Option (SampleBuf F) :=
  ((recent id).map fun b => b.trimBufBelow cutoff).filter fun b => !b.ts.isEmpty

/-- The oldest timestamp the recent tier keeps.  The difference wraps as a 64-bit integer does. -/
def recentCutoff (recentWindow newest : ℤ) : ℤ :=
  if newest = 0 then 0 else (newest - recentWindow).bmod (2 ^ 64)

section

variable [DecidableEq F] [One F]

/-- The samples of a flush that are in the window join the recent tier, which is then cut. -/
def populateRecent (cutoff : ℤ) (detached recent : ID → Option (SampleBuf F)) :
    ID → Option (SampleBuf F) :=
  trimRecent cutoff fun id =>
    match detached id with
    | none => recent id
    | some buf =>
      some ((buf.samples.filter fun x => cutoff ≤ x.ts).foldl SampleBuf.appendSample
        ((recent id).getD SampleBuf.empty))

namespace BufferTiers

/-- An engine without samples. -/
def new (recentOn : Bool) : BufferTiers ID S F :=
  ⟨.new, none, if recentOn then some fun _ => none else none, fun _ => []⟩

variable [DecidableEq ID]

/-- The samples given to a series, and more. -/
def accept (t : BufferTiers ID S F) (id : ID) (xs : List (Sample F)) : ID → List (Sample F) :=
  update t.accepted id (t.accepted id ++ xs)

/-- The buffers after an operation. -/
def step (hash : S → ID) (t : BufferTiers ID S F) : TierOp ID S F → BufferTiers ID S F
  | .append window limits s x =>
    let answer := t.head.appendByID hash window limits s x
    { t with
      head := answer.2
      accepted :=
        match acceptedAs limits s answer.1.outcome with
        | some s' => t.accept (hash s') [x]
        | none => t.accepted }
  | .registerSeries s => { t with head := t.head.registerSeries hash s }
  | .replaySamples id xs =>
    { t with
      head := t.head.replaySamples id xs
      accepted :=
        if t.head.ref id = none then t.accepted else t.accept id (xs.map fun p => ⟨p.1, p.2, 1⟩) }
  | .replaySamplesSF id xs =>
    { t with
      head := t.head.replaySamplesSF id xs
      accepted := if t.head.ref id = none then t.accepted else t.accept id xs }
  | .detach =>
    match t.flushing, t.head.detach with
    | none, some (d, h) => { t with head := h, flushing := some d }
    | _, _ => t
  | .reattach =>
    match t.flushing with
    | some d => { t with head := t.head.reattachFlush d, flushing := none }
    | none => t
  | .publish recentWindow =>
    match t.flushing with
    | some d =>
      { t with
        head := { t.head with detachedBytes := 0 }
        flushing := none
        recent :=
          t.recent.map (populateRecent (recentCutoff recentWindow t.head.newest) d.samples) }
    | none => t
  | .trimBelowCovered covered => { t with head := t.head.trimBelowCovered covered }
  | .trimRecentBelow cutoff => { t with recent := t.recent.map (trimRecent cutoff) }

/-- The buffers after a run. -/
def run (hash : S → ID) (recentOn : Bool) (ops : List (TierOp ID S F)) : BufferTiers ID S F :=
  ops.foldl (step hash) (new recentOn)

end BufferTiers

end

namespace BufferTiers

/-- The buffers of a series, those with its oldest samples first. -/
def buffers (t : BufferTiers ID S F) (id : ID) : List (SampleBuf F) :=
  (t.recent.bind fun r => r id).toList ++ (t.flushing.bind fun d => d.samples id).toList ++
    (t.head.samples id).toList

/-- The weights are absent or one a row, and every sample is one the series was given. -/
structure Intact [One F] (t : BufferTiers ID S F) : Prop where
  aligned : ∀ id, ∀ b ∈ t.buffers id, b.Aligned
  kept : ∀ id, ((t.buffers id).flatMap SampleBuf.samples).Sublist (t.accepted id)

/-- A trim of the head cuts no buffer that has weights. -/
def KeepsWeights (t : BufferTiers ID S F) : TierOp ID S F → Prop
  | .trimBelowCovered covered => ∀ id b c, t.head.samples id = some b → covered id = some c →
      b.sf = none ∨ ∀ u ∈ b.ts, c < u
  | _ => True

end BufferTiers

/-! ## What an absent buffer holds -/

section

variable [One F] {xs ys : List (Sample F)} {id : ID} {covered : ID → Option ℤ}
  {r : ID → Option (SampleBuf F)}

/-- A buffer holds the samples; an absent one holds none. -/
def BufHolds (o : Option (SampleBuf F)) (xs : List (Sample F)) : Prop :=
  (o.getD SampleBuf.empty).Holds xs

theorem bufHolds_none : BufHolds (none : Option (SampleBuf F)) [] := SampleBuf.holds_empty

theorem BufHolds.nil (h : BufHolds none xs) : xs = [] :=
  map_eq_nil_iff.mp (SampleBuf.Holds.ts h).symm

theorem BufHolds.toList {o : Option (SampleBuf F)} (h : BufHolds o xs) :
    (∀ b ∈ o.toList, b.Aligned) ∧ o.toList.flatMap SampleBuf.samples = xs := by
  cases o with
  | none => exact ⟨nofun, h.nil.symm⟩
  | some b =>
    refine ⟨fun b' hb' => ?_, ?_⟩
    · rw [toList_some, mem_singleton] at hb'
      exact hb' ▸ h.aligned
    · rw [toList_some, flatMap_singleton]
      exact h.samples

theorem BufHolds.trimRecent (h : BufHolds (r id) xs) (cutoff : ℤ) :
    BufHolds (trimRecent cutoff r id) (xs.filter fun x => cutoff ≤ x.ts) := by
  rw [Metrics.trimRecent]
  cases hr : r id with
  | none =>
    rw [hr] at h
    rw [h.nil]
    exact bufHolds_none
  | some b =>
    rw [hr] at h
    have htrim := SampleBuf.Holds.trimBufBelow h cutoff
    rw [map_some, filter_some]
    split_ifs with hempty
    · exact htrim
    have hnil : xs.filter (fun x => cutoff ≤ x.ts) = [] := by
      rw [← map_eq_nil_iff (f := Sample.ts), ← htrim.ts]
      simpa using hempty
    rw [hnil]
    exact bufHolds_none

theorem BufHolds.trimmed {samples : ID → Option (SampleBuf F)} (h : BufHolds (samples id) xs)
    (hkeep : ∀ b c, samples id = some b → covered id = some c → b.sf = none ∨ ∀ u ∈ b.ts, c < u) :
    ∃ zs, BufHolds (Head.trimmed covered samples id) zs ∧ zs.Sublist xs := by
  rw [Head.trimmed]
  cases hb : samples id with
  | none =>
    rw [hb] at h
    exact ⟨xs, h, .refl _⟩
  | some b =>
    rw [hb] at h
    cases hc : covered id with
    | none => exact ⟨xs, h, .refl _⟩
    | some c => exact ⟨_, SampleBuf.Holds.trim h (hkeep b c hb hc), filter_sublist⟩

variable [DecidableEq F]

theorem BufHolds.populateRecent {d : ID → Option (SampleBuf F)}
    (hr : BufHolds (r id) xs) (hd : BufHolds (d id) ys) (cutoff : ℤ) :
    ∃ zs, BufHolds (populateRecent cutoff d r id) zs ∧ zs.Sublist (xs ++ ys) := by
  cases hdid : d id with
  | none =>
    rw [hdid] at hd
    refine ⟨_, BufHolds.trimRecent (show BufHolds _ xs from ?_) cutoff, ?_⟩
    · simpa only [hdid] using hr
    · rw [hd.nil, append_nil]
      exact filter_sublist
  | some b =>
    rw [hdid] at hd
    refine ⟨_, BufHolds.trimRecent
      (show BufHolds _ (xs ++ ys.filter fun x => cutoff ≤ x.ts) from ?_) cutoff, ?_⟩
    · simp only [hdid]
      rw [show b.samples = ys from SampleBuf.Holds.samples hd]
      exact SampleBuf.Holds.foldl_appendSample hr _
    · exact filter_sublist.trans (List.Sublist.append_left filter_sublist xs)

theorem BufHolds.rejoined {older live : ID → Option (SampleBuf F)} (ho : BufHolds (older id) xs)
    (hl : BufHolds (live id) ys) :
    BufHolds (Head.rejoined older live id) (xs ++ ys) := by
  rw [Head.rejoined]
  cases hb : older id with
  | none =>
    rw [hb] at ho
    rwa [ho.nil, nil_append]
  | some b =>
    rw [hb] at ho
    dsimp only
    split_ifs with hempty
    · have hnil : xs = [] := by
        rw [← map_eq_nil_iff (f := Sample.ts), ← SampleBuf.Holds.ts ho]
        exact isEmpty_iff.mp hempty
      rwa [hnil, nil_append]
    have hlive : (live id).elim [] SampleBuf.samples = ys := by
      cases hlid : live id with
      | none =>
        rw [hlid] at hl
        exact hl.nil.symm
      | some b' =>
        rw [hlid] at hl
        exact SampleBuf.Holds.samples hl
    rw [hlive]
    exact SampleBuf.Holds.foldl_appendSample ho ys

end

/-! ## The head's own operations -/

namespace Head

variable [DecidableEq ID] [One F] {xs : ID → List (Sample F)} {id : ID} {r : ℕ}

/-- The head is linked, and its buffers hold the samples recorded. -/
structure Records (h : Head ID S F) (xs : ID → List (Sample F)) : Prop where
  linked : h.Linked
  holds : ∀ id, BufHolds (h.samples id) (xs id)

variable {h : Head ID S F}

theorem Records.registerSeries (hr : h.Records xs) (hash : S → ID) (s : S) :
    (h.registerSeries hash s).Records xs := by
  obtain ⟨hlinked, -, series, stateRefs, free, next, heq⟩ := hr.linked.registerSeries hash s
  refine ⟨hlinked, fun id => ?_⟩
  rw [heq]
  exact hr.holds id

theorem Records.put [DecidableEq F] (hr : h.Records xs) (id : ID) (s : S) (x : Sample F) :
    (h.put id s x).Records (update xs id (xs id ++ [x])) := by
  refine ⟨hr.linked.put id s x, fun id' => ?_⟩
  rw [hr.linked.samples_put]
  by_cases hid : id' = id
  · subst hid
    rw [update_self, update_self]
    exact SampleBuf.Holds.appendSample (hr.holds id') x
  · rw [update_of_ne hid, update_of_ne hid]
    exact hr.holds id'

theorem Records.opened (hr : h.Records xs) (id : ID) (s : S) : (h.opened id s).Records xs := by
  refine ⟨hr.linked.opened id s, fun id' => ?_⟩
  rw [hr.linked.samples_opened]
  by_cases hid : id' = id
  · subst hid
    rw [update_self]
    exact hr.holds id'
  · rw [update_of_ne hid]
    exact hr.holds id'

theorem Records.replaySamplesSF [DecidableEq F] (hr : h.Records xs) (hid : h.ref id ≠ none)
    (ys : List (Sample F)) :
    (h.replaySamplesSF id ys).Records (update xs id (xs id ++ ys)) := by
  obtain ⟨r, href⟩ := ne_none_iff_exists'.mp hid
  rw [hr.linked.replaySamplesSF_eq hid (h.series.get ⟨r, ref_lt href⟩).2]
  generalize (h.series.get ⟨r, ref_lt href⟩).2 = s
  have hopened := hr.opened id s
  clear hr
  generalize h.opened id s = g at hopened
  induction ys generalizing g xs with
  | nil =>
    rw [append_nil, update_eq_self]
    exact hopened
  | cons y ys ih =>
    have hrest := ih _ (hopened.put id s y)
    rwa [update_self, update_idem, append_assoc] at hrest

end Head

/-! ## Runs -/

namespace BufferTiers

variable [DecidableEq ID] [One F] {hash : S → ID} {t : BufferTiers ID S F}
  {recent flushing live : ID → List (Sample F)}

/-- The buffers hold the samples recorded for them, which are among those accepted. -/
structure Tracks (t : BufferTiers ID S F) (recent flushing live : ID → List (Sample F)) : Prop where
  head : t.head.Records live
  known : ∀ d, t.flushing = some d → ∀ id, d.samples id ≠ none → t.head.ref id ≠ none
  flushed : ∀ id, BufHolds (t.flushing.bind fun d => d.samples id) (flushing id)
  mirrored : ∀ id, BufHolds (t.recent.bind fun r => r id) (recent id)
  sublist : ∀ id, (recent id ++ flushing id ++ live id).Sublist (t.accepted id)

theorem tracks_new (recentOn : Bool) :
    (new recentOn : BufferTiers ID S F).Tracks (fun _ => []) (fun _ => []) fun _ => [] := by
  refine ⟨⟨Head.linked_new, fun _ => bufHolds_none⟩, nofun, fun _ => bufHolds_none, fun _ => ?_,
    fun _ => .refl _⟩
  cases recentOn <;> exact bufHolds_none

theorem Tracks.intact (h : t.Tracks recent flushing live) : t.Intact := by
  refine ⟨fun id b hb => ?_, fun id => ?_⟩
  · rcases mem_append.mp hb with hb | hb
    · rcases mem_append.mp hb with hb | hb
      · exact (h.mirrored id).toList.1 b hb
      · exact (h.flushed id).toList.1 b hb
    · exact (h.head.holds id).toList.1 b hb
  · rw [buffers, flatMap_append, flatMap_append, (h.mirrored id).toList.2,
      (h.flushed id).toList.2, (h.head.holds id).toList.2]
    exact h.sublist id

theorem Tracks.accept (h : t.Tracks recent flushing live) {xs : List (Sample F)}
    {head : Head ID S F} {id : ID}
    (hrec : head.Records (update live id (live id ++ xs)))
    (href : ∀ id, t.head.ref id ≠ none → head.ref id ≠ none) :
    ({ t with head := head, accepted := t.accept id xs } : BufferTiers ID S F).Tracks
    recent flushing
      (update live id (live id ++ xs)) := by
  refine ⟨hrec, fun d hd id' hid' => href id' (h.known d hd id' hid'), h.flushed, h.mirrored,
    fun id' => ?_⟩
  show (recent id' ++ flushing id' ++ update live id (live id ++ xs) id').Sublist
    (update t.accepted id (t.accepted id ++ xs) id')
  by_cases hid : id' = id
  · subst hid
    rw [update_self, update_self, ← append_assoc]
    exact (h.sublist id').append (.refl xs)
  · rw [update_of_ne hid, update_of_ne hid]
    exact h.sublist id'

variable [DecidableEq F]

section

variable (h : t.Tracks recent flushing live) {op : TierOp ID S F}

include h

theorem Tracks.append (window : ℤ) (limits : AppendLimits S) (s : S) (x : Sample F) :
    ∃ live, (t.step hash (.append window limits s x)).Tracks recent flushing live := by
  obtain ⟨hout, hhead⟩ := Head.appendByID_eq hash window limits h.head.linked.wf s x
  simp only [BufferTiers.step, hout, hhead, acceptedAs_verdict]
  cases (Head.verdict window limits (t.head.seriesState (hash s)) t.head.inFlightBytes
      t.head.series.length s x.ts).2 with
  | some s' =>
    exact ⟨_, h.accept (h.head.put (hash s') s' x) fun id hid => h.head.linked.wf.ref_put hid _ _ _⟩
  | none => exact ⟨_, h⟩

theorem Tracks.replay (id : ID) (xs : List (Sample F)) :
    ∃ live, ({ t with
      head := t.head.replaySamplesSF id xs
      accepted := if t.head.ref id = none then t.accepted else t.accept id xs } :
        BufferTiers ID S F).Tracks recent flushing live := by
  by_cases href : t.head.ref id = none
  · have hsame : t.head.replaySamplesSF id xs = t.head := by rw [Head.replaySamplesSF, href]
    rw [if_pos href, hsame]
    exact ⟨_, h⟩
  · rw [if_neg href]
    exact ⟨_, h.accept (h.head.replaySamplesSF href xs) fun id' hid' =>
      h.head.linked.ref_replaySamplesSF hid' id xs⟩

theorem Tracks.detach : ∃ flushing live, (t.step hash .detach).Tracks recent flushing live := by
  rw [BufferTiers.step]
  split
  · next d h' hflushing hd =>
    have hlinked := h.head.linked.detach hd
    obtain ⟨rfl, rfl⟩ := Head.detach_eq hd
    refine ⟨live, fun _ => [], ⟨hlinked, fun _ => bufHolds_none⟩, ?_, h.head.holds, h.mirrored,
      fun id => ?_⟩
    · rintro d ⟨⟩ id hid
      obtain ⟨r, href, -⟩ := (h.head.linked.held id).mp hid
      exact fun hnone => absurd (href.symm.trans hnone) nofun
    have hnil : flushing id = [] := by
      have := h.flushed id
      rw [hflushing] at this
      exact this.nil
    have hsub := h.sublist id
    rwa [hnil, append_nil, ← append_nil (recent id ++ live id)] at hsub
  · exact ⟨_, _, h⟩

theorem Tracks.reattach : ∃ flushing live, (t.step hash .reattach).Tracks recent flushing live := by
  rw [BufferTiers.step]
  split
  · next d hd =>
    have hback := fun id => h.flushed id
    rw [hd] at hback
    rw [Head.reattachFlush_eq h.head.linked.wf]
    refine ⟨fun _ => [], fun id => flushing id ++ live id,
      ⟨h.head.linked.reattach (h.known d hd), fun id => ?_⟩, nofun, fun _ => bufHolds_none,
      h.mirrored,
      fun id => ?_⟩
    · rw [Head.samples_reattach]
      exact (show BufHolds (d.samples id) (flushing id) from hback id).rejoined (h.head.holds id)
    · rw [append_nil, ← append_assoc]
      exact h.sublist id
  · exact ⟨_, _, h⟩

theorem Tracks.publish (recentWindow : ℤ) :
    ∃ recent flushing, (t.step hash (.publish recentWindow)).Tracks recent flushing live := by
  rw [BufferTiers.step]
  split
  · next d hd =>
    have hflushed := fun id => h.flushed id
    rw [hd] at hflushed
    have hhead : ({ t.head with detachedBytes := 0 } : Head ID S F).Records live :=
      ⟨⟨h.head.linked.wf.remeasure _ _ _ _ _ _, h.head.linked.held⟩, h.head.holds⟩
    have hpub : ∀ id, ∃ zs, BufHolds ((t.recent.map (populateRecent
        (recentCutoff recentWindow t.head.newest) d.samples)).bind fun r => r id) zs ∧
          zs.Sublist (recent id ++ flushing id) := by
      intro id
      have hrecent := h.mirrored id
      cases hr : t.recent with
      | none => exact ⟨[], bufHolds_none, nil_sublist _⟩
      | some r =>
        rw [hr] at hrecent
        exact BufHolds.populateRecent (r := r) hrecent (hflushed id) _
    choose recent' hholds hsub using hpub
    refine ⟨recent', fun _ => [], hhead, nofun, fun _ => bufHolds_none, hholds, fun id => ?_⟩
    rw [append_nil]
    exact ((hsub id).append_right _).trans (h.sublist id)
  · exact ⟨_, _, h⟩

theorem Tracks.trimBelowCovered {covered : ID → Option ℤ}
    (hkeep : t.KeepsWeights (.trimBelowCovered covered)) :
    ∃ live, (t.step hash (.trimBelowCovered covered)).Tracks recent flushing live := by
  have htrim : ∀ id, ∃ zs, BufHolds ((t.head.trimBelowCovered covered).samples id) zs ∧
      zs.Sublist (live id) := fun id => by
    rw [Head.samples_trimBelowCovered]
    exact (h.head.holds id).trimmed fun b c => hkeep id b c
  have href : (t.head.trimBelowCovered covered).ref = t.head.ref := by
    obtain ⟨m, k, n, heq⟩ := Head.trimBelowCovered_eq t.head covered
    rw [heq]
    rfl
  choose live' hholds hsub using htrim
  refine ⟨live', ⟨h.head.linked.trimBelowCovered covered, hholds⟩, fun d hd id hid => ?_, h.flushed,
    h.mirrored, fun id => ((hsub id).append_left _).trans (h.sublist id)⟩
  show (t.head.trimBelowCovered covered).ref id ≠ none
  rw [href]
  exact h.known d hd id hid

theorem Tracks.trimRecentBelow (cutoff : ℤ) :
    ∃ recent, (t.step hash (.trimRecentBelow cutoff)).Tracks recent flushing live := by
  refine ⟨fun id => (recent id).filter fun x => cutoff ≤ x.ts, h.head, h.known, h.flushed,
    fun id => ?_,
    fun id => ?_⟩
  · have hrecent := h.mirrored id
    rw [BufferTiers.step]
    cases hr : t.recent with
    | none =>
      rw [hr] at hrecent
      rw [hrecent.nil]
      exact bufHolds_none
    | some r =>
      rw [hr] at hrecent
      exact BufHolds.trimRecent (r := r) hrecent cutoff
  · exact ((filter_sublist.append_right _).append_right _).trans (h.sublist id)

/-- **An operation that moves no weight from its sample keeps the record.** -/
theorem Tracks.step (hkeep : t.KeepsWeights op) :
    ∃ recent flushing live, (t.step hash op).Tracks recent flushing live := by
  cases op with
  | append window limits s x => exact ⟨_, _, h.append window limits s x⟩
  | registerSeries s =>
    obtain ⟨-, href, -⟩ := h.head.linked.registerSeries hash s
    exact ⟨_, _, _, h.head.registerSeries hash s,
      fun d hd id hid => (href id).mpr (.inl (h.known d hd id hid)), h.flushed, h.mirrored,
      h.sublist⟩
  | replaySamples id xs =>
    rw [BufferTiers.step, h.head.linked.replaySamples_eq]
    exact ⟨_, _, h.replay id _⟩
  | replaySamplesSF id xs => exact ⟨_, _, h.replay id xs⟩
  | detach => exact ⟨_, h.detach⟩
  | reattach => exact ⟨_, h.reattach⟩
  | publish recentWindow =>
    obtain ⟨recent, flushing, h⟩ := h.publish recentWindow
    exact ⟨_, _, _, h⟩
  | trimBelowCovered covered => exact ⟨_, _, h.trimBelowCovered hkeep⟩
  | trimRecentBelow cutoff =>
    obtain ⟨recent, h⟩ := h.trimRecentBelow cutoff
    exact ⟨_, _, _, h⟩

/-- **An operation after which the buffers are intact has moved no weight.** -/
theorem Tracks.keepsWeights (hintact : (t.step hash op).Intact) : t.KeepsWeights op := by
  cases op with
  | trimBelowCovered covered =>
    intro id b c hb hc
    have hmem : b.trim c ∈ (t.step hash (.trimBelowCovered covered)).buffers id := by
      refine mem_append_right _ (mem_toList.mpr ?_)
      show (t.head.trimBelowCovered covered).samples id = some (b.trim c)
      rw [Head.samples_trimBelowCovered, Head.trimmed, hb, hc]
      rfl
    have hholds := h.head.holds id
    rw [hb] at hholds
    exact (SampleBuf.Holds.aligned_trim_iff hholds c).mp (hintact.aligned id _ hmem)
  | _ => trivial

end

theorem run_concat (recentOn : Bool) (ops : List (TierOp ID S F)) (op : TierOp ID S F) :
    run hash recentOn (ops ++ [op]) = (run hash recentOn ops).step hash op := by
  simp [run]

theorem exists_tracks {recentOn : Bool} {ops : List (TierOp ID S F)}
    (hkeep : ∀ done op, done ++ [op] <+: ops → (run hash recentOn done).KeepsWeights op) :
    ∃ recent flushing live, (run hash recentOn ops).Tracks recent flushing live := by
  induction ops using List.reverseRecOn with
  | nil => exact ⟨_, _, _, tracks_new recentOn⟩
  | append_singleton ops op ih =>
    obtain ⟨recent, flushing, live, h⟩ := ih fun done op' hpre =>
      hkeep done op' (hpre.trans (prefix_append _ _))
    rw [run_concat]
    exact h.step (hkeep ops op (prefix_refl _))

/-- **Weights stay with their samples in every state of a run, exactly if every trim of the head in
it cuts only buffers without weights.** -/
theorem intact_iff_keepsWeights (hash : S → ID) (recentOn : Bool) (ops : List (TierOp ID S F)) :
    (∀ done, done <+: ops → (run hash recentOn done).Intact) ↔
      ∀ done op, done ++ [op] <+: ops → (run hash recentOn done).KeepsWeights op := by
  constructor
  · induction ops using List.reverseRecOn with
    | nil =>
      intro _ done op hpre
      exact absurd (prefix_nil.mp hpre) (concat_ne_nil op done)
    | append_singleton ops op ih =>
      intro hintact done op' hpre
      have hkeep := ih fun done hdone => hintact done (hdone.trans (prefix_append _ _))
      rcases prefix_concat_iff.mp hpre with heq | hpre
      · obtain ⟨rfl, hop⟩ := append_inj' heq rfl
        obtain ⟨recent, flushing, live, h⟩ := exists_tracks hkeep
        have hafter := hintact _ (prefix_refl _)
        rw [run_concat] at hafter
        exact singleton_inj.mp hop ▸ h.keepsWeights hafter
      · exact hkeep done op' hpre
  · intro hkeep done hdone
    obtain ⟨recent, flushing, live, h⟩ := exists_tracks fun done' op hpre =>
      hkeep done' op (hpre.trans hdone)
    exact h.intact

/-- **A trim moves weights.**  Of two samples weighing 2 and 5 the first is dropped, and the second
is left with the weight 2 and a column of two weights for one row. -/
theorem trim_moves_weights :
    let limits : AppendLimits ℕ := ⟨0, false, 0, 0, none, 0⟩
    let done : List (TierOp ℕ ℕ ℚ) := [.append 0 limits 7 ⟨10, 3, 2⟩, .append 0 limits 7 ⟨20, 4, 5⟩,
      .trimBelowCovered fun id => if id = 7 then some 10 else none]
    let t : BufferTiers ℕ ℕ ℚ := run id false done
    t.head.samples 7 = some ⟨[20], [4], some [2, 5]⟩ ∧ ¬ t.Intact := by
  intro limits done t
  have hbuf : t.head.samples 7 = some ⟨[20], [4], some [2, 5]⟩ := by decide +kernel
  refine ⟨hbuf, fun hintact => ?_⟩
  have hmem : (⟨[20], [4], some [2, 5]⟩ : SampleBuf ℚ) ∈ t.buffers 7 :=
    mem_append_right _ (mem_toList.mpr hbuf)
  exact absurd ((hintact.aligned 7 _ hmem).sf _ rfl) (by decide)

end BufferTiers

end OtelStorage.Metrics
