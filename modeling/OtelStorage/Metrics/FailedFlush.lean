import OtelStorage.Metrics.Weights

/-!
# A failed flush leaves no trace

A flush takes the buffers of the head aside; if it fails they come back, before what was appended in
the meantime.  The head is then compared with the one that saw the same appends and no flush: the
samples of every series, the byte count, the slots of the buffers and the buffered minimum.

The two heads decide alike on every append (`Alike.append`), since a decision reads the index, the
marks and the bytes in flight, and none of the buffers.  What differs is a buffer that a trim has
left without timestamps but with weights: a flush drops it, while without a flush its weights go to
the samples appended next (`failed_flush_changes_weight`).  That is the only difference
(`failed_flush_no_trace_iff`).
-/

namespace OtelStorage.Metrics

open List Function

variable {ID S F : Type*}

/-! ## The measures of a head -/

/-- The columns of the buffers are equally long, and all their timestamps are counted in the
minimum. -/
def Floored (known : Bool) (min : ℤ) (samples : ID → Option (SampleBuf F)) : Prop :=
  ∀ id b, samples id = some b → b.values.length = b.ts.length ∧ ∀ u ∈ b.ts, known = true ∧ min ≤ u

namespace Floored

variable {known : Bool} {m : ℤ} {samples : ID → Option (SampleBuf F)} {b : SampleBuf F}

theorem getD (h : Floored known m samples) (id : ID) :
    ((samples id).getD SampleBuf.empty).values.length =
    ((samples id).getD SampleBuf.empty).ts.length ∧
      ∀ u ∈ ((samples id).getD SampleBuf.empty).ts, known = true ∧ m ≤ u := by
  cases hb : samples id with
  | none => exact ⟨rfl, nofun⟩
  | some b => exact h id b hb

theorem update [DecidableEq ID] (h : Floored known m samples) {id : ID}
    (hb : b.values.length = b.ts.length ∧ ∀ u ∈ b.ts, known = true ∧ m ≤ u) :
    Floored known m (update samples id (some b)) := by
  intro id' b' hb'
  by_cases hid : id' = id
  · subst hid
    rw [update_self, Option.some.injEq] at hb'
    exact hb' ▸ hb
  · rw [update_of_ne hid] at hb'
    exact h id' b' hb'

theorem note (h : Floored known m samples) (t : ℤ) :
    Floored true (if known then min m t else t) samples := by
  intro id b hb
  refine ⟨(h id b hb).1, fun u hu => ⟨rfl, ?_⟩⟩
  obtain ⟨hknown, hle⟩ := (h id b hb).2 u hu
  rw [hknown, if_pos rfl]
  exact (min_le_left m t).trans hle

variable [One F]

theorem ts_mem {x : Sample F} (hx : x ∈ b.samples) : x.ts ∈ b.ts := by
  rw [SampleBuf.samples, ← map_uncurry_zip_eq_zipWith] at hx
  obtain ⟨q, hq, rfl⟩ := mem_map.mp hx
  exact (of_mem_zip (of_mem_zip hq).1).1

variable [DecidableEq F]

theorem length_foldl_appendSample (xs : List (Sample F)) (hb : b.values.length = b.ts.length) :
    (xs.foldl SampleBuf.appendSample b).values.length =
    (xs.foldl SampleBuf.appendSample b).ts.length ∧
      (xs.foldl SampleBuf.appendSample b).ts = b.ts ++ xs.map Sample.ts := by
  induction xs generalizing b with
  | nil => exact ⟨hb, (append_nil _).symm⟩
  | cons x xs ih =>
    obtain ⟨hlen, hts⟩ := ih (b := b.appendSample x) (by simp [SampleBuf.appendSample, hb])
    refine ⟨hlen, ?_⟩
    rw [foldl_cons, hts]
    simp [SampleBuf.appendSample]

theorem rejoined {known' : Bool} {m' m'' : ℤ} {older live : ID → Option (SampleBuf F)}
    (ho : Floored known m older) (hl : Floored known' m' live) (hm : m'' ≤ m)
    (hm' : known' = true → m'' ≤ m') : Floored true m'' (Head.rejoined older live) := by
  have hlive : Floored true m'' live := fun id b hb =>
    ⟨(hl id b hb).1, fun u hu =>
      ⟨rfl, (hm' ((hl id b hb).2 u hu).1).trans ((hl id b hb).2 u hu).2⟩⟩
  intro id b hb
  rw [Head.rejoined] at hb
  cases hoid : older id with
  | none =>
    rw [hoid] at hb
    exact hlive id b hb
  | some b' =>
    simp only [hoid] at hb
    split_ifs at hb with hempty
    · exact hlive id b hb
    obtain ⟨hlen, hts⟩ :=
      length_foldl_appendSample ((live id).elim [] SampleBuf.samples) (ho id b' hoid).1
    rw [← Option.some.inj hb]
    refine ⟨hlen, fun u hu => ⟨rfl, ?_⟩⟩
    rw [hts, mem_append] at hu
    rcases hu with hu | hu
    · exact hm.trans ((ho id b' hoid).2 u hu).2
    obtain ⟨x, hx, rfl⟩ := mem_map.mp hu
    cases hlid : live id with
    | none =>
      rw [hlid] at hx
      cases hx
    | some b'' =>
      rw [hlid] at hx
      exact ((hlive id b'' hlid).2 _ (ts_mem hx)).2

end Floored

namespace Head

theorem foldl_noteBufferedTS_le (ts : List ℤ) (h : Head ID S F) {u : ℤ}
    (hu : u ∈ ts ∨ h.bufferedKnown = true ∧ h.bufferedMin ≤ u) :
    (ts.foldl noteBufferedTS h).bufferedKnown = true ∧
    (ts.foldl noteBufferedTS h).bufferedMin ≤ u := by
  induction ts generalizing h with
  | nil => exact hu.resolve_left not_mem_nil
  | cons t ts ih =>
    rw [foldl_cons]
    refine ih _ ?_
    rw [noteBufferedTS_eq]
    rcases hu with hu | ⟨hknown, hle⟩
    · rcases mem_cons.mp hu with rfl | hu
      · right
        refine ⟨rfl, ?_⟩
        dsimp only
        split_ifs
        · exact min_le_right _ _
        · exact le_rfl
      · exact .inl hu
    · right
      refine ⟨rfl, ?_⟩
      simp only [hknown, if_true]
      exact (min_le_left _ _).trans hle

variable [DecidableEq ID] {h : Head ID S F} {hash : S → ID} {n : ℤ} {flying : ID → Prop}

/-- A head while `n` bytes are being flushed, of buffers of the identities `flying`: its slots lead
to its buffers, its measures count them, and its identities are hashes. -/
structure Counted (hash : S → ID) (n : ℤ) (flying : ID → Prop) (h : Head ID S F) : Prop where
  linked : h.Linked
  floored : Floored h.bufferedKnown h.bufferedMin h.samples
  bytes : 0 < h.bytes → h.bufferedKnown = true
  hashed : ∀ id, h.ref id ≠ none → ∃ s, hash s = id
  detached : h.detachedBytes = n
  known : ∀ id, flying id → h.ref id ≠ none

theorem counted_new : (new : Head ID S F).Counted hash 0 fun _ => False :=
  ⟨linked_new, nofun, fun hlt => absurd hlt (lt_irrefl 0), fun _ hid => absurd rfl hid, rfl, nofun⟩

theorem opened_measures (hw : h.WellFormed) (id : ID) (s : S) :
    (h.opened id s).bufferedMin = h.bufferedMin ∧
    (h.opened id s).bufferedKnown = h.bufferedKnown := by
  have hbuf : ∀ (g : Head ID S F) (k : ℕ), (g.bufForRef id k).2.bufferedMin = g.bufferedMin ∧
      (g.bufForRef id k).2.bufferedKnown = g.bufferedKnown := fun g k => by
    rw [Head.bufForRef]
    cases g.buffers (g.slotAt k) <;> exact ⟨rfl, rfl⟩
  rw [Head.opened]
  obtain ⟨slot, free, next, heq, -⟩ := register_eq hw id s
  simp only [hbuf]
  split_ifs
  · rw [heq]
    exact ⟨rfl, rfl⟩
  · exact ⟨rfl, rfl⟩

theorem Counted.opened (hc : h.Counted hash n flying) (s : S) :
    (h.opened (hash s) s).Counted hash n flying := by
  obtain ⟨hmin, hknown⟩ := opened_measures hc.linked.wf (hash s) s
  refine ⟨hc.linked.opened (hash s) s, ?_, ?_, fun id hid => ?_,
    (hc.linked.wf.opened_fields (hash s) s).2.1.trans hc.detached,
    fun id hid => (hc.linked.wf.ref_opened _ _ s).mpr (.inl (hc.known id hid))⟩
  · rw [hmin, hknown, hc.linked.samples_opened]
    exact hc.floored.update (hc.floored.getD (hash s))
  · rw [hknown, (hc.linked.wf.opened_fields (hash s) s).1]
    exact hc.bytes
  · rcases (hc.linked.wf.ref_opened _ _ s).mp hid with hid | rfl
    · exact hc.hashed id hid
    · exact ⟨s, rfl⟩

theorem Counted.registerSeries (hc : h.Counted hash n flying) (s : S) :
    (h.registerSeries hash s).Counted hash n flying := by
  obtain ⟨hlinked, href, series, stateRefs, free, next, heq⟩ := hc.linked.registerSeries hash s
  refine ⟨hlinked, ?_, ?_, fun id hid => ?_, ?_, fun id hid =>
    (href id).mpr (.inl (hc.known id hid))⟩
  · rw [heq]
    exact hc.floored
  · rw [heq]
    exact hc.bytes
  · rcases (href id).mp hid with hid | rfl
    · exact hc.hashed id hid
    · exact ⟨s, rfl⟩
  · rw [heq]
    exact hc.detached

theorem Counted.trimBelowCovered (hc : h.Counted hash n flying) (covered : ID → Option ℤ) :
    (h.trimBelowCovered covered).Counted hash n flying := by
  have hl := hc.linked.trimBelowCovered covered
  obtain ⟨href, hdetached⟩ : (h.trimBelowCovered covered).ref = h.ref ∧
      (h.trimBelowCovered covered).detachedBytes = h.detachedBytes := by
    obtain ⟨m, k, n, heq⟩ := trimBelowCovered_eq h covered
    rw [heq]
    exact ⟨rfl, rfl⟩
  -- every timestamp left is among those the recount goes through
  have hcount : ∀ id b, trimmed covered h.samples id = some b → ∀ u ∈ b.ts,
      u ∈ ({ h with samples := trimmed covered h.samples } : Head ID S F).bufferIDs.flatMap
        fun id => (trimmed covered h.samples id).elim [] SampleBuf.ts := by
    intro id b hb u hu
    have hmem : id ∈ h.series.map Prod.fst := by
      by_contra hnot
      obtain ⟨r, hr, -⟩ := (hl.held id).mp (by rw [samples_trimBelowCovered, hb]; exact nofun)
      rw [href, ref_eq_none.mpr hnot] at hr
      cases hr
    refine mem_flatMap.mpr ⟨id, mem_filter.mpr ⟨hmem, ?_⟩, ?_⟩
    · exact Option.isSome_iff_exists.mpr ⟨b, hb⟩
    · rw [hb]
      exact hu
  refine ⟨hl, fun id b hb => ?_, fun hlt => ?_, fun id hid => hc.hashed id (href ▸ hid),
    hdetached.trans hc.detached, fun id hid => href ▸ hc.known id hid⟩
  · rw [samples_trimBelowCovered] at hb
    refine ⟨?_, fun u hu => foldl_noteBufferedTS_le _ _ (.inl (hcount id b hb u hu))⟩
    obtain ⟨b', hb', rfl⟩ := Option.map_eq_some_iff.mp hb
    cases covered id with
    | none => exact (hc.floored id b' hb').1
    | some t =>
      show ((b'.ts.zip b'.values).filter _ |>.map Prod.snd).length =
        ((b'.ts.zip b'.values).filter _ |>.map Prod.fst).length
      rw [length_map, length_map]
  obtain ⟨ts, hts⟩ : ∃ ts,
      ts = ({ h with samples := trimmed covered h.samples } : Head ID S F).bufferIDs.flatMap
        fun id => (trimmed covered h.samples id).elim [] SampleBuf.ts := ⟨_, rfl⟩
  have hbytes : (h.trimBelowCovered covered).bytes = ts.length * sampleBytes := by rw [hts]; rfl
  have hne : ts ≠ [] := fun hnil => by
    rw [hbytes, hnil] at hlt
    exact absurd hlt (by decide)
  obtain ⟨u, hu⟩ := exists_mem_of_ne_nil ts hne
  exact (foldl_noteBufferedTS_le _ _ (.inl (hts ▸ hu))).1

variable {d : Detached ID F}

theorem Counted.detach (hc : h.Counted hash 0 fun _ => False) {h' : Head ID S F}
    (hd : h.detach = some (d, h')) : h'.Counted hash d.bytes (fun id => d.samples id ≠ none) ∧
      d.known = true ∧ Floored d.known d.min d.samples := by
  have hlinked := hc.linked.detach hd
  have hrows : h.bufferIDs.any (fun id => (h.samples id).any fun b => !b.ts.isEmpty) = true := by
    rw [Head.detach] at hd
    split at hd
    · assumption
    · cases hd
  obtain ⟨rfl, rfl⟩ := detach_eq hd
  obtain ⟨id, -, hany⟩ := any_eq_true.mp hrows
  obtain ⟨b, hb⟩ : ∃ b, h.samples id = some b := by
    cases hb : h.samples id with
    | none => simp [hb] at hany
    | some b => exact ⟨b, rfl⟩
  obtain ⟨u, hu⟩ := exists_mem_of_ne_nil b.ts (by simpa [hb] using hany)
  refine ⟨⟨hlinked, by rintro id b ⟨⟩, fun hlt => absurd hlt (lt_irrefl 0), hc.hashed, rfl,
    fun id hid => ?_⟩,
    ((hc.floored id b hb).2 u hu).1, hc.floored⟩
  obtain ⟨r, href, -⟩ := (hc.linked.held id).mp hid
  exact fun hnone => by cases href.symm.trans hnone

variable [DecidableEq F] [One F]

theorem Counted.put (hc : h.Counted hash n flying) (s : S) (x : Sample F) :
    (h.put (hash s) s x).Counted hash n flying := by
  have ho := hc.opened s
  refine ⟨hc.linked.put (hash s) s x, ?_, fun _ => rfl, ho.hashed, ho.detached, ho.known⟩
  have hnote := ho.floored.note x.ts
  obtain ⟨hlen, hts⟩ := hnote.getD (hash s)
  refine hnote.update ⟨by simp [SampleBuf.appendSample, hlen], fun u hu => ⟨rfl, ?_⟩⟩
  rcases mem_append.mp hu with hu | hu
  · exact (hts u hu).2
  · rw [mem_singleton.mp hu]
    split_ifs
    · exact min_le_right _ _
    · exact le_rfl

theorem Counted.replaySamplesSF (hc : h.Counted hash n flying) (id : ID) (xs : List (Sample F)) :
    (h.replaySamplesSF id xs).Counted hash n flying := by
  by_cases hid : h.ref id = none
  · rwa [Head.replaySamplesSF, hid]
  obtain ⟨s, rfl⟩ := hc.hashed id hid
  rw [hc.linked.replaySamplesSF_eq hid s]
  have hopened := hc.opened s
  generalize h.opened (hash s) s = g at hopened
  induction xs generalizing g with
  | nil => exact hopened
  | cons x xs ih => exact ih _ (hopened.put s x)

theorem Counted.reattach
    (hc : h.Counted hash d.bytes fun id => d.samples id ≠ none) (hknown : d.known = true)
    (hf : Floored d.known d.min d.samples) : (h.reattach d).Counted hash 0 fun _ => False := by
  refine ⟨hc.linked.reattach hc.known, ?_, fun _ => rfl, hc.hashed, rfl, nofun⟩
  have hcounted : ¬ (!d.known || decide (0 < h.bytes) && !h.bufferedKnown) = true := by
    rw [hknown, Bool.not_true, Bool.false_or, Bool.and_eq_true, decide_eq_true_eq]
    rintro ⟨hlt, hnot⟩
    rw [hc.bytes hlt] at hnot
    cases hnot
  have hmin : (h.reattach d).bufferedMin =
      if !h.bufferedKnown || decide (d.min < h.bufferedMin) then d.min else h.bufferedMin :=
    if_neg hcounted
  rw [hmin]
  refine hf.rejoined hc.floored ?_ fun hlive => ?_
  · split_ifs with hcond
    · exact le_rfl
    · simp only [Bool.or_eq_true, decide_eq_true_eq, not_or, not_lt] at hcond
      exact hcond.2
  · rw [hlive, Bool.not_true, Bool.false_or]
    split_ifs with hlt
    · exact (of_decide_eq_true hlt).le
    · exact le_rfl

end Head

namespace BufferTiers

variable [DecidableEq ID] {hash : S → ID} {t : BufferTiers ID S F}

/-- The head and the flush under way count what they hold. -/
structure Settled (hash : S → ID) (t : BufferTiers ID S F) : Prop where
  head : t.head.Counted hash ((t.flushing.map Detached.bytes).getD 0)
    fun id => ∃ d, t.flushing = some d ∧ d.samples id ≠ none
  flushing : ∀ d, t.flushing = some d → d.known = true ∧ Floored d.known d.min d.samples

theorem Settled.rest (h : t.Settled hash) (hrest : t.flushing = none) :
    t.head.Counted hash 0 fun _ => False := by
  have hhead := h.head
  rw [hrest] at hhead
  exact { hhead with known := nofun }

theorem Settled.flight {d : Detached ID F} (h : t.Settled hash) (hd : t.flushing = some d) :
    t.head.Counted hash d.bytes fun id => d.samples id ≠ none := by
  have hhead := h.head
  rw [hd] at hhead
  exact ⟨hhead.linked, hhead.floored, hhead.bytes, hhead.hashed, hhead.detached,
    fun id hid => hhead.known id ⟨d, rfl, hid⟩⟩

theorem settled_of_rest {recent : Option (ID → Option (SampleBuf F))}
    {accepted : ID → List (Sample F)}
    {head : Head ID S F} (hc : head.Counted hash 0 fun _ => False) :
    (⟨head, none, recent, accepted⟩ : BufferTiers ID S F).Settled hash :=
  ⟨⟨hc.linked, hc.floored, hc.bytes, hc.hashed, hc.detached, fun _ ⟨_, hd, _⟩ => absurd hd nofun⟩,
    nofun⟩

variable [DecidableEq F] [One F]

/-- **Every operation keeps the measures.** -/
theorem Settled.step (h : t.Settled hash) (op : TierOp ID S F) : (t.step hash op).Settled hash := by
  cases op with
  | append window limits s x =>
    obtain ⟨-, hhead⟩ := Head.appendByID_eq hash window limits h.head.linked.wf s x
    refine ⟨?_, h.flushing⟩
    simp only [BufferTiers.step, hhead]
    cases (Head.verdict window limits (t.head.seriesState (hash s)) t.head.inFlightBytes
        t.head.series.length s x.ts).2 with
    | none => exact h.head
    | some s' => exact h.head.put s' x
  | registerSeries s => exact ⟨h.head.registerSeries s, h.flushing⟩
  | replaySamples id xs =>
    refine ⟨?_, h.flushing⟩
    simp only [BufferTiers.step, h.head.linked.replaySamples_eq]
    exact h.head.replaySamplesSF id _
  | replaySamplesSF id xs => exact ⟨h.head.replaySamplesSF id xs, h.flushing⟩
  | detach =>
    rw [BufferTiers.step]
    split
    · next d h' hflushing hd =>
      obtain ⟨hc, hknown, hf⟩ := (h.rest hflushing).detach hd
      refine ⟨{ hc with known := ?_ }, ?_⟩
      · rintro id ⟨_, ⟨⟩, hid⟩
        exact hc.known id hid
      · rintro _ ⟨⟩
        exact ⟨hknown, hf⟩
    · exact h
  | reattach =>
    rw [BufferTiers.step]
    split
    · next d hd =>
      obtain ⟨hknown, hf⟩ := h.flushing d hd
      rw [Head.reattachFlush_eq h.head.linked.wf]
      exact settled_of_rest ((h.flight hd).reattach hknown hf)
    · exact h
  | publish recentWindow =>
    rw [BufferTiers.step]
    split
    · next d hd =>
      have hc := h.flight hd
      exact settled_of_rest
        ⟨⟨hc.linked.wf.remeasure _ _ _ _ _ _, hc.linked.held⟩, hc.floored, hc.bytes,
        hc.hashed, rfl, fun _ => False.elim⟩
    · exact h
  | trimBelowCovered covered => exact ⟨h.head.trimBelowCovered covered, h.flushing⟩
  | trimRecentBelow cutoff => exact ⟨h.head, h.flushing⟩

theorem settled_run (hash : S → ID) (recentOn : Bool) (ops : List (TierOp ID S F)) :
    (run hash recentOn ops).Settled hash := by
  induction ops using List.reverseRecOn with
  | nil => exact settled_of_rest Head.counted_new
  | append_singleton ops op ih =>
    rw [run_concat]
    exact ih.step op

end BufferTiers

/-! ## The two heads -/

namespace Head

variable (h : Head ID S F) (buf : Option (SampleBuf F)) (ys : List (Sample F)) {n : ℤ}
  {flying : ID → Prop} {older : ID → Option (SampleBuf F)} {u v : Head ID S F}

/-- The head without its buffers and measures. -/
def bare : Head ID S F :=
  { h with
    samples := fun _ => none, buffers := fun _ => none, bufferedMin := 0, bufferedKnown := false
    bytes := 0, detachedBytes := 0 }

theorem bare_fillRefs (n : ℕ) (h : Head ID S F) :
    (fillRefs n h).bare = (fillRefs n h.bare).bare := by
  induction n generalizing h with
  | zero => rfl
  | succ n ih =>
    have halloc : h.bare.alloc = (h.alloc.1, h.alloc.2.bare) := by
      rw [alloc, alloc]
      cases hfree : h.free <;> simp [bare, hfree]
    simp only [fillRefs, halloc]
    exact ih { h.alloc.2 with stateRefs := h.alloc.2.stateRefs ++ [h.alloc.1] }

section

variable [DecidableEq F] [One F]

/-- A buffer after more samples; it is made for the first one. -/
def grown : Option (SampleBuf F) :=
  if ys = [] then buf else some (ys.foldl SampleBuf.appendSample (buf.getD SampleBuf.empty))

theorem grown_concat (x : Sample F) :
    some (((grown buf ys).getD SampleBuf.empty).appendSample x) = grown buf (ys ++ [x]) := by
  have hgetD : (grown buf ys).getD SampleBuf.empty =
      ys.foldl SampleBuf.appendSample (buf.getD SampleBuf.empty) := by
    rw [grown]
    split_ifs with hnil
    · rw [hnil]
      rfl
    · rfl
  rw [hgetD, grown, if_neg (concat_ne_nil x ys), foldl_append]
  rfl

theorem samples_grown {b : SampleBuf F} (hts : b.ts = []) (hvalues : b.values.length = b.ts.length)
    (hsf : b.sf.getD [] = []) (ys : List (Sample F)) :
    (ys.foldl SampleBuf.appendSample b).samples = ys := by
  have hholds : b.Holds [] := by
    rw [hts, length_nil, length_eq_zero_iff] at hvalues
    refine ⟨hts, hvalues, ?_⟩
    cases hb : b.sf with
    | none => exact .inr ⟨rfl, nofun⟩
    | some w =>
      rw [hb, Option.getD_some] at hsf
      rw [hsf]
      exact .inl rfl
  exact (hholds.foldl_appendSample ys).samples

theorem elim_grown_none :
    (grown (none : Option (SampleBuf F)) ys).elim [] SampleBuf.samples = ys := by
  rw [grown]
  split_ifs with hnil
  · exact hnil.symm
  · exact samples_grown rfl rfl rfl ys

end

variable [DecidableEq ID]

theorem bare_opened (id : ID) (s : S) : (h.opened id s).bare = (h.bare.opened id s).bare := by
  have hbuf : ∀ (g : Head ID S F) (k : ℕ), (g.bufForRef id k).2.bare = g.bare := fun g k => by
    rw [bufForRef]
    cases g.buffers (g.slotAt k) <;> rfl
  have href : h.bare.ref id = h.ref id := rfl
  simp only [opened, hbuf, href]
  split_ifs
  · exact bare_fillRefs _ _
  · rfl

theorem verdict_bare (window : ℤ) (limits : AppendLimits S) (h : Head ID S F) (id : ID)
    (bytes cardinality : ℤ) (s : S) (ts : ℤ) :
    verdict window limits (h.seriesState id) bytes cardinality s ts =
      verdict window limits (h.bare.seriesState id) bytes cardinality s ts := by
  have href : h.bare.ref id = h.ref id := rfl
  rw [seriesState, seriesState, href]
  cases h.ref id <;> rfl

variable [DecidableEq F] [One F]

theorem bare_put (id : ID) (s : S) (x : Sample F) :
    (h.put id s x).bare = (h.bare.put id s x).bare := by
  have hdeposit : ∀ g : Head ID S F, (g.deposit id (g.slotOf id) x).bare =
      (g.bare.deposit id (g.bare.slotOf id) x).bare := fun _ => rfl
  rw [put, put, hdeposit, hdeposit (h.bare.opened id s), bare_opened]

/-- A head `u`, and the head `v` whose buffers `older` of `n` bytes were taken aside before both saw
the same appends. -/
structure Alike (older : ID → Option (SampleBuf F)) (n : ℤ) (u v : Head ID S F) : Prop where
  bare : v.bare = u.bare
  bytes : u.bytes = v.bytes + n
  samples : ∃ ys : ID → List (Sample F), ∀ id,
    u.samples id = grown (older id) (ys id) ∧ v.samples id = grown none (ys id)

variable {hash : S → ID}

theorem Alike.put (h : Alike older n u v) (hu : u.Linked) (hv : v.Linked) (id : ID) (s : S)
    (x : Sample F) : Alike older n (u.put id s x) (v.put id s x) := by
  have hbytes : ∀ {g : Head ID S F}, g.WellFormed → (g.put id s x).bytes = g.bytes + sampleBytes :=
    fun hg => congrArg (· + sampleBytes) (hg.opened_fields id s).1
  refine ⟨by rw [bare_put, h.bare, ← bare_put], ?_, ?_⟩
  · rw [hbytes hu.wf, hbytes hv.wf, h.bytes, add_right_comm]
  obtain ⟨ys, hys⟩ := h.samples
  refine ⟨update ys id (ys id ++ [x]), fun id' => ?_⟩
  rw [hu.samples_put, hv.samples_put]
  by_cases hid : id' = id
  · subst hid
    rw [update_self, update_self, update_self, (hys id').1, (hys id').2]
    exact ⟨grown_concat _ _ x, grown_concat _ _ x⟩
  · rw [update_of_ne hid, update_of_ne hid, update_of_ne hid]
    exact hys id'

/-- **Both heads decide alike.** -/
theorem Alike.append (h : Alike older n u v) (hu : u.Counted hash 0 fun _ => False)
    (hv : v.Counted hash n flying) (window : ℤ) (limits : AppendLimits S) (s : S) (x : Sample F) :
    Alike older n (u.appendByID hash window limits s x).2
      (v.appendByID hash window limits s x).2 := by
  have hbytes : v.inFlightBytes = u.inFlightBytes := by
    rw [inFlightBytes, inFlightBytes, hu.detached, hv.detached, h.bytes, add_zero]
  have hlen : v.bare.series.length = u.bare.series.length := by rw [h.bare]
  have hlen : v.series.length = u.series.length := hlen
  obtain ⟨-, hhead⟩ := appendByID_eq hash window limits hu.linked.wf s x
  obtain ⟨-, hhead'⟩ := appendByID_eq hash window limits hv.linked.wf s x
  rw [hbytes, hlen, verdict_bare, h.bare, ← verdict_bare] at hhead'
  rw [hhead, hhead']
  cases (verdict window limits
    (u.seriesState (hash s)) u.inFlightBytes u.series.length s x.ts).2 with
  | none => exact h
  | some s' => exact h.put hu.linked hv.linked (hash s') s' x

/-- **A failed flush changes no sample**, if every buffer without rows is without weights. -/
theorem Alike.buffered {d : Detached ID F} (h : Alike older n u v) (hd : d.samples = older)
    (hsized : ∀ id b, older id = some b → b.values.length = b.ts.length)
    (hclean : ∀ id b, older id = some b → b.ts = [] → b.sf.getD [] = []) (id : ID) :
    (v.reattach d).buffered id = u.buffered id := by
  obtain ⟨ys, hys⟩ := h.samples
  rw [Head.buffered, Head.buffered, samples_reattach, rejoined, hd, (hys id).1, (hys id).2]
  cases ho : older id with
  | none => rfl
  | some b =>
    dsimp only
    rw [elim_grown_none]
    split_ifs with hempty
    · have hts := isEmpty_iff.mp hempty
      have hb := samples_grown hts (hsized id b ho) (hclean id b ho hts)
      rw [elim_grown_none, grown]
      split_ifs with hnil
      · rw [Option.elim_some, hnil]
        exact (hb []).symm
      · exact (hb (ys id)).symm
    · rw [grown]
      split_ifs with hnil
      · rw [hnil]
        rfl
      · rfl

end Head

/-! ## Runs with a failed flush -/

/-- An append. -/
def TierOp.isAppend : TierOp ID S F → Bool
  | .append .. => true
  | _ => false

/-- Weights without a row go to the next sample. -/
theorem weights_of_noTrace [DecidableEq F] [One F] {b : SampleBuf F} {x : Sample F}
    (hts : b.ts = []) (hvalues : b.values = [])
    (hsame : (b.appendSample x).samples = [x]) {w : F} {ws : List F} (hsf : b.sf = some (w :: ws)) :
    x.weight = w := by
  simp only [SampleBuf.appendSample, SampleBuf.samples, hts, hvalues, hsf, nil_append,
    Option.getD_some, cons_append, zip_cons_cons, zip_nil_left, zipWith_cons_cons,
    zipWith_nil_left, List.cons.injEq, and_true] at hsame
  exact (congrArg Sample.weight hsame).symm

section

variable [DecidableEq ID] [One F]

/-- The head after a failed flush has the samples and the bytes of the one without, each buffer is
found through its slot, and no buffered timestamp is below the minimum. -/
structure NoTrace (failed undisturbed : Head ID S F) : Prop where
  samples : ∀ id, failed.buffered id = undisturbed.buffered id
  bytes : failed.bytes = undisturbed.bytes
  slots : ∀ id, failed.samples id ≠ none → failed.Held id
  minimum : ∀ id b, failed.samples id = some b → ∀ u ∈ b.ts, failed.bufferedMin ≤ u

theorem BufferTiers.Settled.noTrace_self {hash : S → ID} {t : BufferTiers ID S F}
    (ht : t.Settled hash) : NoTrace t.head t.head :=
  ⟨fun _ => rfl, rfl, fun id => (ht.head.linked.held id).mp,
    fun id b hb u hu => ((ht.head.floored id b hb).2 u hu).2⟩

end

namespace BufferTiers

variable [DecidableEq ID] [DecidableEq F] [One F] {hash : S → ID} {t : BufferTiers ID S F}
  {h : Head ID S F} {d : Detached ID F}

theorem step_append_flushing {op : TierOp ID S F} (hop : op.isAppend = true) :
    (t.step hash op).flushing = t.flushing := by
  cases op with
  | append => rfl
  | _ => cases hop

theorem Settled.appends (ht : t.Settled hash) {appends : List (TierOp ID S F)}
    (happends : ∀ op ∈ appends, op.isAppend = true) :
    (appends.foldl (BufferTiers.step hash) t).Settled hash ∧
      (appends.foldl (BufferTiers.step hash) t).flushing = t.flushing := by
  induction appends generalizing t with
  | nil => exact ⟨ht, rfl⟩
  | cons op appends ih =>
    obtain ⟨hop, happends⟩ := forall_mem_cons.mp happends
    obtain ⟨hs, hf⟩ := ih (ht.step op) happends
    exact ⟨hs, hf.trans (step_append_flushing hop)⟩

theorem step_detach (hrest : t.flushing = none) (hd : t.head.detach = some (d, h)) :
    t.step hash .detach = { t with head := h, flushing := some d } := by
  rw [step, hrest, hd]

theorem Settled.detach_appends (ht : t.Settled hash) (hrest : t.flushing = none)
    (hd : t.head.detach = some (d, h)) {appends : List (TierOp ID S F)}
    (happends : ∀ op ∈ appends, op.isAppend = true) :
    (appends.foldl (BufferTiers.step hash) (t.step hash .detach)).Settled hash ∧
      (appends.foldl (BufferTiers.step hash) (t.step hash .detach)).flushing = some d := by
  obtain ⟨hv, hvd⟩ := (ht.step .detach).appends happends
  exact ⟨hv, hvd.trans (by rw [step_detach hrest hd])⟩

theorem alike_appends (ht : t.Settled hash) (hrest : t.flushing = none)
    (hd : t.head.detach = some (d, h)) {appends : List (TierOp ID S F)}
    (happends : ∀ op ∈ appends, op.isAppend = true) :
    Head.Alike d.samples d.bytes (appends.foldl (step hash) t).head
      (appends.foldl (step hash) (t.step hash .detach)).head := by
  induction appends using List.reverseRecOn with
  | nil =>
    rw [step_detach hrest hd]
    obtain ⟨rfl, rfl⟩ := Head.detach_eq hd
    exact ⟨rfl, (zero_add _).symm, fun _ => [], fun _ => ⟨rfl, rfl⟩⟩
  | append_singleton appends op ih =>
    obtain ⟨hbefore, hop⟩ := forall_mem_append.mp happends
    obtain ⟨hu, hurest⟩ := ht.appends hbefore
    obtain ⟨hv, hvd⟩ := ht.detach_appends hrest hd hbefore
    simp only [foldl_append, foldl_cons, foldl_nil]
    cases op with
    | append window limits s x =>
      exact (ih hbefore).append (hu.rest (hurest.trans hrest)) (hv.flight hvd) window limits s x
    | _ => cases hop _ mem_cons_self

/-- No limit on appends. -/
def unlimited : AppendLimits S := ⟨0, false, 0, 0, none, 0⟩

theorem append_unlimited (hw : h.WellFormed) {s : S} (hid : h.ref (hash s) ≠ none) (x : Sample F) :
    (h.appendByID hash 0 unlimited s x).2 = h.put (hash s) s x := by
  obtain ⟨-, hhead⟩ := Head.appendByID_eq hash 0 unlimited hw s x
  have hlate : ∀ newest, late 0 x.ts newest = false := fun newest => by
    cases newest <;> simp [late]
  rw [hhead]
  simp [Head.verdict, unlimited, hlate, Head.ref_ne_none.mp hid, Head.settle]

/-- Where the next sample reads as it would without the flush, no weights wait for it. -/
theorem Settled.clean [Nontrivial F] (ht : t.Settled hash) (hd : t.head.detach = some (d, h))
    (hsame : ∀ s x, ((h.appendByID hash 0 unlimited s x).2.reattach d).buffered (hash s) =
      (t.head.appendByID hash 0 unlimited s x).2.buffered (hash s)) {id : ID} {b : SampleBuf F}
    (hb : t.head.samples id = some b) (hts : b.ts = []) : b.sf.getD [] = [] := by
  by_contra hne
  obtain ⟨w, ws, hsf⟩ : ∃ w ws, b.sf = some (w :: ws) := by
    cases hsf : b.sf with
    | none => exact absurd (by rw [hsf]; rfl) hne
    | some l =>
      cases l with
      | nil => exact absurd (by rw [hsf]; rfl) hne
      | cons w ws => exact ⟨w, ws, rfl⟩
  have hvalues : b.values = [] := by
    have hlen := (ht.head.floored id b hb).1
    rwa [hts, length_nil, length_eq_zero_iff] at hlen
  obtain ⟨w', hw'⟩ := exists_ne w
  have hlinked := ht.head.linked
  have hlinked' := hlinked.detach hd
  have href : t.head.ref id ≠ none := fun hnone => by
    obtain ⟨r, hr, -⟩ := (hlinked.held id).mp (by rw [hb]; exact Option.some_ne_none b)
    cases hnone.symm.trans hr
  have href' : h.ref id ≠ none := by rwa [(Head.detach_eq hd).2]
  have hlive : h.samples id = none := by rw [(Head.detach_eq hd).2]
  have hsamples : d.samples = t.head.samples := by rw [(Head.detach_eq hd).1]
  obtain ⟨s, rfl⟩ := ht.head.hashed id href
  -- one sample of another weight, to either head
  have hsame := hsame s ⟨0, w', w'⟩
  simp only [append_unlimited hlinked.wf href, append_unlimited hlinked'.wf href', Head.buffered,
    Head.samples_reattach, Head.rejoined, hsamples, hb, hts, isEmpty_nil, if_true,
    hlinked.samples_put, hlinked'.samples_put, update_self, Option.elim_some, Option.getD_some,
    hlive, Option.getD_none] at hsame
  rw [(SampleBuf.holds_empty.appendSample _).samples, nil_append] at hsame
  exact hw' (weights_of_noTrace hts hvalues hsame.symm hsf)

/-- **A failed flush leaves no trace, exactly if there is nothing to flush or no buffer without
timestamps has weights.** -/
theorem failed_flush_no_trace_iff [Nontrivial F] (hash : S → ID) (recentOn : Bool)
    (ops : List (TierOp ID S F)) (hrest : (run hash recentOn ops).flushing = none) :
    (∀ appends : List (TierOp ID S F), (∀ op ∈ appends, op.isAppend = true) →
      NoTrace (run hash recentOn (ops ++ .detach :: appends ++ [.reattach])).head
        (run hash recentOn (ops ++ appends)).head) ↔
      (run hash recentOn ops).head.detach = none ∨
        ∀ id b, (run hash recentOn ops).head.samples id = some b → b.ts = [] →
        b.sf.getD [] = [] := by
  have hsettled := settled_run hash recentOn ops
  have hruns : ∀ appends, run hash recentOn (ops ++ appends) =
      appends.foldl (step hash) (run hash recentOn ops) ∧
      run hash recentOn (ops ++ .detach :: appends ++ [.reattach]) =
        (appends.foldl (step hash) ((run hash recentOn ops).step hash .detach)).step hash
        .reattach :=
    fun appends => by simp [run]
  generalize run hash recentOn ops = t at hsettled hrest hruns
  cases hd : t.head.detach with
  | none =>
    refine iff_of_true (fun appends happends => ?_) (.inl rfl)
    have hstay : t.step hash .detach = t := by rw [step, hrest, hd]
    obtain ⟨hs, hf⟩ := hsettled.appends happends
    rw [(hruns appends).1, (hruns appends).2, hstay, step, hf, hrest]
    exact hs.noTrace_self
  | some p =>
    obtain ⟨d, h⟩ := p
    have hback : ∀ {appends : List (TierOp ID S F)}, (∀ op ∈ appends, op.isAppend = true) →
        (run hash recentOn (ops ++ .detach :: appends ++ [.reattach])).head =
          (appends.foldl (step hash) (t.step hash .detach)).head.reattach d := by
      intro appends happends
      obtain ⟨hv, hvd⟩ := hsettled.detach_appends hrest hd happends
      rw [(hruns appends).2]
      generalize appends.foldl (step hash) (t.step hash .detach) = v at hv hvd
      rw [step, hvd]
      exact Head.reattachFlush_eq hv.head.linked.wf d
    constructor
    · intro hnotrace
      refine .inr fun id b => hsettled.clean hd fun s x => ?_
      have happend : ∀ op ∈ ([.append 0 unlimited s x] : List (TierOp ID S F)),
          op.isAppend = true := forall_mem_singleton.mpr rfl
      have hsame := (hnotrace _ happend).samples (hash s)
      rwa [hback happend, (hruns _).1, step_detach hrest hd] at hsame
    · rintro (hnone | hclean) appends happends
      · cases hnone
      obtain ⟨hv, hvd⟩ := hsettled.detach_appends hrest hd happends
      have halike := alike_appends hsettled hrest hd happends
      obtain ⟨hknown, hf⟩ := hv.flushing d hvd
      have hc := (hv.flight hvd).reattach hknown hf
      rw [hback happends, (hruns appends).1]
      refine ⟨halike.buffered rfl (fun id b hb => (hf id b hb).1) ?_, ?_,
        fun id => (hc.linked.held id).mp, fun id b hb u hu => ((hc.floored id b hb).2 u hu).2⟩
      · rw [(Head.detach_eq hd).1]
        exact hclean
      · exact halike.bytes.symm

/-- Nothing was dropped from these buffers. -/
theorem failed_flush_no_trace_raw :
    let ops : List (TierOp ℕ ℕ ℚ) := [.append 0 unlimited 7 ⟨10, 3, 2⟩]
    let appends : List (TierOp ℕ ℕ ℚ) := [.append 0 unlimited 7 ⟨20, 4, 1⟩]
    NoTrace (run id false (ops ++ .detach :: appends ++ [.reattach])).head
      (run id false (ops ++ appends)).head := by
  intro ops appends
  have hrow : (run id false ops).head.samples 7 = some ⟨[10], [3], some [2]⟩ := by decide +kernel
  have hseries : (run id false ops).head.series.map Prod.fst = [7] := by decide +kernel
  refine (failed_flush_no_trace_iff id false ops rfl).mpr (.inr fun k b hb hts => ?_) appends
    (by decide)
  have hk : k = 7 := by
    obtain ⟨r, href, -⟩ :=
      ((settled_run id false ops).head.linked.held k).mp (by rw [hb]; exact nofun)
    by_contra hne
    rw [Head.ref_eq_none.mpr (by rw [hseries, mem_singleton]; exact hne)] at href
    cases href
  rw [hk, hrow, Option.some.injEq] at hb
  rw [← hb] at hts
  cases hts

/-- **A failed flush changes a weight.**  A trim has dropped the only sample of series 7, whose
weight 2 is left.  The next sample of the series takes it, but not if a flush of another series
fails before. -/
theorem failed_flush_changes_weight :
    let ops : List (TierOp ℕ ℕ ℚ) :=
      [.append 0 unlimited 7 ⟨10, 3, 2⟩, .append 0 unlimited 8 ⟨10, 3, 1⟩,
      .trimBelowCovered fun id => if id = 7 then some 10 else none]
    let appends : List (TierOp ℕ ℕ ℚ) := [.append 0 unlimited 7 ⟨20, 4, 1⟩]
    (run id false ops).flushing = none ∧
      (run id false (ops ++ appends)).head.buffered 7 = [⟨20, 4, 2⟩] ∧
      (run id false (ops ++ .detach :: appends ++ [.reattach])).head.buffered 7 = [⟨20, 4, 1⟩] := by
  decide +kernel

end BufferTiers

end OtelStorage.Metrics
