import OtelStorage.Wal.Walk

/-!
# Salvaging a segment

A salvaging walk whose handlers and reports do not fail comes to an end, and what it stepped over
tiles the part of the segment it walked: every byte belongs to just one frame or one reported
region, in order, and every frame it stepped over checks.  It stops early only at the start of
something cut short with nothing to trust behind it.

A walk is followed through the suffixes of the segment.  At a suffix it either ends, steps over a
frame, or reports a region and goes on at a trusted frame; `salvaged_walkFrom` is the induction on
the suffix that puts the steps together.
-/

namespace OtelStorage.Wal

open Delimited Wire List

/-! ## Tilings -/

/-- The steps cover the bytes from `a` to `b`, one behind another, none empty. -/
def Tiles : ℕ → List Step → ℕ → Prop
  | a, [], b => a = b
  | a, t :: l, b => t.off = a ∧ 0 < t.size ∧ Tiles (a + t.size) l b

section

variable {a b : ℕ} {l : List Step} (h : Tiles a l b)

include h

theorem Tiles.le : a ≤ b := by
  induction l generalizing a with
  | nil => exact Nat.le_of_eq h
  | cons t l ih => exact Nat.le_trans (Nat.le_add_right a t.size) (ih h.2.2)

theorem Tiles.bounds {t : Step} (ht : t ∈ l) : a ≤ t.off ∧ t.off + t.size ≤ b := by
  induction l generalizing a with
  | nil => cases ht
  | cons t' l ih =>
    obtain ⟨hoff, -, hrest⟩ := h
    rcases mem_cons.mp ht with rfl | ht
    · exact ⟨Nat.le_of_eq hoff.symm, by rw [hoff]; exact hrest.le⟩
    · have hbounds := ih hrest ht
      omega

/-- Tiles do not overlap and come in order. -/
theorem Tiles.pairwise : l.Pairwise fun t u => t.off + t.size ≤ u.off := by
  induction l generalizing a with
  | nil => exact .nil
  | cons t l ih =>
    obtain ⟨hoff, -, hrest⟩ := h
    refine List.Pairwise.cons (fun u hu => ?_) (ih hrest)
    rw [hoff]
    exact (hrest.bounds hu).1

/-- Tiles cover every byte between the ends, and no other. -/
theorem Tiles.covers (x : ℕ) : (a ≤ x ∧ x < b) ↔ ∃ t ∈ l, t.off ≤ x ∧ x < t.off + t.size := by
  constructor
  · intro hx
    induction l generalizing a with
    | nil =>
      have heq : a = b := h
      omega
    | cons t l ih =>
      obtain ⟨hoff, -, hrest⟩ := h
      by_cases hlt : x < a + t.size
      · exact ⟨t, mem_cons_self, by omega, by omega⟩
      · obtain ⟨u, hu, hcov⟩ := ih hrest ⟨by omega, hx.2⟩
        exact ⟨u, mem_cons_of_mem t hu, hcov⟩
  · rintro ⟨t, ht, hcov⟩
    have hbounds := h.bounds ht
    omega

end

/-! ## What a search finds -/

section

variable {crc : Bytes → UInt32} {budget left : ℤ} {bs : Bytes}

theorem trusted_iff {src : Bytes} : trusted crc src = true ↔
    ∃ f, readFrame crc src = .ok f ∧
      (f.size = src.length ∨ ∃ g, readFrame crc (src.drop f.size) = .ok g) := by
  rw [trusted]
  cases hread : readFrame crc src with
  | error e => exact ⟨nofun, fun ⟨_, h, _⟩ => nomatch h⟩
  | ok f =>
    dsimp only
    rw [Bool.or_eq_true, beq_iff_eq]
    constructor
    · rintro (hend | hnext)
      · exact ⟨f, rfl, .inl hend⟩
      · cases hg : readFrame crc (src.drop f.size) with
        | error e =>
          rw [hg] at hnext
          cases hnext
        | ok g => exact ⟨f, rfl, .inr ⟨g, hg⟩⟩
    · rintro ⟨f', heq, hf⟩
      cases heq
      rcases hf with hend | ⟨g, hg⟩
      · exact .inl hend
      · right
        rw [hg]
        rfl

theorem resync_trusted {next : Bytes}
    (h : resync crc bs budget = (some next, left)) : trusted crc next = true := by
  induction bs generalizing budget with
  | nil => cases h
  | cons b bs ih =>
    rw [resync] at h
    split at h
    · exact ih h
    dsimp only at h
    split at h
    · cases h
    split at h
    · next ht =>
      cases h
      exact ht
    · exact ih h

theorem resync_none (h : resync crc bs budget = (none, left))
    (hleft : 0 ≤ left) {t : Bytes} (ht : t <:+ bs) : trusted crc t = false := by
  induction bs generalizing budget with
  | nil =>
    cases suffix_nil.mp ht
    rfl
  | cons b bs ih =>
    have hstep : trusted crc (b :: bs) = false ∧ ∃ mid, resync crc bs mid = (none, left) := by
      rw [resync] at h
      split at h
      · next hnone =>
        refine ⟨?_, budget, h⟩
        rw [trusted, readFrame_of_none hnone]
      dsimp only at h
      split at h
      · cases h
        omega
      · split at h
        · cases h
        · next hfalse => exact ⟨eq_false_of_ne_true hfalse, _, h⟩
    rcases suffix_cons_iff.mp ht with rfl | ht
    · exact hstep.1
    · obtain ⟨mid, hmid⟩ := hstep.2
      exact ih hmid ht

end

/-! ## Handlers and reports that do not fail -/

section

variable {σ E : Type} {report : Report σ E} {h : Option (Handlers σ E)} {data : Bytes}

/-- No handler returns an error of its own. -/
structure Handlers.Quiet (h : Handlers σ E) : Prop where
  series : ∀ f ∈ h.onSeries, ∀ id ser s, ∃ s', f id ser s = .ok s'
  samples : ∀ f ∈ h.onSamples, ∀ id ts vs s, ∃ s', f id ts vs s = .ok s'
  samplesSF : ∀ f ∈ h.onSamplesSF, ∀ id ts vs sf s, ∃ s', f id ts vs sf s = .ok s'
  records : ∀ f ∈ h.onRecords, ∀ id blob s, ∃ s', f id blob s = .ok s'
  side : ∀ f ∈ h.onSide, ∀ blob s, ∃ s', f blob s = .ok s'

theorem handle_quiet {α : Type} (parsed : Except String α) {f : α → σ → Except E σ} {s : σ}
    (hf : ∀ a, ∃ s', f a s = .ok s') :
    (∃ s', handle parsed f s = .ok s') ∨ ∃ msg, handle parsed f s = .error (.decode msg) := by
  cases parsed with
  | error msg => exact .inr ⟨msg, rfl⟩
  | ok a =>
    obtain ⟨s', hs'⟩ := hf a
    refine .inl ⟨s', ?_⟩
    dsimp only [handle]
    rw [hs']
    rfl

theorem dispatch_quiet {h : Handlers σ E} (hq : h.Quiet) (typ : Byte) (payload : Bytes) (s : σ) :
    (∃ s', dispatch typ payload h s = .ok s') ∨
      ∃ msg, dispatch typ payload h s = .error (.decode msg) := by
  rw [dispatch]
  split
  · split
    · exact .inl ⟨s, rfl⟩
    · next f hf => exact handle_quiet _ fun p => hq.series f hf p.1 p.2 s
  split
  · split
    · exact .inl ⟨s, rfl⟩
    · next f hf => exact handle_quiet _ fun p => hq.samples f hf p.1 _ _ s
  split
  · refine handle_quiet _ fun p => ?_
    split
    · next _ f hf => exact hq.samplesSF f hf p.1 _ _ _ s
    · next f _ hf => exact hq.samples f hf p.1 _ _ s
    · exact ⟨s, rfl⟩
  split
  · split
    · exact .inl ⟨s, rfl⟩
    · next f hf => exact handle_quiet _ fun p => hq.records f hf p.1 p.2 s
  split
  · split
    · exact .inl ⟨s, rfl⟩
    next f hf =>
    obtain ⟨s', hs'⟩ := hq.side f hf payload s
    refine .inl ⟨s', ?_⟩
    rw [hs']
    rfl
  · exact .inl ⟨s, rfl⟩

/-- What a step of the walk did to the state: a frame was handed to the handlers, if any; a payload
that does not decode and a region that could not be read were reported. -/
def Performed (h : Option (Handlers σ E)) (report : Report σ E) (s : σ) : Step → σ → Prop
  | .frame _ f, s' => match h with
      | none => s' = s
      | some h => dispatch f.typ f.payload h s = .ok s'
  | .undecodable off f msg, s' =>
      (∃ h' ∈ h, dispatch f.typ f.payload h' s = .error (.decode msg)) ∧
        report off f.size (.decode msg) s = .ok s'
  | .unreadable off n d, s' => report off n d s = .ok s'

/-- The steps, done one after another. -/
def PerformedAll (h : Option (Handlers σ E)) (report : Report σ E) : σ → List Step → σ → Prop
  | s, [], s' => s = s'
  | s, t :: l, s' => ∃ mid, Performed h report s t mid ∧ PerformedAll h report mid l s'

/-- The frame a step stepped over, if it was one. -/
def Step.frame? : Step → Option Frame
  | .frame _ f => some f
  | .undecodable _ f _ => some f
  | .unreadable _ _ _ => none

theorem dispatchFrame_quiet
    (hq : ∀ h' ∈ h, h'.Quiet) (hreport : ∀ off n d s, ∃ s', report off n d s = .ok s') (off : ℕ)
    (f : Frame) (s : σ) : ∃ s' step, dispatchFrame h (some report) off f s = .ok (s', step) ∧
      step.off = off ∧ step.frame? = some f ∧ step.size = f.size ∧
      Performed h report s step s' := by
  cases h with
  | none => exact ⟨s, .frame off f, rfl, rfl, rfl, rfl, rfl⟩
  | some h =>
    rcases dispatch_quiet (hq h rfl) f.typ f.payload s with ⟨s', hs'⟩ | ⟨msg, hmsg⟩
    · refine ⟨s', .frame off f, ?_, rfl, rfl, rfl, hs'⟩
      rw [dispatchFrame, hs']
    obtain ⟨s', hs'⟩ := hreport off f.size (.decode msg) s
    refine ⟨s', .undecodable off f msg, ?_, rfl, rfl, rfl, ⟨h, rfl, hmsg⟩, hs'⟩
    rw [dispatchFrame, hmsg]
    dsimp only
    rw [hs']

/-! ## The walk -/

/-- What is known of a salvaging walk of `data` that started at offset `a` in state `s`. -/
structure Salvaged (crc : Bytes → UInt32) (h : Option (Handlers σ E)) (report : Report σ E)
    (data : Bytes) (a : ℕ) (s : σ) (w : Walked σ E) : Prop where
  error : w.error = none
  tiles : Tiles a w.steps w.offset
  frame : ∀ t ∈ w.steps, ∀ f, t.frame? = some f → readFrame crc (data.drop t.off) = .ok f
  performed : PerformedAll h report s w.steps w.state
  stop : w.offset ≤ data.length
  torn : w.offset < data.length → readFrame crc (data.drop w.offset) = .error .eof ∧
    ∃ budget, resync crc (data.drop (w.offset + 1)) budget = (none, w.budget)

theorem Salvaged.after {crc : Bytes → UInt32} {a : ℕ} {s mid : σ} {w : Walked σ E} {t : Step}
    (hw : Salvaged crc h report data (a + t.size) mid w) (hoff : t.off = a) (hsize : 0 < t.size)
    (hframe : ∀ f, t.frame? = some f → readFrame crc (data.drop a) = .ok f)
    (hdone : Performed h report s t mid) : Salvaged crc h report data a s (w.after t) := { hw with
  tiles := ⟨hoff, hsize, hw.tiles⟩
  frame := by
    intro u hu f hf
    rcases mem_cons.mp hu with rfl | hu
    · rw [hoff]
      exact hframe f hf
    · exact hw.frame u hu f hf
  performed := ⟨mid, hdone, hw.performed⟩ }

theorem drop_of_suffix {rest : Bytes} (h : rest <:+ data) :
    data.drop (data.length - rest.length) = rest := (suffix_iff_eq_drop.mp h).symm

/-- **A salvaging walk ends, and its steps tile what it walked.** -/
theorem salvaged_walkFrom (crc : Bytes → UInt32) (hq : ∀ h' ∈ h, h'.Quiet)
    (hreport : ∀ off n d s, ∃ s', report off n d s = .ok s') (data : Bytes) :
    ∀ (k : ℕ) (rest : Bytes), rest.length = k → rest <:+ data → ∀ (budget : ℤ) (s : σ),
      Salvaged crc h report data (data.length - rest.length) s
        (walkFrom crc h (some report) data.length rest budget s) := by
  intro k
  induction k using Nat.strong_induction_on with
  | _ k ih =>
    intro rest hk hsuffix budget s
    have hle := hsuffix.length_le
    by_cases hrest : rest = []
    · subst hrest
      rw [walkFrom_nil]
      exact ⟨rfl, rfl, nofun, rfl, Nat.le_refl _, fun hlt => absurd hlt (Nat.lt_irrefl _)⟩
    have hpos := length_pos_iff.mpr hrest
    have hdrop := drop_of_suffix hsuffix
    cases hread : readFrame crc rest with
    | ok f =>
      have hsize := readFrame_size hread
      obtain ⟨s', t, hdispatch, hoff, hframe, htsize, hdone⟩ :=
        dispatchFrame_quiet hq hreport (data.length - rest.length) f s
      have hlen : (rest.drop f.size).length = rest.length - f.size := length_drop
      have hnext := ih _ (by omega) (rest.drop f.size) rfl
        ((drop_suffix f.size rest).trans hsuffix) budget s'
      rw [walkFrom_frame hread hdispatch]
      have hplace : data.length - (rest.drop f.size).length =
          data.length - rest.length + t.size := by omega
      rw [hplace] at hnext
      refine hnext.after hoff (by omega) (fun f' hf' => ?_) hdone
      rw [hdrop, hread]
      rw [hframe] at hf'
      cases hf'
      rfl
    | error err =>
      rcases hsync : resync crc rest.tail budget with ⟨next, left⟩
      cases next with
      | none =>
        rw [walkFrom_lost hrest hread hsync]
        split
        · next heof =>
          -- The end of the log: nothing behind it can be trusted.
          subst heof
          refine ⟨rfl, rfl, nofun, rfl, Nat.sub_le _ _, fun _ => ⟨?_, budget, ?_⟩⟩
          · dsimp only
            rw [hdrop]
            exact hread
          · dsimp only
            rw [← drop_drop, hdrop, drop_one]
            exact hsync
        · obtain ⟨s', hs'⟩ := hreport (data.length - rest.length) rest.length .crc s
          rw [hs']
          refine ⟨rfl, ⟨rfl, hpos, ?_⟩, fun t ht f hf => ?_, ⟨s', hs', rfl⟩, Nat.le_refl _,
            fun hlt => absurd hlt (Nat.lt_irrefl _)⟩
          · show data.length - rest.length + rest.length = data.length
            omega
          · cases mem_singleton.mp ht
            cases hf
      | some next =>
        have hnextTail := resync_suffix hsync
        have hnextLe := hnextTail.length_le
        rw [length_tail] at hnextLe
        obtain ⟨s', hs'⟩ := hreport (data.length - rest.length) (rest.length - next.length)
          (if err = .eof then .hole else .crc) s
        have hnext := ih _ (by omega) next rfl
          ((hnextTail.trans (tail_suffix rest)).trans hsuffix) left s'
        rw [walkFrom_resync hrest hread hsync hs']
        have hplace : data.length - next.length = data.length - rest.length +
            (Step.unreadable (data.length - rest.length) (rest.length - next.length)
              (if err = .eof then .hole else .crc)).size := by
          show _ = data.length - rest.length + (rest.length - next.length)
          omega
        rw [hplace] at hnext
        refine hnext.after rfl ?_ (fun f hf => by cases hf) hs'
        show 0 < rest.length - next.length
        omega

/-- **Salvage tiles the segment.**  Whatever the bytes, a salvaging walk whose handlers and reports
do not fail ends without an error.  Its steps are what it did: the frames it handed on, the payloads
it reported and the regions it reported.  They are in order, do not overlap and cover just the bytes
up to where it stopped, and every frame among them is whole and checks.  If it stopped short of the
end, it was at the start of a frame cut short, and the search from there found no frame to trust. -/
theorem salvage_tiles (crc : Bytes → UInt32) (data : Bytes) (h : Option (Handlers σ E))
    (report : Report σ E) (s : σ) (hq : ∀ h' ∈ h, h'.Quiet)
    (hreport : ∀ off n d s, ∃ s', report off n d s = .ok s') :
    let w := walk crc data h (some report) s
    w.error = none ∧ PerformedAll h report s w.steps w.state ∧
      w.steps.Pairwise (fun t u => t.off + t.size ≤ u.off) ∧
      (∀ x, x < w.offset ↔ ∃ t ∈ w.steps, t.off ≤ x ∧ x < t.off + t.size) ∧
      (∀ t ∈ w.steps, ∀ f, t.frame? = some f →
        f.size = t.size ∧ readFrame crc (data.drop t.off) = .ok f) ∧
      w.offset ≤ data.length ∧
      (w.offset < data.length → readFrame crc (data.drop w.offset) = .error .eof ∧
        ∃ budget, resync crc (data.drop (w.offset + 1)) budget = (none, w.budget)) := by
  have hw := salvaged_walkFrom crc hq hreport data data.length data rfl (suffix_refl data)
    scanCRCBudget s
  rw [Nat.sub_self] at hw
  refine ⟨hw.error, hw.performed, hw.tiles.pairwise, fun x => ?_, fun t ht f hf =>
    ⟨?_, ?_⟩, hw.stop,
    hw.torn⟩
  · exact Iff.trans ⟨fun hx => ⟨Nat.zero_le x, hx⟩, And.right⟩ (hw.tiles.covers x)
  · cases t with
    | frame off f' | undecodable off f' msg => cases hf; rfl
    | unreadable off n d => cases hf
  · exact hw.frame t ht f hf

/-- Handlers that keep the side payloads. -/
def keepSide : Handlers (List Bytes × List (ℕ × ℕ)) Unit where
  onSeries := none
  onSamples := none
  onSamplesSF := none
  onRecords := none
  onSide := some fun b s => .ok (s.1 ++ [b], s.2)

/-- Keep the regions reported. -/
def keepRegions : Report (List Bytes × List (ℕ × ℕ)) Unit := fun off n _ s =>
  .ok (s.1, s.2 ++ [(off, n)])

theorem keepSide_quiet : keepSide.Quiet where
  series := nofun
  samples := nofun
  samplesSF := nofun
  records := nofun
  side := by
    intro f hf blob s
    cases hf
    exact ⟨_, rfl⟩

/-- A byte of a hole in front of a frame. -/
def holed : Bytes := 0 :: appendFrame (fun _ => 0) recordSide [7]

theorem salvage_tiles_holed :
    (walk (fun _ => 0) holed (some keepSide) (some keepRegions) ([], [])).state =
    ([[7]], [(0, 1)]) ∧
      (walk (fun _ => 0) holed (some keepSide) (some keepRegions) ([], [])).error = none := by
  refine ⟨by decide +kernel, ?_⟩
  have hq : ∀ h' ∈ some keepSide, h'.Quiet := by
    rintro h' ⟨⟩
    exact keepSide_quiet
  exact (salvage_tiles (fun _ => 0) holed (some keepSide) keepRegions ([], []) hq
    fun off n d s => ⟨_, rfl⟩).1

end

end OtelStorage.Wal
