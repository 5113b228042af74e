import OtelStorage.Metrics.Recovery

/-!
# Exactly-once recovery

No history loses an acknowledged row, but one can find a row twice.  What decides is each commit
that lands: the flush sealed some segments, and every one of them that holds a row must carry an
epoch at or below the watermark the commit writes.  Commits that do are *covered*.  In histories of
covered commits a restart is exact at every point (`recovery_exactly_once`), and the first commit
that is not covered makes it inexact.

A flush takes the larger of its own next epoch and the log's, so it covers every segment the log has
stamped since it was opened.  Only a load or a restart sets the log's epoch back, behind segments
that are still there; histories in which none does are covered (`Reachable.of_forward`).
-/

namespace OtelStorage.Recovery

open Wal

variable {R : Type*} {s s' : State R} {c epoch seq maxBytes : ℕ} {detached : List R}

/-! ## Histories whose commits cover what they sealed -/

/-- Every row the flush sealed lies in a segment the committed epoch makes a replay skip. -/
def Covered (s : State R) (epoch seq : ℕ) : Prop :=
  ∀ t ∈ s.engine.wal.segments, t.name.seq ≤ seq → epoch < t.name.epoch → t.rows = []

instance (s : State R) (epoch seq : ℕ) [DecidableEq R] : Decidable (Covered s epoch seq) :=
  inferInstanceAs (Decidable (∀ t ∈ s.engine.wal.segments, _ → _ → _))

/-- Histories in which every commit that lands is covered. -/
def coveredHistory : Rules R := ⟨Covered, fun _ => True⟩

theorem target_next (w : SegmentWriter R) : w.Target ⟨w.seq + 1, w.epoch⟩ :=
  .inr ⟨rfl, Nat.lt_succ_self _⟩

/-- **The invariant of histories without a repeated row**, for a cut `c` of the segment numbers: the
parts hold what was logged before the cut, the detached rows and the head what was logged from it
on. The index has a cut of its own, which the watermark draws. -/
structure Exact (s : State R) (c : ℕ) : Prop where
  target : ∀ n, s.engine.wal.Target n → c ≤ n.seq
  le_floor : s.engine.floorSeq = 0 ∨ c ≤ s.engine.floorSeq
  past : ∀ t ∈ s.engine.wal.segments, s.engine.floorSeq ≠ 0 →
    s.engine.floorSeq ≤ t.name.seq → s.engine.floorEpoch < t.name.epoch
  mem_le : rowsOf s.engine.nextParts + logged (fun n => c ≤ n.seq) s.engine.wal.segments ≤
    s.acked + s.stray
  detached_le : (s.engine.detached : Multiset R) ≤
    logged (fun n => c ≤ n.seq ∧ n.seq < s.engine.floorSeq) s.engine.wal.segments
  head_le : (s.engine.head : Multiset R) ≤
    logged (fun n => c ≤ n.seq ∧ s.engine.floorSeq ≤ n.seq) s.engine.wal.segments
  disk_le : rowsOf s.index.parts +
    logged (fun n => s.index.watermark < n.epoch) s.engine.wal.segments ≤ s.acked + s.stray
  cut : ∃ d, d ≤ s.engine.wal.seq + 1 ∧ (∀ n, s.engine.wal.Target n → d ≤ n.seq) ∧
    ∀ t ∈ s.engine.wal.segments, (d ≤ t.name.seq → s.index.watermark < t.name.epoch) ∧
      (s.index.watermark < t.name.epoch → d ≤ t.name.seq ∨ t.rows = [])

section

variable (h : Exact s c) {w : SegmentWriter R} {stray : Multiset R} {new : List (Part R)}
  {confirmed : Bool}

include h

theorem Exact.logs (hsafe : Safe s) {rows b : List R} (hlog : s.engine.wal.Logs w rows)
    (hb : b = rows ∨ b = []) (hstray : s.stray + (rows : Multiset R) ≤ stray + (b : Multiset R)) :
    Exact { s with
      engine := { s.engine with wal := w, head := s.engine.head ++ b }
      acked := s.acked + b
      stray := stray } c := by
  obtain ⟨n, hn, hlogged⟩ := hlog.logged
  obtain ⟨hseq, hepoch⟩ := hsafe.target n hn
  have hnext := hsafe.next_le
  have hmark := hsafe.watermark_le
  -- A bound by the rows accounted for stays one: both sides grow by at most the rows logged.
  have hbound : ∀ (p : Name → Prop) [DecidablePred p] (m : Multiset R),
      m + logged p s.engine.wal.segments ≤ s.acked + s.stray →
      m + logged p w.segments ≤ s.acked + (b : Multiset R) + stray := by
    intro p _ m hm
    have hgrow : logged p w.segments ≤ logged p s.engine.wal.segments + (rows : Multiset R) := by
      rw [hlogged p]
      refine add_le_add_right ?_ _
      split_ifs
      · exact le_rfl
      · exact Multiset.zero_le _
    calc m + logged p w.segments
        ≤ m + (logged p s.engine.wal.segments + (rows : Multiset R)) := add_le_add_right hgrow _
      _ ≤ s.acked + s.stray + (rows : Multiset R) := by
          rw [← add_assoc]
          exact add_le_add_left hm _
      _ ≤ s.acked + (stray + (b : Multiset R)) := by
          rw [add_assoc]
          exact add_le_add_right hstray _
      _ = s.acked + (b : Multiset R) + stray := by abel
  have hkeep : ∀ (p : Name → Prop) [DecidablePred p],
      logged p s.engine.wal.segments ≤ logged p w.segments := by
    intro p _
    rw [hlogged p]
    exact Multiset.le_add_right _ _
  obtain ⟨d, hd, hdtarget, hdcut⟩ := h.cut
  exact {
    target := fun m hm => h.target m (hlog.target m hm)
    le_floor := h.le_floor
    past := fun t ht hne hle => by
      rcases hlog.names t ht with ht | ht
      · exact h.past t ht hne hle
      · exact (hsafe.target _ ht).2
    mem_le := hbound _ _ h.mem_le
    detached_le := h.detached_le.trans (hkeep _)
    head_le := by
      show ((s.engine.head ++ b : List R) : Multiset R) ≤ _
      rw [← Multiset.coe_add, hlogged, if_pos ⟨h.target n hn, hseq⟩]
      refine add_le_add h.head_le ?_
      rcases hb with rfl | rfl
      · exact le_rfl
      · exact Multiset.zero_le _
    disk_le := hbound _ _ h.disk_le
    cut := by
      refine ⟨d, hd.trans (Nat.succ_le_succ hlog.seq_le), fun m hm => hdtarget m (hlog.target m hm),
        fun t ht => ?_⟩
      rcases hlog.names t ht with ht | ht
      · exact hdcut t ht
      · have hep := (hsafe.target _ ht).2
        have hlt : s.index.watermark < t.name.epoch := by omega
        exact ⟨fun _ => hlt, fun _ => .inl (hdtarget _ ht)⟩ }

theorem Exact.append (hsafe : Safe s) (fault : Option WriteFault) (rows : List R) (bytes : ℕ) :
    Exact (s.append fault rows bytes) c := by
  obtain ⟨w, kept, b, stray, hlog, hb, hstray, happend⟩ :=
    State.append_cases hsafe.wal fault rows bytes
  rw [happend]
  exact h.logs hsafe hlog hb hstray

theorem Exact.prepares (hsafe : Safe s) (hprep : s.engine.wal.Prepares w) :
    Exact { s with engine := { s.engine with wal := w } } c := by
  simpa using h.logs hsafe hprep.logs (b := []) (.inr rfl) le_rfl

theorem Exact.begin (hsafe : Safe s) (fault : Option SealFault) (hflush : s.engine.flush = .idle) :
    Exact { s with engine := s.engine.beginFlush fault } c := by
  rcases beginFlush_cases fault hsafe.wal with ⟨w, hprep, hbegin⟩ | ⟨epoch, -, hbegin⟩
  · rw [hbegin]
    exact h.prepares hsafe hprep
  rw [hbegin]
  obtain ⟨ix, ⟨parts, flushed, head, flush, fenced, wal⟩, acked, stray⟩ := s
  cases hflush
  have hc : c ≤ wal.seq + 1 := h.target _ (target_next wal)
  have hlast : ∀ t ∈ wal.segments, t.name.seq < wal.seq + 1 := fun t ht =>
    Nat.lt_succ_of_le (hsafe.wal.numbered t ht)
  have hopen : ∀ n, (wal.closeSegment.setEpoch (epoch + 1)).Target n → wal.seq < n.seq := by
    rintro n (hn | ⟨-, hn⟩)
    · cases hn
    · exact hn
  obtain ⟨d, hd, -, hdcut⟩ := h.cut
  exact { h with
    target := fun n hn => hc.trans (hopen n hn)
    le_floor := .inr hc
    past := fun t ht _ hle => absurd (hlast t ht) (not_lt.mpr hle)
    detached_le := h.head_le.trans (logged_mono fun t ht hn => ⟨hn.1, hlast t ht⟩)
    head_le := Multiset.zero_le _
    cut := ⟨d, hd, fun n hn => hd.trans (hopen n hn), hdcut⟩ }

theorem Exact.abort (hflush : s.engine.flush = .writing detached epoch seq) :
    Exact { s with engine := s.engine.abortFlush } c := by
  obtain ⟨ix, ⟨parts, flushed, head, flush, fenced, wal⟩, acked, stray⟩ := s
  cases hflush
  have hsplit := logged_split wal.segments (fun n => c ≤ n.seq) fun n => n.seq < seq + 1
  have hhead : (head : Multiset R) ≤ logged (fun n => c ≤ n.seq ∧ ¬ n.seq < seq + 1) wal.segments :=
    h.head_le.trans (logged_mono fun _ _ hn => ⟨hn.1, not_lt.mpr hn.2⟩)
  have hall : ((detached ++ head : List R) : Multiset R) ≤
      logged (fun n => c ≤ n.seq) wal.segments := by
    rw [← Multiset.coe_add, hsplit]
    exact add_le_add h.detached_le hhead
  exact { h with
    le_floor := .inl rfl
    past := fun _ _ hne => absurd rfl hne
    detached_le := Multiset.zero_le _
    head_le := hall.trans (logged_mono fun _ _ hn => ⟨hn, Nat.zero_le _⟩) }

theorem Exact.sealed_le (hflush : s.engine.flush = .writing detached epoch seq) :
    rowsOf s.engine.parts + (detached : Multiset R) +
      logged (fun n => seq + 1 ≤ n.seq) s.engine.wal.segments ≤ s.acked + s.stray := by
  obtain ⟨ix, ⟨parts, flushed, head, flush, fenced, wal⟩, acked, stray⟩ := s
  cases hflush
  have hc : c ≤ seq + 1 := h.le_floor.resolve_left (Nat.succ_ne_zero _)
  have hsplit := logged_split wal.segments (fun n => c ≤ n.seq) fun n => n.seq < seq + 1
  have hpast : logged (fun n => seq + 1 ≤ n.seq) wal.segments ≤
      logged (fun n => c ≤ n.seq ∧ ¬ n.seq < seq + 1) wal.segments :=
    logged_mono fun _ _ hn => ⟨hc.trans hn, not_lt.mpr hn⟩
  refine le_trans ?_ h.mem_le
  show rowsOf parts + (detached : Multiset R) + _ ≤ rowsOf parts + logged (fun n => c ≤ n.seq) _
  rw [hsplit, add_assoc]
  exact add_le_add_right (add_le_add h.detached_le hpast) _

/-- A commit moves the cut to the seal; one that lands draws the index's own cut there too. -/
theorem Exact.save (hsafe : Safe s) {landed : Bool}
    (hflush : s.engine.flush = .writing detached epoch seq) (hnew : Written s detached new)
    (hcovered : landed = true → Covered s (max epoch s.engine.flushedEpoch) seq) :
    Exact (s.save new landed confirmed) (seq + 1) := by
  have hsealed := h.sealed_le hflush
  obtain ⟨ix, ⟨parts, flushed, head, flush, fenced, wal⟩, acked, stray⟩ := s
  cases hflush
  have hmax : max epoch flushed = epoch := max_eq_left hsafe.next_le
  have hrows := hnew.rowsOf_append parts
  have hmem : rowsOf (parts ++ new) + logged (fun n => seq + 1 ≤ n.seq) wal.segments ≤
      acked + stray := hrows ▸ hsealed
  simp only [hmax] at hcovered
  have hcut : landed = true → ∀ t ∈ wal.segments, epoch < t.name.epoch →
      seq + 1 ≤ t.name.seq ∨ t.rows = [] := by
    intro hland t ht hlt
    by_cases hseq : t.name.seq ≤ seq
    · exact .inr (hcovered hland t ht hseq hlt)
    · exact .inl (Nat.succ_le_of_lt (not_le.mp hseq))
  simp only [State.save, hmax]
  exact {
    target := fun n hn => (hsafe.target n hn).1
    le_floor := .inr le_rfl
    past := h.past
    mem_le := hmem
    detached_le := Multiset.zero_le _
    head_le := hsafe.head_le.trans (logged_mono fun _ _ hn => ⟨hn.1, hn.1⟩)
    disk_le := by
      cases landed with
      | true =>
        show rowsOf ((parts ++ new).map Part.commit) +
          logged (fun n => epoch < n.epoch) wal.segments ≤ _
        rw [rowsOf_map_commit]
        exact (add_le_add_right (logged_le_of_rows (hcut rfl)) _).trans hmem
      | false => exact h.disk_le
    cut := by
      cases landed with
      | true =>
        exact ⟨seq + 1, hsafe.seq_le, fun n hn => (hsafe.target n hn).1, fun t ht =>
          ⟨fun hle => h.past t ht (Nat.succ_ne_zero _) hle, hcut rfl t ht⟩⟩
      | false => exact h.cut }

theorem Exact.install {next : List (Part R)}
    (hflush : s.engine.flush = .saving epoch seq next confirmed) :
    Exact { s with engine := s.engine.install } c := by
  obtain ⟨ix, ⟨parts, flushed, head, flush, fenced, wal⟩, acked, stray⟩ := s
  cases hflush
  cases confirmed with
  | false =>
    exact { h with
      le_floor := .inl rfl
      past := fun _ _ hne => absurd rfl hne
      detached_le := Multiset.zero_le _
      head_le := h.head_le.trans (logged_mono fun _ _ hn => ⟨hn.1, Nat.zero_le _⟩) }
  | true =>
    exact { h with
      mem_le := by
        refine le_trans (le_of_eq ?_) h.mem_le
        exact congrArg (· + _) (rowsOf_map_commit next)
      detached_le := Multiset.zero_le _ }

theorem Exact.checkpoint (hsafe : Safe s)
    (fault : Option CheckpointFault) (hflush : s.engine.flush = .published seq) :
    Exact { s with engine := s.engine.checkpoint fault } c := by
  obtain ⟨ix, ⟨parts, flushed, head, flush, fenced, wal⟩, acked, stray⟩ := s
  cases hflush
  have hdrop := SegmentWriter.checkpointThrough_discards fault seq hsafe.wal
  have htarget : ∀ n, (wal.checkpointThrough fault seq).Target n → wal.Target n := by
    rintro n (hn | ⟨hn, hlt⟩)
    · exact .inl (hdrop.file n hn)
    · exact .inr ⟨hn.trans hdrop.epoch, hdrop.seq ▸ hlt⟩
  have hkept := hdrop.logged_eq hsafe.wal
    (p := fun n => c ≤ n.seq ∧ seq + 1 ≤ n.seq) fun _ _ hn => hn.2
  obtain ⟨d, hd, hdtarget, hdcut⟩ := h.cut
  exact {
    target := fun n hn => h.target n (htarget n hn)
    le_floor := .inl rfl
    past := fun _ _ hne => absurd rfl hne
    mem_le := (add_le_add_right (logged_sublist hdrop.sublist) _).trans h.mem_le
    detached_le := Multiset.zero_le _
    head_le := h.head_le.trans
      (hkept.symm.le.trans (logged_mono fun _ _ hn => ⟨hn.1, Nat.zero_le _⟩))
    disk_le := (add_le_add_right (logged_sublist hdrop.sublist) _).trans h.disk_le
    cut := ⟨d, hd.trans_eq (congrArg (· + 1) hdrop.seq.symm), fun n hn => hdtarget n (htarget n hn),
      fun t ht => hdcut t (hdrop.sublist.subset ht)⟩ }

theorem Exact.load (hsafe : Safe s) (hfree : s.engine.catalogFree = true) :
    Exact { s with engine := s.engine.loadParts s.index } c := by
  obtain ⟨hparts, hepoch⟩ := Engine.nextParts_of_free hfree
  have hfree' : (s.engine.loadParts s.index).catalogFree = true := hfree
  obtain ⟨hparts', -⟩ := Engine.nextParts_of_free hfree'
  have hmark := hsafe.watermark_le
  have hnext := hsafe.next_le
  have haccounts := hsafe.accounts
  have hmem := h.mem_le
  rw [hepoch] at hmark hnext
  rw [hparts] at haccounts hmem
  obtain ⟨-, hle, -⟩ := loadParts_flushedEpoch hmark
  obtain ⟨-, hfloor, -⟩ := loadParts_floor hfree hle hnext hsafe.epoch_lt
  have hc : c ≤ s.engine.wal.seq + 1 := h.target _ (target_next s.engine.wal)
  obtain ⟨d, hd, hdtarget, hdcut⟩ := h.cut
  -- Only the epoch of segments yet to be opened changes, and these have numbers past every cut.
  have htarget : ∀ k, k ≤ s.engine.wal.seq + 1 → (∀ n, s.engine.wal.Target n → k ≤ n.seq) →
      ∀ n, (s.engine.loadParts s.index).wal.Target n → k ≤ n.seq := by
    rintro k hk hold n (hn | ⟨-, hn⟩)
    · exact hold n (.inl hn)
    · exact hk.trans hn
  exact { h with
    target := htarget c hc h.target
    past := fun t ht hne hseq => lt_of_le_of_lt hfloor (h.past t ht hne hseq)
    mem_le := by
      rw [← haccounts.rowsOf_carried] at hmem
      rw [hparts']
      exact hmem
    cut := ⟨d, hd, htarget d hd hdtarget, hdcut⟩ }

end

/-- After a restart the index's cut is the only one.  Numbers are used again from the last one
present, so the cut moves down to that. -/
theorem exact_restart {stray : Multiset R} (maxBytes : ℕ) {ix : Index R} {segs : List (Segment R)}
    {acked : Multiset R} (hsegs : segs.Pairwise fun a b => a.name.seq < b.name.seq)
    (hdisk : rowsOf ix.parts + logged (fun n => ix.watermark < n.epoch) segs ≤ acked + stray)
    (d : ℕ)
    (hd : ∀ t ∈ segs, (d ≤ t.name.seq → ix.watermark < t.name.epoch) ∧
      (ix.watermark < t.name.epoch → d ≤ t.name.seq ∨ t.rows = [])) :
    ∃ c, Exact ⟨ix, Engine.restart maxBytes ix segs, acked, stray⟩ c := by
  have hreplay : (replayDirFrom ix.watermark segs : Multiset R) =
      logged (fun n => ix.watermark < n.epoch) segs := coe_replayDirFrom _
  obtain ⟨c, hc⟩ : ∃ c, c = min d (lastSegmentSeq segs + 1) := ⟨_, rfl⟩
  have hcut : ∀ t ∈ segs, (c ≤ t.name.seq → ix.watermark < t.name.epoch) ∧
      (ix.watermark < t.name.epoch → c ≤ t.name.seq ∨ t.rows = []) := by
    intro t ht
    have hlast : t.name.seq ≤ lastSegmentSeq segs :=
      (SegmentWriter.create_wellFormed maxBytes hsegs).numbered t ht
    obtain ⟨h₁, h₂⟩ := hd t ht
    refine ⟨fun hle => h₁ ?_, fun hlt => (h₂ hlt).imp_left fun hle => ?_⟩
    · omega
    · omega
  have htarget : ∀ n : Name,
      ((SegmentWriter.create maxBytes segs).setEpoch (ix.watermark + 1)).Target n → c ≤ n.seq := by
    rintro n (hn | ⟨-, hn⟩)
    · cases hn
    · exact (hc.trans_le (min_le_right _ _)).trans hn
  rw [restart_eq]
  exact ⟨c, {
    target := htarget
    le_floor := .inl rfl
    past := fun _ _ hne => absurd rfl hne
    mem_le := by
      show rowsOf (ix.parts.map Part.commit) + logged _ segs ≤ _
      rw [rowsOf_map_commit]
      exact (add_le_add_right (logged_mono fun t ht hn => (hcut t ht).1 hn) _).trans hdisk
    detached_le := Multiset.zero_le _
    head_le := hreplay.trans_le (logged_le_of_rows fun t ht hn =>
      ((hcut t ht).2 hn).imp_left fun hle => ⟨hle, Nat.zero_le _⟩)
    disk_le := hdisk
    cut := ⟨c, hc.trans_le (min_le_right _ _), htarget, hcut⟩ }⟩

theorem Exact.step (h : Exact s c) (hsafe : Safe s)
    (hstep : Step coveredHistory s s') : ∃ c', Exact s' c' := by
  cases hstep with
  | append fault rows bytes => exact ⟨c, h.append hsafe fault rows bytes⟩
  | begin fault hflush => exact ⟨c, h.begin hsafe fault hflush⟩
  | abort hflush => exact ⟨c, h.abort hflush⟩
  | save hflush _ hnew _ hrule => exact ⟨_, h.save hsafe hflush hnew hrule⟩
  | install hflush => exact ⟨c, h.install hflush⟩
  | checkpoint fault hflush => exact ⟨c, h.checkpoint hsafe fault hflush⟩
  | loadFailed =>
    exact ⟨c, h.target, h.le_floor, h.past, h.mem_le, h.detached_le, h.head_le, h.disk_le, h.cut⟩
  | load hfree => exact ⟨c, h.load hsafe hfree⟩
  | restart =>
    obtain ⟨d, -, -, hd⟩ := h.cut
    exact exact_restart _ hsafe.wal.ascending h.disk_le d hd

theorem Reachable.exact (h : Reachable coveredHistory maxBytes s) : ∃ c, Exact s c := by
  induction h with
  | init => exact exact_restart maxBytes .nil le_rfl 0 nofun
  | step hr hstep ih =>
    obtain ⟨c, hc⟩ := ih
    exact hc.step hr.safe hstep

/-- A commit that leaves a sealed row above its epoch makes a restart find that row twice. -/
theorem Safe.covered_of_held {new : List (Part R)} (h : Safe s) {confirmed : Bool}
    (hflush : s.engine.flush = .writing detached epoch seq) (hnew : Written s detached new)
    (heq : (s.save new true confirmed).recovered.held = s.acked) :
    Covered s (max epoch s.engine.flushedEpoch) seq := by
  rw [held_recovered] at heq
  obtain ⟨ix, ⟨parts, flushed, head, flush, fenced, wal⟩, acked, stray⟩ := s
  cases hflush
  have hmax : max epoch flushed = epoch := max_eq_left h.next_le
  have hrows := hnew.rowsOf_append parts
  simp only [State.save, hmax, if_true, rowsOf_map_commit, hrows] at heq
  have hsplit := logged_split wal.segments (fun n => epoch < n.epoch) fun n => n.seq ≤ seq
  have hhead : (head : Multiset R) ≤
      logged (fun n => epoch < n.epoch ∧ ¬ n.seq ≤ seq) wal.segments :=
    h.head_le.trans (logged_mono fun _ _ hn => ⟨hn.2, not_le.mpr hn.1⟩)
  have hacked : acked ≤ rowsOf parts + (detached : Multiset R) +
      logged (fun n => epoch < n.epoch ∧ ¬ n.seq ≤ seq) wal.segments :=
    le_trans h.acked_mem (add_le_add_right hhead _)
  -- The sealed rows above the epoch come on top of everything acknowledged.
  have htwice : acked + logged (fun n => epoch < n.epoch ∧ n.seq ≤ seq) wal.segments ≤ acked := by
    calc acked + logged (fun n => epoch < n.epoch ∧ n.seq ≤ seq) wal.segments
        ≤ rowsOf parts + (detached : Multiset R) +
            logged (fun n => epoch < n.epoch ∧ ¬ n.seq ≤ seq) wal.segments +
            logged (fun n => epoch < n.epoch ∧ n.seq ≤ seq) wal.segments :=
          add_le_add_left hacked _
      _ = rowsOf parts + (detached : Multiset R) +
            logged (fun n => epoch < n.epoch) wal.segments := by
          rw [hsplit]
          abel
      _ = acked := heq
  have hzero : logged (fun n => epoch < n.epoch ∧ n.seq ≤ seq) wal.segments = 0 :=
    le_antisymm (Multiset.le_of_add_le_add_left (htwice.trans_eq (add_zero _).symm))
      (Multiset.zero_le _)
  intro t ht hseq hlt
  rw [show max epoch _ = epoch from hmax] at hlt
  have hle := rows_le_logged (p := fun n => epoch < n.epoch ∧ n.seq ≤ seq) ht ⟨hlt, hseq⟩
  rw [hzero] at hle
  exact Multiset.coe_eq_zero t.rows |>.mp (le_antisymm hle (Multiset.zero_le _))

/-- **A restart is exact while commits are covered, and no longer.**  In a history whose landed
commits are all covered, a crash at any point and a restart give every acknowledged row once:
nothing is missing, and nothing is found beyond them but rows of writes that were never
acknowledged.  Where there are none of those, a commit that lands next keeps the restart exact if
and only if it is covered. -/
theorem recovery_exactly_once {maxBytes : ℕ} {s : State R}
    (h : Reachable coveredHistory maxBytes s) :
    s.acked ≤ s.recovered.held ∧ s.recovered.held ≤ s.acked + s.stray ∧
      ∀ (detached : List R) (epoch seq : ℕ) (new : List (Part R)) (confirmed : Bool),
        s.engine.flush = .writing detached epoch seq → s.engine.fenced = false →
        Written s detached new → s.stray = 0 →
        ((s.save new true confirmed).recovered.held = s.acked ↔
          Covered s (max epoch s.engine.flushedEpoch) seq) := by
  have hbounds : ∀ s : State R, Reachable coveredHistory maxBytes s →
      s.acked ≤ s.recovered.held ∧ s.recovered.held ≤ s.acked + s.stray := by
    intro s hs
    obtain ⟨c, hc⟩ := hs.exact
    rw [held_recovered]
    exact ⟨hs.safe.acked_disk, hc.disk_le⟩
  refine ⟨(hbounds s h).1, (hbounds s h).2, ?_⟩
  intro detached epoch seq new confirmed hflush hfence hnew hstray
  refine ⟨h.safe.covered_of_held hflush hnew, fun hcovered => ?_⟩
  have hsaved : Reachable coveredHistory maxBytes (s.save new true confirmed) :=
    h.step (.save hflush hfence hnew (fun _ => rfl) fun _ => hcovered)
  obtain ⟨hlow, hhigh⟩ := hbounds _ hsaved
  have hghost : (s.save new true confirmed).acked = s.acked ∧
      (s.save new true confirmed).stray = s.stray := by
    simp only [State.save, hflush, and_self]
  rw [hghost.1] at hlow hhigh
  rw [hghost.2, hstray, add_zero] at hhigh
  exact le_antisymm hhigh hlow

/-- One row logged, and a flush that has sealed it. -/
def sealedOnce : State ℕ :=
  let s := (State.init 64).append none [1] 8
  { s with engine := s.engine.beginFlush none }

theorem recovery_exactly_once_sealed :
    ((sealedOnce.save [⟨"p", [1], true⟩] true true).recovered.held = {1} ↔
      Covered sealedOnce 1 1) ∧ Covered sealedOnce 1 1 := by
  have h₀ : Reachable coveredHistory 64 (State.init 64 : State ℕ) := .init
  have h₁ := h₀.step (.append none [1] 8 (by decide +kernel))
  have h₂ := h₁.step (.begin none (by decide +kernel) (by decide +kernel) (by decide +kernel))
  have hwritten : Written sealedOnce [1] [⟨"p", [1], true⟩] := by
    refine ⟨by decide +kernel, by decide +kernel, by decide +kernel⟩
  exact ⟨(recovery_exactly_once (s := sealedOnce) h₂).2.2 [1] 1 1 [⟨"p", [1], true⟩] true
    (by decide +kernel) (by decide +kernel) hwritten rfl, by decide +kernel⟩

/-- A flush seals the log, a row is logged past the seal, and the process dies before the commit.
The restart goes back to the epoch below that row's, so the next flush commits a watermark below it:
dying before the checkpoint, the row is found in the part and again in the log. -/
theorem recovery_repeats_row : ∃ s : State ℕ, Reachable anyHistory 64 s ∧ s.stray = 0 ∧
    s.acked = {1, 2} ∧ s.recovered.held = {1, 2, 2} := by
  have h₀ : Reachable anyHistory 64 (State.init 64 : State ℕ) := .init
  have h := h₀
    |>.step (.append none [1] 8 (by decide +kernel))
    |>.step (.begin none (by decide +kernel) (by decide +kernel) (by decide +kernel))
    |>.step (.append none [2] 8 (by decide +kernel))
    |>.step (.restart trivial)
    |>.step (.begin none (by decide +kernel) (by decide +kernel) (by decide +kernel))
    |>.step (.save (show _ = Flush.writing [1, 2] 1 2 from by decide +kernel)
      (by decide +kernel) (show Written _ [1, 2] [⟨"p", [1, 2], true⟩] from
        ⟨by decide +kernel, by decide +kernel, by decide +kernel⟩)
      (show true = true → true = true from fun _ => rfl) fun _ => trivial)
  exact ⟨_, h, by decide +kernel, by decide +kernel, by decide +kernel⟩

/-! ## The epoch only moves forward -/

/-- A load leaves the log at an epoch no surviving segment exceeds. -/
def KeepsEpoch (e : Engine R) : Prop := ∀ t ∈ e.wal.segments, t.name.epoch ≤ e.wal.epoch

/-- Histories in which no load or restart goes back behind a surviving segment. -/
def forwardHistory : Rules R := ⟨fun _ _ _ => True, KeepsEpoch⟩

/-- No segment is past the log's epoch, none sealed past the flush's. -/
structure Forward (s : State R) : Prop where
  keeps : KeepsEpoch s.engine
  sealed : ∀ detached epoch seq, s.engine.flush = .writing detached epoch seq →
    ∀ t ∈ s.engine.wal.segments, t.name.seq ≤ seq → t.name.epoch ≤ epoch

theorem Forward.moves {w : SegmentWriter R} (h : Forward s) (hsafe : Safe s)
    (hmoves : s.engine.wal.Moves w) (head : List R) (acked stray : Multiset R) :
    Forward { s with
      engine := { s.engine with wal := w, head := head }, acked := acked, stray := stray } := by
  have hopen : ∀ n, s.engine.wal.Target n → n.epoch ≤ s.engine.wal.epoch := by
    rintro n (hn | ⟨hn, -⟩)
    · obtain ⟨-, t, ht, rfl⟩ := hsafe.wal.file n hn
      exact h.keeps t ht
    · exact hn.le
  refine ⟨fun t ht => ?_, fun detached epoch seq hflush t ht hseq => ?_⟩
  · show t.name.epoch ≤ w.epoch
    rw [hmoves.epoch]
    rcases hmoves.names t ht with ht | ht
    · exact h.keeps t ht
    · exact hopen _ ht
  rcases hmoves.names t ht with ht | ht
  · exact h.sealed detached epoch seq hflush t ht hseq
  · have hpast := (hsafe.target _ ht).1
    rw [Engine.floorSeq, show s.engine.flush = _ from hflush] at hpast
    exact absurd hseq (not_le.mpr hpast)

theorem Forward.step (h : Forward s) (hsafe : Safe s)
    (hstep : Step forwardHistory s s') : Forward s' ∧ Step coveredHistory s s' := by
  cases hstep with
  | append fault rows bytes hflush =>
    refine ⟨?_, .append fault rows bytes hflush⟩
    obtain ⟨w, _, b, stray, hlog, -, -, happend⟩ := State.append_cases hsafe.wal fault rows bytes
    rw [happend]
    exact h.moves hsafe hlog.toMoves _ _ _
  | begin fault hflush hhead hfence =>
    refine ⟨?_, .begin fault hflush hhead hfence⟩
    rcases beginFlush_cases fault hsafe.wal with ⟨w, hprep, hbegin⟩ | ⟨epoch, hepoch, hbegin⟩
    · rw [hbegin]
      exact h.moves hsafe hprep.toMoves _ _ _
    rw [hbegin]
    have hle : s.engine.wal.epoch ≤ epoch := hepoch ▸ le_max_right _ _
    refine ⟨fun t ht => (h.keeps t ht).trans (hle.trans (Nat.le_succ _)), ?_⟩
    rintro _ _ _ ⟨⟩ t ht -
    exact (h.keeps t ht).trans hle
  | abort hflush =>
    refine ⟨?_, .abort hflush⟩
    simp only [Engine.abortFlush, hflush]
    exact ⟨h.keeps, by rintro _ _ _ ⟨⟩⟩
  | save hflush hfence hnew hconfirmed =>
    refine ⟨?_, .save hflush hfence hnew hconfirmed fun _ t ht hseq hlt => ?_⟩
    · simp only [State.save, hflush]
      exact ⟨h.keeps, by rintro _ _ _ ⟨⟩⟩
    · have hle := h.sealed _ _ _ hflush t ht hseq
      exact absurd (hle.trans (le_max_left _ _)) (not_le.mpr hlt)
  | install hflush =>
    refine ⟨?_, .install hflush⟩
    simp only [Engine.install, hflush]
    refine ⟨h.keeps, fun _ _ _ hwriting => ?_⟩
    split_ifs at hwriting
  | @checkpoint fault seq hflush =>
    refine ⟨?_, .checkpoint fault hflush⟩
    have hdrop := SegmentWriter.checkpointThrough_discards fault seq hsafe.wal
    simp only [Engine.checkpoint, hflush]
    refine ⟨fun t ht => ?_, by rintro _ _ _ ⟨⟩⟩
    exact (h.keeps t (hdrop.sublist.subset ht)).trans hdrop.epoch.ge
  | loadFailed hfree => exact ⟨⟨h.keeps, h.sealed⟩, .loadFailed hfree⟩
  | load hfree hrule => exact ⟨⟨hrule, h.sealed⟩, .load hfree trivial⟩
  | restart hrule => exact ⟨⟨hrule, by rintro _ _ _ ⟨⟩⟩, .restart trivial⟩

/-- **Rewinding the epoch is the only way to an uncovered commit.** -/
theorem Reachable.of_forward (h : Reachable forwardHistory maxBytes s) :
    Reachable coveredHistory maxBytes s := by
  have hboth : Reachable coveredHistory maxBytes s ∧ Forward s := by
    induction h with
    | init => exact ⟨.init, nofun, nofun⟩
    | step hr hstep ih =>
      obtain ⟨hforward, hcovered⟩ := ih.2.step hr.safe hstep
      exact ⟨ih.1.step hcovered, hforward⟩
  exact hboth.1

/-- **A restart is exact while the epoch moves forward**, wherever the crash falls. -/
theorem forward_recovery_exact {maxBytes : ℕ} (h : Reachable forwardHistory maxBytes s) :
    s.acked ≤ s.recovered.held ∧ s.recovered.held ≤ s.acked + s.stray := by
  have hcovered := h.of_forward
  obtain ⟨c, hc⟩ := hcovered.exact
  rw [held_recovered]
  exact ⟨hcovered.safe.acked_disk, hc.disk_le⟩

/-- A flush lands and moves the epoch, with a row appended meanwhile, and the process restarts. -/
theorem forward_recovery_exact_restart : ∃ s : State ℕ, Reachable forwardHistory 64 s ∧
    s.index.watermark = 1 ∧ s.engine.wal.epoch = 2 ∧ s.acked = {1, 2} ∧
    s.acked ≤ s.recovered.held ∧ s.recovered.held ≤ s.acked + s.stray := by
  have h₀ : Reachable forwardHistory 64 (State.init 64 : State ℕ) := .init
  have h := h₀
    |>.step (.append none [1] 8 (by decide +kernel))
    |>.step (.begin none (by decide +kernel) (by decide +kernel) (by decide +kernel))
    |>.step (.append none [2] 8 (by decide +kernel))
    |>.step (.save (show _ = Flush.writing [1] 1 1 from by decide +kernel)
      (by decide +kernel) (show Written _ [1] [⟨"p", [1], true⟩] from
        ⟨by decide +kernel, by decide +kernel, by decide +kernel⟩)
      (show true = true → true = true from fun _ => rfl) fun _ => trivial)
    |>.step (.install (show _ = Flush.saving 1 1 _ true from rfl))
    |>.step (.checkpoint none (show _ = Flush.published 1 from rfl))
    |>.step (.restart (show ∀ t ∈ _, _ by decide +kernel))
  exact ⟨_, h, by decide +kernel, by decide +kernel, by decide +kernel, forward_recovery_exact h⟩

end OtelStorage.Recovery
