import OtelStorage.Wal.Walk

/-!
# Replaying a log

A log is the frames of its records one behind another.  Strict replay of it delivers exactly those
records, in order.  A log cut at any byte is replayed up to the last whole frame before the cut: the
frame the cut goes through reads as the end of the log, and no error is raised there.

Handlers act on a state and may fail, so "the handlers are called with these records in this order"
says that the replay computes what delivering the records one after another computes.
-/

namespace OtelStorage.Wal

open Delimited Wire List

section

variable {σ E : Type} (crc : Bytes → UInt32) {h : Handlers σ E} {total : ℕ} {budget : ℤ} {s s' : σ}
  {rs : List Record} {r : Record}

/-- Replay the frames up to the first that is not whole; the outcome has its offset. -/
def replay (data : Bytes) (h : Handlers σ E) (s : σ) : Walked σ E := walk crc data (some h) none s

/-- Why the replay of a complete log failed. -/
inductive ReplayError (E : Type)
  | walk (e : WalkError E)
  | truncated (offset length : ℕ)
  deriving DecidableEq

/-- Replay a log that must be complete. -/
def replayComplete (data : Bytes) (h : Handlers σ E) (s : σ) : Except (ReplayError E) σ :=
  let w := replay crc data h s
  match w.error with
  | some e => .error (.walk e)
  | none => if w.offset < data.length then .error (.truncated w.offset data.length) else .ok w.state

/-- Hand the records to the handlers one after another. -/
def deliverAll (h : Handlers σ E) (rs : List Record) (s : σ) : Except E σ :=
  rs.foldlM (fun s r => deliver h r s) s

/-- The log the writer makes of the records. -/
def log (rs : List Record) : Bytes := rs.flatMap (Record.frame crc)

variable {crc}

theorem deliverAll_cons :
    deliverAll h (r :: rs) s = .ok s' ↔
      ∃ mid, deliver h r s = .ok mid ∧ deliverAll h rs mid = .ok s' := by
  rw [deliverAll, foldlM_cons]
  cases hr : deliver h r s with
  | error e => exact ⟨nofun, fun ⟨_, hmid, _⟩ => nomatch hmid⟩
  | ok mid =>
    constructor
    · intro hrs
      exact ⟨mid, rfl, hrs⟩
    · rintro ⟨_, heq, hrs⟩
      cases heq
      exact hrs

theorem deliverAll_take (m : ℕ) (hall : deliverAll h rs s = .ok s') :
    ∃ mid, deliverAll h (rs.take m) s = .ok mid := by
  induction rs generalizing s m with
  | nil => exact ⟨s, by rw [take_nil]; rfl⟩
  | cons r rs ih =>
    cases m with
    | zero => exact ⟨s, rfl⟩
    | succ m =>
      obtain ⟨mid, hr, hrs⟩ := deliverAll_cons.mp hall
      obtain ⟨last, hlast⟩ := ih m hrs
      exact ⟨last, deliverAll_cons.mpr ⟨mid, hr, hlast⟩⟩

theorem walkFrom_record (hr : r.Written) (hs : deliver h r s = .ok s') (more : Bytes) :
    walkFrom crc (some h) none total (r.frame crc ++ more) budget s =
      (walkFrom crc (some h) none total more budget s').after
        (.frame (total - (r.frame crc ++ more).length)
          ⟨r.typ, r.payload, (r.frame crc).length⟩) := by
  have hread : readFrame crc (r.frame crc ++ more) =
      .ok ⟨r.typ, r.payload, (r.frame crc).length⟩ := readFrame_appendFrame hr.fits more
  have hdispatch : dispatch r.typ r.payload h s = .ok s' := by
    rw [dispatch_payload hr, hs]
    rfl
  rw [walkFrom_frame hread (by rw [dispatchFrame, hdispatch]), drop_left]

/-- A strict walk over the frames of records goes on behind them, in the state they leave. -/
theorem walkFrom_log (crc : Bytes → UInt32) (total : ℕ) (budget : ℤ)
    (hrs : ∀ r ∈ rs, r.Written) (hs : deliverAll h rs s = .ok s') (more : Bytes) :
    ∃ steps, walkFrom crc (some h) none total (log crc rs ++ more) budget s =
      { walkFrom crc (some h) none total more budget s' with steps := steps } := by
  induction rs generalizing s with
  | nil =>
    cases hs
    exact ⟨_, rfl⟩
  | cons r rs ih =>
    obtain ⟨mid, hr, hall⟩ := deliverAll_cons.mp hs
    obtain ⟨steps, hsteps⟩ := ih (fun r' hr' => hrs r' (mem_cons_of_mem r hr')) hall
    rw [log, flatMap_cons, append_assoc, walkFrom_record (hrs r mem_cons_self) hr]
    rw [log] at hsteps
    rw [hsteps]
    exact ⟨_, rfl⟩

/-- At the end of the log, or at the start of a frame cut short, a strict walk ends. -/
theorem walkFrom_cut (hr : r.Written) {j : ℕ} (hj : j < (r.frame crc).length) :
    walkFrom crc (some h) none total ((r.frame crc).take j) budget s =
      ⟨total - j, s, none, budget, []⟩ := by
  have hlen : ((r.frame crc).take j).length = j := by
    rw [length_take]
    omega
  by_cases hzero : j = 0
  · subst hzero
    rw [take_zero, walkFrom_nil, Nat.sub_zero]
  · have hne : (r.frame crc).take j ≠ [] := by
      rw [← length_pos_iff, hlen]
      omega
    rw [walkFrom_strict_eof hne (readFrame_take_appendFrame hr.fits hj), hlen]

/-! ## Where a cut falls -/

/-- Just the first `m` records have their frames before byte `k` of the log. -/
def BeforeCut (crc : Bytes → UInt32) (rs : List Record) (k m : ℕ) : Prop :=
  m ≤ rs.length ∧ (log crc (rs.take m)).length ≤ k ∧
    ∀ m', m < m' → m' ≤ rs.length → k < (log crc (rs.take m')).length

theorem log_cons (r : Record) (rs : List Record) :
    log crc (r :: rs) = r.frame crc ++ log crc rs := flatMap_cons

/-- A cut log is the frames before the cut and the start of the next one, if there is a next. -/
theorem exists_beforeCut (rs : List Record) {k : ℕ} (hk : k ≤ (log crc rs).length) :
    ∃ m, BeforeCut crc rs k m ∧
      ((log crc rs).take k = log crc (rs.take m) ∨
        ∃ r ∈ rs, ∃ j, j < (r.frame crc).length ∧ (log crc (rs.take m)).length + j = k ∧
          (log crc rs).take k = log crc (rs.take m) ++ (r.frame crc).take j) := by
  induction rs generalizing k with
  | nil =>
    refine ⟨0, ⟨Nat.le_refl _, Nat.zero_le _, fun m' hm hm' => ?_⟩, .inl take_nil⟩
    rw [length_nil] at hm'
    omega
  | cons r rs ih =>
    rw [log_cons, length_append] at hk
    by_cases hcut : k < (r.frame crc).length
    · -- The cut goes through the first frame.
      refine ⟨0, ⟨Nat.zero_le _, Nat.zero_le _, fun m' hm hm' => ?_⟩,
        .inr ⟨r, mem_cons_self, k, hcut, Nat.zero_add k, ?_⟩⟩
      · obtain ⟨m', rfl⟩ := Nat.exists_eq_succ_of_ne_zero (Nat.ne_of_gt hm)
        rw [take_succ_cons, log_cons, length_append]
        omega
      · rw [log_cons, take_append_of_le_length (Nat.le_of_lt hcut)]
        rfl
    obtain ⟨m, ⟨hm, hbefore, hafter⟩, hsplit⟩ := ih (k := k - (r.frame crc).length) (by omega)
    have htake : (log crc (r :: rs)).take k =
        r.frame crc ++ (log crc rs).take (k - (r.frame crc).length) := by
      rw [log_cons, take_append, take_of_length_le (by omega)]
    have hfirst : log crc ((r :: rs).take (m + 1)) = r.frame crc ++ log crc (rs.take m) := by
      rw [take_succ_cons, log_cons]
    refine ⟨m + 1, ⟨Nat.succ_le_succ hm, ?_, fun m' hlt hle => ?_⟩, ?_⟩
    · rw [hfirst, length_append]
      omega
    · obtain ⟨m', rfl⟩ := Nat.exists_eq_succ_of_ne_zero (Nat.ne_zero_of_lt hlt)
      have hlater := hafter m' (by omega) (Nat.le_of_succ_le_succ hle)
      rw [take_succ_cons, log_cons, length_append]
      omega
    rcases hsplit with hwhole | ⟨r', hr', j, hj, hsum, hpart⟩
    · left
      rw [htake, hwhole, hfirst]
    right
    refine ⟨r', mem_cons_of_mem r hr', j, hj, ?_, ?_⟩
    · rw [hfirst, length_append]
      omega
    · rw [htake, hpart, hfirst, append_assoc]

/-- **The log of a list of records replays as these records; cut anywhere, as those of them whose
frames lie before the cut, without an error and up to the last frame boundary before it.** -/
theorem replay_log (crc : Bytes → UInt32) (h : Handlers σ E) (rs : List Record)
    (hrs : ∀ r ∈ rs, r.Written) (s s' : σ) (hs : deliverAll h rs s = .ok s') :
    replayComplete crc (log crc rs) h s = .ok s' ∧
    ∀ k ≤ (log crc rs).length, ∃ m mid, BeforeCut crc rs k m ∧
      deliverAll h (rs.take m) s = .ok mid ∧
      (replay crc ((log crc rs).take k) h s).error = none ∧
      (replay crc ((log crc rs).take k) h s).state = mid ∧
      (replay crc ((log crc rs).take k) h s).offset = (log crc (rs.take m)).length := by
  constructor
  · obtain ⟨steps, hwalk⟩ := walkFrom_log crc (log crc rs).length scanCRCBudget hrs hs []
    rw [append_nil, walkFrom_nil] at hwalk
    rw [replayComplete, replay, walk, hwalk]
    simp
  · intro k hk
    obtain ⟨m, hm, hsplit⟩ := exists_beforeCut rs hk
    obtain ⟨mid, hmid⟩ := deliverAll_take m hs
    have hprefix : ∀ r ∈ rs.take m, r.Written := fun r hr => hrs r (mem_of_mem_take hr)
    refine ⟨m, mid, hm, hmid, ?_⟩
    have hlen : ((log crc rs).take k).length = k := by
      rw [length_take]
      omega
    rw [replay, walk, hlen]
    rcases hsplit with hwhole | ⟨r, hr, j, hj, hsum, hpart⟩
    · obtain ⟨steps, hwalk⟩ := walkFrom_log crc k scanCRCBudget hprefix hmid []
      rw [append_nil, walkFrom_nil] at hwalk
      rw [hwhole] at hlen
      rw [hwhole, hwalk, hlen]
      exact ⟨rfl, rfl, rfl⟩
    obtain ⟨steps, hwalk⟩ :=
      walkFrom_log crc k scanCRCBudget hprefix hmid ((r.frame crc).take j)
    rw [walkFrom_cut (hrs r hr) hj] at hwalk
    rw [hpart, hwalk]
    exact ⟨rfl, rfl, by simp only; omega⟩

/-- Handlers that keep the side payloads and the timestamps they are given. -/
def keepAll : Handlers (List Bytes × List Int64) Unit where
  onSeries := none
  onSamples := some fun _ ts _ s => .ok (s.1, s.2 ++ ts)
  onSamplesSF := none
  onRecords := none
  onSide := some fun b s => .ok (s.1 ++ [b], s.2)

/-- Two records to log. -/
def twoRecords : List Record := [.side [7, 7], .samplesSF ⟨0, 1⟩ [-5, 6] [8, 9] [1, 1]]

theorem replay_log_two_records :
    (∀ r ∈ twoRecords, r.Written) ∧
      deliverAll keepAll twoRecords ([], []) = .ok ([[7, 7]], [-5, 6]) ∧
      replayComplete (fun _ => 0) (log (fun _ => 0) twoRecords) keepAll ([], []) =
        .ok ([[7, 7]], [-5, 6]) := by
  have hwritten : ∀ r ∈ twoRecords, r.Written := by
    intro r hr
    rcases mem_cons.mp hr with rfl | hr
    · exact ⟨by decide +kernel, nofun, nofun⟩
    cases mem_singleton.mp hr
    refine ⟨by decide +kernel, nofun, ?_⟩
    intro id ts values sf heq
    cases heq
    exact ⟨rfl, rfl⟩
  have hdeliver : deliverAll keepAll twoRecords ([], []) = .ok ([[7, 7]], [-5, 6]) := rfl
  exact ⟨hwritten, hdeliver, (replay_log _ keepAll twoRecords hwritten _ _ hdeliver).1⟩

end

end OtelStorage.Wal
