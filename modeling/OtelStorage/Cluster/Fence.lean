import Mathlib.Algebra.Order.Group.Int
import Mathlib.Logic.Function.Basic
import Mathlib.Logic.Relation
import Mathlib.Tactic.Linarith

/-!
# The fence under delay

A node trusts its membership lease for a while after the store last confirmed it.  The store ends a
lease its TTL after it granted or renewed it; the node counts from the moment it *processed* the
answer, and stops a margin earlier.  So the margin has to cover whatever passes between the store
issuing a confirmation and the node processing it, and that is all it covers: with any longer delay
the node goes on trusting a lease that has ended (`fence_sound_iff`).

Two things use the margin up.  An answer may be late, or sit in the channel.  And a lease is granted
for whole seconds, while the node counts its configured TTL.

Times are nanoseconds; the node's clock is the store's.
-/

namespace OtelStorage.Cluster
namespace Fence

open Function Option

/-- A second, in nanoseconds. -/
def second : ℤ := 1000000000

/-- How long before the end of a lease a node stops trusting it. -/
def fenceMargin (ttl : ℤ) : ℤ := min (5 * second) (ttl / 3)

/-- What the store is asked to grant: whole seconds. -/
def leaseTTL (ttl : ℤ) : ℤ := ttl / second * second

/-- How late a confirmation may be processed. -/
def slack (ttl : ℤ) : ℤ := leaseTTL ttl - (ttl - fenceMargin ttl)

/-- Where a node's registration is. -/
inductive Stage (Lease : Type*) where
  | registering
  | granted (l : Lease) (issued : ℤ)
  | confirmed (l : Lease)
  | stored
  | following

/-- The store's leases with their ends, and the node. -/
structure State (Lease : Type*) where
  now : ℤ
  ends : Lease → Option ℤ
  leaseID : Option Lease
  selfAbsent : Bool
  lastKeepAlive : ℤ
  stage : Stage Lease
  -- the lease the last rejoin superseded, until it is revoked
  old : Option Lease
  -- keep-alive answers not yet read, with the time the store issued each
  answers : List ℤ

variable {Lease : Type*} [DecidableEq Lease] {ttl D : ℤ} {τ : State Lease} {l : Lease}
  {ends : Lease → Option ℤ}

namespace State

variable (ttl) (σ : State Lease)

/-- The instant from which the node trusts its lease no more; none: already. -/
def fenceDeadline : Option ℤ :=
  if σ.leaseID.isNone || σ.selfAbsent then none
  else if σ.lastKeepAlive = 0 then none
  else some (σ.lastKeepAlive + (ttl - fenceMargin ttl))

/-- The node trusts its lease no more. -/
def fenced : Bool :=
  match σ.fenceDeadline ttl with
  | none => true
  | some d => !decide (σ.now < d)

/-- **The fence is sound**: while it is down the lease the node names has not ended. -/
def Safe : Prop :=
  σ.fenced ttl = false → ∀ l, σ.leaseID = some l → ∃ e, σ.ends l = some e ∧ σ.now < e

end State

variable {σ : State Lease}

/-- One step, where `prompt` says how long after the store issued it a confirmation may be
processed. -/
inductive Step (ttl : ℤ) (prompt : ℤ → Prop) (σ : State Lease) : State Lease → Prop
  | wait {d : ℤ} (hd : 0 ≤ d) : Step ttl prompt σ { σ with now := σ.now + d }
  -- register: a grant, then the member key, then the stamp
  | grant {l : Lease} (hstage : σ.stage = .registering) (hfresh : σ.ends l = none) :
      Step ttl prompt σ { σ with
        ends := update σ.ends l (some (σ.now + leaseTTL ttl))
        stage := .granted l σ.now }
  | registerFailed {l : Lease} {i : ℤ} (hstage : σ.stage = .granted l i) :
      Step ttl prompt σ { σ with stage := .registering }
  | confirm {l : Lease} {i : ℤ} (hstage : σ.stage = .granted l i) (hprompt : prompt (σ.now - i)) :
      Step ttl prompt σ { σ with lastKeepAlive := σ.now, stage := .confirmed l }
  | store {l : Lease} (hstage : σ.stage = .confirmed l) :
      Step ttl prompt σ { σ with leaseID := some l, stage := .stored }
  | settle (hstage : σ.stage = .stored) :
      Step ttl prompt σ { σ with selfAbsent := false, stage := .following, answers := [] }
  -- follow: the store renews a lease that has not ended, and its answer is read later, or is lost
  | renew {l : Lease} {e : ℤ} (hstage : σ.stage = .following) (hlease : σ.leaseID = some l)
      (hends : σ.ends l = some e) (hlive : σ.now < e) :
      Step ttl prompt σ { σ with
        ends := update σ.ends l (some (σ.now + leaseTTL ttl))
        answers := σ.answers ++ [σ.now] }
  | renewLost {l : Lease} {e : ℤ} (hends : σ.ends l = some e) (hlive : σ.now < e) :
      Step ttl prompt σ { σ with ends := update σ.ends l (some (σ.now + leaseTTL ttl)) }
  | keepAlive {i : ℤ} {rest : List ℤ} (hstage : σ.stage = .following)
      (hanswers : σ.answers = i :: rest)
      (hprompt : prompt (σ.now - i)) :
      Step ttl prompt σ { σ with lastKeepAlive := σ.now, answers := rest }
  -- the registration is lost: rejoin
  | lose (hstage : σ.stage = .following) :
      Step ttl prompt σ { σ with selfAbsent := true, stage := .registering, old := σ.leaseID }
  | revoke {o : Lease} {e : ℤ} (hstage : σ.stage = .following) (hold : σ.old = some o)
      (hends : σ.ends o = some e) :
      Step ttl prompt σ { σ with ends := update σ.ends o (some (min e σ.now)), old := none }

/-- A node that joins. -/
structure IsStart (σ : State Lease) : Prop where
  ends : ∀ l, σ.ends l = none
  leaseID : σ.leaseID = none
  selfAbsent : σ.selfAbsent = false
  lastKeepAlive : σ.lastKeepAlive = 0
  stage : σ.stage = .registering
  old : σ.old = none
  answers : σ.answers = []

/-- The states of the runs. -/
def Reachable (ttl : ℤ) (prompt : ℤ → Prop) (σ : State Lease) : Prop :=
  ∃ σ₀, IsStart σ₀ ∧ Relation.ReflTransGen (Step ttl prompt) σ₀ σ

/-! ## Confirmations -/

/-- The store issued a confirmation of a lease: the lease lasts its TTL from there. -/
def Issued (ttl : ℤ) (σ : State Lease) (l : Lease) (i : ℤ) : Prop :=
  i ≤ σ.now ∧ ∃ e, σ.ends l = some e ∧ i + leaseTTL ttl ≤ e

/-- The last stamp was made at most a delay after a confirmation of a lease. -/
def Stamped (ttl D : ℤ) (σ : State Lease) (l : Lease) : Prop :=
  ∃ i, Issued ttl σ l i ∧ σ.lastKeepAlive ≤ i + D

/-- The node has no lease, or knows that its registration is gone. -/
def Unregistered (σ : State Lease) : Prop := σ.leaseID = none ∨ σ.selfAbsent = true

/-- What a node knows at each stage. -/
def AtStage (ttl D : ℤ) (σ : State Lease) : Prop :=
  match σ.stage with
  | .registering => Unregistered σ
  | .granted l i => Unregistered σ ∧ σ.old ≠ some l ∧ Issued ttl σ l i
  | .confirmed l => Unregistered σ ∧ σ.old ≠ some l ∧ Stamped ttl D σ l
  | .stored => ∃ l, σ.leaseID = some l ∧ σ.old ≠ some l ∧ Stamped ttl D σ l
  | .following => ∃ l, σ.leaseID = some l ∧ σ.old ≠ some l ∧ Stamped ttl D σ l ∧
      ∀ i ∈ σ.answers, Issued ttl σ l i

/-- What holds in every state. -/
structure Known (ttl D : ℤ) (σ : State Lease) : Prop where
  ends : ∀ l e, σ.ends l = some e → e ≤ σ.now + leaseTTL ttl
  -- so a fresh lease is not the superseded one
  old : ∀ o, σ.old = some o → σ.ends o ≠ none
  stage : AtStage ttl D σ

omit [DecidableEq Lease] in
/-- A confirmation stays one: time goes on, and leases are only extended. -/
theorem Issued.mono {i : ℤ} (h : Issued ttl σ l i)
    (hnow : σ.now ≤ τ.now) (hends : ∀ e, σ.ends l = some e → ∃ e', τ.ends l = some e' ∧ e ≤ e') :
    Issued ttl τ l i := by
  obtain ⟨hi, e, he, hle⟩ := h
  obtain ⟨e', he', hee'⟩ := hends e he
  exact ⟨hi.trans hnow, e', he', hle.trans hee'⟩

omit [DecidableEq Lease] in
theorem Stamped.mono (h : Stamped ttl D σ l)
    (hlast : τ.lastKeepAlive = σ.lastKeepAlive) (hnow : σ.now ≤ τ.now)
    (hends : ∀ e, σ.ends l = some e → ∃ e', τ.ends l = some e' ∧ e ≤ e') : Stamped ttl D τ l := by
  obtain ⟨i, hi, hle⟩ := h
  exact ⟨i, hi.mono hnow hends, hlast ▸ hle⟩

omit [DecidableEq Lease] in
theorem AtStage.mono (h : AtStage ttl D σ) {now : ℤ} (hnow : σ.now ≤ now)
    (hends : ∀ l e, σ.ends l = some e → ∃ e', ends l = some e' ∧ e ≤ e') :
    AtStage ttl D { σ with now := now, ends := ends } := by
  obtain ⟨t, es, leaseID, absent, last, stage, old, answers⟩ := σ
  cases stage with
  | registering => exact h
  | granted l i => exact ⟨h.1, h.2.1, h.2.2.mono hnow (hends l)⟩
  | confirmed l => exact ⟨h.1, h.2.1, h.2.2.mono rfl hnow (hends l)⟩
  | stored =>
    obtain ⟨l, hl, ho, hs⟩ := h
    exact ⟨l, hl, ho, hs.mono rfl hnow (hends l)⟩
  | following =>
    obtain ⟨l, hl, ho, hs, ha⟩ := h
    exact ⟨l, hl, ho, hs.mono rfl hnow (hends l), fun i hi => (ha i hi).mono hnow (hends l)⟩

theorem ends_renew {e : ℤ} (hends : σ.ends l = some e)
    (hlive : e ≤ σ.now + leaseTTL ttl) (l' : Lease) : ∀ e', σ.ends l' = some e' →
    ∃ e'', update σ.ends l (some (σ.now + leaseTTL ttl)) l' = some e'' ∧ e' ≤ e'' := by
  intro e' he'
  by_cases hl : l' = l
  · subst hl
    rw [hends] at he'
    exact ⟨_, update_self _ _ _, some.inj he' ▸ hlive⟩
  · exact ⟨e', (update_of_ne hl _ _).trans he', le_rfl⟩

theorem leaseTTL_pos (httl : second ≤ ttl) : 0 < leaseTTL ttl := by
  have hpos : (0 : ℤ) < second := by decide
  have hdiv : 1 ≤ ttl / second := (Int.le_ediv_iff_mul_le hpos).mpr (by omega)
  rw [leaseTTL]
  nlinarith

theorem ends_update_le (h : ∀ l e, σ.ends l = some e → e ≤ σ.now + leaseTTL ttl) {e : ℤ}
    (he : e ≤ σ.now + leaseTTL ttl) (l' : Lease) (e' : ℤ)
    (h' : update σ.ends l (some e) l' = some e') : e' ≤ σ.now + leaseTTL ttl := by
  by_cases hl : l' = l
  · rw [hl, update_self] at h'
    exact (some.inj h').ge.trans he
  · rw [update_of_ne hl] at h'
    exact h l' e' h'

theorem update_ne_none {o : Lease} (h : ends o ≠ none) (l : Lease) (e : ℤ) :
    update ends l (some e) o ≠ none := by
  by_cases ho : o = l
  · rw [ho, update_self]
    exact some_ne_none e
  · rwa [update_of_ne ho]

/-- **One step keeps what a node knows**, when confirmations are processed within the delay. -/
theorem Known.step (httl : second ≤ ttl) (h : Known ttl D σ) (hstep : Step ttl (· ≤ D) σ τ) :
    Known ttl D τ := by
  have hT := leaseTTL_pos httl
  have hst := h.stage
  rw [AtStage] at hst
  have hself : ∀ l e, σ.ends l = some e → ∃ e', σ.ends l = some e' ∧ e ≤ e' :=
    fun l e he => ⟨e, he, le_rfl⟩
  have hupdate : ∀ l l' e, update σ.ends l (some (σ.now + leaseTTL ttl)) l' = some e →
      e ≤ σ.now + leaseTTL ttl := fun l => ends_update_le h.ends le_rfl
  cases hstep with
  | @wait d hd =>
    refine ⟨fun l e he => ?_, h.old, h.stage.mono (le_add_of_nonneg_right hd) hself⟩
    have hle := h.ends l e he
    dsimp only
    omega
  | @grant l hstage hfresh =>
    rw [hstage] at hst
    refine ⟨hupdate l, fun o ho => update_ne_none (h.old o ho) l _, hst, ?_, le_rfl, _,
      update_self _ _ _, le_rfl⟩
    exact fun ho => h.old l ho hfresh
  | registerFailed hstage =>
    rw [hstage] at hst
    exact ⟨h.ends, h.old, hst.1⟩
  | @confirm l i hstage hprompt =>
    rw [hstage] at hst
    exact ⟨h.ends, h.old, hst.1, hst.2.1, i, hst.2.2, by dsimp only; omega⟩
  | @store l hstage =>
    rw [hstage] at hst
    exact ⟨h.ends, h.old, l, rfl, hst.2⟩
  | settle hstage =>
    rw [hstage] at hst
    obtain ⟨l, hl, ho, hs⟩ := hst
    exact ⟨h.ends, h.old, l, hl, ho, hs, nofun⟩
  | @renew l e hstage hlease hends hlive =>
    rw [hstage] at hst
    obtain ⟨l', hl', ho, hs, ha⟩ := hst
    obtain rfl : l' = l := some.inj (hl'.symm.trans hlease)
    have hext := ends_renew hends (h.ends l' e hends) l'
    refine ⟨hupdate l', fun o ho => update_ne_none (h.old o ho) l' _, ?_⟩
    simp only [hstage]
    refine ⟨l', hlease, ho, hs.mono rfl le_rfl hext, fun i hi => ?_⟩
    rcases List.mem_append.mp hi with hi | hi
    · exact (ha i hi).mono le_rfl hext
    · rw [List.mem_singleton.mp hi]
      exact ⟨le_rfl, _, update_self _ _ _, le_rfl⟩
  | @renewLost l e hends hlive =>
    exact ⟨hupdate l, fun o ho => update_ne_none (h.old o ho) l _,
      h.stage.mono le_rfl (ends_renew hends (h.ends l e hends))⟩
  | @keepAlive i rest hstage hanswers hprompt =>
    rw [hstage] at hst
    obtain ⟨l, hl, ho, -, ha⟩ := hst
    rw [hanswers] at ha
    refine ⟨h.ends, h.old, ?_⟩
    rw [AtStage]
    simp only [hstage]
    refine ⟨l, hl, ho, ⟨i, ha i List.mem_cons_self, ?_⟩,
      fun j hj => ha j (List.mem_cons_of_mem i hj)⟩
    dsimp only
    omega
  | lose hstage =>
    rw [hstage] at hst
    obtain ⟨l, hl, -, ⟨i, ⟨-, e, he, -⟩, -⟩, -⟩ := hst
    refine ⟨h.ends, fun o ho => ?_, .inr rfl⟩
    obtain rfl : l = o := some.inj (hl.symm.trans ho)
    rw [he]
    exact some_ne_none e
  | @revoke o e hstage hold hends =>
    rw [hstage] at hst
    obtain ⟨l, hl, ho, hs, ha⟩ := hst
    -- the lease that is revoked is not the one the node names
    have hne : l ≠ o := fun hlo => ho (hlo ▸ hold)
    have hkept : ∀ e', σ.ends l = some e' →
        ∃ e'', update σ.ends o (some (min e σ.now)) l = some e'' ∧ e' ≤ e'' :=
      fun e' he' => ⟨e', (update_of_ne hne _ _).trans he', le_rfl⟩
    refine ⟨ends_update_le h.ends ((min_le_left e σ.now).trans (h.ends o e hends)),
      fun _ ho => absurd ho nofun, ?_⟩
    simp only [hstage]
    exact ⟨l, hl, nofun, hs.mono rfl le_rfl hkept, fun i hi => (ha i hi).mono le_rfl hkept⟩

theorem Reachable.known (httl : second ≤ ttl) (h : Reachable ttl (· ≤ D) σ) :
    Known ttl D σ := by
  obtain ⟨σ₀, h₀, hrun⟩ := h
  induction hrun with
  | refl =>
    refine ⟨fun l e he => ?_, fun o ho => ?_, ?_⟩
    · rw [h₀.ends] at he
      cases he
    · rw [h₀.old] at ho
      cases ho
    · rw [AtStage, h₀.stage]
      exact .inl h₀.leaseID
  | tail _ hstep ih => exact ih.step httl hstep

section

omit [DecidableEq Lease]

/-- While the fence is down the node has a lease and the deadline has not passed. -/
theorem fenced_eq_false (h : σ.fenced ttl = false) :
    ¬ Unregistered σ ∧ σ.now < σ.lastKeepAlive + (ttl - fenceMargin ttl) := by
  rw [State.fenced, State.fenceDeadline] at h
  split at h
  · cases h
  next d hd =>
  split at hd
  · cases hd
  next hreg =>
  split at hd
  · cases hd
  · rw [Bool.or_eq_true, not_or, isNone_iff_eq_none] at hreg
    refine ⟨fun hu => hu.elim hreg.1 hreg.2, ?_⟩
    rw [some.inj hd]
    exact of_decide_eq_true (Bool.not_eq_false' .. ▸ h)

/-- **A delay the margin covers.** -/
theorem Known.safe (hD : D ≤ slack ttl) (h : Known ttl D σ) : σ.Safe ttl := by
  intro hf l hl
  obtain ⟨hreg, hnow⟩ := fenced_eq_false hf
  have hstamped : Stamped ttl D σ l := by
    have hst := h.stage
    rw [AtStage] at hst
    split at hst
    · exact absurd hst hreg
    · exact absurd hst.1 hreg
    · exact absurd hst.1 hreg
    · obtain ⟨l', hl', -, hs⟩ := hst
      exact some.inj (hl'.symm.trans hl) ▸ hs
    · obtain ⟨l', hl', -, hs, -⟩ := hst
      exact some.inj (hl'.symm.trans hl) ▸ hs
  obtain ⟨i, ⟨-, e, he, hle⟩, hlast⟩ := hstamped
  refine ⟨e, he, ?_⟩
  rw [slack] at hD
  omega

end

/-- A node whose one confirmation took a delay, some time after. -/
def stale (ttl delay after : ℤ) (l : Lease) : State Lease where
  now := 1 + delay + after
  ends := update (fun _ => none) l (some (1 + leaseTTL ttl))
  leaseID := some l
  selfAbsent := false
  lastKeepAlive := 1 + delay
  stage := .stored
  old := none
  answers := []

theorem reachable_stale (ttl : ℤ) {prompt : ℤ → Prop} {delay after : ℤ} (hdelay : 0 ≤ delay)
    (hafter : 0 ≤ after) (hprompt : prompt delay) (l : Lease) :
    Reachable ttl prompt (stale ttl delay after l) := by
  refine ⟨⟨1, fun _ => none, none, false, 0, .registering, none, []⟩,
    ⟨fun _ => rfl, rfl, rfl, rfl, rfl, rfl, rfl⟩, ?_⟩
  have hconfirm : prompt (1 + delay - 1) := by rwa [add_sub_cancel_left]
  exact ((((Relation.ReflTransGen.single (Step.grant (l := l) rfl rfl)).tail
    (Step.wait hdelay)).tail (Step.confirm rfl hconfirm)).tail (Step.store rfl)).tail
    (Step.wait hafter)

theorem not_safe_stale {delay after : ℤ} (hstamp : 1 + delay ≠ 0) (l : Lease)
    (hended : leaseTTL ttl ≤ delay + after) (hdeadline : after < ttl - fenceMargin ttl) :
    ¬ (stale ttl delay after l).Safe ttl := by
  intro hsafe
  have hf : (stale ttl delay after l).fenced ttl = false := by
    have hlt : 1 + delay + after < 1 + delay + (ttl - fenceMargin ttl) := by omega
    simp [State.fenced, State.fenceDeadline, stale, hstamp, hlt]
  obtain ⟨e, he, hlt⟩ := hsafe hf l rfl
  have hends : (stale ttl delay after l).ends l = some (1 + leaseTTL ttl) := by
    simp only [stale, update_self]
  have he : 1 + leaseTTL ttl = e := some.inj (hends.symm.trans he)
  have hlt : 1 + delay + after < e := hlt
  omega

/-- **What the margin covers.**  When every confirmation of a lease is processed within `D` of the
store issuing it, the fence is sound in every state of every run exactly if `D` is at most the
slack. -/
theorem fence_sound_iff [Nonempty Lease] (httl : second ≤ ttl) {D : ℤ} (hD : 0 ≤ D) :
    (∀ σ : State Lease, Reachable ttl (· ≤ D) σ → σ.Safe ttl) ↔ D ≤ slack ttl := by
  refine ⟨fun h => ?_, fun hle σ hσ => (hσ.known httl).safe hle⟩
  by_contra hlt
  obtain ⟨l⟩ := ‹Nonempty Lease›
  have hsec : second = 1000000000 := rfl
  have hmargin : fenceMargin ttl ≤ ttl / 3 := min_le_right _ _
  have hslack : slack ttl = leaseTTL ttl - (ttl - fenceMargin ttl) := rfl
  -- the node learns of its grant just too late
  obtain ⟨delay, hdelay⟩ : ∃ d, d = max 0 (slack ttl + 1) := ⟨_, rfl⟩
  have hT := leaseTTL_pos httl
  have hafter : 0 ≤ leaseTTL ttl - delay := by omega
  have hstale : Reachable ttl (· ≤ D) (stale ttl delay (leaseTTL ttl - delay) l) :=
    reachable_stale ttl (by omega) hafter (by omega) l
  exact not_safe_stale (by omega) l (by omega) (by omega) (h _ hstale)

/-- With half-minute leases, confirmations may take five seconds. -/
theorem fence_sound_half_minute :
    second ≤ 30 * second ∧ (0 : ℤ) ≤ 5 * second ∧
      ∀ σ : State ℕ, Reachable (30 * second) (· ≤ 5 * second) σ → σ.Safe (30 * second) :=
  ⟨by decide, by decide, (fence_sound_iff (by decide) (by decide)).mpr (by decide)⟩

/-- With half-minute leases, a registration that took ten seconds is trusted past its end. -/
theorem not_fence_sound :
    ¬ ∀ ttl, second ≤ ttl → ∀ σ : State ℕ, Reachable ttl (fun _ => True) σ → σ.Safe ttl :=
  fun h => not_safe_stale (by decide) 0 (by decide) (by decide) <| h (30 * second) (by decide) _ <|
    @reachable_stale ℕ _ (30 * second) _ (10 * second) (20 * second) (by decide)
      (by decide) trivial 0

end Fence
end OtelStorage.Cluster
