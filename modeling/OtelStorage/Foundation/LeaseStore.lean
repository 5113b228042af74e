import Mathlib.Logic.Function.Basic
import Mathlib.Order.Nat

/-!
# A store with revisions and leases

A linearizable key-value store in which every write moves a revision on, an entry remembers the
revision it was created at, and an entry may hang off a lease: when the lease ends, its entries go
in the same step.

`Sound` is what such a store keeps: no entry outlives its lease, none was created after the present
revision.  `Later` is how it may change: an entry that was not there before was created since.  So
successive entries of a key carry increasing revisions.
-/

namespace OtelStorage.LeaseStore

open Function

/-- A value under a lease, and the revision it was created at. -/
structure Entry (V L : Type*) where
  value : V
  lease : L
  created : ℕ
  deriving DecidableEq, Repr

/-- The store; a lease is granted to someone, and is live until it ends. -/
structure Store (K V L : Type*) where
  rev : ℕ
  entry : K → Option (Entry V L)
  live : L → Bool
  grantee : L → Option V

variable {K V L : Type*}

namespace Store

/-- Write an entry. -/
def create [DecidableEq K] (σ : Store K V L) (k : K) (v : V) (l : L) : Store K V L :=
  { σ with rev := σ.rev + 1, entry := update σ.entry k (some ⟨v, l, σ.rev + 1⟩) }

/-- Delete an entry. -/
def delete [DecidableEq K] (σ : Store K V L) (k : K) : Store K V L :=
  { σ with rev := σ.rev + 1, entry := update σ.entry k none }

/-- Grant a lease. -/
def grant [DecidableEq L] (σ : Store K V L) (l : L) (v : V) : Store K V L :=
  { σ with live := update σ.live l true, grantee := update σ.grantee l (some v) }

/-- End a lease, by expiry or revocation: its entries go with it. -/
def endLease [DecidableEq L] (σ : Store K V L) (l : L) (rev : ℕ) : Store K V L :=
  { σ with
    rev := rev
    entry := fun k => (σ.entry k).filter fun e => e.lease ≠ l
    live := update σ.live l false }

/-- Writes to other keys. -/
def advance (σ : Store K V L) (rev : ℕ) : Store K V L := { σ with rev := rev }

/-- What a store keeps. -/
structure Sound (σ : Store K V L) : Prop where
  live : ∀ k e, σ.entry k = some e → σ.live e.lease = true
  created : ∀ k e, σ.entry k = some e → e.created ≤ σ.rev
  granted : ∀ l, σ.live l = true → σ.grantee l ≠ none

/-- One store is a later state of another. -/
structure Later (σ τ : Store K V L) : Prop where
  rev : σ.rev ≤ τ.rev
  entry : ∀ k e, τ.entry k = some e → σ.entry k = some e ∨ σ.rev < e.created

variable {σ τ υ : Store K V L} {l : L} {e : Entry V L} {rev : ℕ} {k : K}

theorem Later.refl (σ : Store K V L) : Later σ σ := ⟨le_rfl, fun _ _ h => .inl h⟩

theorem Later.trans (h : Later σ τ) (h' : Later τ υ) : Later σ υ := by
  refine ⟨h.rev.trans h'.rev, fun k e he => ?_⟩
  rcases h'.entry k e he with he | hlt
  · exact h.entry k e he
  · exact .inr (h.rev.trans_lt hlt)

theorem entry_create [DecidableEq K] {k' : K} {v : V} (h : (σ.create k v l).entry k' = some e) :
    (k' = k ∧ e = ⟨v, l, σ.rev + 1⟩) ∨ (k' ≠ k ∧ σ.entry k' = some e) := by
  have h : update σ.entry k (some ⟨v, l, σ.rev + 1⟩) k' = some e := h
  by_cases hk : k' = k
  · rw [hk, update_self] at h
    exact .inl ⟨hk, (Option.some.inj h).symm⟩
  · rw [update_of_ne hk] at h
    exact .inr ⟨hk, h⟩

theorem entry_delete [DecidableEq K] {k' : K} (h : (σ.delete k).entry k' = some e) :
    k' ≠ k ∧ σ.entry k' = some e := by
  have h : update σ.entry k none k' = some e := h
  by_cases hk : k' = k
  · rw [hk, update_self] at h
    cases h
  · rw [update_of_ne hk] at h
    exact ⟨hk, h⟩

theorem entry_endLease [DecidableEq L] :
    (σ.endLease l rev).entry k = some e ↔ σ.entry k = some e ∧ e.lease ≠ l :=
  Option.filter_eq_some_iff.trans (and_congr_right fun _ => decide_eq_true_iff)

theorem live_endLease [DecidableEq L] {l' : L} :
    (σ.endLease l rev).live l' = true ↔ l' ≠ l ∧ σ.live l' = true := by
  show update σ.live l false l' = true ↔ _
  by_cases hl : l' = l
  · simp [hl]
  · simp [hl]

theorem later_create [DecidableEq K] (σ : Store K V L) (k : K) (v : V) (l : L) :
    Later σ (σ.create k v l) := by
  refine ⟨Nat.le_succ _, fun k' e he => ?_⟩
  rcases entry_create he with ⟨-, rfl⟩ | ⟨-, he⟩
  · exact .inr (Nat.lt_succ_self _)
  · exact .inl he

theorem later_delete [DecidableEq K] (σ : Store K V L) (k : K) : Later σ (σ.delete k) :=
  ⟨Nat.le_succ _, fun _ _ he => .inl (entry_delete he).2⟩

theorem later_endLease [DecidableEq L] (h : σ.rev ≤ rev) : Later σ (σ.endLease l rev) :=
  ⟨h, fun _ _ he => .inl (entry_endLease.mp he).1⟩

theorem Sound.create [DecidableEq K] (h : σ.Sound) (hl : σ.live l = true) (k : K) (v : V) :
    (σ.create k v l).Sound := by
  refine ⟨fun k' e he => ?_, fun k' e he => ?_, h.granted⟩
  · rcases entry_create he with ⟨-, rfl⟩ | ⟨-, he⟩
    · exact hl
    · exact h.live k' e he
  · rcases entry_create he with ⟨-, rfl⟩ | ⟨-, he⟩
    · exact le_rfl
    · exact (h.created k' e he).trans (Nat.le_succ _)

theorem Sound.delete [DecidableEq K] (h : σ.Sound) (k : K) : (σ.delete k).Sound :=
  ⟨fun k' e he => h.live k' e (entry_delete he).2,
    fun k' e he => (h.created k' e (entry_delete he).2).trans (Nat.le_succ _), h.granted⟩

theorem Sound.grant [DecidableEq L] (h : σ.Sound) (l : L) (v : V) : (σ.grant l v).Sound := by
  refine ⟨fun k e he => ?_, h.created, fun l' hl' => ?_⟩
  · show update σ.live l true e.lease = true
    by_cases hl : e.lease = l
    · rw [hl, update_self]
    · rw [update_of_ne hl]
      exact h.live k e he
  show update σ.grantee l (some v) l' ≠ none
  by_cases hl : l' = l
  · rw [hl, update_self]
    exact nofun
  · rw [update_of_ne hl]
    refine h.granted l' ?_
    have : update σ.live l true l' = true := hl'
    rwa [update_of_ne hl] at this

theorem Sound.endLease [DecidableEq L] (h : σ.Sound) (hrev : σ.rev ≤ rev) :
    (σ.endLease l rev).Sound := by
  refine ⟨fun k e he => ?_, fun k e he => ?_, fun l' hl' => ?_⟩
  · obtain ⟨he, hne⟩ := entry_endLease.mp he
    exact live_endLease.mpr ⟨hne, h.live k e he⟩
  · exact (h.created k e (entry_endLease.mp he).1).trans hrev
  · exact h.granted l' (live_endLease.mp hl').2

theorem Sound.advance (h : σ.Sound) (hrev : σ.rev ≤ rev) : (σ.advance rev).Sound :=
  ⟨h.live, fun k e he => (h.created k e he).trans hrev, h.granted⟩

end Store
end OtelStorage.LeaseStore
