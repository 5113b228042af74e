import Mathlib.Logic.Relation
import OtelStorage.Foundation.LeaseStore

/-!
# Exclusive ownership of shards

Nodes claim shards in a shared store.  A claim is an entry under the shard's key with the node's id,
bound to the node's membership lease; it is created only where there is none, and its term is the
revision it was created at.  A node keeps the claims it believes it holds, with their terms, and a
fence: while it is up the node believes nothing.

The calls that change claims run under the node's lock, and between their requests everything else
may happen: other nodes claim and release, leases end, the node's own membership is lost and a
rejoin waits for the lock.  A request may fail, and may take effect although its answer is lost.

What carries the argument is local (`NodeSound`): a claim a node believes in is in the store, or the
lease it was made under has ended.  Only the node itself deletes its claims, and it forgets a claim
before it asks for the deletion; a new lease comes with an empty set.  So while the fence is down,
and the lease is live, belief is fact (`exclusive_ownership`).
-/

namespace OtelStorage.Cluster

open LeaseStore Function Option

variable {Id Shard Lease : Type*} {st st' : Store Shard Id Lease} {id : Id} {lease : Lease}

section Model

variable [DecidableEq Id] [DecidableEq Shard] [DecidableEq Lease]

/-! ## Requests -/

/-- What a create-if-absent pass finds: this node's claim under its lease, and its term; its claim
under another lease; another node's.  A write under an ended lease is an error. -/
inductive Answer where
  | ours (term : ℕ)
  | stale
  | other
  | error

/-- One create-if-absent pass. -/
def tryAcquire (st : Store Shard Id Lease) (id : Id) (lease : Lease) (s : Shard) :
    Store Shard Id Lease × Answer :=
  match st.entry s with
  | none => if st.live lease then (st.create s id lease, .ours (st.rev + 1)) else (st, .error)
  | some e =>
      if e.value ≠ id then (st, .other)
      else if e.lease ≠ lease then (st, .stale)
      else (st, .ours e.created)

/-- Delete a claim with this node's id under any lease but the live one. -/
def dropStale (st : Store Shard Id Lease) (id : Id) (lease : Lease) (s : Shard) :
    Store Shard Id Lease :=
  match st.entry s with
  | none => st
  | some e => if e.value = id ∧ e.lease ≠ lease then st.delete s else st

/-- Delete the claim bound to this node and lease. -/
def deleteClaim (st : Store Shard Id Lease) (id : Id) (lease : Lease) (s : Shard) :
    Store Shard Id Lease :=
  match st.entry s with
  | none => st
  | some e => if e.value = id ∧ e.lease = lease then st.delete s else st

/-- Where an acquisition is: a first pass, dropping a stale claim, a second pass, or done. -/
inductive Acquiring where
  | first
  | drop
  | second
  | got (term : ℕ)

/-- How an acquisition goes on: in a phase, without the claim, or with an error. -/
inductive Onward where
  | phase (p : Acquiring)
  | declined
  | failed

/-- After the answer to a pass. -/
def Acquiring.onward (again : Bool) : Answer → Onward
  | .ours t => .phase (.got t)
  | .stale => if again then .phase .drop else .declined
  | .other => .declined
  | .error => .failed

/-- One request of an acquisition: it is answered, its answer is lost, or it never arrives. -/
inductive Pass (id : Id) (lease : Lease) (s : Shard) (st : Store Shard Id Lease) :
    Acquiring → Store Shard Id Lease → Onward → Prop
  | first : Pass id lease s st .first (tryAcquire st id lease s).1
      (Acquiring.onward true (tryAcquire st id lease s).2)
  | firstLost : Pass id lease s st .first (tryAcquire st id lease s).1 .failed
  | drop : Pass id lease s st .drop (dropStale st id lease s) (.phase .second)
  | dropLost : Pass id lease s st .drop (dropStale st id lease s) .failed
  | second : Pass id lease s st .second (tryAcquire st id lease s).1
      (Acquiring.onward false (tryAcquire st id lease s).2)
  | secondLost : Pass id lease s st .second (tryAcquire st id lease s).1 .failed
  | failed {p : Acquiring} (hp : ∀ t, p ≠ .got t) : Pass id lease s st p st .failed

/-! ## Nodes -/

/-- What a node does under its lock. -/
inductive Task (Shard : Type*) where
  | free
  | ensure (s : Shard) (p : Acquiring)
  -- a pass of Reconcile: the shards this node is primary of, and those left to do
  | acquireAll (mine : Shard → Bool) (todo : List Shard)
  | acquiring (mine : Shard → Bool) (rest : List Shard) (s : Shard) (p : Acquiring)
  | handOver (mine : Shard → Bool) (todo : List Shard)
  | retryReleases (todo : List Shard)
  | releasing (s : Shard) (next : Task Shard)

/-- A claim the task has been told of and not recorded. -/
def Task.told : Task Shard → Option (Shard × ℕ)
  | .ensure s (.got t) => some (s, t)
  | .acquiring _ _ s (.got t) => some (s, t)
  | _ => none

/-- Where a rejoin is: registering, registered under a fresh lease, that lease stored, the claims
reset, the flag cleared.  From there on it carries the old lease. -/
inductive Rejoin (Lease : Type*) where
  | none
  | registering
  | registered (fresh : Lease)
  | stored (old : Lease)
  | reset (old : Lease)
  | revoking (old : Lease)

/-- A node: the lease its claims bind to and its membership lease, the two parts of the fence, the
claims it holds and the releases it owes, and what it is doing. -/
structure Node (Shard Lease : Type*) where
  lease : Lease
  member : Lease
  selfAbsent : Bool
  late : Bool
  held : Shard → Option ℕ
  pendingRelease : Shard → Bool
  task : Task Shard
  -- calls of Reconcile that passed the fence and wait for the lock
  waiting : ℕ
  rejoin : Rejoin Lease

namespace Node

variable (n : Node Shard Lease) (s : Shard)

/-- The fence: registration is lost, or the lease can no longer be proven live. -/
def fenced : Bool := n.selfAbsent || n.late

/-- The term of the node's claim on a shard.  Fence and claims are read under the lock, so this is
the answer of the moment the fence is read. -/
def term : Option ℕ := if n.fenced then none else n.held s

/-- Record a claim and its term. -/
def record (t : ℕ) : Node Shard Lease :=
  { n with
    held := update n.held s (some t)
    pendingRelease := update n.pendingRelease s false }

/-- Forget a claim, before its deletion is asked for. -/
def drop : Node Shard Lease :=
  { n with held := update n.held s none }

/-- Owe a release, or owe it no more. -/
def owe (b : Bool) : Node Shard Lease :=
  { n with pendingRelease := update n.pendingRelease s b }

/-- Bind to a new lease, with no claims. -/
def setLease (l : Lease) : Node Shard Lease :=
  { n with lease := l, held := fun _ => none, pendingRelease := fun _ => false }

end Node

/-- The fence is up wherever the membership lease has ended. -/
def FenceHolds (st : Store Shard Id Lease) (n : Node Shard Lease) : Prop :=
  n.fenced = false → st.live n.member = true

/-- **One step of a node**, on the store and on itself. -/
inductive Local (id : Id) (st : Store Shard Id Lease) (n : Node Shard Lease) :
    Store Shard Id Lease → Node Shard Lease → Prop
  -- Ensure
  | ensure {s : Shard} (hfree : n.task = .free) (hfence : n.fenced = false)
      (hheld : n.held s = none) :
      Local id st n st { n with task := .ensure s .first }
  | ensurePass {s : Shard} {p p' : Acquiring} {st' : Store Shard Id Lease}
      (htask : n.task = .ensure s p)
      (hpass : Pass id n.lease s st p st' (.phase p')) :
      Local id st n st' { n with task := .ensure s p' }
  | ensureEnd {s : Shard} {p : Acquiring} {o : Onward} {st' : Store Shard Id Lease}
      (htask : n.task = .ensure s p)
      (hpass : Pass id n.lease s st p st' o) (ho : o = .declined ∨ o = .failed) :
      Local id st n st' { n with task := .free }
  | ensureFenced {s : Shard} {t : ℕ} (htask : n.task = .ensure s (.got t))
      (hfence : n.fenced = true) :
      Local id st n st { n with task := .free }
  | ensureRecord {s : Shard} {t : ℕ} (htask : n.task = .ensure s (.got t))
      (hfence : n.fenced = false) :
      Local id st n st { n.record s t with task := .free }
  -- Reconcile: the fence is read before the lock is taken
  | reconcile (hfence : n.fenced = false) : Local id st n st { n with waiting := n.waiting + 1 }
  | reconcileLock {mine : Shard → Bool} {todo : List Shard} (hfree : n.task = .free)
      (hwait : 0 < n.waiting)
      (htodo : ∀ s ∈ todo, mine s = true) :
      Local id st n st { n with task := .acquireAll mine todo, waiting := n.waiting - 1 }
  | skipHeld {mine : Shard → Bool} {s : Shard} {rest : List Shard}
      (htask : n.task = .acquireAll mine (s :: rest)) (hheld : n.held s ≠ none) :
      Local id st n st { n with task := .acquireAll mine rest }
  | acquire {mine : Shard → Bool} {s : Shard} {rest : List Shard}
      (htask : n.task = .acquireAll mine (s :: rest)) (hheld : n.held s = none) :
      Local id st n st { n with task := .acquiring mine rest s .first }
  | acquirePass {mine : Shard → Bool} {s : Shard} {rest : List Shard} {p p' : Acquiring}
      {st' : Store Shard Id Lease}
      (htask : n.task = .acquiring mine rest s p) (hpass : Pass id n.lease s st p st' (.phase p')) :
      Local id st n st' { n with task := .acquiring mine rest s p' }
  | acquireDeclined {mine : Shard → Bool} {s : Shard} {rest : List Shard} {p : Acquiring}
      {st' : Store Shard Id Lease}
      (htask : n.task = .acquiring mine rest s p) (hpass : Pass id n.lease s st p st' .declined) :
      Local id st n st' { n with task := .acquireAll mine rest }
  | acquireFailed {mine : Shard → Bool} {s : Shard} {rest : List Shard} {p : Acquiring}
      {st' : Store Shard Id Lease}
      (htask : n.task = .acquiring mine rest s p) (hpass : Pass id n.lease s st p st' .failed) :
      Local id st n st' { n with task := .free }
  | acquireRecord {mine : Shard → Bool} {s : Shard} {rest : List Shard} {t : ℕ}
      (htask : n.task = .acquiring mine rest s (.got t)) :
      Local id st n st { n.record s t with task := .acquireAll mine rest }
  | handOver {mine : Shard → Bool} {todo : List Shard} (htask : n.task = .acquireAll mine [])
      (htodo : ∀ s, s ∈ todo ↔ n.held s ≠ none) :
      Local id st n st { n with task := .handOver mine todo }
  | keep {mine : Shard → Bool} {s : Shard} {rest : List Shard}
      (htask : n.task = .handOver mine (s :: rest)) (hmine : mine s = true) :
      Local id st n st { n with task := .handOver mine rest }
  | giveUp {mine : Shard → Bool} {s : Shard} {rest : List Shard}
      (htask : n.task = .handOver mine (s :: rest)) (hmine : mine s = false) :
      Local id st n st { n.drop s with task := .releasing s (.handOver mine rest) }
  | retryReleases {mine : Shard → Bool} {todo : List Shard} (htask : n.task = .handOver mine [])
      (htodo : ∀ s, s ∈ todo ↔ n.pendingRelease s = true) :
      Local id st n st { n with task := .retryReleases todo }
  | retryRelease {s : Shard} {rest : List Shard} (htask : n.task = .retryReleases (s :: rest)) :
      Local id st n st { n.drop s with task := .releasing s (.retryReleases rest) }
  | reconcileEnd (htask : n.task = .retryReleases []) : Local id st n st { n with task := .free }
  -- Release
  | release {s : Shard} (hfree : n.task = .free) :
      Local id st n st { n.drop s with task := .releasing s .free }
  | released {s : Shard} {next : Task Shard} (htask : n.task = .releasing s next) :
      Local id st n (deleteClaim st id n.lease s) { n.owe s false with task := next }
  | releaseLost {s : Shard} {next : Task Shard} (htask : n.task = .releasing s next) :
      Local id st n (deleteClaim st id n.lease s) { n.owe s true with task := .free }
  | releaseFailed {s : Shard} {next : Task Shard} (htask : n.task = .releasing s next) :
      Local id st n st { n.owe s true with task := .free }
  | forget (hfree : n.task = .free) : Local id st n st (n.setLease n.lease)
  -- the rejoin
  | lose (hrejoin : n.rejoin = .none) :
      Local id st n st { n with selfAbsent := true, rejoin := .registering }
  | register {fresh : Lease} (hrejoin : n.rejoin = .registering)
      (hfresh : st.grantee fresh = none) :
      Local id st n (st.grant fresh id) { n with rejoin := .registered fresh }
  | registerFailed {fresh : Lease} (hrejoin : n.rejoin = .registered fresh) :
      Local id st n st { n with rejoin := .registering }
  | store {fresh : Lease} (hrejoin : n.rejoin = .registered fresh) :
      Local id st n st { n with member := fresh, rejoin := .stored n.member }
  | setLease {old : Lease} (hrejoin : n.rejoin = .stored old) (hfree : n.task = .free) :
      Local id st n st { n.setLease n.member with rejoin := .reset old }
  -- if the fresh lease has ended meanwhile, the deadline keeps the fence up
  | clear {old : Lease} (hrejoin : n.rejoin = .reset old)
      (hfence : FenceHolds st { n with selfAbsent := false }) :
      Local id st n st { n with selfAbsent := false, rejoin := .revoking old }
  | revoke {old : Lease} {rev : ℕ} (hrejoin : n.rejoin = .revoking old) (hrev : st.rev ≤ rev) :
      Local id st n (st.endLease old rev) { n with rejoin := .none }
  | revokeFailed {old : Lease} (hrejoin : n.rejoin = .revoking old) :
      Local id st n st { n with rejoin := .none }
  -- the deadline passes, or a renewal moves it
  | deadline {b : Bool} (hfence : FenceHolds st { n with late := b }) :
      Local id st n st { n with late := b }

/-! ## The system -/

/-- The store and the nodes. -/
structure System (Id Shard Lease : Type*) where
  store : Store Shard Id Lease
  node : Id → Node Shard Lease

namespace System

variable (σ : System Id Shard Lease)

/-- What a node answers to Term. -/
def term (id : Id) (s : Shard) : Option ℕ := (σ.node id).term s

/-- **One step of the system**: of a node, or of the store.  A lease expires only after the fence of
the node it belongs to is up. -/
inductive Step (σ : System Id Shard Lease) : System Id Shard Lease → Prop
  | node (id : Id) {st : Store Shard Id Lease} {n : Node Shard Lease}
      (h : Local id σ.store (σ.node id) st n) : Step σ ⟨st, update σ.node id n⟩
  | expire {l : Lease} {rev : ℕ} (hrev : σ.store.rev ≤ rev)
      (hfence : ∀ id, (σ.node id).member = l → (σ.node id).fenced = true) :
      Step σ ⟨σ.store.endLease l rev, σ.node⟩
  | advance {rev : ℕ} (hrev : σ.store.rev ≤ rev) : Step σ ⟨σ.store.advance rev, σ.node⟩

/-- A start: nodes that just registered, over a store with any claims in it. -/
structure IsStart (σ : System Id Shard Lease) : Prop where
  store : σ.store.Sound
  grantee : ∀ id, σ.store.grantee (σ.node id).member = some id
  lease : ∀ id, (σ.node id).lease = (σ.node id).member
  fence : ∀ id, FenceHolds σ.store (σ.node id)
  held : ∀ id s, (σ.node id).held s = none
  task : ∀ id, (σ.node id).task = .free
  rejoin : ∀ id, (σ.node id).rejoin = .none

/-- The states of the runs. -/
def Reachable : Prop :=
  ∃ σ₀, IsStart σ₀ ∧ Relation.ReflTransGen Step σ₀ σ

end System

end Model

variable {n : Node Shard Lease} {s : Shard} {p : Acquiring} {o : Onward} {task next : Task Shard}

/-! ## What holds of a node -/

/-- A claim is in the store while its lease is live. -/
def Backed (st : Store Shard Id Lease) (id : Id) (lease : Lease) (s : Shard) (t : ℕ) : Prop :=
  st.live lease = true → st.entry s = some ⟨id, lease, t⟩

/-- What a rejoin knows of leases. -/
def RejoinSound (st : Store Shard Id Lease) (id : Id) (n : Node Shard Lease) : Prop :=
  match n.rejoin with
  | .none => n.member = n.lease
  | .registering => n.selfAbsent = true ∧ n.member = n.lease
  | .registered fresh => n.selfAbsent = true ∧ n.member = n.lease ∧ st.grantee fresh = some id ∧
      fresh ≠ n.member
  | .stored old => n.selfAbsent = true ∧ st.grantee old = some id ∧ old ≠ n.member
  | .reset old => n.selfAbsent = true ∧ n.member = n.lease ∧ st.grantee old = some id ∧
      old ≠ n.member
  | .revoking old => n.member = n.lease ∧ st.grantee old = some id ∧ old ≠ n.member

/-- A task with no claim to record and none to delete. -/
def Task.Plain (t : Task Shard) : Prop := t.told = none ∧ ∀ s next, t ≠ .releasing s next

/-- **What holds of a node**: its claims are in the store, or their lease has ended. -/
structure NodeSound (st : Store Shard Id Lease) (id : Id) (n : Node Shard Lease) : Prop where
  held : ∀ s t, n.held s = some t → Backed st id n.lease s t
  told : ∀ s t, n.task.told = some (s, t) → Backed st id n.lease s t
  releasing : ∀ s next, n.task = .releasing s next → n.held s = none ∧ next.Plain
  fence : FenceHolds st n
  lease : st.grantee n.lease = some id
  member : st.grantee n.member = some id
  rejoin : RejoinSound st id n

theorem NodeSound.rejoin_at (h : NodeSound st id n) {r : Rejoin Lease} (hr : n.rejoin = r) :
    RejoinSound st id { n with rejoin := r } := by
  subst hr
  exact h.rejoin

theorem NodeSound.withTask (h : NodeSound st id n)
    (htold : ∀ s t, task.told = some (s, t) → Backed st id n.lease s t)
    (hrel : ∀ s next, task = .releasing s next → n.held s = none ∧ next.Plain) :
    NodeSound st id { n with task := task } :=
  { h with told := htold, releasing := hrel }

theorem NodeSound.plain (h : NodeSound st id n) (htask : task.Plain) :
    NodeSound st id { n with task := task } :=
  h.withTask (fun _ _ ht => absurd (htask.1.symm.trans ht) nofun)
    fun s next ht => absurd ht (htask.2 s next)

theorem NodeSound.keep
    (h : NodeSound st id n) (hlive : st'.live = st.live) (hgrantee : st'.grantee = st.grantee)
    (hheld : ∀ s t, n.held s = some t → Backed st id n.lease s t → Backed st' id n.lease s t)
    (htold : ∀ s t, n.task.told = some (s, t) → Backed st' id n.lease s t) :
    NodeSound st' id n := by
  refine ⟨fun s t ht => hheld s t ht (h.held s t ht), htold, h.releasing, fun hf => ?_, ?_, ?_, ?_⟩
  · rw [hlive]
    exact h.fence hf
  · rw [hgrantee]
    exact h.lease
  · rw [hgrantee]
    exact h.member
  · have hr := h.rejoin
    rw [RejoinSound] at hr ⊢
    rw [hgrantee]
    exact hr

theorem Task.told_ensure (hp : ∀ t, p ≠ .got t) : (Task.ensure s p).told = none := by
  cases p with
  | got t => exact absurd rfl (hp t)
  | first | drop | second => rfl

theorem Task.told_acquiring {mine : Shard → Bool} {rest : List Shard} (hp : ∀ t, p ≠ .got t) :
    (Task.acquiring mine rest s p).told = none := by
  cases p with
  | got t => exact absurd rfl (hp t)
  | first | drop | second => rfl

theorem NodeSound.grant [DecidableEq Lease] (h : NodeSound st id n) {fresh : Lease}
    (hfresh : st.grantee fresh = none) (v : Id) : NodeSound (st.grant fresh v) id n := by
  have hne : ∀ l, st.grantee l = some id → l ≠ fresh := by
    rintro l hl rfl
    cases hfresh.symm.trans hl
  have hgrantee : ∀ l, st.grantee l = some id → (st.grant fresh v).grantee l = some id :=
    fun l hl => (update_of_ne (hne l hl) _ _).trans hl
  have hlive : ∀ l, st.grantee l = some id → (st.grant fresh v).live l = st.live l :=
    fun l hl => update_of_ne (hne l hl) _ _
  have hback : ∀ s t, Backed st id n.lease s t → Backed (st.grant fresh v) id n.lease s t :=
    fun s t hb hl => hb (hlive _ h.lease ▸ hl)
  refine ⟨fun s t ht => hback s t (h.held s t ht), fun s t ht => hback s t (h.told s t ht),
    h.releasing, fun hf => (hlive _ h.member).trans (h.fence hf), hgrantee _ h.lease,
    hgrantee _ h.member, ?_⟩
  have hr := h.rejoin
  rw [RejoinSound] at hr ⊢
  split at hr
  · exact hr
  · exact hr
  · exact ⟨hr.1, hr.2.1, hgrantee _ hr.2.2.1, hr.2.2.2⟩
  · exact ⟨hr.1, hgrantee _ hr.2.1, hr.2.2⟩
  · exact ⟨hr.1, hr.2.1, hgrantee _ hr.2.2.1, hr.2.2.2⟩
  · exact ⟨hr.1, hgrantee _ hr.2.1, hr.2.2⟩

theorem NodeSound.endLease [DecidableEq Lease] (h : NodeSound st id n) {l : Lease} {r : ℕ}
    (hl : n.fenced = false → n.member ≠ l) : NodeSound (st.endLease l r) id n := by
  have hback : ∀ s t, Backed st id n.lease s t → Backed (st.endLease l r) id n.lease s t := by
    intro s t hb hlive
    obtain ⟨hne, hlive⟩ := Store.live_endLease.mp hlive
    exact Store.entry_endLease.mpr ⟨hb hlive, hne⟩
  exact ⟨fun s t ht => hback s t (h.held s t ht), fun s t ht => hback s t (h.told s t ht),
    h.releasing, fun hf => Store.live_endLease.mpr ⟨hl hf, h.fence hf⟩, h.lease, h.member,
    h.rejoin⟩

/-- What holds in every state. -/
structure System.Sound (σ : System Id Shard Lease) : Prop where
  store : σ.store.Sound
  node : ∀ id, NodeSound σ.store id (σ.node id)

theorem System.IsStart.sound {σ : System Id Shard Lease} (h : σ.IsStart) : σ.Sound := by
  refine ⟨h.store, fun id => ⟨fun s t ht => ?_, fun s t ht => ?_, fun s next ht => ?_, h.fence id,
    h.lease id ▸ h.grantee id, h.grantee id, ?_⟩⟩
  · rw [h.held] at ht
    cases ht
  · rw [h.task] at ht
    cases ht
  · rw [h.task] at ht
    cases ht
  · rw [RejoinSound, h.rejoin]
    exact (h.lease id).symm

/-- **What Term answers is in the store.** -/
theorem System.Sound.claim {σ : System Id Shard Lease} (h : σ.Sound) {t : ℕ}
    (ht : σ.term id s = some t) :
    (σ.node id).member = (σ.node id).lease ∧ σ.store.live (σ.node id).lease = true ∧
      σ.store.entry s = some ⟨id, (σ.node id).lease, t⟩ := by
  rw [System.term, Node.term] at ht
  split at ht
  · cases ht
  next hf =>
  have hf := Bool.not_eq_true _ ▸ hf
  obtain ⟨habsent, -⟩ := Bool.or_eq_false_iff.mp hf
  have hbound : (σ.node id).member = (σ.node id).lease := by
    have hr := (h.node id).rejoin
    rw [RejoinSound, habsent] at hr
    split at hr
    · exact hr
    · exact hr.2
    · exact hr.2.1
    · exact absurd hr.1 nofun
    · exact hr.2.1
    · exact hr.1
  have hlive : σ.store.live (σ.node id).lease = true := hbound ▸ (h.node id).fence hf
  exact ⟨hbound, hlive, (h.node id).held s t ht hlive⟩

/-- What a node's transaction leaves alone: leases, and the claims of other nodes. -/
structure Touches (id : Id) (st st' : Store Shard Id Lease) : Prop where
  sound : st.Sound → st'.Sound
  later : st.Later st'
  live : st'.live = st.live
  grantee : st'.grantee = st.grantee
  others : ∀ s e, st.entry s = some e → e.value ≠ id → st'.entry s = some e

theorem Touches.refl (id : Id) (st : Store Shard Id Lease) : Touches id st st :=
  ⟨fun h => h, Store.Later.refl st, rfl, rfl, fun _ _ he _ => he⟩

variable [DecidableEq Shard]

theorem NodeSound.record (h : NodeSound st id n) {t : ℕ} (htold : n.task.told = some (s, t))
    (htask : task.Plain) : NodeSound st id { n.record s t with task := task } := by
  refine ⟨fun s' t' ht' => ?_, fun _ _ ht => absurd (htask.1.symm.trans ht) nofun,
    fun s next ht => absurd ht (htask.2 s next), h.fence, h.lease, h.member, h.rejoin⟩
  have ht' : update n.held s (some t) s' = some t' := ht'
  by_cases hs : s' = s
  · subst hs
    rw [update_self] at ht'
    exact some.inj ht' ▸ h.told s' t htold
  · rw [update_of_ne hs] at ht'
    exact h.held s' t' ht'

theorem NodeSound.drop (h : NodeSound st id n) (s : Shard) (hnext : next.Plain) :
    NodeSound st id { n.drop s with task := .releasing s next } := by
  have hsub : ∀ s' t, (n.drop s).held s' = some t → n.held s' = some t := by
    intro s' t ht
    have ht : update n.held s none s' = some t := ht
    by_cases hs : s' = s
    · rw [hs, update_self] at ht
      cases ht
    · rwa [update_of_ne hs] at ht
  refine ⟨fun s' t ht => h.held s' t (hsub s' t ht), nofun, fun s' next' ht => ?_, h.fence,
    h.lease, h.member, h.rejoin⟩
  obtain ⟨rfl, rfl⟩ := Task.releasing.inj ht
  exact ⟨update_self _ _ _, hnext⟩

theorem NodeSound.owe (h : NodeSound st id n) (s : Shard) (b : Bool) :
    NodeSound st id (n.owe s b) :=
  { h with }

/-! ## What a transaction does -/

theorem touches_create (hnone : st.entry s = none) (hlive : st.live lease = true) :
    Touches id st (st.create s id lease) ∧
      ∀ k e, st.entry k = some e → (st.create s id lease).entry k = some e := by
  have hkeep : ∀ k e, st.entry k = some e → (st.create s id lease).entry k = some e := by
    intro k e he
    have hk : k ≠ s := by
      rintro rfl
      rw [hnone] at he
      cases he
    exact (update_of_ne hk _ _).trans he
  exact ⟨⟨fun h => h.create hlive s id, Store.later_create st s id lease, rfl, rfl,
    fun k e he _ => hkeep k e he⟩, hkeep⟩

theorem touches_delete {e : Entry Id Lease} (he : st.entry s = some e) (hid : e.value = id) :
    Touches id st (st.delete s) ∧
      ∀ k e', st.entry k = some e' → k ≠ s → (st.delete s).entry k = some e' := by
  have hkeep : ∀ k e', st.entry k = some e' → k ≠ s → (st.delete s).entry k = some e' :=
    fun k e' he' hk => (update_of_ne hk _ _).trans he'
  refine ⟨⟨fun h => h.delete s, Store.later_delete st s, rfl, rfl, fun k e' he' hne => ?_⟩, hkeep⟩
  refine hkeep k e' he' fun hk => hne ?_
  rw [hk, he] at he'
  exact some.inj he' ▸ hid

variable [DecidableEq Id] [DecidableEq Lease] (st)

/-- A pass keeps every entry, and tells the truth. -/
theorem tryAcquire_spec (id : Id) (lease : Lease) (s : Shard) :
    Touches id st (tryAcquire st id lease s).1 ∧
      (∀ k e, st.entry k = some e → (tryAcquire st id lease s).1.entry k = some e) ∧
      ∀ t, (tryAcquire st id lease s).2 = .ours t →
        (tryAcquire st id lease s).1.entry s = some ⟨id, lease, t⟩ := by
  rw [tryAcquire]
  cases he : st.entry s with
  | none =>
    dsimp only
    split
    · next hlive =>
      obtain ⟨htouch, hkeep⟩ : Touches id st (st.create s id lease) ∧ _ :=
        touches_create he hlive
      refine ⟨htouch, hkeep, fun t ht => ?_⟩
      rw [← Answer.ours.inj ht]
      exact update_self _ _ _
    · exact ⟨Touches.refl id st, fun _ _ h => h, nofun⟩
  | some e =>
    dsimp only
    split
    · exact ⟨Touches.refl id st, fun _ _ h => h, nofun⟩
    next hid =>
    split
    · exact ⟨Touches.refl id st, fun _ _ h => h, nofun⟩
    · next hlease =>
      refine ⟨Touches.refl id st, fun _ _ h => h, fun t ht => ?_⟩
      rw [← Answer.ours.inj ht]
      rw [he, ← not_not.mp hid, ← not_not.mp hlease]

theorem dropStale_spec (id : Id) (lease : Lease) (s : Shard) :
    Touches id st (dropStale st id lease s) ∧
      ∀ k e, st.entry k = some e → e.lease = lease →
      (dropStale st id lease s).entry k = some e := by
  rw [dropStale]
  cases he : st.entry s with
  | none => exact ⟨Touches.refl id st, fun _ _ h _ => h⟩
  | some e =>
    dsimp only
    split
    · next hstale =>
      obtain ⟨htouch, hkeep⟩ := touches_delete he hstale.1
      refine ⟨htouch, fun k e' he' hl => hkeep k e' he' fun hk => hstale.2 ?_⟩
      rw [hk, he] at he'
      exact some.inj he' ▸ hl
    · exact ⟨Touches.refl id st, fun _ _ h _ => h⟩

theorem deleteClaim_spec (id : Id) (lease : Lease) (s : Shard) :
    Touches id st (deleteClaim st id lease s) ∧
      ∀ k e, st.entry k = some e → k ≠ s → (deleteClaim st id lease s).entry k = some e := by
  rw [deleteClaim]
  cases he : st.entry s with
  | none => exact ⟨Touches.refl id st, fun _ _ h _ => h⟩
  | some e =>
    dsimp only
    split
    · next hours => exact touches_delete he hours.1
    · exact ⟨Touches.refl id st, fun _ _ h _ => h⟩

variable {st} {n' : Node Shard Lease}

/-- **One request of an acquisition.**  It keeps the node's claims under its lease, and where it
ends with a claim, the claim is there. -/
theorem pass_spec (h : Pass id lease s st p st' o) :
    Touches id st st' ∧
      (∀ k e, st.entry k = some e → e.lease = lease → st'.entry k = some e) ∧
      ∀ t, o = .phase (.got t) → st'.entry s = some ⟨id, lease, t⟩ := by
  have htry := tryAcquire_spec st id lease s
  have honward : ∀ again (a : Answer) t, Acquiring.onward again a = .phase (.got t) →
      a = .ours t := by
    intro again a t ha
    cases a with
    | ours t' =>
      obtain rfl := Acquiring.got.inj (Onward.phase.inj ha)
      rfl
    | stale => cases again <;> cases ha
    | other | error => cases ha
  cases h with
  | first | second => exact ⟨htry.1, fun k e he _ => htry.2.1 k e he,
      fun t ht => htry.2.2 t (honward _ _ t ht)⟩
  | firstLost | secondLost => exact ⟨htry.1, fun k e he _ => htry.2.1 k e he, nofun⟩
  | drop | dropLost =>
    exact ⟨(dropStale_spec st id lease s).1, (dropStale_spec st id lease s).2, nofun⟩
  | failed => exact ⟨Touches.refl id st, fun _ _ he _ => he, nofun⟩

/-! ## One step -/

/-- The store after a step of a node: after a transaction, a grant, or the end of its old lease. -/
theorem local_store (h : Local id st n st' n') :
    Touches id st st' ∨ (∃ fresh, st.grantee fresh = none ∧ st' = st.grant fresh id) ∨
      ∃ old rev, n.rejoin = .revoking old ∧ st.rev ≤ rev ∧ st' = st.endLease old rev := by
  cases h with
  | ensurePass _ hpass | ensureEnd _ hpass | acquirePass _ hpass | acquireDeclined _ hpass
  | acquireFailed _ hpass => exact .inl (pass_spec hpass).1
  | @released s | @releaseLost s => exact .inl (deleteClaim_spec st id n.lease s).1
  | @register fresh _ hfresh => exact .inr (.inl ⟨fresh, hfresh, rfl⟩)
  | @revoke old rev hrejoin hrev => exact .inr (.inr ⟨old, rev, hrejoin, hrev, rfl⟩)
  | ensure | ensureFenced | ensureRecord | reconcile | reconcileLock | skipHeld | acquire
  | acquireRecord | handOver | keep | giveUp | retryReleases | retryRelease | reconcileEnd | release
  | releaseFailed | forget | lose | registerFailed | store | setLease | clear | revokeFailed
      | deadline =>
    exact Or.inl (Touches.refl id st)

theorem not_got_of_pass (h : Pass id lease s st p st' o) : ∀ t, p ≠ .got t := by
  cases h with
  | failed hp => exact hp
  | first | firstLost | drop | dropLost | second | secondLost => exact nofun

theorem NodeSound.pass (h : NodeSound st id n) (hn : n.task.told = none)
    (hpass : Pass id n.lease s st p st' o) : NodeSound st' id n := by
  obtain ⟨htouch, hkeep, -⟩ := pass_spec hpass
  refine h.keep htouch.live htouch.grantee (fun s' t _ hb hlive => ?_)
    fun s' t ht => absurd (hn.symm.trans ht) nofun
  exact hkeep s' _ (hb (htouch.live ▸ hlive)) rfl

theorem NodeSound.deleteClaim (h : NodeSound st id n)
    (htask : n.task = .releasing s next) :
    NodeSound (deleteClaim st id n.lease s) id n := by
  obtain ⟨htouch, hkeep⟩ := deleteClaim_spec st id n.lease s
  refine h.keep htouch.live htouch.grantee (fun s' t ht hb hlive => ?_) fun s' t ht => ?_
  · refine hkeep s' _ (hb (htouch.live ▸ hlive)) ?_
    rintro rfl
    rw [(h.releasing s' next htask).1] at ht
    cases ht
  · rw [htask] at ht
    cases ht

/-- **A node's step keeps what holds of it.** -/
theorem NodeSound.step
    (h : NodeSound st id n) (hstep : Local id st n st' n') : NodeSound st' id n' := by
  have hplain : ∀ {task : Task Shard}, task.told = none → (∀ s next, task ≠ .releasing s next) →
      task.Plain := fun h₁ h₂ => ⟨h₁, h₂⟩
  cases hstep with
  | ensure | ensureFenced | skipHeld | acquire | handOver | keep | retryReleases | reconcileEnd =>
    exact h.plain (hplain rfl nofun)
  | @ensurePass s p p' _ htask hpass =>
    have hnone : n.task.told = none := htask ▸ Task.told_ensure (not_got_of_pass hpass)
    refine (h.pass hnone hpass).withTask (fun s' t ht _ => ?_) nofun
    cases p' with
    | got t' =>
      obtain ⟨rfl, rfl⟩ := Prod.mk.inj (some.inj ht)
      exact (pass_spec hpass).2.2 _ rfl
    | first | drop | second => cases ht
  | ensureEnd htask hpass =>
    exact (h.pass (htask ▸ Task.told_ensure (not_got_of_pass hpass)) hpass).plain (hplain rfl nofun)
  | ensureRecord htask | acquireRecord htask => exact h.record (htask ▸ rfl) (hplain rfl nofun)
  | reconcile => exact { h with }
  | reconcileLock =>
    exact { h with told := nofun, releasing := nofun }
  | @acquirePass mine s rest p p' _ htask hpass =>
    have hnone : n.task.told = none := htask ▸ Task.told_acquiring (not_got_of_pass hpass)
    refine (h.pass hnone hpass).withTask (fun s' t ht _ => ?_) nofun
    cases p' with
    | got t' =>
      obtain ⟨rfl, rfl⟩ := Prod.mk.inj (some.inj ht)
      exact (pass_spec hpass).2.2 _ rfl
    | first | drop | second => cases ht
  | acquireDeclined htask hpass | acquireFailed htask hpass =>
    exact (h.pass (htask ▸ Task.told_acquiring (not_got_of_pass hpass)) hpass).plain
      (hplain rfl nofun)
  | giveUp | retryRelease | release => exact h.drop _ (hplain rfl nofun)
  | released htask =>
    exact ((h.deleteClaim htask).owe _ false).plain (h.releasing _ _ htask).2
  | releaseLost htask => exact ((h.deleteClaim htask).owe _ true).plain (hplain rfl nofun)
  | releaseFailed => exact (h.owe _ true).plain (hplain rfl nofun)
  | forget hfree =>
    refine { h with held := nofun, told := fun s t ht => ?_, releasing := fun s next ht => ?_ }
    · exact h.told s t ht
    · exact ⟨rfl, (h.releasing s next ht).2⟩
  | lose hrejoin =>
    have hr := h.rejoin_at hrejoin
    exact ⟨h.held, h.told, h.releasing, nofun, h.lease, h.member, rfl, hr⟩
  | @register fresh hrejoin hfresh =>
    have hr := h.rejoin_at hrejoin
    have h' := h.grant hfresh id
    refine ⟨h'.held, h'.told, h'.releasing, h'.fence, h'.lease, h'.member, hr.1, hr.2,
      update_self _ _ _, fun hm => ?_⟩
    have hm : fresh = n.member := hm
    rw [hm, h.member] at hfresh
    cases hfresh
  | registerFailed hrejoin =>
    have hr := h.rejoin_at hrejoin
    exact ⟨h.held, h.told, h.releasing, h.fence, h.lease, h.member, hr.1, hr.2.1⟩
  | store hrejoin =>
    have hr := h.rejoin_at hrejoin
    refine ⟨h.held, h.told, h.releasing, fun hf => ?_, h.lease, hr.2.2.1, hr.1, h.member,
      hr.2.2.2.symm⟩
    have hup : n.fenced = true := by rw [Node.fenced, hr.1, Bool.true_or]
    cases hup.symm.trans hf
  | setLease hrejoin hfree =>
    have hr := h.rejoin_at hrejoin
    refine ⟨nofun, fun s t ht => ?_, fun s next ht => ?_, h.fence, h.member, h.member, hr.1, rfl,
      hr.2.1, hr.2.2⟩
    · have ht : n.task.told = some (s, t) := ht
      rw [hfree] at ht
      cases ht
    · have ht : n.task = .releasing s next := ht
      rw [hfree] at ht
      cases ht
  | clear hrejoin hfence =>
    have hr := h.rejoin_at hrejoin
    exact { h with fence := hfence, rejoin := hr.2 }
  | @revoke old rev hrejoin hrev =>
    have hr := h.rejoin_at hrejoin
    obtain ⟨hbound, -, hold⟩ := hr
    have h' := h.endLease (r := rev) fun _ => hold.symm
    exact ⟨h'.held, h'.told, h'.releasing, h'.fence, h'.lease, h'.member, hbound⟩
  | revokeFailed hrejoin =>
    have hr := h.rejoin_at hrejoin
    exact { h with rejoin := hr.1 }
  | deadline hfence =>
    exact { h with fence := hfence }

/-- **And what holds of the others.** -/
theorem NodeSound.other {id' : Id} (hne : id' ≠ id) {m : Node Shard Lease} (h : NodeSound st id' m)
    (hself : NodeSound st id n) (hstep : Local id st n st' n') : NodeSound st' id' m := by
  rcases local_store hstep with htouch | ⟨fresh, hfresh, rfl⟩ | ⟨old, rev, hrejoin, -, rfl⟩
  · have hback : ∀ s t, Backed st id' m.lease s t → Backed st' id' m.lease s t :=
      fun s t hb hl => htouch.others s _ (hb (htouch.live ▸ hl)) hne
    exact h.keep htouch.live htouch.grantee (fun s t _ => hback s t)
      fun s t ht => hback s t (h.told s t ht)
  · exact h.grant hfresh id
  · -- the old lease was granted to the node that revokes it
    refine h.endLease fun _ hm => hne ?_
    have hr := hself.rejoin_at hrejoin
    exact some.inj (h.member.symm.trans (hm ▸ hr.2.1))

/-! ## Runs -/

namespace System

variable {σ τ : System Id Shard Lease}

/-- **One step.** -/
theorem Sound.step (h : σ.Sound) (hstep : Step σ τ) : τ.Sound := by
  cases hstep with
  | @node id st n hlocal =>
    refine ⟨?_, fun id' => ?_⟩
    · rcases local_store hlocal with htouch | ⟨fresh, -, rfl⟩ | ⟨old, rev, -, hrev, rfl⟩
      · exact htouch.sound h.store
      · exact h.store.grant fresh id
      · exact h.store.endLease hrev
    show NodeSound st id' (update σ.node id n id')
    by_cases hid : id' = id
    · subst hid
      rw [update_self]
      exact (h.node id').step hlocal
    · rw [update_of_ne hid]
      exact (h.node id').other hid (h.node id) hlocal
  | expire hrev hfence =>
    refine ⟨h.store.endLease hrev, fun id => (h.node id).endLease fun hf hm => ?_⟩
    cases (hfence id hm).symm.trans hf
  | advance hrev =>
    refine ⟨h.store.advance hrev, fun id => ?_⟩
    obtain ⟨h₁, h₂, h₃, h₄, h₅, h₆, h₇⟩ := h.node id
    exact ⟨h₁, h₂, h₃, h₄, h₅, h₆, h₇⟩

theorem Step.later (hstep : Step σ τ) : σ.store.Later τ.store := by
  cases hstep with
  | node id hlocal =>
    rcases local_store hlocal with htouch | ⟨fresh, -, rfl⟩ | ⟨old, rev, -, hrev, rfl⟩
    · exact htouch.later
    · exact ⟨le_rfl, fun _ _ he => .inl he⟩
    · exact Store.later_endLease hrev
  | expire hrev => exact Store.later_endLease hrev
  | advance hrev => exact ⟨hrev, fun _ _ he => .inl he⟩

theorem Sound.run (h : σ.Sound) (hrun : Relation.ReflTransGen Step σ τ) :
    τ.Sound ∧ σ.store.Later τ.store := by
  induction hrun with
  | refl => exact ⟨h, Store.Later.refl _⟩
  | tail _ hstep ih => exact ⟨ih.1.step hstep, ih.2.trans hstep.later⟩

theorem Reachable.sound (h : σ.Reachable) : σ.Sound := by
  obtain ⟨σ₀, h₀, hrun⟩ := h
  exact (h₀.sound.run hrun).1

/-- **Exclusive ownership.**  Whenever Term answers a term, the claim in the store is this node's,
under its current lease, created at that revision.  So no two nodes hold a shard at once, and a
later tenure of a shard has a later term. -/
theorem exclusive_ownership {σ : System Id Shard Lease} (h : σ.Reachable) :
    (∀ id s t, σ.term id s = some t → (σ.node id).member = (σ.node id).lease ∧
      σ.store.live (σ.node id).lease = true ∧
      σ.store.entry s = some ⟨id, (σ.node id).lease, t⟩) ∧
    (∀ id id' s t t', σ.term id s = some t → σ.term id' s = some t' → id = id') ∧
    ∀ τ, Relation.ReflTransGen Step σ τ → ∀ id id' s t t', σ.term id s = some t →
      τ.term id' s = some t' → t < t' ∨
        (t = t' ∧ id = id' ∧ (σ.node id).lease = (τ.node id').lease) := by
  have hsound := h.sound
  refine ⟨fun id s t ht => hsound.claim ht, fun id id' s t t' ht ht' => ?_,
    fun τ hrun id id' s t t' ht ht' => ?_⟩
  · have heq := (hsound.claim ht).2.2.symm.trans (hsound.claim ht').2.2
    exact (Entry.mk.inj (some.inj heq)).1
  obtain ⟨hτ, hlater⟩ := hsound.run hrun
  have hclaim := (hsound.claim ht).2.2
  rcases hlater.entry s _ (hτ.claim ht').2.2 with hsame | hlt
  · obtain ⟨hid, hlease, hterm⟩ := Entry.mk.inj (some.inj (hclaim.symm.trans hsame))
    exact .inr ⟨hterm, hid, hlease⟩
  · exact .inl ((hsound.store.created s _ hclaim).trans_lt hlt)

/-- Two nodes that just registered, over an empty store. -/
def twoNodes : System Bool Unit ℕ where
  store := ⟨0, fun _ => none, fun l => l < 2, fun l => if l < 2 then some (l == 1) else none⟩
  node id := ⟨id.toNat, id.toNat, false, false, fun _ => none, fun _ => false, .free, 0, .none⟩

theorem isStart_twoNodes : twoNodes.IsStart where
  store := by
    refine ⟨nofun, nofun, fun l hl => ?_⟩
    have hl : l < 2 := of_decide_eq_true hl
    show (if l < 2 then some (l == 1) else none) ≠ none
    rw [if_pos hl]
    exact nofun
  grantee id := by cases id <;> rfl
  lease _ := rfl
  fence id _ := by cases id <;> rfl
  held _ _ := rfl
  task _ := rfl
  rejoin _ := rfl

/-- One of them ensures the shard and is told its term. -/
theorem exclusive_ownership_ensured : ∃ σ : System Bool Unit ℕ, σ.Reachable ∧
    σ.term false () = some 1 ∧ σ.store.entry () = some ⟨false, 0, 1⟩ := by
  have hrun : ∃ σ : System Bool Unit ℕ, Relation.ReflTransGen Step twoNodes σ ∧
      σ.term false () = some 1 ∧ (σ.node false).lease = 0 :=
    ⟨_, ((Relation.ReflTransGen.single (Step.node false (.ensure (s := ()) rfl rfl rfl))).tail
      (Step.node false (.ensurePass (s := ()) rfl .first))).tail
      (Step.node false (.ensureRecord (s := ()) (t := 1) rfl rfl)), rfl, rfl⟩
  obtain ⟨σ, hrun, hterm, hlease⟩ := hrun
  have hreach : σ.Reachable := ⟨twoNodes, isStart_twoNodes, hrun⟩
  refine ⟨σ, hreach, hterm, ?_⟩
  rw [((exclusive_ownership hreach).1 false () 1 hterm).2.2, hlease]

end System
end OtelStorage.Cluster
