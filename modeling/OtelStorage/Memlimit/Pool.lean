import Mathlib.Algebra.BigOperators.Group.List.Basic
import Mathlib.Algebra.Order.Ring.Int

/-!
# The memory pool

`internal/memlimit`: a pool admits work by the bytes it means to hold.  A request that fits while
nobody waits is served at once, any other `Acquire` joins a queue, and whoever hands bytes back or
leaves the queue serves its head while it fits.

A state is what the pool's lock guards together with what its callers hold, and an action is one
critical section, so a list of actions is one interleaving of any number of callers.  Requests carry
a ticket, their place in the order they took the lock.  The bytes stay within the total, so the
`int64` sums of the source are exact.
-/

namespace OtelStorage.Memlimit

open List

/-- A request, and the bytes it asks for. -/
structure Waiter where
  ticket : ℕ
  n : ℤ
  deriving DecidableEq

/-- The pool and its callers.  A waiter is `granted` when it is among the `holders`, the callers
that own bytes; `log` records who was given bytes, in order. -/
structure Pool where
  total : ℤ
  free : ℤ
  waiters : List Waiter := []
  holders : List Waiter := []
  log : List ℕ := []
  arrivals : ℕ := 0

/-- A pool of no bytes is no pool: it admits everything. -/
def newPool (total : ℤ) : Option Pool :=
  if total ≤ 0 then none else some { total, free := total }

/-- The loop of `grantLocked`: whom it serves, and the bytes and the queue it leaves. -/
def serve : ℤ → List Waiter → List Waiter × ℤ × List Waiter
  | free, [] => ([], free, [])
  | free, w :: ws =>
      if w.n ≤ free then (w :: (serve (free - w.n) ws).1, (serve (free - w.n) ws).2)
      else ([], free, w :: ws)

/-- What a caller does. -/
inductive Action
  | acquire (n : ℤ)
  | tryAcquire (n : ℤ)
  | release (t : ℕ)
  | abandon (t : ℕ)

/-- The bytes of some requests. -/
def bytes (ws : List Waiter) : ℤ := (ws.map Waiter.n).sum

namespace Pool

variable (p : Pool)

/-- Serve the queue while its first request fits. -/
def grantLocked : Pool :=
  let s := serve p.free p.waiters
  { p with
    free := s.2.1, waiters := s.2.2
    holders := p.holders ++ s.1, log := p.log ++ s.1.map Waiter.ticket }

/-- The next request, clamped to the pool. -/
def request (n : ℤ) : Waiter := ⟨p.arrivals, min (max n 1) p.total⟩

/-- The fast path of `Acquire`, and all that `TryAcquire` does. -/
def take (w : Waiter) : Pool :=
  { p with
    free := p.free - w.n, holders := p.holders ++ [w]
    log := p.log ++ [w.ticket], arrivals := p.arrivals + 1 }

/-- Take the bytes, or queue. -/
def acquire (n : ℤ) : Pool :=
  if p.waiters = [] ∧ (p.request n).n ≤ p.free then p.take (p.request n)
  else { p with waiters := p.waiters ++ [p.request n], arrivals := p.arrivals + 1 }

/-- Take the bytes, or leave. -/
def tryAcquire (n : ℤ) : Pool :=
  if p.waiters = [] ∧ (p.request n).n ≤ p.free then p.take (p.request n)
  else { p with arrivals := p.arrivals + 1 }

/-- Bytes come back, and go on to whoever is waiting. -/
def put (w : Waiter) : Pool :=
  { p with free := p.free + w.n, holders := p.holders.erase w }.grantLocked

/-- A releaser called: the first call puts the bytes back, a later one does nothing. -/
def release (t : ℕ) : Pool :=
  match p.holders.find? (·.ticket == t) with
  | some w => p.put w
  | none => p

/-- A caller gives up: a waiter that was served in the meantime owns its bytes and returns them. -/
def abandon (t : ℕ) : Pool :=
  match p.holders.find? (·.ticket == t) with
  | some w => p.put w
  | none =>
    match p.waiters.find? (·.ticket == t) with
    | some w => { p with waiters := p.waiters.erase w }.grantLocked
    | none => p

/-- One critical section. -/
def step : Action → Pool
  | .acquire n => p.acquire n
  | .tryAcquire n => p.tryAcquire n
  | .release t => p.release t
  | .abandon t => p.abandon t

/-- The tickets of everyone served so far, of the queue behind them, and the next one. -/
def tickets : List ℕ := p.log ++ p.waiters.map Waiter.ticket ++ [p.arrivals]

end Pool

/-! ## Serving the queue -/

/-- The served requests are the front of the queue, and the first one left does not fit. -/
theorem serve_spec (free : ℤ) (ws : List Waiter) (h : 0 ≤ free) :
    (serve free ws).1 ++ (serve free ws).2.2 = ws ∧
      bytes (serve free ws).1 + (serve free ws).2.1 = free ∧ 0 ≤ (serve free ws).2.1 ∧
      ∀ w ∈ (serve free ws).2.2.head?, (serve free ws).2.1 < w.n := by
  induction ws generalizing free with
  | nil => simp [serve, bytes, h]
  | cons w ws ih =>
    unfold serve
    split
    · next hfit =>
      obtain ⟨hsplit, hsum, hfree, hhead⟩ := ih (free - w.n) (by omega)
      refine ⟨congrArg (w :: ·) hsplit, ?_, hfree, hhead⟩
      simp only [bytes, map_cons, sum_cons] at hsum ⊢
      omega
    · next hfit => simpa [bytes, h] using hfit

namespace Pool

/-- What every critical section keeps: the bytes add up, and the tickets ascend. -/
structure Sound (total : ℤ) (p : Pool) : Prop where
  total_eq : p.total = total
  total_pos : 0 < total
  balance : bytes p.holders + p.free = total
  free_nonneg : 0 ≤ p.free
  size : ∀ w ∈ p.holders ++ p.waiters, 0 < w.n ∧ w.n ≤ total
  order : p.tickets.Pairwise (· < ·)
  logged : ∀ w ∈ p.holders, w.ticket ∈ p.log

/-- When the lock is free, the first queued request does not fit either. -/
structure Quiet (total : ℤ) (p : Pool) : Prop extends Sound total p where
  settled : ∀ w ∈ p.waiters.head?, p.free < w.n

variable {total : ℤ} {p : Pool}

theorem Sound.grantLocked (h : Sound total p) : Quiet total p.grantLocked := by
  obtain ⟨hsplit, hsum, hfree, hhead⟩ := serve_spec p.free p.waiters h.free_nonneg
  have htickets : p.grantLocked.tickets = p.tickets := by
    simp only [tickets, Pool.grantLocked, append_assoc, ← map_append, hsplit]
  have hbalance := h.balance
  refine ⟨⟨h.total_eq, h.total_pos, ?_, hfree, ?_, htickets ▸ h.order, ?_⟩, hhead⟩
  · simp only [Pool.grantLocked, bytes, map_append, sum_append] at hsum hbalance ⊢
    omega
  · simpa only [Pool.grantLocked, append_assoc, hsplit] using h.size
  · exact forall_mem_append.mpr ⟨fun w hw => mem_append_left _ (h.logged w hw),
      fun w hw => mem_append_right _ (mem_map_of_mem hw)⟩

theorem Sound.put (h : Sound total p) {w : Waiter} (hw : w ∈ p.holders) :
    Quiet total (p.put w) := by
  have hbytes : w.n + bytes (p.holders.erase w) = bytes p.holders := sum_map_erase Waiter.n hw
  have hpos := (h.size w (mem_append_left _ hw)).1
  have hbalance := h.balance
  have hfree := h.free_nonneg
  exact Sound.grantLocked { h with
    balance := show bytes (p.holders.erase w) + (p.free + w.n) = total by omega
    free_nonneg := show 0 ≤ p.free + w.n by omega
    size := fun v hv => h.size v ((erase_sublist.append_right _).mem hv)
    logged := fun v hv => h.logged v (mem_of_mem_erase hv) }

namespace Quiet

theorem arrive (h : Quiet total p) : (p.tickets ++ [p.arrivals + 1]).Pairwise (· < ·) := by
  have hlt := (pairwise_append.mp h.order).2.2
  refine pairwise_append.mpr ⟨h.order, pairwise_singleton _ _, ?_⟩
  simp only [tickets, mem_append, mem_singleton, forall_eq] at hlt ⊢
  grind

theorem request_size (h : Quiet total p) (n : ℤ) : ∀ w ∈ [p.request n], 0 < w.n ∧ w.n ≤ total := by
  have := h.total_pos
  simp only [mem_singleton, forall_eq, request, h.total_eq]
  omega

theorem take (h : Quiet total p) (n : ℤ) (hnil : p.waiters = []) (hle : (p.request n).n ≤ p.free) :
    Quiet total (p.take (p.request n)) := by
  have htickets : (p.take (p.request n)).tickets = p.tickets ++ [p.arrivals + 1] := by
    simp [tickets, Pool.take, hnil, request]
  have hbalance := h.balance
  refine ⟨⟨h.total_eq, h.total_pos, ?_, sub_nonneg.mpr hle, ?_, htickets ▸ h.arrive, ?_⟩,
    by simp [Pool.take, hnil]⟩
  · simp only [Pool.take, bytes, map_append, sum_append, map_singleton, sum_singleton] at hbalance ⊢
    omega
  · have hsize := h.size
    simp only [Pool.take, hnil, append_nil] at hsize ⊢
    exact forall_mem_append.mpr ⟨hsize, h.request_size n⟩
  · exact forall_mem_append.mpr ⟨fun w hw => mem_append_left _ (h.logged w hw), by simp [Pool.take]⟩

theorem acquire (h : Quiet total p) (n : ℤ) : Quiet total (p.acquire n) := by
  unfold Pool.acquire
  split
  · next hfit => exact h.take n hfit.1 hfit.2
  next hfit =>
  have hsize := forall_mem_append.mpr ⟨h.size, h.request_size n⟩
  have hs := h.settled
  refine ⟨⟨h.total_eq, h.total_pos, h.balance, h.free_nonneg, append_assoc _ _ _ ▸ hsize,
    by simpa [tickets, request] using h.arrive, h.logged⟩, ?_⟩
  cases hw : p.waiters with
  | nil => simpa [hw] using hfit
  | cons w ws => simpa [hw] using hs

theorem tryAcquire (h : Quiet total p) (n : ℤ) : Quiet total (p.tryAcquire n) := by
  unfold Pool.tryAcquire
  split
  · next hfit => exact h.take n hfit.1 hfit.2
  · exact { h with order := h.arrive.sublist ((sublist_append_left _ _).append_right _) }

theorem release (h : Quiet total p) (t : ℕ) : Quiet total (p.release t) := by
  unfold Pool.release
  split
  · next hw => exact h.put (mem_of_find?_eq_some hw)
  · exact h

theorem abandon (h : Quiet total p) (t : ℕ) : Quiet total (p.abandon t) := by
  unfold Pool.abandon
  split
  · next hw => exact h.put (mem_of_find?_eq_some hw)
  split
  · next w hw =>
    -- no bytes move, yet the request behind the one that left may fit now
    have hsub : (p.waiters.erase w).Sublist p.waiters := erase_sublist
    exact Sound.grantLocked { h with
      size := fun v hv => h.size v ((hsub.append_left _).mem hv)
      order := h.order.sublist (((hsub.map _).append_left _).append_right _) }
  · exact h

theorem step (h : Quiet total p) (a : Action) : Quiet total (p.step a) := by
  cases a with
  | acquire n => exact h.acquire n
  | tryAcquire n => exact h.tryAcquire n
  | release t => exact h.release t
  | abandon t => exact h.abandon t

end Quiet

theorem quiet_newPool (h : newPool total = some p) : Quiet total p := by
  unfold newPool at h
  split at h
  · cases h
  next hpos =>
  cases h
  have : 0 < total := not_le.mp hpos
  exact ⟨⟨rfl, this, by simp [bytes], this.le, nofun, by simp [tickets], nofun⟩, nofun⟩

theorem quiet_run (h : newPool total = some p) (as : List Action) : Quiet total (as.foldl step p) :=
  foldlRecOn (motive := Quiet total) as step (quiet_newPool h) fun _ hq a _ => hq.step a

variable (total p)

/-- **The pool neither overcommits nor lets anyone overtake.**  Under every interleaving the bytes
held and the bytes free add up to the total, neither negative, and whoever was given bytes arrived
before everyone given bytes later and before everyone queued. -/
theorem grants_in_order (h : newPool total = some p) (as : List Action) :
    let q := as.foldl step p
    bytes q.holders + q.free = total ∧ 0 ≤ q.free ∧
      (∀ w ∈ q.holders, 0 < w.n ∧ w.ticket ∈ q.log) ∧ q.log.Pairwise (· < ·) ∧
      ∀ t ∈ q.log, ∀ w ∈ q.waiters, t < w.ticket := by
  have hq := quiet_run h as
  obtain ⟨hlog, -, hcross⟩ := pairwise_append.mp (pairwise_append.mp hq.order).1
  exact ⟨hq.balance, hq.free_nonneg,
    fun w hw => ⟨(hq.size w (mem_append_left _ hw)).1, hq.logged w hw⟩, hlog,
    fun t ht w hw => hcross t ht _ (mem_map_of_mem hw)⟩

/-- With forty of a hundred bytes held, a hundred and a fifty queue, and the hundred gives up. -/
theorem grants_in_order_cancelled_head :
    let q := [Action.acquire 40, .acquire 100, .acquire 50, .abandon 1].foldl step
      { total := 100, free := 100 }
    q.log = [0, 2] ∧ bytes q.holders + q.free = 100 :=
  ⟨by decide, (grants_in_order 100 _ rfl _).1⟩

/-- **Nobody waits for nothing.**  Whenever the lock is free the first queued request does not fit,
and while anyone is queued someone holds bytes. -/
theorem queue_waits_on_holder (h : newPool total = some p) (as : List Action) :
    let q := as.foldl step p
    (∀ w ∈ q.waiters.head?, q.free < w.n) ∧ (q.waiters ≠ [] → q.holders ≠ []) := by
  have hq := quiet_run h as
  refine ⟨hq.settled, fun hne hnil => hne ?_⟩
  cases hws : (as.foldl step p).waiters with
  | nil => rfl
  | cons w ws =>
    -- the whole pool is free, and no request exceeds it
    have hfits := (hq.size w (by simp [hws])).2
    have hlt := hq.settled w (by simp [hws])
    have hbalance := hq.balance
    simp only [hnil, bytes, map_nil, sum_nil] at hbalance
    omega

theorem queue_waits_on_holder_two :
    let q := [Action.acquire 40, .acquire 100].foldl step { total := 100, free := 100 }
    q.waiters = [⟨1, 100⟩] ∧ q.holders ≠ [] :=
  ⟨by decide, (queue_waits_on_holder 100 _ rfl _).2 (by decide)⟩

end Pool

end OtelStorage.Memlimit
