import Mathlib.Data.List.Chain
import Mathlib.Data.List.Pairwise
import Mathlib.Logic.Function.Basic
import Mathlib.Logic.Relation

/-!
# Writers over one compare-and-swap object

Any number of writers share one object.  A writer remembers the version it last saw, its *view*,
prepares a candidate, and saves it on the condition that the object still is what it saw.  Versions
are contents: the save goes through exactly when the stored object equals the view.

A save that goes through has two ends: the writer learns of it, or the answer is lost and it goes on
as if nothing had been written.  Both are `saved`.  Everything else a writer does is `act`: it may
read the object and a shared environment, and it leaves the object alone.

What holds of such a system is mostly local.  `Reachable.inv` is the induction: an invariant between
the object and one writer, kept by the writer's own steps and by the saves of the others.
`Reachable.landed_isChain` is what the condition buys: every save saw the one before it.  So if
every save relates to the one it saw, then all the saves that ever landed are related in order
(`Reachable.landed_pairwise`).
-/

namespace OtelStorage.CasStore

open Function

/-- What a writer in state `S` does to an object `V` in an environment `E`. -/
structure Protocol (E S V : Type*) where
  view : S → Option V
  candidate : S → Option V
  act : E → Option V → S → E → S → Prop
  saved : S → S → Prop

/-- The object, the writers, and each save that landed, newest first: the writer as it saved and
what it saved. -/
structure State (E W S V : Type*) where
  env : E
  stored : Option V
  writer : W → S
  landed : List (S × V)

variable {E W S V : Type*} [DecidableEq W] {P : Protocol E S V} {init : S → Prop}

namespace State

variable (σ : State E W S V)

/-- Writer `w` becomes `s` in the environment `e`. -/
def put (w : W) (e : E) (s : S) : State E W S V :=
  { σ with env := e, writer := update σ.writer w s }

/-- Writer `w` saves `v` and becomes `s`. -/
def land (w : W) (v : V) (s : S) : State E W S V :=
  { σ with
    stored := some v
    writer := update σ.writer w s
    landed := (σ.writer w, v) :: σ.landed }

end State

/-- One writer acts, or saves over exactly what it read. -/
inductive Step (P : Protocol E S V) (σ : State E W S V) : State E W S V → Prop
  | act {w : W} {e : E} {s : S} (h : P.act σ.env σ.stored (σ.writer w) e s) : Step P σ (σ.put w e s)
  | save {w : W} {v : V} {s : S} (hc : P.candidate (σ.writer w) = some v)
      (hv : P.view (σ.writer w) = σ.stored) (hs : P.saved (σ.writer w) s) : Step P σ (σ.land w v s)

/-- Nothing is stored yet, and every writer is as it begins. -/
structure IsStart (init : S → Prop) (σ : State E W S V) : Prop where
  stored : σ.stored = none
  landed : σ.landed = []
  writer : ∀ w, init (σ.writer w)

/-- The states of the runs of a protocol. -/
def Reachable (P : Protocol E S V) (init : S → Prop) (σ : State E W S V) : Prop :=
  ∃ σ₀, IsStart init σ₀ ∧ Relation.ReflTransGen (Step P) σ₀ σ

variable {σ : State E W S V}

section

variable (h : Reachable P init σ) {L : S → Prop}

include h

theorem Reachable.step {τ : State E W S V} (hstep : Step P σ τ) :
    Reachable P init τ := by
  obtain ⟨σ₀, h₀, hrun⟩ := h
  exact ⟨σ₀, h₀, hrun.tail hstep⟩

theorem Reachable.induction {I : State E W S V → Prop} (hstart : ∀ σ₀, IsStart init σ₀ → I σ₀)
    (hstep : ∀ σ τ, Reachable P init σ → I σ → Step P σ τ → I τ) : I σ := by
  obtain ⟨σ₀, h₀, hrun⟩ := h
  induction hrun with
  | refl => exact hstart σ₀ h₀
  | tail hrun h ih => exact hstep _ _ ⟨σ₀, h₀, hrun⟩ ih h

theorem Reachable.stored_eq : σ.stored = σ.landed.head?.map Prod.snd := by
  refine h.induction (I := fun σ => σ.stored = σ.landed.head?.map Prod.snd)
    (fun σ₀ h₀ => ?_) fun σ τ _ hσ hstep => ?_
  · rw [h₀.stored, h₀.landed]
    rfl
  · cases hstep with
    | act _ => exact hσ
    | save _ _ _ => rfl

/-- **Invariants between the object and one writer.**  `L` holds between the object and every
writer, when a writer's own steps keep it, and so do the saves of the others. -/
theorem Reachable.inv {L : Option V → S → Prop} (hinit : ∀ s, init s → L none s)
    (hact : ∀ e o s e' s', L o s → P.act e o s e' s' → L o s')
    (hsave : ∀ s v s', L (P.view s) s → P.candidate s = some v → P.saved s s' → L (some v) s')
    (hother : ∀ s v t, L (P.view s) s → P.candidate s = some v → L (P.view s) t → L (some v) t) :
    (∀ w, L σ.stored (σ.writer w)) ∧
      ∀ x ∈ σ.landed, L (P.view x.1) x.1 ∧ P.candidate x.1 = some x.2 := by
  refine h.induction (I := fun σ => (∀ w, L σ.stored (σ.writer w)) ∧
    ∀ x ∈ σ.landed, L (P.view x.1) x.1 ∧ P.candidate x.1 = some x.2)
    (fun σ₀ h₀ => ?_) fun σ τ _ hσ hstep => ?_
  · refine ⟨fun w => h₀.stored ▸ hinit _ (h₀.writer w), ?_⟩
    rw [h₀.landed]
    exact nofun
  obtain ⟨hL, hlanded⟩ := hσ
  have hupdate : ∀ o w s, L o s → (∀ w', w' ≠ w → L o (σ.writer w')) →
      ∀ w', L o (update σ.writer w s w') := by
    intro o w s hs hrest w'
    by_cases hw : w' = w
    · rw [hw, update_self]
      exact hs
    · rw [update_of_ne hw]
      exact hrest w' hw
  cases hstep with
  | act hact' =>
    exact ⟨hupdate _ _ _ (hact _ _ _ _ _ (hL _) hact') fun w' _ => hL w', hlanded⟩
  | @save w v s hc hv hs =>
    have hview : L (P.view (σ.writer w)) (σ.writer w) := hv ▸ hL w
    refine ⟨hupdate _ _ _ (hsave _ _ _ hview hc hs) fun w' _ => ?_, ?_⟩
    · exact hother _ _ _ hview hc (hv ▸ hL w')
    · exact List.forall_mem_cons.mpr ⟨⟨hview, hc⟩, hlanded⟩

/-- **Every save saw the one before it.** -/
theorem Reachable.landed_isChain : σ.landed.IsChain fun x y => P.view x.1 = some y.2 := by
  refine h.induction (I := fun σ => σ.landed.IsChain fun x y => P.view x.1 = some y.2)
    (fun σ₀ h₀ => ?_) fun σ τ hσ ih hstep => ?_
  · rw [h₀.landed]
    exact List.IsChain.nil
  cases hstep with
  | act _ => exact ih
  | @save w v s hc hv hs =>
    have hstored := hσ.stored_eq
    show List.IsChain _ ((σ.writer w, v) :: σ.landed)
    cases hl : σ.landed with
    | nil => exact List.IsChain.singleton _
    | cons z zs =>
      rw [hl] at hstored ih
      exact List.IsChain.cons_cons (hv.trans hstored) ih

/-- **Saves that relate to the one they saw land in order.** -/
theorem Reachable.landed_pairwise {R : S × V → S × V → Prop}
    (hL : ∀ x ∈ σ.landed, L x.1 ∧ P.candidate x.1 = some x.2)
    (hR : ∀ x y, L x.1 → L y.1 → P.candidate x.1 = some x.2 → P.candidate y.1 = some y.2 →
      P.view x.1 = some y.2 → R y x) (htrans : ∀ x y z, R x y → R y z → R x z) :
    σ.landed.Pairwise fun x y => R y x := by
  have hchain : σ.landed.IsChain fun x y => R y x := by
    refine h.landed_isChain.imp_of_mem_imp fun x y hx hy hview => ?_
    exact hR x y (hL x hx).1 (hL y hy).1 (hL x hx).2 (hL y hy).2 hview
  have : Trans (fun x y => R y x) (fun x y => R y x) fun x y => R y x :=
    ⟨fun hxy hyz => htrans _ _ _ hyz hxy⟩
  exact hchain.pairwise

/-- **What every save keeps of the one it saw, all later saves keep**, until one in between gives it
up. -/
theorem Reachable.landed_kept {K G : V → Prop}
    (hL : ∀ x ∈ σ.landed, L x.1 ∧ P.candidate x.1 = some x.2)
    (hstep : ∀ (x : S × V) (v : V), L x.1 → P.candidate x.1 = some x.2 → P.view x.1 = some v →
      K v → K x.2 ∨ G x.2) {newer mid older : List (S × V)} {x y : S × V}
    (hl : σ.landed = newer ++ y :: (mid ++ x :: older)) (hx : K x.2) :
    K y.2 ∨ ∃ z ∈ y :: mid, G z.2 := by
  have hchain := h.landed_isChain
  rw [hl] at hchain hL
  replace hchain := hchain.right_of_append
  replace hL := fun z hz => hL z (List.mem_append_right _ hz)
  clear hl
  induction mid generalizing y with
  | nil =>
    have hy := hL y List.mem_cons_self
    refine (hstep y _ hy.1 hy.2 (List.isChain_cons_cons.mp hchain).1 hx).imp_right fun hup => ?_
    exact ⟨y, List.mem_cons_self, hup⟩
  | cons z mid ih =>
    obtain ⟨hview, hrest⟩ := List.isChain_cons_cons.mp hchain
    have hy := hL y List.mem_cons_self
    rcases ih hrest (fun u hu => hL u (List.mem_cons_of_mem _ hu)) with hz | ⟨u, hu, hup⟩
    · refine (hstep y _ hy.1 hy.2 hview hz).imp_right fun hup => ?_
      exact ⟨y, List.mem_cons_self, hup⟩
    · exact .inr ⟨u, List.mem_cons_of_mem _ hu, hup⟩

end

end OtelStorage.CasStore
