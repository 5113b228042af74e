import Mathlib.Algebra.BigOperators.Group.Finset.Basic
import Mathlib.Algebra.Order.BigOperators.Group.Finset
import Mathlib.Data.Fintype.Basic
import Mathlib.Data.Set.Lattice
import Mathlib.Logic.Function.Basic

/-!
# Closures computed by a work queue

A family of rules is given over sets: rule `i` *applies* to a set, and once it does the closure
gains the set `add i`.  The naive way to compute the closure rescans every rule until nothing
changes.  A work queue looks only at the rules that a newly gained piece can make apply: those
whose *trigger* set meets the piece.

`Worklist.run_spec` is the correctness of the queue.  The held set it ends with is the least set
that contains the start and is closed under the rules, and a rule was used exactly when it
applies to that set.  The invariant is `Worklist.Inv`: a rule that applies and was not used yet
is either still to be offered in the current round or is triggered by a piece that is queued.
-/

namespace OtelStorage.Worklist

open List Function

variable {σ ι q β : Type*} {A : Set β}

/-! ## The closure -/

section Closure

variable (app : ι → Set β → Prop) (add : ι → Set β) {T : Set β}

/-- A set that holds what every rule applying to it adds. -/
def Closed (T : Set β) : Prop := ∀ i, app i T → add i ⊆ T

/-- The least closed set above `S`, when the rules are monotone. -/
def closure (S : Set β) : Set β := ⋂₀ {T | S ⊆ T ∧ Closed app add T}

theorem subset_closure (S : Set β) : S ⊆ closure app add S :=
  Set.subset_sInter fun _ hT => hT.1

theorem closure_subset {S : Set β} (hST : S ⊆ T) (hT : Closed app add T) : closure app add S ⊆ T :=
  Set.sInter_subset_of_mem ⟨hST, hT⟩

theorem closed_closure (hmono : ∀ i S T, S ⊆ T → app i S → app i T) (S : Set β) :
    Closed app add (closure app add S) := by
  intro i hi
  refine Set.subset_sInter fun T hT => ?_
  exact hT.2 i (hmono i _ _ (closure_subset app add hT.1 hT.2) hi)

theorem closure_mono (hmono : ∀ i S T, S ⊆ T → app i S → app i T) {S : Set β}
    (h : S ⊆ closure app add T) : closure app add S ⊆ closure app add T :=
  closure_subset app add h (closed_closure app add hmono T)

/-- What the closure adds to the start, some rule that applies adds. -/
theorem mem_closure_iff (hmono : ∀ i S T, S ⊆ T → app i S → app i T) {S : Set β} {x : β} :
    x ∈ closure app add S ↔ x ∈ S ∨ ∃ i, app i (closure app add S) ∧ x ∈ add i := by
  constructor
  · intro hx
    refine closure_subset app add (T := {x | x ∈ S ∨ ∃ i, app i (closure app add S) ∧ x ∈ add i})
      (fun y hy => .inl hy) (fun i hi y hy => .inr ⟨i, hmono i _ _ ?_ hi, hy⟩) hx
    rintro z (hz | ⟨j, hj, hz⟩)
    · exact subset_closure app add S hz
    · exact closed_closure app add hmono S j hj hz
  · rintro (hx | ⟨i, hi, hx⟩)
    · exact subset_closure app add S hx
    · exact closed_closure app add hmono S i hi hx

variable {ι' : Type*} {app} {add} {app' : ι' → Set β → Prop} {add' : ι' → Set β}

theorem closure_subset_of_rules (hmono : ∀ i S T, S ⊆ T → app' i S → app' i T)
    (h : ∀ i, ∃ j, (∀ T, app i T → app' j T) ∧ add i ⊆ add' j) (S : Set β) :
    closure app add S ⊆ closure app' add' S := by
  refine closure_subset app add (subset_closure app' add' S) fun i hi => ?_
  obtain ⟨j, happ, hadd⟩ := h i
  exact hadd.trans (closed_closure app' add' hmono S j (happ _ hi))

end Closure

/-! ## The queue -/

/-- The parts of a closure computation: the held value and the set it denotes, the queued pieces
and theirs, the rules a piece triggers, the test that a rule applies, and what using it does. -/
structure System (σ ι q β : Type*) where
  den : σ → Set β
  span : q → Set β
  meeting : q → List ι
  test : ι → σ → Bool
  grow : σ → ι → σ
  pieces : ι → List q

/-- What is held, which rules were used, and the pieces still to be followed, next one first. -/
structure State (σ ι q : Type*) where
  held : σ
  via : ι → Bool
  queue : List q

variable [DecidableEq σ] [DecidableEq ι] {S : System σ ι q β} {app : ι → Set β → Prop}
  {add idx : ι → Set β} {s : State σ ι q} {r : q}

/-- Offer a rule: one that was used already, or does not apply yet, changes nothing.  Its pieces
are queued only if it made the held value grow. -/
def System.offer (S : System σ ι q β) (s : State σ ι q) (i : ι) : State σ ι q :=
  if s.via i then s
  else if !S.test i s.held then s
  else if S.grow s.held i = s.held then ⟨s.held, update s.via i true, s.queue⟩
  else ⟨S.grow s.held i, update s.via i true, S.pieces i ++ s.queue⟩

/-- Pop a piece and offer every rule it triggers, until the queue is empty. -/
def System.run (S : System σ ι q β) : ℕ → State σ ι q → State σ ι q
  | 0, s => s
  | fuel + 1, s =>
      match s.queue with
      | [] => s
      | r :: rest => S.run fuel ((S.meeting r).foldl S.offer ⟨s.held, s.via, rest⟩)

/-- The parts of a system compute what the rules `app` and `add` say, with `idx i` the set whose
new elements can make rule `i` apply. -/
structure Computes (S : System σ ι q β) (app : ι → Set β → Prop) (add idx : ι → Set β) : Prop where
  mem_meeting : ∀ r i, (idx i ∩ S.span r).Nonempty → i ∈ S.meeting r
  test_iff : ∀ r i h, i ∈ S.meeting r → (S.span r).Nonempty → S.span r ⊆ S.den h →
    (S.test i h = true ↔ app i (S.den h))
  den_grow : ∀ h i, S.den (S.grow h i) = S.den h ∪ add i
  pieces_sub : ∀ i, ∀ r ∈ S.pieces i, (S.span r).Nonempty ∧ S.span r ⊆ add i
  pieces_cover : ∀ i, ∀ x ∈ add i, ∃ r ∈ S.pieces i, x ∈ S.span r
  mono : ∀ i A B, A ⊆ B → app i A → app i B
  trigger : ∀ i A B, A ⊆ B → app i B → ¬ app i A → (idx i ∩ (B \ A)).Nonempty

/-- What holds while the rules `pend` of the current round are still to be offered. -/
structure Inv (S : System σ ι q β) (app : ι → Set β → Prop) (add idx : ι → Set β) (A : Set β)
    (pend : List ι) (s : State σ ι q) : Prop where
  start_sub : A ⊆ S.den s.held
  sub_closure : S.den s.held ⊆ closure app add A
  via_app : ∀ i, s.via i = true → app i (closure app add A)
  via_add : ∀ i, s.via i = true → add i ⊆ S.den s.held
  queue_sub : ∀ r ∈ s.queue, (S.span r).Nonempty ∧ S.span r ⊆ S.den s.held
  todo : ∀ i, s.via i = false → app i (S.den s.held) →
    i ∈ pend ∨ ∃ r ∈ s.queue, (idx i ∩ S.span r).Nonempty

/-- Offering a triggered rule settles it: it is used, or it does not apply yet. -/
theorem Computes.inv_offer (hS : Computes S app add idx) {pend : List ι} {i : ι}
    (hi : i ∈ S.meeting r) (hne : (S.span r).Nonempty) (hr : S.span r ⊆ S.den s.held)
    (h : Inv S app add idx A (i :: pend) s) :
    Inv S app add idx A pend (S.offer s i) ∧ S.den s.held ⊆ S.den (S.offer s i).held := by
  unfold System.offer
  by_cases hvia : s.via i = true
  · rw [if_pos hvia]
    refine ⟨{ h with todo := fun j hj happ => ?_ }, subset_rfl⟩
    rcases h.todo j hj happ with hmem | hq
    · rcases mem_cons.mp hmem with rfl | hmem
      · exact absurd (hvia.symm.trans hj) (by decide)
      · exact .inl hmem
    · exact .inr hq
  rw [if_neg hvia]
  by_cases htest : S.test i s.held = true
  swap
  · rw [if_pos (by simpa using htest)]
    refine ⟨{ h with todo := fun j hj happ => ?_ }, subset_rfl⟩
    rcases h.todo j hj happ with hmem | hq
    · rcases mem_cons.mp hmem with rfl | hmem
      · exact absurd ((hS.test_iff r j _ hi hne hr).mpr happ) htest
      · exact .inl hmem
    · exact .inr hq
  rw [if_neg (by simpa using htest)]
  have happ : app i (S.den s.held) := (hS.test_iff r i _ hi hne hr).mp htest
  have happ' : app i (closure app add A) := hS.mono i _ _ h.sub_closure happ
  have hadd : add i ⊆ closure app add A := closed_closure app add hS.mono A i happ'
  have hden := hS.den_grow s.held i
  have hviaApp : ∀ j, update s.via i true j = true → app j (closure app add A) := by
    intro j hj
    by_cases hji : j = i
    · exact hji ▸ happ'
    · exact h.via_app j (by rwa [update_of_ne hji] at hj)
  have hother : ∀ j, update s.via i true j = false → j ≠ i ∧ s.via j = false := by
    intro j hj
    by_cases hji : j = i
    · rw [hji, update_self] at hj
      exact absurd hj (by decide)
    · exact ⟨hji, by rwa [update_of_ne hji] at hj⟩
  have hviaAdd : ∀ j, update s.via i true j = true → add j ⊆ S.den s.held ∪ add i := by
    intro j hj
    by_cases hji : j = i
    · exact hji ▸ Set.subset_union_right
    · exact (h.via_add j (by rwa [update_of_ne hji] at hj)).trans Set.subset_union_left
  by_cases hgrow : S.grow s.held i = s.held
  · rw [if_pos hgrow]
    rw [hgrow] at hden
    refine ⟨⟨h.start_sub, h.sub_closure, hviaApp, fun j hj => hden ▸ hviaAdd j hj, h.queue_sub,
      fun j hj happ => ?_⟩, subset_rfl⟩
    obtain ⟨hji, hj'⟩ := hother j hj
    exact (h.todo j hj' happ).imp_left fun hmem => (mem_cons.mp hmem).resolve_left hji
  rw [if_neg hgrow]
  have hsub : S.den s.held ⊆ S.den (S.grow s.held i) := hden ▸ Set.subset_union_left
  refine ⟨⟨h.start_sub.trans hsub, hden ▸ Set.union_subset h.sub_closure hadd, hviaApp,
    fun j hj => hden ▸ hviaAdd j hj, fun r' hr' => ?_, fun j hj happ => ?_⟩, hsub⟩
  · rcases mem_append.mp hr' with hr' | hr'
    · exact (hS.pieces_sub i r' hr').imp_right fun h' => h'.trans (hden ▸ Set.subset_union_right)
    · exact (h.queue_sub r' hr').imp_right fun h' => h'.trans hsub
  obtain ⟨hji, hj'⟩ := hother j hj
  by_cases hold : app j (S.den s.held)
  · rcases h.todo j hj' hold with hmem | ⟨r', hr', hmeet⟩
    · exact .inl ((mem_cons.mp hmem).resolve_left hji)
    · exact .inr ⟨r', mem_append_right _ hr', hmeet⟩
  -- `j` applies only now, so a piece just queued triggers it
  obtain ⟨x, hx, hxnew, hxold⟩ := hS.trigger j _ _ hsub happ hold
  rw [hden] at hxnew
  obtain ⟨r', hr', hx'⟩ := hS.pieces_cover i x (hxnew.resolve_left hxold)
  exact .inr ⟨r', mem_append_left _ hr', x, hx, hx'⟩

theorem Computes.inv_round (hS : Computes S app add idx) (l : List ι)
    (hl : ∀ i ∈ l, i ∈ S.meeting r) (s : State σ ι q) (hne : (S.span r).Nonempty)
    (hr : S.span r ⊆ S.den s.held) (h : Inv S app add idx A l s) :
    Inv S app add idx A [] (l.foldl S.offer s) := by
  induction l generalizing s with
  | nil => exact h
  | cons i l ih =>
    obtain ⟨hstep, hsub⟩ := hS.inv_offer (hl i mem_cons_self) hne hr h
    exact ih (fun j hj => hl j (mem_cons_of_mem i hj)) _ (hr.trans hsub) hstep

theorem Computes.inv_pop (hS : Computes S app add idx) {rest : List q}
    (hq : s.queue = r :: rest) (h : Inv S app add idx A [] s) :
    Inv S app add idx A [] ((S.meeting r).foldl S.offer ⟨s.held, s.via, rest⟩) := by
  obtain ⟨hne, hr⟩ := h.queue_sub r (hq ▸ mem_cons_self)
  refine hS.inv_round (S.meeting r) (fun i hi => hi) _ hne hr
    { h with
      queue_sub := fun r' hr' => h.queue_sub r' (hq ▸ mem_cons_of_mem r hr')
      todo := fun i hi happ => ?_ }
  rcases h.todo i hi happ with hmem | ⟨r', hr', hmeet⟩
  · cases hmem
  rw [hq] at hr'
  rcases mem_cons.mp hr' with rfl | hr'
  · exact .inl (hS.mem_meeting r' i hmeet)
  · exact .inr ⟨r', hr', hmeet⟩

/-! ## The queue runs empty -/

section Fuel

variable [Fintype ι]

/-- The pieces queued, and those the unused rules may still queue. -/
def System.work (S : System σ ι q β) (s : State σ ι q) : ℕ :=
  s.queue.length + ∑ i, if s.via i then 0 else (S.pieces i).length

theorem System.work_offer_le (s : State σ ι q) (i : ι) : S.work (S.offer s i) ≤ S.work s := by
  unfold System.offer
  by_cases hvia : s.via i = true
  · rw [if_pos hvia]
  rw [if_neg hvia]
  by_cases htest : (!S.test i s.held) = true
  · rw [if_pos htest]
  rw [if_neg htest]
  -- using `i` takes its pieces out of the sum
  have hsum : (∑ j, if update s.via i true j then 0 else (S.pieces j).length) +
      (S.pieces i).length = ∑ j, if s.via j then 0 else (S.pieces j).length := by
    rw [← Finset.sum_erase_add _ _ (Finset.mem_univ i),
      ← Finset.sum_erase_add (f := fun j => if s.via j then 0 else (S.pieces j).length) _
        (Finset.mem_univ i)]
    rw [update_self, if_pos rfl, if_neg hvia, add_zero]
    congr 1
    refine Finset.sum_congr rfl fun j hj => ?_
    rw [update_of_ne (Finset.ne_of_mem_erase hj)]
  by_cases hgrow : S.grow s.held i = s.held
  · rw [if_pos hgrow]
    simp only [System.work]
    omega
  · rw [if_neg hgrow]
    simp only [System.work, length_append]
    omega

theorem System.work_round_le (l : List ι) (s : State σ ι q) :
    S.work (l.foldl S.offer s) ≤ S.work s := by
  induction l generalizing s with
  | nil => exact le_rfl
  | cons i l ih => exact (ih _).trans (S.work_offer_le s i)

theorem Computes.inv_run (hS : Computes S app add idx) (fuel : ℕ) (s : State σ ι q)
    (h : Inv S app add idx A [] s) (hfuel : S.work s ≤ fuel) :
    Inv S app add idx A [] (S.run fuel s) ∧ (S.run fuel s).queue = [] := by
  induction fuel generalizing s with
  | zero =>
    refine ⟨h, eq_nil_of_length_eq_zero ?_⟩
    have := (Nat.le_add_right _ _).trans hfuel
    exact Nat.le_zero.mp this
  | succ fuel ih =>
    rw [System.run]
    cases hq : s.queue with
    | nil => exact ⟨h, hq⟩
    | cons r rest =>
      refine ih _ (hS.inv_pop hq h) ?_
      have hround := S.work_round_le (S.meeting r) ⟨s.held, s.via, rest⟩
      simp only [System.work, hq, length_cons] at hfuel hround ⊢
      omega

/-- **The work queue computes the closure.**  With fuel for every piece that can be queued, the
run ends holding the least closed set above the start, and it used exactly the rules that apply
to it. -/
theorem Computes.run_spec (hS : Computes S app add idx) (start : σ) (pieces : List q)
    (hsub : ∀ r ∈ pieces, (S.span r).Nonempty ∧ S.span r ⊆ S.den start)
    (hcover : ∀ x ∈ S.den start, ∃ r ∈ pieces, x ∈ S.span r) (hempty : ∀ i, ¬ app i ∅) (fuel : ℕ)
    (hfuel : pieces.length + ∑ i, (S.pieces i).length ≤ fuel) :
    S.den (S.run fuel ⟨start, fun _ => false, pieces⟩).held = closure app add (S.den start) ∧
      ∀ i, (S.run fuel ⟨start, fun _ => false, pieces⟩).via i = true ↔
        app i (closure app add (S.den start)) := by
  have hinit : Inv S app add idx (S.den start) [] ⟨start, fun _ => false, pieces⟩ := by
    refine ⟨subset_rfl, subset_closure app add _, fun i hi => absurd hi Bool.false_ne_true,
      fun i hi => absurd hi Bool.false_ne_true, hsub, fun i _ happ => .inr ?_⟩
    obtain ⟨x, hx, hx', -⟩ := hS.trigger i ∅ _ (Set.empty_subset _) happ (hempty i)
    obtain ⟨r, hr, hxr⟩ := hcover x hx'
    exact ⟨r, hr, x, hx, hxr⟩
  obtain ⟨h, hq⟩ := hS.inv_run fuel _ hinit (by simpa [System.work] using hfuel)
  have hused : ∀ i, app i (S.den (S.run fuel ⟨start, fun _ => false, pieces⟩).held) →
      (S.run fuel ⟨start, fun _ => false, pieces⟩).via i = true := by
    intro i happ
    by_contra hvia
    rcases h.todo i (Bool.eq_false_iff.mpr hvia) happ with hmem | ⟨r, hr, -⟩
    · cases hmem
    · exact absurd (hq ▸ hr) not_mem_nil
  have hden : S.den (S.run fuel ⟨start, fun _ => false, pieces⟩).held =
      closure app add (S.den start) :=
    subset_antisymm h.sub_closure
      (closure_subset app add h.start_sub fun i happ => h.via_add i (hused i happ))
  exact ⟨hden, fun i => ⟨h.via_app i, fun happ => hused i (hden ▸ happ)⟩⟩

end Fuel

end OtelStorage.Worklist
