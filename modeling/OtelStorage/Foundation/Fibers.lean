import Mathlib.Data.List.Sort

/-!
# Lists ordered by a key, read key by key

A list in the order of its keys is determined by its *fibers*, the elements of each key in their
order (`eq_of_fiber_eq`).  So what a merge of ordered lists returns is said key by key.

A merge that at each key prefers the later list is `overlay`: the elements of the newer list, and
after them those of the older one that are further along than the newer list reaches.  With at most
one element a key, it is the newer list where it has one and the older one elsewhere.
-/

namespace OtelStorage.Fibers

open List

variable {α κ : Type*} {ls : List (List α)} {l : List α}

section Fiber

variable [DecidableEq κ] (key : α → κ) (k : κ) (l : List α) {a : α}

/-- The elements with a key. -/
def fiber : List α := l.filter fun a => key a = k

@[simp] theorem fiber_nil : fiber key k ([] : List α) = [] := rfl

@[simp] theorem fiber_append (m : List α) :
    fiber key k (l ++ m) = fiber key k l ++ fiber key k m := filter_append ..

theorem fiber_cons_self (a : α) (l : List α) :
    fiber key (key a) (a :: l) = a :: fiber key (key a) l :=
  filter_cons_of_pos (decide_eq_true rfl)

variable {k}

theorem fiber_cons_of_ne (h : key a ≠ k) (l : List α) : fiber key k (a :: l) = fiber key k l :=
  filter_cons_of_neg (by simpa using h)

variable {l}

theorem mem_fiber : a ∈ fiber key k l ↔ a ∈ l ∧ key a = k := by
  rw [fiber, mem_filter, decide_eq_true_eq]

theorem fiber_eq_nil (h : ∀ a ∈ l, key a ≠ k) : fiber key k l = [] :=
  filter_eq_nil_iff.mpr fun a ha => by simpa using h a ha

/-- A test that gives one answer on a key keeps its fiber, or none of it. -/
theorem fiber_filter {p : α → Bool} {c : Bool} (h : ∀ a, key a = k → p a = c) :
    fiber key k (l.filter p) = if c then fiber key k l else [] := by
  have hfilter : fiber key k (l.filter p) = l.filter fun a => decide (key a = k) && c := by
    rw [fiber, filter_filter]
    refine filter_congr fun a _ => ?_
    by_cases ha : key a = k
    · rw [h a ha]
    · rw [decide_eq_false ha, Bool.false_and, Bool.false_and]
  rw [hfilter]
  cases c with
  | false => simp
  | true => simp [fiber]

/-- **The fibers of all keys make up the list.** -/
theorem fibers_perm {ks : List κ} (hks : ks.Nodup) (h : ∀ a ∈ l, key a ∈ ks) :
    (ks.flatMap fun k => fiber key k l).Perm l := by
  induction ks generalizing l with
  | nil => rw [eq_nil_iff_forall_not_mem.mpr fun a ha => not_mem_nil (h a ha)]; rfl
  | cons k ks ih =>
    obtain ⟨hk, hks⟩ := nodup_cons.mp hks
    have hrest := ih hks (l := l.filter fun a => !decide (key a = k)) fun a ha => by
      obtain ⟨ha, hne⟩ := mem_filter.mp ha
      exact (mem_cons.mp (h a ha)).resolve_left (by simpa using hne)
    have hfiber : (ks.flatMap fun k' => fiber key k' l) =
        ks.flatMap fun k' => fiber key k' (l.filter fun a => !decide (key a = k)) := by
      refine flatMap_congr fun k' hk' => ?_
      have hne : k' ≠ k := fun heq => hk (heq ▸ hk')
      rw [fiber_filter key (c := true) fun a ha => by simpa [ha] using hne, if_pos rfl]
    rw [flatMap_cons, hfiber]
    exact (hrest.append_left _).trans (filter_append_perm _ l)

end Fiber

/-- **A fold that appends** at every element, to what the accumulator holds. -/
theorem foldl_appends {β γ : Type*} {P : β → List α → Prop} {f : β → γ → β} {g : γ → List α}
    (l : List γ) (hstep : ∀ c ∈ l, ∀ b xs, P b xs → P (f b c) (xs ++ g c)) {b : β} {xs : List α}
    (h : P b xs) : P (l.foldl f b) (xs ++ l.flatMap g) := by
  induction l generalizing b xs with
  | nil => rwa [flatMap_nil, append_nil]
  | cons c l ih =>
    obtain ⟨hc, hl⟩ := forall_mem_cons.mp hstep
    rw [foldl_cons, flatMap_cons, ← append_assoc]
    exact ih hl (hc b xs h)

theorem foldl_sup_le_iff [SemilatticeSup κ] (f : α → κ) (l : List α) {c b : κ} :
    l.foldl (fun c a => c ⊔ f a) c ≤ b ↔ c ≤ b ∧ ∀ a ∈ l, f a ≤ b := by
  induction l generalizing c with
  | nil => simp
  | cons a l ih => rw [foldl_cons, ih, sup_le_iff, forall_mem_cons, and_assoc]

section Ordered

variable [LinearOrder κ] {key : α → κ} {l m : List α} {a : α}

/-- Keys do not decrease along the list. -/
def Ordered (key : α → κ) (l : List α) : Prop := l.Pairwise fun a b => key a ≤ key b

/-- Keys increase along the list. -/
def Strict (key : α → κ) (l : List α) : Prop := l.Pairwise fun a b => key a < key b

instance (key : α → κ) (l : List α) : Decidable (Strict key l) :=
  inferInstanceAs (Decidable (l.Pairwise fun a b => key a < key b))

theorem Strict.ordered (h : Strict key l) : Ordered key l := h.imp fun h => h.le

theorem Ordered.head_le (h : Ordered key (a :: l)) {b : α} (hb : b ∈ a :: l) : key a ≤ key b := by
  rcases mem_cons.mp hb with rfl | hb
  · exact le_rfl
  · exact (pairwise_cons.mp h).1 b hb

/-- **An ordered list is determined by its fibers.** -/
theorem eq_of_fiber_eq (hl : Ordered key l) (hm : Ordered key m)
    (h : ∀ k, fiber key k l = fiber key k m) : l = m := by
  induction l generalizing m with
  | nil =>
    cases m with
    | nil => rfl
    | cons b m =>
      have hb := h (key b)
      rw [fiber_cons_self] at hb
      exact absurd hb.symm (cons_ne_nil _ _)
  | cons a l ih =>
    cases m with
    | nil =>
      have ha := h (key a)
      rw [fiber_cons_self] at ha
      exact absurd ha (cons_ne_nil _ _)
    | cons b m =>
      -- each head's key occurs in the other list, so neither is smaller
      have hab : key a = key b := by
        have ha : a ∈ fiber key (key a) (b :: m) := by
          rw [← h (key a), fiber_cons_self]
          exact mem_cons_self
        have hb : b ∈ fiber key (key b) (a :: l) := by
          rw [h (key b), fiber_cons_self]
          exact mem_cons_self
        exact le_antisymm (hl.head_le ((mem_fiber key).mp hb).1)
          (hm.head_le ((mem_fiber key).mp ha).1)
      have hhead := h (key a)
      rw [fiber_cons_self, hab, fiber_cons_self] at hhead
      obtain ⟨rfl, -⟩ := List.cons.inj hhead
      refine congrArg (a :: ·) (ih hl.of_cons hm.of_cons fun k => ?_)
      have hk := h k
      by_cases ha : key a = k
      · subst ha
        rw [fiber_cons_self, fiber_cons_self] at hk
        exact (List.cons.inj hk).2
      · rwa [fiber_cons_of_ne key ha, fiber_cons_of_ne key ha] at hk

/-- **The fibers of increasing keys, one behind another**, are the elements with one of these keys
in their order. -/
theorem fibers_eq {ks : List κ} (hks : ks.Pairwise (· < ·)) (hl : Ordered key l) :
    (ks.flatMap fun k => fiber key k l) = l.filter fun a => key a ∈ ks := by
  induction ks with
  | nil => simp
  | cons k ks ih =>
    obtain ⟨hk, hks⟩ := pairwise_cons.mp hks
    rw [flatMap_cons, ih hks]
    refine eq_of_fiber_eq (pairwise_append.mpr ⟨hl.filter _, hl.filter _, ?_⟩) (hl.filter _) ?_
    · intro a ha b hb
      have hak := ((mem_fiber key).mp ha).2
      have hbk : key b ∈ ks := by simpa using (mem_filter.mp hb).2
      exact (hak ▸ hk _ hbk).le
    intro k'
    have hself : fiber key k' (fiber key k l) = if decide (k' = k) then fiber key k' l else [] :=
      fiber_filter key fun a ha => by rw [ha]
    rw [fiber_append, hself, fiber_filter key (c := k' ∈ ks) fun a ha => by rw [ha],
      fiber_filter key (c := k' ∈ k :: ks) fun a ha => by rw [ha]]
    by_cases hk' : k' = k
    · subst hk'
      have hnot : k' ∉ ks := fun hmem => lt_irrefl _ (hk k' hmem)
      simp [hnot]
    · simp [hk']

theorem Strict.fiber_eq (h : Strict key l) (ha : a ∈ l) : fiber key (key a) l = [a] := by
  induction l with
  | nil => cases ha
  | cons b l ih =>
    obtain ⟨hb, hl⟩ := pairwise_cons.mp h
    rcases mem_cons.mp ha with rfl | ha
    · rw [fiber_cons_self, fiber_eq_nil key fun c hc => (hb c hc).ne']
    · rw [fiber_cons_of_ne key (hb a ha).ne, ih hl ha]

theorem Strict.inj (h : Strict key l) {b : α} (ha : a ∈ l) (hb : b ∈ l) (hab : key a = key b) :
    a = b := by
  have hmem : a ∈ fiber key (key b) l := (mem_fiber key).mpr ⟨ha, hab⟩
  rw [h.fiber_eq hb] at hmem
  exact mem_singleton.mp hmem

theorem Strict.eq_of_mem_iff (hl : Strict key l) (hm : Strict key m) (h : ∀ a, a ∈ l ↔ a ∈ m) :
    l = m := by
  have hanti : Std.Antisymm fun a b => key a < key b := ⟨fun _ _ h h' => absurd h h'.asymm⟩
  have hirrefl : Std.Irrefl fun a b => key a < key b := ⟨fun a => lt_irrefl (key a)⟩
  exact Pairwise.eq_of_mem_iff hl hm h

theorem Strict.fiber_length_le (h : Strict key l) (k : κ) : (fiber key k l).length ≤ 1 := by
  cases hf : fiber key k l with
  | nil => exact Nat.zero_le 1
  | cons a _ =>
    obtain ⟨ha, rfl⟩ := (mem_fiber key).mp (hf ▸ mem_cons_self)
    have := h.fiber_eq ha
    rw [hf] at this
    rw [this]
    exact Nat.le_refl 1

theorem strict_of_fiber_length_le (h : Ordered key l) (hone : ∀ k, (fiber key k l).length ≤ 1) :
    Strict key l := by
  induction l with
  | nil => exact .nil
  | cons a l ih =>
    obtain ⟨ha, hl⟩ := pairwise_cons.mp h
    refine pairwise_cons.mpr ⟨fun b hb => lt_of_le_of_ne (ha b hb) fun heq => ?_, ih hl fun k => ?_⟩
    · have hlen := hone (key a)
      rw [fiber_cons_self, length_cons] at hlen
      have hpos := length_pos_of_mem ((mem_fiber key).mpr ⟨hb, heq.symm⟩)
      omega
    by_cases hk : key a = k
    · have hlen := hone k
      rw [← hk, fiber_cons_self, length_cons] at hlen
      rw [← hk]
      omega
    · rw [← fiber_cons_of_ne key hk]
      exact hone k

end Ordered

/-! ## Overlays -/

/-- The newer list, and what of the older one lies further along. -/
def overlay (older newer : List α) : List α := newer ++ older.drop newer.length

@[simp] theorem overlay_nil_left : overlay [] l = l := by
  rw [overlay, drop_nil, append_nil]

@[simp] theorem overlay_nil_right : overlay l [] = l := rfl

theorem overlay_cons (older : List α) (a : α) (newer : List α) :
    overlay older (a :: newer) = a :: overlay older.tail newer := by
  rw [overlay, overlay, length_cons, cons_append, ← drop_one, drop_drop, Nat.add_comm]

theorem overlay_assoc (m n : List α) : overlay (overlay l m) n = overlay l (overlay m n) := by
  simp only [overlay, drop_append, append_assoc, length_append, length_drop, drop_drop]
  congr 3
  omega

/-- The overlay of lists, oldest first. -/
def overlayAll : List (List α) → List α
  | [] => []
  | l :: ls => overlay l (overlayAll ls)

theorem overlayAll_append (ls ms : List (List α)) :
    overlayAll (ls ++ ms) = overlay (overlayAll ls) (overlayAll ms) := by
  induction ls with
  | nil => rw [nil_append, overlayAll, overlay_nil_left]
  | cons l ls ih => rw [cons_append, overlayAll, ih, overlayAll, overlay_assoc]

theorem overlayAll_eq_nil : overlayAll ls = [] ↔ ∀ l ∈ ls, l = [] := by
  induction ls with
  | nil => exact ⟨nofun, fun _ => rfl⟩
  | cons l ls ih =>
    rw [overlayAll, overlay, append_eq_nil_iff, forall_mem_cons, ← ih, and_comm]
    refine and_congr_left fun h => ?_
    rw [h, length_nil, drop_zero]

theorem mem_of_mem_overlayAll {a : α} (h : a ∈ overlayAll ls) : ∃ l ∈ ls, a ∈ l := by
  induction ls with
  | nil => cases h
  | cons l ls ih =>
    rcases mem_append.mp h with h | h
    · obtain ⟨m, hm, ha⟩ := ih h
      exact ⟨m, mem_cons_of_mem _ hm, ha⟩
    · exact ⟨l, mem_cons_self, mem_of_mem_drop h⟩

theorem length_overlayAll_le (h : ∀ l ∈ ls, l.length ≤ 1) : (overlayAll ls).length ≤ 1 := by
  induction ls with
  | nil => exact Nat.zero_le 1
  | cons l ls ih =>
    obtain ⟨hl, hls⟩ := forall_mem_cons.mp h
    have := ih hls
    rw [overlayAll, overlay, length_append, length_drop]
    omega

theorem overlayAll_filter_map {β : Type*} (f : β → List α) (p : β → Bool) {l : List β}
    (h : ∀ b ∈ l, p b = false → f b = []) :
    overlayAll ((l.filter p).map f) = overlayAll (l.map f) := by
  induction l with
  | nil => rfl
  | cons b l ih =>
    obtain ⟨hb, hl⟩ := forall_mem_cons.mp h
    cases hp : p b with
    | true => rw [filter_cons_of_pos hp, map_cons, map_cons, overlayAll, ih hl,
        overlayAll]
    | false =>
      rw [filter_cons_of_neg (by simp [hp]), map_cons, overlayAll, ih hl, hb hp, overlay_nil_left]

/-- With one element in all, an overlay is a concatenation. -/
theorem overlayAll_eq_flatten (h : ls.flatten.length ≤ 1) : overlayAll ls = ls.flatten := by
  induction ls with
  | nil => rfl
  | cons l ls ih =>
    rw [flatten_cons, length_append] at h
    rw [overlayAll, ih (by omega), flatten_cons, overlay]
    cases l with
    | nil => rw [drop_nil, append_nil, nil_append]
    | cons a l =>
      rw [length_cons] at h
      rw [length_eq_zero_iff.mp (by omega : ls.flatten.length = 0), append_nil]
      rfl

theorem overlay_eq_right {m : List α} (hl : l.length ≤ 1) (hm : m ≠ []) : overlay l m = m := by
  have hpos := length_pos_iff.mpr hm
  rw [overlay, drop_eq_nil_of_le (by omega), append_nil]

/-- **Taking the first element of every list** takes the first of their overlay, which is that of
the last list that has one. -/
theorem overlayAll_eq_cons {a : α} {ms : List (List α)} (h : ∀ m ∈ ms, m = []) :
    overlayAll (ls ++ (a :: l) :: ms) = a :: overlayAll ((ls ++ (a :: l) :: ms).map List.tail) := by
  induction ls with
  | nil =>
    have hms : overlayAll ms = [] := overlayAll_eq_nil.mpr h
    have htails : overlayAll (ms.map List.tail) = [] := overlayAll_eq_nil.mpr fun m hm => by
      obtain ⟨m', hm', rfl⟩ := mem_map.mp hm
      rw [h m' hm', tail_nil]
    rw [nil_append, map_cons, overlayAll, overlayAll, hms, htails]
    rfl
  | cons l' ls ih =>
    rw [cons_append, overlayAll, ih, overlay_cons, map_cons, overlayAll]

end OtelStorage.Fibers
