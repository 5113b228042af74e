import OtelStorage.BucketIndex.Subsumed
import OtelStorage.Foundation.BinarySearch

/-!
# The closures of a lineage are fixed points

A relater follows a claim only when a run it meets is gained, and remembers what it computed.  Its
answers are those of the rules alone: the least set of blocks above the interval that is closed
under the rule, and the claims the rule fires for on that set (`FixedPoint`).  Nothing of it depends
on the order of the claims or on what was asked before.

* `meetingBySearch`, `meetingIntervalFrom`: the searches over the sorted runs and their running
  maxima, which find what `meeting` and `meetingInterval` list.
* `Memo`, `Relater`: the remembered closures.
* `leastClosed_realizeClaims`: the plain rescanning loop of a merge plan reaches the same set.
* `foldl_reachAncestry_iff`: the marks shared by many calls are the union of their ancestries.
-/

namespace OtelStorage.BucketIndex

open BinarySearch List

/-! ## Searching the run index -/

section Search

variable {n : ℕ} {index : List (Block × IndexedRun n)} (f : Fin n → Interval)

/-- From position `i`, the claims of the runs up to the end of the query that reach its start. -/
def scanFrom (index : List (Block × IndexedRun n)) (i : ℕ) (q : Gap) : List (Fin n) :=
  (((index.drop i).takeWhile fun x => !q.max.less x.2.run.min).filter
    fun x => !x.2.run.max.less q.min).map fun x => x.2.claim

/-- The first run that can reach the query is found by binary search over the running maxima. -/
def meetingBySearch (index : List (Block × IndexedRun n)) (q : Gap) : List (Fin n) :=
  scanFrom index (bound (fun x => x.1.less q.min) index) q

/-- The queries of an interval ascend, so each search starts where the last one ended. -/
def meetingIntervalFrom (index : List (Block × IndexedRun n)) : ℕ → List Gap → List (Fin n)
  | _, [] => []
  | i, q :: qs => match index[i]? with
      | none => []
      | some x =>
          let i := if x.1.less q.min
            then i + 1 + bound (fun y => y.1.less q.min) (index.drop (i + 1)) else i
          scanFrom index i q ++ meetingIntervalFrom index i qs

theorem pairwise_reachFrom (rs : List (IndexedRun n)) (top : Block) :
    (∀ x ∈ reachFrom top rs, top.key ≤ x.1.key) ∧
      (reachFrom top rs).Pairwise fun x y => x.1.key ≤ y.1.key := by
  induction rs generalizing top with
  | nil => exact ⟨nofun, .nil⟩
  | cons r rs ih =>
    obtain ⟨hle, hpair⟩ := ih (maxBlock r.run.max top)
    have htop : top.key ≤ (maxBlock r.run.max top).key :=
      key_maxBlock r.run.max top ▸ le_max_right _ _
    exact ⟨forall_mem_cons.mpr ⟨htop, fun x hx => htop.trans (hle x hx)⟩,
      pairwise_cons.mpr ⟨hle, hpair⟩⟩

theorem pairwise_buildIndex : (buildIndex f).Pairwise fun x y => x.1.key ≤ y.1.key := by
  rw [buildIndex]
  cases List.insertionSort indexedLE _ with
  | nil => exact .nil
  | cons r rs => exact pairwise_cons.mpr (pairwise_reachFrom rs r.run.max)

theorem below_mono (h : index.Pairwise fun x y => x.1.key ≤ y.1.key) (b : Block) :
    index.Pairwise fun x y => y.1.less b = true → x.1.less b = true :=
  h.imp fun hle hy => (Block.less_iff _ _).mpr (hle.trans_lt ((Block.less_iff _ _).mp hy))

theorem meetingBySearch_eq (q : Gap) :
    meetingBySearch (buildIndex f) q = meeting (buildIndex f) q := by
  rw [meetingBySearch, scanFrom, drop_bound (below_mono (pairwise_buildIndex f) q.min)]
  rfl

theorem meeting_eq_scanFrom {i : ℕ} {q : Gap}
    (h : index.dropWhile (fun x => x.1.less q.min) = index.drop i) :
    meeting index q = scanFrom index i q := by
  rw [meeting, h]
  rfl

/-- The positions passed stay behind every later query. -/
theorem meetingIntervalFrom_eq (hpair : index.Pairwise fun x y => x.1.key ≤ y.1.key) (qs : List Gap)
    (hqs : qs.Pairwise fun a b => a.min.key ≤ b.min.key) (i : ℕ)
    (hi : ∀ x ∈ index.take i, ∀ q ∈ qs, x.1.less q.min = true) :
    meetingIntervalFrom index i qs = qs.flatMap (meeting index) := by
  induction qs generalizing i with
  | nil => rfl
  | cons q qs ih =>
    obtain ⟨hq, hqs'⟩ := pairwise_cons.mp hqs
    -- the search from the position finds what a search from the start finds
    have hdrop : index.dropWhile (fun x => x.1.less q.min) =
        (index.drop i).dropWhile fun x => x.1.less q.min := by
      conv_lhs => rw [← take_append_drop i index]
      exact dropWhile_append_of_pos fun x hx => hi x hx q mem_cons_self
    have hnext : ∀ j, index.dropWhile (fun x => x.1.less q.min) = index.drop j →
        ∀ x ∈ index.take j, ∀ r ∈ qs, x.1.less r.min = true := by
      intro j hj x hx r hr
      have htake : index.take j = index.takeWhile fun x => x.1.less q.min := by
        refine (append_left_inj (index.drop j)).mp ?_
        rw [take_append_drop, ← hj]
        exact takeWhile_append_dropWhile.symm
      have hlt := mem_takeWhile_imp (htake ▸ hx)
      exact (Block.less_iff _ _).mpr (((Block.less_iff _ _).mp hlt).trans_le (hq r hr))
    rw [meetingIntervalFrom, flatMap_cons]
    cases hx : index[i]? with
    | none =>
      have hnil : index.drop i = [] := drop_eq_nil_of_le (List.getElem?_eq_none_iff.mp hx)
      have hall : ∀ x ∈ index, ∀ r ∈ q :: qs, x.1.less r.min = true := by
        intro x hmem
        refine hi x ?_
        rwa [take_of_length_le (List.getElem?_eq_none_iff.mp hx)]
      have hempty : ∀ r ∈ q :: qs, meeting index r = [] := fun r hr => by
        rw [meeting, dropWhile_eq_nil_iff.mpr fun x hmem => hall x hmem r hr]
        rfl
      rw [hempty q mem_cons_self, flatMap_eq_nil_iff.mpr fun r hr =>
        hempty r (mem_cons_of_mem _ hr)]
      rfl
    | some x =>
      obtain ⟨hlt, rfl⟩ := List.getElem?_eq_some_iff.mp hx
      have hcons := drop_eq_getElem_cons hlt
      obtain ⟨j, hj⟩ : ∃ j, j = if (index[i]).1.less q.min
          then i + 1 + bound (fun y => y.1.less q.min) (index.drop (i + 1)) else i := ⟨_, rfl⟩
      have hfound : index.dropWhile (fun x => x.1.less q.min) = index.drop j := by
        rw [hdrop, hcons, hj]
        split
        · next hless =>
          have hrest := below_mono (hpair.sublist (drop_sublist (i + 1) index)) q.min
          rw [dropWhile_cons, if_pos hless, ← drop_bound hrest, drop_drop]
        · next hless => rw [dropWhile_cons, if_neg hless, hcons]
      simp only [← hj]
      rw [ih hqs' j (hnext j hfound), meeting_eq_scanFrom hfound]

theorem pairwise_min_runs {rs : List Gap} (h : Interval.Canonical rs) :
    rs.Pairwise fun a b => a.min.key ≤ b.min.key := by
  induction rs with
  | nil => exact .nil
  | cons r rs ih =>
    obtain ⟨hr, hlt, hrs⟩ := Interval.canonical_cons.mp h
    have hle := ((Interval.validRun_iff _ _).mp hr).2.2
    refine pairwise_cons.mpr ⟨fun s hs => ?_, ih hrs⟩
    have := hlt s hs
    omega

end Search

/-! ## Remembered closures -/

/-- Answers of a function, remembered by the interval asked about. -/
structure Memo {β : Type*} (f : Interval → β) where
  entries : List (Interval × β)
  sound : ∀ e ∈ entries, e.2 = f e.1

namespace Memo

variable {β : Type*} {f : Interval → β} (m : Memo f) (iv : Interval)

/-- Nothing remembered. -/
def empty : Memo f := ⟨[], nofun⟩

/-- The answer remembered for an interval. -/
def lookup : Option β :=
  (m.entries.find? fun e => e.1.equal iv).map Prod.snd

/-- Remember the answer. -/
def remember : Memo f :=
  ⟨m.entries ++ [(iv, f iv)], fun e he => (mem_append.mp he).elim (m.sound e) fun he => by
    rw [mem_singleton.mp he]⟩

/-- The remembered answer, or the answer, which is then remembered. -/
def get : β × Memo f :=
  match m.lookup iv with
  | some out => (out, m)
  | none => (f iv, m.remember iv)

@[simp] theorem get_fst : (m.get iv).1 = f iv := by
  rw [get]
  cases h : m.lookup iv with
  | none => rfl
  | some out =>
    obtain ⟨e, he, rfl⟩ := Option.map_eq_some_iff.mp h
    have hequal := List.find?_some he
    have hiv : e.1 = iv := Interval.equal_iff.mp hequal
    exact hiv ▸ m.sound e (mem_of_find?_eq_some he)

end Memo

/-- A lineage with the closures computed over it so far. -/
structure Relater (l : Lineage) where
  holdsOf : Memo (BucketIndex.holds l)
  upOf : Memo (BucketIndex.ancestry l)
  realized : Memo (BucketIndex.realize l)

namespace Relater

variable {l : Lineage} (r : Relater l)

/-- A relater that has computed nothing. -/
def new (l : Lineage) : Relater l := ⟨.empty, .empty, .empty⟩

/-- `BucketIndex.holds`, remembered. -/
def holds (iv : Interval) : Interval × Relater l :=
  if l.isEmpty then (iv, r) else ((r.holdsOf.get iv).1, { r with holdsOf := (r.holdsOf.get iv).2 })

/-- `BucketIndex.ancestry`, remembered. -/
def ancestry (iv : Interval) : (Interval × (Fin l.length → Bool)) × Relater l :=
  if l.isEmpty then ((iv, fun _ => false), r)
  else ((r.upOf.get iv).1, { r with upOf := (r.upOf.get iv).2 })

variable (held : Interval)

/-- `BucketIndex.realize`, remembered. -/
def realize : (Interval × (Fin l.length → Bool)) × Relater l :=
  if l.isEmpty then ((held, fun _ => false), r)
  else ((r.realized.get held).1, { r with realized := (r.realized.get held).2 })

theorem holds_fst {iv : Interval} : (r.holds iv).1 = BucketIndex.holds l iv := by
  rw [holds]
  split
  · next h => rw [BucketIndex.holds, if_pos h]
  · exact r.holdsOf.get_fst iv

theorem ancestry_fst {iv : Interval} : (r.ancestry iv).1 = BucketIndex.ancestry l iv := by
  rw [ancestry]
  split
  · next h => rw [BucketIndex.ancestry, if_pos h]
  · exact r.upOf.get_fst iv

theorem realize_fst : (r.realize held).1 = BucketIndex.realize l held := by
  rw [realize]
  split
  · next h => rw [BucketIndex.realize, if_pos h]
  · exact r.realized.get_fst held

end Relater

/-! ## Fixed points -/

/-- `out` is the least set of blocks above `iv` that is closed under a rule of the claims. -/
structure LeastClosed (l : Lineage) (app : Claim → Set Block → Prop) (add : Claim → Set Block)
    (iv out : Interval) : Prop where
  valid : out.valid = true
  above : iv.blocks ⊆ out.blocks
  closed : ∀ c ∈ l, app c out.blocks → add c ⊆ out.blocks
  least : ∀ T, iv.blocks ⊆ T → (∀ c ∈ l, app c T → add c ⊆ T) → out.blocks ⊆ T

/-- A closure and the claims its rule fires for. -/
structure FixedPoint (l : Lineage) (app : Claim → Set Block → Prop) (add : Claim → Set Block)
    (iv : Interval) (res : Interval × (Fin l.length → Bool)) : Prop
    extends LeastClosed l app add iv res.1 where
  fires : ∀ i, res.2 i = true ↔ app (l.get i) res.1.blocks

variable {l l' : Lineage} {app : Claim → Set Block → Prop} {add : Claim → Set Block}
  {iv out : Interval} {P : Fin l.length → Prop}

theorem leastClosed_of_closure {rule : Fin l.length → Set Block → Prop}
    (hrule : ∀ i T, rule i T ↔ app (l.get i) T) (hmono : ∀ i S T, S ⊆ T → rule i S → rule i T)
    (hiv : iv.valid = true)
    (hout : out.blocks = Worklist.closure rule (fun i => add (l.get i)) iv.blocks) :
    LeastClosed l app add iv out := by
  have habove : iv.blocks ⊆ out.blocks := hout ▸ Worklist.subset_closure _ _ _
  refine ⟨Interval.valid_iff_nonempty.mpr ((Interval.valid_iff_nonempty.mp hiv).mono habove),
    habove, fun c hc happ => ?_, fun T hT hclosed => ?_⟩
  · obtain ⟨i, rfl⟩ := get_of_mem hc
    rw [hout] at happ ⊢
    exact Worklist.closed_closure _ _ hmono _ i ((hrule i _).mpr happ)
  · rw [hout]
    exact Worklist.closure_subset _ _ hT fun i happ =>
      hclosed (l.get i) (get_mem l i) ((hrule i T).mp happ)

/-- **Claim order does not matter**, nor does their number of occurrences. -/
theorem LeastClosed.eq_of_mem_iff (hl : ∀ c, c ∈ l ↔ c ∈ l') {out' : Interval}
    (h : LeastClosed l app add iv out) (h' : LeastClosed l' app add iv out') : out = out' := by
  refine Interval.eq_of_blocks_eq h.valid h'.valid (subset_antisymm ?_ ?_)
  · exact h.least _ h'.above fun c hc => h'.closed c ((hl c).mp hc)
  · exact h'.least _ h.above fun c hc => h.closed c ((hl c).mpr hc)

/-- The claims a closure went through. -/
def fired (l : Lineage) (via : Fin l.length → Bool) : Set Claim :=
  {c | ∃ i, l.get i = c ∧ via i = true}

theorem FixedPoint.fired_eq (hl : ∀ c, c ∈ l ↔ c ∈ l')
    {res : Interval × (Fin l.length → Bool)} {res' : Interval × (Fin l'.length → Bool)}
    (h : FixedPoint l app add iv res) (h' : FixedPoint l' app add iv res') :
    res.1 = res'.1 ∧ fired l res.2 = fired l' res'.2 := by
  have hout := h.toLeastClosed.eq_of_mem_iff hl h'.toLeastClosed
  refine ⟨hout, Set.ext fun c => ⟨?_, ?_⟩⟩
  · rintro ⟨i, rfl, hi⟩
    obtain ⟨j, hj⟩ := get_of_mem ((hl _).mp (get_mem l i))
    exact ⟨j, hj, (h'.fires j).mpr (hj ▸ hout ▸ (h.fires i).mp hi)⟩
  · rintro ⟨j, rfl, hj⟩
    obtain ⟨i, hi⟩ := get_of_mem ((hl _).mpr (get_mem l' j))
    exact ⟨i, hi, (h.fires i).mpr (hi ▸ hout.symm ▸ (h'.fires j).mp hj)⟩

/-! ### The four closures -/

section Closures

variable (hl : ∀ c ∈ l, c.valid = true) (hiv : iv.valid = true)
include hl hiv

theorem leastClosed_holds : LeastClosed l (fun c T => c.blocks.blocks ⊆ T) (fun c => c.group.blocks)
    iv (holds l iv) :=
  leastClosed_of_closure
    (fun i _ => and_iff_right ((Claim.valid_iff _).mp (hl _ (get_mem l i))).1)
    coversAncestry_mono hiv (holds_spec l iv)

omit hl in
theorem fixedPoint_ancestry : FixedPoint l (fun c T => (c.group.blocks ∩ T).Nonempty)
    (fun c => c.blocks.blocks) iv (ancestry l iv) := by
  obtain ⟨hout, hvia⟩ := ancestry_spec l iv
  refine ⟨leastClosed_of_closure (fun _ _ => Iff.rfl) reachesGroup_mono hiv hout, fun i => ?_⟩
  rw [hvia, hout]
  rfl

omit hl in
theorem fixedPoint_descendants : FixedPoint l (fun c T => (c.blocks.blocks ∩ T).Nonempty)
    (fun c => c.group.blocks) iv (descendants l iv) := by
  obtain ⟨hout, hvia⟩ := descendants_closure l iv
  refine ⟨leastClosed_of_closure (fun _ _ => Iff.rfl) meetsAncestry_mono hiv hout, fun i => ?_⟩
  rw [hvia, hout]
  rfl

theorem fixedPoint_realize : FixedPoint l (fun c T => c.group.blocks ⊆ T)
    (fun c => c.blocks.blocks) iv (realize l iv) := by
  have hrule : ∀ i T, HoldsGroup l i T ↔ (l.get i).group.blocks ⊆ T := fun i _ =>
    and_iff_right ((Claim.valid_iff _).mp (hl _ (get_mem l i))).2
  obtain ⟨hout, hvia⟩ := realize_closure l iv
  refine ⟨leastClosed_of_closure hrule holdsGroup_mono hiv hout, fun i => ?_⟩
  rw [hvia, hout, hrule]

end Closures

/-! ## The rescanning loop -/

/-- One pass either uses a claim or keeps it; a pass that keeps all changed nothing. -/
theorem realizePass_spec (held : Interval) (claims : List Claim) :
    held.blocks ⊆ (realizePass held claims).1.blocks ∧
      (∀ c ∈ claims, c ∈ (realizePass held claims).2 ∨
        c.blocks.blocks ⊆ (realizePass held claims).1.blocks) ∧
      ((realizePass held claims).2.length = claims.length →
        (realizePass held claims).1 = held ∧ ∀ c ∈ claims, held.contains c.group = false) := by
  induction claims generalizing held with
  | nil => exact ⟨subset_rfl, nofun,
      fun _ => ⟨rfl, nofun⟩⟩
  | cons c cs ih =>
    rw [realizePass]
    split
    · next hheld =>
      obtain ⟨hsub, hused, -⟩ := ih (held.union c.blocks)
      rw [Interval.union_blocks] at hsub
      refine ⟨Set.subset_union_left.trans hsub, forall_mem_cons.mpr
        ⟨.inr (Set.subset_union_right.trans hsub), hused⟩, fun hlen => ?_⟩
      have := (realizePass_sublist (held.union c.blocks) cs).length_le
      rw [length_cons] at hlen
      omega
    · next hheld =>
      obtain ⟨hsub, hused, hkept⟩ := ih held
      refine ⟨hsub, forall_mem_cons.mpr ⟨.inl mem_cons_self, fun d hd =>
        (hused d hd).imp_left (mem_cons_of_mem c)⟩, fun hlen => ?_⟩
      obtain ⟨hsame, hnone⟩ := hkept (Nat.succ.inj hlen)
      exact ⟨hsame, forall_mem_cons.mpr ⟨Bool.eq_false_iff.mpr hheld, hnone⟩⟩

theorem realizeLoop_closed (fuel : ℕ) (held : Interval) (claims : List Claim)
    (hfuel : claims.length ≤ fuel) :
    held.blocks ⊆ (realizeLoop fuel held claims).1.blocks ∧
      ∀ c ∈ claims, (realizeLoop fuel held claims).1.contains c.group = true →
        c.blocks.blocks ⊆ (realizeLoop fuel held claims).1.blocks := by
  induction fuel generalizing held claims with
  | zero =>
    rw [eq_nil_of_length_eq_zero (Nat.le_zero.mp hfuel)]
    exact ⟨subset_rfl, forall_mem_nil _⟩
  | succ fuel ih =>
    obtain ⟨hsub, hused, hkept⟩ := realizePass_spec held claims
    rw [realizeLoop]
    split
    · next hempty =>
      rw [isEmpty_iff.mp hempty]
      exact ⟨subset_rfl, forall_mem_nil _⟩
    simp only
    split
    · next hlen =>
      obtain ⟨hsame, hnone⟩ := hkept hlen
      refine ⟨hsub, fun c hc hcon => ?_⟩
      rw [hsame, hnone c hc] at hcon
      exact Bool.noConfusion hcon
    next hlen =>
    have hless := (realizePass_sublist held claims).length_le
    obtain ⟨hsub', hclosed⟩ := ih (realizePass held claims).1 (realizePass held claims).2 (by omega)
    exact ⟨hsub.trans hsub', fun c hc hcon => (hused c hc).elim (fun hrest =>
      hclosed c hrest hcon) fun hdone => hdone.trans hsub'⟩

/-- **A merge plan realizes what a relater realizes.** -/
theorem leastClosed_realizeClaims (hl : ∀ c ∈ l, c.valid = true) (hiv : iv.valid = true) :
    LeastClosed l (fun c T => c.group.blocks ⊆ T) (fun c => c.blocks.blocks) iv
      (realizeClaims iv l).1 := by
  obtain ⟨habove, hclosed⟩ := realizeLoop_closed l.length iv l (Nat.le_refl _)
  have hvalid : (realizeClaims iv l).1.valid = true :=
    Interval.valid_iff_nonempty.mpr ((Interval.valid_iff_nonempty.mp hiv).mono habove)
  refine ⟨hvalid, habove, fun c hc hgroup => ?_, fun T hT hstep => ?_⟩
  · exact hclosed c hc ((Interval.contains_iff _ _).mpr
      ⟨hvalid, ((Claim.valid_iff c).mp (hl c hc)).2, hgroup⟩)
  · exact realizeClaims_induction (P := fun S => S ⊆ T) iv l hT fun S c hc hgroup hS =>
      Set.union_subset hS (hstep c hc (hgroup.trans hS))

/-! ## Marks shared by many calls -/

theorem mem_meetingInterval_iff {n : ℕ} {f : Fin n → Interval} {i : Fin n} (hiv : iv.valid = true) :
    i ∈ meetingInterval (buildIndex f) iv ↔ ((f i).blocks ∩ iv.blocks).Nonempty := by
  refine ⟨fun h => ?_, mem_meetingInterval⟩
  rw [meetingInterval, mem_flatMap] at h
  obtain ⟨r, hr, hi⟩ := h
  obtain ⟨hne, hsub⟩ := heldRuns_sub (mem_heldRuns.mpr ⟨hiv, hr⟩)
  obtain ⟨b, hb, hbr⟩ := (meeting_buildIndex hne i).mp hi
  exact ⟨b, hb, hsub hbr⟩

/-- **The searches find the claims that meet the query**, run by run and over a whole interval. -/
theorem searches_exact {n : ℕ} (f : Fin n → Interval) :
    (∀ q, meetingBySearch (buildIndex f) q = meeting (buildIndex f) q) ∧
      ∀ iv : Interval, iv.valid = true →
        meetingIntervalFrom (buildIndex f) 0 iv.runs = meetingInterval (buildIndex f) iv ∧
        ∀ i, i ∈ meetingInterval (buildIndex f) iv ↔ ((f i).blocks ∩ iv.blocks).Nonempty :=
  ⟨meetingBySearch_eq f, fun _ hiv => ⟨meetingIntervalFrom_eq (pairwise_buildIndex f) _
    (pairwise_min_runs (Interval.runs_canonical hiv)) 0 nofun,
    fun _ => mem_meetingInterval_iff hiv⟩⟩

theorem searches_exact_hole :
    let iv : Interval := ⟨⟨1, 1⟩, ⟨1, 5⟩, [⟨⟨1, 2⟩, ⟨1, 4⟩⟩]⟩
    meetingIntervalFrom (buildIndex ![iv]) 0 iv.runs = meetingInterval (buildIndex ![iv]) iv :=
  ((searches_exact _).2 _ (by decide)).1

theorem pushAll_forall {n : ℕ} {P : Fin n → Prop} (new : List (Fin n))
    (s : List (Fin n) × (Fin n → Bool)) (hnew : ∀ i ∈ new, P i)
    (hs : (∀ i ∈ s.1, P i) ∧ ∀ i, s.2 i = true → P i) :
    (∀ i ∈ (pushAll new s).1, P i) ∧ ∀ i, (pushAll new s).2 i = true → P i := by
  induction new generalizing s with
  | nil => exact hs
  | cons j new ih =>
    obtain ⟨hj, hnew⟩ := forall_mem_cons.mp hnew
    rw [pushAll, foldl_cons]
    refine ih _ hnew ?_
    split
    · exact hs
    · refine ⟨forall_mem_cons.mpr ⟨hj, hs.1⟩, fun i hi => ?_⟩
      by_cases hij : i = j
      · exact hij ▸ hj
      · exact hs.2 i ((Function.update_of_ne hij true s.2).symm.trans hi)

theorem reachLoop_forall (hnext : ∀ i, P i → ∀ j ∈ nextClaims l i, P j) (fuel : ℕ)
    (s : List (Fin l.length) × (Fin l.length → Bool))
    (hs : (∀ i ∈ s.1, P i) ∧ ∀ i, s.2 i = true → P i) (i : Fin l.length)
    (hi : reachLoop l (buildIndex fun i => (l.get i).group) fuel s i = true) : P i := by
  induction fuel generalizing s with
  | zero => exact hs.2 i hi
  | succ fuel ih =>
    obtain ⟨queue, reached⟩ := s
    cases queue with
    | nil => exact hs.2 i hi
    | cons j queue =>
      obtain ⟨hj, hqueue⟩ := forall_mem_cons.mp hs.1
      exact ih (pushAll (nextClaims l j) (queue, reached))
        (pushAll_forall _ (queue, reached) (hnext j hj) ⟨hqueue, hs.2⟩) hi

theorem foldl_reachAncestry_forall
    (hnext : ∀ i, P i → ∀ j ∈ nextClaims l i, P j) (ivs : List Interval)
    (hivs : ∀ iv ∈ ivs, ∀ j ∈ meetingInterval (buildIndex fun i => (l.get i).group) iv, P j)
    (reached : Fin l.length → Bool) (hreached : ∀ i, reached i = true → P i) (i : Fin l.length)
    (hi : ivs.foldl (reachAncestry l (buildIndex fun i => (l.get i).group)) reached i = true) :
    P i := by
  induction ivs generalizing reached with
  | nil => exact hreached i hi
  | cons iv ivs ih =>
    obtain ⟨hiv, hivs⟩ := forall_mem_cons.mp hivs
    refine ih hivs _ (fun j hj => ?_) hi
    rw [reachAncestry] at hj
    split at hj
    · exact hreached j hj
    · refine reachLoop_forall hnext _ _ (pushAll_forall _ _ hiv ⟨fun k hk => ?_, hreached⟩) j hj
      cases hk

/-- **The marks are the union of the ancestries.** -/
theorem foldl_reachAncestry_iff (hl : ∀ c ∈ l, c.valid = true) {ivs : List Interval}
    (hivs : ∀ iv ∈ ivs, iv.valid = true) (i : Fin l.length) :
    ivs.foldl (reachAncestry l (buildIndex fun i => (l.get i).group)) (fun _ => false) i = true ↔
      ∃ iv ∈ ivs, (ancestry l iv).2 i = true := by
  have hnext : ∀ i j, j ∈ nextClaims l i ↔
      ((l.get j).group.blocks ∩ (l.get i).blocks.blocks).Nonempty := fun i j =>
    mem_meetingInterval_iff ((Claim.valid_iff _).mp (hl _ (get_mem l i))).1
  simp only [(ancestry_spec l _).2]
  constructor
  · intro hi
    refine foldl_reachAncestry_forall
      (P := fun i => ∃ iv ∈ ivs, ReachesGroup l i (upSet l iv.blocks))
      (fun i ⟨iv, hiv, hreach⟩ j hj => ⟨iv, hiv, ?_⟩) ivs (fun iv hiv j hj => ⟨iv, hiv, ?_⟩) _
      (fun _ h => absurd h Bool.false_ne_true) i hi
    · exact ((hnext i j).mp hj).mono (Set.inter_subset_inter_right _ (upSet_closed hreach))
    · exact ((mem_meetingInterval_iff (hivs iv hiv)).mp hj).mono
        (Set.inter_subset_inter_right _ (Worklist.subset_closure _ _ _))
  · rintro ⟨iv, hiv, hreach⟩
    obtain ⟨hfollowed, -, hstart⟩ := foldl_reachAncestry l ivs (fun _ => false)
      fun _ h => absurd h Bool.false_ne_true
    obtain ⟨marks, hmarks⟩ : ∃ marks, marks =
        ivs.foldl (reachAncestry l (buildIndex fun i => (l.get i).group)) fun _ => false := ⟨_, rfl⟩
    rw [← hmarks] at hfollowed hstart ⊢
    -- the interval with the ancestry of the marked groups is closed
    have hmarked : ∀ j, ReachesGroup l j
        {b | b ∈ iv.blocks ∨ ∃ k, marks k = true ∧ b ∈ (l.get k).blocks.blocks} →
        marks j = true := by
      rintro j ⟨b, hb, hbiv | ⟨k, hk, hbk⟩⟩
      · exact hstart iv hiv j ⟨b, hb, hbiv⟩
      · exact hfollowed k hk j ((hnext k j).mpr ⟨b, hb, hbk⟩)
    refine hmarked i (reachesGroup_mono i _ _ ?_ hreach)
    exact Worklist.closure_subset _ _ (fun b hb => .inl hb) fun j hj b hb =>
      .inr ⟨j, hmarked j hj, hb⟩

/-- **The closures of a relater are the fixed points of the claims' rules**, whatever the order of
the claims and whatever was asked before; a merge plan realizes the same set, and shared marks are
the union of the ancestries. -/
theorem closures_exact {l : Lineage} (hl : ∀ c ∈ l, c.valid = true) {iv : Interval}
    (hiv : iv.valid = true) (r : Relater l) :
    LeastClosed l (fun c T => c.blocks.blocks ⊆ T) (fun c => c.group.blocks) iv (r.holds iv).1 ∧
    FixedPoint l (fun c T => (c.group.blocks ∩ T).Nonempty) (fun c => c.blocks.blocks) iv
      (r.ancestry iv).1 ∧
    FixedPoint l (fun c T => (c.blocks.blocks ∩ T).Nonempty) (fun c => c.group.blocks) iv
      (descendants l iv) ∧
    FixedPoint l (fun c T => c.group.blocks ⊆ T) (fun c => c.blocks.blocks) iv (r.realize iv).1 ∧
    (∀ (l' : Lineage) (r' : Relater l'), l'.Perm l →
      (r'.holds iv).1 = (r.holds iv).1 ∧
      ((r'.ancestry iv).1.1 = (r.ancestry iv).1.1 ∧
        fired l' (r'.ancestry iv).1.2 = fired l (r.ancestry iv).1.2) ∧
      ((descendants l' iv).1 = (descendants l iv).1 ∧
        fired l' (descendants l' iv).2 = fired l (descendants l iv).2) ∧
      ((r'.realize iv).1.1 = (r.realize iv).1.1 ∧
        fired l' (r'.realize iv).1.2 = fired l (r.realize iv).1.2)) ∧
    (realizeClaims iv l).1 = (r.realize iv).1.1 ∧
    ∀ ivs : List Interval, (∀ iv ∈ ivs, iv.valid = true) → ∀ i : Fin l.length,
      ivs.foldl (reachAncestry l (buildIndex fun i => (l.get i).group)) (fun _ => false) i = true ↔
        ∃ iv ∈ ivs, (r.ancestry iv).1.2 i = true := by
  simp only [Relater.holds_fst, Relater.ancestry_fst, Relater.realize_fst]
  have hrealize := fixedPoint_realize hl hiv
  refine ⟨leastClosed_holds hl hiv, fixedPoint_ancestry hiv, fixedPoint_descendants hiv, hrealize,
    fun l' _ hperm => ?_, ?_, fun ivs hivs => foldl_reachAncestry_iff hl hivs⟩
  · have hl' : ∀ c ∈ l', c.valid = true := fun c hc => hl c (hperm.mem_iff.mp hc)
    have hmem : ∀ c, c ∈ l' ↔ c ∈ l := fun c => hperm.mem_iff
    exact ⟨(leastClosed_holds hl' hiv).eq_of_mem_iff hmem (leastClosed_holds hl hiv),
      (fixedPoint_ancestry hiv).fired_eq hmem (fixedPoint_ancestry hiv),
      (fixedPoint_descendants hiv).fired_eq hmem (fixedPoint_descendants hiv),
      (fixedPoint_realize hl' hiv).fired_eq hmem hrealize⟩
  · exact (leastClosed_realizeClaims hl hiv).eq_of_mem_iff (fun _ => Iff.rfl) hrealize.toLeastClosed

/-- A group split again, the claims listed against the descent. -/
theorem closures_exact_nested :
    let inner : Claim := ⟨⟨⟨1, 1⟩, ⟨1, 2⟩, []⟩, ⟨⟨2, 1⟩, ⟨2, 2⟩, []⟩⟩
    let outer : Claim := ⟨⟨⟨2, 1⟩, ⟨2, 2⟩, []⟩, ⟨⟨3, 1⟩, ⟨3, 2⟩, []⟩⟩
    let iv : Interval := ⟨⟨1, 1⟩, ⟨1, 2⟩, []⟩
    ((Relater.new [outer, inner]).holds iv).1 =
        ⟨⟨1, 1⟩, ⟨3, 2⟩, [⟨⟨1, 3⟩, ⟨2, 0⟩⟩, ⟨⟨2, 3⟩, ⟨3, 0⟩⟩]⟩ ∧
      LeastClosed [outer, inner] (fun c T => c.blocks.blocks ⊆ T) (fun c => c.group.blocks) iv
        ((Relater.new [outer, inner]).holds iv).1 := by
  intro inner outer iv
  have hl : ∀ c ∈ [outer, inner], c.valid = true := by decide
  have hiv : iv.valid = true := by decide
  exact ⟨by decide +kernel, (closures_exact hl hiv (Relater.new [outer, inner])).1⟩

end OtelStorage.BucketIndex
