import OtelStorage.Metrics.SampleMerge

/-!
# The freshest sample wins

What the merge returns for runs of raw samples, timestamp by timestamp: the overlay of what the runs
hold there (`merged_collectMany`).  With at most one sample a timestamp and run, that is the sample
of the last run that has one.

The merge loop is followed round by round.  `leadRun` finds the least next timestamp and the least
of the other runs (`leadOf_leadRun`); a tie takes the first sample of every run that holds it
(`round_tie`), and a stretch takes from the leading run what no other run reaches (`round_stretch`).
-/

namespace OtelStorage.Metrics

open BinarySearch Fibers List

variable {F : Type*} {r x : Run F} {s : Sample F} {rest l samples : List (Sample F)}
  {runs pre post : List (Run F)} {out : List (Sample F × RollupTag)} {rival : Option ℤ}
  {normalize : Bool} {j i : ℕ} {t T ts : ℤ} {acc : Option Lead}

/-! ## Windows -/

theorem below_of_ordered (h : Ordered Sample.ts l) (x : ℤ) :
    l.Pairwise fun a b => decide (b.ts < x) = true → decide (a.ts < x) = true :=
  h.imp fun hab hb => decide_eq_true (lt_of_le_of_lt hab (of_decide_eq_true hb))

theorem notAbove_of_ordered (h : Ordered Sample.ts l) (x : ℤ) :
    l.Pairwise fun a b => decide (b.ts ≤ x) = true → decide (a.ts ≤ x) = true :=
  h.imp fun hab hb => decide_eq_true (le_trans hab (of_decide_eq_true hb))

/-- **A window of a source is what of it lies in the window.** -/
theorem window_eq_filter (h : Ordered Sample.ts l) (start stop : ℤ) :
    window l start stop = l.filter fun s => start ≤ s.ts ∧ s.ts ≤ stop := by
  have hcut : window l start stop = (l.take (upperBound l stop)).drop (lowerBound l start) := by
    rw [window]
    split
    · next hle =>
      refine (drop_eq_nil_of_le (le_trans ?_ hle)).symm
      rw [length_take]
      exact min_le_left _ _
    · rfl
  rw [hcut, upperBound, lowerBound, take_bound (notAbove_of_ordered h stop),
    bound_eq (below_of_ordered h start), drop_takeWhile_length,
    takeWhile_eq_filter (notAbove_of_ordered h stop),
    dropWhile_eq_filter ((below_of_ordered h start).filter _), filter_filter]
  refine filter_congr fun s _ => ?_
  rw [← decide_not, ← Bool.decide_and, decide_eq_decide, Int.not_lt]

/-! ## The leading run -/

/-- The next timestamp of a run. -/
def headAt (runs : List (Run F)) (j : ℕ) : Option ℤ :=
  runs[j]?.bind fun r => r.samples.head?.map Sample.ts

/-- What the scan over the runs establishes. -/
structure IsLead (runs : List (Run F)) (l : Lead) : Prop where
  lead : headAt runs l.lead = some l.ts
  least : ∀ j t, headAt runs j = some t → l.ts ≤ t
  rival_le : ∀ j t, headAt runs j = some t → j ≠ l.lead → ∃ r, l.rival = some r ∧ r ≤ t
  le_rival : ∀ r, l.rival = some r → l.ts ≤ r

/-- The result of the scan: nothing when no run has a sample left. -/
def LeadOf (runs : List (Run F)) : Option Lead → Prop
  | none => ∀ j, headAt runs j = none
  | some l => IsLead runs l

theorem headAt_snoc_of_lt (h : j < pre.length) : headAt (pre ++ [r]) j = headAt pre j := by
  rw [headAt, headAt, List.getElem?_append_left h]

theorem headAt_snoc_self (pre : List (Run F)) (r : Run F) :
    headAt (pre ++ [r]) pre.length = r.samples.head?.map Sample.ts := by
  rw [headAt, List.getElem?_append_right (Nat.le_refl _), Nat.sub_self]
  rfl

theorem headAt_eq_none_of_le (h : runs.length ≤ j) : headAt runs j = none := by
  rw [headAt, List.getElem?_eq_none h]
  rfl

theorem headAt_snoc_eq_some (h : headAt (pre ++ [r]) j = some t) :
    j = pre.length ∧ r.samples.head?.map Sample.ts = some t ∨
      j ≠ pre.length ∧ headAt pre j = some t := by
  rcases Nat.lt_trichotomy j pre.length with hlt | rfl | hgt
  · rw [headAt_snoc_of_lt hlt] at h
    exact .inr ⟨hlt.ne, h⟩
  · rw [headAt_snoc_self] at h
    exact .inl ⟨rfl, h⟩
  · rw [headAt_eq_none_of_le (by rw [length_append]; exact hgt)] at h
    exact absurd h (Option.some_ne_none t).symm

theorem headAt_snoc (h : headAt pre j = some t) : headAt (pre ++ [r]) j = some t := by
  have hlt : j < pre.length := Nat.lt_of_not_le fun hle =>
    Option.some_ne_none t (h.symm.trans (headAt_eq_none_of_le hle))
  rw [headAt_snoc_of_lt hlt, h]

theorem LeadOf.snoc_empty (h : LeadOf pre acc) (hr : r.samples = []) : LeadOf (pre ++ [r]) acc := by
  have hback : ∀ j t, headAt (pre ++ [r]) j = some t → headAt pre j = some t := by
    intro j t hj
    rcases headAt_snoc_eq_some hj with ⟨-, hhead⟩ | ⟨-, hold⟩
    · rw [hr] at hhead
      exact absurd hhead (Option.some_ne_none t).symm
    · exact hold
  cases acc with
  | none =>
    intro j
    refine Option.eq_none_iff_forall_ne_some.mpr fun t ht => ?_
    exact Option.some_ne_none t ((hback j t ht).symm.trans (h j))
  | some l =>
    exact ⟨headAt_snoc h.lead, fun j t hj => h.least j t (hback j t hj),
      fun j t hj => h.rival_le j t (hback j t hj), h.le_rival⟩

theorem leadStep_some (l : Lead) (i : ℕ) (t : ℤ) :
    ∃ x ≤ max t l.ts, (∀ y, l.rival = some y → x ≤ y) ∧ (x = max t l.ts ∨ l.rival = some x) ∧
      leadStep (some l) i t =
        some (if t < l.ts then ⟨i, t, some x⟩ else { l with rival := some x }) := by
  obtain ⟨lead, ts, rival⟩ := l
  cases rival with
  | none =>
    refine ⟨max t ts, le_rfl, nofun, .inl rfl, ?_⟩
    rw [leadStep]
    split
    · next hlt => rw [max_eq_right hlt.le]
    · next hlt => rw [max_eq_left (not_lt.mp hlt)]
  | some r =>
    refine ⟨min (max t ts) r, min_le_left _ _, ?_, ?_, ?_⟩
    · rintro y ⟨⟩
      exact min_le_right _ _
    · exact (min_choice _ _).imp_right fun h => congrArg some h.symm
    · rw [leadStep]
      split
      · next hlt => rw [max_eq_right hlt.le, min_def_lt]
      next hlt =>
      rw [max_eq_left (not_lt.mp hlt), min_def_lt]
      dsimp only
      split <;> rfl

theorem LeadOf.snoc (h : LeadOf pre acc) (hr : r.samples = s :: rest) :
    LeadOf (pre ++ [r]) (leadStep acc pre.length s.ts) := by
  have hself : headAt (pre ++ [r]) pre.length = some s.ts := by
    rw [headAt_snoc_self, hr]
    rfl
  have hback : ∀ j t, headAt (pre ++ [r]) j = some t →
      j = pre.length ∧ s.ts = t ∨ j ≠ pre.length ∧ headAt pre j = some t := by
    intro j t hj
    refine (headAt_snoc_eq_some hj).imp_left fun ⟨hj, hhead⟩ => ⟨hj, ?_⟩
    rw [hr] at hhead
    exact Option.some.inj hhead
  cases acc with
  | none =>
    refine ⟨hself, fun j t hj => ?_, fun j t hj hne => ?_, nofun⟩
    · rcases hback j t hj with ⟨-, rfl⟩ | ⟨-, hold⟩
      · exact le_rfl
      · exact absurd (hold.symm.trans (h j)) (Option.some_ne_none t)
    · rcases hback j t hj with ⟨hj, -⟩ | ⟨-, hold⟩
      · exact absurd hj hne
      · exact absurd (hold.symm.trans (h j)) (Option.some_ne_none t)
  | some l =>
    obtain ⟨x, hxu, hxr, hx, hstep⟩ := leadStep_some l pre.length s.ts
    rw [hstep]
    split
    · -- the new run leads, and the old leader is a rival
      next hlt =>
      rw [max_eq_right hlt.le] at hxu hx
      refine ⟨hself, fun j t hj => ?_, fun j t hj hne => ⟨x, rfl, ?_⟩, ?_⟩
      · rcases hback j t hj with ⟨-, rfl⟩ | ⟨-, hold⟩
        · exact le_rfl
        · exact hlt.le.trans (h.least j t hold)
      · have hold := (hback j t hj).resolve_left fun hj => hne hj.1
        exact hxu.trans (h.least j t hold.2)
      · rintro y ⟨⟩
        rcases hx with rfl | hx
        · exact hlt.le
        · exact hlt.le.trans (h.le_rival x hx)
    -- the leader stays, and the new run may be the nearest rival
    next hlt =>
    have hle : l.ts ≤ s.ts := not_lt.mp hlt
    rw [max_eq_left hle] at hxu hx
    refine ⟨headAt_snoc h.lead, fun j t hj => ?_, fun j t hj hne => ⟨x, rfl, ?_⟩, ?_⟩
    · rcases hback j t hj with ⟨-, rfl⟩ | ⟨-, hold⟩
      · exact hle
      · exact h.least j t hold
    · rcases hback j t hj with ⟨-, rfl⟩ | ⟨-, hold⟩
      · exact hxu
      · obtain ⟨y, hy, hyt⟩ := h.rival_le j t hold hne
        exact (hxr y hy).trans hyt
    · rintro y ⟨⟩
      rcases hx with rfl | hx
      · exact hle
      · exact h.le_rival x hx

theorem leadFrom_induct {P : List (Run F) → Option Lead → Prop}
    (hempty : ∀ pre acc r, r.samples = [] → P pre acc → P (pre ++ [r]) acc)
    (hsnoc : ∀ pre acc r s rest, r.samples = s :: rest → P pre acc →
      P (pre ++ [r]) (leadStep acc pre.length s.ts)) (h : P pre acc) (runs : List (Run F)) :
    P (pre ++ runs) (leadFrom acc pre.length runs) := by
  induction runs generalizing pre acc with
  | nil => rwa [append_nil]
  | cons r rs ih =>
    have hlen : (pre ++ [r]).length = pre.length + 1 := by rw [length_append, length_singleton]
    rw [append_cons, leadFrom, ← hlen]
    cases hr : r.samples with
    | nil => exact ih (hempty pre acc r hr h)
    | cons s rest => exact ih (hsnoc pre acc r s rest hr h)

theorem leadOf_leadRun (runs : List (Run F)) : LeadOf runs (leadRun runs) :=
  leadFrom_induct (P := LeadOf) (fun _ _ _ hr h => h.snoc_empty hr)
    (fun _ _ _ _ _ hr h => h.snoc hr)
    (show LeadOf [] none from fun _ => rfl) runs

/-! ## One round -/

/-- What the runs hold at a timestamp, later runs over earlier ones. -/
def column (t : ℤ) (runs : List (Run F)) : List (Sample F) :=
  overlayAll (runs.map fun r => fiber Sample.ts t r.samples)

theorem column_append (t : ℤ) (runs rs : List (Run F)) :
    column t (runs ++ rs) = overlay (column t runs) (column t rs) := by
  rw [column, map_append, overlayAll_append]
  rfl

theorem column_cons (t : ℤ) (r : Run F) (runs : List (Run F)) :
    column t (r :: runs) = overlay (fiber Sample.ts t r.samples) (column t runs) := rfl

theorem column_eq_nil (h : ∀ r ∈ runs, ∀ s ∈ r.samples, s.ts ≠ t) : column t runs = [] :=
  overlayAll_eq_nil.mpr fun m hm => by
    obtain ⟨r, hr, rfl⟩ := mem_map.mp hm
    exact fiber_eq_nil Sample.ts (h r hr)

/-- A run in timestamp order whose samples all are raw. -/
structure RawRun (r : Run F) : Prop where
  ordered : Ordered Sample.ts r.samples
  raw : ∀ s ∈ r.samples, runTag r.layout s.ts = .raw

theorem RawRun.of_sublist (h : RawRun r) (hs : samples.Sublist r.samples) :
    RawRun { r with samples := samples } :=
  ⟨h.ordered.sublist hs, fun s hmem => h.raw s (hs.mem hmem)⟩

theorem le_of_headAt (hT : ∀ j t, headAt runs j = some t → T ≤ t) (hr : r ∈ runs)
    (hord : Ordered Sample.ts r.samples) (hs : s ∈ r.samples) : T ≤ s.ts := by
  obtain ⟨j, hj, rfl⟩ := mem_iff_getElem.mp hr
  cases hl : runs[j].samples with
  | nil => exact absurd (hl ▸ hs) not_mem_nil
  | cons a rest =>
    rw [hl] at hs hord
    have hhead : headAt runs j = some a.ts := by
      rw [headAt, List.getElem?_eq_getElem hj, Option.bind_some, hl]
      rfl
    exact (hT j _ hhead).trans (hord.head_le hs)

theorem Run.advance_cons_self (h : r.samples = s :: rest) :
    r.advance false s.ts = { r with samples := rest } := by
  simp only [advance, h, if_true, Bool.false_eq_true, if_false]

theorem Run.advance_of_ne (normalize : Bool) (h : r.samples = s :: rest) (hne : s.ts ≠ ts) :
    r.advance normalize ts = r := by
  simp only [advance, h, if_neg hne]

theorem Run.advance_nil (normalize : Bool) (ts : ℤ) (h : r.samples = []) :
    r.advance normalize ts = r := by
  simp only [advance, h]

theorem Run.advance_sublist (r : Run F) (ts : ℤ) :
    (r.advance normalize ts).samples.Sublist r.samples ∧
      (r.advance normalize ts).layout = r.layout := by
  cases hr : r.samples with
  | nil =>
    rw [r.advance_nil normalize ts hr, hr]
    exact ⟨.refl _, rfl⟩
  | cons s rest =>
    by_cases hs : s.ts = ts
    · subst hs
      simp only [advance, hr, if_true]
      refine ⟨List.Sublist.trans ?_ (sublist_cons_self s rest), trivial⟩
      cases normalize with
      | false => exact .refl _
      | true => exact (dropWhile_suffix _).sublist
    · rw [Run.advance_of_ne normalize hr hs, hr]
      exact ⟨.refl _, rfl⟩

theorem RawRun.advance (h : RawRun r) (ts : ℤ) : RawRun (r.advance false ts) := by
  obtain ⟨hsub, hlayout⟩ := r.advance_sublist ts
  refine ⟨h.ordered.sublist hsub, fun s hs => ?_⟩
  rw [hlayout]
  exact h.raw s (hsub.mem hs)

theorem fiber_advance_self (hord : Ordered Sample.ts r.samples) (hT : ∀ s ∈ r.samples, T ≤ s.ts) :
    fiber Sample.ts T (r.advance false T).samples = (fiber Sample.ts T r.samples).tail := by
  cases hr : r.samples with
  | nil =>
    rw [r.advance_nil false T hr, hr]
    rfl
  | cons s rest =>
    by_cases hs : s.ts = T
    · subst hs
      rw [Run.advance_cons_self hr, fiber_cons_self]
      rfl
    rw [Run.advance_of_ne false hr hs, hr]
    have hlt : T < s.ts := lt_of_le_of_ne (hT s (hr ▸ mem_cons_self)) (Ne.symm hs)
    have hnil : fiber Sample.ts T (s :: rest) = [] := fiber_eq_nil Sample.ts fun u hu =>
      (hlt.trans_le ((hr ▸ hord).head_le hu)).ne'
    rw [hnil]
    rfl

theorem fiber_advance_of_ne (h : T ≠ t) :
    fiber Sample.ts t (r.advance false T).samples = fiber Sample.ts t r.samples := by
  cases hr : r.samples with
  | nil => rw [r.advance_nil false T hr, hr]
  | cons s rest =>
    by_cases hs : s.ts = T
    · subst hs
      rw [Run.advance_cons_self hr, fiber_cons_of_ne Sample.ts h]
    · rw [Run.advance_of_ne false hr hs, hr]

theorem exists_last {α : Type*} {p : α → Prop} {l : List α} (h : ∃ a ∈ l, p a) :
    ∃ pre b post, l = pre ++ b :: post ∧ p b ∧ ∀ c ∈ post, ¬ p c := by
  induction l with
  | nil =>
    obtain ⟨a, ha, -⟩ := h
    cases ha
  | cons x l ih =>
    by_cases hrest : ∃ c ∈ l, p c
    · obtain ⟨pre, b, post, rfl, hb, hpost⟩ := ih hrest
      exact ⟨x :: pre, b, post, rfl, hb, hpost⟩
    · obtain ⟨a, ha, hp⟩ := h
      rcases mem_cons.mp ha with rfl | ha
      · exact ⟨[], a, l, rfl, hp, fun c hc hpc => hrest ⟨c, hc, hpc⟩⟩
      · exact absurd ⟨a, ha, hp⟩ hrest

/-- A run that holds the timestamp next. -/
def Run.HoldsNext (ts : ℤ) (r : Run F) : Prop := ∃ s rest, r.samples = s :: rest ∧ s.ts = ts

theorem Run.tie_eq_none (h : ¬ r.HoldsNext ts) : r.tie ts = none := by
  cases hr : r.samples with
  | nil => simp only [Run.tie, hr]
  | cons s rest =>
    have hne : s.ts ≠ ts := fun hs => h ⟨s, rest, hr, hs⟩
    simp only [Run.tie, hr, if_neg hne]

theorem Run.tie_eq_some (h : r.samples = s :: rest) :
    r.tie s.ts = some ⟨runTag r.layout s.ts, s, rest⟩ := by
  simp only [Run.tie, h, if_true]

theorem mem_tied {t : Tie F} (ht : t ∈ tied runs ts) :
    ∃ r ∈ runs, r.samples = t.sample :: t.rest ∧ t.sample.ts = ts ∧ t.tag = runTag r.layout ts := by
  obtain ⟨r, hr, htie⟩ := mem_filterMap.mp ht
  cases hs : r.samples with
  | nil => simp only [Run.tie, hs, reduceCtorEq] at htie
  | cons s rest =>
    by_cases hts : s.ts = ts
    · subst hts
      rw [Run.tie_eq_some hs] at htie
      cases htie
      exact ⟨r, mem_reverse.mp hr, hs, rfl, rfl⟩
    · simp only [Run.tie, hs, if_neg hts, reduceCtorEq] at htie

theorem tag_of_mem_tied (hruns : ∀ r ∈ runs, RawRun r) {t : Tie F} (ht : t ∈ tied runs ts) :
    t.tag = .raw := by
  obtain ⟨r, hr, hs, rfl, htag⟩ := mem_tied ht
  rw [htag]
  exact (hruns r hr).raw t.sample (hs ▸ mem_cons_self)

theorem tieAgg_eq_none {ties : List (Tie F)} (h : ∀ t ∈ ties, t.tag = .raw) :
    tieAgg ties = none := by
  rw [tieAgg]
  induction ties with
  | nil => rfl
  | cons t ts ih =>
    obtain ⟨ht, hts⟩ := forall_mem_cons.mp h
    have hraw : ¬ 0 < t.tag.interval := by
      rw [ht]
      exact lt_irrefl 0
    rw [foldl_cons, if_neg hraw]
    exact ih hts

theorem rawTieAt_false (ts : ℤ) (s : Sample F) (rest : List (Sample F)) :
    rawTieAt false ts s rest = s := by
  cases rest <;> simp [rawTieAt]

/-- **A tie of raw runs is won by the last run that holds it.** -/
theorem foldTie_raw [Float64 F] (hruns : ∀ x ∈ pre ++ r :: post, RawRun x)
    (hr : r.samples = s :: rest) (hpost : ∀ x ∈ post, ¬ x.HoldsNext s.ts) (normalize : Bool) :
    foldTie normalize (pre ++ r :: post) s.ts = some (rawTieAt normalize s.ts s rest, .raw) := by
  have hraw : ∀ t ∈ tied (pre ++ r :: post) s.ts, t.tag = .raw :=
    fun t ht => tag_of_mem_tied hruns ht
  have hnone : post.reverse.filterMap (Run.tie s.ts) = [] := filterMap_eq_nil_iff.mpr
    fun x hx => Run.tie_eq_none (hpost x (mem_reverse.mp hx))
  have hties : tied (pre ++ r :: post) s.ts =
      ⟨runTag r.layout s.ts, s, rest⟩ :: pre.reverse.filterMap (Run.tie s.ts) := by
    rw [tied, reverse_append, reverse_cons, filterMap_append, filterMap_append,
      hnone, nil_append, filterMap_cons_some (Run.tie_eq_some hr)]
    rfl
  have hagg := tieAgg_eq_none hraw
  rw [hties] at hagg
  simp only [foldTie, hties, hagg, List.head?_cons, Option.map_some]

/-- **One round at a tie.** -/
theorem round_tie [Float64 F] (hruns : ∀ r ∈ runs, RawRun r)
    (hleast : ∀ j t, headAt runs j = some t → T ≤ t) (hi : headAt runs i = some T) :
    ∃ s, foldTie false runs T = some (s, .raw) ∧ s.ts = T ∧
      ∀ t, column t runs = fiber Sample.ts t [s] ++ column t (advanceTie false runs T) := by
  have hex : ∃ r ∈ runs, r.HoldsNext T := by
    rw [headAt, Option.bind_eq_some_iff] at hi
    obtain ⟨r, hr, hhead⟩ := hi
    refine ⟨r, mem_of_getElem? hr, ?_⟩
    cases hs : r.samples with
    | nil => rw [hs] at hhead; exact absurd hhead (Option.some_ne_none T).symm
    | cons s rest =>
      rw [hs] at hhead
      exact ⟨s, rest, hs, Option.some.inj hhead⟩
  obtain ⟨pre, r, post, rfl, ⟨s, rest, hr, rfl⟩, hpost⟩ := exists_last hex
  have hle : ∀ x ∈ pre ++ r :: post, ∀ u ∈ x.samples, s.ts ≤ u.ts := fun x hx u hu =>
    le_of_headAt hleast hx (hruns x hx).ordered hu
  refine ⟨s, (foldTie_raw hruns hr hpost false).trans (by rw [rawTieAt_false]), rfl, fun t => ?_⟩
  by_cases ht : s.ts = t
  · subst ht
    have hempty : ∀ m ∈ post.map fun x => fiber Sample.ts s.ts x.samples, m = [] := by
      intro m hm
      obtain ⟨x, hx, rfl⟩ := mem_map.mp hm
      have hmem : x ∈ pre ++ r :: post := mem_append_right _ (mem_cons_of_mem _ hx)
      cases hxs : x.samples with
      | nil => rfl
      | cons u us =>
        have hne : s.ts ≠ u.ts := fun heq => hpost x hx ⟨u, us, hxs, heq.symm⟩
        have hlt : s.ts < u.ts := lt_of_le_of_ne (hle x hmem u (hxs ▸ mem_cons_self)) hne
        exact fiber_eq_nil Sample.ts fun y hy =>
          (hlt.trans_le ((hxs ▸ (hruns x hmem).ordered).head_le hy)).ne'
    have htails : (advanceTie false (pre ++ r :: post) s.ts).map
          (fun x => fiber Sample.ts s.ts x.samples) =
        ((pre ++ r :: post).map fun x => fiber Sample.ts s.ts x.samples).map List.tail := by
      rw [advanceTie, map_map, map_map]
      refine map_congr_left fun x hx => ?_
      exact fiber_advance_self (hruns x hx).ordered (hle x hx)
    rw [column, column, htails, map_append, map_cons, hr, fiber_cons_self,
      overlayAll_eq_cons hempty, fiber_cons_self]
    rfl
  · rw [fiber_cons_of_ne Sample.ts ht, fiber_nil, nil_append, column, column, advanceTie, map_map]
    refine congrArg overlayAll (map_congr_left fun x _ => ?_)
    exact (fiber_advance_of_ne ht).symm

section

variable (hord : Ordered Sample.ts r.samples)

include hord

theorem stretch_some (x t : ℤ) :
    fiber Sample.ts t (r.samples.take (stretch r (some x))) =
        (if t < x then fiber Sample.ts t r.samples else []) ∧
      fiber Sample.ts t (r.samples.drop (stretch r (some x))) =
        if t < x then [] else fiber Sample.ts t r.samples := by
  have hbelow := below_of_ordered hord x
  rw [stretch, lowerBound, take_bound hbelow, drop_bound hbelow, takeWhile_eq_filter hbelow,
    dropWhile_eq_filter hbelow, fiber_filter Sample.ts (c := t < x) fun s hs => by rw [hs],
    fiber_filter Sample.ts (c := !decide (t < x)) fun s hs => by rw [hs]]
  by_cases htx : t < x <;> simp [htx]

theorem stretch_spec (h : ∀ x, rival = some x → t < x) :
    fiber Sample.ts t (r.samples.take (stretch r rival)) = fiber Sample.ts t r.samples ∧
      fiber Sample.ts t (r.samples.drop (stretch r rival)) = [] := by
  cases rival with
  | none =>
    rw [stretch, take_length, drop_length]
    exact ⟨rfl, rfl⟩
  | some x =>
    have hstretch := stretch_some hord x t
    rwa [if_pos (h x rfl), if_pos (h x rfl)] at hstretch

theorem stretch_pos
    (hhead : r.samples.head?.map Sample.ts = some T) {k : ℕ} (hk : k = stretch r rival)
    (h : ∀ x, rival = some x → T < x) : 0 < (r.samples.take k).length := by
  have hmem : (fiber Sample.ts T r.samples).length ≠ 0 := by
    cases hs : r.samples with
    | nil => rw [hs] at hhead; exact absurd hhead (Option.some_ne_none T).symm
    | cons s rest =>
      rw [hs] at hhead
      cases hhead
      rw [fiber_cons_self]
      exact Nat.succ_ne_zero _
  rw [hk]
  refine Nat.pos_of_ne_zero fun hzero => hmem ?_
  rw [← (stretch_spec hord h).1, length_eq_zero_iff.mp hzero]
  rfl

theorem lt_of_mem_stretch
    {k : ℕ} (hk : k = stretch r rival) {x : ℤ} (hx : rival = some x) (hs : s ∈ r.samples.take k) :
    s.ts < x := by
  rw [hk, hx, stretch, lowerBound, take_bound (below_of_ordered hord x)] at hs
  have hlt := mem_takeWhile_imp hs
  exact of_decide_eq_true hlt

end

/-- **One round with a stretch.** -/
theorem round_stretch (hruns : ∀ x ∈ pre ++ r :: post, RawRun x)
    (hothers : ∀ x ∈ pre ++ post, ∀ s ∈ x.samples, ∃ y, rival = some y ∧ y ≤ s.ts) (t : ℤ) :
    column t (pre ++ r :: post) =
      fiber Sample.ts t (r.samples.take (stretch r rival)) ++
        column t (pre ++ { r with samples := r.samples.drop (stretch r rival) } :: post) := by
  have hord : Ordered Sample.ts r.samples :=
    (hruns r (mem_append_right _ mem_cons_self)).ordered
  by_cases hbelow : ∀ x, rival = some x → t < x
  · -- no other run reaches the timestamp
    have hne : ∀ x ∈ pre ++ post, ∀ s ∈ x.samples, s.ts ≠ t := by
      intro x hx s hs heq
      obtain ⟨y, hy, hle⟩ := hothers x hx s hs
      exact absurd (heq ▸ hle) (not_le.mpr (hbelow y hy))
    have hpre : column t pre = [] := column_eq_nil fun x hx => hne x (mem_append_left _ hx)
    have hpost : column t post = [] := column_eq_nil fun x hx => hne x (mem_append_right _ hx)
    obtain ⟨htake, hdrop⟩ := stretch_spec hord hbelow
    rw [column_append, column_append, column_cons, column_cons, hpre, hpost, htake, hdrop]
    simp only [overlay_nil_left, overlay_nil_right, append_nil]
  · obtain ⟨x, hx⟩ : ∃ x, rival = some x ∧ x ≤ t := by
      by_contra hno
      exact hbelow fun x hx => not_le.mp fun hle => hno ⟨x, hx, hle⟩
    obtain ⟨rfl, hle⟩ := hx
    obtain ⟨htake, hdrop⟩ := stretch_some hord x t
    rw [if_neg (not_lt.mpr hle)] at htake hdrop
    rw [column_append, column_append, column_cons, column_cons, htake, hdrop, nil_append]

/-! ## The whole merge -/

theorem mem_column (h : s ∈ column t runs) : ∃ r ∈ runs, s ∈ r.samples := by
  obtain ⟨m, hm, hs⟩ := mem_of_mem_overlayAll h
  obtain ⟨r, hr, rfl⟩ := mem_map.mp hm
  exact ⟨r, hr, ((mem_fiber Sample.ts).mp hs).1⟩

theorem total_eq_zero_iff : total runs = 0 ↔ ∀ r ∈ runs, r.samples = [] := by
  induction runs with
  | nil => simp [total]
  | cons r rs ih =>
    rw [forall_mem_cons, ← ih, ← length_eq_zero_iff]
    exact Nat.add_eq_zero_iff

theorem column_eq_nil_of_total (h : total runs = 0) (t : ℤ) : column t runs = [] := by
  refine column_eq_nil fun r hr s hs => ?_
  rw [total_eq_zero_iff.mp h r hr] at hs
  cases hs

theorem total_eq_zero (h : ∀ j, headAt runs j = none) : total runs = 0 := by
  refine total_eq_zero_iff.mpr fun r hr => ?_
  obtain ⟨j, hj, rfl⟩ := mem_iff_getElem.mp hr
  have hnone := h j
  rwa [headAt, List.getElem?_eq_getElem hj, Option.bind_some, Option.map_eq_none_iff,
    List.head?_eq_none_iff] at hnone

theorem total_append_cons (pre post : List (Run F)) (r : Run F) :
    total (pre ++ r :: post) = total pre + r.samples.length + total post := by
  simp only [total, map_append, map_cons, sum_append, sum_cons, Nat.add_assoc]

theorem total_advance_le (runs : List (Run F)) (ts : ℤ) :
    total (advanceTie normalize runs ts) ≤ total runs := by
  induction runs with
  | nil => exact Nat.le_refl _
  | cons r rs ih => exact Nat.add_le_add (r.advance_sublist ts).1.length_le ih

theorem advanceTie_middle (pre post : List (Run F)) (r : Run F) (ts : ℤ) :
    advanceTie normalize (pre ++ r :: post) ts =
      advanceTie normalize pre ts ++ r.advance normalize ts :: advanceTie normalize post ts := by
  rw [advanceTie, map_append, map_cons]
  rfl

theorem total_advance_lt (h : headAt runs i = some ts) :
    total (advanceTie normalize runs ts) < total runs := by
  rw [headAt, Option.bind_eq_some_iff] at h
  obtain ⟨r, hr, hhead⟩ := h
  obtain ⟨pre, post, rfl⟩ := append_of_mem (mem_of_getElem? hr)
  have hlt : (r.advance normalize ts).samples.length < r.samples.length := by
    cases hs : r.samples with
    | nil => rw [hs] at hhead; exact absurd hhead (Option.some_ne_none ts).symm
    | cons s rest =>
      rw [hs] at hhead
      cases hhead
      simp only [Run.advance, hs, if_true]
      refine Nat.lt_succ_of_le ?_
      cases normalize with
      | false => exact Nat.le_refl _
      | true => exact (dropWhile_suffix _).length_le
  have hpre : total (advanceTie normalize pre ts) ≤ total pre := total_advance_le pre ts
  have hpost : total (advanceTie normalize post ts) ≤ total post := total_advance_le post ts
  rw [advanceTie_middle, total_append_cons, total_append_cons]
  omega

theorem fst_emit (r : Run F) (samples : List (Sample F)) :
    (emit r samples).map Prod.fst = samples := by
  rw [emit, map_map]
  exact map_id _

theorem exists_append_of_getElem? {α : Type*} {l : List α} {a : α} (h : l[i]? = some a) :
    ∃ pre post, l = pre ++ a :: post ∧ pre.length = i := by
  obtain ⟨hi, rfl⟩ := List.getElem?_eq_some_iff.mp h
  refine ⟨l.take i, l.drop (i + 1), ?_, length_take_of_le hi.le⟩
  rw [← drop_eq_getElem_cons hi, take_append_drop]

theorem exists_headAt_of_mem (hx : x ∈ pre ++ post) (hs : x.samples = s :: rest) :
    ∃ j, j ≠ pre.length ∧ headAt (pre ++ r :: post) j = some s.ts := by
  have hhead : x.samples.head?.map Sample.ts = some s.ts := by
    rw [hs]
    rfl
  rcases mem_append.mp hx with hx | hx
  · obtain ⟨j, hj, rfl⟩ := mem_iff_getElem.mp hx
    refine ⟨j, hj.ne, ?_⟩
    rw [headAt, List.getElem?_append_left hj, List.getElem?_eq_getElem hj, Option.bind_some, hhead]
  · obtain ⟨j, hj, rfl⟩ := mem_iff_getElem.mp hx
    refine ⟨pre.length + (j + 1), by omega, ?_⟩
    rw [headAt, List.getElem?_append_right (Nat.le_add_right _ _), Nat.add_sub_cancel_left,
      List.getElem?_cons_succ, List.getElem?_eq_getElem hj, Option.bind_some, hhead]

theorem rival_le_of_mem {l : Lead}
    (hlead : IsLead (pre ++ r :: post) l) (hpre : pre.length = l.lead)
    (hx : x ∈ pre ++ post) (hord : Ordered Sample.ts x.samples) (hs : s ∈ x.samples) :
    ∃ y, l.rival = some y ∧ y ≤ s.ts := by
  cases hl : x.samples with
  | nil => exact absurd (hl ▸ hs) not_mem_nil
  | cons u us =>
    obtain ⟨j, hj, hhead⟩ := exists_headAt_of_mem (r := r) hx hl
    obtain ⟨y, hy, hle⟩ := hlead.rival_le j u.ts hhead (hpre ▸ hj)
    rw [hl] at hs hord
    exact ⟨y, hy, hle.trans (hord.head_le hs)⟩

/-- What is left of the runs does not lie before a stretch that was copied. -/
theorem le_of_mem_stretch (hord : Ordered Sample.ts r.samples)
    (hothers : ∀ x ∈ pre ++ post, ∀ s ∈ x.samples, ∃ y, rival = some y ∧ y ≤ s.ts) {u : Sample F}
    (hs : s ∈ r.samples.take (stretch r rival))
    (hx : x ∈ pre ++ { r with samples := r.samples.drop (stretch r rival) } :: post)
    (hu : u ∈ x.samples) : s.ts ≤ u.ts := by
  have hother : x ∈ pre ++ post → s.ts ≤ u.ts := fun hx => by
    obtain ⟨y, hy, hle⟩ := hothers x hx u hu
    exact (lt_of_mem_stretch hord rfl hy hs).le.trans hle
  rcases mem_append.mp hx with hx | hx
  · exact hother (mem_append_left _ hx)
  · rcases mem_cons.mp hx with rfl | hx
    · rw [← take_append_drop (stretch r rival) r.samples] at hord
      exact (pairwise_append.mp hord).2.2 s hs u hu
    · exact hother (mem_append_right _ hx)

/-- **One round at a time.**  What holds of runs with nothing left, and is kept by a tie and by a
stretch, holds of the merge loop with fuel for every sample. -/
theorem collectLoop_induct [Float64 F] (normalize : Bool) {R : Run F → Prop}
    {P : List (Run F) → List (Sample F × RollupTag) → Prop}
    (hord : ∀ r, R r → Ordered Sample.ts r.samples)
    (hdrop : ∀ r k, R r → R { r with samples := r.samples.drop k })
    (hadvance : ∀ r ts, R r → R (r.advance normalize ts))
    (hnil : ∀ runs, total runs = 0 → P runs [])
    (htie : ∀ runs l out, (∀ r ∈ runs, R r) → IsLead runs l →
      (leadRun runs = some l ∧ l.rival = some l.ts) → P (advanceTie normalize runs l.ts) out →
      P runs ((foldTie normalize runs l.ts).toList ++ out))
    (hstretch : ∀ pre post r rival out, (∀ x ∈ pre ++ r :: post, R x) →
      (∀ x ∈ pre ++ post, ∀ s ∈ x.samples, ∃ y, rival = some y ∧ y ≤ s.ts) →
      P (pre ++ { r with samples := r.samples.drop (stretch r rival) } :: post) out →
      P (pre ++ r :: post) (emit r (r.samples.take (stretch r rival)) ++ out))
    (n : ℕ) (hruns : ∀ r ∈ runs, R r) (hn : total runs ≤ n) :
    P runs (collectLoop normalize n runs) := by
  induction n generalizing runs with
  | zero => exact hnil runs (Nat.le_zero.mp hn)
  | succ n ih =>
    have hlead := leadOf_leadRun runs
    rw [collectLoop]
    cases hl : leadRun runs with
    | none =>
      rw [hl] at hlead
      exact hnil runs (total_eq_zero hlead)
    | some l =>
      rw [hl] at hlead
      by_cases heq : l.rival = some l.ts
      · simp only [if_pos heq]
        refine htie runs l _ hruns hlead ⟨hl, heq⟩ (ih (fun r hr => ?_) ?_)
        · obtain ⟨r', hr', rfl⟩ := mem_map.mp hr
          exact hadvance r' l.ts (hruns r' hr')
        · exact Nat.le_of_lt_succ ((total_advance_lt hlead.lead).trans_le hn)
      obtain ⟨r, hr, hhead⟩ := Option.bind_eq_some_iff.mp hlead.lead
      obtain ⟨pre, post, rfl, hpre⟩ := exists_append_of_getElem? hr
      have hrun := hruns r (mem_append_right _ mem_cons_self)
      have hmem : ∀ x ∈ pre ++ post, x ∈ pre ++ r :: post := fun x hx =>
        mem_append.mpr ((mem_append.mp hx).imp_right (mem_cons_of_mem r))
      -- the stretch, and the run without it
      have hset : (pre ++ r :: post).set l.lead
          { r with samples := r.samples.drop (stretch r l.rival) } =
          pre ++ { r with samples := r.samples.drop (stretch r l.rival) } :: post := by
        rw [← hpre, set_append_right _ _ (Nat.le_refl _), Nat.sub_self, set_cons_zero]
      have hpos : 0 < (r.samples.take (stretch r l.rival)).length :=
        stretch_pos (hord r hrun) hhead rfl fun y hy => lt_of_le_of_ne (hlead.le_rival y hy)
          fun heq' => heq (heq' ▸ hy)
      simp only [if_neg heq, hr, hset]
      refine hstretch pre post r l.rival _ hruns (fun x hx s hs =>
        rival_le_of_mem hlead hpre hx (hord x (hruns x (hmem x hx))) hs) (ih (fun x hx => ?_) ?_)
      · rcases mem_append.mp hx with hx | hx
        · exact hruns x (mem_append_left _ hx)
        · rcases mem_cons.mp hx with rfl | hx
          · exact hdrop r _ hrun
          · exact hruns x (hmem x (mem_append_right _ hx))
      · rw [total_append_cons] at hn ⊢
        rw [length_take] at hpos
        rw [length_drop]
        omega

/-- What the merge of raw runs returns. -/
structure Merged (runs : List (Run F)) (out : List (Sample F × RollupTag)) : Prop where
  fibers : ∀ t, fiber Sample.ts t (out.map Prod.fst) = column t runs
  ordered : Ordered Sample.ts (out.map Prod.fst)
  raw : ∀ x ∈ out, x.2 = .raw

theorem Merged.mem (h : Merged runs out) (hs : s ∈ out.map Prod.fst) :
    ∃ r ∈ runs, s ∈ r.samples := by
  refine mem_column (t := s.ts) ?_
  rw [← h.fibers]
  exact (mem_fiber Sample.ts).mpr ⟨hs, rfl⟩

theorem Merged.nil (h : total runs = 0) : Merged runs [] :=
  ⟨fun t => (column_eq_nil_of_total h t).symm, .nil, nofun⟩

theorem Merged.tie [Float64 F] (hruns : ∀ r ∈ runs, RawRun r)
    (hleast : ∀ j t, headAt runs j = some t → T ≤ t) (hi : headAt runs i = some T)
    (hrest : Merged (advanceTie false runs T) out) :
    Merged runs ((foldTie false runs T).toList ++ out) := by
  obtain ⟨s, hfold, hts, hcol⟩ := round_tie hruns hleast hi
  rw [hfold, Option.toList_some, singleton_append]
  refine ⟨fun t => ?_, pairwise_cons.mpr ⟨fun u hu => ?_, hrest.ordered⟩, ?_⟩
  · rw [map_cons, hcol t, ← hrest.fibers t, ← fiber_append]
    rfl
  · -- what is left is not before the least next timestamp
    obtain ⟨r, hr, hur⟩ := hrest.mem hu
    obtain ⟨r', hr', rfl⟩ := mem_map.mp hr
    rw [hts]
    exact le_of_headAt hleast hr' (hruns r' hr').ordered ((r'.advance_sublist T).1.mem hur)
  · exact forall_mem_cons.mpr ⟨rfl, hrest.raw⟩

/-- **The merge loop**, with fuel for every sample. -/
theorem merged_collectLoop [Float64 F] (n : ℕ) (hruns : ∀ r ∈ runs, RawRun r)
    (hn : total runs ≤ n) : Merged runs (collectLoop false n runs) := by
  refine collectLoop_induct false (fun r h => h.ordered)
    (fun r k h => h.of_sublist (drop_sublist k _)) (fun r ts h => h.advance ts)
    (fun runs h => Merged.nil h) (fun runs l out hruns hlead htie hrest => ?_)
    (fun pre post r rival out hruns hothers hrest => ?_) n hruns hn
  · exact hrest.tie hruns hlead.least hlead.lead
  have hrun := hruns r (mem_append_right _ mem_cons_self)
  refine ⟨fun t => ?_, ?_, ?_⟩
  · rw [map_append, fst_emit, fiber_append, hrest.fibers t]
    exact (round_stretch hruns hothers t).symm
  · rw [map_append, fst_emit]
    refine pairwise_append.mpr ⟨hrun.ordered.sublist (take_sublist _ _), hrest.ordered,
      fun s hs u hu => ?_⟩
    obtain ⟨x, hx, hux⟩ := hrest.mem hu
    exact le_of_mem_stretch hrun.ordered hothers hs hx hux
  · refine fun x hx => (mem_append.mp hx).elim (fun hx => ?_) (hrest.raw x)
    obtain ⟨s, hs, rfl⟩ := mem_map.mp hx
    exact hrun.raw s (mem_of_mem_take hs)

/-- **The merge of raw runs**, timestamp by timestamp. -/
theorem merged_collectMany [Float64 F] (hruns : ∀ r ∈ runs, RawRun r) :
    Merged runs (collectMany false runs) := merged_collectLoop _ hruns (Nat.le_refl _)

/-! ## Runs with one sample a timestamp -/

/-- A raw run whose timestamps increase. -/
structure StrictRun (r : Run F) : Prop extends RawRun r where
  strict : Strict Sample.ts r.samples

theorem collectOne_strict (h : Strict Sample.ts l) : collectOne l = l := by
  induction l with
  | nil => rfl
  | cons s l ih =>
    cases l with
    | nil => rfl
    | cons u rest =>
      have hne : u.ts ≠ s.ts := ((pairwise_cons.mp h).1 u mem_cons_self).ne'
      rw [collectOne, if_neg hne, ih h.of_cons]

theorem RawRun.emit (h : RawRun r) : ∀ x ∈ Metrics.emit r r.samples, x.2 = .raw := by
  intro x hx
  obtain ⟨s, hs, rfl⟩ := mem_map.mp hx
  exact h.raw s hs

/-- **What a read returns.**  One run alone drops repeated timestamps, several do not, so with one
run its timestamps have to increase. -/
theorem merged_gather [Float64 F] (hruns : ∀ r ∈ runs, RawRun r)
    (hone : ∀ r, runs = [r] → Strict Sample.ts r.samples) : Merged runs (gather false runs) := by
  match runs with
  | [] => exact Merged.nil rfl
  | [r] =>
    have hr := hruns r mem_cons_self
    rw [gather, collectOne_strict (hone r rfl)]
    refine ⟨fun t => ?_, ?_, hr.emit⟩
    · rw [fst_emit, column_cons, column, map_nil, overlayAll, overlay_nil_right]
    · rw [fst_emit]
      exact hr.ordered
  | r :: r' :: rs => exact merged_collectMany hruns

theorem rawTieAt_strict (normalize : Bool) (h : Strict Sample.ts (s :: rest)) :
    rawTieAt normalize s.ts s rest = s := by
  cases rest with
  | nil => rfl
  | cons u us =>
    have hne : u.ts ≠ s.ts := ((pairwise_cons.mp h).1 u mem_cons_self).ne'
    rw [rawTieAt, if_neg fun h => hne h.2]

theorem Run.advance_strict (h : Strict Sample.ts r.samples) (normalize : Bool) (ts : ℤ) :
    r.advance normalize ts = r.advance false ts := by
  cases hr : r.samples with
  | nil => rw [r.advance_nil normalize ts hr, r.advance_nil false ts hr]
  | cons s rest =>
    by_cases hs : s.ts = ts
    · subst hs
      rw [hr] at h
      have hkeep : rest.dropWhile (fun u => u.ts = s.ts) = rest := by
        cases rest with
        | nil => rfl
        | cons u us =>
          have hne : u.ts ≠ s.ts := ((pairwise_cons.mp h).1 u mem_cons_self).ne'
          exact dropWhile_cons_of_neg (by simpa using hne)
      simp only [Run.advance, hr, if_true, hkeep, ite_self]
    · rw [Run.advance_of_ne normalize hr hs, Run.advance_of_ne false hr hs]

theorem foldTie_strict [Float64 F] (hruns : ∀ r ∈ runs, StrictRun r) (normalize : Bool) (ts : ℤ) :
    foldTie normalize runs ts = foldTie false runs ts := by
  have hagg : tieAgg (tied runs ts) = none := tieAgg_eq_none fun t ht =>
    tag_of_mem_tied (fun r hr => (hruns r hr).toRawRun) ht
  simp only [foldTie, hagg]
  cases hties : tied runs ts with
  | nil => rfl
  | cons t rest =>
    have ht : t ∈ tied runs ts := hties ▸ mem_cons_self
    obtain ⟨r, hr, htie⟩ := mem_filterMap.mp ht
    have hstrict := (hruns r (mem_reverse.mp hr)).strict
    have hsame : rawTieAt normalize ts t.sample t.rest = t.sample := by
      cases hs : r.samples with
      | nil => simp only [Run.tie, hs, reduceCtorEq] at htie
      | cons s us =>
        by_cases hts : s.ts = ts
        · subst hts
          rw [Run.tie_eq_some hs] at htie
          cases htie
          exact rawTieAt_strict normalize (hs ▸ hstrict)
        · simp only [Run.tie, hs, if_neg hts, reduceCtorEq] at htie
    rw [List.head?_cons, Option.map_some, Option.map_some, hsame, rawTieAt_false]

theorem StrictRun.of_sublist (h : StrictRun r) (hs : samples.Sublist r.samples) :
    StrictRun { r with samples := samples } :=
  ⟨h.toRawRun.of_sublist hs, h.strict.sublist hs⟩

theorem StrictRun.advance (h : StrictRun r) (ts : ℤ) : StrictRun (r.advance false ts) :=
  ⟨h.toRawRun.advance ts, h.strict.sublist (r.advance_sublist ts).1⟩

theorem collectLoop_strict [Float64 F] (n : ℕ) (hruns : ∀ r ∈ runs, StrictRun r) :
    collectLoop true n runs = collectLoop false n runs := by
  induction n generalizing runs with
  | zero => rfl
  | succ n ih =>
    rw [collectLoop, collectLoop]
    cases hl : leadRun runs with
    | none => rfl
    | some l =>
      have hadv : advanceTie true runs l.ts = advanceTie false runs l.ts :=
        map_congr_left fun r hr => r.advance_strict (hruns r hr).strict true l.ts
      by_cases htie : l.rival = some l.ts
      · simp only [if_pos htie, foldTie_strict hruns true, hadv]
        rw [ih fun r hr => ?_]
        obtain ⟨r', hr', rfl⟩ := mem_map.mp hr
        exact (hruns r' hr').advance _
      cases hr : runs[l.lead]? with
      | none => simp only [if_neg htie, hr]
      | some r =>
        simp only [if_neg htie, hr]
        rw [ih fun x hx => ?_]
        rcases mem_or_eq_of_mem_set hx with hx | rfl
        · exact hruns x hx
        · exact (hruns r (mem_of_getElem? hr)).of_sublist (drop_sublist _ _)

section

variable (hruns : ∀ r ∈ runs, StrictRun r)

include hruns

theorem gather_strict [Float64 F] : gather true runs = gather false runs := by
  match runs with
  | [] => rfl
  | [r] => rfl
  | r :: r' :: rs => exact collectLoop_strict _ hruns

omit hruns in
theorem dropRawDuplicates_strict (h : Strict Sample.ts (out.map Prod.fst)) :
    dropRawDuplicates out = out := by
  induction out with
  | nil => rfl
  | cons x out ih =>
    cases out with
    | nil => rfl
    | cons y rest =>
      have hne : x.1.ts ≠ y.1.ts := ((pairwise_cons.mp h).1 y.1 mem_cons_self).ne
      rw [dropRawDuplicates, if_neg fun h => hne h.1, ih h.of_cons]

omit hruns in
theorem length_column_le (h : ∀ r ∈ runs, Strict Sample.ts r.samples) (t : ℤ) :
    (column t runs).length ≤ 1 := by
  refine length_overlayAll_le fun m hm => ?_
  obtain ⟨r, hr, rfl⟩ := mem_map.mp hm
  exact (h r hr).fiber_length_le t

/-- **What a read of runs with one sample a timestamp returns** has one sample a timestamp. -/
theorem collect_strict [Float64 F] : Strict Sample.ts (collect runs) := by
  have h := merged_gather (fun r hr => (hruns r hr).toRawRun)
    fun r hr => (hruns r (hr ▸ mem_cons_self)).strict
  refine strict_of_fiber_length_le h.ordered fun t => ?_
  rw [collect, h.fibers t]
  exact length_column_le (fun r hr => (hruns r hr).strict) t

theorem fiber_collect [Float64 F] (t : ℤ) : fiber Sample.ts t (collect runs) = column t runs :=
  (merged_gather (fun r hr => (hruns r hr).toRawRun)
    fun r hr => (hruns r (hr ▸ mem_cons_self)).strict).fibers t

/-- **A merge under no tier writes what a read of its sources returns.** -/
theorem rollSeries_raw [Float64 F] :
    rollSeries runs [] = (collect runs).map fun s => (s, s.ts) := by
  have h := merged_gather (fun r hr => (hruns r hr).toRawRun)
    fun r hr => (hruns r (hr ▸ mem_cons_self)).strict
  rw [rollSeries, gather_strict hruns, dropRawDuplicates_strict (collect_strict hruns),
    downsampleCovering_raw h.raw, collect, map_map]
  rfl

end

end OtelStorage.Metrics
