import OtelStorage.Metrics.Lossless

/-!
# What a merge keeps at a timestamp

For runs with one sample a timestamp, raw or rolled up, a merge is said timestamp by timestamp: one
run alone gives its sample as it is, several give the fold of their tie.  `resolved_gather` says so,
and `resolve_const` what it comes to where all runs hold the same raw sample.
-/

namespace OtelStorage.Metrics

open Fibers List

variable {F : Type*} {runs : List (Run F)} {t T : ℤ} {r : Run F} {out : List (Sample F × RollupTag)}
  {ties : List (Tie F)} {x : Sample F × RollupTag} (normalize : Bool) {s : Sample F}

/-! ## Ties without cursors -/

/-- The sample of a run at a timestamp, as its part in a tie. -/
def Run.at (t : ℤ) (r : Run F) : Option (Tie F) :=
  (r.samples.find? fun s => s.ts = t).map fun s => ⟨runTag r.layout t, s, []⟩

/-- The samples of all runs at a timestamp, newest run first. -/
def tiesAt (t : ℤ) (runs : List (Run F)) : List (Tie F) := runs.reverse.filterMap (Run.at t)

theorem tiesAt_append (t : ℤ) (runs rs : List (Run F)) :
    tiesAt t (runs ++ rs) = tiesAt t rs ++ tiesAt t runs := by
  rw [tiesAt, reverse_append, filterMap_append]
  rfl

theorem tiesAt_cons (t : ℤ) (r : Run F) (runs : List (Run F)) :
    tiesAt t (r :: runs) = tiesAt t runs ++ (r.at t).toList := by
  rw [← singleton_append, tiesAt_append]
  have hone : tiesAt t [r] = (r.at t).toList := by
    rw [tiesAt, reverse_singleton]
    cases h : r.at t <;> simp [h]
  rw [hone]

theorem Run.at_eq_none : r.at t = none ↔ ∀ s ∈ r.samples, s.ts ≠ t := by
  rw [Run.at, Option.map_eq_none_iff, List.find?_eq_none]
  simp

theorem find?_eq_some_of_strict {l : List (Sample F)} (h : Strict Sample.ts l)
    (hs : s ∈ l) : (l.find? fun u => u.ts = s.ts) = some s := by
  have hf := h.fiber_eq hs
  rw [← List.head?_filter]
  exact congrArg List.head? hf

theorem Run.at_of_mem (h : Strict Sample.ts r.samples) (hs : s ∈ r.samples) :
    r.at s.ts = some ⟨runTag r.layout s.ts, s, []⟩ := by
  rw [Run.at, find?_eq_some_of_strict h hs]
  rfl

theorem tiesAt_eq_nil (h : ∀ r ∈ runs, ∀ s ∈ r.samples, s.ts ≠ t) : tiesAt t runs = [] := by
  refine filterMap_eq_nil_iff.mpr fun r hr => ?_
  exact Run.at_eq_none.mpr (h r (mem_reverse.mp hr))

theorem mem_tiesAt {x : Tie F} (h : x ∈ tiesAt t runs) :
    ∃ r ∈ runs, x.tag = runTag r.layout t ∧ x.sample ∈ r.samples ∧ x.sample.ts = t ∧
    x.rest = [] := by
  obtain ⟨r, hr, hx⟩ := mem_filterMap.mp h
  obtain ⟨s, hs, rfl⟩ := Option.map_eq_some_iff.mp hx
  have hts : s.ts = t := by
    simpa using List.find?_some (p := fun s : Sample F => decide (s.ts = t)) hs
  exact ⟨r, mem_reverse.mp hr, rfl, mem_of_find?_eq_some hs, hts, rfl⟩

theorem at_advance (h : Strict Sample.ts r.samples) (hT : ∀ s ∈ r.samples, T ≤ s.ts) (t : ℤ) :
    (r.advance false T).at t = if t = T then none else r.at t := by
  cases hr : r.samples with
  | nil =>
    rw [r.advance_nil false T hr]
    have hnone : r.at t = none := Run.at_eq_none.mpr (hr ▸ nofun)
    rw [hnone]
    split <;> rfl
  | cons s rest =>
    rw [hr] at h hT
    have hrest := (pairwise_cons.mp h).1
    by_cases hs : s.ts = T
    · subst hs
      rw [Run.advance_cons_self hr]
      by_cases ht : t = s.ts
      · rw [if_pos ht, Run.at_eq_none]
        exact fun u hu => ht ▸ (hrest u hu).ne'
      · rw [if_neg ht, Run.at, Run.at, hr, List.find?_cons_of_neg (by simpa using Ne.symm ht)]
    rw [r.advance_of_ne false hr hs]
    split
    · next ht =>
      rw [Run.at_eq_none, hr, ht]
      intro u hu
      rcases mem_cons.mp hu with rfl | hu
      · exact hs
      · exact ((lt_of_le_of_ne (hT s mem_cons_self) (Ne.symm hs)).trans (hrest u hu)).ne'
    · rfl

theorem map_tied (hruns : ∀ r ∈ runs, Strict Sample.ts r.samples)
    (hT : ∀ r ∈ runs, ∀ s ∈ r.samples, T ≤ s.ts) :
    (tied runs T).map (fun t => { t with rest := [] }) = tiesAt T runs := by
  rw [tied, tiesAt, map_filterMap]
  refine filterMap_congr fun r hr => ?_
  have hmem := mem_reverse.mp hr
  cases hs : r.samples with
  | nil => simp only [Run.tie, Run.at, hs, Option.map_none, List.find?_nil]
  | cons s rest =>
    have hstrict := hruns r hmem
    rw [hs] at hstrict
    by_cases hts : s.ts = T
    · subst hts
      rw [Run.tie_eq_some hs, Run.at, hs, List.find?_cons_of_pos (by simp)]
      rfl
    have hlt : T < s.ts :=
      lt_of_le_of_ne (hT r hmem s (hs ▸ mem_cons_self)) (Ne.symm hts)
    have hnone : r.at T = none := by
      rw [Run.at_eq_none, hs]
      intro u hu
      exact (hlt.trans_le (hstrict.ordered.head_le hu)).ne'
    rw [hnone]
    simp only [Run.tie, hs, if_neg hts, Option.map_none]

theorem exists_ties (hruns : ∀ r ∈ runs, Strict Sample.ts r.samples)
    {i j : ℕ} (hij : j ≠ i) (hi : headAt runs i = some T) (hj : headAt runs j = some T) :
    ∃ y z zs, tiesAt T runs = y :: z :: zs := by
  have hsample : ∀ {r : Run F}, r ∈ runs → r.samples.head?.map Sample.ts = some T →
      ∃ y, r.at T = some y := by
    intro r hr hhead
    obtain ⟨s, hs, rfl⟩ := Option.map_eq_some_iff.mp hhead
    exact ⟨_, Run.at_of_mem (hruns r hr) (mem_of_mem_head? hs)⟩
  obtain ⟨r, hr, hhead⟩ := Option.bind_eq_some_iff.mp hi
  obtain ⟨pre, post, rfl, rfl⟩ := exists_append_of_getElem? hr
  obtain ⟨r', hr', hhead'⟩ := Option.bind_eq_some_iff.mp hj
  obtain ⟨y, hy⟩ := hsample (mem_append_right _ mem_cons_self) hhead
  obtain ⟨z, hz⟩ := hsample (mem_of_getElem? hr') hhead'
  have hties : tiesAt T (pre ++ r :: post) = tiesAt T post ++ [y] ++ tiesAt T pre := by
    rw [tiesAt_append, tiesAt_cons, hy]
    rfl
  -- the other run is before this one or after it
  have hother : tiesAt T post ≠ [] ∨ tiesAt T pre ≠ [] := by
    have hmem : ∀ {rs : List (Run F)}, r' ∈ rs → tiesAt T rs ≠ [] := by
      intro rs hrs hnil
      have hz' : z ∈ tiesAt T rs := mem_filterMap.mpr ⟨r', mem_reverse.mpr hrs, hz⟩
      rw [hnil] at hz'
      cases hz'
    rcases Nat.lt_or_gt_of_ne hij with hlt | hgt
    · rw [List.getElem?_append_left hlt] at hr'
      exact .inr (hmem (mem_of_getElem? hr'))
    · obtain ⟨k, rfl⟩ := Nat.exists_eq_add_of_lt hgt
      rw [List.getElem?_append_right (by omega),
        show pre.length + k + 1 - pre.length = k + 1 by omega, List.getElem?_cons_succ] at hr'
      exact .inl (hmem (mem_of_getElem? hr'))
  rw [hties]
  cases hpost : tiesAt T post with
  | cons a as =>
    cases as with
    | nil => exact ⟨a, y, _, rfl⟩
    | cons b bs => exact ⟨a, b, _, rfl⟩
  | nil =>
    rcases hother with hne | hne
    · exact absurd hpost hne
    · obtain ⟨a, as, hpre⟩ := exists_cons_of_ne_nil hne
      rw [hpre]
      exact ⟨y, a, as, rfl⟩

variable [Float64 F] {rs : List (Run F)}

/-- What is kept of the ties at a timestamp. -/
def foldTies (normalize : Bool) (ts : ℤ) (ties : List (Tie F)) : Option (Sample F × RollupTag) :=
  match tieAgg ties with
  | none => ties.head?.map fun t => (rawTieAt normalize ts t.sample t.rest, .raw)
  | some agg => some (foldReps normalize ts agg ties)

/-- What a merge keeps of a timestamp: a sample alone as it is. -/
def resolve (t : ℤ) (runs : List (Run F)) : List (Sample F × RollupTag) :=
  match tiesAt t runs with
  | [] => []
  | [x] => [(x.sample, x.tag)]
  | ties => (foldTies false t ties).toList

theorem resolve_nil (h : tiesAt t runs = []) : resolve t runs = [] := by
  rw [resolve, h]

theorem resolve_congr (h : tiesAt t runs = tiesAt t rs) : resolve t runs = resolve t rs := by
  rw [resolve, resolve, h]

theorem foldTies_rest {normalize : Bool} {ts : ℤ}
    (h : ∀ t ∈ ties, rawTieAt normalize ts t.sample t.rest = t.sample) :
    foldTies normalize ts ties = foldTies false ts (ties.map fun t => { t with rest := [] }) := by
  have hagg : tieAgg (ties.map fun t => { t with rest := [] }) = tieAgg ties := by
    rw [tieAgg, tieAgg, foldl_map]
  rw [foldTies, foldTies, hagg]
  cases tieAgg ties with
  | none =>
    dsimp only
    rw [List.head?_map, Option.map_map]
    cases ties with
    | nil => rfl
    | cons t ties => exact congrArg (fun s => some (s, RollupTag.raw)) (h t mem_cons_self)
  | some agg =>
    dsimp only
    rw [foldReps, foldReps, foldl_map]
    refine congrArg (fun st : BucketAcc F × RollupTag × Bool =>
      some ({ st.1.result ts with ts := ts }, st.2.1)) (foldl_ext _ _ _ fun st t ht => ?_)
    rw [tieStep, tieStep, h t ht, rawTieAt_false]

/-- **All runs with the same raw sample keep it.** -/
theorem resolve_const {x : Sample F}
    (hall : ∀ y ∈ tiesAt t runs, y.tag = .raw ∧ y.sample = x) (hne : tiesAt t runs ≠ []) :
    resolve t runs = [(x, .raw)] := by
  rw [resolve]
  cases hties : tiesAt t runs with
  | nil => exact absurd hties hne
  | cons y ys =>
    rw [hties] at hall
    obtain ⟨htag, hsample⟩ := hall y mem_cons_self
    cases ys with
    | nil =>
      dsimp only
      rw [htag, hsample]
    | cons z zs =>
      have hraw : ∀ w ∈ y :: z :: zs, w.tag = .raw := fun w hw => (hall w hw).1
      dsimp only
      rw [foldTies, tieAgg_eq_none hraw]
      show [(rawTieAt false t y.sample y.rest, RollupTag.raw)] = _
      rw [rawTieAt_false, hsample]

/-! ## The merge -/

/-- The key of a tagged sample. -/
abbrev tagTs (x : Sample F × RollupTag) : ℤ := x.1.ts

/-- What a merge returns, timestamp by timestamp. -/
structure Resolved (runs : List (Run F)) (out : List (Sample F × RollupTag)) : Prop where
  fibers : ∀ t, fiber tagTs t out = resolve t runs
  ordered : Ordered tagTs out

theorem tiesAt_ne_nil_of_mem_resolve (h : x ∈ resolve t runs) : tiesAt t runs ≠ [] := by
  intro hnil
  rw [resolve_nil hnil] at h
  cases h

theorem Resolved.exists_sample (h : Resolved runs out) (hx : x ∈ out) :
    ∃ r ∈ runs, ∃ s ∈ r.samples, s.ts = x.1.ts := by
  have hmem : x ∈ resolve x.1.ts runs := by
    rw [← h.fibers]
    exact (mem_fiber tagTs).mpr ⟨hx, rfl⟩
  obtain ⟨y, hy⟩ := exists_mem_of_ne_nil _ (tiesAt_ne_nil_of_mem_resolve hmem)
  obtain ⟨r, hr, -, hs, hts, -⟩ := mem_tiesAt hy
  exact ⟨r, hr, y.sample, hs, hts⟩

theorem Resolved.nil (h : total runs = 0) : Resolved runs [] := by
  refine ⟨fun t => (resolve_nil (tiesAt_eq_nil fun r hr s hs => ?_)).symm, .nil⟩
  rw [total_eq_zero_iff.mp h r hr] at hs
  cases hs

theorem foldTie_eq (hruns : ∀ r ∈ runs, Strict Sample.ts r.samples)
    (hT : ∀ r ∈ runs, ∀ s ∈ r.samples, T ≤ s.ts) (normalize : Bool) :
    foldTie normalize runs T = foldTies false T (tiesAt T runs) := by
  have hrest : ∀ t ∈ tied runs T, rawTieAt normalize T t.sample t.rest = t.sample := by
    intro t ht
    obtain ⟨r, hr, htie⟩ := mem_filterMap.mp ht
    have hstrict := hruns r (mem_reverse.mp hr)
    cases hs : r.samples with
    | nil =>
      rw [Run.tie, hs] at htie
      cases htie
    | cons s rest =>
      by_cases hts : s.ts = T
      · subst hts
        rw [Run.tie_eq_some hs] at htie
        rw [← Option.some.inj htie]
        exact rawTieAt_strict normalize (hs ▸ hstrict)
      · simp only [Run.tie, hs, if_neg hts] at htie
        cases htie
  rw [← map_tied hruns hT, ← foldTies_rest hrest]
  rfl

theorem foldTies_ne_nil (h : ties ≠ []) : ∃ x, foldTies false T ties = some x := by
  rw [foldTies]
  cases tieAgg ties with
  | some agg => exact ⟨_, rfl⟩
  | none =>
    cases ties with
    | nil => exact absurd rfl h
    | cons t ties => exact ⟨_, rfl⟩

/-- **A round at a tie.** -/
theorem Resolved.tie (hruns : ∀ r ∈ runs, Strict Sample.ts r.samples) {l : Lead}
    (hlead : IsLead runs l) (hrival : RivalOf runs (some l)) (htie : l.rival = some l.ts)
    (normalize : Bool) (h : Resolved (advanceTie false runs l.ts) out) :
    Resolved runs ((foldTie normalize runs l.ts).toList ++ out) := by
  have hT : ∀ r ∈ runs, ∀ s ∈ r.samples, l.ts ≤ s.ts := fun r hr s hs =>
    le_of_headAt hlead.least hr (hruns r hr).ordered hs
  obtain ⟨j, hj, hhead⟩ := hrival l.ts htie
  obtain ⟨y, z, zs, hties⟩ := exists_ties hruns hj hlead.lead hhead
  rw [foldTie_eq hruns hT]
  obtain ⟨x, hx⟩ := foldTies_ne_nil (T := l.ts) (hties ▸ cons_ne_nil y (z :: zs))
  have hxts : x.1.ts = l.ts := ts_foldTie ((foldTie_eq hruns hT false).trans hx)
  have hadvance : ∀ t, tiesAt t (advanceTie false runs l.ts) =
      if t = l.ts then [] else tiesAt t runs := by
    intro t
    have hmap : tiesAt t (advanceTie false runs l.ts) =
        runs.reverse.filterMap fun r => (r.advance false l.ts).at t := by
      rw [tiesAt, advanceTie, ← map_reverse, filterMap_map]
      rfl
    rw [hmap]
    have hat : ∀ r ∈ runs.reverse,
        (r.advance false l.ts).at t = if t = l.ts then none else r.at t :=
      fun r hr => at_advance (hruns r (mem_reverse.mp hr)) (hT r (mem_reverse.mp hr)) t
    rw [filterMap_congr hat]
    split
    · exact filterMap_eq_nil_iff.mpr fun _ _ => rfl
    · rfl
  rw [hx]
  refine ⟨fun t => ?_, pairwise_cons.mpr ⟨fun u hu => ?_, h.ordered⟩⟩
  · rw [Option.toList_some, singleton_append]
    by_cases ht : t = l.ts
    · subst ht
      have hrest : fiber tagTs l.ts out = [] := by
        rw [h.fibers]
        exact resolve_nil ((hadvance l.ts).trans (if_pos rfl))
      have hself : fiber tagTs l.ts (x :: out) = x :: fiber tagTs l.ts out :=
        filter_cons_of_pos (decide_eq_true hxts)
      rw [hself, hrest, resolve, hties]
      show [x] = (foldTies false l.ts (y :: z :: zs)).toList
      rw [← hties, hx]
      rfl
    · rw [fiber_cons_of_ne tagTs (fun hxt => ht (hxt.symm.trans hxts)), h.fibers]
      exact resolve_congr ((hadvance t).trans (if_neg ht))
  · obtain ⟨r, hr, s, hs, hsu⟩ := h.exists_sample hu
    obtain ⟨r', hr', rfl⟩ := mem_map.mp hr
    show x.1.ts ≤ u.1.ts
    rw [hxts, ← hsu]
    exact hT r' hr' s ((r'.advance_sublist l.ts).1.mem hs)

/-- **A stretch.** -/
theorem Resolved.stretch {pre post : List (Run F)} {k : ℕ} (hstrict : Strict Sample.ts r.samples)
    (hbefore : ∀ x ∈ pre ++ post, ∀ s ∈ r.samples.take k, ∀ s' ∈ x.samples, s.ts < s'.ts)
    (h : Resolved (pre ++ { r with samples := r.samples.drop k } :: post) out) :
    Resolved (pre ++ r :: post) (emit r (r.samples.take k) ++ out) := by
  have hsplit := take_append_drop k r.samples
  have hpair : ∀ s ∈ r.samples.take k, ∀ u ∈ r.samples.drop k, s.ts < u.ts := by
    rw [← hsplit] at hstrict
    exact (pairwise_append.mp hstrict).2.2
  have htake : Strict Sample.ts (r.samples.take k) := hstrict.sublist (take_sublist k _)
  have hfiber : ∀ t, fiber tagTs t (emit r (r.samples.take k)) =
      emit r (fiber Sample.ts t (r.samples.take k)) := fun t => filter_map
  have hties : ∀ q : Run F, ∀ t,
      tiesAt t (pre ++ q :: post) = tiesAt t post ++ (q.at t).toList ++ tiesAt t pre := by
    intro q t
    rw [tiesAt_append, tiesAt_cons]
  refine ⟨fun t => ?_, pairwise_append.mpr ⟨?_, h.ordered, fun x hx u hu => ?_⟩⟩
  · rw [fiber_append, hfiber, h.fibers]
    by_cases ht : ∃ s ∈ r.samples.take k, s.ts = t
    · -- only this run holds the timestamp
      obtain ⟨s, hs, rfl⟩ := ht
      have hpre : tiesAt s.ts pre = [] := tiesAt_eq_nil fun x hx u hu =>
        (hbefore x (mem_append_left _ hx) s hs u hu).ne'
      have hpost : tiesAt s.ts post = [] := tiesAt_eq_nil fun x hx u hu =>
        (hbefore x (mem_append_right _ hx) s hs u hu).ne'
      have hdrop : ({ r with samples := r.samples.drop k } : Run F).at s.ts = none :=
        Run.at_eq_none.mpr fun u hu => (hpair s hs u hu).ne'
      have hself := Run.at_of_mem hstrict (mem_of_mem_take hs)
      rw [htake.fiber_eq hs, resolve, resolve, hties, hties, hpre, hpost, hdrop, hself]
      rfl
    have hnone : fiber Sample.ts t (r.samples.take k) = [] :=
      fiber_eq_nil Sample.ts fun s hs hst => ht ⟨s, hs, hst⟩
    have hat : ({ r with samples := r.samples.drop k } : Run F).at t = r.at t := by
      have hfind : (r.samples.find? fun s => s.ts = t) =
          (r.samples.drop k).find? fun s => s.ts = t := by
        conv_lhs => rw [← hsplit]
        rw [List.find?_append, List.find?_eq_none.mpr fun s hs hst =>
          ht ⟨s, hs, of_decide_eq_true hst⟩]
        rfl
      rw [Run.at, Run.at, hfind]
    rw [hnone]
    refine resolve_congr ?_
    rw [hties, hties, hat]
  · exact pairwise_map.mpr htake.ordered
  · obtain ⟨s, hs, rfl⟩ := mem_map.mp hx
    obtain ⟨q, hq, v, hv, hvu⟩ := h.exists_sample hu
    show s.ts ≤ u.1.ts
    rw [← hvu]
    rcases mem_append.mp hq with hq | hq
    · exact (hbefore q (mem_append_left _ hq) s hs v hv).le
    · rcases mem_cons.mp hq with rfl | hq
      · exact (hpair s hs v hv).le
      · exact (hbefore q (mem_append_right _ hq) s hs v hv).le

theorem resolved_collectLoop (n : ℕ)
    (hruns : ∀ r ∈ runs, Strict Sample.ts r.samples) (hn : total runs ≤ n) :
    Resolved runs (collectLoop normalize n runs) := by
  refine collectLoop_induct (R := fun r => Strict Sample.ts r.samples) normalize
    (fun r h => h.ordered)
    (fun r k h => h.sublist (drop_sublist k _))
    (fun r ts h => h.sublist (r.advance_sublist ts).1) (fun runs h => Resolved.nil h)
    (fun runs l out hruns hlead htie hrest => ?_)
    (fun pre post r rival out hruns hothers hrest => ?_) n hruns hn
  · have hrival := rivalOf_leadRun runs
    rw [htie.1] at hrival
    have hadvance : advanceTie normalize runs l.ts = advanceTie false runs l.ts :=
      map_congr_left fun r hr => Run.advance_strict (hruns r hr) normalize l.ts
    rw [hadvance] at hrest
    exact Resolved.tie hruns hlead hrival htie.2 normalize hrest
  · have hr := hruns r (mem_append_right _ mem_cons_self)
    refine Resolved.stretch hr (fun x hx s hs s' hs' => ?_) hrest
    obtain ⟨y, hy, hle⟩ := hothers x hx s' hs'
    exact (lt_of_mem_stretch hr.ordered rfl hy hs).trans_le hle

/-- **What a merge returns at each timestamp.** -/
theorem resolved_gather (hruns : ∀ r ∈ runs, Strict Sample.ts r.samples) :
    Resolved runs (gather normalize runs) := by
  match runs with
  | [] => exact Resolved.nil rfl
  | [r] =>
    have hr := hruns r mem_cons_self
    have hrest : Resolved ([] ++ { r with samples := r.samples.drop r.samples.length } :: []) [] :=
      Resolved.nil (by simp [total])
    have hall := hrest.stretch hr fun x hx => absurd hx not_mem_nil
    rwa [take_length, append_nil, ← collectOne_strict hr] at hall
  | r :: r' :: rest => exact resolved_collectLoop normalize _ hruns le_rfl

theorem length_resolve_le (t : ℤ) (runs : List (Run F)) : (resolve t runs).length ≤ 1 := by
  rw [resolve]
  split
  · exact Nat.zero_le 1
  · exact le_rfl
  · next ties _ _ => cases foldTies false t ties <;> simp

theorem strict_gather (hruns : ∀ r ∈ runs, Strict Sample.ts r.samples) :
    Strict tagTs (gather normalize runs) := by
  have h := resolved_gather normalize hruns
  refine strict_of_fiber_length_le h.ordered fun t => ?_
  rw [h.fibers]
  exact length_resolve_le t runs

theorem collect_congr (hruns : ∀ r ∈ runs, Strict Sample.ts r.samples)
    (hrs : ∀ r ∈ rs, Strict Sample.ts r.samples) (h : ∀ t, resolve t runs = resolve t rs) :
    collect runs = collect rs := by
  have hleft := resolved_gather false hruns
  have hright := resolved_gather false hrs
  rw [collect, collect]
  refine congrArg _ (eq_of_fiber_eq hleft.ordered hright.ordered fun t => ?_)
  rw [hleft.fibers, hright.fibers, h]

end OtelStorage.Metrics
