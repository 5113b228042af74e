import OtelStorage.Metrics.Freshest

/-!
# When a merge drops nothing

A merge emits one sample where several runs hold a timestamp, and a run that is alone loses the
earlier of two rows at one timestamp.  Nothing else is dropped: several runs of which no two share a
timestamp are interleaved as they are, repeated timestamps inside one run included.

`length_collect_eq_iff` says when a merge returns as many samples as its runs hold, and
`collect_perm` that it then returns those samples.  Runs here may be raw or rolled up.
-/

namespace OtelStorage.Metrics

open Fibers List

variable {F : Type*} {pre runs post : List (Run F)} {acc : Option Lead} {r : Run F} {s : Sample F}
  {rest out l : List (Sample F)} {ts : ℤ} {normalize : Bool}

/-! ## The rival of the leading run -/

/-- The rival's timestamp is the next one of a run other than the leader. -/
def RivalOf (runs : List (Run F)) : Option Lead → Prop
  | none => True
  | some l => ∀ t, l.rival = some t → ∃ j, j ≠ l.lead ∧ headAt runs j = some t

theorem RivalOf.snoc_empty (h : RivalOf pre acc) (r : Run F) : RivalOf (pre ++ [r]) acc := by
  cases acc with
  | none => trivial
  | some l =>
    intro t ht
    obtain ⟨j, hj, hhead⟩ := h t ht
    exact ⟨j, hj, headAt_snoc hhead⟩

theorem RivalOf.snoc (hlead : LeadOf pre acc) (h : RivalOf pre acc) (hr : r.samples = s :: rest) :
    RivalOf (pre ++ [r]) (leadStep acc pre.length s.ts) := by
  have hself : headAt (pre ++ [r]) pre.length = some s.ts := by
    rw [headAt_snoc_self, hr]
    rfl
  cases acc with
  | none => exact fun t ht => absurd ht nofun
  | some l =>
    -- a run of the old ones is not the new one
    have hlt : ∀ {j t}, headAt pre j = some t → j ≠ pre.length := by
      rintro j t hj rfl
      rw [headAt_eq_none_of_le le_rfl] at hj
      exact Option.some_ne_none _ hj.symm
    have hne := hlt hlead.lead
    obtain ⟨x, -, -, hx, hstep⟩ := leadStep_some l pre.length s.ts
    rw [hstep]
    split
    · next hts =>
      rintro t ⟨⟩
      rcases hx with hx | hx
      · rw [hx, max_eq_right hts.le]
        exact ⟨l.lead, hne, headAt_snoc hlead.lead⟩
      · obtain ⟨j, -, hhead⟩ := h x hx
        exact ⟨j, hlt hhead, headAt_snoc hhead⟩
    next hts =>
    rintro t ⟨⟩
    rcases hx with hx | hx
    · rw [hx, max_eq_left (not_lt.mp hts)]
      exact ⟨pre.length, hne.symm, hself⟩
    · obtain ⟨j, hj, hhead⟩ := h x hx
      exact ⟨j, hj, headAt_snoc hhead⟩

theorem rivalOf_leadRun (runs : List (Run F)) : RivalOf runs (leadRun runs) :=
  (leadFrom_induct (P := fun pre acc => LeadOf pre acc ∧ RivalOf pre acc)
    (fun _ _ r hr h => ⟨h.1.snoc_empty hr, h.2.snoc_empty r⟩)
    (fun _ _ _ _ _ hr h => ⟨h.1.snoc hr, .snoc h.1 h.2 hr⟩)
    (show LeadOf [] none ∧ RivalOf [] none from ⟨fun _ => rfl, trivial⟩) runs).2

theorem total_advance_tie {i j : ℕ} (hij : j ≠ i)
    (hi : headAt runs i = some ts) (hj : headAt runs j = some ts) :
    total (advanceTie false runs ts) + 2 ≤ total runs := by
  obtain ⟨r, hr, hhead⟩ := Option.bind_eq_some_iff.mp hi
  obtain ⟨pre, post, rfl, rfl⟩ := exists_append_of_getElem? hr
  have hself : total (advanceTie false [r] ts) < total [r] := total_advance_lt (i := 0) hhead
  have hone : ∀ x : Run F, total [x] = x.samples.length := fun x => by simp [total]
  rw [advanceTie_middle, total_append_cons, total_append_cons]
  rw [hone, advanceTie, map_singleton, hone] at hself
  have hpre : total (advanceTie false pre ts) ≤ total pre := total_advance_le pre ts
  have hpost : total (advanceTie false post ts) ≤ total post := total_advance_le post ts
  -- the other run is before this one or after it
  rcases Nat.lt_or_gt_of_ne hij with hlt | hgt
  · have hj' : headAt pre j = some ts := by
      rwa [headAt, List.getElem?_append_left hlt] at hj
    have : total (advanceTie false pre ts) < total pre := total_advance_lt hj'
    omega
  obtain ⟨k, rfl⟩ := Nat.exists_eq_add_of_lt hgt
  have hj' : headAt post k = some ts := by
    rwa [headAt, List.getElem?_append_right (by omega),
      show pre.length + k + 1 - pre.length = k + 1 by omega, List.getElem?_cons_succ] at hj
  have : total (advanceTie false post ts) < total post := total_advance_lt hj'
  omega

/-! ## Runs that share no timestamp -/

/-- No timestamp is held by both runs. -/
def Apart (r r' : Run F) : Prop := ∀ s ∈ r.samples, ∀ s' ∈ r'.samples, s.ts ≠ s'.ts

theorem Apart.symm {r' : Run F} (h : Apart r r') : Apart r' r :=
  fun s' hs' s hs heq => h s hs s' hs' heq.symm

/-- No timestamp is held by two runs. -/
def DisjointRuns (runs : List (Run F)) : Prop := runs.Pairwise Apart

/-- All samples of the runs. -/
def allSamples (runs : List (Run F)) : List (Sample F) := runs.flatMap Run.samples

theorem length_allSamples (runs : List (Run F)) : (allSamples runs).length = total runs := by
  rw [allSamples, length_flatMap]
  rfl

theorem disjointRuns_middle :
    DisjointRuns (pre ++ r :: post) ↔
      (∀ x ∈ pre ++ post, Apart r x) ∧ DisjointRuns (pre ++ post) := by
  rw [DisjointRuns, perm_middle.pairwise_iff fun h => Apart.symm h, pairwise_cons]
  rfl

theorem allSamples_middle (pre post : List (Run F)) (r : Run F) :
    (allSamples (pre ++ r :: post)).Perm (r.samples ++ allSamples (pre ++ post)) := by
  have hmiddle : (pre ++ r :: post).Perm (r :: (pre ++ post)) := perm_middle
  exact hmiddle.flatMap_right Run.samples

/-- What a merge of ordered runs returns: never more samples than the runs hold, as many only if no
two share a timestamp, and then all of them; and no timestamp of its own. -/
structure Keeps (runs : List (Run F)) (out : List (Sample F)) : Prop where
  length_le : out.length ≤ total runs
  disjoint : out.length = total runs → DisjointRuns runs
  perm : DisjointRuns runs → out.Perm (allSamples runs)
  times : ∀ s ∈ out, ∃ x ∈ allSamples runs, x.ts = s.ts

theorem Keeps.of_total_eq_zero (h : total runs = 0) : Keeps runs [] := by
  have hnil := total_eq_zero_iff.mp h
  have hall : allSamples runs = [] :=
    eq_nil_of_length_eq_zero ((length_allSamples runs).trans h)
  refine ⟨Nat.zero_le _, fun _ => ?_, fun _ => hall ▸ .refl _, nofun⟩
  refine pairwise_of_forall_mem_list fun r hr r' _ s hs => ?_
  rw [hnil r hr] at hs
  cases hs

theorem Keeps.tie {l : Lead} (hlead : IsLead runs l)
    (hrival : RivalOf runs (some l)) (htie : l.rival = some l.ts) {first : Option (Sample F)}
    (hfirst : ∀ s ∈ first, s.ts = l.ts) (h : Keeps (advanceTie false runs l.ts) out) :
    Keeps runs (first.toList ++ out) := by
  obtain ⟨j, hj, hhead⟩ := hrival l.ts htie
  have hlt := total_advance_tie hj hlead.lead hhead
  have hlen : (first.toList ++ out).length < total runs := by
    have hle := h.length_le
    have hone : first.toList.length ≤ 1 := by cases first <;> simp
    rw [length_append]
    omega
  obtain ⟨r, hr, hrts⟩ := Option.bind_eq_some_iff.mp hlead.lead
  obtain ⟨r', hr', hrts'⟩ := Option.bind_eq_some_iff.mp hhead
  obtain ⟨s, hs, hsts⟩ := Option.map_eq_some_iff.mp hrts
  obtain ⟨s', hs', hsts'⟩ := Option.map_eq_some_iff.mp hrts'
  obtain ⟨hi, rfl⟩ := List.getElem?_eq_some_iff.mp hr
  obtain ⟨hi', rfl⟩ := List.getElem?_eq_some_iff.mp hr'
  refine ⟨hlen.le, fun heq => absurd heq hlen.ne, fun hdis => ?_, fun u hu => ?_⟩
  · -- the leader and its rival share the timestamp
    have hapart : Apart runs[l.lead] runs[j] := by
      rcases Nat.lt_or_gt_of_ne hj with hlt | hgt
      · exact (pairwise_iff_getElem.mp hdis j l.lead hi' hi hlt).symm
      · exact pairwise_iff_getElem.mp hdis l.lead j hi hi' hgt
    exact absurd (hsts.trans hsts'.symm) (hapart s (mem_of_mem_head? hs) s' (mem_of_mem_head? hs'))
  rcases mem_append.mp hu with hu | hu
  · refine ⟨s, mem_flatMap.mpr ⟨_, getElem_mem hi, mem_of_mem_head? hs⟩, ?_⟩
    rw [hsts, hfirst u (Option.mem_toList.mp hu)]
  · obtain ⟨x, hx, hxu⟩ := h.times u hu
    obtain ⟨r₀, hr₀, hx⟩ := mem_flatMap.mp hx
    obtain ⟨r₁, hr₁, rfl⟩ := mem_map.mp hr₀
    exact ⟨x, mem_flatMap.mpr ⟨r₁, hr₁, (r₁.advance_sublist l.ts).1.mem hx⟩, hxu⟩

theorem Keeps.stretch {k : ℕ}
    (hbefore : ∀ x ∈ pre ++ post, ∀ s ∈ r.samples.take k, ∀ s' ∈ x.samples, s.ts < s'.ts)
    (h : Keeps (pre ++ { r with samples := r.samples.drop k } :: post) out) :
    Keeps (pre ++ r :: post) (r.samples.take k ++ out) := by
  have hsplit : (r.samples.take k).length + (r.samples.drop k).length = r.samples.length := by
    rw [← length_append, take_append_drop]
  have htotal := total_append_cons pre post r
  have htotal' := total_append_cons pre post { r with samples := r.samples.drop k }
  refine ⟨?_, fun heq => ?_, fun hdis => ?_, fun u hu => ?_⟩
  · have hle := h.length_le
    rw [length_append]
    dsimp only at htotal'
    omega
  · obtain ⟨hrest, hothers⟩ := disjointRuns_middle.mp (h.disjoint (by
      rw [length_append] at heq
      dsimp only at htotal'
      omega))
    refine disjointRuns_middle.mpr ⟨fun x hx s hs s' hs' => ?_, hothers⟩
    rw [← take_append_drop k r.samples] at hs
    rcases mem_append.mp hs with hs | hs
    · exact (hbefore x hx s hs s' hs').ne
    · exact hrest x hx s hs s' hs'
  · obtain ⟨hapart, hothers⟩ := disjointRuns_middle.mp hdis
    have hperm := h.perm (disjointRuns_middle.mpr
      ⟨fun x hx s hs => hapart x hx s (mem_of_mem_drop hs), hothers⟩)
    refine ((hperm.trans (allSamples_middle pre post _)).append_left _).trans ?_
    rw [← append_assoc, take_append_drop]
    exact (allSamples_middle pre post r).symm
  · have hmem := (allSamples_middle pre post r).symm.subset
    rcases mem_append.mp hu with hu | hu
    · exact ⟨u, hmem (mem_append_left _ (mem_of_mem_take hu)), rfl⟩
    obtain ⟨x, hx, hxu⟩ := h.times u hu
    refine ⟨x, hmem ?_, hxu⟩
    rcases mem_append.mp ((allSamples_middle pre post _).subset hx) with hx | hx
    · exact mem_append_left _ (mem_of_mem_drop hx)
    · exact mem_append_right _ hx

/-! ## The merge -/

theorem Run.ordered_advance (h : Ordered Sample.ts r.samples) (ts : ℤ) :
    Ordered Sample.ts (r.advance normalize ts).samples := h.sublist (r.advance_sublist ts).1

theorem collectOne_sublist : (collectOne l).Sublist l := by
  induction l with
  | nil => exact List.Sublist.slnil
  | cons s l ih =>
    cases l with
    | nil => exact .refl _
    | cons u l =>
      rw [collectOne]
      split
      · exact ih.cons s
      · exact ih.cons_cons s

theorem length_collectOne (h : Ordered Sample.ts l) :
    (collectOne l).length ≤ l.length ∧ ((collectOne l).length = l.length → Strict Sample.ts l) := by
  induction l with
  | nil => exact ⟨le_rfl, fun _ => .nil⟩
  | cons s l ih =>
    cases l with
    | nil => exact ⟨le_rfl, fun _ => pairwise_singleton _ _⟩
    | cons u l =>
      obtain ⟨hle, hstrict⟩ := ih h.of_cons
      rw [collectOne]
      split
      · refine ⟨hle.trans (Nat.le_succ _), fun heq => ?_⟩
        rw [heq, length_cons (a := s)] at hle
        omega
      next hne =>
      refine ⟨Nat.succ_le_succ hle, fun heq => ?_⟩
      have hrest := hstrict (Nat.succ.inj heq)
      have hsu : s.ts < u.ts := lt_of_le_of_ne (h.head_le (by simp)) (Ne.symm hne)
      refine pairwise_cons.mpr ⟨fun v hv => ?_, hrest⟩
      exact hsu.trans_le (hrest.ordered.head_le hv)

/-- What lets a merge keep every row: no two runs share a timestamp, and a run that is alone repeats
none. -/
structure KeepsRows (runs : List (Run F)) : Prop where
  disjoint : DisjointRuns runs
  alone : ∀ r, runs = [r] → Strict Sample.ts r.samples

variable [Float64 F]

omit [Float64 F] in
theorem ts_rawTieAt (hs : s.ts = ts) : (rawTieAt normalize ts s rest).ts = ts := by
  induction rest generalizing s with
  | nil => exact hs
  | cons u us ih =>
    rw [rawTieAt]
    split
    · next h => exact ih h.2
    · exact hs

theorem ts_foldTie {x : Sample F × RollupTag} (h : foldTie normalize runs ts = some x) :
    x.1.ts = ts := by
  rw [foldTie] at h
  cases hagg : tieAgg (tied runs ts) with
  | none =>
    simp only [hagg] at h
    obtain ⟨t, ht, rfl⟩ := Option.map_eq_some_iff.mp h
    obtain ⟨-, -, -, hts, -⟩ := mem_tied (mem_of_mem_head? ht)
    exact ts_rawTieAt hts
  | some agg =>
    simp only [hagg] at h
    rw [← Option.some.inj h]
    rfl

theorem keeps_collectLoop (n : ℕ)
    (hord : ∀ r ∈ runs, Ordered Sample.ts r.samples) (hn : total runs ≤ n) :
    Keeps runs ((collectLoop false n runs).map Prod.fst) := by
  refine collectLoop_induct (R := fun r => Ordered Sample.ts r.samples)
    (P := fun runs out => Keeps runs (out.map Prod.fst)) false (fun r h => h)
    (fun r k h => h.sublist (drop_sublist k _)) (fun r ts h => Run.ordered_advance h ts)
    (fun runs h => Keeps.of_total_eq_zero h) (fun runs l out hruns hlead htie hrest => ?_)
    (fun pre post r rival out hruns hothers hrest => ?_) n hord hn
  · have hrival := rivalOf_leadRun runs
    rw [htie.1] at hrival
    have hfirst : ((foldTie false runs l.ts).toList).map Prod.fst =
        ((foldTie false runs l.ts).map Prod.fst).toList := by
      cases foldTie false runs l.ts <;> rfl
    rw [map_append, hfirst]
    refine hrest.tie hlead hrival htie.2 fun s hs => ?_
    obtain ⟨x, hx, rfl⟩ := Option.map_eq_some_iff.mp hs
    exact ts_foldTie hx
  · rw [map_append, fst_emit]
    refine hrest.stretch fun x hx s hs s' hs' => ?_
    obtain ⟨y, hy, hle⟩ := hothers x hx s' hs'
    exact (lt_of_mem_stretch (hruns r (mem_append_right _ mem_cons_self)) rfl hy hs).trans_le hle

section

variable (hord : ∀ r ∈ runs, Ordered Sample.ts r.samples)

include hord

theorem exists_of_mem_collect (hs : s ∈ collect runs) : ∃ x ∈ allSamples runs, x.ts = s.ts := by
  match runs with
  | [] => cases hs
  | [r] =>
    rw [collect, gather, fst_emit] at hs
    rw [allSamples, flatMap_singleton]
    exact ⟨s, collectOne_sublist.mem hs, rfl⟩
  | r :: r' :: rest =>
    have hkeeps : Keeps (r :: r' :: rest) (collect (r :: r' :: rest)) :=
      keeps_collectLoop _ hord le_rfl
    exact hkeeps.times s hs

/-- **A merge returns as many samples as its runs hold exactly when it keeps every row.** -/
theorem length_collect_eq_iff : (collect runs).length = total runs ↔ KeepsRows runs := by
  rcases runs with _ | ⟨r, _ | ⟨r', rest⟩⟩
  · exact iff_of_true rfl ⟨.nil, fun r hr => by cases hr⟩
  · have hr := hord r mem_cons_self
    have htotal : total [r] = r.samples.length := by simp [total]
    rw [collect, gather, fst_emit, htotal]
    refine ⟨fun h => ⟨pairwise_singleton _ _, fun r' hr' => ?_⟩, fun h => ?_⟩
    · obtain rfl := (List.cons.inj hr').1
      exact (length_collectOne hr).2 h
    · rw [collectOne_strict (h.alone r rfl)]
  · have hkeeps : Keeps (r :: r' :: rest) (collect (r :: r' :: rest)) :=
      keeps_collectLoop _ hord le_rfl
    refine ⟨fun h => ⟨hkeeps.disjoint h, fun r hr => by cases hr⟩, fun h => ?_⟩
    rw [(hkeeps.perm h.disjoint).length_eq, length_allSamples]

/-- **A merge that keeps every row returns the rows.** -/
theorem collect_perm (h : KeepsRows runs) : (collect runs).Perm (allSamples runs) := by
  match runs with
  | [] => exact .refl _
  | [r] =>
    rw [collect, gather, fst_emit, collectOne_strict (h.alone r rfl), allSamples, flatMap_singleton]
  | r :: r' :: rest =>
    have hkeeps : Keeps (r :: r' :: rest) (collect (r :: r' :: rest)) :=
      keeps_collectLoop _ hord le_rfl
    exact hkeeps.perm h.disjoint

end

end OtelStorage.Metrics
