import OtelStorage.Metrics.Layout

/-!
# Which parts a merge may combine

Three decisions over layouts.

* Whether a part is due for another roll-up (`rollupPending`) or holds another layout than one it is
  compared with (`layoutsDiffer`) is asked of every timestamp of a span and answered at its cutoffs.
* `compactLayout` drops tiers that do not decide anything.  Of one width, `tierAt` takes the tier
  with the earliest cutoff, and of those the first (`FirstAt`); with two aggregations at a width
  every tier matters, with one only the latest cutoff does.
* `mergeCohorts` puts each part where its recorded tiers nest with those recorded there already,
  oldest part first.
-/

namespace OtelStorage.Metrics

open Fibers FirstOccurrence List

variable {layout : List DownsampleTier} {ts : ℤ} {t u : DownsampleTier}

/-! ## Spans -/

/-- The tiers assign some timestamp of a span a wider interval than is recorded. -/
def rollupPending (recorded tiers : List DownsampleTier) (lo hi : ℤ) : Bool :=
  anyBreakpoint recorded tiers lo hi fun rec cur => match rec, cur with
    | _, none => false
    | none, some _ => true
    | some r, some c => r.interval < c.interval

theorem rollupPending_iff {recorded tiers : List DownsampleTier} {lo hi : ℤ} (hspan : lo ≤ hi) :
    rollupPending recorded tiers lo hi = true ↔
      ∃ ts, lo ≤ ts ∧ ts ≤ hi ∧ width recorded ts < width tiers ts := by
  rw [rollupPending, anyBreakpoint_iff hspan]
  refine exists_congr fun ts => and_congr_right fun _ => and_congr_right fun _ => ?_
  have hnonneg := width_nonneg recorded ts
  rcases tierAt_spec tiers ts with ⟨hnone, -⟩ | ⟨c, hc, hwide⟩
  · have hzero : width tiers ts = 0 := by rw [width, runTag, hnone]; rfl
    rw [hnone, hzero]
    cases tierAt recorded ts <;> simpa using hnonneg
  have hw : width tiers ts = c.interval := by rw [width, runTag, hc]
  rw [hc, hw]
  cases hr : tierAt recorded ts with
  | none =>
    have hzero : width recorded ts = 0 := by rw [width, runTag, hr]; rfl
    simpa [hzero] using hwide.covers.1
  | some r =>
    have hwr : width recorded ts = r.interval := by rw [width, runTag, hr]
    simp [hwr]

/-! ## The tier that decides -/

/-- Two tiers of one width and one cutoff. -/
def DownsampleTier.sameCut (t u : DownsampleTier) : Bool :=
  u.interval = t.interval && u.before = t.before

theorem DownsampleTier.sameCut_iff :
    t.sameCut u = true ↔ u.interval = t.interval ∧ u.before = t.before := by
  rw [sameCut, Bool.and_eq_true, decide_eq_true_eq, decide_eq_true_eq]

/-- The tier a layout assigns a timestamp: of the widest ones with the earliest cutoff the first. -/
structure FirstAt (layout : List DownsampleTier) (ts : ℤ) (t : DownsampleTier) : Prop
    extends WidestAt layout ts t where
  earliest : ∀ u ∈ layout, u.Covers ts → u.interval = t.interval → t.before ≤ u.before
  first : (layout.filter t.sameCut).head? = some t

theorem FirstAt.snoc (h : FirstAt layout ts t)
    (hu : u.Covers ts → u.interval < t.interval ∨ u.interval = t.interval ∧ t.before ≤ u.before) :
    FirstAt (layout ++ [u]) ts t := by
  refine ⟨⟨mem_append_left _ h.mem, h.covers, fun v hv hc => ?_⟩, fun v hv hc hi => ?_, ?_⟩
  · rcases mem_append.mp hv with hv | hv
    · exact h.widest v hv hc
    · obtain rfl := mem_singleton.mp hv
      have := hu hc
      omega
  · rcases mem_append.mp hv with hv | hv
    · exact h.earliest v hv hc hi
    · obtain rfl := mem_singleton.mp hv
      have := hu hc
      omega
  · rw [filter_append, List.head?_append, h.first]
    rfl

theorem FirstAt.last (hu : u.Covers ts) (h : ∀ v ∈ layout, v.Covers ts →
      v.interval < u.interval ∨ v.interval = u.interval ∧ u.before < v.before) :
    FirstAt (layout ++ [u]) ts u := by
  have hnil : layout.filter u.sameCut = [] := filter_eq_nil_iff.mpr fun v hv hcut => by
    obtain ⟨hi, hb⟩ := DownsampleTier.sameCut_iff.mp hcut
    have := h v hv ⟨hi ▸ hu.1, hb ▸ hu.2⟩
    omega
  refine ⟨⟨mem_append_right _ mem_cons_self, hu, fun v hv hc => ?_⟩, fun v hv hc hi => ?_, ?_⟩
  · rcases mem_append.mp hv with hv | hv
    · have := h v hv hc
      omega
    · exact (mem_singleton.mp hv ▸ le_rfl)
  · rcases mem_append.mp hv with hv | hv
    · have := h v hv hc
      omega
    · exact (mem_singleton.mp hv ▸ le_rfl)
  · rw [filter_append, hnil, nil_append,
      filter_cons_of_pos (DownsampleTier.sameCut_iff.mpr ⟨rfl, rfl⟩)]
    rfl

theorem firstAt_of_tierAt (h : tierAt layout ts = some t) :
    FirstAt layout ts t := by
  induction layout using List.reverseRecOn generalizing t with
  | nil => exact absurd h (Option.some_ne_none t).symm
  | append_singleton layout u ih =>
    rw [tierAt, foldl_append, foldl_cons, foldl_nil, ← tierAt] at h
    split at h
    · next hskip =>
      refine (ih h).snoc fun hc => ?_
      have := hc.1
      have := hc.2
      omega
    next hcov =>
    have hu : u.Covers ts := ⟨by omega, by omega⟩
    rcases tierAt_spec layout ts with ⟨hnone, hall⟩ | ⟨b, hb, -⟩
    · rw [hnone] at h
      cases h
      exact FirstAt.last hu fun v hv hc => absurd hc (hall v hv)
    have hfirst := ih hb
    rw [hb] at h
    dsimp only at h
    split at h
    · next hbetter =>
      cases h
      refine FirstAt.last hu fun v hv hc => ?_
      have := hfirst.widest v hv hc
      have := hfirst.earliest v hv hc
      omega
    · next hworse =>
      cases h
      refine hfirst.snoc fun _ => ?_
      omega

/-! ## Compact layouts -/

theorem DownsampleTier.kept_iff :
    t.kept layout = true ↔ 0 < t.interval ∧
      ((∀ o ∈ layout, o.interval = t.interval → o.agg = t.agg → o.before ≤ t.before) ∨
        ∃ o ∈ layout, o.interval = t.interval ∧ o.agg ≠ t.agg) := by
  simp only [kept, Bool.and_eq_true, Bool.or_eq_true, Bool.not_eq_true', any_eq_false,
    any_eq_true, decide_eq_true_eq, not_and, not_lt, and_imp, ne_eq]

theorem DownsampleTier.kept_of_mixed {o : DownsampleTier}
    (ht : t ∈ layout) (hu : u ∈ layout) (hpos : 0 < o.interval) (hti : t.interval = o.interval)
    (hui : u.interval = o.interval) (hne : t.agg ≠ u.agg) : o.kept layout = true := by
  refine kept_iff.mpr ⟨hpos, .inr ?_⟩
  by_cases hto : t.agg = o.agg
  · exact ⟨u, hu, hui, fun huo => hne (hto.trans huo.symm)⟩
  · exact ⟨t, ht, hti, hto⟩

theorem pairwise_compactLayout (layout : List DownsampleTier) :
    (compactLayout layout).Pairwise DownsampleTier.widestFirst := pairwise_insertionSort _ _

theorem filter_sameCut_insertionSort (l : List DownsampleTier) (t : DownsampleTier) :
    (l.insertionSort DownsampleTier.widestFirst).filter t.sameCut = l.filter t.sameCut := by
  have hsorted : (l.filter t.sameCut).Pairwise DownsampleTier.widestFirst := by
    refine pairwise_of_forall_mem_list fun a ha b hb => ?_
    obtain ⟨hai, hab⟩ := DownsampleTier.sameCut_iff.mp (mem_filter.mp ha).2
    obtain ⟨hbi, hbb⟩ := DownsampleTier.sameCut_iff.mp (mem_filter.mp hb).2
    exact .inr ⟨hbi.trans hai.symm, (hab.trans hbb.symm).le⟩
  have hsub := (sublist_insertionSort hsorted filter_sublist).filter t.sameCut
  simp only [filter_filter, Bool.and_self] at hsub
  exact (hsub.eq_of_length ((perm_insertionSort _ l).filter _).length_eq.symm).symm

/-- **A compact layout assigns what the layout assigns.** -/
theorem assigned_compactLayout (layout : List DownsampleTier) (ts : ℤ) :
    assigned (compactLayout layout) ts = assigned layout ts := by
  rw [assigned, assigned]
  rcases tierAt_spec layout ts with ⟨hnone, hall⟩ | ⟨t, ht, -⟩
  · rcases tierAt_spec (compactLayout layout) ts with ⟨hnone', -⟩ | ⟨u, -, hu⟩
    · rw [hnone, hnone']
    · exact absurd hu.covers (hall u (mem_compactLayout.mp hu.mem).1)
  have hft := firstAt_of_tierAt ht
  have hwidth : t.interval ≤ width (compactLayout layout) ts :=
    (le_width hft.mem hft.covers).trans (width_le_compactLayout layout ts)
  obtain ⟨u, hu⟩ : ∃ u, tierAt (compactLayout layout) ts = some u := by
    rcases tierAt_spec (compactLayout layout) ts with ⟨hnone, -⟩ | ⟨u, hu, -⟩
    · rw [width, runTag, hnone] at hwidth
      exact absurd hwidth (not_le.mpr hft.covers.1)
    · exact ⟨u, hu⟩
  have hfu := firstAt_of_tierAt hu
  have hul := (mem_compactLayout.mp hfu.mem).1
  have hi : u.interval = t.interval := by
    rw [width, runTag, hu] at hwidth
    exact le_antisymm (hft.widest u hul hfu.covers) hwidth
  rw [ht, hu, Option.map_some, Option.map_some, hi]
  by_cases hagg : t.agg = u.agg
  · rw [hagg]
  -- with two aggregations at this width every tier of the width is kept, in its order
  have hkept : ∀ o ∈ layout, o.interval = t.interval → o.kept layout = true := fun o _ ho =>
    DownsampleTier.kept_of_mixed hft.mem hul (ho ▸ hft.covers.1) ho.symm (hi.trans ho.symm) hagg
  have htc : t ∈ compactLayout layout := mem_compactLayout.mpr ⟨hft.mem, hkept t hft.mem rfl⟩
  have hbefore : u.before = t.before := le_antisymm
    (hfu.earliest t htc hft.covers hi.symm) (hft.earliest u hul hfu.covers hi)
  have hcut : u.sameCut = t.sameCut := by
    funext o
    rw [DownsampleTier.sameCut, DownsampleTier.sameCut, hi, hbefore]
  have hfilter : (layout.filter (DownsampleTier.kept layout)).filter t.sameCut =
      layout.filter t.sameCut := by
    rw [filter_filter]
    refine filter_congr fun o ho => ?_
    by_cases hsame : t.sameCut o = true
    · rw [hsame, Bool.true_and]
      exact hkept o ho (DownsampleTier.sameCut_iff.mp hsame).1
    · rw [Bool.not_eq_true] at hsame
      rw [hsame, Bool.false_and]
  have hhead := hfu.first
  rw [hcut, compactLayout, filter_sameCut_insertionSort] at hhead
  have hnew := head?_filter_appendNew (DownsampleTier.kept layout) t.sameCut layout
  rw [hfilter, hft.first] at hnew
  rw [Option.some.inj (hhead.symm.trans hnew)]

theorem kept_compactLayout (ht : t ∈ compactLayout layout) :
    t.kept (compactLayout layout) = true := by
  obtain ⟨htl, hkept⟩ := mem_compactLayout.mp ht
  obtain ⟨hpos, hlatest | ⟨o, ho, hoi, hagg⟩⟩ := DownsampleTier.kept_iff.mp hkept
  · exact DownsampleTier.kept_iff.mpr ⟨hpos, .inl fun o ho =>
      hlatest o (mem_compactLayout.mp ho).1⟩
  · have hoc : o.kept layout = true :=
      DownsampleTier.kept_of_mixed htl ho (hoi ▸ hpos) hoi.symm rfl hagg.symm
    exact DownsampleTier.kept_iff.mpr ⟨hpos, .inr ⟨o, mem_compactLayout.mpr ⟨ho, hoc⟩, hoi, hagg⟩⟩

/-- **Compacting twice is compacting once.** -/
theorem compactLayout_compactLayout (layout : List DownsampleTier) :
    compactLayout (compactLayout layout) = compactLayout layout := by
  have hnodup : (compactLayout layout).Nodup :=
    (perm_insertionSort _ _).nodup_iff.mpr (nodup_appendNew nodup_nil layout)
  have hself : appendNew (DownsampleTier.kept (compactLayout layout)) [] (compactLayout layout) =
      compactLayout layout := appendNew_eq_self hnodup fun t ht => kept_compactLayout ht
  calc compactLayout (compactLayout layout)
      = (appendNew (DownsampleTier.kept (compactLayout layout)) []
          (compactLayout layout)).insertionSort DownsampleTier.widestFirst := rfl
    _ = (compactLayout layout).insertionSort DownsampleTier.widestFirst := by rw [hself]
    _ = compactLayout layout := (pairwise_compactLayout layout).insertionSort_eq

/-! ## Cohorts -/

/-- Two tiers can share a layout: one aggregation, and one width divides the other. -/
def tiersNest (a b : DownsampleTier) : Bool :=
  a.agg = b.agg && (a.interval % b.interval = 0 || b.interval % a.interval = 0)

/-- A tier nests with every active one of a layout. -/
def fitsLayout (layout : List DownsampleTier) (t : DownsampleTier) : Bool :=
  !layout.any fun o => 0 < o.interval && !tiersNest o t

/-- Every active tier of `b` nests with those of `a` and of `b`. -/
def layoutsNest (a b : List DownsampleTier) : Bool :=
  b.all fun t => !(0 < t.interval && (!fitsLayout a t || !fitsLayout b t))

/-- Some tier has a width. -/
def activeTiers (tiers : List DownsampleTier) : Bool := tiers.any fun t => 0 < t.interval

/-- What of a part decides its cohort: its name, its first timestamp and the tiers it records. -/
structure MarkedPart (K : Type*) where
  name : K
  minTime : ℤ
  rollup : List DownsampleTier
  deriving DecidableEq

/-- Parts a merge may combine, every readable part recorded with them, and the tiers of those. -/
structure MergeCohort (K : Type*) where
  layout : List DownsampleTier
  parts : List (MarkedPart K)
  history : List (MarkedPart K)
  deriving DecidableEq

variable {K : Type*} (c : MergeCohort K) {st : List (MergeCohort K) × List (MarkedPart K × ℕ)}
  {done : List (MarkedPart K)} {p : MarkedPart K}

/-- Oldest first, on one first timestamp by name. -/
def MarkedPart.oldestFirst [LinearOrder K] (a b : MarkedPart K) : Prop :=
  a.minTime < b.minTime ∨ (a.minTime = b.minTime ∧ a.name ≤ b.name)

instance [LinearOrder K] : DecidableRel (MarkedPart.oldestFirst (K := K)) := fun _ _ =>
  inferInstanceAs (Decidable (_ ∨ _))

/-- The cohort a part's tiers are recorded in. -/
def MergeCohort.record (p : MarkedPart K) : MergeCohort K where
  layout := appendNew (fun t => 0 < t.interval) c.layout p.rollup
  parts := c.parts
  history := c.history ++ [p]

/-- Assign a marked part to the first cohort it nests with, or to a new one.  The second component
is where each part went. -/
def assign (st : List (MergeCohort K) × List (MarkedPart K × ℕ)) (p : MarkedPart K) :
    List (MergeCohort K) × List (MarkedPart K × ℕ) :=
  let i := st.1.findIdx fun c => layoutsNest c.layout p.rollup
  let cohorts := if i < st.1.length then st.1 else st.1 ++ [⟨[], [], []⟩]
  (cohorts.modify i fun c => c.record p, (p, i) :: st.2)

/-- Where a part went; one that no cohort records goes to the first. -/
def cohortOf [DecidableEq K] (places : List (MarkedPart K × ℕ)) (p : MarkedPart K) : ℕ :=
  (places.lookup p).getD 0

/-- A part joins a cohort. -/
def MergeCohort.add (p : MarkedPart K) : MergeCohort K :=
  { c with parts := c.parts ++ [p] }

/-- The marked parts, in the order they are assigned. -/
def markedParts [LinearOrder K] (readable : List (MarkedPart K)) : List (MarkedPart K) :=
  (readable.filter fun p => activeTiers p.rollup).insertionSort MarkedPart.oldestFirst

/-- The parts that may be merged, in sets whose recorded tiers nest. -/
def mergeCohorts [LinearOrder K] (own readable : List (MarkedPart K)) : List (MergeCohort K) :=
  let (cohorts, places) := (markedParts readable).foldl assign ([], [])
  let cohorts := if cohorts.isEmpty then [⟨[], [], []⟩] else cohorts
  (own.foldl (fun cs p => cs.modify (cohortOf places p) fun c => c.add p) cohorts).filter
    fun c => !c.parts.isEmpty

/-- The active tiers of a layout nest with each other. -/
def SelfNesting (layout : List DownsampleTier) : Prop :=
  ∀ t ∈ layout, ∀ u ∈ layout, 0 < t.interval → 0 < u.interval → tiersNest t u = true

instance (layout : List DownsampleTier) : Decidable (SelfNesting layout) :=
  inferInstanceAs (Decidable (∀ t ∈ layout, ∀ u ∈ layout, _))

theorem tiersNest_comm (a b : DownsampleTier) : tiersNest a b = tiersNest b a := by
  rw [tiersNest, tiersNest, Bool.or_comm]
  congr 1
  exact decide_eq_decide.mpr eq_comm

theorem fitsLayout_iff :
    fitsLayout layout t = true ↔ ∀ o ∈ layout, 0 < o.interval → tiersNest o t = true := by
  simp only [fitsLayout, Bool.not_eq_true', any_eq_false, Bool.and_eq_true, decide_eq_true_eq,
    not_and, Bool.not_eq_false]

theorem layoutsNest_iff {a b : List DownsampleTier} :
    layoutsNest a b = true ↔
      ∀ t ∈ b, 0 < t.interval → fitsLayout a t = true ∧ fitsLayout b t = true := by
  simp only [layoutsNest, all_eq_true, Bool.not_eq_true', Bool.and_eq_false_iff,
    decide_eq_false_iff_not, Bool.or_eq_false_iff, Bool.not_eq_false', or_iff_not_imp_left, not_not]

namespace MergeCohort

/-- A cohort whose recorded tiers nest: its layout holds them, and nests with itself. -/
structure Sound (c : MergeCohort K) : Prop where
  recorded : ∀ p ∈ c.parts ++ c.history, ∀ t ∈ p.rollup, 0 < t.interval → t ∈ c.layout
  active : ∀ t ∈ c.layout, 0 < t.interval
  nest : SelfNesting c.layout

theorem Sound.empty : Sound (⟨[], [], []⟩ : MergeCohort K) :=
  ⟨nofun, nofun, nofun⟩

variable {p : MarkedPart K}

theorem Sound.record {c : MergeCohort K} (h : c.Sound) (hp : SelfNesting p.rollup)
    (hfits : ∀ t ∈ p.rollup, 0 < t.interval → fitsLayout c.layout t = true) :
    (c.record p).Sound := by
  have hmem : ∀ {t}, t ∈ (c.record p).layout ↔ t ∈ c.layout ∨ t ∈ p.rollup ∧ 0 < t.interval := by
    intro t
    rw [MergeCohort.record, mem_appendNew, decide_eq_true_eq]
  refine ⟨fun q hq t ht hpos => hmem.mpr ?_, fun t ht => ?_, fun t ht u hu htp hup => ?_⟩
  · rw [MergeCohort.record, ← append_assoc, mem_append, mem_singleton] at hq
    rcases hq with hq | rfl
    · exact .inl (h.recorded q hq t ht hpos)
    · exact .inr ⟨ht, hpos⟩
  · exact (hmem.mp ht).elim (h.active t) And.right
  rcases hmem.mp ht with ht | ⟨ht, -⟩
  · rcases hmem.mp hu with hu | ⟨hu, -⟩
    · exact h.nest t ht u hu htp hup
    · exact fitsLayout_iff.mp (hfits u hu hup) t ht htp
  · rcases hmem.mp hu with hu | ⟨hu, -⟩
    · rw [tiersNest_comm]
      exact fitsLayout_iff.mp (hfits t ht htp) u hu hup
    · exact hp t ht u hu htp hup

end MergeCohort

/-- What assigning the marked parts establishes. -/
structure Assigned (done : List (MarkedPart K))
    (st : List (MergeCohort K) × List (MarkedPart K × ℕ)) : Prop where
  sound : ∀ c ∈ st.1, c.Sound
  vacant : ∀ c ∈ st.1, c.parts = []
  placed : ∀ q j, (q, j) ∈ st.2 → ∃ c, st.1[j]? = some c ∧ q ∈ c.history
  all : ∀ q ∈ done, ∃ j, (q, j) ∈ st.2

theorem Assigned.assign (h : Assigned done st) (hp : SelfNesting p.rollup) :
    Assigned (done ++ [p]) (Metrics.assign st p) := by
  obtain ⟨i, hi⟩ : ∃ i, i = st.1.findIdx fun c => layoutsNest c.layout p.rollup := ⟨_, rfl⟩
  obtain ⟨cohorts, hcohorts⟩ : ∃ cohorts, cohorts =
    if i < st.1.length then st.1 else st.1 ++ [⟨[], [], []⟩] := ⟨_, rfl⟩
  have hassign : Metrics.assign st p = (cohorts.modify i fun c => c.record p, (p, i) :: st.2) := by
    rw [hcohorts, hi]
    rfl
  have hextend : ∀ {j c}, st.1[j]? = some c → cohorts[j]? = some c := fun hj => by
    rw [hcohorts]
    split
    · exact hj
    · rw [List.getElem?_append_left (List.getElem?_eq_some_iff.mp hj).1, hj]
  have hmem : ∀ c ∈ cohorts, c ∈ st.1 ∨ c = ⟨[], [], []⟩ := fun c hc => by
    rw [hcohorts] at hc
    split at hc
    · exact .inl hc
    · exact (mem_append.mp hc).imp_right mem_singleton.mp
  -- the cohort the part goes to
  obtain ⟨c, hc, hfits⟩ : ∃ c, cohorts[i]? = some c ∧
      ∀ t ∈ p.rollup, 0 < t.interval → fitsLayout c.layout t = true := by
    by_cases hlt : i < st.1.length
    · refine ⟨st.1[i], hextend (List.getElem?_eq_getElem hlt), fun t ht hpos => ?_⟩
      have hnest : layoutsNest (st.1[i]).layout p.rollup = true := by
        subst hi
        exact findIdx_getElem (w := hlt)
      exact (layoutsNest_iff.mp hnest t ht hpos).1
    · have hlen : i = st.1.length := Nat.le_antisymm (hi ▸ findIdx_le_length) (not_lt.mp hlt)
      refine ⟨⟨[], [], []⟩, ?_, fun t _ _ => rfl⟩
      rw [hcohorts, if_neg hlt, hlen, List.getElem?_append_right (Nat.le_refl _), Nat.sub_self]
      rfl
  have hstep : ∀ d ∈ cohorts.modify i fun c => c.record p,
      d ∈ cohorts ∨ d = c.record p := fun d hd => by
    obtain ⟨j, hj⟩ := mem_iff_getElem?.mp hd
    rw [List.getElem?_modify] at hj
    obtain ⟨e, he, rfl⟩ := Option.map_eq_some_iff.mp hj
    by_cases hij : i = j
    · subst hij
      obtain rfl := Option.some.inj (hc.symm.trans he)
      exact .inr (if_pos rfl)
    · exact .inl (if_neg hij ▸ mem_of_getElem? he)
  have hsound : ∀ d ∈ cohorts, d.Sound := fun d hd => (hmem d hd).elim (h.sound d) fun he =>
    he ▸ MergeCohort.Sound.empty
  have hvacant : ∀ d ∈ cohorts, d.parts = [] := fun d hd => (hmem d hd).elim (h.vacant d) fun he =>
    he ▸ rfl
  have hcmem := mem_of_getElem? hc
  rw [hassign]
  refine ⟨fun d hd => ?_, fun d hd => ?_, fun q j hqj => ?_, fun q hq => ?_⟩
  · rcases hstep d hd with hd | rfl
    · exact hsound d hd
    · exact (hsound c hcmem).record hp hfits
  · rcases hstep d hd with hd | rfl
    · exact hvacant d hd
    · exact hvacant c hcmem
  · rw [List.getElem?_modify]
    rcases mem_cons.mp hqj with heq | hqj
    · obtain ⟨rfl, rfl⟩ := Prod.mk.inj heq
      rw [hc]
      exact ⟨c.record q, congrArg some (if_pos rfl), mem_append_right _ mem_cons_self⟩
    obtain ⟨d, hd, hq⟩ := h.placed q j hqj
    rw [hextend hd]
    refine ⟨_, rfl, ?_⟩
    split
    · exact mem_append_left _ hq
    · exact hq
  · rcases mem_append.mp hq with hq | hq
    · obtain ⟨j, hj⟩ := h.all q hq
      exact ⟨j, mem_cons_of_mem _ hj⟩
    · exact ⟨i, mem_singleton.mp hq ▸ mem_cons_self⟩

theorem assigned_foldl {l : List (MarkedPart K)} (hl : ∀ p ∈ l, SelfNesting p.rollup) :
    Assigned l (l.foldl assign ([], [])) := by
  induction l using List.reverseRecOn with
  | nil =>
    exact ⟨nofun, nofun, fun _ _ hq => absurd hq not_mem_nil, nofun⟩
  | append_singleton l p ih =>
    rw [foldl_append]
    exact (ih fun q hq => hl q (mem_append_left _ hq)).assign
      (hl p (mem_append_right _ mem_cons_self))

theorem foldl_add (place : MarkedPart K → ℕ) (own : List (MarkedPart K))
    (cs : List (MergeCohort K)) :
    own.foldl (fun cs p => cs.modify (place p) fun c => c.add p) cs =
      cs.mapIdx fun i c => { c with parts := c.parts ++ own.filter fun p => place p = i } := by
  induction own generalizing cs with
  | nil =>
    refine ext_getElem? fun j => ?_
    rw [foldl_nil, List.getElem?_mapIdx]
    cases cs[j]? <;> simp
  | cons p own ih =>
    rw [foldl_cons, ih]
    refine ext_getElem? fun j => ?_
    rw [List.getElem?_mapIdx, List.getElem?_mapIdx, List.getElem?_modify]
    cases cs[j]? with
    | none => rfl
    | some c => by_cases hj : place p = j <;> simp [hj, MergeCohort.add]

theorem MergeCohort.Sound.nest_of_mem {c : MergeCohort K} (h : c.Sound) {q : MarkedPart K}
    (hp : p ∈ c.parts ++ c.history) (hq : q ∈ c.parts ++ c.history)
    (ht : t ∈ p.rollup) (hu : u ∈ q.rollup) (htp : 0 < t.interval) (hup : 0 < u.interval) :
    tiersNest t u = true :=
  h.nest t (h.recorded p hp t ht htp) u (h.recorded q hq u hu hup) htp hup

theorem flatMap_filter_parts (cs : List (MergeCohort K)) :
    (cs.filter fun c => !c.parts.isEmpty).flatMap MergeCohort.parts =
    cs.flatMap MergeCohort.parts := by
  rw [flatMap_def, flatMap_def, ← flatten_filter_not_isEmpty (L := cs.map MergeCohort.parts),
    filter_map]
  rfl

theorem Assigned.orEmpty (h : Assigned done st) :
    Assigned done (if st.1.isEmpty then [⟨[], [], []⟩] else st.1, st.2) := by
  split
  · next hempty =>
    have hnil := isEmpty_iff.mp hempty
    have hnone : ∀ q j, (q, j) ∉ st.2 := fun q j hqj => by
      obtain ⟨c, hc, -⟩ := h.placed q j hqj
      rw [hnil] at hc
      exact Option.some_ne_none c hc.symm
    refine ⟨fun c hc => mem_singleton.mp hc ▸ MergeCohort.Sound.empty,
      fun c hc => mem_singleton.mp hc ▸ rfl, fun q j hqj => absurd hqj (hnone q j), h.all⟩
  · exact h

/-! ## The cohorts of a merge -/

/-- Two cohorts with the same parts, in any order. -/
structure SameCohort (c d : MergeCohort K) : Prop where
  layout : c.layout = d.layout
  parts : c.parts.Perm d.parts
  history : c.history = d.history

/-- What the cohorts are: each own part in one of them, and one nesting set of tiers in each. -/
structure Cohorts (own : List (MarkedPart K)) (cohorts : List (MergeCohort K)) : Prop where
  partition : (cohorts.flatMap MergeCohort.parts).Perm own
  nest : ∀ c ∈ cohorts, ∀ p ∈ c.parts ++ c.history, ∀ q ∈ c.parts ++ c.history,
    ∀ t ∈ p.rollup, ∀ u ∈ q.rollup, 0 < t.interval → 0 < u.interval → tiersNest t u = true

theorem forall₂_mapIdx {α β : Type*} {R : β → β → Prop} {f g : ℕ → α → β}
    (h : ∀ i a, R (f i a) (g i a)) (l : List α) : List.Forall₂ R (l.mapIdx f) (l.mapIdx g) :=
  List.forall₂_iff_get.mpr ⟨by simp, by simp [h]⟩

variable [LinearOrder K] {readable readable' own : List (MarkedPart K)}

/-- Before the empty cohorts go: the cohorts marked parts were assigned to, with the own parts that
belong there. -/
def filledCohorts (own readable : List (MarkedPart K)) : List (MergeCohort K) :=
  let (cohorts, places) := (markedParts readable).foldl assign ([], [])
  let cohorts := if cohorts.isEmpty then [⟨[], [], []⟩] else cohorts
  cohorts.mapIdx fun i c => { c with parts := c.parts ++ own.filter fun p => cohortOf places p = i }

theorem mergeCohorts_eq (own readable : List (MarkedPart K)) :
    mergeCohorts own readable = (filledCohorts own readable).filter fun c => !c.parts.isEmpty := by
  rw [mergeCohorts, filledCohorts]
  exact congrArg _ (foldl_add _ own _)

instance : Std.Total (MarkedPart.oldestFirst (K := K)) := ⟨fun a b => by
  rcases lt_trichotomy a.minTime b.minTime with hlt | heq | hgt
  · exact .inl (.inl hlt)
  · exact (le_total a.name b.name).imp (fun h => .inr ⟨heq, h⟩) fun h => .inr ⟨heq.symm, h⟩
  · exact .inr (.inl hgt)⟩

instance : IsTrans (MarkedPart K) MarkedPart.oldestFirst := ⟨fun a b c hab hbc => by
  rw [MarkedPart.oldestFirst] at *
  rcases hab with hab | ⟨hab, hn⟩
  · exact .inl (by omega)
  · rcases hbc with hbc | ⟨hbc, hn'⟩
    · exact .inl (by omega)
    · exact .inr ⟨hab.trans hbc, hn.trans hn'⟩⟩

theorem markedParts_perm
    (hnames : (readable.map MarkedPart.name).Nodup) (hperm : readable'.Perm readable) :
    markedParts readable' = markedParts readable := by
  have hmem : ∀ a ∈ markedParts readable, a ∈ readable := fun a ha =>
    (mem_filter.mp ((mem_insertionSort _).mp ha)).1
  have hsorted := (((perm_insertionSort MarkedPart.oldestFirst _).trans
    (hperm.filter fun p => activeTiers p.rollup)).trans
    (perm_insertionSort MarkedPart.oldestFirst _).symm)
  refine hsorted.eq_of_pairwise (fun a b ha hb hab hba => ?_) (pairwise_insertionSort _ _)
    (pairwise_insertionSort _ _)
  have hname : a.name = b.name := by
    rcases hab with hab | ⟨htime, hab⟩
    · rcases hba with hba | ⟨hba, -⟩ <;> omega
    · rcases hba with hba | ⟨-, hba⟩
      · omega
      · exact le_antisymm hab hba
  exact inj_on_of_nodup_map hnames (hmem a (hsorted.mem_iff.mp ha)) (hmem b hb) hname

/-- **The input order does not matter.** -/
theorem sameCohort_of_perm {own' : List (MarkedPart K)}
    (hnames : (readable.map MarkedPart.name).Nodup) (hown : own'.Perm own)
    (hreadable : readable'.Perm readable) :
    List.Forall₂ SameCohort (mergeCohorts own' readable') (mergeCohorts own readable) := by
  rw [mergeCohorts_eq, mergeCohorts_eq]
  refine rel_filter (fun c d hcd => ?_) ?_
  · have hlen := hcd.parts.length_eq
    show (!c.parts.isEmpty) = true ↔ (!d.parts.isEmpty) = true
    rw [Bool.not_eq_true', Bool.not_eq_true', ← Bool.not_eq_true, ← Bool.not_eq_true,
      isEmpty_iff_length_eq_zero, isEmpty_iff_length_eq_zero, hlen]
  · rw [filledCohorts, filledCohorts, markedParts_perm hnames hreadable]
    exact forall₂_mapIdx (fun i c => ⟨rfl, (hown.filter _).append_left _, rfl⟩) _

theorem Assigned.cohortOf_spec (h : Assigned done st) (hne : st.1 ≠ []) (p : MarkedPart K) :
    cohortOf st.2 p < st.1.length ∧
      (p ∈ done → ∃ c, st.1[cohortOf st.2 p]? = some c ∧ p ∈ c.history) := by
  rw [cohortOf]
  cases hlookup : st.2.lookup p with
  | none =>
    refine ⟨length_pos_iff.mpr hne, fun hp => ?_⟩
    obtain ⟨j, hj⟩ := h.all p hp
    exact absurd hlookup (by
      rw [lookup_eq_none_iff]
      exact fun hall => by simpa using hall (p, j) hj)
  | some j =>
    have hmem : (p, j) ∈ st.2 := by
      obtain ⟨l₁, l₂, heq, -⟩ := lookup_eq_some_iff.mp hlookup
      exact heq ▸ mem_append_right _ mem_cons_self
    obtain ⟨c, hc, hp⟩ := h.placed p j hmem
    exact ⟨(List.getElem?_eq_some_iff.mp hc).1, fun _ => ⟨c, hc, hp⟩⟩

/-- **The cohorts of a merge.** -/
theorem cohorts_mergeCohorts (hsub : own ⊆ readable)
    (hnest : ∀ p ∈ readable, SelfNesting p.rollup) : Cohorts own (mergeCohorts own readable) := by
  have hmarked : ∀ p, p ∈ markedParts readable ↔ p ∈ readable ∧ activeTiers p.rollup = true :=
    fun p => by rw [markedParts, mem_insertionSort, mem_filter]
  obtain ⟨st, hst⟩ : ∃ st, st = (markedParts readable).foldl assign ([], []) := ⟨_, rfl⟩
  have hassigned : Assigned (markedParts readable) st :=
    hst ▸ assigned_foldl fun p hp => hnest p ((hmarked p).mp hp).1
  have hor := hassigned.orEmpty
  obtain ⟨cs, hcs⟩ : ∃ cs, cs = if st.1.isEmpty then [⟨[], [], []⟩] else st.1 := ⟨_, rfl⟩
  rw [← hcs] at hor
  have hne : cs ≠ [] := by
    rw [hcs]
    split
    · exact cons_ne_nil _ _
    · next h => exact fun hnil => h (isEmpty_iff.mpr hnil)
  have hfilled : filledCohorts own readable = cs.mapIdx fun i c =>
      { c with parts := c.parts ++ own.filter fun p => cohortOf st.2 p = i } := by
    rw [filledCohorts, ← hst, hcs]
  have hsound : ∀ c ∈ filledCohorts own readable, c.Sound := fun d hd => by
    rw [hfilled] at hd
    obtain ⟨i, hi, rfl⟩ := mem_mapIdx.mp hd
    have hc := hor.sound cs[i] (getElem_mem hi)
    refine ⟨fun p hp t ht hpos => ?_, hc.active, hc.nest⟩
    rw [append_assoc, mem_append, mem_append] at hp
    rcases hp with hp | hp | hp
    · exact hc.recorded p (mem_append_left _ hp) t ht hpos
    · -- an own part with an active tier is marked, so its cohort records it
      obtain ⟨hown, hplace⟩ := mem_filter.mp hp
      have hdone : p ∈ markedParts readable :=
        (hmarked p).mpr ⟨hsub hown, any_eq_true.mpr ⟨t, ht, decide_eq_true hpos⟩⟩
      obtain ⟨c, hci, hhist⟩ := (hor.cohortOf_spec hne p).2 hdone
      rw [of_decide_eq_true hplace, List.getElem?_eq_getElem hi] at hci
      cases hci
      exact hc.recorded p (mem_append_right _ hhist) t ht hpos
    · exact hc.recorded p (mem_append_right _ hp) t ht hpos
  constructor
  · have hparts : (filledCohorts own readable).map MergeCohort.parts =
        (List.range cs.length).map fun i => fiber (cohortOf st.2) i own := by
      rw [hfilled]
      refine ext_getElem? fun j => ?_
      rw [List.getElem?_map, List.getElem?_mapIdx, List.getElem?_map]
      rcases Nat.lt_or_ge j cs.length with hj | hj
      · rw [List.getElem?_eq_getElem hj, List.getElem?_range hj, Option.map_some, Option.map_some,
          Option.map_some, hor.vacant cs[j] (getElem_mem hj)]
        rfl
      · rw [List.getElem?_eq_none hj, List.getElem?_eq_none (by rwa [length_range])]
        rfl
    rw [mergeCohorts_eq, flatMap_filter_parts, flatMap_def, hparts, ← flatMap_def]
    exact fibers_perm (cohortOf st.2) nodup_range fun p _ =>
      mem_range.mpr (hor.cohortOf_spec hne p).1
  · intro c hc p hp q hq t ht u hu htp hup
    rw [mergeCohorts_eq] at hc
    exact (hsound c (mem_filter.mp hc).1).nest_of_mem hp hq ht hu htp hup

/-- **The decisions over layouts are exact.**  Spans are answered for every timestamp in them, a
compact layout assigns what the layout does, and cohorts partition the own parts into nesting sets
whatever order the parts come in. -/
theorem layout_decisions_exact :
    (∀ (recorded tiers : List DownsampleTier) (lo hi : ℤ), lo ≤ hi →
      (rollupPending recorded tiers lo hi = true ↔
        ∃ ts, lo ≤ ts ∧ ts ≤ hi ∧ width recorded ts < width tiers ts)) ∧
    (∀ (a b : List DownsampleTier) (lo hi : ℤ), lo ≤ hi →
      (layoutsDiffer a b lo hi = true ↔ ∃ ts, lo ≤ ts ∧ ts ≤ hi ∧ assigned a ts ≠ assigned b ts)) ∧
    (∀ (layout : List DownsampleTier) (ts : ℤ),
      assigned (compactLayout layout) ts = assigned layout ts) ∧
    (∀ layout : List DownsampleTier, compactLayout (compactLayout layout) = compactLayout layout) ∧
    ∀ own readable : List (MarkedPart K), own ⊆ readable →
      (readable.map MarkedPart.name).Nodup → (∀ p ∈ readable, SelfNesting p.rollup) →
      Cohorts own (mergeCohorts own readable) ∧
        ∀ own' readable' : List (MarkedPart K), own'.Perm own → readable'.Perm readable →
          List.Forall₂ SameCohort (mergeCohorts own' readable') (mergeCohorts own readable) :=
  ⟨fun _ _ _ _ => rollupPending_iff, fun _ _ _ _ => layoutsDiffer_iff, assigned_compactLayout,
    compactLayout_compactLayout, fun _ _ hsub hnames hnest =>
      ⟨cohorts_mergeCohorts hsub hnest, fun _ _ => sameCohort_of_perm hnames⟩⟩

/-- Three parts, the second recording a grid that does not nest with the first one's. -/
theorem layout_decisions_exact_two_grids :
    let hour : MarkedPart ℕ := ⟨1, 0, [⟨100, 60, .sum⟩]⟩
    let seven : MarkedPart ℕ := ⟨2, 10, [⟨100, 7, .sum⟩]⟩
    let raw : MarkedPart ℕ := ⟨3, 20, []⟩
    mergeCohorts [raw, seven, hour] [raw, seven, hour] =
        [⟨[⟨100, 60, .sum⟩], [raw, hour], [hour]⟩, ⟨[⟨100, 7, .sum⟩], [seven], [seven]⟩] ∧
      Cohorts [raw, seven, hour] (mergeCohorts [raw, seven, hour] [raw, seven, hour]) ∧
      List.Forall₂ SameCohort (mergeCohorts [hour, seven, raw] [seven, hour, raw])
        (mergeCohorts [raw, seven, hour] [raw, seven, hour]) := by
  intro hour seven raw
  obtain ⟨hcohorts, hsame⟩ := layout_decisions_exact.2.2.2.2 [raw, seven, hour] [raw, seven, hour]
    (List.Subset.refl _) (by decide) (by decide)
  exact ⟨by decide, hcohorts, hsame _ _ (by decide) (by decide)⟩

end OtelStorage.Metrics
