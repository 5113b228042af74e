import Mathlib.Algebra.Order.BigOperators.Group.List
import Mathlib.Data.List.Perm.Subperm
import OtelStorage.Foundation.Settling
import OtelStorage.Metrics.Cohorts
import OtelStorage.Metrics.Read

/-!
# A rollup takes whole buckets

A merge that rolls samples up must have all samples of a bucket: what another part holds of it would
be rolled a second time.  The selection of a merge is grown by the parts that meet its buckets, up
to a number of inputs, and where one is left out the cutoffs are pulled back before the first bucket
it meets (`closedRollupTiers`).  Recorded tiers may bring a later cutoff back in, so the layout the
merge comes to is tested by closing it again: a layout that closing leaves alone has no cutoff to
pull back, because the sum of the cutoffs would be less (`closedBefore_eq_of_closed`).
-/

namespace OtelStorage.Metrics

open FirstOccurrence Grid List

/-! ## The selection -/

/-- What of a part decides the selection.  Bounds are 64-bit integers; a part without a marker
records no tiers. -/
structure RollupPart where
  ref : ℕ
  pref : String
  minTime : ℤ
  maxTime : ℤ
  rollup : Option (List DownsampleTier)
  minRange : minInt64 ≤ minTime ∧ minTime ≤ maxInt64
  maxRange : minInt64 ≤ maxTime ∧ maxTime ≤ maxInt64
  deriving DecidableEq

namespace RollupPart

/-- The tiers a part records. -/
def tiers (p : RollupPart) : List DownsampleTier := p.rollup.getD []

/-- The part as a source without rows. -/
def source (p : RollupPart) : Source Unit := ⟨⟨[], p.tiers⟩, p.minTime, p.maxTime, ⊥⟩

/-- Some tier rolls up the oldest rows. -/
def downsampleApplies (tiers : List DownsampleTier) (minTime : ℤ) : Bool :=
  tiers.any fun t => 0 < t.interval && minTime < t.before

/-- Rolling the part up under the tiers would change it. -/
def downsamplePending (p : RollupPart) (tiers : List DownsampleTier) : Bool :=
  activeTiers tiers && match p.rollup with
    | none => downsampleApplies tiers p.minTime
    | some recorded => rollupPending recorded tiers p.minTime p.maxTime

variable (src selected readable own : List RollupPart) {layout tiers applied : List DownsampleTier}
  {t : DownsampleTier} {rewrites : RollupPart → List DownsampleTier → Bool} {sel : List RollupPart}
  {closure flag : Bool}

/-- The layout a merge of the parts rolls up to. -/
def mergeLayout (tiers : List DownsampleTier) : List DownsampleTier :=
  Metrics.mergeLayout (src.map source) tiers

/-- Every part records the layout over its own span; one without a marker has none to record. -/
def holdsLayout (layout : List DownsampleTier) : Bool :=
  src.all fun p => match p.rollup with
    | none => (tierAt layout p.minTime).isNone
    | some _ => Metrics.holdsLayout [p.source] layout

/-- The start of a timestamp's bucket, or the least timestamp there is. -/
def rollupBucketStart (ts interval : ℤ) : ℤ :=
  if ts < minInt64 + ts % interval then minInt64 else ts - ts % interval

/-- From the first bucket of a part a tier rolls up to the end of the last. -/
def rollupSpan (p : RollupPart) (tier : DownsampleTier) : Option (ℤ × ℤ) :=
  if tier.interval ≤ 0 ∨ tier.before ≤ p.minTime then none
  else
    let last := min p.maxTime (tier.before - 1)
    let tail := tier.interval - 1 - last % tier.interval
    some (rollupBucketStart p.minTime tier.interval,
      if last ≤ maxInt64 - tail then last + tail else maxInt64)

/-- A part meets a bucket some tier rolls of the selection. -/
def rollupOverlaps (candidate : RollupPart) (tiers : List DownsampleTier) : Bool :=
  selected.any fun p => tiers.any fun t => match rollupSpan p t with
    | none => false
    | some (lo, hi) => candidate.minTime ≤ hi && lo ≤ candidate.maxTime

/-- The part, or one of its name, is selected. -/
def selectedPart (p : RollupPart) : Bool :=
  selected.any fun s => s = p || s.pref ≠ "" && s.pref = p.pref

/-- Where a part outside the selection makes a tier stop, if it meets what the tier rolls of one
inside. -/
def cut (tier : DownsampleTier) (other p : RollupPart) : Option ℤ :=
  (rollupSpan p tier).bind fun (lo, hi) =>
    if other.maxTime < lo ∨ hi < other.minTime then none
    else some (rollupBucketStart (max lo other.minTime) tier.interval)

/-- The cutoff of a tier, before every bucket that is not whole. -/
def closedBefore (tier : DownsampleTier) : ℤ :=
  ((readable.filter fun other => !selectedPart selected other).flatMap fun other =>
    selected.filterMap (cut tier other)).foldl min tier.before

/-- The tiers, with cutoffs before every bucket that is not whole. -/
def closedRollupTiers (tiers : List DownsampleTier) :
    List DownsampleTier :=
  let closed := tiers.map fun t =>
    if t.interval ≤ 0 then t else { t with before := closedBefore selected readable t }
  let lo := selected.foldl (fun lo p => min lo p.minTime) maxInt64
  compactLayout (closed.filter fun t => !decide (t.before ≤ lo))

/-- One look through the parts: those that meet a bucket of the selection join it. -/
def growPass (tiers : List DownsampleTier) (maxInputs : ℕ) (selected : List RollupPart) :
    List RollupPart :=
  own.foldl (fun sel p =>
    if sel.length = maxInputs || sel.contains p || !rollupOverlaps sel p tiers then sel
    else sel ++ [p]) selected

theorem length_le_growPass (tiers : List DownsampleTier) (maxInputs : ℕ)
    (selected : List RollupPart) :
    selected.length ≤ (growPass own tiers maxInputs selected).length := by
  unfold growPass
  refine List.foldlRecOn own _ (motive := fun sel : List RollupPart =>
    selected.length ≤ sel.length) le_rfl ?_
  intro sel hle p _
  split
  · exact hle
  · rw [length_append]
    omega

/-- Looks through the parts, until one adds nothing or the selection is full. -/
def growing (tiers : List DownsampleTier) (maxInputs : ℕ) :
    Settling (List RollupPart) where
  next sel :=
    let grown := growPass own tiers maxInputs sel
    if sel.length < maxInputs ∧ grown.length ≠ sel.length then some grown else none
  size sel := maxInputs - sel.length
  smaller sel grown h := by
    have hle := length_le_growPass own tiers maxInputs sel
    dsimp only at h
    split at h
    · cases h
      omega
    · cases h

/-- A merge takes two parts at least. -/
def minMergeParts : ℕ := 2

/-- `rewrites` says whether a part is rewritten on its own under the tiers: by retention, a pending
rollup, recompression or precision, or because it is split by time. -/
def finishRollupSelection (rewrites : RollupPart → List DownsampleTier → Bool)
    (selected readable : List RollupPart) (tiers : List DownsampleTier) (closure : Bool) :
    List RollupPart × List DownsampleTier × Bool :=
  let layout := mergeLayout selected tiers
  if !holdsLayout selected layout && layout ≠ closedRollupTiers selected readable layout then
    ([], [], closure)
  else match selected with
    | [] => ([], [], closure)
    | [p] => if rewrites p tiers then (selected, tiers, closure) else ([], [], closure)
    | _ => (selected, tiers, closure)

/-- Grow the seed until no bucket is cut. -/
def closeRollupSelection (rewrites : RollupPart → List DownsampleTier → Bool)
    (seed own readable : List RollupPart) (tiers : List DownsampleTier) (maxInputs : ℕ) :
    List RollupPart × List DownsampleTier × Bool :=
  if !seed.any fun p => p.downsamplePending tiers then
    finishRollupSelection rewrites seed readable tiers false
  else
    let grown := (growing own tiers maxInputs).settle seed
    let selected := own.filter fun p => grown.contains p
    let closed := closedRollupTiers selected readable tiers
    let inherited := mergeLayout selected closed
    if inherited = closedRollupTiers selected readable inherited then
      finishRollupSelection rewrites selected readable closed true
    else
      let recorded := mergeLayout selected []
      let unchanged := selected.filter fun p => holdsLayout [p] recorded
      if minMergeParts ≤ unchanged.length then
        finishRollupSelection rewrites unchanged readable [] true
      else
        let raw := (own.filter fun p =>
          !downsampleApplies p.tiers p.minTime && rollupOverlaps selected p tiers).take maxInputs
        finishRollupSelection rewrites raw readable (closedRollupTiers raw readable tiers) true

/-! ## Closed layouts -/

variable {selected readable} {interval start : ℤ}

theorem le_foldl_min_iff {l : List ℤ} {a b : ℤ} : a ≤ l.foldl min b ↔ a ≤ b ∧ ∀ x ∈ l, a ≤ x :=
  Fibers.foldl_sup_le_iff (κ := ℤᵒᵈ) id l

theorem compactLayout_subperm (layout : List DownsampleTier) :
    (compactLayout layout).Subperm layout := by
  have hnew : (appendNew (DownsampleTier.kept layout) [] layout).Subperm layout :=
    Nodup.subperm (nodup_appendNew nodup_nil layout) fun t ht =>
      ((mem_appendNew.mp ht).resolve_left not_mem_nil).1
  exact (perm_insertionSort _ _).subperm.trans hnew

theorem closedBefore_le (t : DownsampleTier) : closedBefore selected readable t ≤ t.before :=
  (le_foldl_min_iff.mp le_rfl).1

/-- **A layout that closing leaves alone has no cutoff pulled back.** -/
theorem closedBefore_eq_of_closed (h : layout = closedRollupTiers selected readable layout)
    (ht : t ∈ layout) (hpos : 0 < t.interval) :
    closedBefore selected readable t = t.before := by
  obtain ⟨lower, hlower⟩ : ∃ lower : DownsampleTier → DownsampleTier, lower = fun t =>
      if t.interval ≤ 0 then t else { t with before := closedBefore selected readable t } :=
        ⟨_, rfl⟩
  have hle : ∀ u, (lower u).before ≤ u.before := by
    intro u
    rw [hlower]
    dsimp only
    split
    · exact le_rfl
    · exact closedBefore_le u
  -- nothing is deleted, so the lowered tiers are the tiers
  have hsub : layout.Subperm (layout.map lower) := by
    conv_lhs => rw [h]
    rw [hlower]
    exact (compactLayout_subperm _).trans filter_sublist.subperm
  have hperm := hsub.perm_of_length_le (length_map _).le
  have hsum : (layout.map DownsampleTier.before).sum =
      (layout.map fun u => (lower u).before).sum := by
    rw [(hperm.map DownsampleTier.before).sum_eq, map_map]
    rfl
  by_contra hne
  refine (sum_lt_sum (fun u => (lower u).before) DownsampleTier.before (fun u _ => hle u)
    ⟨t, ht, ?_⟩).ne hsum.symm
  rw [hlower]
  dsimp only
  rw [if_neg (not_le.mpr hpos)]
  exact lt_of_le_of_ne (closedBefore_le t) hne

/-! ## Buckets -/

/-- The span of a part has a timestamp from `lo` to before `hi`. -/
def Meets (p : RollupPart) (lo hi : ℤ) : Prop :=
  ∃ ts, lo ≤ ts ∧ ts < hi ∧ p.minTime ≤ ts ∧ ts ≤ p.maxTime

theorem rollupBucketStart_le {ts c : ℤ} (hc : minInt64 ≤ c)
    (h : floorTo ts interval ≤ c) : rollupBucketStart ts interval ≤ c := by
  unfold rollupBucketStart
  split
  · exact hc
  · exact h

theorem floorTo_le_of_lt {ts : ℤ} (hi : 0 < interval) (hdvd : interval ∣ start)
    (h : ts < start + interval) : floorTo ts interval ≤ start := by
  obtain ⟨k, rfl⟩ := hdvd
  have hk : ts / interval < k + 1 :=
    Int.ediv_lt_of_lt_mul hi (by rwa [add_mul, one_mul, mul_comm k])
  rw [floorTo_eq_mul]
  exact Int.mul_le_mul_of_nonneg_left (Int.lt_add_one_iff.mp hk) hi.le

/-- **A part outside that meets a bucket of a part inside pulls the cutoff back.** -/
theorem exists_cut_lt {p other : RollupPart} (hi : 0 < t.interval)
    (hdvd : t.interval ∣ start) (hp : p.Meets start (min (start + t.interval) t.before))
    (hother : other.Meets start (start + t.interval)) :
    ∃ c, cut t other p = some c ∧ c < t.before := by
  obtain ⟨ts, hstart, hts, hmin, hmax⟩ := hp
  obtain ⟨us, hstart', hend', hmin', hmax'⟩ := hother
  obtain ⟨hend, hcut⟩ := lt_min_iff.mp hts
  obtain ⟨last, hlast⟩ : ∃ last, last = min p.maxTime (t.before - 1) := ⟨_, rfl⟩
  have hle : ts ≤ last := hlast ▸ le_min hmax (Int.le_sub_one_of_lt hcut)
  have hfirst : rollupBucketStart p.minTime t.interval ≤ other.maxTime :=
    rollupBucketStart_le other.maxRange.1
      ((floorTo_le_of_lt hi hdvd (hmin.trans_lt hend)).trans (hstart'.trans hmax'))
  have hend : start ≤ last - last % t.interval :=
    not_lt.mp fun hlt => absurd ((floorTo_lt_iff hi hdvd).mp hlt) (by omega)
  have hrange := other.minRange.2
  refine ⟨rollupBucketStart (max (rollupBucketStart p.minTime t.interval) other.minTime) t.interval,
    ?_, ?_⟩
  · rw [cut, rollupSpan, if_neg (by omega), Option.bind_some, ← hlast]
    refine if_neg (not_or.mpr ⟨not_lt.mpr hfirst, ?_⟩)
    split <;> omega
  have hself : rollupBucketStart p.minTime t.interval ≤ ts :=
    rollupBucketStart_le (p.minRange.1.trans hmin)
      ((sub_le_self _ (Int.emod_nonneg _ hi.ne')).trans hmin)
  refine lt_of_le_of_lt (rollupBucketStart_le (p.minRange.1.trans hmin) ?_) hcut
  exact (floorTo_le_of_lt hi hdvd (max_lt (by omega) (by omega))).trans hstart

/-! ## What is selected -/

theorem finishRollupSelection_spec
    (h : finishRollupSelection rewrites selected readable tiers flag = (sel, applied, closure)) :
    sel = [] ∨ sel = selected ∧ (holdsLayout sel (mergeLayout sel applied) = true ∨
      mergeLayout sel applied = closedRollupTiers sel readable (mergeLayout sel applied)) := by
  unfold finishRollupSelection at h
  dsimp only at h
  split at h
  · cases h
    exact .inl rfl
  next hlayout =>
  have hkept : holdsLayout selected (mergeLayout selected tiers) = true ∨
      mergeLayout selected tiers =
      closedRollupTiers selected readable (mergeLayout selected tiers) := by
    simpa [imp_iff_not_or] using hlayout
  split at h
  · cases h
    exact .inl rfl
  · split at h
    · cases h
      exact .inr ⟨rfl, hkept⟩
    · cases h
      exact .inl rfl
  · cases h
    exact .inr ⟨rfl, hkept⟩

theorem closeRollupSelection_spec (rewrites : RollupPart → List DownsampleTier → Bool)
    (seed own readable : List RollupPart) (tiers : List DownsampleTier) (maxInputs : ℕ) :
    ∃ selected tiers' flag, closeRollupSelection rewrites seed own readable tiers maxInputs =
        finishRollupSelection rewrites selected readable tiers' flag ∧
      (selected = seed ∨ selected.Sublist own) := by
  unfold closeRollupSelection
  dsimp only
  split
  · exact ⟨_, _, _, rfl, .inl rfl⟩
  split
  · exact ⟨_, _, _, rfl, .inr filter_sublist⟩
  · split
    · exact ⟨_, _, _, rfl, .inr (filter_sublist.trans filter_sublist)⟩
    · exact ⟨_, _, _, rfl, .inr ((take_sublist _ _).trans filter_sublist)⟩

/-- **A rollup never folds part of a bucket.**  Where the layout of what is selected changes a
selected part, no readable part outside the selection meets a bucket that a tier of it rolls up of a
part inside; and parts of the engine are selected in their order. -/
theorem rollup_takes_whole_buckets (rewrites : RollupPart → List DownsampleTier → Bool)
    (seed own readable : List RollupPart) (tiers : List DownsampleTier) (maxInputs : ℕ)
    {sel : List RollupPart} {applied : List DownsampleTier} {closure : Bool}
    (h : closeRollupSelection rewrites seed own readable tiers maxInputs =
      (sel, applied, closure)) :
    (holdsLayout sel (mergeLayout sel applied) = false →
      ∀ t ∈ mergeLayout sel applied, ∀ p ∈ sel, ∀ start, t.interval ∣ start →
        p.Meets start (min (start + t.interval) t.before) → ∀ other ∈ readable,
        selectedPart sel other = false → ¬ other.Meets start (start + t.interval)) ∧
    (seed.Sublist own → sel.Sublist own) := by
  obtain ⟨selected, tiers', flag, heq, horder⟩ :=
    closeRollupSelection_spec rewrites seed own readable tiers maxInputs
  rcases finishRollupSelection_spec (heq.symm.trans h) with rfl | ⟨rfl, hlayout⟩
  · exact ⟨fun _ _ _ p hp => absurd hp not_mem_nil, fun _ => nil_sublist own⟩
  refine ⟨fun hchanged t ht p hp start hdvd hmeets other hother hout hmeets' => ?_, fun hseed => ?_⟩
  · have hi : 0 < t.interval := by
      have hkept := (mem_compactLayout.mp ht).2
      simp only [DownsampleTier.kept, Bool.and_eq_true, decide_eq_true_eq] at hkept
      exact hkept.1
    have hclosed := closedBefore_eq_of_closed
      (hlayout.resolve_left (by rw [hchanged]; exact Bool.false_ne_true)) ht hi
    obtain ⟨b, hcut, hlt⟩ := exists_cut_lt hi hdvd hmeets hmeets'
    have hmem : b ∈ (readable.filter fun other => !selectedPart sel other).flatMap fun other =>
        sel.filterMap (cut t other) :=
      mem_flatMap.mpr ⟨other, mem_filter.mpr ⟨hother, by rw [hout]; rfl⟩,
        mem_filterMap.mpr ⟨p, hp, hcut⟩⟩
    have hle : t.before ≤ b := (le_foldl_min_iff.mp hclosed.ge).2 b hmem
    exact absurd hlt (not_lt.mpr hle)
  · rcases horder with rfl | hsub
    · exact hseed
    · exact hsub

/-- An unrolled part. -/
def rawPart (ref : ℕ) (minTime maxTime : Fin 64) : RollupPart where
  ref := ref
  pref := ""
  minTime := minTime.val
  maxTime := maxTime.val
  rollup := some []
  minRange := by unfold minInt64 maxInt64; omega
  maxRange := by unfold minInt64 maxInt64; omega

/-- A part meets the second bucket of the one the selection starts with and joins it; a third is
behind both. -/
theorem rollup_takes_whole_buckets_late :
    closeRollupSelection (fun _ _ => true) [rawPart 1 0 12] [rawPart 1 0 12, rawPart 2 17 18]
        [rawPart 1 0 12, rawPart 2 17 18, rawPart 3 25 30] [⟨20, 10, .last⟩] 16 =
      ([rawPart 1 0 12, rawPart 2 17 18], [⟨20, 10, .last⟩], true) ∧
    ¬ (rawPart 3 25 30).Meets 10 20 := by
  have hsel : closeRollupSelection (fun _ _ => true) [rawPart 1 0 12]
      [rawPart 1 0 12, rawPart 2 17 18] [rawPart 1 0 12, rawPart 2 17 18, rawPart 3 25 30]
      [⟨20, 10, .last⟩] 16 =
      ([rawPart 1 0 12, rawPart 2 17 18], [⟨20, 10, .last⟩], true) := by decide +kernel
  refine ⟨hsel, (rollup_takes_whole_buckets _ _ _ _ _ _ hsel).1 (by decide +kernel) ⟨20, 10, .last⟩
    (by decide +kernel) (rawPart 1 0 12) mem_cons_self 10 (by decide) ?_ (rawPart 3 25 30)
    (by decide +kernel) (by decide +kernel)⟩
  exact ⟨10, by decide, by decide, by decide, by decide⟩

end RollupPart
end OtelStorage.Metrics
