import Mathlib.Algebra.BigOperators.Group.List.Lemmas
import Mathlib.Data.List.Dedup
import Mathlib.Data.List.Induction
import Mathlib.Data.List.Perm.Basic
import OtelStorage.Metrics.Downsample

/-!
# Aggregates and the step grid

An aggregate of samples keeps how many there were, their weights, their weighted sum and the extreme
values.  Over exact arithmetic, and where no value is a NaN, the order of the samples does not show,
and two aggregates of separate samples merge into that of both.

A step grid holds one aggregate for each bucket of a width.  It is an array of slots over the span
of the data, or a map when that would be too wide; `Holds` says what either has folded, and
`collect` reads it back: the buckets of the samples, `bucketsOf`, whatever the representation.  Its
arithmetic is that of 64-bit integers, and right where the span fits into them (`SpanFits`).
-/

namespace OtelStorage.Metrics

open Function Grid List

/-- Exact arithmetic: the laws of addition, and comparisons in which values that are not NaN and tie
are the same. -/
class Float64.Exact (F : Type*) [Float64 F] : Prop where
  sum_assoc : ∀ a b c : F, a + b + c = a + (b + c)
  sum_comm : ∀ a b : F, a + b = b + a
  zero_sum : ∀ a : F, 0 + a = a
  compares : Float64.Compares F
  tie : ∀ a b : F, Float64.isNaN a = false → Float64.isNaN b = false →
    Float64.lt a b = false → Float64.lt b a = false → a = b

instance : Float64.Exact ℚ where
  sum_assoc := Rat.add_assoc
  sum_comm := Rat.add_comm
  zero_sum := Rat.zero_add
  compares := Float64.compares_rat
  tie _ _ _ _ hab hba := le_antisymm (not_lt.mp (of_decide_eq_false hba))
    (not_lt.mp (of_decide_eq_false hab))

/-- The rationals and a NaN: operations pass it on, and no comparison holds of it. -/
def RatNaN : Type := Option ℚ
  deriving DecidableEq

/-- A rational. -/
def RatNaN.of (q : ℚ) : RatNaN := some q

instance : Float64 RatNaN where
  zero := some 0
  one := some 1
  add := Option.map₂ (· + ·)
  sub := Option.map₂ (· - ·)
  mul := Option.map₂ (· * ·)
  div := Option.map₂ (· / ·)
  lt a b := Option.any (fun x => Option.any (fun y => Float64.lt x y) b) a
  le a b := Option.any (fun x => Option.any (fun y => Float64.le x y) b) a
  abs := Option.map Float64.abs
  isNaN := Option.isNone
  isInf _ := false

theorem Float64.compares_ratNaN : Float64.Compares RatNaN where
  irrefl
    | none => rfl
    | some a => compares_rat.irrefl a
  trans
    | some a, some b, some c => compares_rat.trans a b c
    | none, _, _ => nofun
    | some _, none, _ => nofun
    | some _, some _, none => fun _ h => nomatch h
  nan
    | none, none => fun _ => ⟨rfl, rfl⟩
    | none, some _ => fun _ => ⟨rfl, rfl⟩
    | some _, _ => nofun
  weak
    | some a, some b, some c => compares_rat.weak a b c
    | none, _, _ => nofun
    | some _, none, _ => nofun
    | some _, some _, none => fun _ h => nomatch h

instance : Float64.Exact RatNaN where
  sum_assoc _ _ _ := Option.map₂_assoc Rat.add_assoc
  sum_comm _ _ := Option.map₂_comm Rat.add_comm
  zero_sum
    | none => rfl
    | some a => congrArg some (Rat.zero_add a)
  compares := Float64.compares_ratNaN
  tie
    | some a, some b => fun _ _ hab hba => congrArg some (Float64.Exact.tie a b rfl rfl hab hba)
    | none, _ => nofun
    | some _, none => fun _ h => nomatch h

variable {F : Type*} [Float64 F] {step : ℤ}

/-! ## Aggregates -/

/-- An extreme value after another one, which replaces it if it ranks first. -/
def extreme (ranks : F → F → Bool) (u v : F) : F := if ranks v u then v else u

/-- The aggregate of some samples: weights, rows, weighted sum, extreme values. -/
structure SeriesAgg (F : Type*) where
  count : F
  rows : ℕ
  sum : F
  min : F
  max : F
  deriving DecidableEq

namespace SeriesAgg

/-- The aggregate of nothing. -/
def zero : SeriesAgg F := ⟨0, 0, 0, 0, 0⟩

/-- Fold a value with its weight in. -/
def addSample (a : SeriesAgg F) (v w : F) : SeriesAgg F :=
  { count := a.count + w
    rows := a.rows + 1
    sum := a.sum + w * v
    min := if a.rows = 0 then v else extreme Float64.lt a.min v
    max := if a.rows = 0 then v else extreme (flip Float64.lt) a.max v }

/-- Fold another aggregate in. -/
def merge (a b : SeriesAgg F) : SeriesAgg F :=
  if b.rows = 0 then a
  else if a.rows = 0 then b
  else
    { count := a.count + b.count
      rows := a.rows + b.rows
      sum := a.sum + b.sum
      min := extreme Float64.lt a.min b.min
      max := extreme (flip Float64.lt) a.max b.max }

/-- Fold samples in. -/
def addSamples (a : SeriesAgg F) (xs : List (Sample F)) : SeriesAgg F :=
  xs.foldl (fun a x => a.addSample x.val x.weight) a

/-- The aggregate of samples. -/
def of (xs : List (Sample F)) : SeriesAgg F := zero.addSamples xs

theorem addSamples_append (a : SeriesAgg F) (xs ys : List (Sample F)) :
    a.addSamples (xs ++ ys) = (a.addSamples xs).addSamples ys := foldl_append

theorem of_append (xs ys : List (Sample F)) : of (xs ++ ys) = (of xs).addSamples ys :=
  addSamples_append _ _ _

theorem of_concat (xs : List (Sample F)) (x : Sample F) :
    of (xs ++ [x]) = (of xs).addSample x.val x.weight := of_append xs [x]

@[simp] theorem rows_addSamples (a : SeriesAgg F) (xs : List (Sample F)) :
    (a.addSamples xs).rows = a.rows + xs.length := by
  induction xs generalizing a with
  | nil => rfl
  | cons x xs ih =>
    rw [length_cons, ← Nat.add_assoc, Nat.add_right_comm]
    exact ih _

@[simp] theorem rows_of (xs : List (Sample F)) : (of xs).rows = xs.length := by
  rw [of, rows_addSamples]
  exact Nat.zero_add _

end SeriesAgg

/-! ## Without NaN the order does not show -/

/-- No value is a NaN. -/
def NoNaN (xs : List (Sample F)) : Prop := ∀ x ∈ xs, Float64.isNaN x.val = false

/-- A comparison in which values that are not NaN and tie are the same. -/
structure Ranks (r : F → F → Bool) : Prop where
  irrefl : ∀ a, r a a = false
  trans : ∀ a b c, r a b = true → r b c = true → r a c = true
  weak : ∀ a b c, Float64.isNaN b = false → r a c = true → r a b = true ∨ r b c = true
  tie : ∀ a b, Float64.isNaN a = false → Float64.isNaN b = false → r a b = false → r b a = false →
    a = b

section Ranks

variable {r : F → F → Bool} {u v : F}

theorem Ranks.extreme_swap (hr : Ranks r) (hu : Float64.isNaN u = false)
    (hv : Float64.isNaN v = false) : extreme r u v = extreme r v u := by
  unfold extreme
  cases huv : r u v <;> cases hvu : r v u
  · exact hr.tie u v hu hv huv hvu
  · rfl
  · rfl
  · exact absurd (hr.trans u v u huv hvu) (Bool.eq_false_iff.mp (hr.irrefl u))

theorem Ranks.extreme_comm (hr : Ranks r) (m : F) (hu : Float64.isNaN u = false)
    (hv : Float64.isNaN v = false) :
    extreme r (extreme r m u) v = extreme r (extreme r m v) u := by
  have hswap := hr.extreme_swap hu hv
  unfold extreme at hswap ⊢
  cases hum : r u m <;> cases hvm : r v m
  · simp [hum, hvm]
  · have huv : r u v = false := Bool.eq_false_iff.mpr fun huv =>
      Bool.eq_false_iff.mp hum (hr.trans _ _ _ huv hvm)
    simp [hvm, huv]
  · have hvu : r v u = false := Bool.eq_false_iff.mpr fun hvu =>
      Bool.eq_false_iff.mp hvm (hr.trans _ _ _ hvu hum)
    simp [hum, hvu]
  · exact hswap

theorem Ranks.extreme_assoc (hr : Ranks r) (m v : F) (hu : Float64.isNaN u = false) :
    extreme r m (extreme r u v) = extreme r (extreme r m u) v := by
  unfold extreme
  cases hvu : r v u <;> cases hum : r u m
  · have hvm : r v m = false := Bool.eq_false_iff.mpr fun hvm =>
      (hr.weak v u m hu hvm).elim (Bool.eq_false_iff.mp hvu) (Bool.eq_false_iff.mp hum)
    simp [hum, hvm]
  · simp [hum, hvu]
  · simp
  · simp [hvu, hr.trans _ _ _ hvu hum]

theorem isNaN_extreme (hu : Float64.isNaN u = false) (hv : Float64.isNaN v = false) :
    Float64.isNaN (extreme r u v) = false := by
  rw [extreme]
  split
  · exact hv
  · exact hu

end Ranks

namespace SeriesAgg

variable {xs ys : List (Sample F)}

theorem isNaN_of (h : NoNaN xs) (hne : xs ≠ []) :
    Float64.isNaN (of xs).min = false ∧ Float64.isNaN (of xs).max = false := by
  induction xs using List.reverseRecOn with
  | nil => exact absurd rfl hne
  | append_singleton xs x ih =>
    have hx := h x (mem_append_right _ mem_cons_self)
    rw [of_concat, addSample]
    cases xs with
    | nil => exact ⟨hx, hx⟩
    | cons y ys =>
      have hrows : (of (y :: ys)).rows ≠ 0 := by
        rw [rows_of]
        exact Nat.succ_ne_zero _
      obtain ⟨hmin, hmax⟩ := ih (fun z hz => h z (mem_append_left _ hz)) (cons_ne_nil y ys)
      rw [if_neg hrows, if_neg hrows]
      exact ⟨isNaN_extreme hmin hx, isNaN_extreme hmax hx⟩

variable [Float64.Exact F]

open Float64.Exact

theorem ranks_lt : Ranks (Float64.lt (F := F)) where
  irrefl := compares.irrefl
  trans := compares.trans
  weak := compares.weak
  tie := tie

theorem ranks_gt : Ranks (flip (Float64.lt (F := F))) where
  irrefl := compares.irrefl
  trans a b c hab hbc := compares.trans c b a hbc hab
  weak a b c hb hac := (compares.weak c b a hb hac).symm
  tie a b ha hb hab hba := tie a b ha hb hba hab

theorem sum_right_comm (a b c : F) : a + b + c = a + c + b := by
  rw [sum_assoc, sum_comm b c, ← sum_assoc]

theorem addSample_comm (a : SeriesAgg F) {u v : F} (w x : F) (hu : Float64.isNaN u = false)
    (hv : Float64.isNaN v = false) :
    (a.addSample u w).addSample v x = (a.addSample v x).addSample u w := by
  have hrows : ∀ n : ℕ, n + 1 ≠ 0 := Nat.succ_ne_zero
  simp only [addSample, hrows, if_false, sum_right_comm _ w, sum_right_comm _ (w * u)]
  by_cases h : a.rows = 0
  · simp only [h, if_true, ranks_lt.extreme_swap hu hv, ranks_gt.extreme_swap hu hv]
  · simp only [h, if_false, ranks_lt.extreme_comm _ hu hv, ranks_gt.extreme_comm _ hu hv]

/-- **Without NaN the order of the samples does not show.** -/
theorem of_perm (hxs : NoNaN xs) (h : xs.Perm ys) : of xs = of ys :=
  h.foldl_eq' (fun x hx y hy a => addSample_comm a _ _ (hxs x hx) (hxs y hy)) zero

theorem merge_addSample (a b : SeriesAgg F) (ha : a.rows ≠ 0) (hb : b.rows ≠ 0)
    (hmin : Float64.isNaN b.min = false) (hmax : Float64.isNaN b.max = false) (v w : F) :
    a.merge (b.addSample v w) = (a.merge b).addSample v w := by
  have hsum : a.rows + b.rows ≠ 0 := by omega
  simp only [merge, addSample, if_neg ha, if_neg hb, Nat.succ_ne_zero, if_false, if_neg hsum,
    ranks_lt.extreme_assoc _ _ hmin, ranks_gt.extreme_assoc _ _ hmax, sum_assoc, Nat.add_assoc]

/-- **Aggregates of separate samples merge.** -/
theorem merge_of (a : SeriesAgg F) (ha : a.rows = 0 → a = zero) (hxs : NoNaN xs) :
    a.merge (of xs) = a.addSamples xs := by
  induction xs using List.reverseRecOn with
  | nil => rfl
  | append_singleton xs x ih =>
    have hinit : NoNaN xs := fun y hy => hxs y (mem_append_left _ hy)
    rw [of_concat, addSamples_append, ← ih hinit]
    show _ = (a.merge (of xs)).addSample x.val x.weight
    by_cases hrows : a.rows = 0
    · rw [ha hrows]
      have hz : ∀ b : SeriesAgg F, b.rows ≠ 0 → (zero : SeriesAgg F).merge b = b := by
        intro b hb
        rw [merge, if_neg hb]
        rfl
      rw [hz _ (Nat.succ_ne_zero _)]
      cases xs with
      | nil => rfl
      | cons y ys => rw [hz _ (by rw [rows_of]; exact Nat.succ_ne_zero _)]
    · cases xs with
      | nil =>
        have hz : (of ([] : List (Sample F))) = zero := rfl
        simp only [hz, merge, addSample, zero, if_neg hrows, Nat.succ_ne_zero, if_false, if_true,
          zero_sum, Nat.zero_add]
      | cons y ys =>
        obtain ⟨hmin, hmax⟩ := isNaN_of hinit (cons_ne_nil y ys)
        exact merge_addSample a _ hrows (by rw [rows_of]; exact Nat.succ_ne_zero _) hmin hmax _ _

end SeriesAgg

/-! ## The grid -/

/-- The start of the bucket of a timestamp, in 64-bit integers; without a step everything is in
bucket 0. -/
def bucketStart (ts step : ℤ) : ℤ :=
  if step ≤ 0 then 0
  else
    let r := ts.tmod step
    wrap (ts - if r < 0 then r + step else r)

/-- The widest grid held as an array. -/
def maxDenseBuckets : ℤ := 2 ^ 18

/-- The buckets of the series being accumulated: `dense` slots from the bucket `first` on, or a map
from bucket starts.  `touched` are the slots, or the keys, in use. -/
structure StepGrid (F : Type*) where
  first : ℤ
  step : ℤ
  dense : Option ℕ
  slots : ℤ → SeriesAgg F
  touched : List ℤ

/-- A grid for data within a span.  There is none if the number of slots comes out negative: making
them panics. -/
def newStepGrid (span : Option (ℤ × ℤ)) (step : ℤ) : Option (StepGrid F) :=
  if step ≤ 0 then some ⟨0, 0, some 1, fun _ => .zero, []⟩
  else match span with
    | none => some ⟨0, step, some 1, fun _ => .zero, []⟩
    | some (lo, hi) =>
      let first := bucketStart lo step
      let n := wrap ((wrap (bucketStart hi step - first)).tdiv step + 1)
      if maxDenseBuckets < n then some ⟨first, step, none, fun _ => .zero, []⟩
      else if n < 0 then none
      else some ⟨first, step, some n.toNat, fun _ => .zero, []⟩

namespace StepGrid

/-- The bucket of a timestamp. -/
def bucketOf (g : StepGrid F) (ts : ℤ) : ℤ := bucketStart ts g.step

/-- The number of a timestamp's slot, as an int32. -/
def indexOf (g : StepGrid F) (ts : ℤ) : ℤ :=
  if g.step ≤ 0 then 0 else ((wrap (g.bucketOf ts - g.first)).tdiv g.step).bmod (2 ^ 32)

/-- The slot, or the key, of a timestamp; one outside the slots has none. -/
def slot (g : StepGrid F) (ts : ℤ) : Option ℤ :=
  match g.dense with
  | none => some (g.bucketOf ts)
  | some n => if g.indexOf ts < 0 ∨ n ≤ g.indexOf ts then none else some (g.indexOf ts)

/-- Change the aggregate of a timestamp's bucket.  A slot is in use once it has rows, a key once it
is in the map. -/
def put (g : StepGrid F) (ts : ℤ) (f : SeriesAgg F → SeriesAgg F) : StepGrid F :=
  match g.slot ts with
  | none => g
  | some k => { g with
      slots := update g.slots k (f (g.slots k))
      touched :=
        match g.dense with
        | none => if k ∈ g.touched then g.touched else g.touched ++ [k]
        | some _ => if (g.slots k).rows = 0 then g.touched ++ [k] else g.touched }

/-- Fold a sample into its bucket. -/
def addSample (g : StepGrid F) (x : Sample F) : StepGrid F :=
  g.put x.ts fun a => a.addSample x.val x.weight

/-- Fold a whole aggregate into the bucket of a timestamp. -/
def mergeStat (g : StepGrid F) (ts : ℤ) (st : SeriesAgg F) : StepGrid F :=
  if st.rows = 0 then g else g.put ts fun a => a.merge st

/-- The start of the bucket of a slot, or of a key. -/
def startOf (g : StepGrid F) (k : ℤ) : ℤ :=
  match g.dense with
  | none => k
  | some _ => wrap (g.first + wrap (k * g.step))

/-- The buckets in use, in order; the grid is left empty. -/
def collect (g : StepGrid F) : List (ℤ × SeriesAgg F) × StepGrid F :=
  ((g.touched.insertionSort (· ≤ ·)).map fun k => (g.startOf k, g.slots k),
    { g with slots := fun k => if k ∈ g.touched then .zero else g.slots k, touched := [] })

end StepGrid

/-- The start of the bucket of a timestamp, in the integers. -/
def gridStart (ts step : ℤ) : ℤ := if step ≤ 0 then 0 else floorTo ts step

/-- The aggregates of samples by bucket: what a grid is for. -/
def bucketsOf (step : ℤ) (xs : List (Sample F)) : List (ℤ × SeriesAgg F) :=
  ((xs.map fun x => gridStart x.ts step).dedup.insertionSort (· ≤ ·)).map fun b =>
    (b, SeriesAgg.of (xs.filter fun x => gridStart x.ts step = b))

/-! ## What a grid holds -/

theorem bucketStart_eq (ts step : ℤ) : bucketStart ts step = wrap (gridStart ts step) := by
  rw [bucketStart, gridStart]
  by_cases h : step ≤ 0
  · rw [if_pos h, if_pos h]
    rfl
  · rw [if_neg h, if_neg h]
    dsimp only
    have hmod := Int.emod_nonneg ts (not_le.mp h).ne'
    have hlt := Int.emod_lt_of_pos ts (not_le.mp h)
    rw [Int.tmod_eq_emod, floorTo]
    congr 1
    split_ifs <;> omega

theorem gridStart_mono (step : ℤ) {a b : ℤ} (h : a ≤ b) : gridStart a step ≤ gridStart b step := by
  rw [gridStart, gridStart]
  split
  · exact le_rfl
  · next hs => exact floorTo_mono (not_le.mp hs) h

/-- A grid as it is set up, for timestamps of a set: each has a slot, which stands where its bucket
starts. -/
structure StepGrid.Fits (g : StepGrid F) (step : ℤ) (S : Set ℤ) : Prop where
  bucket : ∀ ts ∈ S, g.bucketOf ts = gridStart ts step
  start : ∀ ts ∈ S, ∃ k, g.slot ts = some k ∧ g.startOf k = gridStart ts step
  mono : ∀ ts ∈ S, ∀ ts' ∈ S, ∀ k k', g.slot ts = some k → g.slot ts' = some k' → k < k' →
    gridStart ts step < gridStart ts' step

namespace StepGrid

variable {g : StepGrid F} {S : Set ℤ} {xs ys : List (Sample F)} {ts : ℤ} {k : ℤ}

omit [Float64 F] in
theorem Fits.startOf_eq (h : g.Fits step S) (hts : ts ∈ S) (hk : g.slot ts = some k) :
    g.startOf k = gridStart ts step := by
  obtain ⟨k', hk', hstart⟩ := h.start ts hts
  rw [Option.some.inj (hk.symm.trans hk')]
  exact hstart

omit [Float64 F] in
theorem Fits.slot_inj (h : g.Fits step S) {ts' k' : ℤ} (hts : ts ∈ S) (hts' : ts' ∈ S)
    (hk : g.slot ts = some k) (hk' : g.slot ts' = some k')
    (heq : gridStart ts step = gridStart ts' step) : k = k' := by
  rcases lt_trichotomy k k' with hlt | rfl | hgt
  · exact absurd heq (h.mono ts hts ts' hts' k k' hk hk' hlt).ne
  · rfl
  · exact absurd heq (h.mono ts' hts' ts hts k' k hk' hk hgt).ne'

/-- What a grid has folded. -/
structure Holds (g : StepGrid F) (step : ℤ) (S : Set ℤ) (xs : List (Sample F)) : Prop where
  fits : g.Fits step S
  mem : ∀ x ∈ xs, x.ts ∈ S
  slots : ∀ k, g.slots k = SeriesAgg.of (xs.filter fun x => g.slot x.ts = some k)
  nodup : g.touched.Nodup
  touched : ∀ k, k ∈ g.touched ↔ ∃ x ∈ xs, g.slot x.ts = some k

theorem Holds.rows_eq_zero_iff (h : g.Holds step S xs) (k : ℤ) :
    (g.slots k).rows = 0 ↔ k ∉ g.touched := by
  rw [h.slots k, SeriesAgg.rows_of, length_eq_zero_iff, filter_eq_nil_iff, h.touched k]
  simp

theorem Holds.put_eq (h : g.Holds step S xs) (hk : g.slot ts = some k)
    (f : SeriesAgg F → SeriesAgg F) :
    g.put ts f = { g with
      slots := update g.slots k (f (g.slots k))
      touched := if k ∈ g.touched then g.touched else g.touched ++ [k] } := by
  rw [put, hk]
  cases hd : g.dense with
  | none => rfl
  | some n =>
    dsimp only
    by_cases hmem : k ∈ g.touched
    · have hrows : ¬ (g.slots k).rows = 0 := fun h0 => (h.rows_eq_zero_iff k).mp h0 hmem
      rw [if_pos hmem, if_neg hrows]
    · rw [if_neg hmem, if_pos ((h.rows_eq_zero_iff k).mpr hmem)]

theorem Holds.put (h : g.Holds step S xs) (hk : g.slot ts = some k) {f : SeriesAgg F → SeriesAgg F}
    (hne : ys ≠ []) (hys : ∀ y ∈ ys, y.ts ∈ S ∧ g.slot y.ts = some k)
    (hf : f (g.slots k) = (g.slots k).addSamples ys) :
    (g.put ts f).Holds step S (xs ++ ys) := by
  rw [h.put_eq hk f]
  obtain ⟨y, hy⟩ := exists_mem_of_ne_nil _ hne
  refine ⟨⟨h.fits.bucket, h.fits.start, h.fits.mono⟩,
    forall_mem_append.mpr ⟨h.mem, fun y hy => (hys y hy).1⟩, fun j => ?_, ?_, fun j => ?_⟩
  · show update g.slots k (f (g.slots k)) j =
      SeriesAgg.of ((xs ++ ys).filter fun x => g.slot x.ts = some j)
    rw [filter_append, SeriesAgg.of_append, ← h.slots j]
    by_cases hj : j = k
    · rw [hj, update_self, hf, filter_eq_self.mpr fun x hx => by simp [(hys x hx).2]]
    · rw [update_of_ne hj, filter_eq_nil_iff.mpr fun x hx => by
        simp [(hys x hx).2, Ne.symm hj]]
      rfl
  · dsimp only
    split
    · exact h.nodup
    · next hmem => exact nodup_append.mpr ⟨h.nodup, nodup_singleton k, fun a ha b hb => by
        rw [mem_singleton.mp hb]
        exact fun hak => hmem (hak ▸ ha)⟩
  have hmem : j ∈ (if k ∈ g.touched then g.touched else g.touched ++ [k]) ↔
      j ∈ g.touched ∨ j = k := by
    split
    · next hk => exact ⟨.inl, fun hj => hj.elim (fun hj => hj) fun hj => hj ▸ hk⟩
    · rw [mem_append, mem_singleton]
  show j ∈ (if k ∈ g.touched then g.touched else g.touched ++ [k]) ↔
    ∃ x ∈ xs ++ ys, g.slot x.ts = some j
  rw [hmem, h.touched j]
  constructor
  · rintro (⟨x, hx, hxj⟩ | rfl)
    · exact ⟨x, mem_append_left _ hx, hxj⟩
    · exact ⟨y, mem_append_right _ hy, (hys y hy).2⟩
  · rintro ⟨x, hx, hxj⟩
    rcases mem_append.mp hx with hx | hx
    · exact .inl ⟨x, hx, hxj⟩
    · exact .inr (Option.some.inj (hxj.symm.trans (hys x hx).2))

theorem Holds.addSample (h : g.Holds step S xs) {x : Sample F} (hx : x.ts ∈ S) :
    (g.addSample x).Holds step S (xs ++ [x]) := by
  obtain ⟨k, hk, -⟩ := h.fits.start x.ts hx
  exact h.put hk (cons_ne_nil _ _) (forall_mem_singleton.mpr ⟨hx, hk⟩) rfl

omit [Float64 F] in
theorem slot_congr {a b : ℤ} (h : g.bucketOf a = g.bucketOf b) : g.slot a = g.slot b := by
  rw [slot, slot, indexOf, indexOf, h]

theorem Holds.addSamples (h : g.Holds step S xs) (hys : ∀ y ∈ ys, y.ts ∈ S) :
    (ys.foldl StepGrid.addSample g).Holds step S (xs ++ ys) := by
  induction ys generalizing g xs with
  | nil =>
    rw [append_nil]
    exact h
  | cons y ys ih =>
    rw [append_cons]
    exact ih (h.addSample (hys y mem_cons_self)) fun z hz => hys z (mem_cons_of_mem y hz)

theorem Holds.mergeStat [Float64.Exact F] (h : g.Holds step S xs) (hnan : NoNaN ys)
    (hk : g.slot ts = some k) (hys : ∀ y ∈ ys, y.ts ∈ S ∧ g.slot y.ts = some k) :
    (g.mergeStat ts (.of ys)).Holds step S (xs ++ ys) := by
  rw [StepGrid.mergeStat, SeriesAgg.rows_of]
  cases ys with
  | nil =>
    rw [append_nil]
    exact h
  | cons y ys =>
    have hzero : (g.slots k).rows = 0 → g.slots k = .zero := by
      intro h0
      rw [h.slots k, SeriesAgg.rows_of, length_eq_zero_iff] at h0
      rw [h.slots k, h0]
      rfl
    have hmerge := SeriesAgg.merge_of (g.slots k) hzero hnan
    exact h.put (f := fun a => a.merge (.of (y :: ys))) hk (cons_ne_nil _ _) hys hmerge

theorem Holds.starts (h : g.Holds step S xs) :
    (g.touched.insertionSort (· ≤ ·)).map g.startOf =
      (xs.map fun x => gridStart x.ts step).dedup.insertionSort (· ≤ ·) := by
  have hsort : ∀ l : List ℤ, l.Nodup → (l.insertionSort (· ≤ ·)).Pairwise (· < ·) := by
    intro l hl
    have hle := pairwise_insertionSort (· ≤ ·) l
    have hne : (l.insertionSort (· ≤ ·)).Nodup :=
      (perm_insertionSort (· ≤ ·) l).nodup_iff.mpr hl
    exact hle.imp₂ (fun _ _ hab hne => lt_of_le_of_ne hab hne) hne
  refine List.Pairwise.eq_of_mem_iff (r := (· < ·)) ?_ (hsort _ (nodup_dedup _)) fun b => ?_
  · refine pairwise_map.mpr ((hsort _ h.nodup).imp_of_mem fun {k k'} hk hk' hlt => ?_)
    rw [mem_insertionSort, h.touched] at hk hk'
    obtain ⟨x, hx, hxk⟩ := hk
    obtain ⟨x', hx', hxk'⟩ := hk'
    rw [h.fits.startOf_eq (h.mem x hx) hxk, h.fits.startOf_eq (h.mem x' hx') hxk']
    exact h.fits.mono x.ts (h.mem x hx) x'.ts (h.mem x' hx') k k' hxk hxk' hlt
  rw [mem_insertionSort, mem_dedup, mem_map, mem_map]
  constructor
  · rintro ⟨k, hk, rfl⟩
    rw [mem_insertionSort, h.touched] at hk
    obtain ⟨x, hx, hxk⟩ := hk
    exact ⟨x, hx, (h.fits.startOf_eq (h.mem x hx) hxk).symm⟩
  · rintro ⟨x, hx, rfl⟩
    obtain ⟨k, hk, hstart⟩ := h.fits.start x.ts (h.mem x hx)
    refine ⟨k, ?_, hstart⟩
    rw [mem_insertionSort, h.touched]
    exact ⟨x, hx, hk⟩

/-- **A grid reads back the buckets of its samples.** -/
theorem Holds.collect (h : g.Holds step S xs) : g.collect.1 = bucketsOf step xs := by
  rw [StepGrid.collect, bucketsOf, ← h.starts, map_map]
  refine map_congr_left fun k hk => Prod.ext rfl ?_
  rw [mem_insertionSort, h.touched] at hk
  obtain ⟨y, hy, hk⟩ := hk
  rw [h.slots k]
  refine congrArg SeriesAgg.of (filter_congr fun x hx => ?_)
  rw [decide_eq_decide, h.fits.startOf_eq (h.mem y hy) hk]
  obtain ⟨j, hj, hstart⟩ := h.fits.start x.ts (h.mem x hx)
  constructor
  · intro hxk
    rw [← hstart, Option.some.inj (hj.symm.trans hxk), h.fits.startOf_eq (h.mem y hy) hk]
  · intro heq
    rw [hj, h.fits.slot_inj (h.mem x hx) (h.mem y hy) hj hk heq]

/-! ## Reading back leaves the grid empty -/

/-- The grid as it was set up. -/
def emptied (g : StepGrid F) : StepGrid F := { g with slots := fun _ => .zero, touched := [] }

theorem emptied_put (g : StepGrid F) (ts : ℤ) (f : SeriesAgg F → SeriesAgg F) :
    (g.put ts f).emptied = g.emptied := by
  rw [put]
  split <;> rfl

/-- What is not marked is empty. -/
def Clean (g : StepGrid F) : Prop := ∀ k, k ∉ g.touched → g.slots k = .zero

theorem Clean.put (h : g.Clean) (ts : ℤ) (f : SeriesAgg F → SeriesAgg F) : (g.put ts f).Clean := by
  rw [StepGrid.put]
  split
  · exact h
  next k _ =>
  have hmarked : g.touched ++ [k] ⊆ (match g.dense with
      | none => if k ∈ g.touched then g.touched else g.touched ++ [k]
      | some _ => if (g.slots k).rows = 0 then g.touched ++ [k] else g.touched) := by
    have hsub : k ∈ g.touched → g.touched ++ [k] ⊆ g.touched := fun hk =>
      append_subset.mpr ⟨Subset.refl _, forall_mem_singleton.mpr hk⟩
    split <;> split
    · next hk => exact hsub hk
    · exact Subset.refl _
    · exact Subset.refl _
    · next hrows => exact hsub (not_not.mp fun hk => hrows (by rw [h k hk]; rfl))
  intro j hj
  have hjk : j ≠ k := fun hjk => hj (hmarked (mem_append_right _ (hjk ▸ mem_cons_self)))
  show update g.slots k _ j = _
  rw [update_of_ne hjk]
  exact h j fun hj' => hj (hmarked (mem_append_left _ hj'))

theorem Clean.collect (h : g.Clean) : g.collect.2 = g.emptied := by
  have hslots : (fun k => if k ∈ g.touched then .zero else g.slots k) = fun _ =>
      SeriesAgg.zero := by
    funext k
    split
    · rfl
    · next hk => exact h k hk
  rw [StepGrid.collect, emptied, hslots]

end StepGrid

/-! ## A new grid -/

variable {g : StepGrid F} {S : Set ℤ} {ts : ℤ} {xs ys : List (Sample F)}

/-- The timestamps of a span. -/
def inSpan : Option (ℤ × ℤ) → Set ℤ
  | none => ∅
  | some s => Set.Icc s.1 s.2

/-- The buckets of a span fit into 64-bit integers: where the first one starts, where the last
timestamp is, and how far it is from there. -/
def SpanFits (span : Option (ℤ × ℤ)) (step : ℤ) : Prop :=
  ∀ s ∈ span, 0 < step → -2 ^ 63 ≤ floorTo s.1 step ∧ s.2 < 2 ^ 63 ∧
    s.2 - floorTo s.1 step < 2 ^ 63 - 1

section New

variable {lo hi : ℤ} (hstep : 0 < step) (hfit : SpanFits (some (lo, hi)) step)
  {slots : ℤ → SeriesAgg F} {touched : List ℤ}

include hstep hfit

theorem SpanFits.bucketStart_eq (hlo : lo ≤ ts) (hhi : ts ≤ hi) :
    bucketStart ts step = floorTo ts step := by
  obtain ⟨hfirst, hlast, -⟩ := hfit (lo, hi) rfl hstep
  rw [Metrics.bucketStart_eq, gridStart, if_neg (not_le.mpr hstep)]
  exact wrap_floorTo hstep (hfirst.trans (floorTo_mono hstep hlo)) (hhi.trans_lt hlast)

theorem SpanFits.distance (hlo : lo ≤ ts) (hhi : ts ≤ hi) :
    (wrap (bucketStart ts step - bucketStart lo step)).tdiv step =
        (floorTo ts step - floorTo lo step) / step ∧
      0 ≤ (floorTo ts step - floorTo lo step) / step ∧
      (floorTo ts step - floorTo lo step) / step ≤ (floorTo hi step - floorTo lo step) / step ∧
      (floorTo hi step - floorTo lo step) / step < 2 ^ 63 - 1 := by
  obtain ⟨-, -, hwide⟩ := hfit (lo, hi) rfl hstep
  dsimp only at hwide
  have hnonneg := sub_nonneg.mpr (floorTo_mono hstep hlo)
  have hle := sub_le_sub_right (floorTo_mono hstep hhi) (floorTo lo step)
  have hlast := floorTo_le (x := hi) hstep
  rw [hfit.bucketStart_eq hstep hlo hhi, hfit.bucketStart_eq hstep le_rfl (hlo.trans hhi),
    wrap_eq (by omega) (by omega), Int.tdiv_eq_ediv_of_nonneg hnonneg]
  refine ⟨rfl, Int.ediv_nonneg hnonneg hstep.le, Int.ediv_le_ediv hstep hle, ?_⟩
  have := Int.ediv_le_self step (hnonneg.trans hle)
  omega

omit [Float64 F] in
theorem SpanFits.fits_sparse {first : ℤ} :
    (⟨first, step, none, slots, touched⟩ : StepGrid F).Fits step (inSpan (some (lo, hi))) := by
  have hbucket : ∀ ts ∈ inSpan (some (lo, hi)), bucketStart ts step = gridStart ts step := by
    rintro ts ⟨hlo, hhi⟩
    rw [hfit.bucketStart_eq hstep hlo hhi, gridStart, if_neg (not_le.mpr hstep)]
  refine ⟨hbucket, fun ts hts => ⟨_, rfl, hbucket ts hts⟩,
    fun ts hts ts' hts' k k' hk hk' hlt => ?_⟩
  rw [← hbucket ts hts, ← hbucket ts' hts']
  rwa [← Option.some.inj hk, ← Option.some.inj hk'] at hlt

omit [Float64 F] in
theorem SpanFits.fits_dense {n : ℤ}
    (hn : n = (floorTo hi step - floorTo lo step) / step + 1) (hmax : n ≤ maxDenseBuckets) :
    (⟨bucketStart lo step, step, some n.toNat, slots, touched⟩ : StepGrid F).Fits step
      (inSpan (some (lo, hi))) := by
  have hnot : ¬ step ≤ 0 := not_le.mpr hstep
  have hstart : ∀ ts, gridStart ts step = floorTo ts step := fun _ => if_neg hnot
  obtain ⟨hfirst, hlast, hwide⟩ := hfit (lo, hi) rfl hstep
  dsimp only at hfirst hlast hwide
  -- the slot of a timestamp, and where it stands
  have hslot : ∀ ts ∈ inSpan (some (lo, hi)), StepGrid.slot
      ⟨bucketStart lo step, step, some n.toNat, slots, touched⟩ ts =
        some ((floorTo ts step - floorTo lo step) / step) ∧
      (floorTo ts step - floorTo lo step) / step * step = floorTo ts step - floorTo lo step := by
    rintro ts ⟨hlo, hhi⟩
    obtain ⟨hdist, hnonneg, hle, -⟩ := hfit.distance hstep hlo hhi
    have hmax' : n ≤ 2 ^ 18 := hmax
    refine ⟨?_, Int.ediv_mul_cancel (Int.dvd_sub (dvd_floorTo ts step) (dvd_floorTo lo step))⟩
    have hindex : StepGrid.indexOf
        ⟨bucketStart lo step, step, some n.toNat, slots, touched⟩ ts =
          (floorTo ts step - floorTo lo step) / step := by
      rw [StepGrid.indexOf, if_neg hnot]
      exact (congrArg (Int.bmod · (2 ^ 32)) hdist).trans (Int.bmod_eq_of_le (by omega) (by omega))
    simp only [StepGrid.slot, hindex]
    exact if_neg (by omega)
  refine ⟨fun ts ⟨hlo, hhi⟩ => ?_, fun ts hts => ⟨_, (hslot ts hts).1, ?_⟩,
    fun ts hts ts' hts' k k' hk hk' hlt => ?_⟩
  · rw [hstart]
    exact hfit.bucketStart_eq hstep hlo hhi
  · obtain ⟨hlo, hhi⟩ : lo ≤ ts ∧ ts ≤ hi := hts
    have hle := floorTo_mono hstep hlo
    have hts' := floorTo_le (x := ts) hstep
    have hinner : wrap (floorTo ts step - floorTo lo step) = floorTo ts step - floorTo lo step :=
      wrap_eq (by omega) (by omega)
    rw [StepGrid.startOf]
    dsimp only
    rw [(hslot ts ⟨hlo, hhi⟩).2, hfit.bucketStart_eq hstep le_rfl (hlo.trans hhi), hstart,
      hinner, wrap_eq (by omega) (by omega)]
    omega
  · rw [hstart, hstart]
    rw [← Option.some.inj ((hslot ts hts).1.symm.trans hk),
      ← Option.some.inj ((hslot ts' hts').1.symm.trans hk')] at hlt
    have := Int.mul_lt_mul_of_pos_right hlt hstep
    rw [(hslot ts hts).2, (hslot ts' hts').2] at this
    omega

end New

theorem StepGrid.Fits.holds (h : g.Fits step S) (hempty : g.emptied = g) : g.Holds step S [] := by
  refine ⟨h, nofun, fun k => ?_, ?_, fun k => ?_⟩
  · rw [← hempty]
    rfl
  · rw [← hempty]
    exact nodup_nil
  · rw [← hempty]
    exact ⟨fun hk => absurd hk not_mem_nil, fun ⟨x, hx, _⟩ => absurd hx not_mem_nil⟩

theorem StepGrid.clean_of_emptied (h : g.emptied = g) : g.Clean := by
  rw [← h]
  exact fun _ _ => rfl

/-- **A grid for a span that fits** is set up, and empty. -/
theorem exists_newStepGrid {span : Option (ℤ × ℤ)} (hfit : SpanFits span step)
    (hspan : ∀ s ∈ span, s.1 ≤ s.2) :
    ∃ g : StepGrid F, newStepGrid span step = some g ∧ g.Holds step (inSpan span) [] ∧
      g.emptied = g := by
  have hnew : ∀ {g : StepGrid F}, newStepGrid span step = some g → g.Fits step (inSpan span) →
      g.emptied = g → ∃ g : StepGrid F, newStepGrid span step = some g ∧
        g.Holds step (inSpan span) [] ∧ g.emptied = g :=
    fun heq hfits hempty => ⟨_, heq, hfits.holds hempty, hempty⟩
  by_cases hs : step ≤ 0
  · have hzero : ∀ ts, gridStart ts step = 0 := fun _ => if_pos hs
    refine hnew (if_pos hs) ⟨fun ts _ => ?_, fun ts _ => ⟨0, rfl, ?_⟩,
      fun ts _ ts' _ k k' hk hk' hlt => ?_⟩ rfl
    · rw [hzero]
      rfl
    · rw [hzero]
      rfl
    · rw [← Option.some.inj hk, ← Option.some.inj hk'] at hlt
      exact absurd hlt (lt_irrefl 0)
  cases span with
  | none => exact hnew (if_neg hs) ⟨nofun, nofun, nofun⟩ rfl
  | some s =>
    obtain ⟨lo, hi⟩ := s
    have hpos := not_le.mp hs
    have hle : lo ≤ hi := hspan (lo, hi) rfl
    obtain ⟨hdist, hnonneg, -, hlt⟩ := hfit.distance hpos hle (le_refl hi)
    have hwrap : wrap ((wrap (bucketStart hi step - bucketStart lo step)).tdiv step + 1) =
        (floorTo hi step - floorTo lo step) / step + 1 := by
      rw [hdist]
      exact wrap_eq (by omega) (by omega)
    have heq : (newStepGrid (some (lo, hi)) step : Option (StepGrid F)) = _ := if_neg hs
    dsimp only at heq
    rw [hwrap] at heq
    by_cases hmax : maxDenseBuckets < (floorTo hi step - floorTo lo step) / step + 1
    · rw [if_pos hmax] at heq
      exact hnew heq (hfit.fits_sparse hpos) rfl
    · rw [if_neg hmax, if_neg (by omega)] at heq
      exact hnew heq (hfit.fits_dense hpos rfl (not_lt.mp hmax)) rfl

/-! ## Buckets and rows -/

theorem sum_rows_bucketsOf (step : ℤ) (xs : List (Sample F)) :
    ((bucketsOf step xs).map fun b => b.2.rows).sum = xs.length := by
  have hcount : ∀ b, (xs.filter fun x => gridStart x.ts step = b).length =
      (xs.map fun x => gridStart x.ts step).count b := by
    intro b
    rw [List.count, countP_map, countP_eq_length_filter]
    exact congrArg List.length (filter_congr fun x _ => (beq_eq_decide _ b).symm)
  rw [bucketsOf, map_map]
  simp only [comp_def, SeriesAgg.rows_of, hcount]
  rw [((perm_insertionSort (· ≤ ·) _).map _).sum_eq, sum_map_count_dedup_eq_length, length_map]

theorem length_eq_of_bucketsOf
    (h : bucketsOf step xs = bucketsOf step ys) : xs.length = ys.length := by
  rw [← sum_rows_bucketsOf step xs, h, sum_rows_bucketsOf]

theorem bucketsOf_perm [Float64.Exact F] (hxs : NoNaN xs)
    (h : xs.Perm ys) (step : ℤ) : bucketsOf step xs = bucketsOf step ys := by
  have hkeys : (xs.map fun x => gridStart x.ts step).dedup.insertionSort (· ≤ ·) =
      (ys.map fun x => gridStart x.ts step).dedup.insertionSort (· ≤ ·) :=
    List.Perm.eq_of_pairwise (fun _ _ _ _ => le_antisymm) (pairwise_insertionSort _ _)
      (pairwise_insertionSort _ _)
      ((perm_insertionSort _ _).trans ((h.map _).dedup.trans (perm_insertionSort _ _).symm))
  rw [bucketsOf, bucketsOf, hkeys]
  refine map_congr_left fun b _ => ?_
  rw [SeriesAgg.of_perm (fun x hx => hxs x (mem_of_mem_filter hx)) (h.filter _)]

end OtelStorage.Metrics
