import Mathlib
import OtelStorage.Metrics.SampleMerge

/-!
# What a bucket's representative stands for

A bucket is folded sample by sample, and some of the samples are representatives of earlier buckets.
`IsRep` says what the representative of a group of raw samples is, without a fold: the last sample,
the first one, the earliest of the least or greatest value, or a total, a count or a mean at the
bucket's start.  `isRep_fold` is the algebra of rollups: folding samples that stand for groups gives
the representative of all groups together.

How much arithmetic this takes depends on the aggregation (`Supports`).  Last and First need none,
Min and Max the order of floats, with NaN outside it (`Compares`), and the totals exact arithmetic
(`Arithmetic`).  Binary floats are of the second kind and the rationals of the third.
-/

namespace OtelStorage.Metrics

open Grid List

/-! ## Floats -/

namespace Float64

/-- Arithmetic without rounding. -/
structure Arithmetic (F : Type*) [Float64 F] : Prop where
  assoc : ∀ a b c : F, a + b + c = a + (b + c)
  comm : ∀ a b : F, a + b = b + a
  zero : ∀ a : F, 0 + a = a
  one : ∀ a : F, a * 1 = a
  comp : ∀ a x : F, a - (a + x) + x = 0 ∧ x - (a + x) + a = 0
  finite : ∀ a : F, isInf a = false ∧ isNaN a = false
  cancel : ∀ a w : F, w ≠ 0 → a / w * w = a
  ne : ∀ w : F, lt 0 w = true → w ≠ 0
  pos : ∀ a b : F, lt 0 a = true → lt 0 b = true → lt 0 (a + b) = true

theorem arithmetic_rat : Arithmetic ℚ where
  assoc := add_assoc
  comm := add_comm
  zero := zero_add
  one := mul_one
  comp a x := ⟨by ring, by ring⟩
  finite _ := ⟨rfl, rfl⟩
  cancel a w hw := div_mul_cancel₀ a hw
  ne w hw := (of_decide_eq_true hw).ne'
  pos a b ha hb := decide_eq_true (add_pos (of_decide_eq_true ha) (of_decide_eq_true hb))

open Float.Model in
/-- The place of a binary float in their order. -/
def rank : UnpackedFloat → ℤ ×ₗ ℤ ×ₗ ℤ
  | .infinity .negative => toLex (-2, toLex (0, 0))
  | .finite .negative m e _ => toLex (-1, toLex (-e, -m))
  | .zero _ => toLex (0, toLex (0, 0))
  | .finite .positive m e _ => toLex (1, toLex (e, m))
  | .infinity .positive => toLex (2, toLex (0, 0))
  | .notANumber => toLex (0, toLex (0, 0))

open Float.Model in
theorem unpacked_lt_iff (a b : UnpackedFloat) :
    a.lt b = true ↔ a.isNaN = false ∧ b.isNaN = false ∧ rank a < rank b := by
  rcases a with ⟨_ | _⟩ | _ | _ | ⟨_ | _, m, e, hm⟩ <;>
    rcases b with ⟨_ | _⟩ | _ | _ | ⟨_ | _, m', e', hm'⟩ <;>
    simp [UnpackedFloat.lt, UnpackedFloat.compare, UnpackedFloat.isNaN, rank,
      Prod.Lex.toLex_lt_toLex, Ordering.then_eq_lt, Ordering.then_eq_gt, compare_lt_iff_lt,
      compare_gt_iff_gt, Ordering.swap_eq_lt]
  -- the two infinities
  rfl

/-- Binary floats. -/
instance : Float64 Float where
  lt := Float.lt
  le := Float.le
  abs := Float.abs
  isNaN := Float.isNaN
  isInf := Float.isInf

theorem float_lt_iff (a b : Float) : lt a b = true ↔
    isNaN a = false ∧ isNaN b = false ∧ rank a.toModel.unpack < rank b.toModel.unpack := by
  refine Iff.trans ?_ (unpacked_lt_iff a.toModel.unpack b.toModel.unpack)
  exact decide_eq_true_iff

theorem compares_float : Compares Float where
  irrefl a := by
    rw [← Bool.not_eq_true, float_lt_iff]
    exact fun h => absurd h.2.2 (lt_irrefl _)
  trans a b c hab hbc := by
    rw [float_lt_iff] at hab hbc ⊢
    exact ⟨hab.1, hbc.2.1, hab.2.2.trans hbc.2.2⟩
  nan a b ha := by
    rw [← Bool.not_eq_true, ← Bool.not_eq_true, float_lt_iff, float_lt_iff, ha]
    exact ⟨fun h => absurd h.1 nofun, fun h => absurd h.2.1 nofun⟩
  weak a b c hb hac := by
    rw [float_lt_iff] at hac
    rw [float_lt_iff, float_lt_iff]
    rcases lt_or_ge (rank a.toModel.unpack) (rank b.toModel.unpack) with hab | hba
    · exact .inl ⟨hac.1, hb, hab⟩
    · exact .inr ⟨hb, hac.2.1, hba.trans_lt hac.2.2⟩

end Float64

variable {F : Type*} [Float64 F] {xs : List (Sample F)} {agg : Aggregation} {start : ℤ}
  {r s : Sample F} {z : Sample F × RollupTag}

/-! ## Totals over groups -/

/-- The total of a measure over samples. -/
def totalOf (f : Sample F → F) (xs : List (Sample F)) : F := xs.foldl (fun a x => a + f x) 0

section Totals

variable (hF : Float64.Arithmetic F) (f : Sample F → F)

include hF

theorem foldl_total {α : Type*} (f : α → F) (a : F) (xs : List α) :
    xs.foldl (fun a x => a + f x) a = a + xs.foldl (fun a x => a + f x) 0 := by
  induction xs generalizing a with
  | nil => rw [foldl_nil, foldl_nil, hF.comm, hF.zero]
  | cons x xs ih => rw [foldl_cons, foldl_cons, ih, ih (0 + f x), hF.zero, hF.assoc]

theorem totalOf_singleton (x : Sample F) : totalOf f [x] = f x := hF.zero _

theorem totalOf_append (xs ys : List (Sample F)) :
    totalOf f (xs ++ ys) = totalOf f xs + totalOf f ys := by
  rw [totalOf, foldl_append, foldl_total hF]
  rfl

theorem totalOf_perm {ys : List (Sample F)} (h : xs.Perm ys) : totalOf f xs = totalOf f ys := by
  have hcomm : RightCommutative fun (a : F) (x : Sample F) => a + f x :=
    ⟨fun a x y => by rw [hF.assoc, hF.comm (f x), ← hF.assoc]⟩
  exact h.foldl_eq 0

theorem totalOf_flatMap {α : Type*} (g : α → List (Sample F)) (zs : List α) :
    totalOf f (zs.flatMap g) = zs.foldl (fun a z => a + totalOf f (g z)) 0 := by
  induction zs with
  | nil => rfl
  | cons z zs ih =>
    rw [flatMap_cons, totalOf_append hF, ih, foldl_cons, hF.zero]
    exact (foldl_total hF _ _ zs).symm

theorem totalOf_pos (hne : xs ≠ []) (f : Sample F → F)
    (h : ∀ x ∈ xs, Float64.lt 0 (f x) = true) : Float64.lt 0 (totalOf f xs) = true := by
  induction xs with
  | nil => exact absurd rfl hne
  | cons x xs ih =>
    have hx := h x mem_cons_self
    rw [← singleton_append, totalOf_append hF, totalOf_singleton hF]
    cases xs with
    | nil =>
      rw [totalOf, foldl_nil, hF.comm, hF.zero]
      exact hx
    | cons y ys =>
      exact hF.pos _ _ hx (ih (cons_ne_nil _ _) fun z hz => h z (mem_cons_of_mem x hz))

end Totals

/-! ## Extremes -/

/-- A value is preferred: before another in the order, or not NaN where the other is. -/
def preferred (before : F → F → Bool) (a b : F) : Bool :=
  before a b || Float64.isNaN b && !Float64.isNaN a

/-- The order Min looks for. -/
def lesser (a b : F) : Bool := preferred Float64.lt a b

/-- The order Max looks for. -/
def greater (a b : F) : Bool := preferred (fun a b => Float64.lt b a) a b

/-- A strict order in which values that neither precedes the other are alike. -/
structure Prefers (r : F → F → Bool) : Prop where
  irrefl : ∀ a, r a a = false
  trans : ∀ a b c, r a b = true → r b c = true → r a c = true
  weak : ∀ a b c, r a c = true → r a b = true ∨ r b c = true

theorem prefers_preferred {before : F → F → Bool} (irrefl : ∀ a, before a a = false)
    (trans : ∀ a b c, before a b = true → before b c = true → before a c = true)
    (nan : ∀ a b, Float64.isNaN a = true → before a b = false ∧ before b a = false)
    (weak : ∀ a b c, Float64.isNaN b = false → before a c = true →
      before a b = true ∨ before b c = true) : Prefers (preferred before) := by
  have hiff : ∀ a b, preferred before a b = true ↔
      before a b = true ∨ Float64.isNaN b = true ∧ Float64.isNaN a = false := by
    intro a b
    simp [preferred]
  -- what precedes something is not NaN
  have hnan : ∀ a b, preferred before a b = true → Float64.isNaN a = false := by
    intro a b hab
    rcases (hiff a b).mp hab with hab | hab
    · by_contra ha
      rw [(nan a b (Bool.not_eq_false _ ▸ ha)).1] at hab
      cases hab
    · exact hab.2
  refine ⟨fun a => ?_, fun a b c hab hbc => ?_, fun a b c hac => ?_⟩
  · rw [← Bool.not_eq_true, hiff, irrefl]
    rintro (h | ⟨h, h'⟩)
    · cases h
    · cases h.symm.trans h'
  · rw [hiff]
    rcases (hiff b c).mp hbc with hbc' | hbc'
    · rcases (hiff a b).mp hab with hab' | hab'
      · exact .inl (trans a b c hab' hbc')
      · rw [(nan b c hab'.1).1] at hbc'
        cases hbc'
    · exact .inr ⟨hbc'.1, hnan a b hab⟩
  · cases hb : Float64.isNaN b with
    | true => exact .inl ((hiff a b).mpr (.inr ⟨hb, hnan a c hac⟩))
    | false =>
      rcases (hiff a c).mp hac with hac' | hac'
      · exact (weak a b c hb hac').imp (fun h => (hiff a b).mpr (.inl h))
          fun h => (hiff b c).mpr (.inl h)
      · exact .inr ((hiff b c).mpr (.inr ⟨hac'.1, hb⟩))

theorem prefers_lesser (hF : Float64.Compares F) : Prefers (lesser (F := F)) :=
  prefers_preferred hF.irrefl hF.trans hF.nan hF.weak

theorem prefers_greater (hF : Float64.Compares F) : Prefers (greater (F := F)) :=
  prefers_preferred hF.irrefl (fun a b c hab hbc => hF.trans c b a hbc hab)
    (fun a b ha => (hF.nan a b ha).symm) fun a b c hb hac => (hF.weak c b a hb hac).symm

/-- The earliest of the samples no other is preferred to. -/
def Best (r : F → F → Bool) (xs : List (Sample F)) (s : Sample F) : Prop :=
  s ∈ xs ∧ ∀ x ∈ xs, r x.val s.val = false ∧ (r s.val x.val = false → s.ts ≤ x.ts)

/-! ## Representatives -/

/-- What an aggregation asks of the floats. -/
def Supports (F : Type*) [Float64 F] : Aggregation → Prop
  | .last | .first => True
  | .min | .max => Float64.Compares F
  | .sum | .count | .avg => Float64.Arithmetic F

/-- **The representative of a group** of raw samples, in the bucket that starts at `start`. -/
def IsRep (agg : Aggregation) (start : ℤ) (xs : List (Sample F)) (r : Sample F) : Prop :=
  match agg with
  | .last => r ∈ xs ∧ ∀ x ∈ xs, x.ts ≤ r.ts
  | .first => r ∈ xs ∧ ∀ x ∈ xs, r.ts ≤ x.ts
  | .min => Best lesser xs r
  | .max => Best greater xs r
  | .sum => r = ⟨start, totalOf (fun x => x.val * x.weight) xs, 1⟩
  | .count => r = ⟨start, totalOf Sample.weight xs, 1⟩
  | .avg => r = ⟨start, if xs.length = 1 then totalOf Sample.val xs
      else totalOf (fun x => x.val * x.weight) xs / totalOf Sample.weight xs,
      totalOf Sample.weight xs⟩

/-- A sample of a merge stands for a group: a raw one for itself, a representative for those of its
bucket. -/
def Stands (agg : Aggregation) (z : Sample F × RollupTag) (xs : List (Sample F)) : Prop :=
  if 0 < z.2.interval then z.2.agg = agg ∧ IsRep agg (floorTo z.1.ts z.2.interval) xs z.1
  else xs = [z.1]

theorem IsRep.perm (hF : Supports F agg) {ys : List (Sample F)}
    (h : xs.Perm ys) (hr : IsRep agg start xs r) : IsRep agg start ys r := by
  cases agg with
  | last | first | min | max => exact ⟨h.mem_iff.mp hr.1, fun y hy => hr.2 y (h.mem_iff.mpr hy)⟩
  | sum | count => exact hr.trans (by rw [totalOf_perm hF _ h])
  | avg =>
    refine hr.trans ?_
    rw [totalOf_perm hF Sample.weight h, totalOf_perm hF Sample.val h,
      totalOf_perm hF (fun x => x.val * x.weight) h, h.length_eq]

omit [Float64 F] in
theorem Best.unique {r : F → F → Bool} {u : Sample F} (hs : Best r xs s) (hu : Best r xs u) :
    s.ts = u.ts := by
  obtain ⟨hus, hlt⟩ := hs.2 u hu.1
  obtain ⟨hsu, hgt⟩ := hu.2 s hs.1
  exact le_antisymm (hlt hsu) (hgt hus)

/-- **A group of distinct timestamps has one representative.** -/
theorem IsRep.unique (hxs : ∀ x ∈ xs, ∀ y ∈ xs, x.ts = y.ts → x = y) {r' : Sample F}
    (h : IsRep agg start xs r) (h' : IsRep agg start xs r') : r = r' := by
  cases agg with
  | last => exact hxs r h.1 r' h'.1 (le_antisymm (h'.2 r h.1) (h.2 r' h'.1))
  | first => exact hxs r h.1 r' h'.1 (le_antisymm (h.2 r' h'.1) (h'.2 r h.1))
  | min | max => exact hxs r h.1 r' h'.1 (Best.unique h h')
  | sum | count | avg => exact h.trans h'.symm

/-- The aggregations whose representative is one of the samples. -/
def Aggregation.selects : Aggregation → Bool
  | .last | .first | .min | .max => true
  | .sum | .count | .avg => false

theorem IsRep.mem (hagg : agg.selects = true) (h : IsRep agg start xs r) : r ∈ xs := by
  cases agg with
  | last | first | min | max => exact h.1
  | sum | count | avg => cases hagg

theorem IsRep.ts (hagg : agg.selects = false) (h : IsRep agg start xs r) : r.ts = start := by
  cases agg with
  | last | first | min | max => cases hagg
  | sum | count | avg => rw [h]

/-! ## The fold -/

namespace BucketAcc

/-- What a sample adds to the count. -/
def counted (agg : Aggregation) (z : Sample F × RollupTag) : F :=
  if 0 < z.2.interval ∧ agg = .count then z.1.val else z.1.weight

/-- A bucket after some samples. -/
structure Folded (agg : Aggregation) (zs : List (Sample F × RollupTag)) (b : BucketAcc F) :
    Prop where
  n : b.n = zs.length
  kind : b.repAgg = none ∧ b.agg = agg ∨ b.repAgg = some agg
  last : zs ≠ [] → IsRep .last 0 (zs.map Prod.fst) b.last
  first : zs ≠ [] → IsRep .first 0 (zs.map Prod.fst) b.first
  min : Float64.Compares F → zs ≠ [] → zs.Pairwise (fun a c => a.1.ts ≤ c.1.ts) →
    Best lesser (zs.map Prod.fst) b.min
  max : Float64.Compares F → zs ≠ [] → zs.Pairwise (fun a c => a.1.ts ≤ c.1.ts) →
    Best greater (zs.map Prod.fst) b.max
  comp : Float64.Arithmetic F → b.wcomp = 0
  wsum : Float64.Arithmetic F → b.wsum = zs.foldl (fun a z => a + z.1.val * z.1.weight) 0
  weight : Float64.Arithmetic F → b.nWeighted = zs.foldl (fun a z => a + z.1.weight) 0
  count : Float64.Arithmetic F → b.count = zs.foldl (fun a z => a + counted agg z) 0

theorem Folded.new {a : Aggregation} {r : Option Aggregation}
    (h : r = none ∧ a = agg ∨ r = some agg) : Folded agg [] (BucketAcc.new a r : BucketAcc F) :=
  ⟨rfl, h, fun h => absurd rfl h, fun h => absurd rfl h, fun _ h => absurd rfl h,
    fun _ h => absurd rfl h, fun _ => rfl, fun _ => rfl, fun _ => rfl, fun _ => rfl⟩

end BucketAcc

theorem mem_extend {α : Type*} {P : α → α → Prop} {xs : List α} {r s : α} {c : Prop} [Decidable c]
    (h : r ∈ xs ∧ ∀ x ∈ xs, P x r) (hself : P s s) (hs : c → ∀ x ∈ xs, P x s) (hr : ¬ c → P s r) :
    (if c then s else r) ∈ xs ++ [s] ∧ ∀ x ∈ xs ++ [s], P x (if c then s else r) := by
  split
  · next hc =>
      exact ⟨mem_concat_self, forall_mem_append.mpr ⟨hs hc, forall_mem_singleton.mpr hself⟩⟩
  · next hc =>
    exact ⟨mem_append_left _ h.1, forall_mem_append.mpr ⟨h.2, forall_mem_singleton.mpr (hr hc)⟩⟩

theorem IsRep.extend_last (h : IsRep .last 0 xs r) (s : Sample F) :
    IsRep .last 0 (xs ++ [s]) (if r.ts < s.ts then s else r) := by
  refine mem_extend (P := fun x r : Sample F => x.ts ≤ r.ts) h le_rfl (fun hlt x hx => ?_) not_lt.mp
  exact (h.2 x hx).trans hlt.le

theorem IsRep.extend_first (h : IsRep .first 0 xs r) (s : Sample F) :
    IsRep .first 0 (xs ++ [s]) (if s.ts < r.ts then s else r) := by
  refine mem_extend (P := fun x r : Sample F => r.ts ≤ x.ts) h le_rfl (fun hlt x hx => ?_) not_lt.mp
  exact hlt.le.trans (h.2 x hx)

omit [Float64 F] in
theorem Best.extend {r : F → F → Bool} (hr : Prefers r) {b : Sample F}
    (h : Best r xs b) (hs : ∀ x ∈ xs, x.ts ≤ s.ts) :
    Best r (xs ++ [s]) (if r s.val b.val then s else b) := by
  refine mem_extend (P := fun x s : Sample F =>
      r x.val s.val = false ∧ (r s.val x.val = false → s.ts ≤ x.ts)) h
    ⟨hr.irrefl _, fun _ => le_rfl⟩ (fun hlt x hx => ?_)
    fun hle => ⟨Bool.not_eq_true _ ▸ hle, fun _ => hs b h.1⟩
  have hxb := (h.2 x hx).1
  refine ⟨?_, fun hsx => ?_⟩
  · by_contra hxs
    rw [hr.trans _ _ _ (Bool.not_eq_false _ ▸ hxs) hlt] at hxb
    cases hxb
  · rcases hr.weak s.val x.val b.val hlt with h' | h'
    · cases hsx.symm.trans h'
    · cases hxb.symm.trans h'

omit [Float64 F] in
theorem Best.singleton {r : F → F → Bool} (hr : Prefers r) (s : Sample F) : Best r [s] s :=
  ⟨mem_cons_self, fun x hx => by
    rw [mem_singleton.mp hx]
    exact ⟨hr.irrefl _, fun _ => le_rfl⟩⟩

namespace BucketAcc

variable {zs : List (Sample F × RollupTag)} {b : BucketAcc F}

theorem addWeighted_comp (hF : Float64.Arithmetic F) (h : b.wcomp = 0) (x : F) :
    (b.addWeighted x).wcomp = 0 := by
  rw [addWeighted]
  dsimp only
  rw [h, hF.zero]
  split
  · exact (hF.comp _ _).1
  · exact (hF.comp _ _).2

/-- **One sample more.** -/
theorem Folded.addCounted (h : Folded agg zs b) (z : Sample F × RollupTag) :
    Folded agg (zs ++ [z]) (b.addCounted z.1 (counted agg z)) := by
  have hfold : ∀ f : Sample F × RollupTag → F, (zs ++ [z]).foldl (fun a z => a + f z) 0 =
      zs.foldl (fun a z => a + f z) 0 + f z := fun f => foldl_append
  rw [BucketAcc.addCounted]
  split
  · next hn =>
    obtain rfl : zs = [] := length_eq_zero_iff.mp (h.n ▸ hn)
    have hself : ∀ x ∈ [z.1], x.ts = z.1.ts := fun x hx => by rw [mem_singleton.mp hx]
    exact { h with
      n := rfl
      last := fun _ => ⟨mem_cons_self, fun x hx => (hself x hx).le⟩
      first := fun _ => ⟨mem_cons_self, fun x hx => (hself x hx).ge⟩
      min := fun hF _ _ => Best.singleton (prefers_lesser hF) z.1
      max := fun hF _ _ => Best.singleton (prefers_greater hF) z.1
      wsum := fun hF => (hF.zero _).symm
      weight := fun hF => (hF.zero _).symm
      count := fun hF => (hF.zero _).symm }
  next hn =>
  have hne : zs ≠ [] := fun hnil => hn (h.n.trans (by rw [hnil]; rfl))
  have hbefore : (zs ++ [z]).Pairwise (fun a c => a.1.ts ≤ c.1.ts) →
      zs.Pairwise (fun a c => a.1.ts ≤ c.1.ts) ∧ ∀ x ∈ zs.map Prod.fst, x.ts ≤ z.1.ts := by
    intro hord
    obtain ⟨hzs, -, hlast⟩ := pairwise_append.mp hord
    refine ⟨hzs, fun x hx => ?_⟩
    obtain ⟨y, hy, rfl⟩ := mem_map.mp hx
    exact hlast y hy z mem_cons_self
  have hmap : (zs ++ [z]).map Prod.fst = zs.map Prod.fst ++ [z.1] := map_append
  exact {
    n := by rw [length_append, ← h.n]; rfl
    kind := h.kind
    last := fun _ => hmap ▸ (h.last hne).extend_last z.1
    first := fun _ => hmap ▸ (h.first hne).extend_first z.1
    min := fun hF _ hord => by
      rw [hmap]
      obtain ⟨hzs, hlast⟩ := hbefore hord
      exact (h.min hF hne hzs).extend (prefers_lesser hF) hlast
    max := fun hF _ hord => by
      rw [hmap]
      obtain ⟨hzs, hlast⟩ := hbefore hord
      exact (h.max hF hne hzs).extend (prefers_greater hF) hlast
    comp := fun hF => addWeighted_comp hF (h.comp hF) _
    wsum := fun hF => by
      rw [hfold fun z => z.1.val * z.1.weight, ← h.wsum hF]
      rfl
    weight := fun hF => by
      rw [hfold fun z => z.1.weight, ← h.weight hF]
      rfl
    count := fun hF => by
      rw [hfold (counted agg), ← h.count hF]
      rfl }

theorem Folded.total (h : Folded agg zs b) (hF : Float64.Arithmetic F) :
    b.total = zs.foldl (fun a z => a + z.1.val * z.1.weight) 0 := by
  obtain ⟨hinf, hnan⟩ := hF.finite b.wsum
  rw [BucketAcc.total, hinf, hnan, h.comp hF, hF.comm, hF.zero, h.wsum hF]
  rfl

theorem Folded.put (h : Folded agg zs b) (hz : 0 < z.2.interval → z.2.agg = agg) :
    Folded agg (zs ++ [z]) (b.put z) := by
  rw [BucketAcc.put]
  split
  · next hi =>
    have hrep : b.repAgg.getD agg = agg := by
      rcases h.kind with ⟨hnone, -⟩ | hsome
      · rw [hnone]
        rfl
      · rw [hsome]
        rfl
    have hb : Folded agg zs { b with repAgg := some agg } := { h with kind := .inr rfl }
    have hcounted : (if agg = .count ∧ b.repAgg.getD agg = .count then z.1.val else z.1.weight) =
        counted agg z := by
      simp only [counted, hrep, and_self, hi, true_and]
    rw [BucketAcc.addRep, hz hi, hcounted, hrep]
    exact hb.addCounted z
  · next hi =>
    have hcounted : counted agg z = z.1.weight := if_neg fun hc => hi hc.1
    rw [BucketAcc.add, ← hcounted]
    exact h.addCounted z

theorem Folded.foldl {ys zs : List (Sample F × RollupTag)}
    (h : Folded agg ys b) (hz : ∀ z ∈ zs, 0 < z.2.interval → z.2.agg = agg) :
    Folded agg (ys ++ zs) (zs.foldl BucketAcc.put b) := by
  induction zs generalizing ys b with
  | nil => rwa [append_nil]
  | cons z zs ih =>
    have hput := h.put (hz z mem_cons_self)
    have hrest := ih hput fun z' hz' => hz z' (mem_cons_of_mem z hz')
    rwa [append_assoc, singleton_append] at hrest

end BucketAcc

variable {zs : List ((Sample F × RollupTag) × List (Sample F))}

/-! ## Groups of groups -/

/-- Samples with the groups they stand for. -/
structure Grouped (agg : Aggregation) (zs : List ((Sample F × RollupTag) × List (Sample F))) :
    Prop where
  stands : ∀ z ∈ zs, Stands agg z.1 z.2
  ne : ∀ z ∈ zs, z.2 ≠ []
  pos : agg = .avg → ∀ z ∈ zs, ∀ x ∈ z.2, Float64.lt 0 x.weight = true

theorem Grouped.subset {ys : List ((Sample F × RollupTag) × List (Sample F))} (h : Grouped agg zs)
    (hsub : ∀ z ∈ ys, z ∈ zs) : Grouped agg ys :=
  ⟨fun z hz => h.stands z (hsub z hz), fun z hz => h.ne z (hsub z hz),
    fun ha z hz => h.pos ha z (hsub z hz)⟩

theorem Stands.agg_eq (h : Stands agg z xs) (hi : 0 < z.2.interval) : z.2.agg = agg := by
  rw [Stands, if_pos hi] at h
  exact h.1

theorem Stands.isRep (hagg : agg.selects = true) (hF : Supports F agg) (h : Stands agg z xs)
    (start : ℤ) :
    IsRep agg start xs z.1 := by
  rw [Stands] at h
  split at h
  · cases agg with
    | last | first | min | max => exact h.2
    | sum | count | avg => cases hagg
  have hself : ∀ x ∈ [z.1], x.ts = z.1.ts := fun x hx => by rw [mem_singleton.mp hx]
  rw [h]
  cases agg with
  | last => exact ⟨mem_cons_self, fun x hx => (hself x hx).le⟩
  | first => exact ⟨mem_cons_self, fun x hx => (hself x hx).ge⟩
  | min => exact Best.singleton (prefers_lesser hF) z.1
  | max => exact Best.singleton (prefers_greater hF) z.1
  | sum | count | avg => cases hagg

omit [Float64 F] in
theorem Best.flatMap {r : F → F → Bool} (hr : Prefers r) (hzs : ∀ z ∈ zs, Best r z.2 z.1.1)
    (h : Best r (zs.map fun z => z.1.1) s) : Best r (zs.flatMap Prod.snd) s := by
  obtain ⟨z₀, hz₀, rfl⟩ := mem_map.mp h.1
  refine ⟨mem_flatMap.mpr ⟨z₀, hz₀, (hzs z₀ hz₀).1⟩, fun x hx => ?_⟩
  obtain ⟨z, hz, hx⟩ := mem_flatMap.mp hx
  obtain ⟨hzs₀, hts⟩ := h.2 z.1.1 (mem_map.mpr ⟨z, hz, rfl⟩)
  obtain ⟨hxz, hts'⟩ := (hzs z hz).2 x hx
  -- what precedes and what follows, by the representative of the group
  have hlt : ∀ a b c, r a b = false → r b c = false → r a c = false := by
    intro a b c hab hbc
    by_contra hac
    rcases hr.weak a b c (Bool.not_eq_false _ ▸ hac) with h' | h'
    · cases hab.symm.trans h'
    · cases hbc.symm.trans h'
  refine ⟨hlt _ _ _ hxz hzs₀, fun hsx => ?_⟩
  exact (hts (hlt _ _ _ hsx hxz)).trans (hts' (hlt _ _ _ hzs₀ hsx))

theorem Stands.totals (hF : Float64.Arithmetic F) (h : Stands agg z xs) (hne : xs ≠ [])
    (hpos : agg = .avg → ∀ x ∈ xs, Float64.lt 0 x.weight = true) :
    (agg = .sum ∨ agg = .avg → z.1.val * z.1.weight = totalOf (fun x => x.val * x.weight) xs) ∧
      (agg = .avg → z.1.weight = totalOf Sample.weight xs) ∧
      (agg = .count → BucketAcc.counted agg z = totalOf Sample.weight xs) := by
  rw [Stands] at h
  split at h
  · next hi =>
    refine ⟨?_, fun hagg => ?_, fun hagg => ?_⟩
    · rintro (rfl | rfl)
      · rw [h.2]
        exact hF.one _
      · rw [h.2]
        dsimp only
        split
        · next hlen =>
          obtain ⟨x, rfl⟩ := length_eq_one_iff.mp hlen
          simp only [totalOf_singleton hF]
        · exact hF.cancel _ _ (hF.ne _ (totalOf_pos hF hne _ (hpos rfl)))
    · subst hagg
      rw [h.2]
    · subst hagg
      rw [BucketAcc.counted, if_pos ⟨hi, rfl⟩, h.2]
  · next hi =>
    subst h
    refine ⟨fun _ => (totalOf_singleton hF (fun x => x.val * x.weight) z.1).symm,
      fun _ => (totalOf_singleton hF _ _).symm, fun _ => ?_⟩
    rw [BucketAcc.counted, if_neg fun hc => hi hc.1, totalOf_singleton hF]

theorem Stands.mean (hF : Float64.Arithmetic F) (h : Stands .avg z xs) (start : ℤ) :
    IsRep .avg start xs ⟨start, z.1.val, z.1.weight⟩ := by
  rw [Stands] at h
  split at h
  · rw [h.2]
    rfl
  · subst h
    show _ = _
    rw [if_pos length_singleton, totalOf_singleton hF, totalOf_singleton hF]

omit [Float64 F] in
theorem length_le_length_groups (h : ∀ z ∈ zs, z.2 ≠ []) :
    zs.length ≤ (zs.flatMap Prod.snd).length := by
  have hle := length_le_sum_of_one_le (zs.map fun z => z.2.length)
    (forall_mem_map.mpr fun z hz => length_pos_iff.mpr (h z hz))
  rwa [length_map, ← length_flatMap] at hle

theorem foldl_groups (hF : Float64.Arithmetic F) (f : Sample F × RollupTag → F) (g : Sample F → F)
    (h : ∀ z ∈ zs, f z.1 = totalOf g z.2) :
    (zs.map Prod.fst).foldl (fun a z => a + f z) 0 = totalOf g (zs.flatMap Prod.snd) := by
  rw [totalOf_flatMap hF, foldl_map]
  exact foldl_ext _ _ _ fun a z hz => by rw [h z hz]

/-- **Folding samples that stand for groups** gives the representative of all groups together. -/
theorem isRep_fold (hF : Supports F agg) (hzs : Grouped agg zs) (hne : zs ≠ [])
    (hord : agg = .min ∨ agg = .max → zs.Pairwise fun a c => a.1.1.ts ≤ c.1.1.ts) (start : ℤ)
    {a : Aggregation} {r : Option Aggregation} (hr : r = none ∧ a = agg ∨ r = some agg) :
    IsRep agg start (zs.flatMap Prod.snd)
      (((zs.map Prod.fst).foldl BucketAcc.put (.new a r)).result start) := by
  have hfold : BucketAcc.Folded agg (zs.map Prod.fst)
      ((zs.map Prod.fst).foldl BucketAcc.put (.new a r)) :=
    (BucketAcc.Folded.new hr).foldl fun z hz hi => by
      obtain ⟨y, hy, rfl⟩ := mem_map.mp hz
      exact (hzs.stands y hy).agg_eq hi
  obtain ⟨b, hb⟩ : ∃ b, b = (zs.map Prod.fst).foldl BucketAcc.put (.new a r) := ⟨_, rfl⟩
  rw [← hb] at hfold ⊢
  have hkind : b.repAgg.getD b.agg = agg := by
    rcases hfold.kind with ⟨hnone, hagg⟩ | hsome
    · rw [hnone, Option.getD_none, hagg]
    · rw [hsome, Option.getD_some]
  have hmap : zs.map Prod.fst ≠ [] := fun hnil => hne (map_eq_nil_iff.mp hnil)
  have hfst : (zs.map Prod.fst).map Prod.fst = zs.map fun z => z.1.1 := map_map
  have htotals := fun (hA : Float64.Arithmetic F) z hz =>
    (hzs.stands z hz).totals hA (hzs.ne z hz) fun h => hzs.pos h z hz
  rw [BucketAcc.result, hkind]
  cases agg with
  | last =>
    obtain ⟨hmem, hmax⟩ := hfst ▸ hfold.last hmap
    obtain ⟨z, hz, hzb⟩ := mem_map.mp hmem
    dsimp only
    rw [← hzb] at hmax ⊢
    refine ⟨mem_flatMap.mpr ⟨z, hz, ((hzs.stands z hz).isRep rfl hF 0).1⟩, fun x hx => ?_⟩
    obtain ⟨y, hy, hx⟩ := mem_flatMap.mp hx
    exact (((hzs.stands y hy).isRep rfl hF 0).2 x hx).trans (hmax y.1.1 (mem_map.mpr ⟨y, hy, rfl⟩))
  | first =>
    obtain ⟨hmem, hmin⟩ := hfst ▸ hfold.first hmap
    obtain ⟨z, hz, hzb⟩ := mem_map.mp hmem
    dsimp only
    rw [← hzb] at hmin ⊢
    refine ⟨mem_flatMap.mpr ⟨z, hz, ((hzs.stands z hz).isRep rfl hF 0).1⟩, fun x hx => ?_⟩
    obtain ⟨y, hy, hx⟩ := mem_flatMap.mp hx
    exact (hmin y.1.1 (mem_map.mpr ⟨y, hy, rfl⟩)).trans (((hzs.stands y hy).isRep rfl hF 0).2 x hx)
  | min =>
    have hbest := hfold.min hF hmap (pairwise_map.mpr (hord (.inl rfl)))
    rw [hfst] at hbest
    exact hbest.flatMap (prefers_lesser hF) fun z hz => (hzs.stands z hz).isRep rfl hF 0
  | max =>
    have hbest := hfold.max hF hmap (pairwise_map.mpr (hord (.inr rfl)))
    rw [hfst] at hbest
    exact hbest.flatMap (prefers_greater hF) fun z hz => (hzs.stands z hz).isRep rfl hF 0
  | sum =>
    have hsum := foldl_groups hF (fun z => z.1.val * z.1.weight) (fun x => x.val * x.weight)
      fun z hz => (htotals hF z hz).1 (.inl rfl)
    show Sample.mk start b.total 1 = _
    rw [hfold.total hF, hsum]
  | count =>
    have hcount := foldl_groups hF (BucketAcc.counted .count) Sample.weight
      fun z hz => (htotals hF z hz).2.2 rfl
    show Sample.mk start b.count 1 = _
    rw [hfold.count hF, hcount]
  | avg =>
    have hsum := foldl_groups hF (fun z => z.1.val * z.1.weight) (fun x => x.val * x.weight)
      fun z hz => (htotals hF z hz).1 (.inr rfl)
    have hweight := foldl_groups hF (fun z => z.1.weight) Sample.weight
      fun z hz => (htotals hF z hz).2.1 rfl
    dsimp only
    split
    · next hn =>
      -- one sample: what it stands for is the bucket
      rw [hfold.n, length_map] at hn
      obtain ⟨z, rfl⟩ := length_eq_one_iff.mp hn
      have hlast : b.last = z.1.1 := mem_singleton.mp (hfold.last hmap).1
      rw [hlast, flatMap_cons, flatMap_nil, append_nil]
      exact (hzs.stands z mem_cons_self).mean hF start
    next hn =>
    have hlen : (zs.flatMap Prod.snd).length ≠ 1 := by
      have hle := length_le_length_groups hzs.ne
      have hpos := length_pos_iff.mpr hne
      rw [hfold.n, length_map] at hn
      omega
    show _ = _
    rw [if_neg hlen, hfold.total hF, hfold.weight hF, hsum, hweight]

end OtelStorage.Metrics
