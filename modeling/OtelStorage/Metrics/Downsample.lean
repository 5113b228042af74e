import Mathlib.Algebra.Order.Field.Rat
import Mathlib.Data.Int.ConditionallyCompleteOrder
import Mathlib.Data.List.Sort
import OtelStorage.Foundation.Grid

/-!
# Rollups

A merge may roll samples up: those older than a tier's cutoff become one representative for each
bucket of the tier's width.  A part records the tiers it was rolled up under, so that a later merge
or a read knows which of its samples are representatives.

Values and weights are 64-bit floats of the source.  Here they are a type with the operations the
source uses on them, `Float64`; the rationals are the exact instance.
-/

namespace OtelStorage.Metrics

open Grid

/-- The float operations the source applies to values and weights. -/
class Float64 (F : Type*) extends Zero F, One F, Add F, Sub F, Mul F, Div F where
  lt : F → F → Bool
  le : F → F → Bool
  abs : F → F
  isNaN : F → Bool
  isInf : F → Bool

/-- Exact arithmetic. -/
instance : Float64 ℚ where
  lt a b := decide (a < b)
  le a b := decide (a ≤ b)
  abs a := if 0 ≤ a then a else -a
  isNaN _ := false
  isInf _ := false

namespace Float64

/-- Comparisons: NaN compares with nothing, and the rest is ordered up to equal values. -/
structure Compares (F : Type*) [Float64 F] : Prop where
  irrefl : ∀ a : F, lt a a = false
  trans : ∀ a b c : F, lt a b = true → lt b c = true → lt a c = true
  nan : ∀ a b : F, isNaN a = true → lt a b = false ∧ lt b a = false
  weak : ∀ a b c : F, isNaN b = false → lt a c = true → lt a b = true ∨ lt b c = true

theorem compares_rat : Compares ℚ where
  irrefl a := decide_eq_false (lt_irrefl a)
  trans a b c hab hbc := decide_eq_true ((of_decide_eq_true hab).trans (of_decide_eq_true hbc))
  nan _ _ h := absurd h nofun
  weak a b c _ hac := by
    rcases lt_or_ge a b with hab | hba
    · exact .inl (decide_eq_true hab)
    · exact .inr (decide_eq_true (hba.trans_lt (of_decide_eq_true hac)))

end Float64

/-- A sample of a series: timestamp, value and weight. -/
structure Sample (F : Type*) where
  ts : ℤ
  val : F
  weight : F
  deriving DecidableEq, Repr

/-- The least 64-bit integer. -/
def minInt64 : ℤ := -2 ^ 63

/-- The greatest. -/
def maxInt64 : ℤ := 2 ^ 63 - 1

/-- How the samples of a bucket collapse into one, in the order the source lists them. -/
inductive Aggregation where
  | last | first | min | max | sum | avg | count
  deriving DecidableEq, Repr

/-- The number of an aggregation in a layout. -/
def Aggregation.code : Aggregation → ℕ
  | last => 0 | first => 1 | min => 2 | max => 3 | sum => 4 | avg => 5 | count => 6

/-- Samples before the cutoff roll up into buckets of a width. -/
structure DownsampleTier where
  before : ℤ
  interval : ℤ
  agg : Aggregation
  deriving DecidableEq, Repr

/-- What a merged sample stands for: with interval 0 itself, otherwise a bucket of that width. -/
structure RollupTag where
  interval : ℤ
  before : ℤ
  agg : Aggregation
  deriving DecidableEq, Repr

/-- The tag of a raw sample. -/
def RollupTag.raw : RollupTag := ⟨0, 0, .last⟩

/-- Wider first, on equal widths the earlier cutoff. -/
def DownsampleTier.widestFirst (a b : DownsampleTier) : Prop :=
  b.interval < a.interval ∨ (b.interval = a.interval ∧ a.before ≤ b.before)

instance : DecidableRel DownsampleTier.widestFirst := fun _ _ => inferInstanceAs (Decidable (_ ∨ _))

/-- The widest tier a timestamp qualifies for, of tiers in any order. -/
def tierAt (tiers : List DownsampleTier) (ts : ℤ) : Option DownsampleTier :=
  tiers.foldl (fun best t =>
    if t.interval ≤ 0 ∨ t.before ≤ ts then best
    else match best with
      | none => some t
      | some b =>
          if b.interval < t.interval ∨ (b.interval = t.interval ∧ t.before < b.before) then some t
          else best) none

/-- What a sample of a source with this layout stands for. -/
def runTag (layout : List DownsampleTier) (ts : ℤ) : RollupTag :=
  match tierAt layout ts with
  | none => .raw
  | some t => ⟨t.interval, t.before, t.agg⟩

@[simp] theorem runTag_nil (ts : ℤ) : runTag [] ts = .raw := rfl

/-- The first tier of a list ordered widest first that a timestamp qualifies for. -/
def pickTier (active : List DownsampleTier) (ts : ℤ) : Option DownsampleTier :=
  active.find? fun t => ts < t.before

/-- The multiple of the width at or before a timestamp, in 64-bit integers. -/
def alignDown (ts interval : ℤ) : ℤ := wrap (floorTo ts interval)

/-- Width, aggregation, and whether the aggregation is that of the tiers applied. -/
def rollTarget (active : List DownsampleTier) (ts : ℤ) (tag : RollupTag) :
    ℤ × Aggregation × Bool :=
  let target : ℤ × Aggregation × Bool := match pickTier active ts with
    | some t => (t.interval, t.agg, true)
    | none => (0, .last, false)
  if target.1 < tag.interval then (tag.interval, tag.agg, false) else target

/-! ## Buckets -/

variable {F : Type*} [Float64 F]

/-- The running state of one bucket. -/
structure BucketAcc (F : Type*) where
  agg : Aggregation
  repAgg : Option Aggregation
  n : ℕ
  nWeighted : F
  count : F
  wsum : F
  wcomp : F
  min : Sample F
  max : Sample F
  first : Sample F
  last : Sample F

/-- An empty bucket. -/
def BucketAcc.new (agg : Aggregation) (repAgg : Option Aggregation) : BucketAcc F :=
  let zero : Sample F := ⟨0, 0, 0⟩
  ⟨agg, repAgg, 0, 0, 0, 0, 0, zero, zero, zero, zero⟩

namespace BucketAcc

/-- Compensated summation. -/
def addWeighted (b : BucketAcc F) (x : F) : BucketAcc F :=
  let t := b.wsum + x
  let comp := if Float64.le (Float64.abs x) (Float64.abs b.wsum) then b.wsum - t + x
    else x - t + b.wsum
  { b with wsum := t, wcomp := b.wcomp + comp }

/-- Fold a sample in, counting it as `counted`. -/
def addCounted (b : BucketAcc F) (s : Sample F) (counted : F) : BucketAcc F :=
  if b.n = 0 then
    { b with
      min := s, max := s, first := s, last := s
      wsum := s.val * s.weight, nWeighted := s.weight, count := counted, n := 1 }
  else
    let isMin := Float64.lt s.val b.min.val || Float64.isNaN b.min.val && !Float64.isNaN s.val
    let isMax := Float64.lt b.max.val s.val || Float64.isNaN b.max.val && !Float64.isNaN s.val
    let b' := { b with
      min := if isMin then s else b.min
      max := if isMax then s else b.max
      first := if s.ts < b.first.ts then s else b.first
      last := if b.last.ts < s.ts then s else b.last }
    let b' := b'.addWeighted (s.val * s.weight)
    { b' with nWeighted := b'.nWeighted + s.weight, count := b'.count + counted, n := b'.n + 1 }

/-- A raw sample. -/
def add (b : BucketAcc F) (s : Sample F) : BucketAcc F := b.addCounted s s.weight

/-- A representative rolled up by `agg`; one of a count adds its value to the count. -/
def addRep (b : BucketAcc F) (s : Sample F) (agg : Aggregation) : BucketAcc F :=
  let repAgg := b.repAgg.getD agg
  let counted := if agg = .count ∧ repAgg = .count then s.val else s.weight
  BucketAcc.addCounted { b with repAgg := some repAgg } s counted

/-- Fold a sample into a bucket: a representative as such. -/
def put (b : BucketAcc F) (z : Sample F × RollupTag) : BucketAcc F :=
  if 0 < z.2.interval then b.addRep z.1 z.2.agg else b.add z.1

/-- The compensated sum. -/
def total (b : BucketAcc F) : F :=
  if Float64.isInf b.wsum || Float64.isNaN b.wsum then b.wsum else b.wsum + b.wcomp

/-- The representative of the bucket that starts at `start`. -/
def result (b : BucketAcc F) (start : ℤ) : Sample F :=
  match b.repAgg.getD b.agg with
  | .first => b.first
  | .min => b.min
  | .max => b.max
  | .sum => ⟨start, b.total, 1⟩
  | .avg =>
      if b.n = 1 then ⟨start, b.last.val, b.last.weight⟩
      else ⟨start, b.total / b.nWeighted, b.nWeighted⟩
  | .count => ⟨start, b.count, 1⟩
  | .last => b.last

end BucketAcc

/-- A representative shares its bucket with another sample its tier covers. -/
def repBucketShared (samples : List (Sample F × RollupTag)) : Bool :=
  samples.zipIdx.any fun ((s, tag), i) =>
    let shares (j : ℕ) : Bool := (samples[j]?).any fun (u, _) =>
      u.ts < tag.before && alignDown u.ts tag.interval = alignDown s.ts tag.interval
    0 < tag.interval && (i ≠ 0 && shares (i - 1) || shares (i + 1))

/-- A bucket of a rollup: its width, 0 for a raw sample, and its start. -/
structure BucketKey where
  interval : ℤ
  start : ℤ
  deriving DecidableEq, Repr

/-- A bucket's representative, and the newest timestamp it covers. -/
structure RollupRep (F : Type*) where
  sample : Sample F
  interval : ℤ
  covered : ℤ

/-- By start, then width. -/
def RollupRep.le (a b : RollupRep F) : Prop :=
  a.sample.ts < b.sample.ts ∨ (a.sample.ts = b.sample.ts ∧ a.interval ≤ b.interval)

instance : DecidableRel (RollupRep.le (F := F)) := fun _ _ => inferInstanceAs (Decidable (_ ∨ _))

/-- Put a sample into its bucket, opened at its first sample. -/
def addToBucket (active : List DownsampleTier) (buckets : List (BucketKey × BucketAcc F))
    (x : Sample F × RollupTag) : List (BucketKey × BucketAcc F) :=
  let (interval, agg, fixed) := rollTarget active x.1.ts x.2
  let key : BucketKey :=
    if 0 < interval then ⟨interval, alignDown x.1.ts interval⟩ else ⟨0, x.1.ts⟩
  if buckets.any fun b => b.1 = key then
    buckets.map fun b => if b.1 = key then (b.1, b.2.put x) else b
  else buckets ++ [(key, BucketAcc.put (.new agg (if fixed then some agg else none)) x)]

/-- The representatives in order; on equal timestamps the finer one stays, and covers what the other
did. -/
def rollupOut : List (RollupRep F) → List (Sample F × ℤ)
  | [] => []
  | r :: rs => go (r.sample, r.covered) rs
where
  go (cur : Sample F × ℤ) : List (RollupRep F) → List (Sample F × ℤ)
    | [] => [cur]
    | r :: rs =>
        if cur.1.ts = r.sample.ts then go (cur.1, max cur.2 r.covered) rs
        else cur :: go (r.sample, r.covered) rs

/-- Roll samples up under tiers; with each the newest source timestamp it covers. -/
def downsampleCovering (samples : List (Sample F × RollupTag)) (tiers : List DownsampleTier) :
    List (Sample F × ℤ) :=
  let active := tiers.filter fun t => 0 < t.interval
  if samples.isEmpty || active.isEmpty && !repBucketShared samples then
    samples.map fun x => (x.1, x.1.ts)
  else
    let active := active.insertionSort DownsampleTier.widestFirst
    let buckets := samples.foldl (addToBucket active) []
    let reps := buckets.map fun b => RollupRep.mk (b.2.result b.1.start) b.1.interval b.2.last.ts
    rollupOut (reps.insertionSort RollupRep.le)

theorem downsampleCovering_raw {samples : List (Sample F × RollupTag)}
    (h : ∀ x ∈ samples, x.2 = .raw) :
    downsampleCovering samples [] = samples.map fun x => (x.1, x.1.ts) := by
  have hshared : repBucketShared samples = false := by
    rw [repBucketShared, List.any_eq_false]
    rintro ⟨⟨s, tag⟩, i⟩ hx
    have htag : tag = .raw := h (s, tag) (List.fst_mem_of_mem_zipIdx hx)
    simp [htag, RollupTag.raw]
  simp [downsampleCovering, hshared]

end OtelStorage.Metrics
