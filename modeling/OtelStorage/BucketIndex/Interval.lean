import OtelStorage.BucketIndex.Block
import OtelStorage.Foundation.SortedList

/-!
# Block intervals

An interval is the exact set of blocks a part covers, stored as its bounds and the gaps inside
them.  `Interval.blocks` is the set an encoding denotes --- empty when the encoding is not
valid --- and the lemmas of this file say that the operations of the source compute on encodings
what their names say about sets: `contains` is inclusion, `union` is union, `intersect` is
intersection.

Each of them goes through the list of runs.  `runs_canonical` turns a valid encoding into spread
runs, and `Canonical.ofMerged_spec` turns spread runs back into the valid encoding with exactly
these runs.
-/

namespace OtelStorage.BucketIndex

open Runs SortedList List

/-- A run of blocks, from `min` to `max` inclusive: one an interval skips, or one it holds. -/
structure Gap where
  min : Block
  max : Block
  deriving DecidableEq, Repr

/-- The run on the line of block keys. -/
def Gap.run (g : Gap) : Run := ⟨g.min.key, g.max.key⟩

/-- The blocks between `min` and `max` except those in `gaps`. -/
structure Interval where
  min : Block
  max : Block
  gaps : List Gap
  deriving DecidableEq, Repr

/-- The zero value, which is *unset*. -/
instance : Inhabited Interval := ⟨⟨⟨0, 0⟩, ⟨0, 0⟩, []⟩⟩

/-- The ends name blocks of one term, in order. -/
def validRun (lo hi : Block) : Bool := decide (1 ≤ lo.n) && lo.term == hi.term && !hi.less lo

namespace Interval

/-- The loop of `valid` over the gaps, from the low end `lo` of the run being read. -/
def validFrom (max : Block) : Block → List Gap → Bool
  | lo, [] => validRun lo max
  | lo, g :: gs =>
      if g.max.less g.min || !lo.less g.min || !g.max.less max then false
      else if !validRun lo g.min.prev then false
      else validFrom max g.max.next gs

variable (iv : Interval) {rs : List Gap} {r : Gap} {b : Block}

/-- The interval names a real set of blocks, in its one canonical form. -/
def valid : Bool :=
  if iv.max.less iv.min then false else validFrom iv.max iv.min iv.gaps

/-- The runs between the gaps, from `lo`. -/
def runsFrom (max : Block) : Block → List Gap → List Gap
  | lo, [] => [⟨lo, max⟩]
  | lo, g :: gs => ⟨lo, g.min.prev⟩ :: runsFrom max g.max.next gs

/-- The ascending runs of blocks the interval holds. -/
def runs : List Gap := runsFrom iv.max iv.min iv.gaps

/-- The sweep of `contains`: every run of the second list lies in the first run of the first
list that does not end before it. -/
def containsRuns : List Gap → List Gap → Bool
  | _, [] => true
  | hs, r :: rs =>
      match hs.dropWhile fun h => h.max.less r.min with
      | [] => false
      | h :: hs' =>
          if r.min.less h.min || h.max.less r.max then false else containsRuns (h :: hs') rs

/-- `iv` covers what `o` covers; an unset interval neither contains nor is contained. -/
def contains (o : Interval) : Bool :=
  if !iv.valid || !o.valid then false else containsRuns iv.runs o.runs

/-- The order `fromRuns` sorts runs by. -/
def gapLE (a b : Gap) : Prop :=
  a.min.less b.min = true ∨ (a.min = b.min ∧ b.max.less a.max = false)

instance : DecidableRel gapLE := fun _ _ => inferInstanceAs (Decidable (_ ∨ _))

/-- Coalesce the sorted runs `rs` into `last`, the run being grown.  The test is on `prev` of the
new run: the top of a term's numbers is a legal block, and its `next` is in another term. -/
def coalesceFrom : Gap → List Gap → List Gap
  | last, [] => [last]
  | last, r :: rs =>
      if !last.max.less r.min.prev then coalesceFrom ⟨last.min, maxBlock last.max r.max⟩ rs
      else last :: coalesceFrom r rs

/-- The gaps between runs. -/
def gapsFrom : Gap → List Gap → List Gap
  | _, [] => []
  | a, b :: bs => ⟨a.max.next, b.min.prev⟩ :: gapsFrom b bs

/-- The bounds-and-gaps form of a list of coalesced runs. -/
def ofMerged : List Gap → Interval
  | [] => default
  | r :: rs => ⟨r.min, ((r :: rs).getLast (cons_ne_nil r rs)).max, gapsFrom r rs⟩

/-- Sort, coalesce and derive the canonical form.  A run naming a block numbered 0 makes the whole
set unset. -/
def fromRuns (rs : List Gap) : Interval :=
  match rs.insertionSort gapLE with
  | [] => default
  | r :: rs =>
    if (r :: rs).any (fun g => g.min.n == 0) then default else ofMerged (coalesceFrom r rs)

/-- The set of blocks either covers, ignoring an unset operand. -/
def union (o : Interval) : Interval :=
  if !o.valid then iv else if !iv.valid then o else fromRuns (iv.runs ++ o.runs)

/-- How many blocks the interval covers, 0 if unset. -/
def len : UInt64 :=
  if !iv.valid then 0 else iv.runs.foldl (fun n r => n + (r.max.n - r.min.n + 1)) 0

/-- The run two runs share, if they share any. -/
def interRun (ra rb : Gap) : List Gap :=
  let lo := maxBlock ra.min rb.min
  let hi := minBlock ra.max rb.max
  if !hi.less lo then [⟨lo, hi⟩] else []

/-- The two-pointer sweep of `intersect`; `fuel` bounds the pointer moves left. -/
def intersectRuns : ℕ → List Gap → List Gap → List Gap
  | fuel + 1, ra :: as, rb :: bs =>
      interRun ra rb ++ if ra.max.less rb.max then intersectRuns fuel as (rb :: bs)
        else intersectRuns fuel (ra :: as) bs
  | _, _, _ => []

/-- The set of blocks both cover, unset when they share none. -/
def intersect (a b : Interval) : Interval :=
  if !a.valid || !b.valid then default
  else fromRuns (intersectRuns (a.runs.length + b.runs.length) a.runs b.runs)

/-- The intervals share a block. -/
def meets (a b : Interval) : Bool := (intersect a b).valid

/-- The set of blocks an encoding denotes. -/
def blocks : Set Block :=
  {b | iv.valid = true ∧ Covers (iv.runs.map Gap.run) b.key}

/-! ## Runs of a valid interval -/

theorem validRun_iff (lo hi : Block) : validRun lo hi = true ↔
    1 ≤ lo.key % 2 ^ 64 ∧ lo.key / 2 ^ 64 = hi.key / 2 ^ 64 ∧ lo.key ≤ hi.key := by
  unfold validRun
  rw [Bool.and_eq_true, Bool.and_eq_true, decide_eq_true_iff, beq_iff_eq, Bool.not_eq_true',
    Block.less_eq_false_iff, Block.term_eq_iff, UInt64.le_iff_toNat_le, Block.n_toNat, and_assoc]
  rfl

/-- What the runs of a valid interval are: each within one term and nonempty, and all spread. -/
structure Canonical (rs : List Gap) : Prop where
  good : ∀ r ∈ rs, validRun r.min r.max = true
  spread : Spread (rs.map Gap.run)

theorem canonical_cons : Canonical (r :: rs) ↔
    validRun r.min r.max = true ∧ (∀ s ∈ rs, r.max.key + 1 < s.min.key) ∧ Canonical rs := by
  constructor
  · intro h
    obtain ⟨hr, hrs⟩ := pairwise_cons.mp h.spread
    refine ⟨h.good r mem_cons_self, ?_, fun s hs => h.good s (mem_cons_of_mem r hs), hrs⟩
    intro s hs
    exact hr s.run (mem_map_of_mem hs)
  · rintro ⟨hr, hlt, hrs⟩
    refine ⟨forall_mem_cons.mpr ⟨hr, hrs.good⟩, pairwise_cons.mpr ⟨?_, hrs.spread⟩⟩
    intro s' hs'
    obtain ⟨s, hs, rfl⟩ := mem_map.mp hs'
    exact hlt s hs

theorem runsFrom_canonical {max : Block} : ∀ {gs : List Gap} {lo : Block},
    validFrom max lo gs = true →
      Canonical (runsFrom max lo gs) ∧ ∀ r ∈ runsFrom max lo gs, lo.key ≤ r.min.key
  | [], lo, h => by
      refine ⟨⟨?_, pairwise_singleton _ _⟩, ?_⟩
      · intro r hr
        rw [mem_singleton.mp hr]
        exact h
      · intro r hr
        rw [mem_singleton.mp hr]
  | g :: gs, lo, h => by
      unfold validFrom at h
      split at h
      · cases h
      split at h
      · cases h
      next hgap hrun =>
      simp only [Bool.or_eq_true, Bool.not_eq_true', Block.less_iff, Block.less_eq_false_iff,
        not_or, not_lt, not_le] at hgap
      obtain ⟨⟨hg, hlo⟩, hmax⟩ := hgap
      rw [Bool.not_eq_true', Bool.not_eq_false] at hrun
      obtain ⟨hcan, hlow⟩ := runsFrom_canonical h
      have hbound := max.key_lt
      have hnext : g.max.next.key = g.max.key + 1 := Block.key_next (by omega)
      have hprev : g.min.prev.key = g.min.key - 1 := Block.key_prev (by omega)
      refine ⟨canonical_cons.mpr ⟨hrun, ?_, hcan⟩, ?_⟩
      · intro s hs
        have := hlow s hs
        rw [hprev]
        omega
      intro r hr
      rcases mem_cons.mp hr with rfl | hr
      · exact le_rfl
      · have := hlow r hr
        omega

variable {iv}

theorem runs_canonical (h : iv.valid = true) : Canonical iv.runs := by
  unfold valid at h
  split at h
  · cases h
  · exact (runsFrom_canonical h).1

theorem runsFrom_ne_nil (max lo : Block) (gs : List Gap) : runsFrom max lo gs ≠ [] := by
  cases gs <;> exact cons_ne_nil _ _

theorem Canonical.ofMerged_spec (h : Canonical (r :: rs)) :
    (ofMerged (r :: rs)).valid = true ∧ (ofMerged (r :: rs)).runs = r :: rs := by
  suffices hfrom : ∀ (rs : List Gap) (r : Gap), Canonical (r :: rs) →
      r.min.key ≤ ((r :: rs).getLast (cons_ne_nil r rs)).max.key ∧
      validFrom ((r :: rs).getLast (cons_ne_nil r rs)).max r.min (gapsFrom r rs) = true ∧
      runsFrom ((r :: rs).getLast (cons_ne_nil r rs)).max r.min (gapsFrom r rs) = r :: rs by
    obtain ⟨hle, hvalid, hruns⟩ := hfrom rs r h
    have hless : (ofMerged (r :: rs)).max.less (ofMerged (r :: rs)).min = false :=
      (Block.less_eq_false_iff _ _).mpr hle
    refine ⟨?_, hruns⟩
    unfold valid
    rw [hless]
    exact hvalid
  intro rs
  induction rs with
  | nil =>
    intro r h
    obtain ⟨hr, -, -⟩ := canonical_cons.mp h
    exact ⟨((validRun_iff _ _).mp hr).2.2, hr, rfl⟩
  | cons s rs ih =>
    intro r h
    obtain ⟨hr, hlt, hrs⟩ := canonical_cons.mp h
    obtain ⟨hle, hvalid, hruns⟩ := ih s hrs
    have hrs' := hlt s mem_cons_self
    have hbound := s.min.key_lt
    have hrle := ((validRun_iff _ _).mp hr).2.2
    have hnext : r.max.next.key = r.max.key + 1 := Block.key_next (by omega)
    have hprev : s.min.prev.key = s.min.key - 1 := Block.key_prev (by omega)
    rw [getLast_cons (cons_ne_nil s rs)]
    refine ⟨by omega, ?_, ?_⟩
    · unfold gapsFrom validFrom
      simp only [Block.next_prev (show 0 < s.min.key by omega),
        Block.prev_next (show r.max.key + 1 < 2 ^ 128 by omega), hr, hvalid]
      rw [if_neg]
      · rfl
      · simp only [Bool.or_eq_true, Bool.not_eq_true', Block.less_iff, Block.less_eq_false_iff,
          not_or, not_lt, not_le]
        omega
    · unfold gapsFrom runsFrom
      rw [Block.next_prev (by omega), Block.prev_next (by omega), hruns]

/-! ## Coalescing -/

theorem coalesceFrom_ne_nil : ∀ (rs : List Gap) (last : Gap), coalesceFrom last rs ≠ []
  | [], last => cons_ne_nil last []
  | r :: rs, last => by
      unfold coalesceFrom
      split
      · exact coalesceFrom_ne_nil rs _
      · exact cons_ne_nil _ _

theorem validRun_grow {last : Gap} (hlast : validRun last.min last.max = true)
    (hr : validRun r.min r.max = true) (hle : last.min.key ≤ r.min.key)
    (htouch : r.min.key - 1 ≤ last.max.key) :
    validRun last.min (maxBlock last.max r.max) = true := by
  rw [validRun_iff] at hlast hr ⊢
  rw [key_maxBlock]
  rcases Nat.le_total last.max.key r.max.key with h | h
  · rw [max_eq_right h]
    omega
  · rw [max_eq_left h]
    omega

theorem coalesceFrom_spec : ∀ (rs : List Gap) (last : Gap),
    (∀ r ∈ last :: rs, validRun r.min r.max = true) →
    (last :: rs).Pairwise (fun r s => r.min.key ≤ s.min.key) →
      Canonical (coalesceFrom last rs) ∧
      (∀ r ∈ coalesceFrom last rs, last.min.key ≤ r.min.key) ∧
      ∀ x, Covers ((coalesceFrom last rs).map Gap.run) x ↔ Covers ((last :: rs).map Gap.run) x
  | [], last, hgood, _ => by
      refine ⟨⟨hgood, pairwise_singleton _ _⟩, ?_, fun x => Iff.rfl⟩
      intro r hr
      rw [mem_singleton.mp hr]
  | r :: rs, last, hgood, hsorted => by
      obtain ⟨hlast, hgood'⟩ := forall_mem_cons.mp hgood
      obtain ⟨hr, hrs⟩ := forall_mem_cons.mp hgood'
      obtain ⟨hmin, hsorted'⟩ := pairwise_cons.mp hsorted
      obtain ⟨hrmin, hsorted''⟩ := pairwise_cons.mp hsorted'
      have hle := hmin r mem_cons_self
      have hlast' := (validRun_iff _ _).mp hlast
      have hr' := (validRun_iff _ _).mp hr
      have hprev : r.min.prev.key = r.min.key - 1 := Block.key_prev (by omega)
      unfold coalesceFrom
      split
      · next htouch =>
        rw [Bool.not_eq_true', Block.less_eq_false_iff, hprev] at htouch
        -- the grown run stands in for `last` and `r`
        have hgrown := validRun_grow hlast hr hle htouch
        obtain ⟨hcan, hlow, hcov⟩ := coalesceFrom_spec rs ⟨last.min, maxBlock last.max r.max⟩
          (forall_mem_cons.mpr ⟨hgrown, hrs⟩)
          (pairwise_cons.mpr ⟨fun s hs => hmin s (mem_cons_of_mem r hs), hsorted''⟩)
        refine ⟨hcan, hlow, fun x => ?_⟩
        simp only [hcov, map_cons, covers_cons, ← or_assoc]
        refine or_congr_left ?_
        rw [← Run.holds_grow (r := last.run) (s := r.run) hle htouch, Gap.run, key_maxBlock]
        rfl
      · next hapart =>
        rw [Bool.not_eq_true', Bool.not_eq_false, Block.less_iff, hprev] at hapart
        obtain ⟨hcan, hlow, hcov⟩ := coalesceFrom_spec rs r hgood' hsorted'
        refine ⟨canonical_cons.mpr ⟨hlast, ?_, hcan⟩, ?_, fun x => ?_⟩
        · intro s hs
          have := hlow s hs
          omega
        · intro s hs
          rcases mem_cons.mp hs with rfl | hs
          · exact le_rfl
          · exact hle.trans (hlow s hs)
        · simp only [map_cons, covers_cons, hcov]

theorem gapLE_total (a b : Gap) : gapLE a b ∨ gapLE b a := by
  unfold gapLE
  simp only [Block.less_iff, Block.less_eq_false_iff]
  rcases Nat.lt_trichotomy a.min.key b.min.key with h | h | h
  · exact .inl (.inl h)
  · have := Block.key_injective h
    rcases Nat.le_total a.max.key b.max.key with h' | h'
    · exact .inl (.inr ⟨this, h'⟩)
    · exact .inr (.inr ⟨this.symm, h'⟩)
  · exact .inr (.inl h)

theorem gapLE_trans (a b c : Gap) (hab : gapLE a b) (hbc : gapLE b c) : gapLE a c := by
  unfold gapLE at *
  simp only [Block.less_iff, Block.less_eq_false_iff] at *
  rcases hab with hab | ⟨hab, hab'⟩
  · rcases hbc with hbc | ⟨hbc, hbc'⟩
    · exact .inl (hab.trans hbc)
    · exact .inl (hbc ▸ hab)
  · rcases hbc with hbc | ⟨hbc, hbc'⟩
    · exact .inl (hab ▸ hbc)
    · exact .inr ⟨hab.trans hbc, hab'.trans hbc'⟩

instance : Std.Total gapLE := ⟨gapLE_total⟩
instance : IsTrans Gap gapLE := ⟨gapLE_trans⟩

theorem gapLE.min_le {a b : Gap} (h : gapLE a b) : a.min.key ≤ b.min.key := by
  rcases h with h | ⟨h, -⟩
  · exact ((Block.less_iff _ _).mp h).le
  · rw [h]

/-- `fromRuns` encodes the set its runs cover; it is unset exactly when there are none. -/
theorem fromRuns_spec (hgood : ∀ r ∈ rs, validRun r.min r.max = true) :
    ((fromRuns rs).valid = true ↔ rs ≠ []) ∧
      ∀ b : Block, b ∈ (fromRuns rs).blocks ↔ Covers (rs.map Gap.run) b.key := by
  have hperm := perm_insertionSort gapLE rs
  have hsorted := pairwise_insertionSort gapLE rs
  have hgood' : ∀ r ∈ rs.insertionSort gapLE, validRun r.min r.max = true :=
    fun r hr => hgood r (hperm.mem_iff.mp hr)
  have hcover : ∀ x, Covers ((rs.insertionSort gapLE).map Gap.run) x ↔
      Covers (rs.map Gap.run) x := by
    intro x
    simp only [Covers, mem_map, hperm.mem_iff]
  unfold fromRuns
  cases hs : rs.insertionSort gapLE with
  | nil =>
    have hnil : rs = [] := by
      rw [hs] at hperm
      exact hperm.nil_eq.symm
    subst hnil
    refine ⟨⟨fun h => absurd h (by decide), fun h => absurd rfl h⟩, fun b => ?_⟩
    exact ⟨fun h => absurd h.1 (by decide), fun h => absurd h not_covers_nil⟩
  | cons r rs' =>
    have hne : rs ≠ [] := by
      rintro rfl
      exact cons_ne_nil r rs' (hs.symm.trans rfl)
    rw [hs] at hgood' hsorted hcover
    have hnum : (r :: rs').any (fun g => g.min.n == 0) = false := by
      rw [any_eq_false]
      intro g hg
      have h1 := ((validRun_iff _ _).mp (hgood' g hg)).1
      rw [beq_iff_eq, ← UInt64.toNat_inj, Block.n_toNat]
      exact Nat.ne_of_gt h1
    obtain ⟨hcan, -, hcov⟩ := coalesceFrom_spec rs' r hgood' (hsorted.imp fun h => h.min_le)
    obtain ⟨m, ms, hm⟩ := exists_cons_of_ne_nil (coalesceFrom_ne_nil rs' r)
    rw [hm] at hcan hcov
    obtain ⟨hvalid, hruns⟩ := hcan.ofMerged_spec
    simp only [hnum, hm]
    refine ⟨⟨fun _ => hne, fun _ => hvalid⟩, fun b => ?_⟩
    rw [← hcover, ← hcov]
    constructor
    · rintro ⟨-, h⟩
      rw [← hruns]
      exact h
    · intro h
      refine ⟨hvalid, ?_⟩
      rw [← hruns] at h
      exact h

/-! ## The operations on sets -/

theorem mem_blocks : b ∈ iv.blocks ↔
    iv.valid = true ∧ ∃ r ∈ iv.runs, r.min.key ≤ b.key ∧ b.key ≤ r.max.key := by
  simp only [blocks, Set.mem_ofPred_eq, Covers, mem_map, exists_exists_and_eq_and]
  rfl

theorem blocks_of_not_valid (h : iv.valid = false) : iv.blocks = ∅ := by
  ext b
  simp [mem_blocks, h]

theorem valid_iff_nonempty : iv.valid = true ↔ iv.blocks.Nonempty := by
  constructor
  · intro h
    obtain ⟨r, rs, hr⟩ := exists_cons_of_ne_nil (runsFrom_ne_nil iv.max iv.min iv.gaps)
    have hmem : r ∈ iv.runs := by rw [runs, hr]; exact mem_cons_self
    have hle := ((validRun_iff _ _).mp ((runs_canonical h).good r hmem)).2.2
    exact ⟨r.min, mem_blocks.mpr ⟨h, r, hmem, le_rfl, hle⟩⟩
  · rintro ⟨b, hb⟩
    exact hb.1

theorem exists_block_of_key {x : ℕ} (h : x < 2 ^ 128) : ∃ b : Block, b.key = x := by
  refine ⟨⟨UInt64.ofNat (x / 2 ^ 64), UInt64.ofNat (x % 2 ^ 64)⟩, ?_⟩
  simp only [Block.key, UInt64.toNat_ofNat']
  omega

/-- The sweep decides whether each run lies inside one run that is held. -/
theorem containsRuns_iff (rs hs : List Gap) (hhs : Canonical hs) (hrs : Canonical rs) :
    containsRuns hs rs = true ↔
      ∀ r ∈ rs, ∃ h ∈ hs, h.min.key ≤ r.min.key ∧ r.max.key ≤ h.max.key := by
  induction rs generalizing hs with
  | nil => simp [containsRuns]
  | cons r rs ih =>
    obtain ⟨hr, hlt, hrs'⟩ := canonical_cons.mp hrs
    have hrle := ((validRun_iff _ _).mp hr).2.2
    -- a run that reaches `r`, or one after it, is not dropped
    have hkept : ∀ h ∈ hs, r.min.key ≤ h.max.key →
        h ∈ hs.dropWhile fun h => h.max.less r.min := fun h hh hle =>
      mem_dropWhile_of_not hh ((Block.less_eq_false_iff _ _).mpr hle)
    rw [containsRuns]
    cases hd : hs.dropWhile fun h => h.max.less r.min with
    | nil =>
      refine ⟨fun h => absurd h Bool.false_ne_true, fun h => ?_⟩
      obtain ⟨k, hk, -, hk'⟩ := h r mem_cons_self
      have := hkept k hk (hrle.trans hk')
      rw [hd] at this
      cases this
    | cons h hs' =>
      have hsub : (h :: hs').Sublist hs := hd ▸ dropWhile_sublist _
      have hcan : Canonical (h :: hs') :=
        ⟨fun k hk => hhs.good k (hsub.mem hk), hhs.spread.sublist (hsub.map _)⟩
      obtain ⟨-, hafter, -⟩ := canonical_cons.mp hcan
      have hreach : r.min.key ≤ h.max.key := by
        have := head_dropWhile_not (fun h => h.max.less r.min) (l := hs)
          (by rw [hd]; exact cons_ne_nil h hs')
        simp only [hd, head_cons] at this
        exact (Block.less_eq_false_iff _ _).mp this
      simp only
      split
      · next hout =>
        rw [Bool.or_eq_true, Block.less_iff, Block.less_iff] at hout
        refine ⟨fun h => absurd h Bool.false_ne_true, fun hall => ?_⟩
        obtain ⟨k, hk, hk1, hk2⟩ := hall r mem_cons_self
        have hmem := hkept k hk (hrle.trans hk2)
        rw [hd] at hmem
        rcases mem_cons.mp hmem with rfl | hmem
        · omega
        · have := hafter k hmem
          omega
      next hin =>
      rw [Bool.or_eq_true, Block.less_iff, Block.less_iff] at hin
      rw [ih (h :: hs') hcan hrs', forall_mem_cons]
      constructor
      · intro hall
        refine ⟨⟨h, hsub.mem mem_cons_self, by omega, by omega⟩, fun s hs => ?_⟩
        obtain ⟨k, hk, hk'⟩ := hall s hs
        exact ⟨k, hsub.mem hk, hk'⟩
      · rintro ⟨-, hall⟩ s hs
        obtain ⟨k, hk, hk1, hk2⟩ := hall s hs
        have hsle := ((validRun_iff _ _).mp (hrs'.good s hs)).2.2
        have hrs := hlt s hs
        exact ⟨k, hd ▸ hkept k hk (by omega), hk1, hk2⟩

variable (iv) (o : Interval) {lo hi : Block}

theorem contains_iff : iv.contains o = true ↔
    iv.valid = true ∧ o.valid = true ∧ o.blocks ⊆ iv.blocks := by
  by_cases hiv : iv.valid = true
  swap
  · simp [contains, hiv]
  by_cases ho : o.valid = true
  swap
  · simp [contains, ho]
  have hciv := runs_canonical hiv
  have hco := runs_canonical ho
  simp only [contains, hiv, ho, Bool.not_true, Bool.or_self, Bool.false_eq_true, if_false, true_and]
  rw [containsRuns_iff _ _ hciv hco]
  constructor
  · intro hall b hb
    obtain ⟨-, r, hr, hlo, hhi⟩ := mem_blocks.mp hb
    obtain ⟨h, hh, hlo', hhi'⟩ := hall r hr
    exact mem_blocks.mpr ⟨hiv, h, hh, hlo'.trans hlo, hhi.trans hhi'⟩
  · intro hsub r hr
    have hrle := ((validRun_iff _ _).mp (hco.good r hr)).2.2
    have hbound := r.max.key_lt
    -- the run is a stretch inside the union of the held runs
    obtain ⟨h', hh', hlo, hhi⟩ := hciv.spread.exists_run hrle (fun x hx hx' => by
      obtain ⟨b, rfl⟩ := exists_block_of_key (x := x) (by omega)
      exact (hsub (mem_blocks.mpr ⟨ho, r, hr, hx, hx'⟩)).2)
    obtain ⟨h, hh, rfl⟩ := mem_map.mp hh'
    exact ⟨h, hh, hlo, hhi⟩

theorem union_valid_iff : (iv.union o).valid = true ↔ iv.valid = true ∨ o.valid = true := by
  by_cases ho : o.valid = true
  swap
  · simp [union, ho]
  by_cases hiv : iv.valid = true
  swap
  · simp [union, hiv, ho]
  simp only [union, hiv, ho, Bool.not_true, Bool.false_eq_true, if_false, or_self, iff_true]
  refine (fromRuns_spec ?_).1.mpr ?_
  · intro r hr
    exact (mem_append.mp hr).elim ((runs_canonical hiv).good r) ((runs_canonical ho).good r)
  · exact append_ne_nil_of_left_ne_nil (runsFrom_ne_nil _ _ _) _

theorem union_blocks : (iv.union o).blocks = iv.blocks ∪ o.blocks := by
  by_cases ho : o.valid = true
  swap
  · simp [union, ho, blocks_of_not_valid (Bool.not_eq_true _ ▸ ho)]
  by_cases hiv : iv.valid = true
  swap
  · simp [union, hiv, ho, blocks_of_not_valid (Bool.not_eq_true _ ▸ hiv)]
  simp only [union, hiv, ho, Bool.not_true, Bool.false_eq_true, if_false]
  ext b
  rw [(fromRuns_spec _).2, map_append, covers_append]
  · simp [blocks, hiv, ho]
  · intro r hr
    exact (mem_append.mp hr).elim ((runs_canonical hiv).good r) ((runs_canonical ho).good r)

theorem validRun_inter {s : Gap} (hr : validRun r.min r.max = true)
    (hs : validRun s.min s.max = true)
    (hle : (maxBlock r.min s.min).key ≤ (minBlock r.max s.max).key) :
    validRun (maxBlock r.min s.min) (minBlock r.max s.max) = true := by
  rw [validRun_iff] at hr hs ⊢
  rw [key_maxBlock, key_minBlock] at hle ⊢
  rcases Nat.le_total r.min.key s.min.key with h | h
  · omega
  · omega

theorem interRun_spec {ra rb : Gap} (hra : validRun ra.min ra.max = true)
    (hrb : validRun rb.min rb.max = true) :
    (∀ r ∈ interRun ra rb, validRun r.min r.max = true) ∧
      ∀ x, Covers ((interRun ra rb).map Gap.run) x ↔ ra.run.Holds x ∧ rb.run.Holds x := by
  have hrun : Gap.run ⟨maxBlock ra.min rb.min, minBlock ra.max rb.max⟩ =
      ⟨Max.max ra.run.lo rb.run.lo, Min.min ra.run.hi rb.run.hi⟩ := by
    rw [Gap.run, key_maxBlock, key_minBlock]
    rfl
  by_cases h : (minBlock ra.max rb.max).less (maxBlock ra.min rb.min) = true
  · simp only [interRun, h, Bool.not_true, Bool.false_eq_true, if_false]
    refine ⟨nofun, fun x => ?_⟩
    rw [← Run.holds_inter, ← hrun]
    refine ⟨fun hc => absurd hc not_covers_nil, fun hx => ?_⟩
    exact absurd (hx.1.trans hx.2) (not_le.mpr ((Block.less_iff _ _).mp h))
  rw [Bool.not_eq_true] at h
  simp only [interRun, h, Bool.not_false, if_true]
  refine ⟨fun r hr => ?_, fun x => ?_⟩
  · rw [mem_singleton.mp hr]
    exact validRun_inter hra hrb ((Block.less_eq_false_iff _ _).mp h)
  · rw [← Run.holds_inter, ← hrun, map_cons, covers_cons, map_nil]
    simp only [not_covers_nil, or_false]

theorem lt_of_covers {x : ℕ}
    (h : ∀ s ∈ rs, r.max.key + 1 < s.min.key) (hx : Covers (rs.map Gap.run) x) :
    r.max.key < x := by
  obtain ⟨s', hs', hlo, -⟩ := hx
  obtain ⟨s, hs, rfl⟩ := mem_map.mp hs'
  exact (Nat.lt_of_succ_lt (h s hs)).trans_le hlo

/-- The two-pointer sweep emits the runs of the intersection.  The pointer that moves is on the
run that ends first, which the runs after the other one lie wholly above. -/
theorem intersectRuns_spec (fuel : ℕ) (as bs : List Gap) (ha : Canonical as) (hb : Canonical bs)
    (hfuel : as.length + bs.length ≤ fuel) :
    (∀ r ∈ intersectRuns fuel as bs, validRun r.min r.max = true) ∧
      ∀ x, Covers ((intersectRuns fuel as bs).map Gap.run) x ↔
        Covers (as.map Gap.run) x ∧ Covers (bs.map Gap.run) x := by
  induction fuel generalizing as bs with
  | zero =>
    obtain rfl : as = [] := eq_nil_of_length_eq_zero (by omega)
    exact ⟨nofun, fun x => by simp [intersectRuns, not_covers_nil]⟩
  | succ fuel ih =>
    cases as with
    | nil =>
      exact ⟨nofun, fun x => by simp [intersectRuns, not_covers_nil]⟩
    | cons ra as =>
      cases bs with
      | nil =>
        exact ⟨nofun, fun x => by simp [intersectRuns, not_covers_nil]⟩
      | cons rb bs =>
        obtain ⟨hra, hafterA, has⟩ := canonical_cons.mp ha
        obtain ⟨hrb, hafterB, hbs⟩ := canonical_cons.mp hb
        obtain ⟨hgoodOut, hcovOut⟩ := interRun_spec hra hrb
        simp only [length_cons] at hfuel
        rw [intersectRuns]
        by_cases hlt : ra.max.less rb.max = true
        · rw [if_pos hlt]
          rw [Block.less_iff] at hlt
          obtain ⟨hgood, hcov⟩ := ih as (rb :: bs) has hb (by simp only [length_cons]; omega)
          refine ⟨fun r hr => (mem_append.mp hr).elim (hgoodOut r) (hgood r), fun x => ?_⟩
          simp only [map_append, covers_append, hcovOut, hcov, map_cons, covers_cons]
          have hdisj : ra.run.Holds x → ¬ Covers (bs.map Gap.run) x := fun hx hc =>
            absurd (lt_of_covers hafterB hc) (not_lt.mpr (hx.2.trans hlt.le))
          rw [or_and_right]
          exact or_congr_left (and_congr_right fun hx => (or_iff_left (hdisj hx)).symm)
        rw [if_neg hlt]
        rw [Block.less_iff, not_lt] at hlt
        obtain ⟨hgood, hcov⟩ := ih (ra :: as) bs ha hbs (by simp only [length_cons]; omega)
        refine ⟨fun r hr => (mem_append.mp hr).elim (hgoodOut r) (hgood r), fun x => ?_⟩
        simp only [map_append, covers_append, hcovOut, hcov, map_cons, covers_cons]
        have hdisj : rb.run.Holds x → ¬ Covers (as.map Gap.run) x := fun hx hc =>
          absurd (lt_of_covers hafterA hc) (not_lt.mpr (hx.2.trans hlt))
        rw [and_or_left]
        exact or_congr_left (and_congr_left fun hx => (or_iff_left (hdisj hx)).symm)

theorem intersect_blocks (a b : Interval) : (intersect a b).blocks = a.blocks ∩ b.blocks := by
  by_cases ha : a.valid = true
  swap
  · have hempty : a.blocks = ∅ := blocks_of_not_valid (Bool.not_eq_true _ ▸ ha)
    rw [hempty, Set.empty_inter]
    simp only [intersect, ha, Bool.not_false, Bool.true_or, if_true]
    exact blocks_of_not_valid rfl
  by_cases hb : b.valid = true
  swap
  · have hempty : b.blocks = ∅ := blocks_of_not_valid (Bool.not_eq_true _ ▸ hb)
    rw [hempty, Set.inter_empty]
    simp only [intersect, hb, Bool.not_false, Bool.or_true, if_true]
    exact blocks_of_not_valid rfl
  simp only [intersect, ha, hb, Bool.not_true, Bool.or_self, Bool.false_eq_true, if_false]
  obtain ⟨hgood, hcov⟩ := intersectRuns_spec _ _ _ (runs_canonical ha) (runs_canonical hb) le_rfl
  ext x
  rw [(fromRuns_spec hgood).2, hcov]
  simp [blocks, ha, hb]

theorem meets_iff (a b : Interval) : meets a b = true ↔ (a.blocks ∩ b.blocks).Nonempty := by
  rw [meets, valid_iff_nonempty, intersect_blocks]

/-! ## Single runs -/

theorem valid_run (h : validRun lo hi = true) : (⟨lo, hi, []⟩ : Interval).valid = true := by
  have hless : hi.less lo = false :=
    (Block.less_eq_false_iff _ _).mpr ((validRun_iff _ _).mp h).2.2
  simp only [valid, hless, Bool.false_eq_true, if_false, validFrom, h]

theorem mem_blocks_run (h : validRun lo hi = true) :
    b ∈ (⟨lo, hi, []⟩ : Interval).blocks ↔ lo.key ≤ b.key ∧ b.key ≤ hi.key := by
  simp [mem_blocks, valid_run h, runs, runsFrom]

theorem validRun_self (h : 1 ≤ b.n) : validRun b b = true := by
  rw [validRun_iff, ← Block.n_toNat]
  exact ⟨UInt64.le_iff_toNat_le.mp h, rfl, le_rfl⟩

theorem blocks_single (h : 1 ≤ b.n) : (⟨b, b, []⟩ : Interval).blocks = {b} := by
  ext x
  rw [mem_blocks_run (validRun_self h), ← le_antisymm_iff, Set.mem_singleton_iff]
  exact ⟨fun hx => (Block.key_injective hx).symm, fun hx => hx ▸ rfl⟩

end Interval

end OtelStorage.BucketIndex
