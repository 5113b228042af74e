import OtelStorage.Repair.Safety

/-!
# The units taken do not depend on their order

Every judgement of a commit is over members: of the entries it is made over, of the groups it finds
needed, of the units in.  The one place that names a unit first is the choice of an overlapping
unit, and it goes by the prefixes of the unit, not by its position.  So two commits over the same
units in different orders step alike, each unit having the same verdict in both (`Agree`), and the
loops end alike.
-/

namespace OtelStorage.Repair

open Delimited FirstOccurrence BucketIndex List

/-! ## The groups needed -/

theorem overlaps_congr {a a' : Interval} (h : a.blocks = a'.blocks) (b : Interval) :
    overlaps a b = overlaps a' b := by
  have hvalid : a.valid = a'.valid := by
    rw [Bool.eq_iff_iff, Interval.valid_iff_nonempty, Interval.valid_iff_nonempty, h]
  cases ha : a.valid with
  | true => rw [Interval.eq_of_blocks_eq ha (hvalid ▸ ha) h]
  | false => rw [overlaps, overlaps, ← hvalid, ha, Bool.false_and, Bool.false_and, Bool.false_and]

section Groups

variable {held held' : Interval} {derived derived' out : List Claim}

theorem not_needs_of_growPass (h : (growPass held derived out).length = out.length) {c : Claim}
    (hc : c ∈ derived) (hneeds : needs held out c = true) : c ∈ out := by
  induction derived with
  | nil => cases hc
  | cons a derived ih =>
    rw [growPass, foldl_cons] at h
    by_cases hout : out.contains a = true
    · rw [if_pos hout] at h
      rcases mem_cons.mp hc with rfl | hc
      · exact contains_iff_mem.mp hout
      · exact ih h hc
    rw [if_neg hout] at h
    by_cases ha : needs held out a = true
    · rw [if_pos ha] at h
      obtain ⟨new, heq, -⟩ := growPass_eq held derived (out ++ [a])
      rw [growPass] at heq
      rw [heq, length_append, length_append, length_singleton] at h
      omega
    · rw [if_neg ha] at h
      rcases mem_cons.mp hc with rfl | hc
      · exact absurd hneeds ha
      · exact ih h hc

theorem growPass_induct {T : Claim → Prop}
    (hT : ∀ c ∈ derived, (overlaps held c.blocks = true ∨
      ∃ n, T n ∧ overlaps n.group c.blocks = true) → T c) (hout : ∀ c ∈ out, T c) :
    ∀ c ∈ growPass held derived out, T c := by
  induction derived generalizing out with
  | nil => exact hout
  | cons a derived ih =>
    obtain ⟨ha, hderived⟩ := forall_mem_cons.mp hT
    rw [growPass, foldl_cons]
    refine ih hderived ?_
    split
    · exact hout
    split
    · rename_i hneeds
      intro c hc
      rcases mem_append.mp hc with hc | hc
      · exact hout c hc
      · rw [mem_singleton.mp hc]
        refine ha ?_
        rw [needs, Bool.or_eq_true, any_eq_true] at hneeds
        exact hneeds.imp_right (Exists.imp fun n h => h.imp_left (hout n))
    · exact hout

/-- **The groups found are the least set that overlaps ask for.** -/
theorem growing_spec (held : Interval) (derived : List Claim) :
    (∀ c ∈ derived, needs held ((growing held derived).settle []) c = true →
        c ∈ (growing held derived).settle []) ∧
      ∀ T : Claim → Prop, (∀ c ∈ derived, (overlaps held c.blocks = true ∨
        ∃ n, T n ∧ overlaps n.group c.blocks = true) → T c) →
        ∀ c ∈ (growing held derived).settle [], T c := by
  constructor
  · intro c hc hneeds
    have hnext := (growing held derived).next_settle []
    dsimp only [growing] at hnext
    split at hnext
    · rename_i hlen
      exact not_needs_of_growPass hlen hc hneeds
    · cases hnext
  · intro T hT
    refine (growing held derived).settle_induct (P := fun out => ∀ c ∈ out, T c) ?_
      (forall_mem_nil _)
    intro out out' hout hstep
    dsimp only [growing] at hstep
    split at hstep
    · cases hstep
    · cases hstep
      exact growPass_induct hT hout

theorem growing_subset (hheld : held.blocks = held'.blocks)
    (hderived : SameMembers derived derived') :
    ∀ c ∈ (growing held derived).settle [], c ∈ (growing held' derived').settle [] := by
  refine (growing_spec held derived).2 (fun c => c ∈ (growing held' derived').settle []) ?_
  intro c hc hover
  refine (growing_spec held' derived').1 c ((hderived c).mp hc) ?_
  rw [needs, Bool.or_eq_true, any_eq_true, ← overlaps_congr hheld]
  exact hover

theorem sameMembers_growing (hheld : held.blocks = held'.blocks)
    (hderived : SameMembers derived derived') :
    SameMembers ((growing held derived).settle []) ((growing held' derived').settle []) :=
  fun c => ⟨growing_subset hheld hderived c, growing_subset hheld.symm hderived.symm c⟩

end Groups

theorem mem_foldl_addClaim (cs out : List Claim) (c : Claim) :
    c ∈ cs.foldl addClaim out ↔ c ∈ out ∨ c ∈ cs := by
  have hnew : cs.foldl addClaim out = appendNew (fun _ => true) out cs := by
    refine foldl_ext _ _ _ fun out c _ => ?_
    rw [addClaim]
    cases out.contains c <;> rfl
  rw [hnew, mem_appendNew, and_iff_left rfl]

section Congr

variable {base base' added added' : List Entry} {catalog : List Claim} (x : Commit)

theorem sameMembers_lineageWith {all all' : List Entry} (h : SameMembers all all') :
    SameMembers (lineageWith all catalog) (lineageWith all' catalog) :=
  h.lineageOf.withClaims catalog

theorem sameMembers_derivedClaims {l m : Lineage} (hl : SameMembers l m)
    (h : SameMembers added added') :
    SameMembers (derivedClaims l added) (derivedClaims m added') := by
  intro c
  rw [derivedClaims, derivedClaims, mem_foldl_addClaim, mem_foldl_addClaim, mem_flatMap,
    mem_flatMap]
  simp only [h _, hl.ancestors _ _]

theorem mem_carriedClaims (c : Claim) :
    c ∈ carriedClaims added ↔ ∃ e ∈ added.filter fun e => e.claim.valid, e.claim = c := by
  have hmap : carriedClaims added =
      ((added.filter fun e => e.claim.valid).map Entry.claim).foldl addClaim [] :=
    foldl_map.symm
  rw [hmap, mem_foldl_addClaim, mem_map]
  exact ⟨fun h => h.resolve_left not_mem_nil, .inr⟩

theorem sameMembers_carriedClaims (h : SameMembers added added') :
    SameMembers (carriedClaims added) (carriedClaims added') := by
  intro c
  rw [mem_carriedClaims, mem_carriedClaims]
  simp only [h.filter _ _]

theorem sameMembers_groupsNeeded (hbase : SameMembers base base')
    (hadded : SameMembers added added') (want : Want) :
    SameMembers (groupsNeeded base want added catalog)
      (groupsNeeded base' want added' catalog) := by
  have hall := hbase.append hadded
  have hsame : ((Index.ofEntries (base ++ added) catalog).satisfying want).isSome =
      ((Index.ofEntries (base' ++ added') catalog).satisfying want).isSome :=
    hall.satisfying_isSome want
  rw [groupsNeeded, groupsNeeded, ← Option.not_isSome, ← Option.not_isSome, hsame]
  split
  · exact sameMembers_carriedClaims hadded
  · exact sameMembers_growing hbase.covered_blocks
      (sameMembers_derivedClaims (sameMembers_lineageWith hall) hadded)

theorem committable_congr (hbase : SameMembers base base') (hadded : SameMembers added added')
    (want : Want) :
    committable base want added catalog = committable base' want added' catalog := by
  have hall := hbase.append hadded
  rw [committable, committable, hall.satisfying_isSome want]
  congr 1
  rw [Bool.eq_iff_iff, all_eq_true, all_eq_true]
  simp only [sameMembers_groupsNeeded hbase hadded want _, contains_iff_subset, hall.covered_blocks]

theorem admissible_congr (hbase : SameMembers base base')
    (hadded : SameMembers added added') (u : RepairUnit) :
    x.admissible base u added = x.admissible base' u added' := by
  have hall := hbase.append hadded
  rw [Commit.admissible, Commit.admissible, committable_congr hbase hadded]
  simp only [hall.satisfying_isSome]

end Congr

/-! ## Commits over the same units -/

namespace Commit

/-- Two commits that differ in the order of their units only, each unit known by its prefixes. -/
structure Reordered (x y : Commit) : Prop where
  live : y.live = x.live
  catalog : y.catalog = x.catalog
  opens : y.opens = x.opens
  units : y.units.Perm x.units
  distinct : (x.units.map unitKey).Nodup
  consistent : Consistent x.units

variable {x y : Commit} {s : x.Taken} {t : y.Taken} {i : Fin x.units.length}
  {j : Fin y.units.length}

/-- Each unit is in for both, or for neither. -/
def Agree (s : x.Taken) (t : y.Taken) : Prop := ∀ i j, x.units.get i = y.units.get j → s i = t j

theorem Agree.symm (h : Agree s t) : Agree t s := fun i j hij => (h j i hij.symm).symm

theorem mem_admitted (h : Consistent x.units) {e : Entry} : e ∈ x.admitted s ↔
    ∃ k, s k = true ∧ e ∈ x.added (x.units.get k) := by
  refine ⟨exists_unit_of_admitted, fun ⟨k, hk, he⟩ => ?_⟩
  have hmem : e ∈ ((List.finRange x.units.length).filter s).flatMap fun k =>
      x.added (x.units.get k) :=
    mem_flatMap.mpr ⟨k, mem_filter.mpr ⟨mem_finRange k, hk⟩, he⟩
  obtain ⟨o, ho, hpref⟩ := exists_mem_firstOfPrefix hmem
  obtain ⟨k', -, ho'⟩ := exists_unit_of_admitted (s := s) ho
  rw [← h.added_inj ho' he hpref]
  exact ho

theorem mem_taken_units {u : RepairUnit} : u ∈ x.admitUnits.units ↔
    ∃ k, x.taken k = true ∧ x.units.get k = u := by
  show u ∈ ((List.finRange x.units.length).filter x.taken).map x.units.get ↔ _
  rw [mem_map]
  simp only [mem_filter, mem_finRange, true_and]

theorem any_congr {α : Type*} {l m : List α} (h : SameMembers l m) {p q : α → Bool}
    (hpq : ∀ a, p a = q a) : l.any p = m.any q := by
  rw [Bool.eq_iff_iff, any_eq_true, any_eq_true]
  simp only [h _, hpq]

section

variable (h : Reordered x y)

include h

theorem Reordered.symm : Reordered y x where
  live := h.live.symm
  catalog := h.catalog.symm
  opens := h.opens.symm
  units := h.units.symm
  distinct := (h.units.map unitKey).nodup_iff.mpr h.distinct
  consistent u hu r hr u' hu' := h.consistent u (h.units.mem_iff.mp hu) r hr u'
    (h.units.mem_iff.mp hu')

theorem Reordered.exists_get (i : Fin x.units.length) : ∃ j, x.units.get i = y.units.get j := by
  obtain ⟨j, hj⟩ := mem_iff_get.mp (h.units.mem_iff.mpr (x.units.get_mem i))
  exact ⟨j, hj.symm⟩

theorem Reordered.isEmpty_eq {a : List (Fin x.units.length)} {b : List (Fin y.units.length)}
    (hab : ∀ i j, x.units.get i = y.units.get j → (i ∈ a ↔ j ∈ b)) : a.isEmpty = b.isEmpty := by
  rw [Bool.eq_iff_iff, List.isEmpty_iff, List.isEmpty_iff, eq_nil_iff_forall_not_mem,
    eq_nil_iff_forall_not_mem]
  constructor
  · intro ha j hj
    obtain ⟨i, hi⟩ := h.symm.exists_get j
    exact ha i ((hab i j hi.symm).mpr hj)
  · intro hb i hi
    obtain ⟨j, hj⟩ := h.exists_get i
    exact hb j ((hab i j hj).mp hi)

theorem Reordered.isEmpty_filter {p : Fin x.units.length → Bool} {q : Fin y.units.length → Bool}
    (hpq : ∀ i j, x.units.get i = y.units.get j → p i = q j) :
    ((List.finRange x.units.length).filter p).isEmpty =
      ((List.finRange y.units.length).filter q).isEmpty :=
  h.isEmpty_eq fun i j hij => by
    rw [mem_filter, mem_filter, hpq i j hij]
    simp only [mem_finRange, true_and]

theorem Reordered.get_inj {j : Fin x.units.length} (hij : x.units.get i = x.units.get j) : i = j :=
  nodup_iff_injective_get.mp h.distinct.of_map hij

theorem Reordered.isLive (p : Bytes) : y.isLive p = x.isLive p := by
  rw [Commit.isLive, Commit.isLive, h.live]

theorem Reordered.openErr (p : Bytes) : y.openErr p = x.openErr p := by
  rw [Commit.openErr, Commit.openErr, h.isLive, h.opens]

theorem Reordered.added (u : RepairUnit) : y.added u = x.added u := by
  rw [Commit.added, Commit.added]
  simp only [h.isLive, h.openErr]

theorem Reordered.admissible (base : List Entry) (u : RepairUnit) (own : List Entry) :
    y.admissible base u own = x.admissible base u own := by
  rw [Commit.admissible, Commit.admissible, h.catalog]
  simp only [h.openErr]

section

variable (hst : Agree s t)

include hst

theorem Reordered.others (hij : x.units.get i = y.units.get j) :
    ∀ e ∈ x.others s i, e ∈ y.others t j := by
  intro e he
  rcases mem_append.mp he with he | he
  · exact mem_append_left _ (h.live ▸ he)
  obtain ⟨o, -, heo⟩ := mem_flatMap.mp he
  split at heo
  · rename_i ho
    obtain ⟨p, hp⟩ := h.exists_get o
    have hne : p ≠ j := by
      rintro rfl
      exact ho.1 (h.get_inj (hp.trans hij.symm))
    refine mem_append_right _ (mem_flatMap.mpr ⟨p, mem_finRange p, ?_⟩)
    rw [if_pos ⟨hne, (hst o p hp).symm.trans ho.2⟩, h.added, ← hp]
    exact heo
  · cases heo

theorem Reordered.verdict : Agree (x.verdict s) (y.verdict t) := by
  intro i j hij
  have hothers : SameMembers (x.others s i) (y.others t j) := fun e =>
    ⟨h.others hst hij e, h.symm.others hst.symm hij.symm e⟩
  rw [Commit.verdict, Commit.verdict, hst i j hij, h.admissible, ← hij, h.added]
  exact congrArg _ (admissible_congr x hothers (.refl _) _)

theorem Reordered.eq_of_agree {s' : x.Taken} {t' : y.Taken} (hst' : Agree s' t') (heq : s' = s) :
    t' = t := by
  funext j
  obtain ⟨i, hi⟩ := h.symm.exists_get j
  rw [← hst' i j hi.symm, ← hst i j hi.symm, heq]

theorem Reordered.settle : Agree (x.settle s) (y.settle t) := by
  refine Settling.settle_rel x.settling y.settling (fun s t hst => ?_) hst
  have hverdict := h.verdict hst
  dsimp only [settling]
  by_cases hs : x.verdict s = s
  · rw [if_pos hs, if_pos (h.eq_of_agree hst hverdict hs)]
    exact Option.Rel.none
  · rw [if_neg hs, if_neg fun ht => hs (h.symm.eq_of_agree hst.symm hverdict.symm ht)]
    exact Option.Rel.some hverdict

/-! ### Pruning -/

theorem Reordered.admitted_subset : ∀ e ∈ x.admitted s, e ∈ y.admitted t := by
  intro e he
  obtain ⟨k, hk, he⟩ := exists_unit_of_admitted he
  obtain ⟨j, hj⟩ := h.exists_get k
  refine (mem_admitted h.symm.consistent).mpr ⟨j, (hst k j hj).symm.trans hk, ?_⟩
  rwa [h.added, ← hj]

theorem Reordered.admitted : SameMembers (x.admitted s) (y.admitted t) := fun e =>
  ⟨h.admitted_subset hst e, h.symm.admitted_subset hst.symm e⟩

theorem Reordered.all : SameMembers (x.live ++ x.admitted s) (y.live ++ y.admitted t) :=
  (h.live ▸ .refl x.live : SameMembers x.live y.live).append (h.admitted hst)

theorem Reordered.lineage : SameMembers (x.lineage s) (y.lineage t) := by
  rw [Commit.lineage, Commit.lineage, h.catalog]
  exact sameMembers_lineageWith (h.all hst)

theorem Reordered.published : SameMembers (x.published s) (y.published t) := by
  intro e
  rw [mem_published, mem_published, h.admitted hst e,
    (h.lineage hst).subsumed (h.admitted hst) (h.all hst) e.pref]

theorem Reordered.retired : SameMembers (x.retired s) (y.retired t) := by
  rw [Commit.retired, Commit.retired, h.live]
  exact (h.lineage hst).subsumed (.refl _) (h.published hst)

theorem Reordered.final : SameMembers (x.final s) (y.final t) := by
  rw [Commit.final, Commit.final, h.live]
  refine SameMembers.append (fun e => ?_) (h.published hst)
  rw [mem_filter, mem_filter]
  refine and_congr_right fun _ => ?_
  rw [Bool.not_eq_true', Bool.not_eq_true', ← Bool.not_eq_true, ← Bool.not_eq_true,
    contains_iff_mem, contains_iff_mem, h.retired hst e.pref]

theorem Reordered.kept (p : Bytes) : x.kept s p = y.kept t p := by
  rw [Bool.eq_iff_iff, kept_iff, kept_iff]
  simp only [h.published hst _]

theorem Reordered.own (hij : x.units.get i = y.units.get j) : x.own s i = y.own t j := by
  rw [Commit.own, Commit.own, hst i j hij, hij, h.added]
  simp only [h.kept hst]

theorem Reordered.base (hij : x.units.get i = y.units.get j) :
    SameMembers (x.base s i) (y.base t j) := by
  rw [Commit.base, Commit.base, h.own hst hij]
  exact (h.final hst).filter _

theorem Reordered.conflict (a e : Entry) : x.conflict s a e = y.conflict t a e := by
  rw [Commit.conflict, Commit.conflict, (h.lineage hst).overlaps_eq]

theorem Reordered.overlapsLive (hij : x.units.get i = y.units.get j) :
    x.overlapsLive s i = y.overlapsLive t j := by
  rw [Commit.overlapsLive, Commit.overlapsLive, h.own hst hij]
  refine any_congr (.refl _) fun a => any_congr (h.final hst) fun e => ?_
  rw [h.conflict hst, h.isLive]

theorem Reordered.overlapsUnit {i' : Fin x.units.length} {j' : Fin y.units.length}
    (hij : x.units.get i = y.units.get j) (hij' : x.units.get i' = y.units.get j') :
    x.overlapsUnit s i i' = y.overlapsUnit t j j' := by
  have hne : (i' != i) = (j' != j) := by
    rw [Bool.eq_iff_iff, bne_iff_ne, bne_iff_ne]
    refine not_congr ⟨?_, ?_⟩
    · rintro rfl
      exact h.symm.get_inj (hij'.symm.trans hij)
    · rintro rfl
      exact h.get_inj (hij'.trans hij.symm)
  rw [Commit.overlapsUnit, Commit.overlapsUnit, hne, h.own hst hij, h.own hst hij']
  congr 1
  refine any_congr (.refl _) fun a => any_congr (h.final hst) fun e => ?_
  rw [h.conflict hst]

theorem Reordered.unanswered (hij : x.units.get i = y.units.get j) :
    i ∈ x.unanswered s ↔ j ∈ y.unanswered t := by
  have hadm : x.admissible (x.base s i) (x.units.get i) (x.own s i) =
      y.admissible (y.base t j) (y.units.get j) (y.own t j) := by
    rw [h.admissible, ← hij, ← h.own hst hij]
    exact admissible_congr x (h.base hst hij) (.refl _) _
  rw [Commit.unanswered, Commit.unanswered, mem_filter, mem_filter, hst i j hij, hadm]
  simp only [mem_finRange, true_and]

theorem Reordered.overlappingUnits (hij : x.units.get i = y.units.get j)
    (hi : i ∈ Commit.overlappingUnits s) : j ∈ Commit.overlappingUnits t := by
  obtain ⟨o, ho⟩ := mem_overlappingUnits.mp hi
  obtain ⟨p, hp⟩ := h.exists_get o
  exact mem_overlappingUnits.mpr ⟨p, (h.overlapsUnit hst hij hp).symm.trans ho⟩

/-- Both name the same unit first: its prefixes are the least, and no other unit has them. -/
theorem Reordered.firstOverlapping {f : Fin x.units.length} (hf : x.firstOverlapping s = some f) :
    ∃ f', y.firstOverlapping t = some f' ∧ x.units.get f = y.units.get f' := by
  have hargmin := firstOverlapping_eq s ▸ hf
  have hmem := argmin_mem hargmin
  obtain ⟨p, hp⟩ := h.exists_get f
  have hpmem := h.overlappingUnits hst hp hmem
  obtain ⟨f', hf'⟩ : ∃ f', y.firstOverlapping t = some f' := by
    rw [← Option.ne_none_iff_exists', firstOverlapping_eq, Ne, argmin_eq_none]
    exact ne_nil_of_mem hpmem
  refine ⟨f', hf', ?_⟩
  have hargmin' := firstOverlapping_eq t ▸ hf'
  obtain ⟨q, hq⟩ := h.symm.exists_get f'
  have hqmem := h.symm.overlappingUnits hst.symm hq (argmin_mem hargmin')
  have hle := le_of_mem_argmin hpmem hargmin'
  have hge := le_of_mem_argmin hqmem hargmin
  rw [← hp, hq] at hle
  have hkey : unitKey (x.units.get f) = unitKey (x.units.get q) :=
    toLex.injective (le_antisymm hge hle)
  rw [hq]
  exact inj_on_of_nodup_map h.distinct (x.units.get_mem f) (x.units.get_mem q) hkey

theorem Reordered.overlapping (hij : x.units.get i = y.units.get j) (hi : i ∈ x.overlapping s) :
    j ∈ y.overlapping t := by
  have hempty := h.isEmpty_filter (p := x.overlapsLive s) (q := y.overlapsLive t)
    fun i j hij => h.overlapsLive hst hij
  rw [Commit.overlapping] at hi ⊢
  rw [← hempty]
  split at hi
  · rename_i hne
    rw [if_pos hne, mem_filter, ← h.overlapsLive hst hij]
    exact ⟨mem_finRange j, (mem_filter.mp hi).2⟩
  rename_i hne
  rw [if_neg hne]
  cases hf : x.firstOverlapping s with
  | none =>
    rw [hf] at hi
    cases hi
  | some f =>
    rw [hf] at hi
    obtain ⟨f', hf', hunits⟩ := h.firstOverlapping hst hf
    rw [hf']
    refine mem_filter.mpr ⟨mem_finRange j, ?_⟩
    rw [← h.overlapsUnit hst hunits hij]
    exact (mem_filter.mp hi).2

theorem Reordered.drop_subset (hij : x.units.get i = y.units.get j) (hi : i ∈ x.drop s) :
    j ∈ y.drop t := by
  have hempty := h.isEmpty_eq fun _ _ hij => h.unanswered hst hij
  rw [Commit.drop] at hi ⊢
  rw [← hempty]
  split at hi
  · rename_i hne
    rw [if_pos hne]
    exact (h.unanswered hst hij).mp hi
  · rename_i hne
    rw [if_neg hne]
    exact h.overlapping hst hij hi

theorem Reordered.drop (hij : x.units.get i = y.units.get j) : i ∈ x.drop s ↔ j ∈ y.drop t :=
  ⟨h.drop_subset hst hij, h.symm.drop_subset hst.symm hij.symm⟩

theorem Reordered.without : Agree (x.without s (x.drop s)) (y.without t (y.drop t)) := by
  intro i j hij
  have hdrop : (x.drop s).contains i = (y.drop t).contains j := by
    rw [Bool.eq_iff_iff, contains_iff_mem, contains_iff_mem, h.drop hst hij]
  rw [Commit.without, Commit.without, hst i j hij, hdrop]

end

/-- **Commits over the same units take the same units.** -/
theorem Reordered.taken : Agree x.taken y.taken := by
  refine Settling.settle_rel x.pruning y.pruning (fun s t hst => ?_) (h.settle fun _ _ _ => rfl)
  dsimp only [pruning]
  rw [h.isEmpty_eq fun _ _ hij => h.drop hst hij]
  split
  · exact Option.Rel.none
  · exact Option.Rel.some (h.settle (h.without hst))

theorem Reordered.units_subset {u : RepairUnit} (hu : u ∈ x.admitUnits.units) :
    u ∈ y.admitUnits.units := by
  obtain ⟨k, hk, rfl⟩ := mem_taken_units.mp hu
  obtain ⟨j, hj⟩ := h.exists_get k
  exact mem_taken_units.mpr ⟨j, (h.taken k j hj).symm.trans hk, hj.symm⟩

end

/-! ## The commit -/

/-- The parts live after the commit: those not retired, and those published. -/
def liveAfter (x : Commit) : List Entry :=
  (x.live.filter fun e => !x.admitUnits.retired.contains e.pref) ++ x.admitUnits.published

/-- The lineage of everything the commit saw: the live parts, those of the units it takes, and the
catalog. -/
def seen (x : Commit) : Lineage := x.lineage x.taken

/-- **A repair commit is safe**, when two parts of one prefix are the same part.  What it publishes
overlaps no other part left live; the want of every unit it takes is answered; what it retires is
subsumed by what it publishes; nothing is published that did not open; and which units it takes does
not depend on their order. -/
theorem admitUnits_safe (x : Commit) (h : Consistent x.units) :
    (∀ a ∈ x.admitUnits.published, a.data = true → ∀ e ∈ x.liveAfter, e.data = true → e ≠ a →
        x.seen.overlaps a e = false) ∧
      (∀ u ∈ x.admitUnits.units,
        ((Index.ofEntries x.liveAfter x.catalog).satisfying u.target.want).isSome = true) ∧
      (∀ p ∈ x.admitUnits.retired, p ∈ x.seen.subsumed x.live x.admitUnits.published) ∧
      (∀ a ∈ x.admitUnits.published, x.opens a.pref = true) ∧
      ((x.units.map unitKey).Nodup → ∀ units : List RepairUnit, units.Perm x.units →
        ∀ u, u ∈ ({ x with units := units } : Commit).admitUnits.units ↔
          u ∈ x.admitUnits.units) := by
  have hpublished : x.admitUnits.published = x.published x.taken := map_entry_publish
  have hafter : x.liveAfter = x.final x.taken := by
    rw [liveAfter, hpublished]
    rfl
  refine ⟨fun a ha hdata e he hdata' hne => ?_, fun u hu => ?_, fun p hp => ?_, fun a ha => ?_, ?_⟩
  · exact overlaps_of_published drop_taken (hpublished ▸ ha) hdata (hafter ▸ he) hdata' hne
  · obtain ⟨k, hk, rfl⟩ := mem_taken_units.mp hu
    rw [hafter]
    exact h.answered drop_taken hk
  · rw [hpublished]
    exact hp
  · exact (published_not_live (hpublished ▸ ha)).2
  · intro hdistinct units hperm u
    have hreordered : Reordered x { x with units := units } :=
      ⟨rfl, rfl, rfl, hperm, hdistinct, h⟩
    exact ⟨hreordered.symm.units_subset, hreordered.units_subset⟩

/-- A part of one block, and the want for it. -/
def partOf (p : Bytes) (n : UInt64) : Entry :=
  ⟨p, 0, 9, ⟨⟨1, n⟩, ⟨1, n⟩, []⟩, 1, default, 1, none, false⟩

/-- A unit that answers the want for `lost` with the part `e`. -/
def unitOf (lost e : Entry) : RepairUnit := ⟨⟨wantOf lost default, false, e, false⟩, []⟩

/-- Two wants answered by a part each, one of which does not open. -/
theorem admitUnits_safe_two_units :
    let x : Commit := ⟨[partOf [7] 3], [],
      [unitOf (partOf [5] 1) (partOf [1] 1), unitOf (partOf [6] 2) (partOf [2] 2)], (· == [1])⟩
    (∀ u ∈ x.admitUnits.units,
      ((Index.ofEntries x.liveAfter x.catalog).satisfying u.target.want).isSome = true) ∧
      x.admitUnits.published = [partOf [1] 1] :=
  ⟨(admitUnits_safe _ (by decide)).2.1, by decide +kernel⟩

/-- Two units bring different parts under one prefix.  Both are taken, one part is published, and
the other unit's want is not answered. -/
theorem admitUnits_one_prefix :
    let x : Commit := ⟨[], [],
      [unitOf (partOf [5] 1) (partOf [1] 1), unitOf (partOf [6] 2) (partOf [1] 2)], fun _ => true⟩
    unitOf (partOf [6] 2) (partOf [1] 2) ∈ x.admitUnits.units ∧
      ((Index.ofEntries x.liveAfter x.catalog).satisfying (wantOf (partOf [6] 2) default)).isSome =
        false := by
  decide +kernel

end Commit
end OtelStorage.Repair
