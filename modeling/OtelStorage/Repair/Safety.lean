import Mathlib.Data.List.MinMax
import Mathlib.Data.Prod.Lex
import OtelStorage.Repair.Commit

/-!
# What a repair commit leaves live

Where the loops stop, nothing is left to drop (`drop_taken`): every unit taken may be committed over
what the others leave, and no part published overlaps another part that stays.

The units are judged over lists of their own: what stays without the unit's parts, and the unit's
parts.  Together these are what stays as long as two parts of one prefix are the same part
(`Consistent`).
-/

namespace OtelStorage.Repair
namespace Commit

open Delimited BucketIndex List

variable (x : Commit)

/-! ## The first entry of each prefix -/

section FirstOfPrefix

variable {es : List Entry} {e a : Entry}

theorem firstOfPrefix_snoc (es : List Entry) (a : Entry) :
    firstOfPrefix (es ++ [a]) = if ∃ o ∈ firstOfPrefix es, o.pref = a.pref then firstOfPrefix es
      else firstOfPrefix es ++ [a] := by
  rw [firstOfPrefix, foldl_append, foldl_cons, foldl_nil, ← firstOfPrefix]
  exact if_congr (by simp only [any_eq_true, beq_iff_eq]) rfl rfl

theorem mem_of_mem_firstOfPrefix (h : e ∈ firstOfPrefix es) : e ∈ es := by
  induction es using List.reverseRecOn with
  | nil => cases h
  | append_singleton es a ih =>
    rw [firstOfPrefix_snoc] at h
    split at h
    · exact mem_append_left _ (ih h)
    · exact mem_append.mpr ((mem_append.mp h).imp_left ih)

theorem exists_mem_firstOfPrefix (h : e ∈ es) : ∃ o ∈ firstOfPrefix es, o.pref = e.pref := by
  induction es using List.reverseRecOn with
  | nil => cases h
  | append_singleton es a ih =>
    rw [firstOfPrefix_snoc]
    rcases mem_append.mp h with h | h
    · obtain ⟨o, ho, hpref⟩ := ih h
      split
      · exact ⟨o, ho, hpref⟩
      · exact ⟨o, mem_append_left _ ho, hpref⟩
    · obtain rfl := mem_singleton.mp h
      split
      · next hold => exact hold
      · exact ⟨e, mem_append_right _ h, rfl⟩

theorem nodup_firstOfPrefix (es : List Entry) : ((firstOfPrefix es).map Entry.pref).Nodup := by
  induction es using List.reverseRecOn with
  | nil => exact nodup_nil
  | append_singleton es a ih =>
    rw [firstOfPrefix_snoc]
    split
    · exact ih
    · next hnew =>
      rw [map_append, map_singleton]
      refine nodup_append.mpr ⟨ih, nodup_singleton _, fun p hp q hq heq => hnew ?_⟩
      obtain ⟨o, ho, rfl⟩ := mem_map.mp hp
      exact ⟨o, ho, heq.trans (mem_singleton.mp hq)⟩

theorem firstOfPrefix_inj {b : Entry} (ha : a ∈ firstOfPrefix es) (hb : b ∈ firstOfPrefix es)
    (h : a.pref = b.pref) : a = b := inj_on_of_nodup_map (nodup_firstOfPrefix es) ha hb h

end FirstOfPrefix

/-! ## The parts of the units -/

variable {x} {s : x.Taken} {k : Fin x.units.length} {e a : Entry}

theorem mem_added {u : RepairUnit} : e ∈ x.added u ↔
    (∃ r ∈ u.results, r.entry = e) ∧ x.isLive e.pref = false ∧ x.opens e.pref = true := by
  rw [added, mem_filter, mem_map]
  refine and_congr_right fun _ => ?_
  cases hlive : x.isLive e.pref <;> simp [openErr, hlive]

theorem exists_unit_of_admitted (h : e ∈ x.admitted s) :
    ∃ k, s k = true ∧ e ∈ x.added (x.units.get k) := by
  obtain ⟨k, hk, he⟩ := mem_flatMap.mp (mem_of_mem_firstOfPrefix h)
  exact ⟨k, (mem_filter.mp hk).2, he⟩

theorem mem_published : e ∈ x.published s ↔ e ∈ x.admitted s ∧
    e.pref ∉ (x.lineage s).subsumed (x.admitted s) (x.live ++ x.admitted s) := by
  rw [published, mem_filter]
  simp

theorem kept_iff {p : Bytes} : x.kept s p = true ↔ ∃ e ∈ x.published s, e.pref = p := by
  rw [kept, any_eq_true]
  simp only [beq_iff_eq]

theorem filter_kept : ((x.admitted s).filter fun e => x.kept s e.pref) = x.published s := by
  refine filter_congr fun e he => ?_
  rw [Bool.eq_iff_iff, kept_iff]
  constructor
  · rintro ⟨o, ho, hpref⟩
    rw [← hpref]
    simpa using (mem_published.mp ho).2
  · intro hnot
    exact ⟨e, mem_published.mpr ⟨he, by simpa using hnot⟩, rfl⟩

theorem mem_own : e ∈ x.own s k ↔
    s k = true ∧ e ∈ x.added (x.units.get k) ∧ x.kept s e.pref = true := by
  rw [own]
  split
  · rename_i hk
    rw [mem_filter]
    exact ⟨fun h => ⟨hk, h⟩, fun h => h.2⟩
  · rename_i hk
    exact ⟨fun h => absurd h not_mem_nil, fun h => absurd h.1 hk⟩

theorem exists_own_of_published (h : e ∈ x.published s) : ∃ k, e ∈ x.own s k := by
  obtain ⟨k, hk, he⟩ := exists_unit_of_admitted (mem_published.mp h).1
  exact ⟨k, mem_own.mpr ⟨hk, he, kept_iff.mpr ⟨e, h, rfl⟩⟩⟩

theorem published_not_live (h : e ∈ x.published s) :
    x.isLive e.pref = false ∧ x.opens e.pref = true := by
  obtain ⟨k, -, he⟩ := exists_unit_of_admitted (mem_published.mp h).1
  exact (mem_added.mp he).2

theorem isLive_of_mem (h : e ∈ x.live) : x.isLive e.pref = true :=
  any_eq_true.mpr ⟨e, h, beq_self_eq_true _⟩

theorem mem_final_cases (h : e ∈ x.final s) : x.isLive e.pref = true ∨ ∃ k, e ∈ x.own s k := by
  rcases mem_append.mp h with h | h
  · exact .inl (isLive_of_mem (mem_filter.mp h).1)
  · exact .inr (exists_own_of_published h)

theorem eq_of_final (ha : a ∈ x.published s) (he : e ∈ x.final s) (h : e.pref = a.pref) :
    e = a := by
  rcases mem_append.mp he with he | he
  · have hlive := isLive_of_mem (mem_filter.mp he).1
    rw [h, (published_not_live ha).1] at hlive
    cases hlive
  · exact firstOfPrefix_inj (mem_published.mp he).1 (mem_published.mp ha).1 h

/-! ## What is published -/

/-- Publishing follows the parts admitted: it has handled those, and published the kept ones. -/
theorem foldl_publishResult (rs : List Result) (adm : List Entry) (out : List Result)
    (hout : out.map Result.entry = adm.filter fun e => x.kept s e.pref) :
    (rs.foldl (x.publishResult s)
        (x.live.map Entry.pref ++ adm.map Entry.pref, out)).2.map Result.entry =
      (((rs.map Result.entry).filter fun e => !x.isLive e.pref && !x.openErr e.pref).foldl
        (fun out e => if out.any fun o => o.pref == e.pref then out else out ++ [e]) adm).filter
          fun e => x.kept s e.pref := by
  induction rs generalizing adm out with
  | nil => exact hout
  | cons r rs ih =>
    have hhave : (x.live.map Entry.pref ++ adm.map Entry.pref).contains r.entry.pref =
        (x.isLive r.entry.pref || adm.any fun o => o.pref == r.entry.pref) := by
      rw [Bool.eq_iff_iff, contains_iff_mem, Bool.or_eq_true, isLive, mem_append,
        any_eq_true, any_eq_true, mem_map, mem_map]
      simp only [beq_iff_eq]
    rw [foldl_cons, publishResult, map_cons]
    dsimp only
    rw [hhave]
    cases hlive : x.isLive r.entry.pref with
    | true =>
      rw [Bool.true_or, Bool.true_or, if_pos rfl, filter_cons_of_neg (by simp [hlive])]
      exact ih adm out hout
    | false =>
      cases herr : x.openErr r.entry.pref with
      | true =>
        rw [Bool.or_true, if_pos rfl, filter_cons_of_neg (by simp [herr])]
        exact ih adm out hout
      | false =>
        rw [filter_cons_of_pos (by simp [hlive, herr]), foldl_cons, Bool.false_or, Bool.or_false]
        cases hany : adm.any fun o => o.pref == r.entry.pref with
        | true =>
          rw [if_pos rfl, if_pos rfl]
          exact ih adm out hout
        | false =>
          rw [if_neg Bool.false_ne_true, if_neg Bool.false_ne_true, append_assoc]
          have hmap : adm.map Entry.pref ++ [r.entry.pref] = (adm ++ [r.entry]).map Entry.pref := by
            rw [map_append, map_singleton]
          rw [hmap]
          refine ih (adm ++ [r.entry]) _ ?_
          rw [filter_append, ← hout]
          cases hkept : x.kept s r.entry.pref with
          | true =>
            rw [if_pos rfl, map_append, filter_cons_of_pos (by simp [hkept])]
            rfl
          | false =>
            rw [if_neg Bool.false_ne_true, filter_cons_of_neg (by simp [hkept]),
              filter_nil, append_nil]

/-- **What the commit returns as published are the parts pruning left.** -/
theorem map_entry_publish : (x.publish s).map Result.entry = x.published s := by
  have hfold := foldl_publishResult (s := s)
    (((List.finRange x.units.length).filter s).flatMap fun k => (x.units.get k).results) [] [] rfl
  rw [map_nil, append_nil] at hfold
  rw [publish, hfold, ← filter_kept, admitted, firstOfPrefix, map_flatMap, filter_flatMap]
  rfl

/-! ## Where the loops stop -/

theorem drop_taken : x.drop x.taken = [] := by
  have hnext := x.pruning.next_settle (x.settle fun _ => true)
  dsimp only [pruning] at hnext
  split at hnext
  · rename_i hempty
    exact isEmpty_iff.mp hempty
  · cases hnext

theorem unanswered_of_drop (h : x.drop s = []) : x.unanswered s = [] := by
  rw [drop] at h
  split at h
  · rename_i hne
    rw [h] at hne
    cases hne
  · rename_i hne
    simpa using hne

theorem admissible_of_drop (h : x.drop s = []) (hk : s k = true) :
    x.admissible (x.base s k) (x.units.get k) (x.own s k) = true := by
  by_contra hnot
  have hmem : k ∈ x.unanswered s := by
    refine mem_filter.mpr ⟨mem_finRange k, ?_⟩
    rw [hk, Bool.true_and, Bool.eq_false_iff.mpr hnot, Bool.not_false]
  rw [unanswered_of_drop h] at hmem
  exact not_mem_nil hmem

/-- The prefixes of a unit's want and of its answer. -/
def unitKey (u : RepairUnit) : Bytes × Bytes := (u.target.want.pref, u.target.entry.pref)

theorem before_iff (a b : RepairUnit) :
    a.before b = true ↔ toLex (unitKey a) < toLex (unitKey b) := by
  rw [Prod.Lex.toLex_lt_toLex, RepairUnit.before, Bool.or_eq_true, Bool.and_eq_true,
    decide_eq_true_eq, decide_eq_true_eq, beq_iff_eq]
  rfl

/-- The units that overlap another. -/
def overlappingUnits (s : x.Taken) : List (Fin x.units.length) :=
  (List.finRange x.units.length).filter fun k =>
    (List.finRange x.units.length).any (x.overlapsUnit s k)

theorem mem_overlappingUnits : k ∈ overlappingUnits s ↔ ∃ o, x.overlapsUnit s k o = true := by
  rw [overlappingUnits, mem_filter, any_eq_true]
  simp only [mem_finRange, true_and]

/-- The first overlapping unit is the least by its prefixes. -/
theorem firstOverlapping_eq (s : x.Taken) : x.firstOverlapping s =
    (overlappingUnits s).argmin fun k => toLex (unitKey (x.units.get k)) := by
  rw [firstOverlapping, List.argmin, overlappingUnits]
  congr 1
  funext first k
  cases first with
  | none => rfl
  | some f => exact if_congr (before_iff _ _) rfl rfl

theorem overlaps_of_drop (h : x.drop s = []) :
    (∀ k, x.overlapsLive s k = false) ∧ ∀ k o, x.overlapsUnit s k o = false := by
  have hover : x.overlapping s = [] := by
    rw [drop, unanswered_of_drop h] at h
    exact h
  rw [overlapping] at hover
  have hlive : (List.finRange x.units.length).filter (x.overlapsLive s) = [] := by
    by_contra hne
    rw [if_pos (by simpa using hne)] at hover
    exact hne hover
  refine ⟨fun k => ?_, ?_⟩
  · by_contra hk
    have hmem : k ∈ (List.finRange x.units.length).filter (x.overlapsLive s) :=
      mem_filter.mpr ⟨mem_finRange k, Bool.not_eq_false _ ▸ hk⟩
    rw [hlive] at hmem
    exact not_mem_nil hmem
  intro k o
  by_contra hk
  rw [Bool.not_eq_false] at hk
  -- there is a first overlapping unit, and what it overlaps would be dropped
  obtain ⟨f, hf⟩ : ∃ f, x.firstOverlapping s = some f := by
    rw [← Option.ne_none_iff_exists', firstOverlapping_eq, Ne, argmin_eq_none]
    exact ne_nil_of_mem (mem_overlappingUnits.mpr ⟨o, hk⟩)
  have hargmin := firstOverlapping_eq s ▸ hf
  obtain ⟨o', ho'⟩ := mem_overlappingUnits.mp (argmin_mem hargmin)
  rw [hlive, hf] at hover
  have hmem : o' ∈ (List.finRange x.units.length).filter (x.overlapsUnit s f) :=
    mem_filter.mpr ⟨mem_finRange o', ho'⟩
  rw [show (List.finRange x.units.length).filter (x.overlapsUnit s f) = [] from hover] at hmem
  exact not_mem_nil hmem

/-- **A published part overlaps no other part that stays.** -/
theorem overlaps_of_published (h : x.drop s = []) (ha : a ∈ x.published s)
    (hdata : a.data = true) (he : e ∈ x.final s) (hdata' : e.data = true) (hne : e ≠ a) :
    (x.lineage s).overlaps a e = false := by
  obtain ⟨hlive, hunit⟩ := overlaps_of_drop h
  obtain ⟨k, hk⟩ := exists_own_of_published ha
  by_contra hover
  rw [Bool.not_eq_false] at hover
  have hconflict : x.conflict s a e = true := by
    have hpref : e.pref ≠ a.pref := fun heq => hne (eq_of_final ha he heq)
    simp [conflict, hdata, hdata', hover, hpref]
  have hfound : ∀ q : Entry → Bool, q e = true → ((x.own s k).any fun a =>
      (x.final s).any fun e => x.conflict s a e && q e) = true := fun q hq =>
    any_eq_true.mpr ⟨a, hk, any_eq_true.mpr ⟨e, he, by rw [hconflict, hq]; rfl⟩⟩
  have hpublishes : ∀ o, e ∈ x.own s o → ((x.own s o).any fun p => p.pref == e.pref) = true :=
    fun o ho => any_eq_true.mpr ⟨e, ho, beq_self_eq_true e.pref⟩
  rcases mem_final_cases he with hl | ⟨o, ho⟩
  · have hyes := hfound (fun e => x.isLive e.pref || (x.own s k).any fun o => o.pref == e.pref)
      (by rw [hl, Bool.true_or])
    exact Bool.false_ne_true ((hlive k).symm.trans hyes)
  by_cases hok : o = k
  · subst hok
    have hyes := hfound (fun e => x.isLive e.pref || (x.own s o).any fun p => p.pref == e.pref)
      (by rw [hpublishes o ho, Bool.or_true])
    exact Bool.false_ne_true ((hlive o).symm.trans hyes)
  · have hyes := hfound (fun e => (x.own s o).any fun p => p.pref == e.pref) (hpublishes o ho)
    have hfalse := hunit k o
    rw [overlapsUnit, bne_iff_ne.mpr hok, Bool.true_and] at hfalse
    exact Bool.false_ne_true (hfalse.symm.trans hyes)

/-! ## The wants -/

/-- Two results with one prefix brought the same part. -/
def Consistent (units : List RepairUnit) : Prop :=
  ∀ u ∈ units, ∀ r ∈ u.results, ∀ u' ∈ units, ∀ r' ∈ u'.results,
    r.entry.pref = r'.entry.pref → r.entry = r'.entry

instance (units : List RepairUnit) : Decidable (Consistent units) := by
  unfold Consistent
  infer_instance

theorem Consistent.added_inj (h : Consistent x.units) {o : Fin x.units.length}
    (ha : a ∈ x.added (x.units.get k)) (he : e ∈ x.added (x.units.get o)) (heq : a.pref = e.pref) :
    a = e := by
  obtain ⟨⟨r, hr, rfl⟩, -⟩ := mem_added.mp ha
  obtain ⟨⟨r', hr', rfl⟩, -⟩ := mem_added.mp he
  exact h _ (x.units.get_mem k) r hr _ (x.units.get_mem o) r' hr' heq

theorem Consistent.own_subset (h : Consistent x.units) (he : e ∈ x.own s k) :
    e ∈ x.published s := by
  obtain ⟨-, hadded, hkept⟩ := mem_own.mp he
  obtain ⟨a, ha, hpref⟩ := kept_iff.mp hkept
  obtain ⟨o, -, ho⟩ := exists_unit_of_admitted (mem_published.mp ha).1
  rwa [← h.added_inj ho hadded hpref]

theorem Consistent.base_own (h : Consistent x.units) (k : Fin x.units.length) :
    SameMembers (x.base s k ++ x.own s k) (x.final s) := by
  intro e
  rw [mem_append, base, mem_filter]
  constructor
  · rintro (⟨he, -⟩ | he)
    · exact he
    · exact mem_append_right _ (h.own_subset he)
  · intro he
    by_cases hany : ((x.own s k).any fun o => o.pref == e.pref) = true
    · obtain ⟨o, ho, hpref⟩ := any_eq_true.mp hany
      have heq := eq_of_final (h.own_subset ho) he (beq_iff_eq.mp hpref).symm
      exact .inr (heq ▸ ho)
    · exact .inl ⟨he, by rw [Bool.eq_false_iff.mpr hany, Bool.not_false]⟩

/-- **The want of every unit taken is answered by what stays.** -/
theorem Consistent.answered (h : Consistent x.units) (hdrop : x.drop s = []) (hk : s k = true) :
    ((Index.ofEntries (x.final s) x.catalog).satisfying
      (x.units.get k).target.want).isSome = true := by
  have hadm := admissible_of_drop hdrop hk
  rw [admissible, Bool.and_eq_true, committable, Bool.and_eq_true] at hadm
  rw [← (h.base_own k).satisfying_isSome]
  exact hadm.2.1

end Commit
end OtelStorage.Repair
