import OtelStorage.BucketIndex.Subsumed
import OtelStorage.Engine.Writers

/-!
# What a rebase keeps

A writer that lost the race adopts the index that won and builds again.  What the retry publishes on
top of that index has to keep what both sides knew: the rival's parts, the wants and the holes of
both, the count of losses, the other writers' watermarks and the lineage.

* `RebaseKeeps` is that list; `rebase_keeps` proves it of every retry over an index of a run,
  exactly when the writer's bookkeeping is *accurate*.
* `foreignEntries` skips a part of the rival when its prefix is among the writer's indexed ones or
  its tombstones, which is right only if the writer has had the part itself.  A hole the writer
  carries counts as indexed, so a part that revokes it is skipped, and so is one whose tombstone was
  only loaded (`rebase_data_iff`).
* `rebase_drops_part`: a run in which a writer drops the part with which its rival repaired a hole.
-/

namespace OtelStorage

open Delimited BucketIndex SortedList CasStore List

/-! ## Indexes of a run -/

/-- What every index that lands is like: one entry a prefix, no want for a part it has, and only
valid claims in its catalog. -/
structure IndexWf (ix : Index) : Prop where
  entries : ix.entries.Pairwise fun a b => a.pref < b.pref
  wanted_ne : ∀ w ∈ ix.wanted, ∀ d ∈ ix.entries, d.pref ≠ w.pref
  catalog : ∀ c ∈ ix.catalog, c.valid = true

theorem indexWf_default : IndexWf default := ⟨.nil, nofun, nofun⟩

theorem indexWf_nextIndex (e : Engine) (parts : List Part) (epoch : UInt64)
    (genTerm blockTerm : UInt64)
    (sorts : Sorts) : IndexWf (e.nextIndex parts epoch genTerm blockTerm sorts).index where
  entries := by
    rw [Engine.nextIndex_entries]
    exact pairwise_insertAll (pairwise_insertAll (pairwise_insertAll (pairwise_insertAll .nil)))
  wanted_ne := by
    rw [Engine.nextIndex_entries, Engine.nextIndex_wanted]
    intro w hw d hd hpref
    have hnone := (mem_trimWants.mp hw).2
    have hsome : ((wantRelations (e.statedWants (e.generation.next genTerm))
        (e.allEntries parts blockTerm) e.catalog).discharging w).isSome = true :=
      Relations.discharging_of_pref hd hpref
    rw [hnone] at hsome
    exact Bool.false_ne_true hsome
  catalog := by
    exact fun c hc => (mem_of_mem_mergeLineage ((trimCatalog_sublist _).mem hc)).1

/-- The writer's holes are holes, and the index it is about to save is well formed. -/
structure RebaseInv (o : Option Index) (s : Writer) : Prop where
  stored : IndexWf (o.getD default)
  holes : ∀ h ∈ s.engine.holes, h.hole = true
  built : ∀ b, s.built = some b → b.attempt.engine.holes = s.engine.holes ∧ IndexWf b.attempt.index

variable {h d : Entry} {o : Option Index} {rules : Rules} {s s' : Writer} {v : Index}

theorem mem_holes {ix : Index} : h ∈ ix.holes ↔ h ∈ ix.entries ∧ h.hole = true :=
  mem_filter

theorem RebaseInv.of_not_built (hstored : IndexWf (o.getD default))
    (hholes : ∀ h ∈ s.engine.holes, h.hole = true) (hbuilt : s.built = none) : RebaseInv o s :=
  ⟨hstored, hholes, fun b hb => absurd (hbuilt.symm.trans hb) (Option.some_ne_none b).symm⟩

theorem RebaseInv.act (h : RebaseInv o s) (hact : Writer.Act rules () o s () s') :
    RebaseInv o s' := by
  cases hact with
  | work _ _ _ _ hidle _ => exact .of_not_built h.stored h.holes hidle
  | load _ hidle => exact .of_not_built h.stored (fun h hh => (mem_holes.mp hh).2) hidle
  | build parts epoch genTerm blockTerm sorts _ _ _ =>
    have hengine : (s.build parts epoch genTerm blockTerm sorts).engine.holes = s.engine.holes := by
      rw [Writer.build, Engine.nextIndex_engine]
    refine ⟨h.stored, hengine ▸ h.holes, fun b hb => ?_⟩
    cases hb
    exact ⟨rfl, indexWf_nextIndex _ _ _ _ _ _⟩
  | restart => exact .of_not_built h.stored nofun rfl
  | fail => exact .of_not_built h.stored h.holes rfl
  | rebase hidle _ =>
    refine .of_not_built h.stored (fun x hx => ?_) hidle
    rcases mem_of_mem_insertAll hx with hx | hx
    · exact h.holes x hx
    · exact (mem_holes.mp hx).2

theorem RebaseInv.saved
    (h : RebaseInv s.engine.indexVersion s) (hc : (writersUnder rules).candidate s = some v)
    (hs : (writersUnder rules).saved s s') : RebaseInv (some v) s' := by
  obtain ⟨b, hb, rfl⟩ := Option.map_eq_some_iff.mp hc
  have hwf := (h.built b hb).2
  obtain ⟨b', hb', rfl | rfl⟩ := hs
  · exact .of_not_built hwf (fun h hh => (mem_holes.mp hh).2) rfl
  · exact .of_not_built hwf h.holes rfl

theorem RebaseInv.other {t : Writer}
    (hs : RebaseInv s.engine.indexVersion s) (hc : (writersUnder rules).candidate s = some v)
    (ht : RebaseInv s.engine.indexVersion t) : RebaseInv (some v) t := by
  obtain ⟨b, hb, rfl⟩ := Option.map_eq_some_iff.mp hc
  exact ⟨(hs.built b hb).2, ht.holes, ht.built⟩

theorem rebaseInv {W : Type*} [DecidableEq W] {σ : State Unit W Writer Index}
    (h : Reachable (writersUnder rules) Writer.IsNew σ) (w : W) :
    RebaseInv σ.stored (σ.writer w) := by
  refine (h.inv (L := RebaseInv) ?_ (fun _ _ _ _ _ hs ha => hs.act ha)
    (fun _ _ _ hs hc hsv => hs.saved hc hsv) (fun _ _ _ hs hc ht => hs.other hc ht)).1 w
  rintro _ ⟨writerID, rfl⟩
  exact .of_not_built indexWf_default nofun rfl

/-! ## The entries of an attempt -/

theorem mem_foreignEntries {entries : List Entry} {indexed : List Bytes} {removals : List Removal}
    {wants : List Want} :
    d ∈ Engine.foreignEntries entries indexed removals wants ↔ d ∈ entries ∧ d.data = true ∧
      d.pref ∉ indexed ∧ (∀ r ∈ removals, r.pref ≠ d.pref) ∧ ∀ w ∈ wants, w.pref ≠ d.pref := by
  simp [Engine.foreignEntries, Entry.data, and_assoc]

section Attempt

variable {e : Engine} {parts : List Part} {term : UInt64}

theorem mem_partEntries (hd : d ∈ e.partEntries parts term) :
    d.data = true ∧ d.pref ∈ parts.map Part.pref ∨ d ∈ e.foreign := by
  rcases mem_of_mem_insertAll hd with hd | hd
  · rcases mem_of_mem_insertAll hd with hd | hd
    · cases hd
    · exact .inr hd
  · obtain ⟨p, hp, rfl⟩ := mem_map.mp hd
    refine .inl ⟨rfl, ?_⟩
    rw [← Engine.map_pref_assignParts (e.allocator parts term)]
    exact mem_map_of_mem hp

theorem mem_partEntries_of_foreign (hforeign : e.foreign.Pairwise fun a b => a.pref < b.pref)
    (hd : d ∈ e.foreign) (hown : d.pref ∉ parts.map Part.pref) :
    d ∈ e.partEntries parts term := by
  refine mem_insertAll_of_forall_ne
    (mem_insertAll_of_pairwise hd (hforeign.imp fun h => h.ne)) fun x hx hpref => hown ?_
  obtain ⟨p, hp, rfl⟩ := mem_map.mp hx
  rw [hpref, ← Engine.map_pref_assignParts (e.allocator parts term)]
  exact mem_map_of_mem hp

theorem mem_keptHoles : d ∈ e.keptHoles parts term ↔ d ∈ e.holes ∧
    (∀ x ∈ e.partEntries parts term, revokes x d
      (holeRelations e.holes (e.partEntries parts term) e.catalog).l = false) ∧
    (d.hole && ((holeRelations e.holes (e.partEntries parts term) e.catalog).jointlySatisfying
      (wantOf d default) Entry.data).isSome) = false := by
  rw [Engine.keptHoles, trimHoles, mem_filter, Bool.not_eq_true', Bool.or_eq_false_iff,
    any_eq_false]
  simp only [Bool.not_eq_true]

theorem pref_ne_of_mem_keptHoles (hholes : ∀ h ∈ e.holes, h.hole = true)
    (hd : d ∈ e.partEntries parts term) (hdata : d.data = true) (hh : h ∈ e.keptHoles parts term) :
    d.pref ≠ h.pref := by
  intro hpref
  obtain ⟨hmem, hrevoke, -⟩ := mem_keptHoles.mp hh
  have hfalse := hrevoke d hd
  rw [revokes, hdata, hholes h hmem, hpref, beq_self_eq_true] at hfalse
  exact Bool.false_ne_true hfalse.symm

theorem mem_allEntries_of_data (hholes : ∀ h ∈ e.holes, h.hole = true)
    (hd : d ∈ e.partEntries parts term) (hdata : d.data = true)
    (hlost : ∀ u ∈ e.pendingHoles, u.pref ≠ d.pref) : d ∈ e.allEntries parts term := by
  refine mem_insertAll_of_forall_ne (mem_insertAll_of_forall_ne hd fun h hh => ?_) fun x hx => ?_
  · exact pref_ne_of_mem_keptHoles hholes hd hdata hh
  · obtain ⟨u, hu, rfl⟩ := mem_map.mp hx
    exact (hlost u hu).symm

theorem mem_partEntries_of_mem_allEntries (hholes : ∀ h ∈ e.holes, h.hole = true)
    (hd : d ∈ e.allEntries parts term) (hdata : d.data = true) :
    d ∈ e.partEntries parts term := by
  have hhole : d.hole = false := by
    rwa [Entry.data, Bool.not_eq_true'] at hdata
  rcases mem_of_mem_insertAll hd with hd | hd
  · rcases mem_of_mem_insertAll hd with hd | hd
    · exact hd
    · exact absurd ((hholes d (mem_keptHoles.mp hd).1).symm.trans hhole) Bool.false_ne_true.symm
  · obtain ⟨u, -, rfl⟩ := mem_map.mp hd
    exact absurd hhole Bool.false_ne_true.symm

theorem exists_hole_of_mem_keptHoles (hholes : ∀ h ∈ e.holes, h.hole = true)
    (hh : h ∈ e.keptHoles parts term) :
    ∃ h' ∈ e.allEntries parts term, h'.hole = true ∧ h'.pref = h.pref := by
  by_cases hlost : ∃ u ∈ e.pendingHoles, u.pref = h.pref
  · obtain ⟨u, hu, hpref⟩ := hlost
    obtain ⟨y, hy, hmem, hkey⟩ : ∃ y ∈ e.allEntries parts term,
        y ∈ e.pendingHoles.map Want.holeEntry ∧ y.pref = u.holeEntry.pref :=
      exists_mem_insertAll_of_mem (mem_map_of_mem hu)
    obtain ⟨u', -, rfl⟩ := mem_map.mp hmem
    exact ⟨_, hy, rfl, hkey.trans hpref⟩
  obtain ⟨y, hy, hmem, hkey⟩ : ∃ y ∈ insertAll Entry.pref (e.partEntries parts term)
      (e.keptHoles parts term), y ∈ e.keptHoles parts term ∧ y.pref = h.pref :=
    exists_mem_insertAll_of_mem hh
  refine ⟨y, mem_insertAll_of_forall_ne hy fun x hx hpref => hlost ?_,
    hholes y (mem_keptHoles.mp hmem).1, hkey⟩
  obtain ⟨u, hu, rfl⟩ := mem_map.mp hx
  exact ⟨u, hu, hpref.symm.trans hkey⟩

end Attempt

/-! ## The parts of the rival -/

/-- The wants of an engine: those of its index, pending, adopted, and acknowledged as lost. -/
def Engine.allWants (e : Engine) : List Want :=
  e.wants ++ e.pendingWants ++ e.adoptedWants ++ e.pendingHoles

/-- The writer never indexed a part under the prefix, counting the parts of the retry, never removed
one and does not want one. -/
structure Unclaimed (s : Writer) (parts : List Part) (pref : Bytes) : Prop where
  indexed : pref ∉ s.everIndexed
  published : pref ∉ parts.map Part.pref
  removed : pref ∉ s.everRemoved
  wanted : ∀ w ∈ s.engine.allWants, w.pref ≠ pref

/-- The writer's bookkeeping names no part of the index that it never had. -/
def Accurate (s : Writer) (I : Index) (parts : List Part) : Prop :=
  ∀ d ∈ I.entries, d.data = true → Unclaimed s parts d.pref →
    d.pref ∉ s.engine.indexed ∧ ∀ r ∈ s.engine.removals, r.pref ≠ d.pref

/-- The retry of a writer over the index `I`. -/
def Writer.retry (s : Writer) (I : Index) (parts : List Part) (epoch : UInt64)
    (genTerm blockTerm : UInt64) (sorts : Sorts) : Index :=
  ((s.rebase (some I)).engine.nextIndex parts epoch genTerm blockTerm sorts).index

section Retry

variable {s : Writer} {I v : Index} {parts : List Part} {genTerm blockTerm epoch : UInt64}
  {sorts : Sorts}

theorem rebase_holes (hholes : ∀ h ∈ s.engine.holes, h.hole = true) :
    ∀ h ∈ (s.rebase (some I)).engine.holes, h.hole = true := by
  intro h hh
  rcases mem_of_mem_insertAll hh with hh | hh
  · exact hholes h hh
  · exact (mem_holes.mp hh).2

theorem rebase_foreign (hI : IndexWf I) :
    (s.rebase (some I)).engine.foreign.Pairwise fun a b => a.pref < b.pref :=
  hI.entries.sublist filter_sublist

theorem mem_rebase_foreign (hI : IndexWf I) (hd : d ∈ I.entries)
    (hdata : d.data = true) (hfree : Unclaimed s parts d.pref) :
    d ∈ (s.rebase (some I)).engine.foreign ↔
      d.pref ∉ s.engine.indexed ∧ ∀ r ∈ s.engine.removals, r.pref ≠ d.pref := by
  refine mem_foreignEntries.trans ⟨fun h => ⟨h.2.2.1, h.2.2.2.1⟩, fun h => ?_⟩
  refine ⟨hd, hdata, h.1, h.2, fun w hw => ?_⟩
  rcases mem_of_mem_insertAll hw with hw | hw
  · refine hfree.wanted w ?_
    simp only [Engine.allWants, mem_append]
    exact .inl (.inl (.inl hw))
  · exact (hI.wanted_ne w hw d hd).symm

/-- **A rebase keeps the rival's parts exactly when the writer's bookkeeping is accurate.** -/
theorem rebase_data_iff (hI : IndexWf I) (hholes : ∀ h ∈ s.engine.holes, h.hole = true)
    (hv : v = s.retry I parts epoch genTerm blockTerm sorts) :
    (∀ d ∈ I.entries, d.data = true → Unclaimed s parts d.pref → d ∈ v.entries) ↔
      Accurate s I parts := by
  rw [hv, Writer.retry, Engine.nextIndex_entries]
  have hholes' := rebase_holes (I := I) hholes
  constructor
  · intro hkeep d hd hdata hfree
    rw [← mem_rebase_foreign hI hd hdata hfree]
    have hpart := mem_partEntries_of_mem_allEntries hholes' (hkeep d hd hdata hfree) hdata
    rcases mem_partEntries hpart with ⟨-, hown⟩ | hforeign
    · exact absurd hown hfree.published
    · exact hforeign
  · intro hacc d hd hdata hfree
    have hforeign := (mem_rebase_foreign hI hd hdata hfree).mpr (hacc d hd hdata hfree)
    refine mem_allEntries_of_data hholes'
      (mem_partEntries_of_foreign (rebase_foreign hI) hforeign hfree.published) hdata
      fun u hu => hfree.wanted u ?_
    simp only [Engine.allWants, mem_append]
    exact .inr hu

/-! ## The obligations of both -/

/-- The parts a retry publishes: its own, and those of the rival it carries. -/
def Writer.retryParts (s : Writer) (I : Index) (parts : List Part) (term : UInt64) : List Entry :=
  (s.rebase (some I)).engine.partEntries parts term

/-- The lineage a retry relates its holes by. -/
def holeLineage (s : Writer) (I : Index) (parts : List Part) (term : UInt64) : Lineage :=
  (holeRelations (s.rebase (some I)).engine.holes (s.retryParts I parts term)
    (s.rebase (some I)).engine.catalog).l

theorem mem_retry_of_retryParts (hholes : ∀ h ∈ s.engine.holes, h.hole = true)
    (hv : v = s.retry I parts epoch genTerm blockTerm sorts)
    (hd : d ∈ s.retryParts I parts blockTerm) (hdata : d.data = true) :
    d ∈ v.entries ∨ ∃ u ∈ s.engine.pendingHoles, u.pref = d.pref := by
  by_cases hlost : ∃ u ∈ s.engine.pendingHoles, u.pref = d.pref
  · exact .inr hlost
  · rw [hv, Writer.retry, Engine.nextIndex_entries]
    exact .inl (mem_allEntries_of_data (rebase_holes hholes) hd hdata
      fun u hu hpref => hlost ⟨u, hu, hpref⟩)

theorem data_of_revokes {l : Lineage} (hr : revokes d h l = true) : d.data = true := by
  rw [revokes] at hr
  split at hr
  · cases hr
  · next hne =>
    rw [Bool.or_eq_true, not_or, Bool.not_eq_true', Bool.not_eq_false] at hne
    exact hne.1

/-- A hole that a retry may leave out: one of its parts revokes it, or a complete split group of
them answers it. -/
def HoleAnswered (s : Writer) (I : Index) (parts : List Part) (term : UInt64) (h : Entry) : Prop :=
  (∃ d ∈ s.retryParts I parts term, d.data = true ∧
    revokes d h (holeLineage s I parts term) = true) ∨
  JointlyAnswered (holeLineage s I parts term) (s.retryParts I parts term) Entry.data
    (wantOf h default)

/-- A hole of the rebased engine that is not kept is answered. -/
theorem answered_of_not_mem_keptHoles (hholes : ∀ h ∈ s.engine.holes, h.hole = true)
    {term : UInt64} (hh : h ∈ (s.rebase (some I)).engine.holes)
    (hkept : h ∉ (s.rebase (some I)).engine.keptHoles parts term) :
    HoleAnswered s I parts term h := by
  rw [mem_keptHoles] at hkept
  by_cases hrevoke : ∃ d ∈ s.retryParts I parts term,
      revokes d h (holeLineage s I parts term) = true
  · obtain ⟨d, hd, hrevoke⟩ := hrevoke
    exact .inl ⟨d, hd, data_of_revokes hrevoke, hrevoke⟩
  -- no part revokes it, so the parts answer it between them
  have hjoint : h.hole = true ∧ _ := Bool.and_eq_true_iff.mp <| Bool.eq_true_of_not_eq_false
    fun hf => hkept ⟨hh, fun x hx => Bool.eq_false_iff.mpr fun hr => hrevoke ⟨x, hx, hr⟩, hf⟩
  obtain ⟨hvalid, hsub, d, hd, hdata, hsupplies⟩ :=
    (jointlySatisfying_isSome fun d hd => known_of_carries (.inl ⟨d, hd, rfl⟩)).mp hjoint.2
  have hparts : ∀ d ∈ s.retryParts I parts term ++ (s.rebase (some I)).engine.holes,
      d.data = true → d ∈ s.retryParts I parts term := by
    intro d hd hdata
    rcases mem_append.mp hd with hd | hd
    · exact hd
    · rw [Entry.data, rebase_holes (I := I) hholes d hd] at hdata
      cases hdata
  refine .inr ⟨hvalid, hsub.trans (realizeSet_mono _ _ _ ?_), d, hparts d hd hdata, hdata,
    hsupplies⟩
  rintro b ⟨d, hd, hb⟩
  obtain ⟨hd, hdata⟩ := mem_filter.mp hd
  exact ⟨d, mem_filter.mpr ⟨hparts d hd hdata, hdata⟩, hb⟩

/-- **A hole of either side is kept**, or it is answered. -/
theorem rebase_keeps_hole (hholes : ∀ h ∈ s.engine.holes, h.hole = true)
    (hv : v = s.retry I parts epoch genTerm blockTerm sorts)
    (hh : h ∈ I.holes ∨ h ∈ s.engine.holes) :
    (∃ h' ∈ v.entries, h'.hole = true ∧ h'.pref = h.pref) ∨
      ∃ h', (h' ∈ I.holes ∨ h' ∈ s.engine.holes) ∧ h'.pref = h.pref ∧
        HoleAnswered s I parts blockTerm h' := by
  rw [hv, Writer.retry, Engine.nextIndex_entries]
  obtain ⟨h', hh', hpref⟩ : ∃ h' ∈ (s.rebase (some I)).engine.holes, h'.pref = h.pref := by
    refine exists_mem_insertAll.mpr ?_
    rcases hh with hh | hh
    · exact .inr ⟨h, hh, rfl⟩
    · exact .inl ⟨h, hh, rfl⟩
  by_cases hkept : h' ∈ (s.rebase (some I)).engine.keptHoles parts blockTerm
  · obtain ⟨x, hx, hhole, hx'⟩ := exists_hole_of_mem_keptHoles (rebase_holes hholes) hkept
    exact .inl ⟨x, hx, hhole, hx'.trans hpref⟩
  · exact .inr ⟨h', (mem_of_mem_insertAll hh').symm, hpref,
      answered_of_not_mem_keptHoles hholes hh' hkept⟩

/-- The relations a retry judges its wants by. -/
def retryRelations (s : Writer) (I : Index) (v : Index) : Relations :=
  wantRelations ((s.rebase (some I)).engine.statedWants v.generation) v.entries
    (s.rebase (some I)).engine.catalog

/-- A want of the rival's index or of the writer's, pending and adopted ones as the retry states
them. -/
def OwedBy (s : Writer) (I : Index) (gen : Generation) (w : Want) : Prop :=
  w ∈ I.wanted ∨ w ∈ s.engine.wants ∨
    ∃ u, (u ∈ s.engine.pendingWants ∨ u ∈ s.engine.adoptedWants) ∧ w = { u with generation := gen }

section

variable (hv : v = s.retry I parts epoch genTerm blockTerm sorts)

include hv

/-- **A want of either side is kept**, or an entry of the new index discharges it. -/
theorem rebase_keeps_want {w : Want} (hw : OwedBy s I v.generation w) :
    ∃ w', OwedBy s I v.generation w' ∧ w'.pref = w.pref ∧
      (w' ∈ v.wanted ∨ ∃ d ∈ v.entries, (retryRelations s I v).discharging w' = some d) := by
  have hgen : v.generation = (s.rebase (some I)).engine.generation.next genTerm := by
    rw [hv, Writer.retry, Engine.nextIndex_generation]
  have hentries : v.entries = (s.rebase (some I)).engine.allEntries parts blockTerm := by
    rw [hv, Writer.retry, Engine.nextIndex_entries]
  have hwanted : v.wanted = trimWants ((s.rebase (some I)).engine.statedWants v.generation)
      v.entries (s.rebase (some I)).engine.catalog := by
    rw [hgen, hentries, hv, Writer.retry, Engine.nextIndex_wanted]
  obtain ⟨w', hw', hpref⟩ : ∃ w' ∈ (s.rebase (some I)).engine.statedWants v.generation,
      w'.pref = w.pref := by
    refine exists_mem_insertAll.mpr ?_
    rcases hw with hw | hw | ⟨u, hu, rfl⟩
    · exact .inl (exists_mem_insertAll.mpr (.inr ⟨w, hw, rfl⟩))
    · exact .inl (exists_mem_insertAll.mpr (.inl ⟨w, hw, rfl⟩))
    · exact .inr ⟨_, mem_map_of_mem (mem_append.mpr hu), rfl⟩
  have howed : OwedBy s I v.generation w' := by
    rcases mem_of_mem_insertAll hw' with hw' | hw'
    · rcases mem_of_mem_insertAll hw' with hw' | hw'
      · exact .inr (.inl hw')
      · exact .inl hw'
    · obtain ⟨u, hu, rfl⟩ := mem_map.mp hw'
      exact .inr (.inr ⟨u, mem_append.mp hu, rfl⟩)
  refine ⟨w', howed, hpref, ?_⟩
  cases hdis : (retryRelations s I v).discharging w' with
  | none =>
    rw [hwanted]
    exact .inl (mem_trimWants.mpr ⟨hw', hdis⟩)
  | some d => exact .inr ⟨d, Relations.discharging_mem hdis, rfl⟩

/-! ## Counters, watermarks and lineage -/

/-- The count a retry starts from, and the losses it acknowledges, are within a counter. -/
def LossesFit (s : Writer) (I : Index) : Prop :=
  (max s.engine.lostParts I.lostParts).toNat + s.engine.pendingHoles.length < 2 ^ 64

theorem rebase_lostParts (hfit : LossesFit s I) :
    max s.engine.lostParts I.lostParts ≤ v.lostParts := by
  rw [hv, Writer.retry, Engine.nextIndex_lostParts]
  have hlost : (s.rebase (some I)).engine.lostParts = max s.engine.lostParts I.lostParts := rfl
  have hpending : (s.rebase (some I)).engine.pendingHoles = s.engine.pendingHoles := rfl
  rw [hlost, hpending, UInt64.le_iff_toNat_le, UInt64.toNat_add, UInt64.toNat_ofNat',
    LossesFit] at *
  omega

/-- The slots of the index with the writer's own set. -/
def stampedSlots (s : Writer) (I : Index) (epoch : UInt64) (gen : Generation) : List WriterEpoch :=
  (I.setWriterEpoch s.engine.writerID epoch gen).epochs

/-- **The slot of any other named writer is carried unchanged**, unless there are too many. -/
theorem rebase_keeps_slot {slot : WriterEpoch}
    (hslot : slot ∈ I.epochs) (hother : slot.writer ≠ s.engine.writerID) :
    slot ∈ v.epochs ∨ maxWriters < (stampedSlots s I epoch v.generation).length := by
  have hgen : v.generation = (s.rebase (some I)).engine.generation.next genTerm := by
    rw [hv, Writer.retry, Engine.nextIndex_generation]
  have hepochs : v.epochs = trimWriters sorts.writers (stampedSlots s I epoch v.generation)
      s.engine.writerID maxWriters := by
    rw [hgen, hv, Writer.retry, Engine.nextIndex_epochs]
    have hid : (s.rebase (some I)).engine.writerID = s.engine.writerID := rfl
    have hadopted : (s.rebase (some I)).engine.epochs = I.epochs := rfl
    simp only [Engine.stampEpochs, stampedSlots, Index.setWriterEpoch, hid, hadopted]
    split_ifs <;> rfl
  have hmem : slot ∈ stampedSlots s I epoch v.generation := by
    rw [stampedSlots, Index.setWriterEpoch]
    split
    · exact hslot
    · exact mem_insertBy_of_ne hslot hother
  by_cases hlen : (stampedSlots s I epoch v.generation).length ≤ maxWriters
  · rw [hepochs, trimWriters, if_pos hlen]
    exact .inl hmem
  · exact .inr (Nat.lt_of_not_le hlen)

end

/-- The new index with its catalog as it is before the trim. -/
def untrimmed (s : Writer) (I : Index) (v : Index) : Index :=
  { v with catalog := mergeLineage [(s.rebase (some I)).engine.statedClaims v] }

/-- **The claims of the index's catalog are kept**, under their keys, unless the catalog is over its
target and nothing reaches the claim. -/
theorem rebase_keeps_claim (hI : IndexWf I) (hv : v = s.retry I parts epoch genTerm blockTerm sorts)
    {c : Claim} (hc : c ∈ I.catalog) :
    (∃ c' ∈ v.catalog, c'.key = c.key) ∨
      maxLineage < (untrimmed s I v).catalog.length ∧ c.key ∉ (untrimmed s I v).reachedClaims := by
  have hcatalog : v.catalog = (untrimmed s I v).trimCatalog.catalog :=
    Engine.nextIndex_catalog _ parts epoch genTerm blockTerm sorts hv
  obtain ⟨c₁, hc₁, hkey₁⟩ : ∃ c' ∈ (s.rebase (some I)).engine.catalog, c'.key = c.key :=
    exists_mem_mergeLineage (mem_cons_of_mem _ mem_cons_self) hc (hI.catalog c hc)
  obtain ⟨c₂, hc₂, hkey₂⟩ : ∃ c' ∈ (untrimmed s I v).catalog, c'.key = c₁.key :=
    exists_mem_mergeLineage mem_cons_self
      (mem_append_left _ (mem_append_left _ hc₁)) (mem_of_mem_mergeLineage hc₁).1
  rcases mem_trimCatalog hc₂ with hkept | ⟨hover, hunreached⟩
  · rw [hcatalog]
    exact .inl ⟨c₂, hkept, hkey₂.trans hkey₁⟩
  · rw [hkey₂, hkey₁] at hunreached
    exact .inr ⟨hover, hunreached⟩

/-! ## Nobody's facts are lost -/

/-- What the index `v` a writer's retry publishes over the index `I` keeps of what both knew. -/
structure RebaseKeeps (s : Writer) (I : Index) (parts : List Part) (epoch : UInt64) (term : UInt64)
    (v : Index) : Prop where
  /-- The rival's parts the writer never had, never removed and does not want. -/
  data : ∀ d ∈ I.entries, d.data = true → Unclaimed s parts d.pref → d ∈ v.entries
  /-- The wants, but for those an entry of `v` discharges. -/
  wants : ∀ w, OwedBy s I v.generation w → ∃ w', OwedBy s I v.generation w' ∧ w'.pref = w.pref ∧
    (w' ∈ v.wanted ∨ ∃ d ∈ v.entries, (retryRelations s I v).discharging w' = some d)
  /-- The holes, but for those that are answered. -/
  holes : ∀ h, h ∈ I.holes ∨ h ∈ s.engine.holes →
    (∃ h' ∈ v.entries, h'.hole = true ∧ h'.pref = h.pref) ∨
      ∃ h', (h' ∈ I.holes ∨ h' ∈ s.engine.holes) ∧ h'.pref = h.pref ∧ HoleAnswered s I parts term h'
  /-- What answers a hole is in `v`, unless the writer gives it up as lost in the same commit. -/
  answers : ∀ d ∈ s.retryParts I parts term, d.data = true →
    d ∈ v.entries ∨ ∃ u ∈ s.engine.pendingHoles, u.pref = d.pref
  lostParts : LossesFit s I → max s.engine.lostParts I.lostParts ≤ v.lostParts
  slots : ∀ slot ∈ I.epochs, slot.writer ≠ s.engine.writerID →
    slot ∈ v.epochs ∨ maxWriters < (stampedSlots s I epoch v.generation).length
  claims : ∀ c ∈ I.catalog, (∃ c' ∈ v.catalog, c'.key = c.key) ∨
    maxLineage < (untrimmed s I v).catalog.length ∧ c.key ∉ (untrimmed s I v).reachedClaims

end Retry

variable {W : Type*} [DecidableEq W]

/-- **A rebase loses nobody's facts exactly when the writer's bookkeeping is accurate.**  In any run
of any writers, a retry over the index that is stored keeps everything of the list but the rival's
parts, and it keeps those too if and only if no part the writer never had is among its indexed
prefixes or its tombstones. -/
theorem rebase_keeps {σ : State Unit W Writer Index} (h : Reachable writers Writer.IsNew σ) (w : W)
    {I : Index} (hI : σ.stored = some I) (parts : List Part) (epoch : UInt64)
    (genTerm blockTerm : UInt64) (sorts : Sorts) :
    RebaseKeeps (σ.writer w) I parts epoch blockTerm
        ((σ.writer w).retry I parts epoch genTerm blockTerm sorts) ↔
      Accurate (σ.writer w) I parts := by
  have hinv := rebaseInv h w
  have hwf : IndexWf I := by
    have := hinv.stored
    rwa [hI] at this
  refine ⟨fun hk => (rebase_data_iff hwf hinv.holes rfl).mp hk.data, fun hacc => ?_⟩
  exact
    { data := (rebase_data_iff hwf hinv.holes rfl).mpr hacc
      wants := fun _ hw => rebase_keeps_want rfl hw
      holes := fun _ hh => rebase_keeps_hole hinv.holes rfl hh
      answers := fun _ hd hdata => mem_retry_of_retryParts hinv.holes rfl hd hdata
      lostParts := fun hfit => rebase_lostParts rfl hfit
      slots := fun _ hslot hother => rebase_keeps_slot rfl hslot hother
      claims := fun _ hc => rebase_keeps_claim hwf rfl hc }

/-- The want of such a part. -/
def Want.bare (pref : Bytes) : Want := ⟨pref, default, default, 0, 0, 0, 0, default⟩

/-- A writer publishes part 1 while the other flushes part 2: the retry carries part 1. -/
theorem rebase_keeps_flush : ∃ (σ : State Unit Bool Writer Index) (I : Index),
    σ.stored = some I ∧ I.entries.map Entry.pref = [[1]] ∧
      RebaseKeeps (σ.writer false) I [Part.bare [2] (some flushPlan)] 1 0
        ((σ.writer false).retry I [Part.bare [2] (some flushPlan)] 1 0 0 .stable) := by
  have r₀ : Reachable writers Writer.IsNew _ := reachable_two _
  have r := r₀
    |>.step (.act (w := true) (.flush [1] rfl rfl trivial))
    |>.step (.save (w := true) rfl rfl ⟨_, rfl, .inl rfl⟩)
    |>.step (.act (w := false) (.flush [2] rfl rfl trivial))
    |>.step (.act (w := false) .fail)
  refine ⟨_, _, rfl, by decide, (rebase_keeps r false rfl _ 1 0 0 .stable).mpr ?_⟩
  intro d hd _ _
  obtain rfl := mem_singleton.mp hd
  exact ⟨by decide, nofun⟩

/-- **A repair is lost.**  A writer acknowledges the loss of part 1, a second one loads the index
with the hole, and the first repairs the part.  The second flushes part 2, loses the race, rebases
and lands: it never had part 1, never removed it and does not want it, and its index has the hole
again in place of the part. -/
theorem rebase_drops_part : ∃ σ : State Unit Bool Writer Index, Reachable writers Writer.IsNew σ ∧
    σ.landed.map (fun x => x.2.entries.map fun d => (d.pref, d.hole)) =
      [[([1], true), ([2], false)], [([1], false)], [([1], true)]] ∧
    ∃ s v older, σ.landed = (s, v) :: older ∧ Unclaimed s [Part.bare [2] none] [1] := by
  have r₀ : Reachable writers Writer.IsNew _ := reachable_two _
  have r := r₀
    |>.step (.act (w := true) (.work [] [Want.bare [1]] [Want.bare [1]] 0 rfl .refl))
    |>.step (.act (w := true) (.build [] 0 0 0 .stable rfl .refl trivial))
    |>.step (.save (w := true) rfl rfl ⟨_, rfl, .inl rfl⟩)
    |>.step (.act (w := false) (.load (fun _ => true) rfl))
    |>.step (.act (w := true) (.build [Part.bare [1] none] 0 0 0 .stable rfl
      (.single (.repair _ rfl)) trivial))
    |>.step (.save (w := true) rfl rfl ⟨_, rfl, .inl rfl⟩)
    |>.step (.act (w := false) (.flush [2] rfl rfl trivial))
    |>.step (.act (w := false) .fail)
    |>.step (.act (w := false) (.rebase rfl trivial))
    |>.step (.act (w := false) (.flush [2] rfl rfl trivial))
    |>.step (.save (w := false) rfl rfl ⟨_, rfl, .inl rfl⟩)
  exact ⟨_, r, by decide, _, _, _, rfl, by decide, by decide, by decide, by decide⟩

end OtelStorage
