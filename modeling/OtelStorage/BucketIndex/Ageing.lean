import OtelStorage.BucketIndex.Relations

/-!
# Ageing the catalog

Trimming drops claims from the catalog, and what the index answers for a want rests on the claims: a
claim dropped too early would turn a want that a successor answers into one that nothing does.  The
claims kept are those the upward ancestry of an entry or a want passes through.  The answers use two
more closures: what a part holds descends to the members of a group, and what the index covers
completes groups.

Upward is enough.  Let `U` be the blocks climbed to from the entries and wants.  A claim whose group
meets `U` is kept and its ancestry lies in `U` (`Ages`).  What the index covers never leaves `U`, so
it only completes such groups; what a part holds does leave `U`, but through a group outside `U` it
never comes back to it.

That the marks of `reachAncestry` are this closure is the first half: the walk follows each claim
once, over all the intervals it is given, and leaves nothing unfollowed (`reachAncestry_spec`).
-/

namespace OtelStorage.BucketIndex

open FirstOccurrence List Function

/-! ## The marking walk -/

section Marking

variable {n : ℕ}

/-- The claims not marked yet. -/
def unmarked (reached : Fin n → Bool) : Finset (Fin n) :=
  Finset.univ.filter fun i => reached i = false

theorem card_unmarked_update {reached : Fin n → Bool} {i : Fin n} (hi : reached i = false) :
    (unmarked (update reached i true)).card + 1 = (unmarked reached).card := by
  have herase : unmarked (update reached i true) = (unmarked reached).erase i := by
    ext j
    by_cases hj : j = i
    · subst hj
      simp [unmarked]
    · simp [unmarked, hj]
  rw [herase]
  exact Finset.card_erase_add_one (Finset.mem_filter.mpr ⟨Finset.mem_univ i, hi⟩)

/-- What pushing claims does: they are marked, those that were not stand in the queue, and every new
mark takes a place there. -/
structure Pushed (new : List (Fin n)) (s s' : List (Fin n) × (Fin n → Bool)) : Prop where
  marks : ∀ i, s.2 i = true → s'.2 i = true
  queues : ∀ i ∈ s.1, i ∈ s'.1
  marked : ∀ i ∈ new, s'.2 i = true
  fresh : ∀ i, s'.2 i = true → s.2 i = true ∨ i ∈ s'.1
  work : s'.1.length + (unmarked s'.2).card = s.1.length + (unmarked s.2).card

theorem pushAll_pushed (new : List (Fin n)) (s : List (Fin n) × (Fin n → Bool)) :
    Pushed new s (pushAll new s) := by
  induction new generalizing s with
  | nil => exact ⟨fun _ h => h, fun _ h => h, nofun,
      fun _ h => .inl h, rfl⟩
  | cons i new ih =>
    obtain ⟨queue, reached⟩ := s
    by_cases hi : reached i = true
    · have hstep : pushAll (i :: new) (queue, reached) = pushAll new (queue, reached) := by
        rw [pushAll, foldl_cons, if_pos hi]
        rfl
      have hrest := ih (queue, reached)
      rw [hstep]
      refine { hrest with marked := ?_ }
      exact forall_mem_cons.mpr ⟨hrest.marks i hi, hrest.marked⟩
    have hstep : pushAll (i :: new) (queue, reached) =
        pushAll new (i :: queue, update reached i true) := by
      rw [pushAll, foldl_cons, if_neg hi]
      rfl
    have hrest := ih (i :: queue, update reached i true)
    have hself : update reached i true i = true := update_self ..
    rw [hstep]
    refine ⟨fun j hj => hrest.marks j ?_, fun j hj => hrest.queues j (mem_cons_of_mem i hj),
      forall_mem_cons.mpr ⟨hrest.marks i hself, hrest.marked⟩, fun j hj => ?_, ?_⟩
    · by_cases hji : j = i
      · exact hji ▸ hself
      · exact (update_of_ne hji ..).trans hj
    · rcases hrest.fresh j hj with hmark | hqueue
      · by_cases hji : j = i
        · exact .inr (hji ▸ hrest.queues i mem_cons_self)
        · exact .inl ((update_of_ne hji ..).symm.trans hmark)
      · exact .inr hqueue
    · have hcard := card_unmarked_update (Bool.eq_false_iff.mpr hi)
      have hwork := hrest.work
      dsimp only [length_cons] at hwork ⊢
      omega

end Marking

/-- The claims the ancestry of claim `i` passes through next. -/
def nextClaims (l : Lineage) (i : Fin l.length) : List (Fin l.length) :=
  meetingInterval (buildIndex fun i => (l.get i).group) (l.get i).blocks

/-- Marks with nothing left to follow. -/
def Followed (l : Lineage) (reached : Fin l.length → Bool) : Prop :=
  ∀ i, reached i = true → ∀ j ∈ nextClaims l i, reached j = true

variable (l : Lineage) {ix : Index} {c : Claim}

/-- The walk ends with nothing left to follow: each step takes a claim off the queue, and there are
no more claims to queue than are not marked. -/
theorem reachLoop_followed (fuel : ℕ) (s : List (Fin l.length) × (Fin l.length → Bool))
    (hpending : ∀ i, s.2 i = true → i ∈ s.1 ∨ ∀ j ∈ nextClaims l i, s.2 j = true)
    (hfuel : s.1.length + (unmarked s.2).card ≤ fuel) :
    (∀ i, s.2 i = true → reachLoop l (buildIndex fun i => (l.get i).group) fuel s i = true) ∧
      Followed l (reachLoop l (buildIndex fun i => (l.get i).group) fuel s) := by
  induction fuel generalizing s with
  | zero =>
    have hnil : s.1 = [] := eq_nil_of_length_eq_zero (by omega)
    exact ⟨fun i hi => hi, fun i hi => (hpending i hi).resolve_left (hnil ▸ not_mem_nil)⟩
  | succ fuel ih =>
    obtain ⟨queue, reached⟩ := s
    cases queue with
    | nil =>
      exact ⟨fun i hi => hi, fun i hi => (hpending i hi).resolve_left not_mem_nil⟩
    | cons i queue =>
      rw [reachLoop]
      have hpush := pushAll_pushed (nextClaims l i) (queue, reached)
      have hwork := hpush.work
      have hpending' : ∀ j, (pushAll (nextClaims l i) (queue, reached)).2 j = true →
          j ∈ (pushAll (nextClaims l i) (queue, reached)).1 ∨
            ∀ k ∈ nextClaims l j, (pushAll (nextClaims l i) (queue, reached)).2 k = true := by
        intro j hj
        rcases hpush.fresh j hj with hold | hqueued
        · rcases hpending j hold with hmem | hdone
          · rcases mem_cons.mp hmem with rfl | hmem
            · exact .inr hpush.marked
            · exact .inl (hpush.queues j hmem)
          · exact .inr fun k hk => hpush.marks k (hdone k hk)
        · exact .inl hqueued
      dsimp only [length_cons] at hwork hfuel
      obtain ⟨hmarks, hfollowed⟩ := ih _ hpending' (by omega)
      exact ⟨fun j hj => hmarks j (hpush.marks j hj), hfollowed⟩

theorem mem_meetingInterval {n : ℕ} {f : Fin n → Interval} {iv : Interval} {i : Fin n}
    (h : ((f i).blocks ∩ iv.blocks).Nonempty) : i ∈ meetingInterval (buildIndex f) iv := by
  obtain ⟨b, hb, hbiv⟩ := h
  obtain ⟨r, hr, hbr⟩ := mem_heldRuns_of_mem_blocks hbiv
  rw [meetingInterval, mem_flatMap]
  exact ⟨r, (mem_heldRuns.mp hr).2, (meeting_buildIndex ⟨b, hbr⟩ i).mpr ⟨b, hb, hbr⟩⟩

theorem reachAncestry_spec (reached : Fin l.length → Bool) (iv : Interval)
    (h : Followed l reached) :
    Followed l (reachAncestry l (buildIndex fun i => (l.get i).group) reached iv) ∧
      (∀ i, reached i = true →
        reachAncestry l (buildIndex fun i => (l.get i).group) reached iv i = true) ∧
      ∀ i, ((l.get i).group.blocks ∩ iv.blocks).Nonempty →
        reachAncestry l (buildIndex fun i => (l.get i).group) reached iv i = true := by
  rw [reachAncestry]
  split
  · rename_i hinvalid
    refine ⟨h, fun i hi => hi, fun i hmeets => absurd hmeets.right ?_⟩
    rw [Interval.blocks_of_not_valid (by simpa using hinvalid)]
    exact Set.not_nonempty_empty
  have hpush := pushAll_pushed
    (meetingInterval (buildIndex fun i => (l.get i).group) iv) ([], reached)
  have hcard := (unmarked reached).card_le_univ
  have hwork := hpush.work
  obtain ⟨hmarks, hfollowed⟩ := reachLoop_followed l (l.length + 1)
    (pushAll (meetingInterval (buildIndex fun i => (l.get i).group) iv) ([], reached))
    (fun i hi => (hpush.fresh i hi).symm.imp_right fun hold j hj => hpush.marks j (h i hold j hj))
    (by
      rw [Fintype.card_fin] at hcard
      dsimp only [length_nil] at hwork
      omega)
  exact ⟨hfollowed, fun i hi => hmarks i (hpush.marks i hi),
    fun i hmeets => hmarks i (hpush.marked i (mem_meetingInterval hmeets))⟩

theorem foldl_reachAncestry (ivs : List Interval) (reached : Fin l.length → Bool)
    (h : Followed l reached) :
    Followed l (ivs.foldl (reachAncestry l (buildIndex fun i => (l.get i).group)) reached) ∧
      (∀ i, reached i = true →
        ivs.foldl (reachAncestry l (buildIndex fun i => (l.get i).group)) reached i = true) ∧
      ∀ iv ∈ ivs, ∀ i, ((l.get i).group.blocks ∩ iv.blocks).Nonempty →
        ivs.foldl (reachAncestry l (buildIndex fun i => (l.get i).group)) reached i = true := by
  induction ivs generalizing reached with
  | nil => exact ⟨h, fun _ hi => hi, nofun⟩
  | cons iv ivs ih =>
    obtain ⟨hfollowed, hmarks, hmeets⟩ := reachAncestry_spec l reached iv h
    obtain ⟨hfollowed', hmarks', hmeets'⟩ := ih _ hfollowed
    refine ⟨hfollowed', fun i hi => hmarks' i (hmarks i hi), ?_⟩
    exact forall_mem_cons.mpr ⟨fun i hi => hmarks' i (hmeets i hi), hmeets'⟩

/-! ## Dropping claims out of reach -/

/-- From the lineage `m` to `l` claims were dropped, but none whose group meets `U`; and from `U`
the claims climb only within it. -/
structure Ages (m l : Lineage) (U : Set Block) : Prop where
  sub : ∀ c ∈ l, c ∈ m
  kept : ∀ c ∈ m, (c.group.blocks ∩ U).Nonempty → c ∈ l
  climbs : ∀ c ∈ m, (c.group.blocks ∩ U).Nonempty → c.blocks.blocks ⊆ U

section Ages

variable {l} {m : Lineage} {U S W : Set Block} {before after : Relations} {i : Fin l.length}

theorem Ages.exists_before (h : Ages m l U) (i : Fin l.length) : ∃ j, m.get j = l.get i :=
  mem_iff_get.mp (h.sub _ (l.get_mem i))

theorem Ages.exists_after (h : Ages m l U) {i : Fin m.length}
    (hi : ((m.get i).group.blocks ∩ U).Nonempty) : ∃ j, l.get j = m.get i :=
  mem_iff_get.mp (h.kept _ (m.get_mem i) hi)

theorem upSet_closed (h : ReachesGroup l i (upSet l S)) : (l.get i).blocks.blocks ⊆ upSet l S :=
  Worklist.closed_closure (ReachesGroup l)
    (fun i => (l.get i).blocks.blocks) reachesGroup_mono S i h

theorem realizeSet_closed (h : HoldsGroup l i (realizeSet l S)) :
    (l.get i).blocks.blocks ⊆ realizeSet l S :=
  Worklist.closed_closure (HoldsGroup l) (fun i => (l.get i).blocks.blocks) holdsGroup_mono S i h

theorem holdSet_closed (h : CoversAncestry l i (holdSet l S)) :
    (l.get i).group.blocks ⊆ holdSet l S :=
  Worklist.closed_closure (CoversAncestry l) (fun i => (l.get i).group.blocks) coversAncestry_mono S
    i h

theorem Ages.upSet_subset (h : Ages m l U) (hS : S ⊆ U) : upSet m S ⊆ U :=
  Worklist.closure_subset _ _ hS fun i hi => h.climbs _ (m.get_mem i) hi

theorem Ages.upSet_eq (h : Ages m l U) (hS : S ⊆ U) : upSet l S = upSet m S := by
  have hle : upSet l S ⊆ upSet m S := by
    refine Worklist.closure_subset_of_rules reachesGroup_mono (fun i => ?_) S
    obtain ⟨j, hj⟩ := h.exists_before i
    refine ⟨j, fun T hT => ?_, ?_⟩
    · rwa [ReachesGroup, hj]
    · rw [hj]
  refine subset_antisymm hle (Worklist.closure_subset _ _ (Worklist.subset_closure _ _ S) ?_)
  intro i hi
  have hreach := reachesGroup_mono i _ _ (hle.trans (h.upSet_subset hS)) hi
  obtain ⟨j, hj⟩ := h.exists_after hreach
  dsimp only
  rw [← hj]
  refine upSet_closed ?_
  rwa [ReachesGroup, hj]

theorem Ages.exists_reachesGroup (h : Ages m l U) (hS : S ⊆ U) :
    (∃ i, ReachesGroup l i S) ↔ ∃ i, ReachesGroup m i S := by
  constructor
  · rintro ⟨i, hi⟩
    obtain ⟨j, hj⟩ := h.exists_before i
    exact ⟨j, by rwa [ReachesGroup, hj]⟩
  · rintro ⟨i, hi⟩
    obtain ⟨j, hj⟩ := h.exists_after (reachesGroup_mono i _ _ hS hi)
    exact ⟨j, by rwa [ReachesGroup, hj]⟩

theorem HoldsGroup.reaches {l : Lineage} {i : Fin l.length} {T : Set Block}
    (h : HoldsGroup l i T) : ReachesGroup l i T := by
  obtain ⟨b, hb⟩ := Interval.valid_iff_nonempty.mp h.1
  exact ⟨b, hb, h.2 hb⟩

/-- **What is covered stays within reach**, so only groups within reach are completed. -/
theorem Ages.realizeSet_eq (h : Ages m l U) (hS : S ⊆ U) : realizeSet l S = realizeSet m S := by
  have hle : realizeSet l S ⊆ realizeSet m S := by
    refine Worklist.closure_subset_of_rules holdsGroup_mono (fun i => ?_) S
    obtain ⟨j, hj⟩ := h.exists_before i
    refine ⟨j, fun T hT => ?_, ?_⟩
    · rwa [HoldsGroup, hj]
    · rw [hj]
  have hwithin : realizeSet m S ⊆ U :=
    Worklist.closure_subset _ _ hS fun i hi => h.climbs _ (m.get_mem i) hi.reaches
  refine subset_antisymm hle (Worklist.closure_subset _ _ (Worklist.subset_closure _ _ S) ?_)
  intro i hi
  obtain ⟨j, hj⟩ := h.exists_after (holdsGroup_mono i _ _ (hle.trans hwithin) hi).reaches
  dsimp only
  rw [← hj]
  refine realizeSet_closed ?_
  rwa [HoldsGroup, hj]

/-- **What is held agrees within reach**: a group that meets `U` has its ancestry there, so what is
held outside never leads back. -/
theorem Ages.subset_holdSet_iff (h : Ages m l U) (hW : W ⊆ U) :
    W ⊆ holdSet l S ↔ W ⊆ holdSet m S := by
  have hle : holdSet l S ⊆ holdSet m S := by
    refine Worklist.closure_subset_of_rules coversAncestry_mono (fun i => ?_) S
    obtain ⟨j, hj⟩ := h.exists_before i
    refine ⟨j, fun T hT => ?_, ?_⟩
    · rwa [CoversAncestry, hj]
    · rw [hj]
  refine ⟨fun hsub => hsub.trans hle, fun hsub b hb => ?_⟩
  -- what is held after the drop, with everything out of reach, is closed before it
  have hclosed : holdSet m S ⊆ holdSet l S ∪ Uᶜ := by
    refine Worklist.closure_subset _ _
      ((Worklist.subset_closure _ _ S).trans Set.subset_union_left) fun i hi b hb => ?_
    by_cases hbU : b ∈ U
    · have hmeets : ((m.get i).group.blocks ∩ U).Nonempty := ⟨b, hb, hbU⟩
      obtain ⟨j, hj⟩ := h.exists_after hmeets
      refine .inl (holdSet_closed (i := j) ⟨?_, fun x hx => ?_⟩ ?_)
      · rw [hj]
        exact hi.1
      · rw [hj] at hx
        refine (hi.2 hx).resolve_right fun hout => hout (h.climbs _ (m.get_mem i) hmeets hx)
      · rw [hj]
        exact hb
    · exact .inr hbU
  exact (hclosed (hsub hb)).resolve_right fun hout => hout (hW hb)

/-! ## The answers -/

theorem contains_iff_subset (iv o : Interval) :
    iv.contains o = true ↔ o.valid = true ∧ o.blocks ⊆ iv.blocks := by
  rw [Interval.contains_iff]
  refine ⟨fun h => h.2, fun h => ⟨?_, h⟩⟩
  exact Interval.valid_iff_nonempty.mpr ((Interval.valid_iff_nonempty.mp h.1).mono h.2)

theorem Ages.subsumes_eq (h : Ages m l U) (e : Entry) {o : Entry} (ho : o.blocks.blocks ⊆ U) :
    l.subsumes e o = m.subsumes e o := by
  have hholds : (holds l e.blocks).contains o.blocks = (holds m e.blocks).contains o.blocks := by
    rw [Bool.eq_iff_iff, contains_iff_subset, contains_iff_subset, holds_spec, holds_spec,
      h.subset_holdSet_iff ho]
  rw [Lineage.subsumes, Lineage.subsumes, hholds]

theorem Relations.forClaim_of_known {rel : Relations}
    (h : c.valid = true → ∃ o ∈ rel.l, o.key = c.key) : rel.forClaim c = rel := by
  rw [Relations.forClaim]
  cases hvalid : c.valid with
  | false => rfl
  | true =>
    obtain ⟨o, ho, hkey⟩ := h hvalid
    have hany : (rel.l.any fun o => o.key == c.key) = true :=
      any_eq_true.mpr ⟨o, ho, beq_iff_eq.mpr hkey⟩
    rw [hany]
    rfl

/-- Two indexes with the same entries, the second over a lineage with claims dropped, whose entries
are within reach and carry claims both lineages know. -/
structure Aged (before after : Relations) (U : Set Block) : Prop where
  ages : Ages before.l after.l U
  entries : after.ix.entries = before.ix.entries
  within : ∀ e ∈ before.ix.entries, e.blocks.blocks ⊆ U
  known : ∀ e ∈ before.ix.entries, e.claim.valid = true →
    (∃ o ∈ before.l, o.key = e.claim.key) ∧ ∃ o ∈ after.l, o.key = e.claim.key

theorem Aged.covered_eq (h : Aged before after U) (admits : Entry → Bool) :
    (after.covered admits).blocks = (before.covered admits).blocks := by
  rw [covered_spec, covered_spec, h.entries]
  refine h.ages.realizeSet_eq ?_
  rintro b ⟨e, he, hb⟩
  exact h.within e (mem_filter.mp he).1 hb

theorem Aged.jointlySatisfying_eq (h : Aged before after U) (w : Want) (admits : Entry → Bool) :
    after.jointlySatisfying w admits = before.jointlySatisfying w admits := by
  have hcovered : (after.covered admits).contains w.blocks =
      (before.covered admits).contains w.blocks := by
    rw [Bool.eq_iff_iff, contains_iff_subset, contains_iff_subset, h.covered_eq]
  rw [Relations.jointlySatisfying, Relations.jointlySatisfying, hcovered, h.entries]
  refine if_congr Iff.rfl rfl (congrArg bestSuccessor (filter_congr fun e he => ?_))
  have hup := h.ages.upSet_eq (h.within e he)
  rw [Relations.forClaim_of_known fun hv => (h.known e he hv).2,
    Relations.forClaim_of_known fun hv => (h.known e he hv).1]
  obtain ⟨hblocks, hvia⟩ := ancestry_spec after.l e.blocks
  obtain ⟨hblocks', hvia'⟩ := ancestry_spec before.l e.blocks
  have hany : (List.finRange after.l.length).any (ancestry after.l e.blocks).2 =
      (List.finRange before.l.length).any (ancestry before.l e.blocks).2 := by
    rw [Bool.eq_iff_iff, any_eq_true, any_eq_true]
    simp only [mem_finRange, true_and, hvia, hvia', hup]
    exact h.ages.exists_reachesGroup (h.ages.upSet_subset (h.within e he))
  have hmeets : (ancestry after.l e.blocks).1.meets w.blocks =
      (ancestry before.l e.blocks).1.meets w.blocks := by
    rw [Bool.eq_iff_iff, Interval.meets_iff, Interval.meets_iff, hblocks, hblocks', hup]
  dsimp only
  rw [hany, hmeets]

/-- **The same entry answers a want within reach.** -/
theorem Aged.satisfying_eq (h : Aged before after U) {w : Want} (hw : w.blocks.blocks ⊆ U)
    (admits : Entry → Bool) : after.satisfying w admits = before.satisfying w admits := by
  have hfilter : (before.ix.entries.filter fun e =>
        admits e && (e.blocks.contains w.blocks || after.l.subsumes e w.entry)) =
      before.ix.entries.filter fun e =>
        admits e && (e.blocks.contains w.blocks || before.l.subsumes e w.entry) :=
    filter_congr fun e _ => by rw [h.ages.subsumes_eq e hw]
  rw [Relations.satisfying, Relations.satisfying, h.entries, hfilter, h.jointlySatisfying_eq]

end Ages

/-! ## The lineage of a trimmed index -/

theorem foldl_add_lineage (catalog cs extra : List Claim) :
    cs.foldl (fun l c =>
      if !c.valid || catalog.any (fun o => compareClaims o c == .eq) ||
        (l.drop catalog.length).contains c then l else l ++ [c]) (catalog ++ extra) =
      catalog ++ appendNew (fun c => c.valid && !catalog.any fun o => compareClaims o c == .eq)
        extra cs := by
  induction cs generalizing extra with
  | nil => rfl
  | cons a cs ih =>
    rw [foldl_cons, drop_left, appendNew, foldl_cons, ← appendNew, ← ih]
    congr 1
    cases a.valid <;> cases catalog.any _ <;> cases extra.contains a <;> simp

/-- The claims the entries and wants of an index carry. -/
def Index.Carries (ix : Index) (c : Claim) : Prop :=
  (∃ e ∈ ix.entries, e.claim = c) ∨ ∃ w ∈ ix.wanted, w.claim = c

theorem mem_lineage : c ∈ ix.lineage ↔
    c ∈ ix.catalog ∨ ix.Carries c ∧ c.valid = true ∧ ∀ o ∈ ix.catalog, o.key ≠ c.key := by
  have hentries := foldl_add_lineage ix.catalog (ix.entries.map Entry.claim) []
  rw [append_nil] at hentries
  have hnew : (c.valid && !ix.catalog.any fun o => compareClaims o c == .eq) = true ↔
      c.valid = true ∧ ∀ o ∈ ix.catalog, o.key ≠ c.key := by
    rw [Bool.and_eq_true, Bool.not_eq_true', any_eq_false]
    simp only [beq_iff_eq, compareClaims_eq_iff, ne_eq]
  rw [Index.lineage, hentries, foldl_add_lineage, mem_append, mem_appendNew, mem_appendNew, hnew,
    mem_map, mem_map, or_iff_right not_mem_nil, Index.Carries, or_and_right]

theorem known_of_carries (h : ix.Carries c) (hvalid : c.valid = true) :
    ∃ o ∈ ix.lineage, o.key = c.key := by
  by_cases hknown : ∃ o ∈ ix.catalog, o.key = c.key
  · obtain ⟨o, ho, hkey⟩ := hknown
    exact ⟨o, mem_lineage.mpr (.inl ho), hkey⟩
  · refine ⟨c, mem_lineage.mpr (.inr ⟨h, hvalid, fun o ho hkey => hknown ⟨o, ho, hkey⟩⟩), rfl⟩

theorem key_mem_reachedClaims_of_carries (h : ix.Carries c) (hvalid : c.valid = true) :
    c.key ∈ ix.reachedClaims := by
  refine mem_append_right _ (mem_map.mpr ⟨c, mem_filter.mpr ⟨?_, hvalid⟩, rfl⟩)
  rw [mem_append, mem_map, mem_map]
  exact h

/-- The blocks of the entries and wants. -/
def Index.roots (ix : Index) : Set Block :=
  {b | ∃ iv ∈ ix.wanted.map Want.blocks ++ ix.entries.map Entry.blocks, b ∈ iv.blocks}

/-- The blocks climbed to from the entries and wants. -/
def Index.reach (ix : Index) : Set Block := upSet ix.lineage ix.roots

theorem key_mem_reachedClaims (hc : c ∈ ix.lineage)
    (hmeets : (c.group.blocks ∩ ix.reach).Nonempty) : c.key ∈ ix.reachedClaims := by
  obtain ⟨hfollowed, -, hroots⟩ := foldl_reachAncestry ix.lineage
    (ix.wanted.map Want.blocks ++ ix.entries.map Entry.blocks) (fun _ => false)
    (fun i hi => absurd hi Bool.false_ne_true)
  obtain ⟨reached, hreached⟩ : ∃ reached, reached =
      (ix.wanted.map Want.blocks ++ ix.entries.map Entry.blocks).foldl
        (reachAncestry ix.lineage (buildIndex fun i => (ix.lineage.get i).group))
        fun _ => false := ⟨_, rfl⟩
  rw [← hreached] at hfollowed hroots
  -- the roots and the ancestry of the marked groups are closed under climbing
  let T : Set Block := {b | b ∈ ix.roots ∨ ∃ i, reached i = true ∧
    b ∈ (ix.lineage.get i).blocks.blocks}
  have hmarked : ∀ i, ReachesGroup ix.lineage i T → reached i = true := by
    rintro i ⟨b, hb, ⟨iv, hiv, hbiv⟩ | ⟨j, hj, hbj⟩⟩
    · exact hroots iv hiv i ⟨b, hb, hbiv⟩
    · exact hfollowed j hj i (mem_meetingInterval ⟨b, hb, hbj⟩)
  have hreach : ix.reach ⊆ T :=
    Worklist.closure_subset _ _ (fun b hb => .inl hb) fun i hi b hb =>
      .inr ⟨i, hmarked i hi, hb⟩
  obtain ⟨i, rfl⟩ := mem_iff_get.mp hc
  have hi := hmarked i (reachesGroup_mono i _ _ hreach hmeets)
  refine mem_append_left _ (mem_map.mpr ⟨i, mem_filter.mpr ?_, rfl⟩)
  exact ⟨mem_finRange i, hreached ▸ hi⟩

theorem trimCatalog_eq (ix : Index) :
    ix.trimCatalog = { ix with catalog := ix.trimCatalog.catalog } := by
  rw [Index.trimCatalog]
  split <;> rfl

theorem carries_trimCatalog (ix : Index) (c : Claim) : ix.trimCatalog.Carries c ↔ ix.Carries c := by
  rw [trimCatalog_eq]
  rfl

theorem exists_key_trimCatalog (h : ix.Carries c) (hvalid : c.valid = true) :
    (∃ o ∈ ix.trimCatalog.catalog, o.key = c.key) ↔ ∃ o ∈ ix.catalog, o.key = c.key := by
  constructor
  · rintro ⟨o, ho, hkey⟩
    exact ⟨o, (trimCatalog_sublist ix).mem ho, hkey⟩
  · rintro ⟨o, ho, hkey⟩
    refine ⟨o, (mem_trimCatalog ho).resolve_right fun hdropped => hdropped.2 ?_, hkey⟩
    rw [hkey]
    exact key_mem_reachedClaims_of_carries h hvalid

/-- **Trimming drops only claims out of reach.** -/
theorem ages_trimCatalog (ix : Index) : Ages ix.lineage ix.trimCatalog.lineage ix.reach where
  sub c hc := by
    rcases mem_lineage.mp hc with hc | ⟨hcarries, hvalid, hnew⟩
    · exact mem_lineage.mpr (.inl ((trimCatalog_sublist ix).mem hc))
    · rw [carries_trimCatalog] at hcarries
      refine mem_lineage.mpr (.inr ⟨hcarries, hvalid, fun o ho hkey => ?_⟩)
      obtain ⟨o', ho', hkey'⟩ := (exists_key_trimCatalog hcarries hvalid).mpr ⟨o, ho, hkey⟩
      exact hnew o' ho' hkey'
  kept c hc hmeets := by
    have hreached := key_mem_reachedClaims hc hmeets
    rcases mem_lineage.mp hc with hc | ⟨hcarries, hvalid, hnew⟩
    · exact mem_lineage.mpr (.inl ((mem_trimCatalog hc).resolve_right fun h => h.2 hreached))
    · refine mem_lineage.mpr (.inr ⟨(carries_trimCatalog ix c).mpr hcarries, hvalid, ?_⟩)
      exact fun o ho => hnew o ((trimCatalog_sublist ix).mem ho)
  climbs c hc hmeets := by
    obtain ⟨i, rfl⟩ := mem_iff_get.mp hc
    exact upSet_closed hmeets

/-! ## The answers of a trimmed index -/

/-- The entry that answers a want. -/
def Index.satisfying (ix : Index) (w : Want) : Option Entry :=
  ((ix.relations []).forClaim w.claim).satisfying w Entry.data

/-- The entry that ends a want as an obligation. -/
def Index.discharging (ix : Index) (w : Want) : Option Entry := (ix.relations []).discharging w

/-- The blocks the parts of the index hold between them. -/
def Index.covered (ix : Index) : Interval := (ix.relations []).covered Entry.data

/-- The index once entries were lost: the wants for them stand in their place. -/
def Index.afterLoss (ix : Index) (lost : Entry → Bool) (g : Generation) : Index :=
  { ix with
    entries := ix.entries.filter fun e => !lost e
    wanted := ix.wanted ++ (ix.entries.filter lost).map fun e => wantOf e g }

theorem carries_afterLoss (ix : Index) (lost : Entry → Bool) (g : Generation) (c : Claim) :
    (ix.afterLoss lost g).Carries c ↔ ix.Carries c := by
  constructor
  · rintro (⟨e, he, rfl⟩ | ⟨w, hw, rfl⟩)
    · exact .inl ⟨e, (mem_filter.mp he).1, rfl⟩
    · rcases mem_append.mp hw with hw | hw
      · exact .inr ⟨w, hw, rfl⟩
      · obtain ⟨e, he, rfl⟩ := mem_map.mp hw
        exact .inl ⟨e, (mem_filter.mp he).1, rfl⟩
  · rintro (⟨e, he, rfl⟩ | ⟨w, hw, rfl⟩)
    · by_cases hlost : lost e = true
      · exact .inr ⟨wantOf e g, mem_append_right _
          (mem_map.mpr ⟨e, mem_filter.mpr ⟨he, hlost⟩, rfl⟩), rfl⟩
      · exact .inl ⟨e, mem_filter.mpr ⟨he, by simpa using hlost⟩, rfl⟩
    · exact .inr ⟨w, mem_append_left _ hw, rfl⟩

theorem mem_lineage_afterLoss {lost : Entry → Bool} {g : Generation} :
    c ∈ (ix.afterLoss lost g).lineage ↔ c ∈ ix.lineage := by
  rw [mem_lineage, mem_lineage, carries_afterLoss]
  rfl

theorem aged_trimCatalog (ix : Index) (lost : Entry → Bool) (g : Generation) :
    Aged ((ix.afterLoss lost g).relations []) ((ix.trimCatalog.afterLoss lost g).relations [])
      ix.reach where
  ages := by
    have hages := ages_trimCatalog ix
    refine ⟨fun c hc => ?_, fun c hc hmeets => ?_, fun c hc hmeets => ?_⟩
    · exact mem_lineage_afterLoss.mpr (hages.sub c (mem_lineage_afterLoss.mp hc))
    · exact mem_lineage_afterLoss.mpr (hages.kept c (mem_lineage_afterLoss.mp hc) hmeets)
    · exact hages.climbs c (mem_lineage_afterLoss.mp hc) hmeets
  entries := by
    show ix.trimCatalog.entries.filter _ = ix.entries.filter _
    rw [trimCatalog_eq]
  within e he b hb := by
    refine Worklist.subset_closure _ _ _ ⟨e.blocks, mem_append_right _ ?_, hb⟩
    exact mem_map_of_mem (mem_filter.mp he).1
  known e he hvalid := by
    have hcarries : (ix.afterLoss lost g).Carries e.claim := .inl ⟨e, he, rfl⟩
    refine ⟨known_of_carries hcarries hvalid, known_of_carries ?_ hvalid⟩
    rwa [carries_afterLoss, carries_trimCatalog, ← carries_afterLoss ix lost g]

/-- **Ageing the catalog changes no answer that matters**: for a want of the index, or for the want
of an entry of it, whichever entries are lost. -/
theorem trimCatalog_answers (ix : Index) (lost : Entry → Bool) (g : Generation) (w : Want)
    (hw : w ∈ ix.wanted ∨ ∃ e ∈ ix.entries, ∃ g', w = wantOf e g') :
    (ix.trimCatalog.afterLoss lost g).satisfying w = (ix.afterLoss lost g).satisfying w ∧
      (ix.trimCatalog.afterLoss lost g).discharging w = (ix.afterLoss lost g).discharging w ∧
      ∀ b ∈ w.blocks.blocks, b ∈ (ix.trimCatalog.afterLoss lost g).covered.blocks ↔
        b ∈ (ix.afterLoss lost g).covered.blocks := by
  have haged := aged_trimCatalog ix lost g
  have hcarries : ix.Carries w.claim := by
    rcases hw with hw | ⟨e, he, g', rfl⟩
    · exact .inr ⟨w, hw, rfl⟩
    · exact .inl ⟨e, he, rfl⟩
  have hwithin : w.blocks.blocks ⊆ ix.reach := by
    intro b hb
    refine Worklist.subset_closure _ _ _ ⟨w.blocks, ?_, hb⟩
    rw [mem_append, mem_map, mem_map]
    rcases hw with hw | ⟨e, he, g', rfl⟩
    · exact .inl ⟨w, hw, rfl⟩
    · exact .inr ⟨e, he, rfl⟩
  have hbefore : ((ix.afterLoss lost g).relations []).forClaim w.claim =
      (ix.afterLoss lost g).relations [] :=
    Relations.forClaim_of_known
      (known_of_carries ((carries_afterLoss ix lost g w.claim).mpr hcarries))
  have hafter : ((ix.trimCatalog.afterLoss lost g).relations []).forClaim w.claim =
      (ix.trimCatalog.afterLoss lost g).relations [] := by
    refine Relations.forClaim_of_known (known_of_carries ?_)
    rwa [carries_afterLoss, carries_trimCatalog]
  refine ⟨?_, ?_, fun b _ => ?_⟩
  · rw [Index.satisfying, Index.satisfying, hbefore, hafter]
    exact haged.satisfying_eq hwithin Entry.data
  · rw [Index.discharging, Index.discharging, Relations.discharging, Relations.discharging, hbefore,
      hafter]
    exact haged.satisfying_eq hwithin _
  · rw [Index.covered, Index.covered, haged.covered_eq]

/-- A part that was lost, in an index whose catalog is above the target. -/
theorem trimCatalog_answers_lost :
    let block (k : ℕ) : Interval := ⟨⟨1, UInt64.ofNat k⟩, ⟨1, UInt64.ofNat k⟩, []⟩
    let e : Entry := ⟨[1], 0, 9, block 1, 1, default, 1, none, false⟩
    let ix : Index := { (default : Index) with
      entries := [e]
      catalog := (List.range 5000).map fun k => ⟨block (k + 10000), block (k + 2)⟩ }
    (ix.trimCatalog.afterLoss (fun _ => true) default).satisfying (wantOf e default) =
      (ix.afterLoss (fun _ => true) default).satisfying (wantOf e default) :=
  (trimCatalog_answers _ (fun _ => true) default _ (.inr ⟨_, mem_singleton_self _, default, rfl⟩)).1

end OtelStorage.BucketIndex
