import OtelStorage.BucketIndex.Ageing
import OtelStorage.BucketIndex.BlockSet

/-!
# What a set of parts makes of another

`subsumed` are the live parts whose rows are wholly inside parts that are added: one added part
holds them at a higher level, or a split group that live and added parts complete claims them below
the level of the parts completing it.

The questions asked of entries and claims are put to lists, and the answers depend on the members of
the lists only.  That is said once for each of them: what it asks, written over members
(`mem_subsumed`, `satisfying_isSome`), and from there that lists with the same members get the same
answer.
-/

namespace OtelStorage.BucketIndex

open Delimited List

/-! ## Descent from a group -/

variable (l : Lineage) (iv : Interval) (best : Option UInt32) (lv : UInt32) {admits : Entry → Bool}

/-- `iv` with every block derived from its rows, and the groups that derivation passes through. -/
def descendants : Interval × (Fin l.length → Bool) :=
  close l iv (buildIndex fun i => (l.get i).blocks) (fun _ _ => true) Claim.group

/-- The lower of a level and the best so far. -/
def lowest : Option UInt32 :=
  match best with
  | none => some lv
  | some b => if lv < b then some lv else some b

/-- The level the completion of `group` stands at: the lowest among the parts derived from it. -/
def level (group : Interval) (entries : List Entry) : Option UInt32 :=
  let d := (descendants l group).1
  entries.foldl (fun best e =>
    if e.data && e.blocks.valid && d.contains e.blocks then lowest best e.level else best) none

/-- The claims the rows of `iv` derive through. -/
def ancestors : List Claim :=
  ((List.finRange l.length).filter (ancestry l iv).2).map l.get

/-- The blocks the data-bearing entries hold. -/
def dataRuns (es : List Entry) : Interval :=
  Interval.fromRuns ((es.filter fun e => e.data && e.blocks.valid).flatMap fun e => e.blocks.runs)

/-- The live parts a completed group claims, below the level it stands at. -/
def claimedBelow (live all : List Entry) (c : Claim) : List Bytes :=
  let claimed := holds l c.blocks
  if !live.any fun e => claimed.contains e.blocks then []
  else match level l c.group all with
    | none => []
    | some lv => (live.filter fun e => claimed.contains e.blocks && e.level < lv).map Entry.pref

/-- The prefixes among `live` whose rows are wholly inside the parts `added`. -/
def Lineage.subsumed (live added : List Entry) : List Bytes :=
  (added.flatMap fun a =>
    (live.filter fun e => e.pref != a.pref && l.subsumes a e).map Entry.pref) ++
    ((List.finRange l.length).filter (realize l (dataRuns (live ++ added))).2).flatMap fun i =>
      claimedBelow l live (live ++ added) (l.get i)

/-! ### Over members -/

/-- A group is descended to when a block of its ancestry is reached. -/
def MeetsAncestry (i : Fin l.length) (T : Set Block) : Prop :=
  ((l.get i).blocks.blocks ∩ T).Nonempty

/-- The blocks derived from the rows of `S`. -/
def downSet (S : Set Block) : Set Block :=
  Worklist.closure (MeetsAncestry l) (fun i => (l.get i).group.blocks) S

theorem meetsAncestry_mono {l : Lineage} (i : Fin l.length) (S T : Set Block) (hST : S ⊆ T)
    (h : MeetsAncestry l i S) : MeetsAncestry l i T :=
  h.mono (Set.inter_subset_inter_right _ hST)

theorem descendants_closure :
    (descendants l iv).1.blocks = downSet l iv.blocks ∧
      ∀ i, (descendants l iv).2 i = true ↔ MeetsAncestry l i (downSet l iv.blocks) :=
  close_spec (closeSystem_meets l Claim.blocks Claim.group)
    (fun _ hi => Set.not_nonempty_empty hi.right) iv

theorem descendants_spec :
    (descendants l iv).1.blocks = downSet l iv.blocks := (descendants_closure l iv).1

theorem realize_via (held : Interval) (i : Fin l.length) :
    (realize l held).2 i = true ↔ HoldsGroup l i (realizeSet l held.blocks) :=
  (realize_closure l held).2 i

/-- The entry is a part with blocks derived from the group. -/
def Derived (group : Interval) (e : Entry) : Prop :=
  e.data = true ∧ e.blocks.valid = true ∧ e.blocks.blocks ⊆ downSet l group.blocks

theorem derived_iff (group : Interval) (e : Entry) :
    (e.data && e.blocks.valid && (descendants l group).1.contains e.blocks) = true ↔
      Derived l group e := by
  rw [Bool.and_eq_true, Bool.and_eq_true, contains_iff_subset, descendants_spec, Derived, and_assoc,
    and_congr_right_iff]
  exact fun _ => ⟨fun h => h.2, fun h => ⟨h.1, h⟩⟩

theorem lt_lowest_iff (x : UInt32) :
    (∀ b ∈ lowest best lv, x < b) ↔ (∀ b ∈ best, x < b) ∧ x < lv := by
  cases best with
  | none => simp [lowest]
  | some b =>
    rw [lowest]
    by_cases hlt : lv < b
    · rw [if_pos hlt]
      simp only [Option.mem_some_iff, forall_eq']
      exact ⟨fun h => ⟨UInt32.lt_trans h hlt, h⟩, fun h => h.2⟩
    · rw [if_neg hlt]
      simp only [Option.mem_some_iff, forall_eq']
      exact ⟨fun h => ⟨h, UInt32.lt_of_lt_of_le h (UInt32.not_lt.mp hlt)⟩, fun h => h.1⟩

theorem isSome_lowest : (lowest best lv).isSome = true := by
  cases best with
  | none => rfl
  | some b =>
    rw [lowest]
    split <;> rfl

/-- A level is below the one a completion stands at when it is below that of every part derived from
the group, of which there is one. -/
theorem lt_level_iff (group : Interval) (entries : List Entry) (x : UInt32) :
    (∃ lv, level l group entries = some lv ∧ x < lv) ↔
      (∃ e ∈ entries, Derived l group e) ∧ ∀ e ∈ entries, Derived l group e → x < e.level := by
  suffices hfold : ∀ (es : List Entry) (best : Option UInt32), (∃ lv, es.foldl (fun best e =>
      if e.data && e.blocks.valid && (descendants l group).1.contains e.blocks then
        lowest best e.level else best) best = some lv ∧ x < lv) ↔
      (best.isSome = true ∨ ∃ e ∈ es, Derived l group e) ∧ (∀ b ∈ best, x < b) ∧
        ∀ e ∈ es, Derived l group e → x < e.level by
    refine (hfold entries none).trans ?_
    constructor
    · rintro ⟨hsome | hex, -, hall⟩
      · cases hsome
      · exact ⟨hex, hall⟩
    · rintro ⟨hex, hall⟩
      exact ⟨.inr hex, nofun, hall⟩
  intro es
  induction es with
  | nil =>
    intro best
    cases best with
    | none | some b => simp
  | cons e es ih =>
    intro best
    rw [foldl_cons, exists_mem_cons_iff, forall_mem_cons]
    by_cases hd : Derived l group e
    · rw [if_pos ((derived_iff l group e).mpr hd), ih, lt_lowest_iff]
      constructor
      · rintro ⟨-, ⟨hbest, he⟩, hes⟩
        exact ⟨.inr (.inl hd), hbest, fun _ => he, hes⟩
      · rintro ⟨-, hbest, he, hes⟩
        exact ⟨.inl (isSome_lowest best e.level), ⟨hbest, he hd⟩, hes⟩
    · rw [if_neg (mt (derived_iff l group e).mp hd), ih]
      simp only [hd, false_or, false_implies, true_and]

/-- The parts with the prefix `p` are inside the parts `added`. -/
def Inside (live added : List Entry) (p : Bytes) : Prop :=
  (∃ a ∈ added, ∃ e ∈ live, e.pref = p ∧ e.pref ≠ a.pref ∧ l.subsumes a e = true) ∨
    ∃ c ∈ l, (c.group.valid = true ∧
        c.group.blocks ⊆ realizeSet l (blocksOf ((live ++ added).filter Entry.data))) ∧
      ∃ e ∈ live, e.pref = p ∧
        (e.blocks.valid = true ∧ e.blocks.blocks ⊆ holdSet l c.blocks.blocks) ∧
        (∃ x ∈ live ++ added, Derived l c.group x) ∧
        ∀ x ∈ live ++ added, Derived l c.group x → e.level < x.level

theorem mem_claimedBelow (live all : List Entry) (c : Claim) (p : Bytes) :
    p ∈ claimedBelow l live all c ↔ ∃ e ∈ live, e.pref = p ∧
      (e.blocks.valid = true ∧ e.blocks.blocks ⊆ holdSet l c.blocks.blocks) ∧
      (∃ x ∈ all, Derived l c.group x) ∧ ∀ x ∈ all, Derived l c.group x → e.level < x.level := by
  have hclaimed : ∀ e : Entry, (holds l c.blocks).contains e.blocks = true ↔
      e.blocks.valid = true ∧ e.blocks.blocks ⊆ holdSet l c.blocks.blocks := by
    intro e
    rw [contains_iff_subset, holds_spec]
  have hrest : p ∈ claimedBelow l live all c ↔ ∃ e ∈ live, e.pref = p ∧
      (holds l c.blocks).contains e.blocks = true ∧
      ∃ lv, level l c.group all = some lv ∧ e.level < lv := by
    rw [claimedBelow]
    constructor
    · intro h
      split at h
      · cases h
      split at h
      · cases h
      rename_i lv hlevel
      obtain ⟨e, he, rfl⟩ := mem_map.mp h
      obtain ⟨he, hcond⟩ := mem_filter.mp he
      rw [Bool.and_eq_true, decide_eq_true_eq] at hcond
      exact ⟨e, he, rfl, hcond.1, lv, hlevel, hcond.2⟩
    · rintro ⟨e, he, rfl, hcontains, lv, hlevel, hlt⟩
      have hany : (live.any fun e => (holds l c.blocks).contains e.blocks) = true :=
        any_eq_true.mpr ⟨e, he, hcontains⟩
      rw [if_neg (by rw [hany]; exact Bool.false_ne_true), hlevel]
      refine mem_map.mpr ⟨e, mem_filter.mpr ⟨he, ?_⟩, rfl⟩
      rw [Bool.and_eq_true, decide_eq_true_eq]
      exact ⟨hcontains, hlt⟩
  rw [hrest]
  simp only [hclaimed, lt_level_iff]

theorem dataRuns_blocks (es : List Entry) :
    (dataRuns es).blocks = blocksOf (es.filter Entry.data) := by
  have hvalid : ∀ e ∈ es.filter fun e => e.data && e.blocks.valid, e.blocks.valid = true := by
    intro e he
    exact (Bool.and_eq_true_iff.mp (mem_filter.mp he).2).2
  rw [dataRuns, fromRuns_blocksOf _ hvalid]
  ext b
  constructor
  · rintro ⟨e, he, hb⟩
    obtain ⟨he, hcond⟩ := mem_filter.mp he
    exact ⟨e, mem_filter.mpr ⟨he, (Bool.and_eq_true_iff.mp hcond).1⟩, hb⟩
  · rintro ⟨e, he, hb⟩
    obtain ⟨he, hdata⟩ := mem_filter.mp he
    refine ⟨e, mem_filter.mpr ⟨he, ?_⟩, hb⟩
    exact Bool.and_eq_true_iff.mpr ⟨hdata, Interval.valid_iff_nonempty.mpr ⟨b, hb⟩⟩

/-- **What is subsumed**, said over members. -/
theorem mem_subsumed (live added : List Entry) (p : Bytes) :
    p ∈ l.subsumed live added ↔ Inside l live added p := by
  rw [Lineage.subsumed, mem_append, Inside]
  refine or_congr ?_ ?_
  · simp only [mem_flatMap, mem_map, mem_filter, Bool.and_eq_true, bne_iff_ne]
    constructor
    · rintro ⟨a, ha, e, ⟨he, hne, hsub⟩, rfl⟩
      exact ⟨a, ha, e, he, rfl, hne, hsub⟩
    · rintro ⟨a, ha, e, he, rfl, hne, hsub⟩
      exact ⟨a, ha, e, ⟨he, hne, hsub⟩, rfl⟩
  have hcomplete : ∀ i, (realize l (dataRuns (live ++ added))).2 i = true ↔
      (l.get i).group.valid = true ∧ (l.get i).group.blocks ⊆
        realizeSet l (blocksOf ((live ++ added).filter Entry.data)) := by
    intro i
    rw [realize_via, dataRuns_blocks]
    rfl
  simp only [mem_flatMap, mem_filter, mem_finRange, true_and, mem_claimedBelow, hcomplete]
  constructor
  · rintro ⟨i, hi, hrest⟩
    exact ⟨l.get i, l.get_mem i, hi, hrest⟩
  · rintro ⟨c, hc, hi, hrest⟩
    obtain ⟨i, rfl⟩ := mem_iff_get.mp hc
    exact ⟨i, hi, hrest⟩

theorem mem_ancestors (c : Claim) : c ∈ ancestors l iv ↔
    c ∈ l ∧ (c.group.blocks ∩ upSet l iv.blocks).Nonempty := by
  simp only [ancestors, mem_map, mem_filter, mem_finRange, true_and, (ancestry_spec l iv).2]
  constructor
  · rintro ⟨i, hi, rfl⟩
    exact ⟨l.get_mem i, hi⟩
  · rintro ⟨hc, hi⟩
    obtain ⟨i, rfl⟩ := mem_iff_get.mp hc
    exact ⟨i, hi, rfl⟩

/-! ## Lists with the same members -/

/-- The lists have the same members. -/
def SameMembers {α : Type*} (l m : List α) : Prop := ∀ a, a ∈ l ↔ a ∈ m

namespace SameMembers

variable {α : Type*} {a b c d : List α}

theorem refl (a : List α) : SameMembers a a := fun _ => Iff.rfl

theorem symm (h : SameMembers a b) : SameMembers b a := fun x => (h x).symm

theorem append (h : SameMembers a b) (h' : SameMembers c d) : SameMembers (a ++ c) (b ++ d) :=
  fun x => by rw [mem_append, mem_append, h x, h' x]

theorem filter (h : SameMembers a b) (p : α → Bool) : SameMembers (a.filter p) (b.filter p) :=
  fun x => by rw [mem_filter, mem_filter, h x]

end SameMembers

section Congr

variable {l} {m : Lineage} {live live' added added' : List Entry}

section

variable (h : SameMembers l m) (S : Set Block) {es' es : List Entry}

include h

theorem SameMembers.ages : Ages m l Set.univ :=
  ⟨fun c hc => (h c).mp hc, fun c hc _ => (h c).mpr hc, fun _ _ _ => Set.subset_univ _⟩

theorem SameMembers.upSet_eq : upSet l S = upSet m S :=
  h.ages.upSet_eq (Set.subset_univ S)

theorem SameMembers.realizeSet_eq :
    realizeSet l S = realizeSet m S := h.ages.realizeSet_eq (Set.subset_univ S)

theorem SameMembers.holdSet_eq : holdSet l S = holdSet m S :=
  subset_antisymm ((h.ages.subset_holdSet_iff (Set.subset_univ _)).mp subset_rfl)
    ((h.ages.subset_holdSet_iff (Set.subset_univ _)).mpr subset_rfl)

theorem SameMembers.exists_get (i : Fin l.length) : ∃ j, m.get j = l.get i :=
  mem_iff_get.mp ((h _).mp (l.get_mem i))

theorem SameMembers.downSet_subset : downSet l S ⊆ downSet m S := by
  refine Worklist.closure_subset_of_rules meetsAncestry_mono (fun i => ?_) S
  obtain ⟨j, hj⟩ := h.exists_get i
  refine ⟨j, fun T hT => ?_, ?_⟩
  · rwa [MeetsAncestry, hj]
  · rw [hj]

theorem SameMembers.downSet_eq : downSet l S = downSet m S :=
  subset_antisymm (h.downSet_subset S) (h.symm.downSet_subset S)

theorem SameMembers.subsumes_eq (e o : Entry) :
    l.subsumes e o = m.subsumes e o := h.ages.subsumes_eq e (Set.subset_univ _)

theorem SameMembers.overlaps_imp (a b : Entry) (hab : l.overlaps a b = true) :
    m.overlaps a b = true := by
  rw [overlaps_iff] at hab ⊢
  simp only [ReachesGroup, h.upSet_eq] at hab ⊢
  refine hab.imp_right fun hab => hab.imp_right fun hreach => ?_
  obtain ⟨i, hi⟩ := hreach
  obtain ⟨j, hj⟩ := h.exists_get i
  exact ⟨j, by rwa [hj]⟩

theorem SameMembers.overlaps_eq (a b : Entry) : l.overlaps a b = m.overlaps a b := by
  rw [Bool.eq_iff_iff]
  exact ⟨h.overlaps_imp a b, h.symm.overlaps_imp a b⟩

omit h in
theorem blocksOf_congr (h : SameMembers es es') : blocksOf es = blocksOf es' := by
  ext b
  simp only [blocksOf, h _]

theorem SameMembers.inside_iff (hlive : SameMembers live live')
    (hadded : SameMembers added added') (p : Bytes) :
    Inside l live added p ↔ Inside m live' added' p := by
  have hall := hlive.append hadded
  simp only [Inside, Derived, h.subsumes_eq, h.realizeSet_eq, h.holdSet_eq, h.downSet_eq,
    blocksOf_congr (hall.filter _), h _, hlive _, hadded _, hall _]

theorem SameMembers.subsumed (hlive : SameMembers live live') (hadded : SameMembers added added') :
    SameMembers (l.subsumed live added) (m.subsumed live' added') := by
  intro p
  rw [mem_subsumed, mem_subsumed, h.inside_iff hlive hadded]

theorem SameMembers.ancestors :
    SameMembers (BucketIndex.ancestors l iv) (BucketIndex.ancestors m iv) := by
  intro c
  rw [mem_ancestors, mem_ancestors, h.upSet_eq, h c]

omit h in
theorem SameMembers.lineageOf (h : SameMembers es es') :
    SameMembers (BucketIndex.lineageOf es) (BucketIndex.lineageOf es') := by
  intro c
  simp only [mem_lineageOf, h _]

theorem SameMembers.withClaims (cs : List Claim) :
    SameMembers (l.withClaims cs) (m.withClaims cs) := by
  rw [Lineage.withClaims, Lineage.withClaims]
  induction cs generalizing l m with
  | nil => exact h
  | cons c cs ih =>
    rw [foldl_cons, foldl_cons]
    have hany : (l.any fun o => o.key == c.key) = m.any fun o => o.key == c.key := by
      rw [Bool.eq_iff_iff, any_eq_true, any_eq_true]
      simp only [h _]
    refine ih ?_
    rw [hany]
    split
    · exact h.append (.refl [c])
    · exact h

end

end Congr

/-! ## Whether a want is answered -/

theorem isSome_bestSuccessor (es : List Entry) :
    (bestSuccessor es).isSome = true ↔ ∃ e, e ∈ es := by
  cases es using List.reverseRecOn with
  | nil => simp [bestSuccessor]
  | append_singleton es e =>
    refine iff_of_true ?_ ⟨e, mem_append_right _ mem_cons_self⟩
    rw [bestSuccessor, foldl_append, foldl_cons, foldl_nil]
    split
    · rfl
    · split_ifs <;> rfl

/-- The entries answer the want between them: with the ancestry of every complete group they cover
its blocks, and one of them descends from these blocks through a split group. -/
def JointlyAnswered (es : List Entry) (admits : Entry → Bool) (w : Want) : Prop :=
  w.blocks.valid = true ∧ w.blocks.blocks ⊆ realizeSet l (blocksOf (es.filter admits)) ∧
    ∃ e ∈ es, admits e = true ∧ e.blocks.valid = true ∧
      (∃ c ∈ l, (c.group.blocks ∩ upSet l e.blocks.blocks).Nonempty) ∧
      (upSet l e.blocks.blocks ∩ w.blocks.blocks).Nonempty

/-- The entries answer the want over the lineage. -/
def Answered (es : List Entry) (admits : Entry → Bool) (w : Want) : Prop :=
  (∃ e ∈ es, admits e = true ∧ e.pref = w.pref) ∨
    (∃ e ∈ es, admits e = true ∧
      (e.blocks.contains w.blocks = true ∨ l.subsumes e w.entry = true)) ∨
    JointlyAnswered l es admits w

section

variable {rel : Relations}
  (hknown : ∀ e ∈ rel.ix.entries, e.claim.valid = true → ∃ o ∈ rel.l, o.key = e.claim.key)
  {w : Want}

include hknown

theorem jointlySatisfying_isSome :
    (rel.jointlySatisfying w admits).isSome = true ↔
      JointlyAnswered rel.l rel.ix.entries admits w := by
  rw [JointlyAnswered]
  have hcovered : (rel.covered admits).contains w.blocks = true ↔ w.blocks.valid = true ∧
      w.blocks.blocks ⊆ realizeSet rel.l (blocksOf (rel.ix.entries.filter admits)) := by
    rw [contains_iff_subset, covered_spec]
  have hsupplies : ∀ e ∈ rel.ix.entries,
      (let l := (rel.forClaim e.claim).l
       (List.finRange l.length).any (ancestry l e.blocks).2 &&
         (ancestry l e.blocks).1.meets w.blocks) = true ↔
      (∃ c ∈ rel.l, (c.group.blocks ∩ upSet rel.l e.blocks.blocks).Nonempty) ∧
        (upSet rel.l e.blocks.blocks ∩ w.blocks.blocks).Nonempty := by
    intro e he
    rw [Relations.forClaim_of_known (hknown e he), Bool.and_eq_true, Interval.meets_iff,
      (ancestry_spec rel.l e.blocks).1, any_eq_true]
    refine and_congr_left fun _ => ?_
    simp only [mem_finRange, true_and, (ancestry_spec rel.l e.blocks).2]
    constructor
    · rintro ⟨i, hi⟩
      exact ⟨rel.l.get i, rel.l.get_mem i, hi⟩
    · rintro ⟨c, hc, hi⟩
      obtain ⟨i, rfl⟩ := mem_iff_get.mp hc
      exact ⟨i, hi⟩
  rw [Relations.jointlySatisfying]
  by_cases hc : (rel.covered admits).contains w.blocks = true
  · obtain ⟨hvalid, hsub⟩ := hcovered.mp hc
    rw [if_neg (by simp [hvalid, hc]), isSome_bestSuccessor]
    simp only [mem_filter, Bool.and_eq_true, hvalid, hsub, true_and]
    constructor
    · rintro ⟨e, he, ⟨⟨hin, hval⟩, hrest⟩⟩
      exact ⟨e, he, hin, hval, (hsupplies e he).mp (Bool.and_eq_true_iff.mpr hrest)⟩
    · rintro ⟨e, he, hin, hval, hrest⟩
      exact ⟨e, he, ⟨hin, hval⟩, Bool.and_eq_true_iff.mp ((hsupplies e he).mpr hrest)⟩
  · rw [if_pos (by simp [hc])]
    refine ⟨fun h => absurd h Bool.false_ne_true, fun h => absurd ?_ hc⟩
    exact hcovered.mpr ⟨h.1, h.2.1⟩

/-- **When a want is answered**, said over members. -/
theorem satisfying_isSome :
    (rel.satisfying w admits).isSome = true ↔ Answered rel.l rel.ix.entries admits w := by
  rw [Relations.satisfying, Answered, ← jointlySatisfying_isSome hknown]
  cases hfind : rel.ix.entries.find? fun e => admits e && e.pref == w.pref with
  | some e =>
    have he := List.find?_some hfind
    rw [Bool.and_eq_true, beq_iff_eq] at he
    exact ⟨fun _ => .inl ⟨e, mem_of_find?_eq_some hfind, he⟩, fun _ => rfl⟩
  | none =>
    have hnone : ¬ ∃ e ∈ rel.ix.entries, admits e = true ∧ e.pref = w.pref := by
      rintro ⟨e, he, hin, hpref⟩
      refine List.find?_eq_none.mp hfind e he ?_
      rw [Bool.and_eq_true, beq_iff_eq]
      exact ⟨hin, hpref⟩
    have hbest := isSome_bestSuccessor (rel.ix.entries.filter fun e =>
      admits e && (e.blocks.contains w.blocks || rel.l.subsumes e w.entry))
    simp only [mem_filter, Bool.and_eq_true, Bool.or_eq_true] at hbest
    cases hsome : bestSuccessor (rel.ix.entries.filter fun e =>
      admits e && (e.blocks.contains w.blocks || rel.l.subsumes e w.entry)) with
    | some e =>
      rw [hsome] at hbest
      exact ⟨fun _ => .inr (.inl (hbest.mp rfl)), fun _ => rfl⟩
    | none =>
      rw [hsome] at hbest
      refine ⟨fun h => .inr (.inr h), fun h => ?_⟩
      rcases h with h | h | h
      · exact absurd h hnone
      · exact absurd (hbest.mpr h) Bool.false_ne_true
      · exact h

end

theorem Answered.congr {w : Want} {l m : Lineage} {es es' : List Entry}
    (hl : SameMembers l m) (hes : SameMembers es es') :
    Answered l es admits w ↔ Answered m es' admits w := by
  simp only [Answered, JointlyAnswered, hl.subsumes_eq, hl.realizeSet_eq, hl.upSet_eq,
    blocksOf_congr (hes.filter _), hl _, hes _]

/-! ## Indexes of the same entries -/

/-- An index with entries and a catalog, and nothing owed. -/
def Index.ofEntries (entries : List Entry) (catalog : List Claim) : Index :=
  { (default : Index) with entries := entries, catalog := catalog }

section OfEntries

variable {es es' : List Entry} {catalog : List Claim}

theorem lineage_ofEntries (h : SameMembers es es') :
    SameMembers (Index.ofEntries es catalog).lineage (Index.ofEntries es' catalog).lineage := by
  intro c
  rw [mem_lineage, mem_lineage]
  have hcarries : (Index.ofEntries es catalog).Carries c ↔
      (Index.ofEntries es' catalog).Carries c := by
    refine or_congr ?_ Iff.rfl
    exact exists_congr fun e => and_congr_left fun _ => h e
  rw [hcarries]
  rfl

theorem withClaims_of_known (cs : List Claim) (h : ∀ c ∈ cs, ∃ o ∈ l, o.key = c.key) :
    l.withClaims cs = l := by
  rw [Lineage.withClaims]
  induction cs with
  | nil => rfl
  | cons c cs ih =>
    obtain ⟨⟨o, ho, hkey⟩, hcs⟩ := forall_mem_cons.mp h
    have hany : (l.any fun o => o.key == c.key) = true :=
      any_eq_true.mpr ⟨o, ho, beq_iff_eq.mpr hkey⟩
    rw [foldl_cons, hany, Bool.not_true, Bool.and_false, if_neg Bool.false_ne_true]
    exact ih hcs

theorem forClaim_lineage (ix : Index) (c : Claim) : ((ix.relations []).forClaim c).l =
    if c.valid && !ix.lineage.any (fun o => o.key == c.key) then ix.lineage ++ [c]
    else ix.lineage := by
  have hl : (ix.relations []).l = ix.lineage := rfl
  rw [Relations.forClaim, hl]
  by_cases hvalid : c.valid = true
  · rw [hvalid, Bool.true_and, Bool.not_true, if_neg Bool.false_ne_true]
    by_cases hany : (ix.lineage.any fun o => o.key == c.key) = true
    · rw [hany, if_pos rfl, Bool.not_true, if_neg Bool.false_ne_true]
      exact hl
    rw [if_neg hany, Bool.eq_false_iff.mpr hany, Bool.not_false, if_pos rfl]
    show ix.lineage.withClaims (ix.lineage ++ [c]) = _
    rw [Lineage.withClaims, foldl_append]
    have hself : ix.lineage.withClaims ix.lineage = ix.lineage :=
      withClaims_of_known _ _ fun o ho => ⟨o, ho, rfl⟩
    rw [Lineage.withClaims] at hself
    rw [hself, foldl_cons, foldl_nil, hvalid, Bool.eq_false_iff.mpr hany]
    rfl
  · rw [Bool.eq_false_iff.mpr hvalid]
    exact hl

theorem subset_forClaim (ix : Index) (c : Claim) {o : Claim} (ho : o ∈ ix.lineage) :
    o ∈ ((ix.relations []).forClaim c).l := by
  rw [forClaim_lineage]
  split
  · exact mem_append_left _ ho
  · exact ho

theorem ofEntries_satisfying_isSome (w : Want) :
    ((Index.ofEntries es catalog).satisfying w).isSome = true ↔
      Answered
        (((Index.ofEntries es catalog).relations []).forClaim w.claim).l es Entry.data w := by
  have hix : (((Index.ofEntries es catalog).relations []).forClaim w.claim).ix =
      Index.ofEntries es catalog := Relations.forClaim_ix _ _
  rw [Index.satisfying, satisfying_isSome, hix]
  · rfl
  intro e he hvalid
  rw [hix] at he
  have hcarries : (Index.ofEntries es catalog).Carries e.claim := .inl ⟨e, he, rfl⟩
  obtain ⟨o, ho, hkey⟩ := known_of_carries hcarries hvalid
  exact ⟨o, subset_forClaim _ _ ho, hkey⟩

theorem forClaim_congr (h : SameMembers es es') (c : Claim) :
    SameMembers (((Index.ofEntries es catalog).relations []).forClaim c).l
      (((Index.ofEntries es' catalog).relations []).forClaim c).l := by
  have hl : SameMembers (Index.ofEntries es catalog).lineage
      (Index.ofEntries es' catalog).lineage := lineage_ofEntries h
  have hany : ((Index.ofEntries es catalog).lineage.any fun o => o.key == c.key) =
      (Index.ofEntries es' catalog).lineage.any fun o => o.key == c.key := by
    rw [Bool.eq_iff_iff, any_eq_true, any_eq_true]
    simp only [hl _]
  rw [forClaim_lineage, forClaim_lineage, hany]
  split
  · exact hl.append (.refl [c])
  · exact hl

/-- **Entries with the same members answer the same wants.** -/
theorem SameMembers.satisfying_isSome (h : SameMembers es es') (w : Want) :
    ((Index.ofEntries es catalog).satisfying w).isSome =
      ((Index.ofEntries es' catalog).satisfying w).isSome := by
  rw [Bool.eq_iff_iff, ofEntries_satisfying_isSome, ofEntries_satisfying_isSome]
  exact Answered.congr (forClaim_congr h w.claim) h

theorem SameMembers.covered_blocks (h : SameMembers es es') :
    (Index.ofEntries es catalog).covered.blocks = (Index.ofEntries es' catalog).covered.blocks := by
  have hl : SameMembers ((Index.ofEntries es catalog).relations []).l
      ((Index.ofEntries es' catalog).relations []).l := lineage_ofEntries h
  rw [Index.covered, Index.covered, covered_spec, covered_spec, hl.realizeSet_eq]
  exact congrArg _ (blocksOf_congr (h.filter _))

end OfEntries

end OtelStorage.BucketIndex
