import OtelStorage.Engine.Commit
import OtelStorage.Foundation.CasStore

/-!
# The tenure fence

A clustered writer commits under an ownership term.  Before an operation of a new term may commit,
`establishTenure` makes the term's first commit: a fresh load of the index, the fence, and one save.
Every later commit passes the fence again before each attempt, and rebases when it lost the race.

The claim is external to the engine and can change between any two of these steps: it can lapse,
come back, or be handed out anew under a higher term.  What the fence read is therefore not what the
candidate index is stamped with, since building it reads the claim again.

* `tenure_generation`: the generations of the indexes that land strictly increase, in every run in
  which no term's count of commits wraps.
* `tenure_stamps`: the terms that landed commits are stamped with never decrease, in every such run
  whose establishing commits carry at least the term they establish.
* `tenure_fence`: both together; `tenure_overtaken`: a run in which an establishing commit does not
  carry its term, and an older term commits after a newer one.
-/

namespace OtelStorage

open Delimited BucketIndex CasStore

/-- Where a writer stands in `establishTenure` or in a commit. -/
inductive Phase where
  | idle
  /-- The claim was read; the fresh load comes next. -/
  | establishing (term : UInt64)
  | loaded (term : UInt64)
  /-- The fence of the establishing commit passed. -/
  | checked (term : UInt64)
  | committing (stamp : UInt64)
  /-- The fence of a commit attempt passed. -/
  | fenced (stamp : UInt64)
  /-- The candidate is built; the save comes next. -/
  | built (stamp : UInt64) (establishes : Bool) (a : Engine.Attempt)
  /-- The attempt lost the race. -/
  | lost (stamp : UInt64)

/-- An engine with a claim: the last term handed to it, and the term it can prove now. -/
structure Clustered where
  engine : Engine
  granted : UInt64
  claim : UInt64
  phase : Phase

namespace Clustered

/-- What a writer does between saves.  `held` says which claims a candidate may be built under,
given the term it establishes if it does; the code asks for nothing. -/
inductive Act (held : Option UInt64 → Engine → UInt64 → Prop) (top : UInt64)
    (o : Option Index) (s : Clustered) : UInt64 → Clustered → Prop
  /-- Terms are handed out in increasing order, each to one writer. -/
  | grant {t : UInt64} (h : top < t) : Act held top o s t { s with granted := t, claim := t }
  | lapse : Act held top o s top { s with claim := 0 }
  | regain : Act held top o s top { s with claim := s.granted }
  /-- Flushes, merges, retention and repair change what the next commit publishes. -/
  | work (parts : List Part)
      (adopted acknowledged : List Want) (epoch : UInt64) (h : s.phase = .idle) :
      Act held top o s top { s with engine := { s.engine with
        parts := parts, adoptedWants := adopted, pendingHoles := acknowledged
        flushedEpoch := epoch } }
  | load (opens : Entry → Bool) (h : s.phase = .idle) :
      Act held top o s top { s with engine := s.engine.adoptLoad o opens }
  /-- The process ends, and a new one begins with nothing in memory. -/
  | restart : Act held top o s top { s with engine := Engine.new s.engine.writerID, phase := .idle }
  /-- An error, a refusal of the fence, or an attempt too many ends the operation. -/
  | stop : Act held top o s top { s with phase := .idle }
  | establish (h : s.phase = .idle) (hclaim : s.claim ≠ 0) (hnew : s.engine.established ≠ s.claim) :
      Act held top o s top { s with phase := .establishing s.claim }
  | establishLoad {term : UInt64} (opens : Entry → Bool) (h : s.phase = .establishing term) :
      Act held top o s top { s with engine := s.engine.adoptLoad o opens, phase := .loaded term }
  | establishCheck {term : UInt64} (h : s.phase = .loaded term)
      (hcheck : checkTenure term s.claim s.engine.generation.term = .ok ()) :
      Act held top o s top { s with phase := .checked term }
  | establishBuild {term : UInt64} {a : Engine.Attempt} (blockTerm : UInt64) (sorts : Sorts)
      (h : s.phase = .checked term)
      (ha : a = s.engine.nextIndex s.engine.parts s.engine.flushedEpoch s.claim blockTerm sorts)
      (hheld : held (some term) s.engine s.claim) :
      Act held top o s top { s with engine := a.engine, phase := .built term true a }
  | commit (stamp : UInt64) (h : s.phase = .idle) :
      Act held top o s top { s with phase := .committing stamp }
  | commitCheck {stamp : UInt64} (h : s.phase = .committing stamp)
      (hcheck : checkTenure stamp s.claim s.engine.generation.term = .ok ())
      (hestablished : s.engine.established = s.claim) :
      Act held top o s top { s with phase := .fenced stamp }
  | commitBuild {stamp : UInt64} {a : Engine.Attempt} (parts : List Part) (epoch : UInt64)
      (blockTerm : UInt64)
      (sorts : Sorts) (h : s.phase = .fenced stamp)
      (ha : a = s.engine.nextIndex parts epoch s.claim blockTerm sorts)
      (hheld : held none s.engine s.claim) :
      Act held top o s top { s with engine := a.engine, phase := .built stamp false a }
  | conflict {stamp : UInt64} {a : Engine.Attempt}
      (h : s.phase = .built stamp false a) (hne : s.engine.indexVersion ≠ o) :
      Act held top o s top { s with phase := .lost stamp }
  | rebase {stamp : UInt64} (h : s.phase = .lost stamp) :
      Act held top o s top { s with engine := s.engine.adoptIndex o, phase := .committing stamp }

/-- The writer once its save has landed: an establishing commit also records its term. -/
def afterSave (s : Clustered) (stamp : UInt64) (establishes : Bool) (a : Engine.Attempt) :
    Clustered :=
  { s with
    engine := { Engine.landed a with
      established := if establishes then stamp else a.engine.established }
    phase := .idle }

end Clustered

open Clustered

variable {held : Option UInt64 → Engine → UInt64 → Prop} {s s' : Clustered} {parts : List Part}
  {epoch blockTerm top' top : UInt64} {sorts : Sorts} {a : Engine.Attempt} {v : Index}
  {o : Option Index}

/-- The clustered writers of one index.  A save whose answer is lost leaves the writer as it was. -/
def tenure (held : Option UInt64 → Engine → UInt64 → Prop) : Protocol UInt64 Clustered Index where
  view s := s.engine.indexVersion
  candidate s :=
    match s.phase with
    | .built _ _ a => some a.index
    | _ => none
  act := Act held
  saved s s' := ∃ stamp establishes a, s.phase = .built stamp establishes a ∧
    (s' = s.afterSave stamp establishes a ∨ s' = { s with phase := .idle })

/-- A writer that has not begun: no claim, no index seen. -/
def Clustered.IsNew (s : Clustered) : Prop :=
  ∃ writerID, s = ⟨Engine.new writerID, 0, 0, .idle⟩

/-- The term a landed commit was stamped with: the one it establishes, or the one its operation
began under. -/
def Clustered.stamp (s : Clustered) : UInt64 :=
  match s.phase with
  | .built stamp _ _ => stamp
  | _ => 0

/-! ## Generations -/

/-- The writer's generation is at least that of the index it saw, and a candidate's is above it. -/
structure GenInv (s : Clustered) : Prop where
  seen_le : s.engine.seen ≤ s.engine.generation
  built : ∀ stamp establishes a, s.phase = .built stamp establishes a → a.engine = s.engine ∧
    a.index.generation = s.engine.generation ∧ s.engine.seen < s.engine.generation

theorem GenInv.of_not_built (h : s.engine.seen ≤ s.engine.generation)
    (hphase : ∀ stamp establishes a, s.phase ≠ .built stamp establishes a) : GenInv s :=
  ⟨h, fun stamp establishes a hb => absurd hb (hphase stamp establishes a)⟩

theorem engine_of_built (ha : a = s.engine.nextIndex parts epoch s.claim blockTerm sorts) :
    a.engine.generation = s.engine.generation.next s.claim ∧
    a.engine.established = s.engine.established ∧ a.engine.seen = s.engine.seen := by
  rw [ha, Engine.nextIndex_engine]
  exact ⟨rfl, rfl, rfl⟩

theorem GenInv.build (h : GenInv s) (hwrap : s.engine.generation.NoWrap s.claim) (stamp : UInt64)
    (establishes : Bool) (ha : a = s.engine.nextIndex parts epoch s.claim blockTerm sorts) :
    GenInv { s with engine := a.engine, phase := .built stamp establishes a } := by
  obtain ⟨hgen, -, hseen⟩ := engine_of_built ha
  have hlt : a.engine.seen < a.engine.generation := by
    rw [hseen, hgen]
    exact h.seen_le.trans_lt (Generation.lt_next hwrap)
  refine ⟨hlt.le, fun stamp' establishes' a' hb => ?_⟩
  obtain ⟨-, -, rfl⟩ := Phase.built.inj hb
  refine ⟨rfl, ?_, hlt⟩
  rw [hgen, ha, Engine.nextIndex_generation]

/-- Candidates are built only where the count of commits does not wrap. -/
def KeepsCount (held : Option UInt64 → Engine → UInt64 → Prop) : Prop :=
  ∀ establishes e claim, held establishes e claim → e.generation.NoWrap claim

theorem GenInv.act (hheld : KeepsCount held) (h : GenInv s) (hact : Act held top o s top' s') :
    GenInv s' := by
  cases hact with
  | grant _ | lapse | regain => exact ⟨h.seen_le, h.built⟩
  | work _ _ _ _ hidle => exact .of_not_built h.seen_le (hidle ▸ nofun)
  | load _ hidle => exact .of_not_built le_rfl (hidle ▸ nofun)
  | restart | establishLoad _ _ => exact .of_not_built le_rfl nofun
  | stop | establish _ _ _ | establishCheck _ _ | commit _ _ | commitCheck _ _ _ | conflict _ _ =>
    exact .of_not_built h.seen_le nofun
  | establishBuild _ _ _ ha hh | commitBuild _ _ _ _ _ ha hh =>
    exact h.build (hheld _ _ _ hh) _ _ ha
  | rebase _ => exact .of_not_built (Engine.le_adoptIndex_generation _ _).1 nofun

theorem candidate_eq_some (h : (tenure held).candidate s = some v) :
    ∃ establishes a, s.phase = .built s.stamp establishes a ∧ a.index = v := by
  obtain ⟨engine, granted, claim, phase⟩ := s
  cases phase with
  | built stamp establishes a => exact ⟨establishes, a, rfl, Option.some.inj h⟩
  | _ => exact absurd h (Option.some_ne_none v).symm

theorem GenInv.saved (h : GenInv s) (hs : (tenure held).saved s s') :
    GenInv s' := by
  obtain ⟨stamp, establishes, a, hphase, rfl | rfl⟩ := hs
  · obtain ⟨heq, hgen, -⟩ := h.built _ _ _ hphase
    refine .of_not_built ?_ nofun
    show a.index.generation ≤ a.engine.generation
    rw [heq, hgen]
  · exact .of_not_built h.seen_le nofun

theorem GenInv.seen_lt (h : GenInv s) (hc : (tenure held).candidate s = some v) :
    s.engine.seen < v.generation := by
  obtain ⟨establishes, a, hphase, rfl⟩ := candidate_eq_some hc
  obtain ⟨-, hgen, hlt⟩ := h.built _ _ _ hphase
  rw [hgen]
  exact hlt

section Runs

variable {W : Type*} [DecidableEq W] {σ : State UInt64 W Clustered Index}

theorem Clustered.IsNew.genInv (h : s.IsNew) : GenInv s := by
  obtain ⟨writerID, rfl⟩ := h
  exact .of_not_built le_rfl nofun

theorem tenure_genInv (hheld : KeepsCount held) (h : Reachable (tenure held) IsNew σ) :
    ∀ x ∈ σ.landed, GenInv x.1 ∧ (tenure held).candidate x.1 = some x.2 :=
  (h.inv (L := fun _ s => GenInv s) (fun _ hs => hs.genInv)
    (fun _ _ _ _ _ hs ha => hs.act hheld ha) (fun _ _ _ hs _ hsv => hs.saved hsv)
    (fun _ _ _ _ _ ht => ht)).2

/-- **Generations strictly increase** in the sequence of indexes that land, in every run in which no
count of commits wraps. -/
theorem tenure_generation (hheld : KeepsCount held) (h : Reachable (tenure held) IsNew σ) :
    σ.landed.Pairwise fun x y => y.2.generation < x.2.generation := by
  refine h.landed_pairwise (L := GenInv) (R := fun y x => y.2.generation < x.2.generation)
    (tenure_genInv hheld h) ?_ fun x y z => lt_trans
  intro x y hx _ hxc _ hview
  have hseen : x.1.engine.seen = y.2.generation :=
    congrArg (fun o : Option Index => (o.getD default).generation) hview
  exact hseen ▸ hx.seen_lt hxc

end Runs

/-! ## Stamps -/

/-- The term of a stored index. -/
def termOf (o : Option Index) : UInt64 := (o.getD default).generation.term

/-- The count of commits does not wrap, and an establishing candidate carries the term it
establishes: the claim read while it is built is not below it, or the index it was loaded from
already is of that term. -/
def HeldTerm (establishes : Option UInt64) (e : Engine) (claim : UInt64) : Prop :=
  e.generation.NoWrap claim ∧ ∀ term ∈ establishes, term ≤ claim ∨ term ≤ e.generation.term

theorem HeldTerm.of_lt {e : Engine} {term : UInt64} (h : e.generation.term < term) :
    HeldTerm (some term) e term :=
  ⟨.inl h, fun | _, rfl => .inl (UInt64.le_refl term)⟩

theorem keepsCount_heldTerm : KeepsCount HeldTerm := fun _ _ _ h => h.1

/-- The terms of a writer between the index stored and the one it builds. -/
structure StampInv (o : Option Index) (s : Clustered) : Prop extends GenInv s where
  established_le : s.engine.established ≤ s.engine.generation.term
  established_le_stored : s.engine.established ≤ termOf o
  checked : ∀ term, s.phase = .checked term → s.engine.generation.term ≤ term
  fenced : ∀ stamp, s.phase = .fenced stamp → s.engine.generation.term = stamp
  built_stamp : ∀ stamp establishes a, s.phase = .built stamp establishes a →
    s.engine.seen.term ≤ stamp ∧ stamp ≤ s.engine.generation.term

theorem StampInv.of_phase (h : GenInv s) (hle : s.engine.established ≤ s.engine.generation.term)
    (hle' : s.engine.established ≤ termOf o) (hchecked : ∀ term, s.phase ≠ .checked term)
    (hfenced : ∀ stamp, s.phase ≠ .fenced stamp)
    (hbuilt : ∀ stamp establishes a, s.phase ≠ .built stamp establishes a) : StampInv o s :=
  ⟨h, hle, hle', fun term hp => absurd hp (hchecked term),
    fun stamp hp => absurd hp (hfenced stamp),
    fun stamp establishes a hp => absurd hp (hbuilt stamp establishes a)⟩

/-- Building a candidate under a stamp between the term seen and the term built. -/
theorem StampInv.build (h : StampInv o s) (hwrap : s.engine.generation.NoWrap s.claim)
    (stamp : UInt64) (establishes : Bool)
    (ha : a = s.engine.nextIndex parts epoch s.claim blockTerm sorts)
    (hseen : s.engine.generation.term ≤ stamp)
    (hstamp : stamp ≤ (s.engine.generation.next s.claim).term) :
    StampInv o { s with engine := a.engine, phase := .built stamp establishes a } := by
  obtain ⟨hgen, hestablished, hseen'⟩ := engine_of_built ha
  refine ⟨h.toGenInv.build hwrap stamp establishes ha, ?_, ?_, nofun,
    nofun, fun stamp' establishes' a' hp => ?_⟩
  · rw [hestablished, hgen]
    exact UInt64.le_trans h.established_le (Generation.term_le_next _ _).1
  · rw [hestablished]
    exact h.established_le_stored
  · obtain ⟨rfl, -, -⟩ := Phase.built.inj hp
    rw [hseen', hgen]
    exact ⟨UInt64.le_trans (Generation.term_le_of_le h.seen_le) hseen, hstamp⟩

theorem StampInv.act (h : StampInv o s) (hact : Act HeldTerm top o s top' s') : StampInv o s' := by
  have hgen := h.toGenInv.act keepsCount_heldTerm hact
  have hle := h.established_le
  have hle' := h.established_le_stored
  cases hact with
  | grant _ | lapse | regain => exact ⟨hgen, hle, hle', h.checked, h.fenced, h.built_stamp⟩
  | work _ _ _ _ hidle =>
    exact .of_phase hgen hle hle' (hidle ▸ nofun) (hidle ▸ nofun) (hidle ▸ nofun)
  | load _ hidle =>
    -- the load takes the generation of what is stored, which no established term exceeds
    exact .of_phase hgen hle' hle' (hidle ▸ nofun) (hidle ▸ nofun) (hidle ▸ nofun)
  | restart => exact .of_phase hgen (UInt64.le_refl _) UInt64.zero_le nofun nofun nofun
  | stop | establish _ _ _ | commit _ _ | conflict _ _ =>
    exact .of_phase hgen hle hle' nofun nofun nofun
  | establishLoad _ _ => exact .of_phase hgen hle' hle' nofun nofun nofun
  | establishCheck _ hcheck =>
    refine ⟨hgen, hle, hle', fun term' hp => ?_, nofun, nofun⟩
    obtain rfl := Phase.checked.inj hp
    exact ((checkTenure_eq_ok_iff _ _ _).mp hcheck).2.2
  | establishBuild _ _ hp ha hheld =>
    refine h.build hheld.1 _ _ ha (h.checked _ hp) ?_
    rcases hheld.2 _ rfl with hclaim | hterm
    · exact UInt64.le_trans hclaim (Generation.term_le_next _ _).2
    · exact UInt64.le_trans hterm (Generation.term_le_next _ _).1
  | commitCheck _ hcheck hestablished =>
    refine ⟨hgen, hle, hle', nofun, fun stamp' hp => ?_, nofun⟩
    obtain rfl := Phase.fenced.inj hp
    obtain ⟨-, hclaim, hterm⟩ := (checkTenure_eq_ok_iff _ _ _).mp hcheck
    rw [hestablished, hclaim] at hle
    exact UInt64.le_antisymm hterm hle
  | commitBuild _ _ _ _ hp ha hheld =>
    have hstamp := h.fenced _ hp
    exact h.build hheld.1 _ _ ha (hstamp ▸ UInt64.le_refl _)
      (hstamp ▸ (Generation.term_le_next _ _).1)
  | rebase _ =>
    have hraise := Generation.term_le_of_le (s.engine.le_adoptIndex_generation o).2
    exact .of_phase hgen (UInt64.le_trans hle hraise) hle' nofun nofun nofun

theorem StampInv.saved (h : StampInv s.engine.indexVersion s)
    (hc : (tenure HeldTerm).candidate s = some v) (hs : (tenure HeldTerm).saved s s') :
    StampInv (some v) s' := by
  have hgen := h.toGenInv.saved hs
  obtain ⟨establishes₀, a₀, hphase₀, rfl⟩ := candidate_eq_some hc
  obtain ⟨heq, hindex, -⟩ := h.built _ _ _ hphase₀
  have hterm : termOf (some a₀.index) = s.engine.generation.term := congrArg Generation.term hindex
  obtain ⟨stamp, establishes, a, hphase, rfl | rfl⟩ := hs
  · obtain ⟨-, -, rfl⟩ := Phase.built.inj (hphase₀.symm.trans hphase)
    have hle : (if establishes then stamp else a₀.engine.established) ≤
        s.engine.generation.term := by
      split
      · exact (h.built_stamp _ _ _ hphase).2
      · exact heq ▸ h.established_le
    have hengine : a₀.engine.generation = s.engine.generation := congrArg Engine.generation heq
    exact .of_phase hgen (hengine ▸ hle) (hterm ▸ hle) nofun nofun nofun
  · exact .of_phase hgen h.established_le (hterm ▸ h.established_le) nofun nofun nofun

theorem StampInv.other {t : Clustered} (hs : StampInv s.engine.indexVersion s)
    (hc : (tenure HeldTerm).candidate s = some v) (ht : StampInv s.engine.indexVersion t) :
    StampInv (some v) t := by
  have hlt : s.engine.seen < v.generation := hs.toGenInv.seen_lt hc
  have hterm : termOf s.engine.indexVersion ≤ termOf (some v) :=
    Generation.term_le_of_le hlt.le
  exact { ht with established_le_stored := UInt64.le_trans ht.established_le_stored hterm }

theorem Clustered.IsNew.stampInv (h : s.IsNew) : StampInv none s := by
  obtain ⟨writerID, rfl⟩ := h
  exact .of_phase (IsNew.genInv ⟨writerID, rfl⟩) (UInt64.le_refl _) (UInt64.le_refl _)
    nofun nofun nofun

section Runs

variable {W : Type*} [DecidableEq W] {σ : State UInt64 W Clustered Index}

/-- **Stamps never decrease** in the sequence of commits that land, in every run whose establishing
commits carry the term they establish: no commit stamped below a term lands after that term's first
commit. -/
theorem tenure_stamps (h : Reachable (tenure HeldTerm) IsNew σ) :
    σ.landed.Pairwise fun x y => y.1.stamp ≤ x.1.stamp := by
  have hinv := (h.inv (L := StampInv) (fun _ hs => hs.stampInv) (fun _ _ _ _ _ hs ha => hs.act ha)
    (fun _ _ _ hs hc hsv => hs.saved hc hsv) (fun _ _ _ hs hc ht => hs.other hc ht)).2
  refine h.landed_pairwise (L := fun s => StampInv s.engine.indexVersion s)
    (R := fun y x => y.1.stamp ≤ x.1.stamp) hinv ?_ fun x y z => UInt64.le_trans
  intro x y hx hy hxc hyc hview
  obtain ⟨_, a, hphase, -⟩ := candidate_eq_some hxc
  obtain ⟨_, b, hphase', hindex⟩ := candidate_eq_some hyc
  -- the older stamp is at most the term of the index it landed, which is the one the newer saw
  have hseen : x.1.engine.seen = y.2.generation :=
    congrArg (fun o : Option Index => (o.getD default).generation) hview
  have hgen : y.2.generation = y.1.engine.generation := hindex ▸ (hy.built _ _ _ hphase').2.1
  have hold := (hy.built_stamp _ _ _ hphase').2
  have hnew := (hx.built_stamp _ _ _ hphase).1
  rw [hseen, hgen] at hnew
  exact UInt64.le_trans hold hnew

/-- **The fence holds while establishing commits carry the term they establish** and no count of
commits wraps.  Of two indexes that landed, the later has the higher generation, and its commit is
stamped with no lower term. -/
theorem tenure_fence (h : Reachable (tenure HeldTerm) IsNew σ) : σ.landed.Pairwise fun x y =>
    y.2.generation < x.2.generation ∧ y.1.stamp ≤ x.1.stamp :=
  (tenure_generation keepsCount_heldTerm h).and (tenure_stamps h)

end Runs

/-! ## A term overtaken -/

/-- Two new writers. -/
def twoWriters : State UInt64 Bool Clustered Index :=
  ⟨0, none, fun w => ⟨Engine.new (if w then [5] else [6]), 0, 0, .idle⟩, []⟩

theorem twoWriters_isStart : IsStart IsNew twoWriters :=
  ⟨rfl, rfl, fun w => ⟨if w then [5] else [6], rfl⟩⟩

/-- A handover: `a` establishes term 1, `b` term 2, and both land. -/
theorem tenure_fence_handover : ∃ σ : State UInt64 Bool Clustered Index,
    Reachable (tenure HeldTerm) IsNew σ ∧ σ.landed.map (fun x => x.1.stamp) = [2, 1] ∧
      σ.landed.Pairwise fun x y => y.2.generation < x.2.generation ∧ y.1.stamp ≤ x.1.stamp := by
  have r₀ : Reachable (tenure HeldTerm) IsNew twoWriters := ⟨twoWriters, twoWriters_isStart, .refl⟩
  have r := r₀
    |>.step (.act (w := true) (e := 1) (.grant (t := 1) (by decide)))
    |>.step (.act (w := true) (.establish rfl (by decide) (by decide)))
    |>.step (.act (w := true) (.establishLoad (fun _ => true) rfl))
    |>.step (.act (w := true) (.establishCheck rfl rfl))
    |>.step (.act (w := true) (.establishBuild 1 .stable rfl rfl (.of_lt (by decide))))
    |>.step (.save (w := true) rfl rfl ⟨1, true, _, rfl, .inl rfl⟩)
    |>.step (.act (w := false) (.grant (t := 2) (by decide)))
    |>.step (.act (w := false) (.establish rfl (by decide) (by decide)))
    |>.step (.act (w := false) (.establishLoad (fun _ => true) rfl))
    |>.step (.act (w := false) (.establishCheck rfl rfl))
    |>.step (.act (w := false) (.establishBuild 2 .stable rfl rfl (.of_lt (by decide))))
    |>.step (.save (w := false) rfl rfl ⟨2, true, _, rfl, .inl rfl⟩)
  exact ⟨_, r, rfl, tenure_fence r⟩

/-- **A displaced writer commits after its successor.**  Writer `a` has established term 1.  Writer
`b` is handed term 2, loads, passes the fence, and loses its claim before it builds: its
establishing commit lands under term 1.  Writer `a`, which still holds term 1, loses one race to it,
rebases, finds an index of its own term, and commits. -/
theorem tenure_overtaken : ∃ σ : State UInt64 Bool Clustered Index,
    Reachable (tenure fun _ e claim => e.generation.NoWrap claim) IsNew σ ∧
      ¬ σ.landed.Pairwise fun x y => y.1.stamp ≤ x.1.stamp := by
  have r₀ : Reachable (tenure fun _ e claim => e.generation.NoWrap claim) IsNew twoWriters :=
    ⟨twoWriters, twoWriters_isStart, .refl⟩
  -- `a` establishes term 1
  have r := r₀
    |>.step (.act (w := true) (e := 1) (.grant (t := 1) (by decide)))
    |>.step (.act (w := true) (.establish rfl (by decide) (by decide)))
    |>.step (.act (w := true) (.establishLoad (fun _ => true) rfl))
    |>.step (.act (w := true) (.establishCheck rfl rfl))
    |>.step (.act (w := true) (.establishBuild 1 .stable rfl rfl (.inl (by decide))))
    |>.step (.save (w := true) rfl rfl ⟨1, true, _, rfl, .inl rfl⟩)
    -- `b` passes the fence under term 2, and loses the claim before it builds
    |>.step (.act (w := false) (.grant (t := 2) (by decide)))
    |>.step (.act (w := false) (.establish rfl (by decide) (by decide)))
    |>.step (.act (w := false) (.establishLoad (fun _ => true) rfl))
    |>.step (.act (w := false) (.establishCheck rfl rfl))
    |>.step (.act (w := false) .lapse)
    |>.step (.act (w := false) (.establishBuild 0 .stable rfl rfl (.inr (by decide))))
    |>.step (.save (w := false) rfl rfl ⟨2, true, _, rfl, .inl rfl⟩)
    -- `a` loses the race to that, rebases and commits under term 1
    |>.step (.act (w := true) (.commit 1 rfl))
    |>.step (.act (w := true) (.commitCheck rfl rfl rfl))
    |>.step (.act (w := true) (.commitBuild [] 0 1 .stable rfl rfl (.inr (by decide))))
    |>.step (.act (w := true) (.conflict rfl fun h =>
      absurd (congrArg (fun o : Option Index => (o.getD default).generation) h) (by decide)))
    |>.step (.act (w := true) (.rebase rfl))
    |>.step (.act (w := true) (.commitCheck rfl rfl rfl))
    |>.step (.act (w := true) (.commitBuild [] 0 1 .stable rfl rfl (.inr (by decide))))
    |>.step (.save (w := true) rfl rfl ⟨1, false, _, rfl, .inl rfl⟩)
  refine ⟨_, r, fun h => ?_⟩
  exact absurd ((List.pairwise_cons.mp h).1 _ List.mem_cons_self) (by decide)

end OtelStorage
