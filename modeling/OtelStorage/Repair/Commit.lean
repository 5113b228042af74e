import Mathlib.Data.Fintype.Card
import OtelStorage.BucketIndex.Subsumed
import OtelStorage.Foundation.Settling

/-!
# The commit of a repair pass

A pass has fetched parts in *units*: the answer to one want or hole, with the members of the split
groups it needs.  The commit publishes a unit whole or not at all.  Units are judged together, each
against the live parts and every other unit still in, until no verdict changes (`settle`).  The
units left are pruned: parts that others subsume are left out, live parts the published ones subsume
are retired, and a unit is dropped if its want is not answered any more or if it would leave two
overlapping parts live (`drop`).  A drop changes what the rest may commit, so both repeat.

Both loops are instances of `Settling`: a step only takes units out.

`opens` is the outcome of opening each part.  Logging is left out.
-/

namespace OtelStorage.Repair

open Delimited BucketIndex List

/-! ## Which groups have to be complete -/

/-- The intervals share blocks. -/
def overlaps (a b : Interval) : Bool := a.valid && b.valid && (a.union b).len < a.len + b.len

/-- Add a claim that is not there. -/
def addClaim (out : List Claim) (c : Claim) : List Claim :=
  if out.contains c then out else out ++ [c]

/-- The lineage of everything a commit sees. -/
def lineageWith (all : List Entry) (catalog : List Claim) : Lineage :=
  (lineageOf all).withClaims catalog

/-- The valid claims the parts carry. -/
def carriedClaims (added : List Entry) : List Claim :=
  (added.filter fun e => e.claim.valid).foldl (fun out e => addClaim out e.claim) []

/-- The claims the parts derive through. -/
def derivedClaims (l : Lineage) (added : List Entry) : List Claim :=
  (added.flatMap fun e => ancestors l e.blocks).foldl addClaim []

variable (held : Interval) (derived : List Claim)

/-- The claim's ancestry overlaps what is held, or a group needed already. -/
def needs (out : List Claim) (c : Claim) : Bool :=
  overlaps held c.blocks || out.any fun n => overlaps n.group c.blocks

/-- One pass over the claims derived, each judged with those needed so far. -/
def growPass (out : List Claim) : List Claim :=
  derived.foldl (fun out c =>
    if out.contains c then out else if needs held out c then out ++ [c] else out) out

theorem growPass_eq (out : List Claim) :
    ∃ new, growPass held derived out = out ++ new ∧ ∀ c ∈ new, c ∈ derived ∧ c ∉ out := by
  induction derived generalizing out with
  | nil => exact ⟨[], (append_nil out).symm, nofun⟩
  | cons a derived ih =>
    rw [growPass, foldl_cons]
    split
    · obtain ⟨new, heq, hnew⟩ := ih out
      exact ⟨new, heq, fun c hc => ⟨mem_cons_of_mem a (hnew c hc).1, (hnew c hc).2⟩⟩
    rename_i hout
    split
    · obtain ⟨new, heq, hnew⟩ := ih (out ++ [a])
      refine ⟨a :: new, heq.trans (append_assoc ..), ?_⟩
      refine forall_mem_cons.mpr ⟨⟨mem_cons_self, ?_⟩, fun c hc => ?_⟩
      · exact fun hmem => hout (contains_iff_mem.mpr hmem)
      · exact ⟨mem_cons_of_mem a (hnew c hc).1, fun hmem => (hnew c hc).2 (mem_append_left _ hmem)⟩
    · obtain ⟨new, heq, hnew⟩ := ih out
      exact ⟨new, heq, fun c hc => ⟨mem_cons_of_mem a (hnew c hc).1, (hnew c hc).2⟩⟩

/-- Passes until one adds nothing. -/
def growing : Settling (List Claim) where
  next out :=
    if (growPass held derived out).length = out.length then none
    else some (growPass held derived out)
  size out := (derived.filter fun c => !out.contains c).length
  smaller := by
    intro out out' h
    split at h
    · cases h
    rename_i hlen
    cases h
    obtain ⟨new, heq, hnew⟩ := growPass_eq held derived out
    rw [heq] at hlen ⊢
    obtain ⟨c, hc⟩ : ∃ c, c ∈ new := by
      refine exists_mem_of_ne_nil _ fun hnil => hlen ?_
      rw [hnil, append_nil]
    obtain ⟨hderived, hout⟩ := hnew c hc
    have hfilter : (derived.filter fun c => !(out ++ new).contains c) =
        (derived.filter fun c => !out.contains c).filter fun c => !new.contains c := by
      rw [filter_filter]
      refine filter_congr fun x _ => ?_
      rw [contains_append, Bool.not_or, Bool.and_comm]
    rw [hfilter]
    refine length_filter_lt_length_iff_exists.mpr ⟨c, mem_filter.mpr ⟨hderived, ?_⟩, ?_⟩
    · simpa using hout
    · simpa using hc

/-- The split groups whose members must all be there before `added` may be committed over `base`. -/
def groupsNeeded (base : List Entry) (want : Want) (added : List Entry) (catalog : List Claim) :
    List Claim :=
  if ((Index.ofEntries (base ++ added) catalog).satisfying want).isNone then carriedClaims added
  else
    (growing (Index.ofEntries base catalog).covered
      (derivedClaims (lineageWith (base ++ added) catalog) added)).settle []

/-- `added` may be committed over `base` for the want: together they answer it, and every group
needed is complete. -/
def committable (base : List Entry) (want : Want) (added : List Entry)
    (catalog : List Claim) : Bool :=
  ((Index.ofEntries (base ++ added) catalog).satisfying want).isSome &&
    (groupsNeeded base want added catalog).all fun c =>
      (Index.ofEntries (base ++ added) catalog).covered.contains c.group

/-! ## Units -/

/-- What the attempt for one target concluded: the part for it, and whether this node held it. -/
structure Result where
  want : Want
  hole : Bool
  entry : Entry
  held : Bool
  deriving DecidableEq

/-- One want or hole, and the split-group members its answer needs. -/
structure RepairUnit where
  target : Result
  members : List Result
  deriving DecidableEq

/-- The results a unit is made of. -/
def RepairUnit.results (u : RepairUnit) : List Result := u.target :: u.members

/-- Units in the order of the want's prefix, then the answer's. -/
def RepairUnit.before (a b : RepairUnit) : Bool :=
  a.target.want.pref < b.target.want.pref ||
    (a.target.want.pref == b.target.want.pref && a.target.entry.pref < b.target.entry.pref)

/-- What a commit is decided from. -/
structure Commit where
  live : List Entry
  catalog : List Claim
  units : List RepairUnit
  opens : Bytes → Bool

namespace Commit

variable (x : Commit) {k : Fin x.units.length}

/-- Which units are in. -/
abbrev Taken := Fin x.units.length → Bool

/-- A part of this prefix is live. -/
def isLive (p : Bytes) : Bool := x.live.any fun e => e.pref == p

/-- A part that is not live and did not open. -/
def openErr (p : Bytes) : Bool := !x.isLive p && !x.opens p

/-- The parts a unit would add: those neither live nor failing to open. -/
def added (u : RepairUnit) : List Entry :=
  (u.results.map Result.entry).filter fun e => !x.isLive e.pref && !x.openErr e.pref

/-- A unit may be committed over `base` with `own` added: a part that did not open was fetched for
something covered anyway, and the unit is committable. -/
def admissible (base : List Entry) (u : RepairUnit) (own : List Entry) : Bool :=
  (u.results.all fun r => !x.openErr r.entry.pref ||
    ((Index.ofEntries (base ++ own) x.catalog).satisfying r.want).isSome) &&
    committable base u.target.want own x.catalog

/-! ## Judging the units together -/

variable (s : x.Taken)

/-- The live parts and those of every other unit in. -/
def others (k : Fin x.units.length) : List Entry :=
  x.live ++ (List.finRange x.units.length).flatMap fun o =>
    if o ≠ k ∧ s o = true then x.added (x.units.get o) else []

/-- The units in that may be committed beside the others. -/
def verdict : x.Taken := fun k =>
  s k && x.admissible (x.others s k) (x.units.get k) (x.added (x.units.get k))

/-- The units in. -/
def members : Finset (Fin x.units.length) := Finset.univ.filter fun k => s k = true

theorem card_members_lt {s s' : x.Taken} (hle : ∀ k, s' k = true → s k = true) (hk : s k = true)
    (hk' : s' k = false) :
    (x.members s').card < (x.members s).card := by
  refine Finset.card_lt_card ⟨fun i hi => ?_, fun hsub => ?_⟩
  · exact Finset.mem_filter.mpr ⟨Finset.mem_univ i, hle i (Finset.mem_filter.mp hi).2⟩
  · have hmem := hsub (Finset.mem_filter.mpr ⟨Finset.mem_univ k, hk⟩)
    exact Bool.false_ne_true (hk'.symm.trans (Finset.mem_filter.mp hmem).2)

/-- Verdicts until none changes. -/
def settling : Settling x.Taken where
  next s := if x.verdict s = s then none else some (x.verdict s)
  size s := (x.members s).card
  smaller := by
    intro s s' h
    split at h
    · cases h
    rename_i hne
    cases h
    have hle : ∀ k, x.verdict s k = true → s k = true := fun k hk =>
      (Bool.and_eq_true_iff.mp hk).1
    obtain ⟨k, hk⟩ := Function.ne_iff.mp hne
    have hs : s k = true := by
      refine Bool.not_eq_false _ ▸ fun hfalse => hk ?_
      rw [verdict, hfalse, Bool.false_and]
    exact x.card_members_lt hle hs (Bool.not_eq_true _ ▸ fun hv => hk (hv.trans hs.symm))

/-- The units left when no verdict changes. -/
def settle : x.Taken := x.settling.settle s

theorem settle_le (k : Fin x.units.length) (h : x.settle s k = true) : s k = true := by
  refine x.settling.settle_induct (P := fun s' => ∀ k, s' k = true → s k = true) ?_
    (fun _ h => h) k h
  intro t t' ht hstep k hk
  dsimp only [settling] at hstep
  split at hstep
  · cases hstep
  · cases hstep
    exact ht k (Bool.and_eq_true_iff.mp hk).1

/-! ## Pruning -/

/-- Keep the first entry of each prefix. -/
def firstOfPrefix (es : List Entry) : List Entry :=
  es.foldl (fun out e => if out.any fun o => o.pref == e.pref then out else out ++ [e]) []

/-- The parts of the units in. -/
def admitted : List Entry :=
  firstOfPrefix (((List.finRange x.units.length).filter s).flatMap fun k => x.added (x.units.get k))

/-- The lineage of everything the commit saw. -/
def lineage : Lineage := lineageWith (x.live ++ x.admitted s) x.catalog

/-- The parts of the units in that no other part subsumes. -/
def published : List Entry :=
  (x.admitted s).filter fun e =>
    !((x.lineage s).subsumed (x.admitted s) (x.live ++ x.admitted s)).contains e.pref

/-- The prefixes of the live parts the published ones subsume. -/
def retired : List Bytes := (x.lineage s).subsumed x.live (x.published s)

/-- The parts live after the commit. -/
def final : List Entry :=
  (x.live.filter fun e => !(x.retired s).contains e.pref) ++ x.published s

/-- The prefix is published. -/
def kept (p : Bytes) : Bool := (x.published s).any fun e => e.pref == p

/-- What a unit in publishes. -/
def own (k : Fin x.units.length) : List Entry :=
  if s k then (x.added (x.units.get k)).filter fun e => x.kept s e.pref else []

/-- The parts live after the commit that the unit does not publish. -/
def base (k : Fin x.units.length) : List Entry :=
  (x.final s).filter fun e => !(x.own s k).any fun o => o.pref == e.pref

/-- The units that may not be committed once subsumed parts are left out. -/
def unanswered : List (Fin x.units.length) :=
  (List.finRange x.units.length).filter fun k =>
    s k && !x.admissible (x.base s k) (x.units.get k) (x.own s k)

/-- Two different parts with rows in common. -/
def conflict (a e : Entry) : Bool :=
  e.pref != a.pref && e.data && a.data && (x.lineage s).overlaps a e

/-- The unit publishes a part that overlaps a live one, or another of its own. -/
def overlapsLive (k : Fin x.units.length) : Bool :=
  (x.own s k).any fun a => (x.final s).any fun e =>
    x.conflict s a e && (x.isLive e.pref || (x.own s k).any fun o => o.pref == e.pref)

/-- The unit publishes a part that overlaps one that unit `o` publishes. -/
def overlapsUnit (k o : Fin x.units.length) : Bool :=
  o != k && (x.own s k).any fun a => (x.final s).any fun e =>
    x.conflict s a e && (x.own s o).any fun p => p.pref == e.pref

/-- The first unit that overlaps another, in the order of units. -/
def firstOverlapping : Option (Fin x.units.length) :=
  ((List.finRange x.units.length).filter fun k =>
    (List.finRange x.units.length).any (x.overlapsUnit s k)).foldl (fun first k =>
      match first with
      | none => some k
      | some f => if (x.units.get k).before (x.units.get f) then some k else some f) none

/-- The units to drop for overlap: those that overlap a live part; failing that, those that overlap
the first overlapping unit. -/
def overlapping : List (Fin x.units.length) :=
  let withLive := (List.finRange x.units.length).filter (x.overlapsLive s)
  if !withLive.isEmpty then withLive
  else match x.firstOverlapping s with
    | none => []
    | some f => (List.finRange x.units.length).filter (x.overlapsUnit s f)

/-- The units the commit cannot take after all. -/
def drop : List (Fin x.units.length) :=
  if !(x.unanswered s).isEmpty then x.unanswered s else x.overlapping s

theorem own_eq_nil {s : x.Taken} (h : s k ≠ true) : x.own s k = [] := by
  rw [own, if_neg h]

theorem mem_drop {s : x.Taken} (hk : k ∈ x.drop s) : s k = true := by
  by_contra hs
  have hown := x.own_eq_nil hs
  rw [drop] at hk
  split at hk
  · exact hs (Bool.and_eq_true_iff.mp (mem_filter.mp hk).2).1
  rw [overlapping] at hk
  split at hk
  · have hlive := (mem_filter.mp hk).2
    rw [overlapsLive, hown] at hlive
    exact Bool.false_ne_true hlive
  split at hk
  · cases hk
  have hunit := (mem_filter.mp hk).2
  rw [overlapsUnit, hown, Bool.and_eq_true, any_eq_true] at hunit
  obtain ⟨-, a, -, hany⟩ := hunit
  rw [any_eq_true] at hany
  obtain ⟨e, -, he⟩ := hany
  exact Bool.false_ne_true (Bool.and_eq_true_iff.mp he).2

/-- The units in without those dropped. -/
def without (d : List (Fin x.units.length)) : x.Taken := fun k => s k && !d.contains k

/-- Drop units and settle, until none is dropped. -/
def pruning : Settling x.Taken where
  next s := if (x.drop s).isEmpty then none else some (x.settle (x.without s (x.drop s)))
  size s := (x.members s).card
  smaller := by
    intro s s' h
    split at h
    · cases h
    rename_i hne
    cases h
    obtain ⟨k, hk⟩ : ∃ k, k ∈ x.drop s :=
      exists_mem_of_ne_nil _ (by simpa using hne)
    have hout : x.without s (x.drop s) k = false := by
      rw [without, contains_iff_mem.mpr hk, Bool.not_true, Bool.and_false]
    refine x.card_members_lt (k := k) (fun i hi => ?_) (x.mem_drop hk) ?_
    · exact (Bool.and_eq_true_iff.mp (x.settle_le _ i hi)).1
    · exact Bool.not_eq_true _ ▸ fun hin =>
        Bool.false_ne_true (hout.symm.trans (x.settle_le _ k hin))

/-- The units the commit takes. -/
def taken : x.Taken := x.pruning.settle (x.settle fun _ => true)

/-! ## The outcome -/

/-- What a commit counts. -/
structure RepairStats where
  failed : ℕ
  revoked : ℕ
  localParts : ℕ
  fetched : ℕ
  deriving DecidableEq

/-- Publish a result of a unit taken, unless its part is live, was handled before, did not open or
is not kept. -/
def publishResult (st : List Bytes × List Result) (r : Result) :
    List Bytes × List Result :=
  if st.1.contains r.entry.pref || x.openErr r.entry.pref then st
  else (st.1 ++ [r.entry.pref], if x.kept s r.entry.pref then st.2 ++ [r] else st.2)

/-- The results whose parts are published, in order. -/
def publish : List Result :=
  ((((List.finRange x.units.length).filter s).flatMap fun k => (x.units.get k).results).foldl
    (x.publishResult s) (x.live.map Entry.pref, [])).2

/-- What a commit publishes and retires, the units it takes, and what it counts. -/
structure Outcome where
  published : List Entry
  retired : List Bytes
  units : List RepairUnit
  stats : RepairStats

/-- The commit. -/
def admitUnits : Outcome :=
  let s := x.taken
  let results := x.publish s
  let inUnits := ((List.finRange x.units.length).filter s).map x.units.get
  let outUnits := ((List.finRange x.units.length).filter fun k => !s k).map x.units.get
  ⟨results.map Result.entry, x.retired s, inUnits,
    ⟨(outUnits.map fun u => u.results.length).sum, inUnits.countP fun u => u.target.hole,
      results.countP fun r => !r.hole && r.held, results.countP fun r => !r.hole && !r.held⟩⟩

end Commit
end OtelStorage.Repair
