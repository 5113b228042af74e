import OtelStorage.Engine.Writers

/-!
# Tombstones over a run

An index names the parts its writers took out on purpose, so that a gap in it can be told from a
loss.  The list is rebuilt on each attempt from the engine's own memory: the tombstones it has, one
for each prefix that was indexed and is no part any more, less those of parts that are live again,
and of the rest the `maxRemovals` newest.

Loading an index replaces that memory by the index's list, and an attempt that lands leaves it equal
to the list it published.  Rebasing does not touch it: the engine takes over the entries, the wants,
the holes, the watermarks and the lineage of the rival's index, and not its tombstones.

* `tombstones_kept`: in every run whose attempts start from the tombstones of the index they
  replace, and cut their list between generations, a tombstone is in every later index until its
  prefix is live again or `maxRemovals` newer ones crowd it out.
* `tombstone_dropped`: the run in which a rebase forgets one.
-/

namespace OtelStorage

open Delimited BucketIndex SortedList CasStore List

/-- The tombstones newer than a tombstone. -/
def newer (removals : List Removal) (r : Removal) : List Removal :=
  removals.filter fun x => r.generation < x.generation

/-- The tombstones no older than a tombstone. -/
def noOlder (removals : List Removal) (r : Removal) : List Removal :=
  removals.filter fun x => r.generation ≤ x.generation

section Trim

variable {sort : SortFunc Removal newestFirst} {out : List Removal} {keep : ℕ} {r : Removal}

theorem le_of_mem_take_drop {x : Removal} (hx : x ∈ (sort.sort out).take keep)
    (hr : r ∈ (sort.sort out).drop keep) : r.generation ≤ x.generation := by
  have hsorted := sort.sorted out
  rw [← take_append_drop keep (sort.sort out)] at hsorted
  exact (pairwise_append.mp hsorted).2.2 x hx r hr

theorem mem_take_of_noOlder (hr : r ∈ out) (hfit : (noOlder out r).length ≤ keep) :
    r ∈ (sort.sort out).take keep := by
  have hperm := sort.perm out
  have hsplit := take_append_drop keep (sort.sort out)
  rcases mem_append.mp (hsplit ▸ hperm.mem_iff.mpr hr) with htake | hdrop
  · exact htake
  have hall : noOlder ((sort.sort out).take keep) r = (sort.sort out).take keep :=
    filter_eq_self.mpr fun x hx => decide_eq_true (le_of_mem_take_drop hx hdrop)
  have hself : r ∈ noOlder ((sort.sort out).drop keep) r :=
    mem_filter.mpr ⟨hdrop, decide_eq_true le_rfl⟩
  have hcount : (noOlder out r).length = _ := (hperm.filter _).length_eq.symm
  rw [← hsplit, filter_append, length_append] at hcount
  rw [hcount, ← noOlder, ← noOlder, hall, length_take] at hfit
  have hpos := length_pos_of_mem hself
  have hlong := length_pos_of_mem hdrop
  rw [length_drop] at hlong
  omega

theorem le_newer_take (hmany : keep ≤ (newer out r).length) :
    keep ≤ (newer ((sort.sort out).take keep) r).length := by
  have hperm := sort.perm out
  rw [newer, ← (hperm.filter _).length_eq] at hmany
  by_cases hall : ∀ x ∈ (sort.sort out).take keep, r.generation < x.generation
  · rw [newer, filter_eq_self.mpr fun x hx => decide_eq_true (hall x hx), length_take]
    exact le_min le_rfl (hmany.trans (length_filter_le _ _))
  -- one that is taken is no newer, so none that is dropped is
  push Not at hall
  obtain ⟨x, hx, hle⟩ := hall
  have hnone : ((sort.sort out).drop keep).filter (fun x => r.generation < x.generation) = [] :=
    filter_eq_nil_iff.mpr fun y hy => by
      simpa using (le_of_mem_take_drop hx hy).trans hle
  rw [← take_append_drop keep (sort.sort out), filter_append, hnone, append_nil] at hmany
  exact hmany

end Trim

variable {parts : List Part} {s s' : Writer} {e : Engine}

theorem exists_entry_of_mem_live {term : UInt64} {pref : Bytes}
    (h : pref ∈ e.live parts term) : ∃ d ∈ e.allEntries parts term, d.pref = pref := by
  rw [Engine.live, mem_append, mem_append] at h
  refine exists_mem_insertAll.mpr ?_
  rcases h with (h | h) | h
  · refine .inl (exists_mem_insertAll.mpr (.inl (exists_mem_insertAll.mpr (.inr ?_))))
    rw [← Engine.map_pref_assignParts (e.allocator parts term)] at h
    obtain ⟨p, hp, rfl⟩ := mem_map.mp h
    exact ⟨p.entry, mem_map_of_mem hp, rfl⟩
  · obtain ⟨d, hd, rfl⟩ := mem_map.mp h
    exact .inl (exists_mem_insertAll.mpr (.inr ⟨d, hd, rfl⟩))
  · obtain ⟨w, hw, rfl⟩ := mem_map.mp h
    exact .inr ⟨w.holeEntry, mem_map_of_mem hw, rfl⟩

/-- An index may lack a tombstone: its prefix is live again, or `maxRemovals` newer ones have been
recorded. -/
def Outlived (r : Removal) (ix : Index) : Prop :=
  (∃ d ∈ ix.entries, d.pref = r.pref) ∨ maxRemovals ≤ (newer ix.removed r).length

/-- The tombstones of the index the engine last saw. -/
def Engine.seenRemovals (e : Engine) : List Removal := (e.indexVersion.getD default).removed

/-- The tombstones an attempt has to choose from: its own, and those of the prefixes it takes out,
less those of prefixes that are live. -/
def Engine.trimmable (e : Engine) (parts : List Part) (genTerm blockTerm : UInt64) : List Removal :=
  (e.statedRemovals parts (e.generation.next genTerm)).filter fun r =>
    !(e.live parts blockTerm).contains r.pref

/-- What is asked of an attempt before it is made. -/
structure Carries (e : Engine) (parts : List Part) (genTerm blockTerm : UInt64) : Prop where
  /-- The engine has all the tombstones of the index it saw. -/
  seen : ∀ r ∈ e.seenRemovals, r ∈ e.removals
  /-- The bound does not fall between tombstones of one generation. -/
  cut : ∀ r ∈ e.seenRemovals,
    (noOlder (e.trimmable parts genTerm blockTerm) r).length ≤ maxRemovals ∨
    maxRemovals ≤ (newer (e.trimmable parts genTerm blockTerm) r).length

/-- The runs all of whose attempts carry the tombstones they saw. -/
def carryRules : Rules :=
  ⟨fun e parts genTerm blockTerm _ => Carries e parts genTerm blockTerm, fun _ _ => True⟩

/-- **One attempt.** -/
theorem Carries.kept {genTerm blockTerm : UInt64} (h : Carries e parts genTerm blockTerm)
    (epoch : UInt64) (sorts : Sorts) {r : Removal} (hr : r ∈ e.seenRemovals) :
    r ∈ (e.nextIndex parts epoch genTerm blockTerm sorts).index.removed ∨
      Outlived r (e.nextIndex parts epoch genTerm blockTerm sorts).index := by
  rw [Outlived, Engine.nextIndex_removed, Engine.nextIndex_entries]
  by_cases hlive : r.pref ∈ e.live parts blockTerm
  · exact .inr (.inl (exists_entry_of_mem_live hlive))
  have hout : r ∈ e.trimmable parts genTerm blockTerm := by
    refine mem_filter.mpr ⟨mem_append_left _ (h.seen r hr), ?_⟩
    rw [Bool.not_eq_true', ← Bool.not_eq_true, contains_iff_mem]
    exact hlive
  have hcut := h.cut r hr
  have htrim : trimRemovals sorts.removals (e.statedRemovals parts (e.generation.next genTerm))
      (e.live parts blockTerm) maxRemovals =
    (if maxRemovals < (e.trimmable parts genTerm blockTerm).length then
      (sorts.removals.sort (e.trimmable parts genTerm blockTerm)).take maxRemovals
    else e.trimmable parts genTerm blockTerm).insertionSort removalLE := rfl
  rw [htrim, mem_insertionSort, newer, ((perm_insertionSort removalLE _).filter _).length_eq]
  split
  · exact hcut.imp (mem_take_of_noOlder hout) fun hmany => .inr (le_newer_take hmany)
  · exact .inl hout

/-- The attempt a writer is about to save carries the tombstones it saw. -/
def TombstoneInv (s : Writer) : Prop :=
  ∀ b, s.built = some b → ∀ r ∈ s.engine.seenRemovals,
    r ∈ b.attempt.index.removed ∨ Outlived r b.attempt.index

theorem TombstoneInv.of_not_built (h : s.built = none) : TombstoneInv s :=
  fun b hb => absurd (h.symm.trans hb) (Option.some_ne_none b).symm

theorem TombstoneInv.act {o : Option Index}
    (hact : Writer.Act carryRules () o s () s') : TombstoneInv s' := by
  cases hact with
  | work _ _ _ _ hidle _ | load _ hidle | rebase hidle _ => exact .of_not_built hidle
  | build parts epoch genTerm blockTerm sorts _ _ hrule =>
    intro b hb r hr
    cases hb
    have hseen : (s.build parts epoch genTerm blockTerm sorts).engine.seenRemovals =
        s.engine.seenRemovals := by
      rfl
    exact hrule.kept epoch sorts (hseen ▸ hr)
  | restart | fail => exact .of_not_built rfl

theorem TombstoneInv.saved (hs : (writersUnder carryRules).saved s s') :
    TombstoneInv s' := by
  obtain ⟨b, -, rfl | rfl⟩ := hs <;> exact .of_not_built rfl

variable {W : Type*} [DecidableEq W]

/-- **Tombstones survive.**  In every run whose attempts carry the tombstones they saw, a tombstone
of an index that landed is in every index that landed later, unless at one of them, or at one in
between, its prefix is live again or `maxRemovals` newer tombstones have been recorded. -/
theorem tombstones_kept {σ : State Unit W Writer Index}
    (h : Reachable (writersUnder carryRules) Writer.IsNew σ)
    {later mid older : List (Writer × Index)} {x y : Writer × Index}
    (hl : σ.landed = later ++ y :: (mid ++ x :: older)) {r : Removal} (hr : r ∈ x.2.removed) :
    r ∈ y.2.removed ∨ ∃ z ∈ y :: mid, Outlived r z.2 := by
  have hinv := (h.inv (L := fun _ s => TombstoneInv s)
    (fun _ hnew => .of_not_built (by obtain ⟨_, rfl⟩ := hnew; rfl))
    (fun _ _ _ _ _ _ ha => .act ha) (fun _ _ _ _ _ hs => .saved hs)
    (fun _ _ _ _ _ ht => ht)).2
  refine h.landed_kept (L := TombstoneInv) (K := fun ix => r ∈ ix.removed) (G := Outlived r)
    hinv ?_ hl hr
  intro z v hz hc hview hv
  obtain ⟨b, hb, hindex⟩ := Option.map_eq_some_iff.mp hc
  have hseen : z.1.engine.seenRemovals = v.removed := by
    have hversion : z.1.engine.indexVersion = some v := hview
    rw [Engine.seenRemovals, hversion]
    rfl
  rw [← hindex]
  exact hz b hb r (hseen ▸ hv)

/-- A writer publishes part 1 and takes it out; another loads that index and flushes part 2. -/
theorem tombstones_kept_load : ∃ σ : State Unit Bool Writer Index,
    Reachable (writersUnder carryRules) Writer.IsNew σ ∧ ∃ y x older,
      σ.landed = y :: x :: older ∧ (⟨[1], ⟨0, 2⟩⟩ : Removal) ∈ x.2.removed ∧
      ((⟨[1], ⟨0, 2⟩⟩ : Removal) ∈ y.2.removed ∨ ∃ z ∈ [y], Outlived ⟨[1], ⟨0, 2⟩⟩ z.2) := by
  have r₀ := reachable_two carryRules
  have r := r₀
    |>.step (.act (w := true) (.flush [1] rfl rfl ⟨by decide, by decide⟩))
    |>.step (.save (w := true) rfl rfl ⟨_, rfl, .inl rfl⟩)
    |>.step (.act (w := true) (.build [] 1 0 0 .stable rfl
      (.single (.drop [] (nil_sublist _))) ⟨by decide, by decide⟩))
    |>.step (.save (w := true) rfl rfl ⟨_, rfl, .inl rfl⟩)
    |>.step (.act (w := false) (.load (fun _ => true) rfl))
    |>.step (.act (w := false) (.flush [2] rfl rfl ⟨by decide, by decide⟩))
    |>.step (.save (w := false) rfl rfl ⟨_, rfl, .inl rfl⟩)
  refine ⟨_, r, _, _, _, rfl, by decide, ?_⟩
  exact tombstones_kept r (show _ = [] ++ _ :: ([] ++ _ :: _) from rfl) (by decide)

/-- **A rebase forgets a tombstone.**  A writer loads the empty index, and another publishes part 1
and takes it out.  The first flushes part 2, loses the race, rebases and lands: the index has
neither part 1 nor its tombstone, and no tombstone at all. -/
theorem tombstone_dropped : ∃ σ : State Unit Bool Writer Index,
    Reachable writers Writer.IsNew σ ∧
      σ.landed.map (fun x => (x.2.entries.map Entry.pref, x.2.removed)) =
        [([[2]], []), ([], [⟨[1], ⟨0, 2⟩⟩]), ([[1]], [])] := by
  have r₀ : Reachable writers Writer.IsNew _ := reachable_two _
  have r := r₀
    |>.step (.act (w := false) (.load (fun _ => true) rfl))
    |>.step (.act (w := true) (.flush [1] rfl rfl trivial))
    |>.step (.save (w := true) rfl rfl ⟨_, rfl, .inl rfl⟩)
    |>.step (.act (w := true) (.build [] 1 0 0 .stable rfl
      (.single (.drop [] (nil_sublist _))) trivial))
    |>.step (.save (w := true) rfl rfl ⟨_, rfl, .inl rfl⟩)
    |>.step (.act (w := false) (.flush [2] rfl rfl trivial))
    |>.step (.act (w := false) .fail)
    |>.step (.act (w := false) (.rebase rfl trivial))
    |>.step (.act (w := false) (.flush [2] rfl rfl trivial))
    |>.step (.save (w := false) rfl rfl ⟨_, rfl, .inl rfl⟩)
  exact ⟨_, r, by decide⟩

end OtelStorage
