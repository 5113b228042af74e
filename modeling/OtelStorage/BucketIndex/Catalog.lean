import Mathlib.Data.List.Destutter
import OtelStorage.BucketIndex.Index

/-!
# The lineage catalog

The index remembers the claim of every split group it has published, so that the claim outlives the
members carrying it.  A claim is known by the bounds of its two intervals, its *key*: `mergeLineage`
keeps one claim a key, and trimming drops the first claims above the target that nothing in the
index reaches any more.
-/

namespace OtelStorage.BucketIndex

open SortedList List

/-- What a claim is known by: the bounds of its group and of its ancestry. -/
structure ClaimKey where
  groupMin : Block
  groupMax : Block
  blocksMin : Block
  blocksMax : Block
  deriving DecidableEq, Repr

/-- The key of a claim. -/
def Claim.key (c : Claim) : ClaimKey := ⟨c.group.min, c.group.max, c.blocks.min, c.blocks.max⟩

/-- Claims by their bounds. -/
def compareClaims (a b : Claim) : Ordering :=
  (a.group.min.compare b.group.min).then <| (a.group.max.compare b.group.max).then <|
    (a.blocks.min.compare b.blocks.min).then (a.blocks.max.compare b.blocks.max)

theorem compareClaims_eq_iff (a b : Claim) : compareClaims a b = .eq ↔ a.key = b.key := by
  simp only [compareClaims, Ordering.then_eq_eq, Block.compare_eq_iff, Claim.key, ClaimKey.mk.injEq]

/-- The order of the catalog. -/
def claimLE (a b : Claim) : Prop := compareClaims a b ≠ .gt

instance : DecidableRel claimLE := fun _ _ => inferInstanceAs (Decidable (_ ≠ _))

/-- The valid claims of the catalogs, sorted, the first of each key kept. -/
def mergeLineage (catalogs : List (List Claim)) : List Claim :=
  ((catalogs.flatten.filter Claim.valid).insertionSort claimLE).destutter
    fun a b => compareClaims a b ≠ .eq

/-- `l` and every valid claim of `claims` whose key it lacks. -/
def Lineage.withClaims (l : Lineage) (claims : List Claim) : Lineage :=
  claims.foldl (fun out c =>
    if c.valid && !out.any (fun o => o.key == c.key) then out ++ [c] else out) l

variable (ix : Index) {c : Claim} {catalogs : List (List Claim)}

/-- Every claim the index relates identities by: its catalog, and the claims its entries and wants
carry that are not in it. -/
def Index.lineage : Lineage :=
  let add (l : Lineage) (c : Claim) : Lineage :=
    if !c.valid || ix.catalog.any (fun o => compareClaims o c == .eq) ||
      (l.drop ix.catalog.length).contains c then l else l ++ [c]
  (ix.wanted.map Want.claim).foldl add ((ix.entries.map Entry.claim).foldl add ix.catalog)

/-- The claims one of whose indexed runs meets a run of `iv`. -/
def meetingInterval {n : ℕ} (index : List (Block × IndexedRun n)) (iv : Interval) : List (Fin n) :=
  iv.runs.flatMap (meeting index)

/-- Mark the claims not yet reached and put them on top of the queue. -/
def pushAll {n : ℕ} (new : List (Fin n)) (s : List (Fin n) × (Fin n → Bool)) :
    List (Fin n) × (Fin n → Bool) :=
  new.foldl (fun s i => if s.2 i then s else (i :: s.1, Function.update s.2 i true)) s

/-- Follow the queued claims; `fuel` bounds how many. -/
def reachLoop (l : Lineage) (index : List (Block × IndexedRun l.length)) :
    ℕ → List (Fin l.length) × (Fin l.length → Bool) → (Fin l.length → Bool)
  | 0, s => s.2
  | _ + 1, ([], reached) => reached
  | fuel + 1, (i :: queue, reached) =>
      reachLoop l index fuel (pushAll (meetingInterval index (l.get i).blocks) (queue, reached))

/-- Mark the groups the ancestry of `iv` passes through; each is followed once, over all calls. -/
def reachAncestry (l : Lineage) (index : List (Block × IndexedRun l.length))
    (reached : Fin l.length → Bool) (iv : Interval) : Fin l.length → Bool :=
  if !iv.valid then reached
  else reachLoop l index (l.length + 1) (pushAll (meetingInterval index iv) ([], reached))

/-- The keys of the claims the index still depends on: the ancestry of every want and entry, and the
claims they carry. -/
def Index.reachedClaims : List ClaimKey :=
  let l := ix.lineage
  let index := buildIndex fun i => (l.get i).group
  let reached := (ix.wanted.map Want.blocks ++ ix.entries.map Entry.blocks).foldl
    (reachAncestry l index) fun _ => false
  ((List.finRange l.length).filter reached).map (fun i => (l.get i).key) ++
    ((ix.entries.map Entry.claim ++ ix.wanted.map Want.claim).filter Claim.valid).map Claim.key

/-- Drop the first `excess` claims that are not reached. -/
def dropUnreached (reached : List ClaimKey) : ℕ → List Claim → List Claim
  | _, [] => []
  | excess, c :: cs =>
      if 0 < excess ∧ c.key ∉ reached then dropUnreached reached (excess - 1) cs
      else c :: dropUnreached reached excess cs

/-- Keep `maxLineage` claims, dropping those not reached. -/
def Index.trimCatalog : Index :=
  if ix.catalog.length ≤ maxLineage then ix
  else { ix with catalog :=
    dropUnreached ix.reachedClaims (ix.catalog.length - maxLineage) ix.catalog }

/-- Add the claims the entries and wants carry to the catalog, and trim it. -/
def Index.recordLineage : Index :=
  let claims := ix.catalog ++ ix.entries.map Entry.claim ++ ix.wanted.map Want.claim
  Index.trimCatalog { ix with catalog := mergeLineage [claims] }

theorem recordLineage_eq : ix.recordLineage = { ix with catalog := ix.recordLineage.catalog } := by
  simp only [Index.recordLineage, Index.trimCatalog]
  split <;> rfl

theorem recordLineage_catalog : ix.recordLineage.catalog =
    (Index.trimCatalog { ix.recordLineage with
      catalog := mergeLineage [ix.catalog ++ ix.recordLineage.entries.map Entry.claim ++
        ix.recordLineage.wanted.map Want.claim] }).catalog := by
  have hrest : ∀ X, { ix.recordLineage with catalog := X } = { ix with catalog := X } := by
    intro X
    rw [recordLineage_eq]
  have hentries : ix.recordLineage.entries = ix.entries := by rw [recordLineage_eq]
  have hwanted : ix.recordLineage.wanted = ix.wanted := by rw [recordLineage_eq]
  rw [hrest, hentries, hwanted]
  rfl

/-! ## What a catalog keeps -/

theorem exists_mem_destutter' (cs : List Claim) (a : Claim) (hc : c ∈ a :: cs) :
    ∃ c' ∈ cs.destutter' (fun a b => compareClaims a b ≠ .eq) a, c'.key = c.key := by
  induction cs generalizing a c with
  | nil => exact ⟨c, hc, rfl⟩
  | cons b cs ih =>
    by_cases h : compareClaims a b = .eq
    · rw [List.destutter'_cons_neg cs (not_not.mpr h)]
      rcases mem_cons.mp hc with rfl | hc
      · exact ih c mem_cons_self
      · rcases mem_cons.mp hc with rfl | hc
        · obtain ⟨c', hc', hkey⟩ := ih a mem_cons_self
          exact ⟨c', hc', hkey.trans ((compareClaims_eq_iff a c).mp h)⟩
        · exact ih a (mem_cons_of_mem a hc)
    · rw [List.destutter'_cons_pos cs h]
      rcases mem_cons.mp hc with rfl | hc
      · exact ⟨c, mem_cons_self, rfl⟩
      · obtain ⟨c', hc', hkey⟩ := ih b hc
        exact ⟨c', mem_cons_of_mem a hc', hkey⟩

theorem exists_mem_mergeLineage {catalog : List Claim}
    (hcat : catalog ∈ catalogs) (hc : c ∈ catalog) (hvalid : c.valid = true) :
    ∃ c' ∈ mergeLineage catalogs, c'.key = c.key := by
  have hmem : c ∈ (catalogs.flatten.filter Claim.valid).insertionSort claimLE :=
    (perm_insertionSort claimLE _).mem_iff.mpr
      (mem_filter.mpr ⟨mem_flatten.mpr ⟨catalog, hcat, hc⟩, hvalid⟩)
  rw [mergeLineage]
  cases hl : (catalogs.flatten.filter Claim.valid).insertionSort claimLE with
  | nil => exact absurd (hl ▸ hmem) not_mem_nil
  | cons a cs => exact exists_mem_destutter' cs a (hl ▸ hmem)

theorem mem_of_mem_mergeLineage (hc : c ∈ mergeLineage catalogs) :
    c.valid = true ∧ ∃ catalog ∈ catalogs, c ∈ catalog := by
  have hmem := (perm_insertionSort claimLE _).mem_iff.mp ((destutter_sublist _ _).mem hc)
  obtain ⟨hflat, hvalid⟩ := mem_filter.mp hmem
  exact ⟨hvalid, mem_flatten.mp hflat⟩

theorem dropUnreached_sublist (reached : List ClaimKey) (excess : ℕ) (cs : List Claim) :
    (dropUnreached reached excess cs).Sublist cs := by
  induction cs generalizing excess with
  | nil => exact List.Sublist.slnil
  | cons c cs ih =>
    rw [dropUnreached]
    split
    · exact (ih _).cons c
    · exact (ih _).cons_cons c

theorem mem_dropUnreached {reached : List ClaimKey} {excess : ℕ} {cs : List Claim}
    (hc : c ∈ cs) (hreached : c.key ∈ reached) : c ∈ dropUnreached reached excess cs := by
  induction cs generalizing excess with
  | nil => cases hc
  | cons b cs ih =>
    rw [dropUnreached]
    rcases mem_cons.mp hc with rfl | hc
    · rw [if_neg fun h => h.2 hreached]
      exact mem_cons_self
    · split
      · exact ih hc
      · exact mem_cons_of_mem b (ih hc)

/-- Trimming drops a claim only above the target, and only one that is not reached. -/
theorem mem_trimCatalog {ix : Index} (hc : c ∈ ix.catalog) :
    c ∈ ix.trimCatalog.catalog ∨ maxLineage < ix.catalog.length ∧ c.key ∉ ix.reachedClaims := by
  rw [Index.trimCatalog]
  split
  · exact .inl hc
  · next hlen =>
    by_cases hreached : c.key ∈ ix.reachedClaims
    · exact .inl (mem_dropUnreached hc hreached)
    · exact .inr ⟨Nat.lt_of_not_le hlen, hreached⟩

theorem trimCatalog_sublist : ix.trimCatalog.catalog.Sublist ix.catalog := by
  rw [Index.trimCatalog]
  split
  · exact .refl _
  · exact dropUnreached_sublist _ _ _

end OtelStorage.BucketIndex
