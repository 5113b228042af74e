import OtelStorage.BucketIndex.Catalog
import OtelStorage.Foundation.Wire

/-!
# The bucket index as an object

The index of a shard is stored as one object in a versioned binary form.  One decoder reads all
eight versions: a version adds fields to the ones before it, so each field is read `since` the
version that brought it and has its zero value below.

Writing always uses the newest version.  What is written reads back when every block set is in
canonical form or unset, since `appendInterval` writes one that is neither as unset; what is read is
always of that kind, because the decoder refuses a set that is not canonical, so an index survives
being loaded from any version and saved.
-/

namespace OtelStorage.BucketIndex
namespace Format

open Delimited Wire List

/-! ## Writing -/

/-- The first byte of every object. -/
def magic0 : Byte := 66

/-- The second. -/
def magic1 : Byte := 73

/-- The version written. -/
def version : ℕ := 8

/-- A block: its term and its number. -/
def appendBlock (b : Block) : Bytes := appendUInt64 b.term ++ appendUInt64 b.n

/-- A gap by its ends. -/
def appendGap (g : Gap) : Bytes := appendBlock g.min ++ appendBlock g.max

variable (iv : Interval) (c : Claim) {ix : Index}

/-- An unset block set is one zero byte.  A set leads with the number of its lowest block, which is
never 0, and writes the upper bound's term as a distance. -/
def appendInterval : Bytes :=
  if !iv.valid then appendUvarint 0
  else appendUInt64 iv.min.n ++ appendUInt64 iv.min.term ++
    appendUInt64 (iv.max.term - iv.min.term) ++ appendUInt64 iv.max.n ++
    appendList appendGap iv.gaps

/-- A flag, then the claim if it is valid. -/
def appendClaim : Bytes :=
  if !c.valid then appendUvarint 0
  else appendUvarint 1 ++ appendInterval c.blocks ++ appendInterval c.group

/-- A tier of a layout. -/
def appendTier (t : RollupTier) : Bytes :=
  appendVarint t.before ++ appendVarint t.interval ++ appendUvarint t.agg.toNat

/-- An unknown layout is only the absence of its flag bit. -/
def appendRollup : Option Rollup → Bytes
  | none => []
  | some r => appendList appendTier r.tiers

/-- The flag of a hole. -/
def entryFlagHole : UInt64 := 1

/-- The flag of a known layout. -/
def entryFlagRollup : UInt64 := 2

/-- The flag word of an entry. -/
def entryFlags (e : Entry) : UInt64 :=
  (if e.hole then entryFlagHole else 0) ||| (if e.rollup.isSome then entryFlagRollup else 0)

/-- A generation. -/
def appendGeneration (g : Generation) : Bytes := appendUInt64 g.term ++ appendUInt64 g.counter

/-- An entry. -/
def appendEntry (e : Entry) : Bytes :=
  appendBlob e.pref ++ appendVarint e.minTime ++ appendVarint e.maxTime ++
  appendInterval e.blocks ++
    appendUvarint e.level.toNat ++ appendUInt64 (entryFlags e) ++ appendClaim e.claim ++
    appendUInt64 e.term ++ appendRollup e.rollup

/-- A tombstone. -/
def appendRemoval (r : Removal) : Bytes := appendBlob r.pref ++ appendGeneration r.generation

/-- A watermark. -/
def appendWriterEpoch (w : WriterEpoch) : Bytes :=
  appendBlob w.writer ++ appendUInt64 w.epoch ++ appendGeneration w.generation

/-- A want. -/
def appendWant (w : Want) : Bytes :=
  appendBlob w.pref ++ appendInterval w.blocks ++ appendUvarint w.level.toNat ++
    appendVarint w.minTime ++ appendVarint w.maxTime ++ appendGeneration w.generation ++
    appendClaim w.claim ++ appendUInt64 w.term

/-- A catalogued claim. -/
def appendCatalogClaim : Bytes := appendInterval c.blocks ++ appendInterval c.group

/-- The object written for an index. -/
def appendBinary (ix : Index) : Bytes :=
  [magic0, magic1, Fin.ofNat 256 version] ++ (appendList appendEntry ix.entries ++
    appendUInt64 ix.flushedEpoch ++ appendGeneration ix.generation ++
    appendList appendRemoval ix.removed ++ appendList appendWriterEpoch ix.epochs ++
    appendList appendWant ix.wanted ++ appendUInt64 ix.lostParts ++
      appendBlock ix.allocatedBlocks ++
    appendList appendCatalogClaim ix.catalog)

/-! ## Reading -/

section Read

variable {ε α : Type} (ver : ℕ)

/-- A field that version `v` brought; `d` below it. -/
def since (v ver : ℕ) (r : Reader ε α) (d : α) : Reader ε α := if v ≤ ver then r else pure d

/-- Reads a block. -/
def readBlock (e : ε) : Reader ε Block := do
  let term ← readUInt64 e
  let n ← readUInt64 e
  pure ⟨term, n⟩

/-- Blocks before version 7 are of term 0. -/
def readGap (e : ε) : Reader ε Gap :=
  if 7 ≤ ver then do
    let min ← readBlock e
    let max ← readBlock e
    pure ⟨min, max⟩
  else do
    let min ← readUInt64 e
    let max ← readUInt64 e
    pure ⟨⟨0, min⟩, ⟨0, max⟩⟩

/-- The terms of the bounds: the lower one, and the upper one from its distance. -/
def readTerms (e : ε) : Reader ε (UInt64 × UInt64) := do
  let min ← readUInt64 e
  let span ← readUInt64 e
  require (span ≤ 18446744073709551615 - min) e
  pure (min, min + span)

/-- A version 5 set carries its bounds only and is read as the contiguous set between them; bounds
that name no set are unset.  A later set that is not canonical is refused. -/
def readInterval (e : ε) : Reader ε Interval := do
  let minN ← readUInt64 e
  if ver < 6 then do
    let maxN ← readUInt64 e
    let iv : Interval := ⟨⟨0, minN⟩, ⟨0, maxN⟩, []⟩
    pure (if iv.valid then iv else default)
  else if minN = 0 then pure default
  else do
    let terms ← since 7 ver (readTerms e) (0, 0)
    let maxN ← readUInt64 e
    let gaps ← readList e e (readGap ver e)
    let iv : Interval := ⟨⟨terms.1, minN⟩, ⟨terms.2, maxN⟩, gaps⟩
    require (iv.valid = true) e
    pure iv

/-- Reads a claim; one that is present must be valid. -/
def readClaim (e : ε) : Reader ε Claim := do
  let present ← readUvarint e
  require (present ≤ 1) e
  if present = 0 then pure default
  else do
    let blocks ← readInterval ver e
    let group ← readInterval ver e
    let c : Claim := ⟨blocks, group⟩
    require (c.valid = true) e
    pure c

/-- Reads a tier. -/
def readTier (e : ε) : Reader ε RollupTier := do
  let before ← readVarint e
  let interval ← readVarint e
  let agg ← readUvarint e
  require (agg ≤ 255) e
  pure ⟨before, interval, UInt8.ofNat agg⟩

/-- Reads a layout. -/
def readRollup (e : ε) : Reader ε Rollup := do
  let tiers ← readList e e (readTier e)
  pure ⟨tiers⟩

/-- Reads a level of 32 bits. -/
def readLevel (e : ε) : Reader ε UInt32 := do
  let level ← readUvarint e
  require (level ≤ 4294967295) e
  pure (UInt32.ofNat level)

/-- Reads a generation. -/
def readGeneration (badTerm badCounter : ε) : Reader ε Generation := do
  let term ← readUInt64 badTerm
  let counter ← readUInt64 badCounter
  pure ⟨term, counter⟩

/-- The flag bits an entry of the version may carry; an unknown one is an error, never a part. -/
def knownFlags : UInt64 :=
  if 8 ≤ ver then entryFlagHole ||| entryFlagRollup else entryFlagHole

/-- The layout, when the flags announce one. -/
def readLayout (flags : UInt64) (e : ε) : Reader ε (Option Rollup) :=
  if flags &&& entryFlagRollup ≠ 0 then some <$> readRollup e else pure none

/-- The fields of an entry since version 5. -/
def decodeBlockIdentity (e : Entry) (bad : ε) : Reader ε Entry := do
  let blocks ← readInterval ver bad
  let level ← readLevel bad
  let flags ← readUInt64 bad
  require (flags &&& ~~~knownFlags ver = 0) bad
  let claim ← since 6 ver (readClaim ver bad) default
  let term ← since 7 ver (readUInt64 bad) 0
  let rollup ← readLayout flags bad
  pure { e with blocks, level, claim, term, rollup, hole := flags &&& entryFlagHole ≠ 0 }

end Read

variable (ver : ℕ) (cs : List Claim)

/-- Reads an entry. -/
def readEntry : Reader String Entry := do
  let pref ← readBlob "bad prefix length"
  let minTime ← readVarint "bad min time"
  let maxTime ← readVarint "bad max time"
  let e : Entry := { pref, minTime, maxTime }
  since 5 ver (decodeBlockIdentity ver e "bad block identity") e

/-- Reads the entries. -/
def decodeEntries : Reader String (List Entry) :=
  readList "bad count" "count exceeds input" (readEntry ver)

/-- Reads a tombstone. -/
def readRemoval : Reader String Removal := do
  let pref ← readBlob "bad removal prefix length"
  let generation ← readGeneration "bad removal term" "bad removal counter"
  pure ⟨pref, generation⟩

/-- Reads the tombstones. -/
def decodeRemovals : Reader String (List Removal) :=
  readList "bad removal count" "removal count exceeds input" readRemoval

/-- Reads a watermark. -/
def readWriterEpoch : Reader String WriterEpoch := do
  let writer ← readBlob "bad writer length"
  let epoch ← readUInt64 "bad writer epoch"
  let generation ← readGeneration "bad writer term" "bad writer counter"
  pure ⟨writer, epoch, generation⟩

/-- Reads the watermarks. -/
def decodeWriterEpochs : Reader String (List WriterEpoch) :=
  readList "bad writer count" "writer count exceeds input" readWriterEpoch

/-- Reads a want. -/
def readWant : Reader String Want := do
  let pref ← readBlob "bad want prefix length"
  let blocks ← readInterval ver "bad want blocks"
  let level ← readLevel "bad want level"
  let minTime ← readVarint "bad want min time"
  let maxTime ← readVarint "bad want max time"
  let generation ← readGeneration "bad want term" "bad want counter"
  let claim ← since 6 ver (readClaim ver "bad want claim") default
  let term ← since 7 ver (readUInt64 "bad want tenure") 0
  pure ⟨pref, blocks, claim, level, term, minTime, maxTime, generation⟩

/-- Reads the wants. -/
def decodeWants : Reader String (List Want) :=
  readList "bad want count" "want count exceeds input" (readWant ver)

/-- Reads a catalogued claim, which must be valid. -/
def readCatalogClaim (e : String) : Reader String Claim := do
  let blocks ← readInterval version e
  let group ← readInterval version e
  let c : Claim := ⟨blocks, group⟩
  require (c.valid = true) e
  pure c

/-- The claims are strictly ascending. -/
def Ascending : Prop := cs.IsChain fun a b => compareClaims a b = .lt

instance : DecidablePred Ascending := fun cs => inferInstanceAs (Decidable (cs.IsChain _))

/-- Reads the catalog, which must ascend. -/
def readCatalog (e : String) : Reader String (List Claim) := do
  let cs ← readList e e (readCatalogClaim e)
  require (Ascending cs) e
  pure cs

/-- The allocation mark: a number of term 0 in version 6, a block since. -/
def readAllocated : Reader String Block := do
  let term ← since 7 ver (readUInt64 "bad allocated term") 0
  let n ← since 6 ver (readUInt64 "bad allocated blocks") 0
  pure ⟨term, n⟩

/-- The fields since version 5. -/
def decodeTail (ix : Index) : Reader String Index := do
  let wanted ← decodeWants ver
  let lostParts ← readUInt64 "bad lost part count"
  let allocatedBlocks ← readAllocated ver
  let catalog ← since 8 ver (readCatalog "bad lineage catalog") []
  pure { ix with wanted, lostParts, allocatedBlocks, catalog }

/-- All fields behind the header. -/
def decodeBody : Reader String Index := do
  let entries ← decodeEntries ver
  let flushedEpoch ← since 2 ver (readUInt64 "bad flushed epoch") 0
  let generation ← since 3 ver
    (readGeneration "bad generation term" "bad generation counter") default
  let removed ← since 3 ver decodeRemovals []
  let epochs ← since 4 ver decodeWriterEpochs []
  let ix : Index := { entries, flushedEpoch, generation, removed, epochs }
  since 5 ver (decodeTail ver ix) ix

/-- Bytes behind the last field are not looked at. -/
def decode : Bytes → Except String Index
  | m0 :: m1 :: ver :: buf =>
      if m0 ≠ magic0 ∨ m1 ≠ magic1 then .error "bad magic"
      else if ver.val < 1 ∨ version < ver.val then
        .error ("unsupported version " ++ toString ver.val)
      else Prod.fst <$> (decodeBody ver.val).run buf
  | _ => .error "bad magic"

/-! ## What can be stored -/

/-- The block set is in canonical form, or the zero value. -/
def ValidOrZero : Prop := iv.valid = true ∨ iv = default

/-- The claim is valid, or the zero value. -/
def ClaimValidOrZero : Prop := c.valid = true ∨ c = default

/-- Every block set and claim of the index is valid or zero, and its catalog is strictly ascending
and holds valid claims only. -/
structure Canonical (ix : Index) : Prop where
  entryBlocks : ∀ e ∈ ix.entries, ValidOrZero e.blocks
  entryClaim : ∀ e ∈ ix.entries, ClaimValidOrZero e.claim
  wantBlocks : ∀ w ∈ ix.wanted, ValidOrZero w.blocks
  wantClaim : ∀ w ∈ ix.wanted, ClaimValidOrZero w.claim
  catalogClaim : ∀ c ∈ ix.catalog, c.valid = true
  ascending : Ascending ix.catalog

/-- The length fits the word it is written in, as that of every slice and string of the source
does. -/
def Fits {α : Type} (l : List α) : Prop := l.length < 2 ^ 64

/-- The lengths of a claim fit. -/
def ClaimFits : Prop := Fits c.blocks.gaps ∧ Fits c.group.gaps

/-- The lengths of an entry fit. -/
structure EntryFits (e : Entry) : Prop where
  pref : Fits e.pref
  blocks : Fits e.blocks.gaps
  claim : ClaimFits e.claim
  rollup : ∀ r ∈ e.rollup, Fits r.tiers

/-- The lengths of a want fit. -/
structure WantFits (w : Want) : Prop where
  pref : Fits w.pref
  blocks : Fits w.blocks.gaps
  claim : ClaimFits w.claim

/-- Every length the encoding writes fits its word. -/
structure IndexFits (ix : Index) : Prop where
  entries : Fits ix.entries
  entry : ∀ e ∈ ix.entries, EntryFits e
  removed : Fits ix.removed
  removal : ∀ r ∈ ix.removed, Fits r.pref
  epochs : Fits ix.epochs
  writer : ∀ w ∈ ix.epochs, Fits w.writer
  wanted : Fits ix.wanted
  want : ∀ w ∈ ix.wanted, WantFits w
  catalog : Fits ix.catalog
  claim : ∀ c ∈ ix.catalog, ClaimFits c

theorem fits_default : Fits (default : Interval).gaps := Nat.two_pow_pos 64

theorem claimFits_default : ClaimFits default := ⟨fits_default, fits_default⟩

/-! ## Reading what was written -/

section RoundTrip

variable {ε α : Type} {r : Reader ε α} {e : Entry} {gs : List Gap} {lo : Block}

theorem reads_since {v ver : ℕ} {bs : Bytes} {a d : α} (hv : v ≤ ver) (hr : Reads r bs a) :
    Reads (since v ver r d) bs a := by
  rw [since, if_pos hv]
  exact hr

theorem reads_block (b : Block) (e : ε) : Reads (readBlock e) (appendBlock b) b :=
  (Reads.uint64 b.term e).bind ((Reads.uint64 b.n e).last (Reads.pure b))

theorem reads_gap (g : Gap) (e : ε) : Reads (readGap version e) (appendGap g) g :=
  (reads_block g.min e).bind ((reads_block g.max e).last (.pure g))

theorem appendUInt64_ne_nil (n : UInt64) : appendUInt64 n ≠ [] := appendUvarint_ne_nil n.toNat

theorem reads_terms {min max : UInt64} (h : min ≤ max) (e : ε) :
    Reads (readTerms e) (appendUInt64 min ++ appendUInt64 (max - min)) (min, max) := by
  have hle : min.toNat ≤ max.toNat := UInt64.le_iff_toNat_le.mp h
  have hmin := min.toNat_lt
  have hmax := max.toNat_lt
  have hspan : max - min ≤ 18446744073709551615 - min := by
    rw [UInt64.le_iff_toNat_le, UInt64.toNat_sub, UInt64.toNat_sub]
    simp only [UInt64.reduceToNat]
    omega
  have hsum : min + (max - min) = max := by
    rw [UInt64.add_comm, UInt64.sub_add_cancel]
  refine (Reads.uint64 min e).bind ((Reads.uint64 (max - min) e).last ?_)
  have hend : Reads (pure (min, min + (max - min)) : Reader ε _) [] (min, max) := by
    rw [hsum]
    exact .pure _
  exact (Reads.require hspan e).skip hend

theorem validRun_start {hi : Block} (h : validRun lo hi = true) : 1 ≤ lo.n := by
  rw [validRun, Bool.and_eq_true, Bool.and_eq_true, decide_eq_true_iff] at h
  exact h.1.1

theorem validFrom_start {max : Block} (h : Interval.validFrom max lo gs = true) : 1 ≤ lo.n := by
  cases gs with
  | nil => exact validRun_start h
  | cons g gs =>
    rw [Interval.validFrom] at h
    split at h
    · cases h
    · split at h
      · cases h
      · next hrun => exact validRun_start (by simpa using hrun)

variable {iv}

/-- A canonical set starts at a block numbered above 0, and its bounds' terms ascend. -/
theorem bounds_of_valid (h : iv.valid = true) : iv.min.n ≠ 0 ∧ iv.min.term ≤ iv.max.term := by
  rw [Interval.valid] at h
  split at h
  · cases h
  next hless =>
  constructor
  · intro hzero
    have hone := UInt64.le_iff_toNat_le.mp (validFrom_start h)
    rw [hzero] at hone
    exact absurd hone (by decide)
  · have hkey := (Block.less_eq_false_iff _ _).mp (eq_false_of_ne_true hless)
    have hmin := iv.min.n.toNat_lt
    have hmax := iv.max.n.toNat_lt
    rw [Block.key_eq, Block.key_eq] at hkey
    rw [UInt64.le_iff_toNat_le]
    omega

theorem reads_gaps (h : Fits gs) (e : ε) :
    Reads (readList e e (readGap version e)) (appendList appendGap gs) gs := by
  refine Reads.list h (fun g _ hnil => ?_) (fun g _ => reads_gap g e) e e
  rw [appendGap, appendBlock, append_assoc, append_eq_nil_iff] at hnil
  exact appendUInt64_ne_nil _ hnil.1

theorem appendInterval_of_valid (h : iv.valid = true) :
    appendInterval iv = appendUInt64 iv.min.n ++ (appendUInt64 iv.min.term ++
      appendUInt64 (iv.max.term - iv.min.term) ++
      (appendUInt64 iv.max.n ++ appendList appendGap iv.gaps)) := by
  rw [appendInterval, h]
  simp only [Bool.not_true, Bool.false_eq_true, if_false, append_assoc]

/-- **A block set reads back** when it is canonical or unset. -/
theorem reads_interval (hiv : ValidOrZero iv) (hfits : Fits iv.gaps) (e : ε) :
    Reads (readInterval version e) (appendInterval iv) iv := by
  rcases hiv with hv | rfl
  · obtain ⟨hn, hterm⟩ := bounds_of_valid hv
    have hend : Reads (do require (iv.valid = true) e; pure iv) [] iv :=
      (Reads.require hv e).skip (.pure iv)
    rw [appendInterval_of_valid hv]
    refine (Reads.uint64 iv.min.n e).bind ?_
    rw [if_neg (by decide), if_neg hn]
    exact (reads_since (by decide) (reads_terms hterm e)).bind
      ((Reads.uint64 iv.max.n e).bind ((reads_gaps hfits e).last hend))
  · refine (Reads.uint64 0 e).last ?_
    exact Reads.pure default

theorem reads_claim {c : Claim} (hc : ClaimValidOrZero c) (hfits : ClaimFits c) (e : ε) :
    Reads (readClaim version e) (appendClaim c) c := by
  rcases hc with hv | rfl
  · have hparts := (Claim.valid_iff c).mp hv
    have hbytes : appendClaim c =
        appendUvarint 1 ++ (appendInterval c.blocks ++ appendInterval c.group) := by
      rw [appendClaim, hv]
      simp only [Bool.not_true, Bool.false_eq_true, if_false, append_assoc]
    have hend : Reads (do require (c.valid = true) e; pure c) [] c :=
      (Reads.require hv e).skip (.pure c)
    rw [hbytes]
    refine (Reads.uvarint (by decide) e).bind ((Reads.require (by decide) e).skip ?_)
    exact (reads_interval (Or.inl hparts.1) hfits.1 e).bind
      ((reads_interval (.inl hparts.2) hfits.2 e).last hend)
  · have hbytes : appendClaim default = appendUvarint 0 := by decide +kernel
    refine (Reads.uvarint (by decide) e).last ((Reads.require (by decide) e).skip ?_)
    exact Reads.pure default

theorem reads_level (n : UInt32) (e : ε) : Reads (readLevel e) (appendUvarint n.toNat) n := by
  have hlt := n.toNat_lt
  refine (Reads.uvarint (by omega) e).last ((Reads.require (by omega) e).skip ?_)
  rw [UInt32.ofNat_toNat]
  exact .pure n

theorem reads_tier (t : RollupTier) (e : ε) : Reads (readTier e) (appendTier t) t := by
  have hlt := t.agg.toNat_lt
  have hend : Reads (do require (t.agg.toNat ≤ 255) e
                        pure (⟨t.before, t.interval, UInt8.ofNat t.agg.toNat⟩ : RollupTier))
                          [] t := by
    rw [UInt8.ofNat_toNat]
    exact (Reads.require (by omega) e).skip (.pure t)
  rw [appendTier, append_assoc]
  exact (Reads.varint t.before e).bind
    ((Reads.varint t.interval e).bind ((Reads.uvarint (by omega) e).last hend))

theorem reads_rollup {r : Rollup} (h : Fits r.tiers) (e : ε) :
    Reads (readRollup e) (appendRollup (some r)) r := by
  refine (Reads.list h (fun t _ hnil => ?_) (fun t _ => reads_tier t e) e e).last (.pure r)
  rw [appendTier, append_assoc, append_eq_nil_iff] at hnil
  exact appendUvarint_ne_nil _ hnil.1

theorem reads_generation (g : Generation) (badTerm badCounter : ε) :
    Reads (readGeneration badTerm badCounter) (appendGeneration g) g :=
  (Reads.uint64 g.term badTerm).bind ((Reads.uint64 g.counter badCounter).last (Reads.pure g))

/-- The flag word says whether the entry is a hole and whether a layout follows, and nothing
else. -/
theorem entryFlags_spec (e : Entry) :
    entryFlags e &&& ~~~knownFlags version = 0 ∧
      (entryFlags e &&& entryFlagHole ≠ 0 ↔ e.hole = true) ∧
      (entryFlags e &&& entryFlagRollup ≠ 0 ↔ e.rollup.isSome = true) := by
  rw [entryFlags]
  cases e.hole with
  | false | true =>
    cases e.rollup.isSome with
    | false | true => decide

theorem reads_blockIdentity (hblocks : ValidOrZero e.blocks)
    (hclaim : ClaimValidOrZero e.claim) (hfits : EntryFits e) (bad : ε) :
    Reads (decodeBlockIdentity version
        { pref := e.pref, minTime := e.minTime, maxTime := e.maxTime } bad)
      (appendInterval e.blocks ++ (appendUvarint e.level.toNat ++ (appendUInt64 (entryFlags e) ++
        (appendClaim e.claim ++ (appendUInt64 e.term ++ appendRollup e.rollup))))) e := by
  obtain ⟨hknown, hhole, hrollup⟩ := entryFlags_spec e
  have hlayout : Reads (readLayout (entryFlags e) bad) (appendRollup e.rollup) e.rollup := by
    cases hr : e.rollup with
    | none =>
      have hclear : ¬ entryFlags e &&& entryFlagRollup ≠ 0 := by
        rw [hrollup, hr]
        exact Bool.false_ne_true
      rw [readLayout, if_neg hclear]
      exact .pure none
    | some r =>
      rw [readLayout, if_pos (hrollup.mpr (by rw [hr]; rfl))]
      exact (reads_rollup (hfits.rollup r hr) bad).map some
  have hend : Reads (pure (⟨e.pref, e.minTime, e.maxTime, e.blocks, e.level, e.claim, e.term,
      e.rollup, decide (entryFlags e &&& entryFlagHole ≠ 0)⟩ : Entry) : Reader ε Entry) [] e := by
    have hflag : decide (entryFlags e &&& entryFlagHole ≠ 0) = e.hole := by
      rw [Bool.eq_iff_iff, decide_eq_true_iff, hhole]
    rw [hflag]
    exact .pure e
  exact (reads_interval hblocks hfits.blocks bad).bind <|
    (reads_level e.level bad).bind <| (Reads.uint64 (entryFlags e) bad).bind <|
    (Reads.require hknown bad).skip <|
    (reads_since (by decide) (reads_claim hclaim hfits.claim bad)).bind <|
    (reads_since (by decide) (.uint64 e.term bad)).bind <| hlayout.last hend

end RoundTrip

theorem reads_entry {e : Entry} (hblocks : ValidOrZero e.blocks) (hclaim : ClaimValidOrZero e.claim)
    (hfits : EntryFits e) : Reads (readEntry version) (appendEntry e) e := by
  simp only [appendEntry, append_assoc]
  exact (Reads.blob hfits.pref _).bind <| (Reads.varint e.minTime _).bind <|
    (Reads.varint e.maxTime _).bind <|
    reads_since (by decide) (reads_blockIdentity hblocks hclaim hfits _)

theorem reads_removal {r : Removal} (h : Fits r.pref) : Reads readRemoval (appendRemoval r) r :=
  (Reads.blob h _).bind ((reads_generation r.generation _ _).last (.pure r))

theorem reads_writerEpoch {w : WriterEpoch} (h : Fits w.writer) :
    Reads readWriterEpoch (appendWriterEpoch w) w := by
  rw [appendWriterEpoch, append_assoc]
  exact (Reads.blob h _).bind <| (Reads.uint64 w.epoch _).bind <|
    (reads_generation w.generation _ _).last (.pure w)

theorem reads_want {w : Want} (hblocks : ValidOrZero w.blocks) (hclaim : ClaimValidOrZero w.claim)
    (hfits : WantFits w) : Reads (readWant version) (appendWant w) w := by
  simp only [appendWant, append_assoc]
  exact (Reads.blob hfits.pref _).bind <| (reads_interval hblocks hfits.blocks _).bind <|
    (reads_level w.level _).bind <| (Reads.varint w.minTime _).bind <|
    (Reads.varint w.maxTime _).bind <| (reads_generation w.generation _ _).bind <|
    (reads_since (by decide) (reads_claim hclaim hfits.claim _)).bind <|
    (reads_since (by decide) (.uint64 w.term _)).last (.pure w)

theorem appendInterval_ne_nil : appendInterval iv ≠ [] := by
  by_cases hv : iv.valid = true
  · rw [appendInterval_of_valid hv, Ne, append_eq_nil_iff]
    exact fun h => appendUInt64_ne_nil _ h.1
  · rw [appendInterval, eq_false_of_ne_true hv]
    exact appendUvarint_ne_nil 0

theorem reads_catalogClaim {c : Claim} (hc : c.valid = true) (hfits : ClaimFits c) (e : String) :
    Reads (readCatalogClaim e) (appendCatalogClaim c) c := by
  have hparts := (Claim.valid_iff c).mp hc
  have hend : Reads (do require (c.valid = true) e; pure c) [] c :=
    (Reads.require hc e).skip (.pure c)
  exact (reads_interval (.inl hparts.1) hfits.1 e).bind
    ((reads_interval (.inl hparts.2) hfits.2 e).last hend)

theorem reads_records {α : Type} {r : Reader String α} {write : α → Bytes} {name : α → Bytes}
    {l : List α} (hlen : Fits l) (hname : ∀ a, ∃ bs, write a = appendBlob (name a) ++ bs)
    (h : ∀ a ∈ l, Reads r (write a) a) (bad exceeds : String) :
    Reads (readList bad exceeds r) (appendList write l) l := by
  refine Reads.list hlen (fun a _ hnil => ?_) h bad exceeds
  obtain ⟨bs, hbs⟩ := hname a
  rw [hbs, append_eq_nil_iff] at hnil
  exact appendBlob_ne_nil _ hnil.1

section

variable (hfits : IndexFits ix)

include hfits

theorem reads_entries (hcanon : Canonical ix) :
    Reads (decodeEntries version) (appendList appendEntry ix.entries) ix.entries :=
  reads_records hfits.entries
    (fun e => ⟨_, by simp only [appendEntry, append_assoc]; rfl⟩)
    (fun e he => reads_entry (hcanon.entryBlocks e he) (hcanon.entryClaim e he) (hfits.entry e he))
    _ _

theorem reads_removals : Reads decodeRemovals (appendList appendRemoval ix.removed) ix.removed :=
  reads_records hfits.removed (fun _ => ⟨_, rfl⟩)
    (fun r hr => reads_removal (hfits.removal r hr)) _ _

theorem reads_writerEpochs :
    Reads decodeWriterEpochs (appendList appendWriterEpoch ix.epochs) ix.epochs :=
  reads_records hfits.epochs (fun _ => ⟨_, append_assoc _ _ _⟩)
    (fun w hw => reads_writerEpoch (hfits.writer w hw)) _ _

theorem reads_wants (hcanon : Canonical ix) :
    Reads (decodeWants version) (appendList appendWant ix.wanted) ix.wanted :=
  reads_records hfits.wanted
    (fun w => ⟨_, by simp only [appendWant, append_assoc]; rfl⟩)
    (fun w hw => reads_want (hcanon.wantBlocks w hw) (hcanon.wantClaim w hw) (hfits.want w hw)) _ _

theorem reads_catalog (hcanon : Canonical ix) (e : String) :
    Reads (readCatalog e) (appendList appendCatalogClaim ix.catalog) ix.catalog := by
  have hend : Reads (do require (Ascending ix.catalog) e; pure ix.catalog) [] ix.catalog :=
    (Reads.require hcanon.ascending e).skip (.pure ix.catalog)
  refine (Reads.list hfits.catalog (fun c _ hnil => ?_) (fun c hc => ?_) e e).last hend
  · rw [appendCatalogClaim, append_eq_nil_iff] at hnil
    exact appendInterval_ne_nil _ hnil.1
  · exact reads_catalogClaim (hcanon.catalogClaim c hc) (hfits.claim c hc) e

theorem reads_body (hcanon : Canonical ix) :
    Reads (decodeBody version) (appendList appendEntry ix.entries ++
      appendUInt64 ix.flushedEpoch ++ appendGeneration ix.generation ++
      appendList appendRemoval ix.removed ++ appendList appendWriterEpoch ix.epochs ++
      appendList appendWant ix.wanted ++ appendUInt64 ix.lostParts ++
      appendBlock ix.allocatedBlocks ++ appendList appendCatalogClaim ix.catalog) ix := by
  have hallocated : Reads (readAllocated version) (appendBlock ix.allocatedBlocks)
      ix.allocatedBlocks :=
    (reads_since (by decide) (.uint64 ix.allocatedBlocks.term _)).bind
      ((reads_since (by decide) (.uint64 ix.allocatedBlocks.n _)).last (.pure _))
  simp only [append_assoc]
  exact (reads_entries hfits hcanon).bind <|
    (reads_since (by decide) (.uint64 ix.flushedEpoch _)).bind <|
    (reads_since (by decide) (reads_generation ix.generation _ _)).bind <|
    (reads_since (by decide) (reads_removals hfits)).bind <|
    (reads_since (by decide) (reads_writerEpochs hfits)).bind <|
    reads_since (by decide) <| (reads_wants hfits hcanon).bind <|
    (Reads.uint64 ix.lostParts _).bind <| hallocated.bind <|
    (reads_since (by decide) (reads_catalog hfits hcanon _)).last (.pure ix)

/-- **What is written reads back.** -/
theorem decode_appendBinary (hcanon : Canonical ix) : decode (appendBinary ix) = .ok ix := by
  have hbody := reads_body hfits hcanon []
  rw [append_nil] at hbody
  have hver : (Fin.ofNat 256 version).val = version := rfl
  rw [appendBinary, cons_append, cons_append, cons_append, nil_append, decode,
    if_neg (by decide), if_neg (by decide), hver, hbody]
  rfl

end

/-! ## What is read is canonical -/

section Accepted

variable {ε α : Type}

theorem yields_since {r : Reader ε α} {v ver : ℕ} {P : α → Prop} {d : α} (hr : Yields r P)
    (hd : P d) : Yields (since v ver r d) P :=
  Yields.ite (fun _ => hr) fun _ => .pure hd

theorem yields_interval (e : ε) :
    Yields (readInterval ver e) fun iv => ValidOrZero iv ∧ Fits iv.gaps := by
  refine .any fun minN => Yields.ite (fun _ => .any fun maxN => .pure ?_) fun _ =>
    Yields.ite (fun _ => .pure ⟨.inr rfl, fits_default⟩) fun _ => .any fun terms =>
      .any fun maxN => ?_
  · split
    · next hv => exact ⟨.inl hv, fits_default⟩
    · exact ⟨.inr rfl, fits_default⟩
  · have hgaps : Yields (readList e e (readGap ver e)) Fits := fun bs gs rest h =>
      (Yields.list (P := fun _ => True) (fun _ _ _ _ => trivial) e e h).1
    exact hgaps.bind fun gs hgs => (Yields.require _ e).bind fun _ hv => .pure ⟨.inl hv, hgs⟩

theorem yields_claim (e : ε) :
    Yields (readClaim ver e) fun c => ClaimValidOrZero c ∧ ClaimFits c := by
  refine .any fun present => .any fun _ => Yields.ite
    (fun _ => .pure ⟨.inr rfl, claimFits_default⟩) fun _ => ?_
  exact (yields_interval ver e).bind fun blocks hblocks => (yields_interval ver e).bind
    fun group hgroup => (Yields.require _ e).bind fun _ hv =>
      .pure ⟨.inl hv, hblocks.2, hgroup.2⟩

theorem yields_layout (flags : UInt64) (e : ε) :
    Yields (readLayout flags e) fun o => ∀ r ∈ o, Fits r.tiers := by
  have hrollup : Yields (readRollup e) fun r => Fits r.tiers :=
    Yields.bind (Yields.list (P := fun _ => True) (fun _ _ _ _ => trivial) e e) fun _ h =>
      .pure h.1
  refine Yields.ite (fun _ => Yields.map some fun bs r rest h => ?_) fun _ => .pure nofun
  intro r' hr'
  cases hr'
  exact hrollup h

/-- What is known of an entry that was read. -/
def EntryStored (e : Entry) : Prop :=
  ValidOrZero e.blocks ∧ ClaimValidOrZero e.claim ∧ EntryFits e

theorem yields_blockIdentity {e : Entry} (hpref : Fits e.pref) (bad : ε) :
    Yields (decodeBlockIdentity ver e bad) EntryStored := by
  refine (yields_interval ver bad).bind fun blocks hblocks => .any fun level =>
    .any fun flags => .any fun _ => ?_
  refine (yields_since (yields_claim ver bad) ⟨.inr rfl, claimFits_default⟩).bind
    fun claim hclaim =>
    .any fun term => (yields_layout flags bad).bind fun rollup hrollup => .pure ?_
  exact ⟨hblocks.1, hclaim.1, hpref, hblocks.2, hclaim.2, hrollup⟩

end Accepted

theorem yields_entry : Yields (readEntry ver) EntryStored := by
  refine (Yields.blob _).bind fun pref hpref => .any fun minTime => .any fun maxTime =>
    yields_since (yields_blockIdentity ver (e := { pref, minTime, maxTime }) hpref _) ?_
  exact ⟨.inr rfl, .inr rfl, hpref, fits_default, claimFits_default, nofun⟩

theorem yields_removals : Yields decodeRemovals fun l => Fits l ∧ ∀ r ∈ l, Fits r.pref :=
  Yields.list ((Yields.blob _).bind fun _ hpref => .any fun _ => .pure hpref) _ _

theorem yields_writerEpochs : Yields decodeWriterEpochs fun l => Fits l ∧ ∀ w ∈ l, Fits w.writer :=
  Yields.list ((Yields.blob _).bind fun _ hwriter => .any fun _ => .any fun _ =>
    .pure hwriter) _ _

/-- What is known of a want that was read. -/
def WantStored (w : Want) : Prop := ValidOrZero w.blocks ∧ ClaimValidOrZero w.claim ∧ WantFits w

theorem yields_want : Yields (readWant ver) WantStored := by
  refine (Yields.blob _).bind fun pref hpref => (yields_interval ver _).bind fun blocks hblocks =>
    .any fun level => .any fun minTime => .any fun maxTime =>
    .any fun generation => ?_
  refine (yields_since (yields_claim ver _) ⟨.inr rfl, claimFits_default⟩).bind fun claim hclaim =>
    .any fun term => .pure ?_
  exact ⟨hblocks.1, hclaim.1, hpref, hblocks.2, hclaim.2⟩

/-- What is known of a catalog that was read. -/
def CatalogStored : Prop :=
  Fits cs ∧ (∀ c ∈ cs, c.valid = true ∧ ClaimFits c) ∧ Ascending cs

theorem yields_catalog (e : String) : Yields (readCatalog e) CatalogStored := by
  have hclaim : Yields (readCatalogClaim e) fun c => c.valid = true ∧ ClaimFits c :=
    (yields_interval version e).bind fun blocks hblocks => (yields_interval version e).bind
      fun group hgroup => (Yields.require _ e).bind fun _ hv =>
        .pure ⟨hv, hblocks.2, hgroup.2⟩
  exact (Yields.list hclaim e e).bind fun cs hcs => (Yields.require _ e).bind fun _ hasc =>
    .pure ⟨hcs.1, hcs.2, hasc⟩

theorem fits_nil {α : Type} : Fits ([] : List α) := Nat.two_pow_pos 64

/-- **Everything accepted is canonical**, and its lengths fit. -/
theorem yields_body : Yields (decodeBody ver) fun ix => Canonical ix ∧ IndexFits ix := by
  refine Yields.bind (Yields.list (yields_entry ver) _ _) fun entries hentries =>
    .any fun flushedEpoch => .any fun generation => ?_
  refine Yields.bind (yields_since yields_removals ⟨fits_nil, nofun⟩) fun removed hremoved => ?_
  refine Yields.bind (yields_since yields_writerEpochs ⟨fits_nil, nofun⟩) fun epochs hepochs => ?_
  -- The tail adds the wants and the catalog; without it both are empty.
  have hindex : ∀ wanted lostParts allocated catalog,
      (Fits wanted ∧ ∀ w ∈ wanted, WantStored w) → CatalogStored catalog →
      Canonical ⟨entries, flushedEpoch, generation, removed, epochs, wanted, lostParts, allocated,
        catalog⟩ ∧
      IndexFits ⟨entries, flushedEpoch, generation, removed, epochs, wanted, lostParts, allocated,
        catalog⟩ := by
    intro wanted lostParts allocated catalog hwanted hcatalog
    exact ⟨⟨fun e he => (hentries.2 e he).1, fun e he => (hentries.2 e he).2.1,
        fun w hw => (hwanted.2 w hw).1, fun w hw => (hwanted.2 w hw).2.1,
        fun c hc => (hcatalog.2.1 c hc).1, hcatalog.2.2⟩,
      ⟨hentries.1, fun e he => (hentries.2 e he).2.2, hremoved.1, hremoved.2, hepochs.1, hepochs.2,
        hwanted.1, fun w hw => (hwanted.2 w hw).2.2, hcatalog.1, fun c hc => (hcatalog.2.1 c hc).2⟩⟩
  have hnone : CatalogStored [] := ⟨fits_nil, nofun, isChain_nil⟩
  refine yields_since ?_ (hindex [] 0 ⟨0, 0⟩ [] ⟨fits_nil, nofun⟩ hnone)
  refine Yields.bind (Yields.list (yields_want ver) _ _) fun wanted hwanted => .any
    fun lostParts => .any fun allocated => ?_
  exact Yields.bind (yields_since (yields_catalog _) hnone) fun catalog hcatalog =>
    .pure (hindex wanted lostParts allocated catalog hwanted hcatalog)

theorem canonical_of_decode {data : Bytes} (h : decode data = .ok ix) :
    Canonical ix ∧ IndexFits ix := by
  match data with
  | [] | [_] | [_, _] => cases h
  | m0 :: m1 :: ver :: buf =>
    rw [decode] at h
    split at h
    · cases h
    split at h
    · cases h
    cases hrun : (decodeBody ver.val).run buf with
    | error e =>
      rw [hrun] at h
      cases h
    | ok p =>
      rw [hrun] at h
      cases h
      exact yields_body ver.val hrun

/-- **The format.**  Every index whose block sets and claims are valid or zero, with a strictly
ascending catalog of valid claims, reads back from what is written of it; and what is read from an
object of any version is such an index, so loading and saving it changes nothing. -/
theorem format_round_trip :
    (∀ ix : Index, IndexFits ix → Canonical ix → decode (appendBinary ix) = .ok ix) ∧
    ∀ (data : Bytes) (ix : Index), decode data = .ok ix →
      (∀ e ∈ ix.entries, ValidOrZero e.blocks ∧ ClaimValidOrZero e.claim) ∧
      (∀ w ∈ ix.wanted, ValidOrZero w.blocks ∧ ClaimValidOrZero w.claim) ∧
      (∀ c ∈ ix.catalog, c.valid = true) ∧
      decode (appendBinary ix) = .ok ix := by
  refine ⟨fun ix hfits hcanon => decode_appendBinary hfits hcanon, fun data ix h => ?_⟩
  obtain ⟨hcanon, hfits⟩ := canonical_of_decode h
  exact ⟨fun e he => ⟨hcanon.entryBlocks e he, hcanon.entryClaim e he⟩,
    fun w hw => ⟨hcanon.wantBlocks w hw, hcanon.wantClaim w hw⟩, hcanon.catalogClaim,
    decode_appendBinary hfits hcanon⟩

/-- A version 5 object: one part between the times -1 and 1, whose hull runs from block 1 to 3. -/
def legacy : Bytes :=
  [66, 73, 5, 1, 1, 112, 1, 2, 1, 3, 0, 0, 0, 0, 0, 0, 0, 0, 0]

/-- The index it stands for. -/
def legacyIndex : Index :=
  { entries := [{ pref := [112], minTime := -1, maxTime := 1, blocks := ⟨⟨0, 1⟩, ⟨0, 3⟩, []⟩ }] }

theorem format_round_trip_legacy :
    decode legacy = .ok legacyIndex ∧ (IndexFits legacyIndex ∧ Canonical legacyIndex) ∧
      decode (appendBinary legacyIndex) = .ok legacyIndex ∧
      ∀ e ∈ legacyIndex.entries, ValidOrZero e.blocks ∧ ClaimValidOrZero e.claim := by
  have hread : decode legacy = .ok legacyIndex := by decide +kernel
  obtain ⟨hcanon, hfits⟩ := canonical_of_decode hread
  exact ⟨hread, ⟨hfits, hcanon⟩, format_round_trip.1 legacyIndex hfits hcanon,
    (format_round_trip.2 legacy legacyIndex hread).1⟩

/-- An index with nothing in it but the zero claim in its catalog. -/
def zeroClaimIndex : Index := { catalog := [default] }

/-- The zero claim alone is in order, and the decoder refuses it. -/
theorem not_round_trip_zero_claim :
    IndexFits zeroClaimIndex ∧
      (∀ e ∈ zeroClaimIndex.entries, ValidOrZero e.blocks ∧ ClaimValidOrZero e.claim) ∧
      (∀ w ∈ zeroClaimIndex.wanted, ValidOrZero w.blocks ∧ ClaimValidOrZero w.claim) ∧
      (∀ c ∈ zeroClaimIndex.catalog, ClaimValidOrZero c) ∧ Ascending zeroClaimIndex.catalog ∧
      decode (appendBinary zeroClaimIndex) = .error "bad lineage catalog" := by
  refine ⟨?_, nofun, nofun, fun c hc => .inr (mem_singleton.mp hc), isChain_singleton _,
    by decide +kernel⟩
  refine ⟨fits_nil, nofun, fits_nil, nofun, fits_nil, nofun, fits_nil, nofun, ?_, fun c hc => ?_⟩
  · exact Nat.one_lt_two_pow (by decide)
  · cases mem_singleton.mp hc
    exact claimFits_default

end Format
end OtelStorage.BucketIndex
