import Mathlib.Data.List.Chain
import OtelStorage.Wal.TornInvariant

/-!
# Runs of the writer over a failing file system

`Safe` carries the invariant of the directory through a run, together with what it gives at each
point of the trail.  Every operation but a successful write and a removal `Keeps` the writer: it
stays safe, and no record is added or discarded.

The one place where the order matters is `prepare`: healing comes before a segment is opened, so at
every write the directory holds whole frames only (`spec_prepare`).
-/

namespace OtelStorage.Wal
namespace Torn

open Delimited Fibers List

/-- From `d` to `d'`, the next point of a trail: records and removals are added to those there were,
and nothing is written behind a partial frame. -/
def Disk.Next (d' d : Disk) : Prop :=
  d.log <+: d'.log ∧ d.discarded <+: d'.discarded ∧ (d.bytes ≠ d.written → Disk.OnlyCut d' d)

namespace Writer

/-- The directory is sound, now and at every point of the trail. -/
structure Safe (w : Writer) : Prop where
  holds : Holds w.seq w.file w.size w.torn w.disk
  head : w.trail.head? = some w.disk
  sound : ∀ d ∈ w.trail, d.Sound
  chain : w.trail.IsChain Disk.Next

/-- From `w` to `w'` the writer stayed safe, and no record was added or discarded. -/
structure Keeps (w w' : Writer) : Prop where
  safe : w'.Safe
  log : w'.disk.log = w.disk.log
  discarded : w'.disk.discarded = w.disk.discarded

variable {w w' w'' : Writer} {obsolete : ℕ}

theorem Safe.keeps (h : w.Safe) : w.Keeps w := ⟨h, rfl, rfl⟩

theorem Keeps.trans (h : w.Keeps w') (h' : w'.Keeps w'') : w.Keeps w'' :=
  ⟨h'.safe, h'.log.trans h.log, h'.discarded.trans h.discarded⟩

theorem Safe.same (h : w.Safe) (hdisk : w'.disk = w.disk) (htrail : w'.trail = w.trail)
    (hholds : Holds w'.seq w'.file w'.size w'.torn w.disk) : w.Keeps w' where
  safe := ⟨hdisk ▸ hholds, by rw [htrail, hdisk, h.head], htrail ▸ h.sound, htrail ▸ h.chain⟩
  log := by rw [hdisk]
  discarded := by rw [hdisk]

theorem Safe.changed (h : w.Safe) {d : Disk} (hdisk : w'.disk = d)
    (htrail : w'.trail = d :: w.trail) (hholds : Holds w'.seq w'.file w'.size w'.torn d)
    (hnext : Disk.Next d w.disk) : w'.Safe where
  holds := hdisk ▸ hholds
  head := by rw [htrail, hdisk, List.head?_cons]
  sound := by
    rw [htrail]
    exact forall_mem_cons.mpr ⟨hholds.sound, h.sound⟩
  chain := by
    rw [htrail, isChain_cons]
    refine ⟨fun d' hd' => ?_, h.chain⟩
    rw [h.head] at hd'
    cases hd'
    exact hnext

theorem Safe.of_torn (h : w.Safe) {torn : Option (Name × ℕ)} (htorn : w.torn = torn) :
    Holds w.seq w.file w.size torn w.disk := htorn ▸ h.holds

/-! ## Healing -/

theorem content_of_mem {seq : ℕ} {d : Disk} (h : Layout seq d) {f : File} (hf : f ∈ d.files) :
    d.content f.name = some f.content := by
  cases hfind : d.files.find? fun g => g.name = f.name with
  | none => exact absurd (List.find?_eq_none.mp hfind f hf) (by simp)
  | some g =>
    have hname : g.name = f.name := by simpa using List.find?_some hfind
    have heq : g = f := h.ascending.inj (mem_of_find?_eq_some hfind) hf (by rw [hname])
    rw [Disk.content, hfind, heq, Option.map_some]

/-- Healing ends well when the torn segment holds whole frames only, or is gone. -/
theorem spec_healed (h : w.Safe) {name : Name} {good : ℕ} (htorn : w.torn = some (name, good))
    (hwhole : ∀ f ∈ w.disk.files, f.name = name → f.content.length ≤ good) (x : HealFault) :
    w.Keeps (healed x w).2 ∧ ((healed x w).1 = true → (healed x w).2.torn = none) := by
  rw [healed]
  split
  · exact ⟨h.keeps, nofun⟩
  · exact ⟨h.same rfl rfl ((h.of_torn htorn).forgetTear hwhole), fun _ => rfl⟩

/-- **Healing keeps the writer**, and a writer it succeeds for has no torn segment. -/
theorem spec_heal (h : w.Safe) (x : HealFault) :
    w.Keeps (w.heal x).2 ∧ ((w.heal x).1 = true → (w.heal x).2.torn = none) := by
  rw [heal]
  split
  case h_1 htorn => exact ⟨h.keeps, fun _ => htorn⟩
  case h_2 name good htorn =>
    have hlayout := h.holds.toLayout
    split
    · exact ⟨h.keeps, nofun⟩
    split
    case h_1 hgone =>
      -- a checkpoint removed it
      refine spec_healed h htorn (fun f hf hname => ?_) x
      rw [← hname, content_of_mem hlayout hf] at hgone
      cases hgone
    case h_2 data hdata =>
      split
      · split
        · exact ⟨h.keeps, nofun⟩
        split
        · exact ⟨h.same rfl rfl h.holds.release, nofun⟩
        -- cut back to its whole frames, then synced
        have hcut : Safe ({ w with file := none }.touch (w.disk.update name (List.take good))) := by
          refine h.changed rfl rfl ?_
            ⟨prefix_refl _, prefix_refl _, fun _ => w.disk.onlyCut_restore name good⟩
          exact htorn ▸ (h.of_torn htorn).restore
        obtain ⟨hkeeps, hok⟩ := spec_healed hcut htorn (fun f' hf' hname => by
          rcases Disk.of_mem_update hf' with ⟨-, hne⟩ | ⟨f, -, -, rfl⟩
          · exact absurd hname hne
          · exact length_take_le _ _) x
        exact ⟨{ hkeeps with }, hok⟩
      · -- the failed write left no byte
        rename_i hlong
        refine spec_healed h htorn (fun f hf hname => ?_) x
        rw [← hname, content_of_mem hlayout hf] at hdata
        cases hdata
        exact Nat.not_lt.mp hlong

/-! ## Preparing a write -/

theorem spec_closeSegment (h : w.Safe) (fail : Bool) :
    w.Keeps (w.closeSegment fail).2 ∧ (w.closeSegment fail).2.file = none ∧
      (w.closeSegment fail).2.torn = w.torn ∧ (w.closeSegment fail).2.seq = w.seq := by
  rw [closeSegment]
  split
  case h_1 hfile => exact ⟨h.keeps, hfile, rfl, rfl⟩
  case h_2 => exact ⟨h.same rfl rfl h.holds.release, rfl, rfl, rfl⟩

/-- Ready to write: a segment is open and none is torn. -/
def Ready (w : Writer) : Prop := w.torn = none ∧ ∃ n, w.file = some n

theorem spec_openNext (h : w.Safe) (htorn : w.torn = none) (hfile : w.file = none)
    (x : PrepareFault) :
    w.Keeps (w.openNext x).2 ∧ ((w.openNext x).1 = true → (w.openNext x).2.Ready) := by
  have hholds : Holds w.seq none w.size none w.disk := hfile ▸ h.of_torn htorn
  rw [openNext]
  dsimp only
  split
  · refine ⟨h.same rfl rfl ?_, nofun⟩
    dsimp only
    rw [hfile, htorn]
    exact hholds.nextSeq
  have hnext : Disk.Next (w.disk.add ⟨w.seq + 1, w.epoch⟩) w.disk :=
    ⟨prefix_refl _, prefix_refl _, fun hne => absurd hholds.whole hne⟩
  have hadd := hholds.add w.epoch
  split
  · refine ⟨⟨h.changed rfl rfl ?_ hnext, rfl, rfl⟩, nofun⟩
    dsimp only [touch]
    rw [hfile, htorn]
    exact ⟨hadd.toLayout, hadd.content, nofun, nofun, nofun⟩
  · refine ⟨⟨h.changed rfl rfl ?_ hnext, rfl, rfl⟩, fun _ => ⟨htorn, _, rfl⟩⟩
    dsimp only [touch]
    rw [htorn]
    exact hadd

theorem spec_rotate (h : w.Safe) (htorn : w.torn = none) (x : PrepareFault) :
    w.Keeps (w.rotate x).2 ∧ ((w.rotate x).1 = true → (w.rotate x).2.Ready) := by
  obtain ⟨hkeeps, hfile, hsame, -⟩ := spec_closeSegment h x.close
  rw [rotate]
  split
  case h_1 w' heq =>
    rw [heq] at hkeeps
    exact ⟨hkeeps.trans (hkeeps.safe.same rfl rfl hkeeps.safe.holds), nofun⟩
  case h_2 w' heq =>
    rw [heq] at hkeeps hfile hsame
    obtain ⟨hnext, hok⟩ := spec_openNext hkeeps.safe (hsame.trans htorn) hfile x
    exact ⟨hkeeps.trans hnext, hok⟩

theorem spec_prepare (h : w.Safe) (x : PrepareFault) :
    w.Keeps (w.prepare x).2 ∧ ((w.prepare x).1 = true → (w.prepare x).2.Ready) := by
  obtain ⟨hkeeps, hhealed⟩ := spec_heal h x.heal
  rw [prepare]
  split
  case h_1 w' heq =>
    rw [heq] at hkeeps
    exact ⟨hkeeps, nofun⟩
  case h_2 w' heq =>
    rw [heq] at hkeeps hhealed
    have htorn := hhealed rfl
    split
    · rename_i hfile
      obtain ⟨hnext, hok⟩ := spec_openNext hkeeps.safe htorn hfile x
      exact ⟨hkeeps.trans hnext, hok⟩
    split
    · obtain ⟨hnext, hok⟩ := spec_rotate hkeeps.safe htorn x
      exact ⟨hkeeps.trans hnext, hok⟩
    · rename_i hfile _
      exact ⟨hkeeps, fun _ => ⟨htorn, Option.ne_none_iff_exists'.mp hfile⟩⟩

/-! ## Writes -/

/-- From `w` to `w'` the record with the bytes `p` was added. -/
structure Adds (p : Bytes) (w w' : Writer) : Prop where
  safe : w'.Safe
  log : w'.disk.log.map Prod.snd = w.disk.log.map Prod.snd ++ [p]
  discarded : w'.disk.discarded = w.disk.discarded

theorem Keeps.adds {p : Bytes} (h : w.Keeps w') (h' : Adds p w' w'') : Adds p w w'' :=
  ⟨h'.safe, h.log ▸ h'.log, h'.discarded.trans h.discarded⟩

theorem adds_landWhole (h : w.Safe) (htorn : w.torn = none) {n : Name} (hfile : w.file = some n)
    (p : Bytes) : Adds p w (w.landWhole n p) := by
  have hholds : Holds w.seq (some n) w.size none w.disk := hfile ▸ h.of_torn htorn
  have hnext : Disk.Next
      { w.disk.update n (· ++ p) with log := w.disk.log ++ [(n.seq, p)] } w.disk :=
    ⟨prefix_append _ _, prefix_refl _, fun hne => absurd (h.of_torn htorn).whole hne⟩
  refine ⟨h.changed rfl rfl ?_ hnext, map_append, rfl⟩
  dsimp only [landWhole, touch]
  rw [hfile, htorn]
  exact hholds.landWhole p

theorem keeps_landPart (h : w.Safe) (htorn : w.torn = none) {n : Name} (hfile : w.file = some n)
    (k : ℕ) (p : Bytes) : w.Keeps (w.landPart n k p) := by
  have hholds : Holds w.seq (some n) w.size none w.disk := hfile ▸ h.of_torn htorn
  have hnext : Disk.Next
      { w.disk.update n (· ++ p.take k) with failed := w.disk.failed ++ [p] } w.disk :=
    ⟨prefix_refl _, prefix_refl _, fun hne => absurd (h.of_torn htorn).whole hne⟩
  refine ⟨h.changed rfl rfl ?_ hnext, rfl, rfl⟩
  dsimp only [landPart, touch]
  rw [hfile]
  exact hholds.landPart k p

/-- **A write that succeeds adds its record, one that fails adds none.** -/
theorem spec_write (h : w.Safe) (x : WriteFault) (p : Bytes) :
    ((w.write x p).1 = true → Adds p w (w.write x p).2) ∧
      ((w.write x p).1 = false → w.Keeps (w.write x p).2) := by
  obtain ⟨hkeeps, hready⟩ := spec_prepare h x.prepareAgain
  rw [write]
  split
  case h_1 w' heq =>
    rw [heq] at hkeeps
    exact ⟨nofun, fun _ => hkeeps⟩
  case h_2 w' heq =>
    rw [heq] at hkeeps hready
    obtain ⟨htorn, n, hfile⟩ := hready rfl
    rw [hfile]
    dsimp only
    split
    · exact ⟨fun _ => hkeeps.adds (adds_landWhole hkeeps.safe htorn hfile p), nofun⟩
    · rename_i k _
      have hpart := keeps_landPart hkeeps.safe htorn hfile k p
      exact ⟨nofun, fun _ => hkeeps.trans (hpart.trans (spec_heal hpart.safe x.heal).1)⟩

/-- Whether the frame of a record is written, whatever the sync after it says. -/
def lands (x : WriteFault) (p : Bytes) (w : Writer) : Bool :=
  (w.writeRecord { x with sync := false } p).1

/-- A record acknowledged to the caller has landed. -/
theorem lands_of_writeRecord {x : WriteFault} {p : Bytes} (h : (w.writeRecord x p).1 = true) :
    lands x p w = true := by
  have hwrite (w' : Writer) : w'.write { x with sync := false } p = w'.write x p := rfl
  rw [lands, writeRecord]
  rw [writeRecord] at h
  dsimp only at h ⊢
  split at h
  · cases h
  · rw [hwrite]
    split at h
    · cases h
    · simp

theorem spec_writeRecord (h : w.Safe) (x : WriteFault) (p : Bytes) :
    (lands x p w = true → Adds p w (w.writeRecord x p).2) ∧
      (lands x p w = false → w.Keeps (w.writeRecord x p).2) := by
  obtain ⟨hkeeps, -⟩ := spec_prepare h x.prepare
  rw [lands, writeRecord, writeRecord]
  dsimp only
  cases hprepare : w.prepare x.prepare with
  | mk ok w' =>
    rw [hprepare] at hkeeps
    cases ok with
    | false => exact ⟨nofun, fun _ => hkeeps⟩
    | true =>
      obtain ⟨hadds, hnone⟩ := spec_write hkeeps.safe x p
      have hwrite : w'.write { x with sync := false } p = w'.write x p := rfl
      dsimp only
      rw [hwrite]
      cases hdone : w'.write x p with
      | mk ok w'' =>
        rw [hdone] at hadds hnone
        cases ok with
        | false => exact ⟨nofun, fun _ => hkeeps.trans (hnone rfl)⟩
        | true =>
          refine ⟨fun _ => hkeeps.adds (hadds rfl), fun hfalse => ?_⟩
          simp at hfalse

/-! ## The other calls -/

theorem keeps_takeRotateSyncErr (h : w.Safe) : w.Keeps w.takeRotateSyncErr.2 :=
  h.same rfl rfl h.holds

theorem spec_sealThrough (h : w.Safe) (x : SealFault) (epoch : ℕ) :
    w.Keeps (w.sealThrough x epoch).2 := by
  have hheal := (spec_heal h x.heal).1
  rw [sealThrough]
  cases hhealed : w.heal x.heal with
  | mk ok w₁ =>
    rw [hhealed] at hheal
    cases ok with
    | false => exact hheal
    | true =>
      have hclose := hheal.trans (spec_closeSegment hheal.safe x.close).1
      dsimp only
      cases hclosed : w₁.closeSegment x.close with
      | mk ok w₂ =>
        rw [hclosed] at hclose
        cases ok with
        | false => exact hclose
        | true =>
          have htake := hclose.trans (keeps_takeRotateSyncErr hclose.safe)
          dsimp only
          cases htaken : w₂.takeRotateSyncErr with
          | mk ok w₃ =>
            rw [htaken] at htake
            cases ok with
            | false => exact htake
            | true => exact htake.trans (htake.safe.same rfl rfl htake.safe.holds)

theorem spec_syncFile (h : w.Safe) (x : SyncFault) : w.Keeps (w.syncFile x).2 := by
  have hheal := (spec_heal h x.heal).1
  rw [syncFile]
  cases hhealed : w.heal x.heal with
  | mk ok w₁ =>
    rw [hhealed] at hheal
    cases ok with
    | false => exact hheal
    | true =>
      have htake := hheal.trans (keeps_takeRotateSyncErr hheal.safe)
      dsimp only
      cases htaken : w₁.takeRotateSyncErr with
      | mk ok w₂ =>
        rw [htaken] at htake
        cases ok with
        | false | true => exact htake

/-- From `w` to `w'` no record was added, and only segments numbered through `obsolete` were
discarded. -/
structure Discards (obsolete : ℕ) (w w' : Writer) : Prop where
  safe : w'.Safe
  log : w'.disk.log = w.disk.log
  discarded : ∀ n ∈ w'.disk.discarded, n ∈ w.disk.discarded ∨ n ≤ obsolete

theorem Keeps.discards (h : w.Keeps w') (obsolete : ℕ) : Discards obsolete w w' :=
  ⟨h.safe, h.log, fun _ hn => .inl (h.discarded ▸ hn)⟩

theorem Discards.trans (h : Discards obsolete w w') (h' : Discards obsolete w' w'') :
    Discards obsolete w w'' :=
  ⟨h'.safe, h'.log.trans h.log, fun n hn => (h'.discarded n hn).elim (h.discarded n) .inr⟩

theorem keeps_forget (h : w.Safe) (seq : ℕ) : w.Keeps (w.forget seq) := by
  rw [forget]
  split
  · exact h.keeps
  · exact h.same rfl rfl h.holds

theorem discards_remove (h : w.Safe) {n : ℕ} (hn : n ≤ obsolete) (hseq : n ≤ w.seq)
    (hopen : w.file = none ∨ obsolete < w.seq) :
    Discards obsolete w ((w.touch (w.disk.remove n)).forget n) := by
  have hfile : ∀ m ∈ w.file, m.seq ≠ n := by
    intro m hm heq
    have hm' := (h.holds.opened m hm).1
    rcases hopen with hnone | hlt
    · rw [hnone] at hm
      cases hm
    · omega
  have hremoved : Discards obsolete w (w.touch (w.disk.remove n)) := by
    refine ⟨h.changed rfl rfl (h.holds.remove hseq hfile) ⟨prefix_refl _,
      prefix_append _ _, fun _ => w.disk.onlyCut_remove n⟩, rfl, fun m hm => ?_⟩
    refine (mem_append.mp hm).imp_right fun hm => ?_
    rwa [mem_singleton.mp hm]
  exact hremoved.trans ((keeps_forget hremoved.safe n).discards obsolete)

theorem same_remove (w : Writer) (n : ℕ) :
    ((w.touch (w.disk.remove n)).forget n).file = w.file ∧
      ((w.touch (w.disk.remove n)).forget n).seq = w.seq := by
  rw [forget]
  split
  · exact ⟨rfl, rfl⟩
  · exact ⟨rfl, rfl⟩

theorem spec_removeThrough (fail : Option ℕ) {fs : List File} (h : w.Safe)
    (hfs : ∀ f ∈ fs, f.name.seq ≤ w.seq) (hopen : w.file = none ∨ obsolete < w.seq) :
    Discards obsolete w (w.removeThrough obsolete fail fs).2 := by
  induction fs generalizing w fail with
  | nil =>
    rw [removeThrough]
    exact h.keeps.discards obsolete
  | cons f fs ih =>
    obtain ⟨hf, hfs⟩ := forall_mem_cons.mp hfs
    rw [removeThrough.eq_def]
    dsimp only
    by_cases hle : f.name.seq ≤ obsolete
    · rw [if_pos hle]
      have hone := discards_remove h hle hf hopen
      obtain ⟨hfile, hseq⟩ := same_remove w f.name.seq
      have hrest := fun fail => ih (w := (w.touch (w.disk.remove f.name.seq)).forget f.name.seq)
        fail hone.safe (by rwa [hseq]) (by rwa [hfile, hseq])
      split
      · exact h.keeps.discards obsolete
      · exact hone.trans (hrest _)
      · exact hone.trans (hrest _)
    · rw [if_neg hle]
      exact ih fail h hfs hopen

theorem spec_discardThrough (h : w.Safe) (x : CheckpointFault)
    (hopen : w.file = none ∨ obsolete < w.seq) :
    Discards obsolete w (w.discardThrough x obsolete).2 := by
  rw [discardThrough]
  split
  · exact h.keeps.discards obsolete
  · have hremoved := spec_removeThrough x.remove h h.holds.numbered hopen
    split
    case h_1 heq => rwa [heq] at hremoved
    case h_2 heq => rwa [heq] at hremoved

theorem spec_checkpointThrough (h : w.Safe) (x : CheckpointFault) (obsolete : ℕ) :
    Discards obsolete w (w.checkpointThrough x obsolete).2 := by
  rw [checkpointThrough]
  split
  · obtain ⟨hclose, hfile, -⟩ := spec_closeSegment h x.close
    split
    case h_1 heq =>
      rw [heq] at hclose
      exact hclose.discards obsolete
    case h_2 heq =>
      rw [heq] at hclose hfile
      exact (hclose.discards obsolete).trans (spec_discardThrough hclose.safe x (.inl hfile))
  · rename_i hlt
    exact spec_discardThrough h x (.inr (Nat.not_le.mp hlt))

end Writer

/-! ## Whole runs -/

open Torn.Writer

/-- The record a call writes to the log, if it does. -/
def Call.record : Call → Writer → List Bytes
  | .write x p, w => if lands x p w then [p] else []
  | .sealThrough .., _ => []
  | .sync .., _ => []
  | .checkpointThrough .., _ => []
  | .setEpoch .., _ => []
  | .setSync .., _ => []

/-- The records a run writes, in order. -/
def recorded : List Call → Writer → List Bytes
  | [], _ => []
  | c :: cs, w => c.record w ++ recorded cs (c.run w)

/-- A checkpoint that discards the segment numbered `n`. -/
def Call.Covers (n : ℕ) (c : Call) : Prop :=
  ∃ x obsolete, c = .checkpointThrough x obsolete ∧ n ≤ obsolete

/-- What one call does to the log. -/
structure Call.Effect (c : Call) (w w' : Writer) : Prop where
  safe : w'.Safe
  log : w'.disk.log.map Prod.snd = w.disk.log.map Prod.snd ++ c.record w
  discarded : ∀ n ∈ w'.disk.discarded, n ∈ w.disk.discarded ∨ c.Covers n

variable {w : Writer}

theorem Call.effect_of_keeps {c : Call} {w' : Writer} (h : w.Keeps w') (hc : c.record w = []) :
    c.Effect w w' :=
  ⟨h.safe, by rw [h.log, hc, append_nil], fun _ hn => .inl (h.discarded ▸ hn)⟩

theorem Call.effect_run (c : Call) (h : w.Safe) : c.Effect w (c.run w) := by
  cases c with
  | write x p =>
    obtain ⟨hadds, hkeeps⟩ := spec_writeRecord h x p
    cases hlands : lands x p w with
    | false => exact effect_of_keeps (hkeeps hlands) (by rw [record, hlands]; rfl)
    | true =>
      have hadd := hadds hlands
      refine ⟨hadd.safe, ?_, fun n hn => .inl (hadd.discarded ▸ hn)⟩
      rw [record, hlands]
      exact hadd.log
  | sealThrough x epoch => exact effect_of_keeps (spec_sealThrough h x epoch) rfl
  | sync x => exact effect_of_keeps (spec_syncFile h x) rfl
  | checkpointThrough x obsolete =>
    have hdiscards := spec_checkpointThrough h x obsolete
    refine ⟨hdiscards.safe, ?_, fun n hn => (hdiscards.discarded n hn).imp_right fun hle => ?_⟩
    · exact (congrArg (List.map Prod.snd) hdiscards.log).trans (append_nil _).symm
    · exact ⟨x, obsolete, rfl, hle⟩
  | setEpoch epoch | setSync on => exact effect_of_keeps (h.same rfl rfl h.holds) rfl

theorem runAll_effect (calls : List Call) (h : w.Safe) :
    (runAll calls w).Safe ∧
      (runAll calls w).disk.log.map Prod.snd = w.disk.log.map Prod.snd ++ recorded calls w ∧
      ∀ n ∈ (runAll calls w).disk.discarded, n ∈ w.disk.discarded ∨ ∃ c ∈ calls, c.Covers n := by
  induction calls generalizing w with
  | nil => exact ⟨h, (append_nil _).symm, fun n hn => .inl hn⟩
  | cons c calls ih =>
    have hone := c.effect_run h
    obtain ⟨hsafe, hlog, hdiscarded⟩ := ih hone.safe
    refine ⟨hsafe, ?_, fun n hn => ?_⟩
    · rw [recorded, ← append_assoc, ← hone.log]
      exact hlog
    · rcases hdiscarded n hn with hn | ⟨c', hc', hcovers⟩
      · exact (hone.discarded n hn).imp_right fun hcovers => ⟨c, mem_cons_self, hcovers⟩
      · exact .inr ⟨c', mem_cons_of_mem c hc', hcovers⟩

theorem safe_create (maxBytes : ℕ) (prior : Segments) : (create maxBytes prior).Safe := by
  have hlog : Strict Prod.fst (prior.files.map fun f => (f.name.seq, f.content)) :=
    pairwise_map.mpr prior.ascending
  have hmem : ∀ f ∈ prior.files, (f.name.seq, f.content) ∈
      prior.files.map fun f => (f.name.seq, f.content) := fun f hf =>
    mem_map.mpr ⟨f, hf, rfl⟩
  have hnumbered :=
    ((foldl_sup_le_iff (c := 0) (fun f : File => f.name.seq) prior.files).mp le_rfl).2
  have hholds : Holds (create maxBytes prior).seq none 0 none (create maxBytes prior).disk := by
    refine ⟨⟨prior.ascending, hnumbered, hlog.ordered, ?_, nofun, fun _ _ => not_mem_nil, ?_⟩,
      ?_, nofun, nofun, nofun⟩
    · intro r hr
      obtain ⟨f, hf, rfl⟩ := mem_map.mp hr
      exact hnumbered f hf
    · intro r hr _
      obtain ⟨f, hf, rfl⟩ := mem_map.mp hr
      exact ⟨f, hf, rfl⟩
    · intro f hf _
      have hfiber := hlog.fiber_eq (hmem f hf)
      rw [Disk.frames]
      exact (flatMap_singleton Prod.snd (f.name.seq, f.content)).symm.trans
        (congrArg (List.flatMap Prod.snd) hfiber.symm)
  exact ⟨hholds, rfl, forall_mem_singleton.mpr hholds.sound, isChain_singleton _⟩

/-- **Whatever fails, at most the first bytes of one failed write stand behind whole records**, in
the last segment, and while they do nothing is written.  This is so at every point of every run; the
records are those of the run, in the order they were written, and those gone are in segments that a
checkpoint covers. -/
theorem torn_bytes_last (maxBytes : ℕ) (prior : Segments) (calls : List Call) :
    let w := runAll calls (create maxBytes prior)
    w.trail.head? = some w.disk ∧ (∀ d ∈ w.trail, d.Sound) ∧ w.trail.IsChain Disk.Next ∧
      w.disk.log.map Prod.snd =
        prior.files.map File.content ++ recorded calls (create maxBytes prior) ∧
      ∀ n ∈ w.disk.discarded, ∃ c ∈ calls, c.Covers n := by
  obtain ⟨hsafe, hlog, hdiscarded⟩ := runAll_effect calls (safe_create maxBytes prior)
  refine ⟨hsafe.head, hsafe.sound, hsafe.chain, hlog.trans ?_, fun n hn => ?_⟩
  · rw [create, map_map]
    rfl
  · exact (hdiscarded n hn).resolve_left not_mem_nil

/-- A write that landed one byte and could not be healed, one that was refused for it, and one after
the segment was restored. -/
example :
    let stuck : HealFault := { (default : HealFault) with rename := true }
    let torn : WriteFault := { (default : WriteFault) with landed := some 1, heal := stuck }
    let refused : WriteFault :=
      { (default : WriteFault) with prepare := { (default : PrepareFault) with heal := stuck } }
    let w := runAll [.write default [1, 2], .write torn [3, 4], .write refused [5, 6],
      .write default [7, 8]] (Writer.create 0 ⟨[], .nil⟩)
    w.trail.reverse.map Disk.bytes = [[], [], [1, 2], [1, 2, 3], [1, 2], [1, 2], [1, 2, 7, 8]] := by
  decide +kernel

end Torn
end OtelStorage.Wal
