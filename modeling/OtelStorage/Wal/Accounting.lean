import OtelStorage.Wal.TornRuns

/-!
# What the writer says it holds

The writer counts its segments and their bytes without looking at the directory: `kept` lists the
segments it closed, and the open one is added to them.  Closing, opening and removing a segment keep
the list and the directory the same (`Books`).

Healing lets go of the open segment on a path of its own, and does not list it: the restored file
stays in the directory and the writer no longer counts it.  So with no other faults the count is
right at every point of a run exactly when no failed write of the run left a byte.
-/

namespace OtelStorage.Wal
namespace Torn

open Delimited Fibers List

/-- A segment as the writer lists it. -/
def File.entry (f : File) : ℕ × ℕ := (f.name.seq, f.content.length)

namespace Writer

/-- `Segments` and `Bytes` say what the directory holds. -/
def Accounted (w : Writer) : Prop :=
  w.segments = w.disk.files.length ∧ w.bytes = (w.disk.files.map fun f => f.content.length).sum

instance (w : Writer) : Decidable w.Accounted :=
  inferInstanceAs (Decidable (_ ∧ _))

/-- The open segment, listed as if it were closed. -/
def openEntry (w : Writer) : List (ℕ × ℕ) := if w.file.isSome then [(w.seq, w.size)] else []

/-- No tear is left, and the writer lists the files there are. -/
structure Books (w : Writer) : Prop where
  safe : w.Safe
  whole : w.torn = none
  listed : w.kept ++ w.openEntry = w.disk.files.map File.entry
  summed : w.keptSize = (w.kept.map Prod.snd).sum

variable {w : Writer}

theorem openEntry_of_some {n : Name} (h : w.file = some n) : w.openEntry = [(w.seq, w.size)] := by
  rw [openEntry, h]
  rfl

theorem openEntry_of_none (h : w.file = none) : w.openEntry = [] := by
  rw [openEntry, h]
  rfl

theorem heal_of_whole (h : w.torn = none) (x : HealFault) : w.heal x = (true, w) := by
  rw [heal, h]

theorem files_update_last {d : Disk} {front : List File} {f : File}
    (hfiles : d.files = front ++ [f]) (hfront : ∀ g ∈ front, g.name ≠ f.name)
    (g : Bytes → Bytes) : (d.update f.name g).files = front ++ [⟨f.name, g f.content⟩] := by
  have hsame : (front.map fun e => if e.name = f.name then ⟨e.name, g e.content⟩ else e) = front :=
    (map_congr_left fun e he => if_neg (hfront e he)).trans (map_id front)
  rw [Disk.update, hfiles, map_append, hsame, map_singleton, if_pos rfl]

theorem forget_spec (hkept : Strict Prod.fst w.kept) (hsum : w.keptSize = (w.kept.map Prod.snd).sum)
    (n : ℕ) :
    (w.forget n).kept = w.kept.filter (fun k => k.1 ≠ n) ∧
      (w.forget n).keptSize = ((w.forget n).kept.map Prod.snd).sum := by
  cases hfind : w.kept.find? fun k => k.1 = n with
  | none =>
    have hforget : w.forget n = w := by rw [forget, hfind]
    refine ⟨?_, by rw [hforget, hsum]⟩
    rw [hforget]
    refine (filter_eq_self.mpr fun k hk => ?_).symm
    simpa using List.find?_eq_none.mp hfind k hk
  | some k =>
    obtain ⟨hk, front, back, hsplit, hfront⟩ := List.find?_eq_some_iff_append.mp hfind
    have hkn : k.1 = n := by simpa using hk
    have hfront' : ∀ e ∈ front, e.1 ≠ n := fun e he => by simpa using hfront e he
    have hback : ∀ e ∈ back, e.1 ≠ n := by
      rw [hsplit] at hkept
      intro e he
      exact hkn ▸ ((pairwise_cons.mp (pairwise_append.mp hkept).2.1).1 e he).ne'
    have herase : w.kept.eraseP (fun k => k.1 = n) = front ++ back := by
      rw [hsplit, eraseP_append_right _ (by simpa using hfront'),
        eraseP_cons_of_pos (by simpa using hkn)]
    have hfilter : w.kept.filter (fun k => k.1 ≠ n) = front ++ back := by
      rw [hsplit, filter_append, filter_cons_of_neg (by simpa using hkn),
        filter_eq_self.mpr (by simpa using hfront'),
        filter_eq_self.mpr (by simpa using hback)]
    have hforget : w.forget n = { w with
        kept := w.kept.eraseP fun k => k.1 = n, keptSize := w.keptSize - k.2 } := by
      rw [forget, hfind]
    rw [hforget]
    refine ⟨herase.trans hfilter.symm, ?_⟩
    show w.keptSize - k.2 = ((w.kept.eraseP fun k => k.1 = n).map Prod.snd).sum
    rw [herase, hsum, hsplit, map_append, map_append, sum_append, sum_append, map_cons, sum_cons]
    omega

section

variable (h : w.Books) {obsolete : ℕ}

include h

theorem Books.accounted : w.Accounted := by
  have hlength := congrArg List.length h.listed
  have hsum : ((w.kept ++ w.openEntry).map Prod.snd).sum =
      ((w.disk.files.map File.entry).map Prod.snd).sum := by rw [h.listed]
  rw [length_append, length_map] at hlength
  rw [map_append, sum_append, ← h.summed, map_map] at hsum
  rw [Accounted, segments, bytes]
  cases hfile : w.file with
  | none =>
    rw [openEntry_of_none hfile] at hlength hsum
    exact ⟨hlength, hsum⟩
  | some n =>
    rw [openEntry_of_some hfile] at hlength hsum
    exact ⟨hlength, hsum⟩

/-! ## Preparing -/

theorem Books.close :
    (w.closeSegment false).1 = true ∧ (w.closeSegment false).2.Books ∧
      (w.closeSegment false).2.file = none := by
  obtain ⟨hkeeps, hfile, htorn, -⟩ := spec_closeSegment h.safe false
  refine ⟨?_, ⟨hkeeps.safe, htorn.trans h.whole, ?_, ?_⟩, hfile⟩
  · rw [closeSegment]
    split <;> rfl
  · rw [openEntry_of_none hfile, append_nil, closeSegment]
    split
    case h_1 hnone => rw [← h.listed, openEntry_of_none hnone, append_nil]
    case h_2 n hsome =>
      have hlisted := h.listed
      rwa [openEntry_of_some hsome] at hlisted
  · rw [closeSegment]
    split
    · exact h.summed
    · dsimp only [keep]
      rw [map_append, sum_append, ← h.summed]
      rfl

theorem Books.openNext (hfile : w.file = none) :
    (w.openNext default).1 = true ∧ (w.openNext default).2.Books ∧
      ∃ n, (w.openNext default).2.file = some n := by
  obtain ⟨hkeeps, hready⟩ := spec_openNext h.safe h.whole hfile default
  refine ⟨rfl, ⟨hkeeps.safe, h.whole, ?_, h.summed⟩, (hready rfl).2⟩
  have hlisted := h.listed
  rw [openEntry_of_none hfile, append_nil] at hlisted
  show w.kept ++ [(w.seq + 1, 0)] = (w.disk.files ++ [_]).map File.entry
  rw [map_append, hlisted]
  rfl

theorem Books.prepare :
    (w.prepare default).1 = true ∧ (w.prepare default).2.Books ∧
      ∃ n, (w.prepare default).2.file = some n := by
  rw [Writer.prepare, heal_of_whole h.whole]
  dsimp only
  split
  · rename_i hfile
    exact h.openNext hfile
  split
  · obtain ⟨hclosed, hbooks, hfile⟩ := h.close
    rw [rotate]
    have hpair : w.closeSegment (default : PrepareFault).close =
        (true, (w.closeSegment false).2) := Prod.ext hclosed rfl
    rw [hpair]
    exact hbooks.openNext hfile
  · rename_i hfile _
    exact ⟨rfl, h, Option.ne_none_iff_exists'.mp hfile⟩

/-! ## Writing to the open segment -/

section

variable {n : Name} (hfile : w.file = some n) {p : Bytes}

include hfile

theorem Books.lastOpen :
    ∃ front f, w.disk.files = front ++ [f] ∧ f.name = n ∧ f.content.length = w.size ∧
      (∀ g ∈ front, g.name ≠ n) ∧ w.kept = front.map File.entry := by
  have hholds := h.safe.of_torn h.whole
  obtain ⟨hseq, ⟨f, hf, rfl⟩, hsize⟩ := hholds.opened n hfile
  obtain ⟨front, hfiles, hfront⟩ := hholds.toLayout.last hf fun g hg => hseq ▸ hholds.numbered g hg
  have hlength : f.content.length = w.size := by rw [hsize, hholds.content f hf nofun]
  refine ⟨front, f, hfiles, rfl, hlength, ?_, ?_⟩
  · intro g hg heq
    exact absurd (heq ▸ hfront g hg) (Nat.lt_irrefl _)
  · have hlisted := h.listed
    rw [openEntry_of_some hfile, hfiles, map_append] at hlisted
    exact (append_inj' hlisted rfl).1

theorem Books.landWhole (p : Bytes) : (w.landWhole n p).Books := by
  obtain ⟨front, f, hfiles, rfl, hlength, hfront, hkept⟩ := h.lastOpen hfile
  refine ⟨(adds_landWhole h.safe h.whole hfile p).safe, h.whole, ?_, h.summed⟩
  have hopen : (w.landWhole f.name p).openEntry = [(w.seq, w.size + p.length)] :=
    openEntry_of_some hfile
  have hseq := ((h.safe.of_torn h.whole).opened f.name hfile).1
  rw [hopen]
  show w.kept ++ _ = (w.disk.update f.name (· ++ p)).files.map File.entry
  rw [files_update_last hfiles hfront, hkept, map_append, map_singleton, File.entry,
    length_append, hlength, hseq]

/-! ## A failed write -/

theorem Books.landNothing {k : ℕ} (hnone : p.take k = []) :
    ((w.landPart n k p).heal default).2.Books := by
  obtain ⟨front, f, hfiles, rfl, hlength, hfront, hkept⟩ := h.lastOpen hfile
  have hpart := keeps_landPart h.safe h.whole hfile k p
  have hsame : (w.landPart f.name k p).disk.files = w.disk.files := by
    show (w.disk.update f.name (· ++ p.take k)).files = _
    rw [files_update_last hfiles hfront, hnone, append_nil, hfiles]
  have hdata : (w.landPart f.name k p).disk.content f.name = some f.content :=
    content_of_mem hpart.safe.holds.toLayout (by rw [hsame, hfiles]; simp)
  have hheal : ((w.landPart f.name k p).heal default).2 =
      { w.landPart f.name k p with torn := none } := by
    have htorn : (w.landPart f.name k p).torn = some (f.name, w.size) := rfl
    rw [heal, htorn]
    dsimp only
    rw [hdata]
    dsimp only
    rw [hlength, if_neg (Nat.lt_irrefl _)]
    rfl
  have hsafe := (spec_heal hpart.safe default).1.safe
  rw [hheal] at hsafe ⊢
  exact ⟨hsafe, rfl, by rw [hsame]; exact h.listed, h.summed⟩

/-- **A failed write that left bytes in the segment** is healed, and the writer no longer counts the
segment. -/
theorem Books.not_accounted_landPart {k : ℕ} (hsome : p.take k ≠ []) :
    ¬ ((w.landPart n k p).heal default).2.Accounted := by
  obtain ⟨front, f, hfiles, rfl, hlength, hfront, hkept⟩ := h.lastOpen hfile
  have hpart := keeps_landPart h.safe h.whole hfile k p
  have hlonger : (w.landPart f.name k p).disk.files = front ++ [⟨f.name, f.content ++ p.take k⟩] :=
    files_update_last hfiles hfront (· ++ p.take k)
  have hdata : (w.landPart f.name k p).disk.content f.name = some (f.content ++ p.take k) :=
    content_of_mem (f := ⟨f.name, f.content ++ p.take k⟩) hpart.safe.holds.toLayout
      (by rw [hlonger]; simp)
  have hgood : w.size < (f.content ++ p.take k).length := by
    have hpos := length_pos_iff.mpr hsome
    rw [length_append]
    omega
  have hheal : ((w.landPart f.name k p).heal default).2 =
      { ({ w.landPart f.name k p with file := none }.touch
        ((w.landPart f.name k p).disk.update f.name (List.take w.size))) with torn := none } := by
    have htorn : (w.landPart f.name k p).torn = some (f.name, w.size) := rfl
    rw [heal, htorn]
    dsimp only
    rw [hdata]
    dsimp only
    rw [if_pos hgood]
    rfl
  rintro ⟨hsegments, -⟩
  rw [hheal] at hsegments
  have hfew : w.kept.length = (front ++ [_]).length :=
    hsegments.trans (congrArg List.length (files_update_last hlonger hfront (List.take w.size)))
  rw [hkept, length_map, length_append, length_singleton] at hfew
  omega

end

/-! ## Removals -/

theorem Books.remove {n : ℕ} (hn : n ≤ obsolete) (hseq : n ≤ w.seq)
    (hopen : w.file = none ∨ obsolete < w.seq) :
    ((w.touch (w.disk.remove n)).forget n).Books := by
  have hsafe := (discards_remove h.safe hn hseq hopen).safe
  obtain ⟨hfile, hnum⟩ := same_remove w n
  -- the list is in the order of the numbers, as the files are
  have hlist : Strict Prod.fst (w.kept ++ w.openEntry) := by
    rw [h.listed]
    exact pairwise_map.mpr h.safe.holds.ascending
  obtain ⟨hkept, hsum⟩ := forget_spec (w := w.touch (w.disk.remove n))
    (pairwise_append.mp hlist).1 h.summed n
  have hsame : ((w.touch (w.disk.remove n)).forget n).torn = w.torn ∧
      ((w.touch (w.disk.remove n)).forget n).size = w.size ∧
      ((w.touch (w.disk.remove n)).forget n).disk = w.disk.remove n := by
    rw [forget]
    split
    · exact ⟨rfl, rfl, rfl⟩
    · exact ⟨rfl, rfl, rfl⟩
  obtain ⟨htorn, hsize, hdisk⟩ := hsame
  refine ⟨hsafe, htorn.trans h.whole, ?_, hsum⟩
  have hentry : ((w.touch (w.disk.remove n)).forget n).openEntry = w.openEntry := by
    rw [openEntry, hfile, hnum, hsize, openEntry]
  have hother : w.openEntry.filter (fun k => k.1 ≠ n) = w.openEntry := by
    refine filter_eq_self.mpr fun k hk => decide_eq_true ?_
    cases hf : w.file with
    | none =>
      rw [openEntry_of_none hf] at hk
      cases hk
    | some m =>
      rw [openEntry_of_some hf] at hk
      rcases hopen with hnone | hlt
      · cases hf.symm.trans hnone
      · rw [mem_singleton.mp hk]
        dsimp only
        omega
  rw [hentry, hkept, hdisk]
  show w.kept.filter _ ++ w.openEntry = (w.disk.files.filter _).map File.entry
  rw [← hother, ← filter_append, h.listed, filter_map]
  rfl

theorem Books.removeThrough {fs : List File}
    (hfs : ∀ f ∈ fs, f.name.seq ≤ w.seq) (hopen : w.file = none ∨ obsolete < w.seq) :
    (w.removeThrough obsolete none fs).1 = true ∧ (w.removeThrough obsolete none fs).2.Books := by
  induction fs generalizing w with
  | nil => exact ⟨rfl, h⟩
  | cons f fs ih =>
    obtain ⟨hf, hfs⟩ := forall_mem_cons.mp hfs
    rw [Writer.removeThrough.eq_def]
    dsimp only
    by_cases hle : f.name.seq ≤ obsolete
    · rw [if_pos hle]
      obtain ⟨hfile, hseq⟩ := same_remove w f.name.seq
      exact ih (h.remove hle hf hopen) (by rwa [hseq]) (by rwa [hfile, hseq])
    · rw [if_neg hle]
      exact ih h hfs hopen

theorem Books.discardThrough (hopen : w.file = none ∨ obsolete < w.seq) :
    (w.discardThrough default obsolete).2.Books := by
  obtain ⟨hok, hbooks⟩ := h.removeThrough h.safe.holds.numbered hopen
  have hpair : w.removeThrough obsolete (default : CheckpointFault).remove w.disk.files =
      (true, (w.removeThrough obsolete none w.disk.files).2) := Prod.ext hok rfl
  have hread : ¬ (default : CheckpointFault).readDir = true := Bool.false_ne_true
  rw [Writer.discardThrough, if_neg hread, hpair]
  exact hbooks

theorem Books.checkpointThrough (obsolete : ℕ) :
    (w.checkpointThrough default obsolete).2.Books := by
  rw [Writer.checkpointThrough]
  split
  · obtain ⟨hok, hbooks, hfile⟩ := h.close
    have hpair : w.closeSegment (default : CheckpointFault).close =
        (true, (w.closeSegment false).2) := Prod.ext hok rfl
    rw [hpair]
    exact hbooks.discardThrough (.inl hfile)
  · rename_i hlt
    exact h.discardThrough (.inr (Nat.not_le.mp hlt))

theorem Books.same {w' : Writer} (hsafe : w'.Safe) (htorn : w'.torn = w.torn)
    (hkept : w'.kept = w.kept) (hsize : w'.keptSize = w.keptSize)
    (hopen : w'.openEntry = w.openEntry) (hdisk : w'.disk = w.disk) : w'.Books :=
  ⟨hsafe, htorn.trans h.whole, by rw [hkept, hopen, hdisk, h.listed], by
    rw [hsize, hkept, h.summed]⟩

theorem Books.takeRotateSyncErr : w.takeRotateSyncErr.2.Books :=
  h.same (keeps_takeRotateSyncErr h.safe).safe rfl rfl rfl rfl rfl

theorem Books.sealThrough (epoch : ℕ) : (w.sealThrough default epoch).2.Books := by
  obtain ⟨hok, hbooks, -⟩ := h.close
  have hpair : w.closeSegment (default : SealFault).close =
      (true, (w.closeSegment false).2) := Prod.ext hok rfl
  have htake := hbooks.takeRotateSyncErr
  rw [Writer.sealThrough, heal_of_whole h.whole]
  dsimp only
  rw [hpair]
  dsimp only
  cases htaken : (w.closeSegment false).2.takeRotateSyncErr with
  | mk ok w' =>
    rw [htaken] at htake
    cases ok with
    | false => exact htake
    | true =>
      have hepoch : w'.Keeps { w' with epoch := epoch } := htake.safe.same rfl rfl htake.safe.holds
      exact htake.same hepoch.safe rfl rfl rfl rfl rfl

theorem Books.syncFile : (w.syncFile default).2.Books := by
  have htake := h.takeRotateSyncErr
  rw [Writer.syncFile, heal_of_whole h.whole]
  dsimp only
  cases htaken : w.takeRotateSyncErr with
  | mk ok w' =>
    rw [htaken] at htake
    cases ok with
    | false | true => exact htake

/-! ## One call -/

theorem Books.writeRecord_eq (landed : Option ℕ) (p : Bytes) :
    ∃ (w' : Writer) (n : Name), w'.Books ∧ w'.file = some n ∧
      (w.writeRecord { (default : WriteFault) with landed := landed } p).2 =
        match landed with
        | none => w'.landWhole n p
        | some k => ((w'.landPart n k p).heal default).2 := by
  -- the record's prepare, then the one of the write itself
  obtain ⟨hfirst, hbooks, -⟩ := h.prepare
  obtain ⟨hsecond, hagain, n, hfile⟩ := hbooks.prepare
  refine ⟨((w.prepare default).2.prepare default).2, n, hagain, hfile, ?_⟩
  have hpair : w.prepare { (default : WriteFault) with landed := landed }.prepare =
      (true, (w.prepare default).2) := Prod.ext hfirst rfl
  have hpair' : (w.prepare default).2.prepare
      { (default : WriteFault) with landed := landed }.prepareAgain =
      (true, ((w.prepare default).2.prepare default).2) := Prod.ext hsecond rfl
  rw [Writer.writeRecord, hpair]
  dsimp only
  rw [Writer.write, hpair']
  dsimp only
  rw [hfile]
  cases landed <;> rfl

end

end Writer

open Torn.Writer

/-- Nothing fails but writes of data. -/
def Call.OnlyData : Call → Prop
  | .write x _ => ∃ landed, x = { (default : WriteFault) with landed := landed }
  | .sealThrough x _ => x = default
  | .sync x => x = default
  | .checkpointThrough x _ => x = default
  | .setEpoch _ => True
  | .setSync _ => True

/-- If the call is a write that fails, none of its bytes landed. -/
def Call.LandsNothing : Call → Prop
  | .write x p => ∀ k, x.landed = some k → p.take k = []
  | .sealThrough .. => True
  | .sync .. => True
  | .checkpointThrough .. => True
  | .setEpoch .. => True
  | .setSync .. => True

variable {w : Writer}

theorem Call.books_run {c : Call} (h : w.Books) (hdata : c.OnlyData) (hnothing : c.LandsNothing) :
    (c.run w).Books := by
  cases c with
  | write x p =>
    obtain ⟨landed, rfl⟩ := hdata
    obtain ⟨w', n, hbooks, hfile, heq⟩ := h.writeRecord_eq landed p
    rw [run, heq]
    cases landed with
    | none => exact hbooks.landWhole hfile p
    | some k => exact hbooks.landNothing hfile (hnothing k rfl)
  | sealThrough x epoch =>
    cases hdata
    exact h.sealThrough epoch
  | sync x =>
    cases hdata
    exact h.syncFile
  | checkpointThrough x obsolete =>
    cases hdata
    exact h.checkpointThrough obsolete
  | setEpoch epoch => exact h.same ((setEpoch epoch).effect_run h.safe).safe rfl rfl rfl rfl rfl
  | setSync on => exact h.same ((setSync on).effect_run h.safe).safe rfl rfl rfl rfl rfl

theorem Call.not_accounted_run {c : Call} (h : w.Books) (hdata : c.OnlyData)
    (hlands : ¬ c.LandsNothing) : ¬ (c.run w).Accounted := by
  cases c with
  | write x p =>
    obtain ⟨landed, rfl⟩ := hdata
    obtain ⟨w', n, hbooks, hfile, heq⟩ := h.writeRecord_eq landed p
    rw [run, heq]
    cases landed with
    | none =>
      refine absurd (fun k hk => ?_) hlands
      cases hk
    | some k =>
      refine hbooks.not_accounted_landPart hfile fun hnone => hlands fun k' hk' => ?_
      cases hk'
      exact hnone
  | _ => exact absurd trivial hlands

/-! ## Whole runs -/

theorem books_create (maxBytes : ℕ) (prior : Segments) : (Writer.create maxBytes prior).Books where
  safe := safe_create maxBytes prior
  whole := rfl
  listed := append_nil _
  summed := by
    rw [create, map_map]
    rfl

theorem books_runAll (calls : List Call) (h : w.Books)
    (hdata : ∀ c ∈ calls, c.OnlyData) (hnothing : ∀ c ∈ calls, c.LandsNothing) :
    (runAll calls w).Books := by
  induction calls generalizing w with
  | nil => exact h
  | cons c calls ih =>
    obtain ⟨hc, hdata⟩ := forall_mem_cons.mp hdata
    obtain ⟨hc', hnothing⟩ := forall_mem_cons.mp hnothing
    exact ih (Call.books_run h hc hc') hdata hnothing

/-- If the count is right after every call, no failed write left a byte: the first that did would
put it wrong. -/
theorem landsNothing_of_accounted (calls : List Call) (h : w.Books)
    (hdata : ∀ c ∈ calls, c.OnlyData)
    (haccounted : ∀ done, done <+: calls → (runAll done w).Accounted) :
    ∀ c ∈ calls, c.LandsNothing := by
  induction calls generalizing w with
  | nil => exact fun c hc => nomatch hc
  | cons c calls ih =>
    obtain ⟨hc, hdata⟩ := forall_mem_cons.mp hdata
    have hnothing : c.LandsNothing := by
      by_contra hlands
      refine Call.not_accounted_run h hc hlands (haccounted [c] ?_)
      exact cons_prefix_cons.mpr ⟨rfl, nil_prefix⟩
    refine forall_mem_cons.mpr ⟨hnothing, ih (Call.books_run h hc hnothing) hdata ?_⟩
    intro done hdone
    exact haccounted (c :: done) (cons_prefix_cons.mpr ⟨rfl, hdone⟩)

/-- **The writer's count is right after every call of a run exactly when no failed write of the run
left a byte**, nothing else failing. -/
theorem accounted_iff (maxBytes : ℕ) (prior : Segments) (calls : List Call)
    (hdata : ∀ c ∈ calls, c.OnlyData) :
    (∀ done, done <+: calls → (runAll done (Writer.create maxBytes prior)).Accounted) ↔
      ∀ c ∈ calls, c.LandsNothing := by
  have hcreate := books_create maxBytes prior
  refine ⟨landsNothing_of_accounted calls hcreate hdata, fun hnothing done hdone => ?_⟩
  refine (books_runAll done hcreate (fun c hc => ?_) fun c hc => ?_).accounted
  · exact hdata c (hdone.subset hc)
  · exact hnothing c (hdone.subset hc)

/-- Two records, the second of which fails leaving nothing, and a checkpoint. -/
theorem accounted_iff_two_records :
    let calls := [Call.write default [1, 2],
      .write { (default : WriteFault) with landed := some 0 } [3, 4], .checkpointThrough default 0]
    (runAll calls (Writer.create 0 ⟨[], .nil⟩)).Accounted := by
  refine (accounted_iff 0 ⟨[], .nil⟩ _ ?_).mpr ?_ _ (prefix_refl _)
  · rw [forall_mem_cons, forall_mem_cons, forall_mem_singleton]
    exact ⟨⟨none, rfl⟩, ⟨some 0, rfl⟩, rfl⟩
  rw [forall_mem_cons, forall_mem_cons, forall_mem_singleton]
  refine ⟨fun k hk => ?_, fun k hk => ?_, trivial⟩
  · cases hk
  · cases hk
    rfl

/-- The second record's write lands one byte: the segment is restored, and no longer counted. -/
theorem restored_segment_uncounted :
    ¬ (runAll [Call.write default [1, 2],
        .write { (default : WriteFault) with landed := some 1 } [3, 4]]
      (Writer.create 0 ⟨[], .nil⟩)).Accounted := by
  decide +kernel

end Torn
end OtelStorage.Wal
