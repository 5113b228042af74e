import OtelStorage.Foundation.Fibers
import OtelStorage.Wal.TornWrites

/-!
# At most one partial frame, at the end

Whatever fails, the segment files one behind another are at every point the bytes of the records
whose writes succeeded, in the order they were written, less those in segments a checkpoint removed,
and behind them at most the first bytes of one write that failed.  While such bytes are there,
nothing is written to any segment: files are only cut or removed.

The invariant `Holds` says it file by file: a file holds the bytes of the records that went to it,
and only the torn file may hold more.  The torn file is the last one, because no other is opened
before it is healed; so what it holds besides is at the end of the log.  `Fibers.fibers_eq` turns
the statement about files into the one about the log, records going to segments in ascending order.
-/

namespace OtelStorage.Wal
namespace Torn

open Delimited Fibers List

/-! ## What the directory holds -/

namespace Disk

/-- The bytes of the records that went to the segment numbered `n`. -/
def frames (d : Disk) (n : ℕ) : Bytes := (fiber Prod.fst n d.log).flatMap Prod.snd

/-- The bytes of all segment files, one behind another. -/
def bytes (d : Disk) : Bytes := d.files.flatMap File.content

/-- The bytes of the records whose segment no checkpoint removed, in the order they were written. -/
def written (d : Disk) : Bytes := (d.log.filter fun r => r.1 ∉ d.discarded).flatMap Prod.snd

/-- The files are in the order of their numbers and hold what was written, and behind it at most the
first bytes of one failed write, in the last file. -/
def Sound (d : Disk) : Prop :=
  Strict (fun f : File => f.name.seq) d.files ∧ ∃ t, d.bytes = d.written ++ t ∧
    (t ≠ [] → ∃ p ∈ d.failed, t <+: p ∧ ∃ f, d.files.getLast? = some f ∧ t <:+ f.content)

/-- From `d` to `d'` nothing was written: files were only cut or removed. -/
def OnlyCut (d' d : Disk) : Prop :=
  d'.log = d.log ∧ ∀ f' ∈ d'.files, ∃ f ∈ d.files, f.name = f'.name ∧ f'.content <+: f.content

variable {g : Bytes → Bytes} {f' : File} {d : Disk}

theorem mem_update {n : Name} :
    f' ∈ (d.update n g).files ↔
      ∃ f ∈ d.files, f' = if f.name = n then ⟨f.name, g f.content⟩ else f := by
  rw [update, mem_map]
  exact ⟨fun ⟨f, hf, h⟩ => ⟨f, hf, h.symm⟩, fun ⟨f, hf, h⟩ => ⟨f, hf, h.symm⟩⟩

theorem map_name_update (d : Disk) (n : Name) (g : Bytes → Bytes) :
    (d.update n g).files.map File.name = d.files.map File.name := by
  rw [update, map_map]
  refine map_congr_left fun f _ => ?_
  dsimp only [Function.comp]
  split
  · rfl
  · rfl

theorem of_mem_update {n : Name} (h : f' ∈ (d.update n g).files) :
    (f' ∈ d.files ∧ f'.name ≠ n) ∨ ∃ f ∈ d.files, f.name = n ∧ f' = ⟨n, g f.content⟩ := by
  obtain ⟨f, hf, rfl⟩ := mem_update.mp h
  by_cases hn : f.name = n
  · rw [if_pos hn]
    exact .inr ⟨f, hf, hn, by rw [hn]⟩
  · rw [if_neg hn]
    exact .inl ⟨hf, hn⟩

end Disk

/-- Which files there are: those of the records written, unless a checkpoint removed them, in the
order of their numbers, none above `seq`. -/
structure Layout (seq : ℕ) (d : Disk) : Prop where
  ascending : Strict (fun f : File => f.name.seq) d.files
  numbered : ∀ f ∈ d.files, f.name.seq ≤ seq
  ordered : Ordered Prod.fst d.log
  logged : ∀ r ∈ d.log, r.1 ≤ seq
  gone : ∀ n ∈ d.discarded, n ≤ seq
  present : ∀ f ∈ d.files, f.name.seq ∉ d.discarded
  missing : ∀ r ∈ d.log, r.1 ∉ d.discarded → ∃ f ∈ d.files, f.name.seq = r.1

/-- What the writer's fields say about the directory. -/
structure Holds (seq : ℕ) (file : Option Name) (size : ℕ) (torn : Option (Name × ℕ)) (d : Disk) :
    Prop extends Layout seq d where
  content : ∀ f ∈ d.files, (∀ good, torn ≠ some (f.name, good)) → f.content = d.frames f.name.seq
  tornLast : ∀ name good, torn = some (name, good) →
    (∀ f ∈ d.files, f.name.seq ≤ name.seq) ∧ ∀ n ∈ file, n = name
  tornTail : ∀ name good, torn = some (name, good) → ∀ f ∈ d.files, f.name = name →
    ∃ t, ∃ p ∈ d.failed, f.content = d.frames name.seq ++ t ∧ t <+: p ∧
      (d.frames name.seq).length = good
  opened : ∀ n ∈ file, n.seq = seq ∧ (∃ f ∈ d.files, f.name = n) ∧ size = (d.frames n.seq).length

section

variable {seq good : ℕ} {file : Option Name} {size : ℕ} {torn : Option (Name × ℕ)} {d : Disk}
  {f : File} {n name : Name}

/-- The records of the files there are, file by file, are what was written. -/
theorem Layout.frames_eq (h : Layout seq d) :
    (d.files.flatMap fun f => d.frames f.name.seq) = d.written := by
  have hks : (d.files.map fun f => f.name.seq).Pairwise (· < ·) := pairwise_map.mpr h.ascending
  have hfibers : ((d.files.map fun f => f.name.seq).flatMap fun n => fiber Prod.fst n d.log) =
      d.log.filter fun r => r.1 ∈ d.files.map fun f => f.name.seq := fibers_eq hks h.ordered
  have hkeep : (d.log.filter fun r => r.1 ∈ d.files.map fun f => f.name.seq) =
      d.log.filter fun r => r.1 ∉ d.discarded := by
    refine filter_congr fun r hr => ?_
    rw [decide_eq_decide, mem_map]
    constructor
    · rintro ⟨f, hf, heq⟩
      exact heq ▸ h.present f hf
    · exact h.missing r hr
  rw [Disk.written, ← hkeep, ← hfibers, flatMap_assoc, flatMap_map]
  rfl

/-- With no torn segment the files hold what was written and nothing else. -/
theorem Holds.whole (h : Holds seq file size none d) : d.bytes = d.written := by
  rw [← h.frames_eq, Disk.bytes]
  exact flatMap_congr fun f hf => h.content f hf nofun

theorem Layout.last (h : Layout seq d) (hf : f ∈ d.files)
    (hmax : ∀ g ∈ d.files, g.name.seq ≤ f.name.seq) :
    ∃ front, d.files = front ++ [f] ∧ ∀ g ∈ front, g.name.seq < f.name.seq := by
  obtain ⟨front, back, hsplit⟩ := append_of_mem hf
  have hasc := h.ascending
  rw [hsplit] at hasc hmax
  obtain ⟨-, hback, hfront⟩ := pairwise_append.mp hasc
  have hnil : back = [] := by
    refine eq_nil_iff_forall_not_mem.mpr fun g hg => ?_
    have hlt := (pairwise_cons.mp hback).1 g hg
    have hle := hmax g (mem_append_right _ (mem_cons_of_mem f hg))
    exact absurd hlt (Nat.not_lt.mpr hle)
  subst hnil
  exact ⟨front, hsplit, fun g hg => hfront g hg f mem_cons_self⟩

theorem Holds.sound (h : Holds seq file size torn d) : d.Sound := by
  refine ⟨h.ascending, ?_⟩
  by_cases htorn : ∃ name good, torn = some (name, good) ∧ ∃ f ∈ d.files, f.name = name
  · obtain ⟨name, good, htorn, f, hf, rfl⟩ := htorn
    obtain ⟨t, p, hp, hcontent, hprefix, -⟩ := h.tornTail f.name good htorn f hf rfl
    obtain ⟨front, hfiles, hfront⟩ := h.last hf (h.tornLast f.name good htorn).1
    have hwritten := h.frames_eq
    rw [hfiles, flatMap_append, flatMap_singleton] at hwritten
    have hrest : front.flatMap File.content = front.flatMap fun g => d.frames g.name.seq := by
      refine flatMap_congr fun g hg => h.content g (hfiles ▸ mem_append_left _ hg) ?_
      intro good' heq
      have hname : f.name = g.name := congrArg Prod.fst (Option.some.inj (htorn.symm.trans heq))
      exact absurd (hname ▸ hfront g hg) (Nat.lt_irrefl _)
    refine ⟨t, ?_, fun _ => ⟨p, hp, hprefix, f, ?_, ?_⟩⟩
    · rw [Disk.bytes, hfiles, flatMap_append, flatMap_singleton, hrest, hcontent,
        ← hwritten, append_assoc]
    · rw [hfiles, List.getLast?_append]
      rfl
    · rw [hcontent]
      exact suffix_append _ _
  · refine ⟨[], ?_, fun hne => absurd rfl hne⟩
    rw [append_nil, ← h.frames_eq, Disk.bytes]
    refine flatMap_congr fun f hf => h.content f hf fun good heq => ?_
    exact htorn ⟨f.name, good, heq, f, hf, rfl⟩

/-! ## Which files there are -/

theorem Disk.name_update {f' : File} {g : Bytes → Bytes} (h : f' ∈ (d.update n g).files) :
    ∃ f ∈ d.files, f.name = f'.name := by
  have hmem : f'.name ∈ (d.update n g).files.map File.name := mem_map_of_mem h
  rw [Disk.map_name_update] at hmem
  exact mem_map.mp hmem

theorem Disk.exists_update (h : f ∈ d.files) (n : Name) (g : Bytes → Bytes) :
    ∃ f' ∈ (d.update n g).files, f'.name = f.name := by
  have hmem : f.name ∈ d.files.map File.name := mem_map_of_mem h
  rw [← Disk.map_name_update d n g] at hmem
  exact mem_map.mp hmem

theorem Layout.update (h : Layout seq d) (n : Name) (g : Bytes → Bytes) :
    Layout seq (d.update n g) := { h with
  ascending := by
    have hnames : (d.files.map File.name).Pairwise fun a b => a.seq < b.seq :=
      pairwise_map.mpr h.ascending
    rw [← Disk.map_name_update d n g, pairwise_map] at hnames
    exact hnames
  numbered f' hf' := by
    obtain ⟨f, hf, heq⟩ := Disk.name_update hf'
    exact heq ▸ h.numbered f hf
  present f' hf' := by
    obtain ⟨f, hf, heq⟩ := Disk.name_update hf'
    exact heq ▸ h.present f hf
  missing r hr hkept := by
    obtain ⟨f, hf, heq⟩ := h.missing r hr hkept
    obtain ⟨f', hf', hname⟩ := Disk.exists_update hf n g
    exact ⟨f', hf', hname ▸ heq⟩ }

theorem Layout.nextSeq (h : Layout seq d) : Layout (seq + 1) d := { h with
  numbered f hf := Nat.le_succ_of_le (h.numbered f hf)
  logged r hr := Nat.le_succ_of_le (h.logged r hr)
  gone n hn := Nat.le_succ_of_le (h.gone n hn) }

theorem Disk.of_mem_add (h : f ∈ (d.add n).files) : f ∈ d.files ∨ f = ⟨n, []⟩ :=
  (mem_append.mp h).imp_right mem_singleton.mp

theorem Layout.add (h : Layout seq d) (epoch : ℕ) : Layout (seq + 1) (d.add ⟨seq + 1, epoch⟩) :=
  { h with
  ascending := by
    refine pairwise_append.mpr ⟨h.ascending, pairwise_singleton _ _, fun f hf g hg => ?_⟩
    rw [mem_singleton.mp hg]
    exact Nat.lt_succ_of_le (h.numbered f hf)
  numbered f hf := by
    rcases Disk.of_mem_add hf with hf | rfl
    · exact h.nextSeq.numbered f hf
    · exact Nat.le_refl _
  logged := h.nextSeq.logged
  gone := h.nextSeq.gone
  present f hf := by
    rcases Disk.of_mem_add hf with hf | rfl
    · exact h.present f hf
    · exact fun hgone => absurd (h.gone _ hgone) (Nat.not_succ_le_self seq)
  missing r hr hkept := by
    obtain ⟨f, hf, heq⟩ := h.missing r hr hkept
    exact ⟨f, mem_append_left _ hf, heq⟩ }

theorem Disk.mem_remove {n : ℕ} : f ∈ (d.remove n).files ↔ f ∈ d.files ∧ f.name.seq ≠ n := by
  rw [Disk.remove, mem_filter, decide_eq_true_eq]

theorem Layout.remove (h : Layout seq d) {n : ℕ} (hn : n ≤ seq) :
    Layout seq (d.remove n) := { h with
  ascending := h.ascending.filter _
  numbered f hf := h.numbered f (Disk.mem_remove.mp hf).1
  gone m hm := by
    rcases mem_append.mp hm with hm | hm
    · exact h.gone m hm
    · exact mem_singleton.mp hm ▸ hn
  present f hf hgone := by
    obtain ⟨hf, hne⟩ := Disk.mem_remove.mp hf
    rcases mem_append.mp hgone with hgone | hgone
    · exact h.present f hf hgone
    · exact hne (mem_singleton.mp hgone)
  missing r hr hkept := by
    obtain ⟨hkept, hne⟩ := not_or.mp (mt mem_append.mpr hkept)
    obtain ⟨f, hf, heq⟩ := h.missing r hr hkept
    exact ⟨f, Disk.mem_remove.mpr ⟨hf, fun h => hne (mem_singleton.mpr (heq ▸ h))⟩, heq⟩ }

theorem Layout.record (h : Layout seq d) (hf : f ∈ d.files) (hseq : f.name.seq = seq) (p : Bytes) :
    Layout seq { d with log := d.log ++ [(seq, p)] } := { h with
  ordered := by
    refine pairwise_append.mpr ⟨h.ordered, pairwise_singleton _ _, fun r hr q hq => ?_⟩
    rw [mem_singleton.mp hq]
    exact h.logged r hr
  logged r hr := by
    rcases mem_append.mp hr with hr | hr
    · exact h.logged r hr
    · exact (mem_singleton.mp hr ▸ Nat.le_refl seq)
  missing r hr hkept := by
    rcases mem_append.mp hr with hr | hr
    · exact h.missing r hr hkept
    · exact ⟨f, hf, mem_singleton.mp hr ▸ hseq⟩ }

/-! ## What the files hold -/

theorem Disk.frames_of_log {d' : Disk} {n : ℕ} {p : Bytes} (h : d'.log = d.log ++ [(n, p)])
    (m : ℕ) : d'.frames m = d.frames m ++ if n = m then p else [] := by
  rw [Disk.frames, h, fiber_append, flatMap_append, ← Disk.frames]
  by_cases hnm : n = m
  · subst hnm
    rw [if_pos rfl, fiber_cons_self Prod.fst ((n, p) : ℕ × Bytes) []]
    simp
  · rw [if_neg hnm, fiber_cons_of_ne Prod.fst (a := ((n, p) : ℕ × Bytes)) hnm]
    rfl

theorem Holds.release (h : Holds seq file size torn d) : Holds seq none size torn d := { h with
  tornLast name good htorn := ⟨(h.tornLast name good htorn).1, nofun⟩
  opened := nofun }

/-- A tear can be forgotten once its segment holds whole frames only, or is gone. -/
theorem Holds.forgetTear (h : Holds seq file size (some (name, good)) d)
    (hwhole : ∀ f ∈ d.files, f.name = name → f.content.length ≤ good) :
    Holds seq file size none d := { h with
  content f hf _ := by
    by_cases hname : f.name = name
    · obtain ⟨t, p, -, hcontent, -, hlen⟩ := h.tornTail name good rfl f hf hname
      have hle := hwhole f hf hname
      rw [hcontent, length_append, hlen] at hle
      have hnil : t = [] := eq_nil_of_length_eq_zero (by omega)
      rw [hcontent, hnil, append_nil, hname]
    · refine h.content f hf fun good' heq => hname ?_
      exact (congrArg Prod.fst (Option.some.inj heq)).symm
  tornLast := nofun
  tornTail := nofun }

theorem Holds.restore (h : Holds seq file size (some (name, good)) d) :
    Holds seq none size (some (name, good)) (d.update name (List.take good)) where
  toLayout := h.toLayout.update name _
  content f' hf' hne := by
    rcases Disk.of_mem_update hf' with ⟨hf, -⟩ | ⟨f, hf, hname, rfl⟩
    · exact h.content f' hf hne
    · exact absurd rfl (hne good)
  tornLast name' good' heq := by
    refine ⟨fun f' hf' => ?_, nofun⟩
    obtain ⟨f, hf, hname⟩ := Disk.name_update hf'
    exact hname ▸ (h.tornLast name' good' heq).1 f hf
  tornTail := by
    intro name' good' heq f' hf' hname'
    cases heq
    rcases Disk.of_mem_update hf' with ⟨-, hne⟩ | ⟨f, hf, hname, rfl⟩
    · exact absurd hname' hne
    · obtain ⟨t, p, hp, hcontent, -, hlen⟩ := h.tornTail name good rfl f hf hname
      refine ⟨[], p, hp, ?_, nil_prefix, hlen⟩
      show f.content.take good = d.frames name.seq ++ []
      rw [hcontent, ← hlen, take_left, append_nil]
  opened := nofun

theorem Holds.nextSeq (h : Holds seq none size none d) :
    Holds (seq + 1) none size none d := { h with
  toLayout := h.toLayout.nextSeq
  tornLast := nofun
  tornTail := nofun
  opened := nofun }

theorem Holds.add (h : Holds seq none size none d) (epoch : ℕ) :
    Holds (seq + 1) (some ⟨seq + 1, epoch⟩) 0 none (d.add ⟨seq + 1, epoch⟩) := by
  have hframes : d.frames (seq + 1) = [] := by
    have hfiber : fiber Prod.fst (seq + 1) d.log = [] := fiber_eq_nil Prod.fst fun r hr => by
      have hle := h.logged r hr
      omega
    rw [Disk.frames, hfiber, flatMap_nil]
  refine ⟨h.toLayout.add epoch, ?_, nofun, nofun, ?_⟩
  · intro f hf hne
    rcases Disk.of_mem_add hf with hf | rfl
    · exact h.content f hf nofun
    · exact hframes.symm
  · rintro n ⟨⟩
    refine ⟨rfl, ⟨_, mem_append_right _ (mem_singleton_self _), rfl⟩, ?_⟩
    exact (congrArg List.length hframes).symm

theorem Holds.landWhole (h : Holds seq (some n) size none d) (p : Bytes) :
    Holds seq (some n) (size + p.length) none
      { d.update n (· ++ p) with log := d.log ++ [(n.seq, p)] } := by
  obtain ⟨hseq, ⟨f, hf, hname⟩, hsize⟩ := h.opened n rfl
  obtain ⟨f', hf', hname'⟩ := Disk.exists_update hf n (· ++ p)
  have hframes : ∀ m, Disk.frames { d.update n (· ++ p) with log := d.log ++ [(n.seq, p)] } m =
      d.frames m ++ if n.seq = m then p else [] := Disk.frames_of_log rfl
  refine ⟨?_, ?_, nofun, nofun, ?_⟩
  · exact hseq ▸ (hseq ▸ h.toLayout.update n (· ++ p)).record hf' (by rw [hname', hname]) p
  · intro g hg _
    rw [hframes]
    rcases Disk.of_mem_update (d := d) (g := (· ++ p)) hg with ⟨hg, hne⟩ | ⟨g, hmem, rfl, rfl⟩
    · -- numbers are different as names are
      have hother : n.seq ≠ g.name.seq := fun heq =>
        hne (hname ▸ congrArg File.name (h.ascending.inj hf hg (hname ▸ heq))).symm
      rw [if_neg hother, append_nil]
      exact h.content g hg nofun
    · show g.content ++ p = _
      rw [if_pos rfl, h.content g hmem nofun]
  · rintro _ ⟨⟩
    refine ⟨hseq, ⟨f', hf', hname'.trans hname⟩, ?_⟩
    rw [hframes, if_pos rfl, length_append, hsize]

theorem Holds.landPart (h : Holds seq (some n) size none d) (k : ℕ) (p : Bytes) :
    Holds seq (some n) size (some (n, size))
      { d.update n (· ++ p.take k) with failed := d.failed ++ [p] } := by
  obtain ⟨hseq, ⟨f, hf, hname⟩, hsize⟩ := h.opened n rfl
  obtain ⟨f', hf', hname'⟩ := Disk.exists_update hf n (· ++ p.take k)
  have hlayout := h.toLayout.update n (· ++ p.take k)
  refine ⟨{ hlayout with }, ?_, ?_, ?_, ?_⟩
  · intro g hg hne
    rcases Disk.of_mem_update (d := d) (g := (· ++ p.take k)) hg with ⟨hg, -⟩ | ⟨g, hmem, rfl, rfl⟩
    · exact h.content g hg nofun
    · exact absurd rfl (hne size)
  · rintro name good ⟨⟩
    refine ⟨fun g hg => hseq ▸ hlayout.numbered g hg, ?_⟩
    rintro _ ⟨⟩
    rfl
  · rintro name good ⟨⟩ g hg hgname
    rcases Disk.of_mem_update (d := d) (g := (· ++ p.take k)) hg with ⟨-, hne⟩ | ⟨g, hmem, rfl, rfl⟩
    · exact absurd hgname hne
    · refine ⟨p.take k, p, mem_append_right _ (mem_singleton_self p), ?_,
        take_prefix _ _, hsize.symm⟩
      exact congrArg (· ++ p.take k) (h.content g hmem nofun)
  · rintro _ ⟨⟩
    exact ⟨hseq, ⟨f', hf', hname'.trans hname⟩, hsize⟩

theorem Holds.remove (h : Holds seq file size torn d) {n : ℕ} (hn : n ≤ seq)
    (hfile : ∀ m ∈ file, m.seq ≠ n) : Holds seq file size torn (d.remove n) where
  toLayout := h.toLayout.remove hn
  content f hf := h.content f (Disk.mem_remove.mp hf).1
  tornLast name good htorn :=
    ⟨fun f hf => (h.tornLast name good htorn).1 f (Disk.mem_remove.mp hf).1,
      (h.tornLast name good htorn).2⟩
  tornTail name good htorn f hf := h.tornTail name good htorn f (Disk.mem_remove.mp hf).1
  opened m hm := by
    obtain ⟨hseq, ⟨f, hf, hname⟩, hsize⟩ := h.opened m hm
    exact ⟨hseq, ⟨f, Disk.mem_remove.mpr ⟨hf, hname ▸ hfile m hm⟩, hname⟩, hsize⟩

end

/-! ## Cuts -/

theorem Disk.onlyCut_restore (d : Disk) (name : Name) (good : ℕ) :
    Disk.OnlyCut (d.update name (List.take good)) d := by
  refine ⟨rfl, fun f' hf' => ?_⟩
  rcases Disk.of_mem_update hf' with ⟨hf, -⟩ | ⟨f, hf, hname, rfl⟩
  · exact ⟨f', hf, rfl, prefix_refl _⟩
  · exact ⟨f, hf, hname, take_prefix _ _⟩

theorem Disk.onlyCut_remove (d : Disk) (n : ℕ) : Disk.OnlyCut (d.remove n) d :=
  ⟨rfl, fun f' hf' => ⟨f', (Disk.mem_remove.mp hf').1, rfl, prefix_refl _⟩⟩

end Torn
end OtelStorage.Wal
