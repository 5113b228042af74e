import OtelStorage.Wal.Salvage

/-!
# Repairing the last segment

A writer that resumes a directory cuts the last segment back to where a salvaging walk ends, so that
the tail a crash left does not become damage in the middle of the log.  What is cut starts with a
frame cut short.  A frame behind it is lost only when it stands alone, between what could not be
read and another frame cut short: the walk does not trust such a frame, and the cut takes it.  Those
are the only frames a repair erases, and repairing again changes nothing.

The second walk is over fewer bytes, where the last frame before the cut is followed by the end; so
a frame the first walk did not trust may be trusted now.  It ends where the segment ends, so the
second walk does too.
-/

namespace OtelStorage.Wal

open Delimited Wire List

/-! ## The checksum of the source -/

/-- One bit of the division by the polynomial. -/
def crcShift (c : UInt32) : UInt32 := if c &&& 1 = 1 then (c >>> 1) ^^^ 0x82F63B78 else c >>> 1

/-- CRC-32C. -/
def castagnoli (bs : Bytes) : UInt32 :=
  ~~~(bs.foldl (fun c b => crcShift^[8] (c ^^^ UInt32.ofNat b.val)) 0xFFFFFFFF)

example : castagnoli [49, 50, 51, 52, 53, 54, 55, 56, 57] = 0xE3069283 := by decide +kernel

section

variable (crc : Bytes → UInt32)

/-- A walk that hands nothing on and goes past whatever it reports. -/
def scan (total : ℕ) (rest : Bytes) (budget : ℤ) : Walked Unit Unit :=
  walkFrom crc none (some fun _ _ _ s => .ok s) total rest budget ()

/-- The walk that decides where the segment is cut. -/
def repairScan (data : Bytes) : Walked Unit Unit := scan crc data.length data scanCRCBudget

/-- The content of the last segment after it was repaired. -/
def repair (data : Bytes) : Bytes :=
  let n := (repairScan crc data).offset
  if n = data.length then data else data.take n

end

/-! ## Where a scan ends -/

section

variable {crc : Bytes → UInt32} {total : ℕ} {rest next data : Bytes} {budget left : ℤ}
  {err : FrameError}

theorem scan_nil : (scan crc total [] budget).offset = total := by
  rw [scan, walkFrom_nil]

theorem scan_frame {f : Frame} (hread : readFrame crc rest = .ok f) :
    (scan crc total rest budget).offset = (scan crc total (rest.drop f.size) budget).offset := by
  rw [scan, walkFrom_frame hread rfl]
  rfl

theorem scan_resync (hrest : rest ≠ []) (hread : readFrame crc rest = .error err)
    (hsync : resync crc rest.tail budget = (some next, left)) :
    (scan crc total rest budget).offset = (scan crc total next left).offset := by
  rw [scan, walkFrom_resync hrest hread hsync rfl]
  rfl

theorem scan_lost (hrest : rest ≠ [])
    (hread : readFrame crc rest = .error err) (hsync : resync crc rest.tail budget = (none, left)) :
    (scan crc total rest budget).offset = if err = .eof then total - rest.length else total := by
  rw [scan, walkFrom_lost hrest hread hsync]
  split
  · rfl
  · rfl

theorem salvaged_scan (crc : Bytes → UInt32) (h : rest <:+ data) (budget : ℤ) :
    Salvaged crc none (fun _ _ _ s => .ok s) data (data.length - rest.length) ()
      (scan crc data.length rest budget) := by
  have hnone : ∀ h' ∈ (none : Option (Handlers Unit Unit)), h'.Quiet := nofun
  exact salvaged_walkFrom crc hnone (fun _ _ _ s => ⟨s, rfl⟩) data _ rest rfl h budget ()

theorem le_scan (h : rest <:+ data) :
    data.length - rest.length ≤ (scan crc data.length rest budget).offset :=
  (salvaged_scan crc h budget).tiles.le

/-! ## Scanning again after the cut -/

theorem readFrame_take_error (hread : readFrame crc rest = .error err) (k : ℕ) :
    ∃ err', readFrame crc (rest.take k) = .error err' := by
  cases hcut : readFrame crc (rest.take k) with
  | error err' => exact ⟨err', rfl⟩
  | ok f =>
    have hext := readFrame_extend hcut (rest.drop k)
    rw [take_append_drop, hread] at hext
    cases hext

/-- A search over cut bytes, with at least the budget, finds the frame found before if the cut
leaves it trusted, or an earlier one that ends where the bytes end. -/
theorem resync_take {bs : Bytes} {budget' : ℤ} {k : ℕ}
    (h : resync crc bs budget = (some next, left)) (hb : budget ≤ budget')
    (htrusted : trusted crc (next.take (k - (bs.length - next.length))) = true) :
    ∃ next' left', resync crc (bs.take k) budget' = (some next', left') ∧
      ((next' = next.take (k - (bs.length - next.length)) ∧ left ≤ left') ∨
        ∃ f, readFrame crc next' = .ok f ∧ f.size = next'.length) := by
  induction bs generalizing budget budget' k with
  | nil => cases h
  | cons b bs ih =>
    have hkpos : k - ((b :: bs).length - next.length) ≠ 0 := by
      intro hzero
      rw [hzero, take_zero] at htrusted
      cases htrusted
    obtain ⟨j, rfl⟩ : ∃ j, k = j + 1 := ⟨k - 1, by omega⟩
    rw [take_succ_cons, resync]
    -- What the whole bytes do when they go on to the next offset, the cut ones do.
    have hgo : ∀ mid mid', mid ≤ mid' → resync crc bs mid = (some next, left) →
        ∃ next' left', resync crc (bs.take j) mid' = (some next', left') ∧
          ((next' = next.take (j + 1 - ((b :: bs).length - next.length)) ∧ left ≤ left') ∨
            ∃ f, readFrame crc next' = .ok f ∧ f.size = next'.length) := by
      intro mid mid' hmid hrec
      have hle := (resync_suffix hrec).length_le
      have hplace : j + 1 - ((b :: bs).length - next.length) = j - (bs.length - next.length) := by
        rw [length_cons]
        omega
      rw [hplace] at htrusted ⊢
      exact ih hrec hmid htrusted
    cases hcut : announced (b :: bs.take j) with
    | none =>
      -- Nothing is announced any more: the whole bytes went past here, on no more budget.
      dsimp only
      rw [resync] at h
      split at h
      · exact hgo budget budget' hb h
      next n bodyLen ha =>
      dsimp only at h
      split at h
      · cases h
      split at h
      · cases h
        rw [Nat.sub_self, Nat.sub_zero, take_succ_cons] at htrusted
        rw [trusted, readFrame_of_none hcut] at htrusted
        cases htrusted
      · exact hgo _ budget' (by omega) h
    | some p =>
      obtain ⟨n, bodyLen⟩ := p
      have hwhole : announced (b :: bs) = some (n, bodyLen) := by
        have hext := announced_extend hcut (bs.drop j)
        rwa [cons_append, take_append_drop] at hext
      dsimp only
      rw [resync, hwhole] at h
      dsimp only at h
      split at h
      · cases h
      next hleft =>
      rw [if_neg (by omega)]
      split
      · next htr =>
        -- Trusted after the cut: by the frame behind it as before, or by the new end.
        obtain ⟨f, hread, hend | ⟨g, hg⟩⟩ := trusted_iff.mp htr
        · exact ⟨_, _, rfl, .inr ⟨f, hread, hend⟩⟩
        have hread' := readFrame_extend hread (bs.drop j)
        have hsize := (readFrame_size hread).2
        have hg' := readFrame_extend hg (bs.drop j)
        rw [← drop_append_of_le_length hsize] at hg'
        rw [cons_append, take_append_drop] at hread' hg'
        have hbefore : trusted crc (b :: bs) = true :=
          trusted_iff.mpr ⟨f, hread', .inr ⟨g, hg'⟩⟩
        rw [if_pos hbefore] at h
        cases h
        refine ⟨_, _, rfl, .inl ⟨?_, by omega⟩⟩
        rw [Nat.sub_self, Nat.sub_zero, take_succ_cons]
      · next htr =>
        split at h
        · cases h
          rw [Nat.sub_self, Nat.sub_zero, take_succ_cons] at htrusted
          exact absurd htrusted htr
        · exact hgo _ _ (by omega) h

/-- A trusted frame a scan went past stays trusted when the bytes behind the scan are cut. -/
theorem trusted_take (h : next <:+ data) (htrusted : trusted crc next = true)
    (hend : (scan crc data.length next left).offset < data.length) :
    trusted crc (next.take ((scan crc data.length next left).offset -
      (data.length - next.length))) = true := by
  obtain ⟨f, hread, hwhole | ⟨g, hg⟩⟩ := trusted_iff.mp htrusted
  · rw [scan_frame hread, hwhole, drop_length, scan_nil] at hend
    exact absurd hend (Nat.lt_irrefl _)
  have hle := h.length_le
  have hf := readFrame_size hread
  have hgsize := readFrame_size hg
  have hplace : data.length - next.length + f.size + g.size ≤
      (scan crc data.length next left).offset := by
    rw [scan_frame hread, scan_frame hg]
    have hsuffix : (next.drop f.size).drop g.size <:+ data :=
      ((drop_suffix _ _).trans (drop_suffix _ _)).trans h
    have hge : data.length - ((next.drop f.size).drop g.size).length ≤
        (scan crc data.length ((next.drop f.size).drop g.size) left).offset := le_scan hsuffix
    rw [length_drop, length_drop] at hge
    rw [length_drop] at hgsize
    omega
  refine trusted_iff.mpr ⟨f, readFrame_take hread (by omega), .inr ⟨g, ?_⟩⟩
  rw [drop_take]
  exact readFrame_take hg (by omega)

/-- **Cut where a scan ended, the bytes are scanned to their end.** -/
theorem scan_take (crc : Bytes → UInt32) (data : Bytes) (n : ℕ) (hn : n < data.length) :
    ∀ (k : ℕ) (rest : Bytes), rest.length = k → rest <:+ data → ∀ budget budget' : ℤ,
      budget ≤ budget' → (scan crc data.length rest budget).offset = n →
      (scan crc n (rest.take (n - (data.length - rest.length))) budget').offset = n := by
  intro k
  induction k using Nat.strong_induction_on with
  | _ k ih =>
    intro rest hk hsuffix budget budget' hb hscan
    have hle := hsuffix.length_le
    have hstart : data.length - rest.length ≤ n := hscan ▸ le_scan hsuffix
    by_cases hrest : rest = []
    · subst hrest
      rw [scan_nil] at hscan
      omega
    have hpos := length_pos_iff.mpr hrest
    cases hread : readFrame crc rest with
    | ok f =>
      have hsize := readFrame_size hread
      have hsuffix' : rest.drop f.size <:+ data := (drop_suffix _ _).trans hsuffix
      have hlen : (rest.drop f.size).length = rest.length - f.size := length_drop
      rw [scan_frame hread] at hscan
      have hstart' : data.length - (rest.drop f.size).length ≤ n := hscan ▸ le_scan hsuffix'
      rw [scan_frame (readFrame_take hread (by omega)), drop_take]
      have hplace : n - (data.length - rest.length) - f.size =
          n - (data.length - (rest.drop f.size).length) := by omega
      rw [hplace]
      exact ih _ (by omega) _ rfl hsuffix' budget budget' hb hscan
    | error err =>
      rcases hsync : resync crc rest.tail budget with ⟨next, left⟩
      cases next with
      | none =>
        rw [scan_lost hrest hread hsync] at hscan
        split at hscan
        · rw [hscan, Nat.sub_self, take_zero, scan_nil]
        · omega
      | some next =>
        have hnextTail := resync_suffix hsync
        have hnextLe := hnextTail.length_le
        rw [length_tail] at hnextLe
        have hnextData : next <:+ data := (hnextTail.trans (tail_suffix rest)).trans hsuffix
        rw [scan_resync hrest hread hsync] at hscan
        have hnextStart : data.length - next.length ≤ n := hscan ▸ le_scan hnextData
        have htrusted := trusted_take hnextData (resync_trusted hsync) (hscan ▸ hn)
        rw [hscan] at htrusted
        have hkept : (rest.take (n - (data.length - rest.length))).tail =
            rest.tail.take (n - (data.length - rest.length) - 1) := by
          rw [← drop_one, ← drop_one, drop_take]
        have hplace : n - (data.length - rest.length) - 1 - (rest.tail.length - next.length) =
            n - (data.length - next.length) := by
          rw [length_tail]
          omega
        obtain ⟨next', left', hsync', hfound⟩ := resync_take hsync hb (hplace ▸ htrusted)
        obtain ⟨err', hread'⟩ := readFrame_take_error hread (n - (data.length - rest.length))
        have hne : rest.take (n - (data.length - rest.length)) ≠ [] := by
          rw [← length_pos_iff, length_take]
          omega
        rw [scan_resync hne hread' (hkept ▸ hsync')]
        rcases hfound with ⟨rfl, hleft⟩ | ⟨f, hf, hend⟩
        · rw [hplace]
          exact ih _ (by omega) next rfl hnextData left left' hleft hscan
        · rw [scan_frame hf, hend, drop_length, scan_nil]

theorem length_repair (h : repair crc data ≠ data) :
    (repairScan crc data).offset < data.length ∧
      repair crc data = data.take (repairScan crc data).offset ∧
      (repair crc data).length = (repairScan crc data).offset := by
  have hall : (repairScan crc data).offset ≠ data.length := fun heq => h (if_pos heq)
  have hlt := Nat.lt_of_le_of_ne (salvaged_scan crc (suffix_refl data) scanCRCBudget).stop hall
  have hcut : repair crc data = data.take (repairScan crc data).offset := if_neg hall
  rw [hcut, length_take]
  exact ⟨hlt, rfl, Nat.min_eq_left (Nat.le_of_lt hlt)⟩

theorem repair_repair (crc : Bytes → UInt32) (data : Bytes) :
    repair crc (repair crc data) = repair crc data := by
  by_cases hsame : repair crc data = data
  · rw [hsame, hsame]
  obtain ⟨hlt, hcut, hlen⟩ := length_repair hsame
  have hagain := scan_take crc data _ hlt data.length data rfl (suffix_refl data)
    scanCRCBudget scanCRCBudget (Int.le_refl _) rfl
  rw [Nat.sub_self, Nat.sub_zero, ← hcut] at hagain
  refine if_pos ?_
  rw [repairScan, hlen]
  exact hagain

/-- A scan that kept to its budget has no trusted frame behind where it ended. -/
theorem not_trusted_of_cut (hcut : (repairScan crc data).offset < data.length)
    (hbudget : 0 ≤ (repairScan crc data).budget) {off : ℕ}
    (hoff : (repairScan crc data).offset ≤ off) : trusted crc (data.drop off) = false := by
  obtain ⟨heof, left, hsync⟩ := (salvaged_scan crc (suffix_refl data) scanCRCBudget).torn hcut
  by_cases heq : (repairScan crc data).offset = off
  · subst heq
    rw [trusted, repairScan, heof]
  refine resync_none hsync hbudget ?_
  obtain ⟨d, rfl⟩ : ∃ d, off = (repairScan crc data).offset + 1 + d :=
    ⟨off - ((repairScan crc data).offset + 1), by omega⟩
  rw [← drop_drop]
  exact drop_suffix _ _

/-- **A repair cuts only what no reader trusts.**  When the scan of a segment that is cut kept to
its budget, the cut is at a frame cut short, and a whole frame behind it that checks is followed
neither by the end of the segment nor by another such frame; and a second repair changes nothing. -/
theorem repair_cuts_untrusted (crc : Bytes → UInt32) (data : Bytes) :
    (repair crc data ≠ data → 0 ≤ (repairScan crc data).budget →
      readFrame crc (data.drop (repair crc data).length) = .error .eof ∧
      ∀ off, (repair crc data).length ≤ off → ∀ f, readFrame crc (data.drop off) = .ok f →
        f.size ≠ (data.drop off).length ∧ ∀ g, readFrame crc (data.drop (off + f.size)) ≠ .ok g) ∧
    repair crc (repair crc data) = repair crc data := by
  refine ⟨fun hne hbudget => ?_, repair_repair crc data⟩
  obtain ⟨hcut, -, hlen⟩ := length_repair hne
  rw [hlen]
  refine ⟨((salvaged_scan crc (suffix_refl data) scanCRCBudget).torn hcut).1,
    fun off hoff f hf => ?_⟩
  have hnot := not_trusted_of_cut hcut hbudget hoff
  rw [← Bool.not_eq_true, trusted_iff] at hnot
  refine ⟨fun hend => hnot ⟨f, hf, .inl hend⟩, fun g hg => hnot ⟨f, hf, .inr ⟨g, ?_⟩⟩⟩
  rw [drop_drop]
  exact hg

/-- A frame and the first bytes of another, which a crash cut short. -/
def tornSegment : Bytes :=
  appendFrame castagnoli recordSide [7] ++ (appendFrame castagnoli recordSide [8]).take 3

/-- The repair cuts such a segment behind its frame. -/
theorem repair_cuts_untrusted_torn :
    (repair castagnoli tornSegment).length = 7 ∧ tornSegment.length = 10 ∧
      readFrame castagnoli (tornSegment.drop 7) = .error .eof := by
  have hlen : (repair castagnoli tornSegment).length = 7 := by decide +kernel
  have hne : repair castagnoli tornSegment ≠ tornSegment := by decide +kernel
  have htorn := ((repair_cuts_untrusted castagnoli tornSegment).1 hne (by decide +kernel)).1
  rw [hlen] at htorn
  exact ⟨hlen, by decide +kernel, htorn⟩

/-- Two bytes that were never written, a whole frame, and the first bytes of another. -/
def holedSegment : Bytes := [0, 0] ++ tornSegment

/-- The frame behind the hole checks, and the repair cuts the segment in front of the hole. -/
theorem repair_erases_frame :
    readFrame castagnoli (holedSegment.drop 2) = .ok ⟨recordSide, [7], 7⟩ ∧
      0 ≤ (repairScan castagnoli holedSegment).budget ∧ repair castagnoli holedSegment = [] := by
  decide +kernel

end

end OtelStorage.Wal
