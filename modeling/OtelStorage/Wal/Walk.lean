import OtelStorage.Wal.Record

/-!
# Walking a segment

`walk` reads a segment frame by frame.  Strict, it stops at the first thing that is not a frame: at
the start of a frame cut short it ends the log, at a frame that fails its checksum or does not
decode it fails.  Salvaging, it reports what it cannot read and goes on at the next frame it can
trust, the first one from there on that checks and is followed by the end of the segment or by
another frame that checks.  Looking for it costs a checksum for every candidate, out of a budget for
the segment.

The walk is on what is left of the segment, so an offset is the length of the segment less what is
left.  Besides what the source returns, the result lists the steps of the walk, one for every frame
or region stepped over; the steps are what the statements about a walk are about.
-/

namespace OtelStorage.Wal

open Delimited Wire

/-! ## Looking for the next frame -/

/-- How many bytes one segment's walk may checksum in search of a frame. -/
def scanCRCBudget : ℤ := 2 ^ 30

section

variable (crc : Bytes → UInt32)

/-- The frame at the front checks, and so does what follows it unless that is the end. -/
def trusted (src : Bytes) : Bool :=
  match readFrame crc src with
  | .error _ => false
  | .ok f => f.size == src.length || (readFrame crc (src.drop f.size)).isOk

/-- What is left at the first trusted frame, and the budget left; a spent budget trusts nothing. -/
def resync : Bytes → ℤ → Option Bytes × ℤ
  | [], budget => (none, budget)
  | b :: bs, budget =>
      match announced (b :: bs) with
      | none => resync bs budget
      | some (n, bodyLen) =>
          let left := budget - (n + bodyLen : ℕ)
          if left < 0 then (none, left)
          else if trusted crc (b :: bs) then (some (b :: bs), left)
          else resync bs left

end

/-! ## The walk -/

/-- Why a region was not read. -/
inductive Damage
  | crc
  | hole
  | decode (msg : String)
  deriving DecidableEq, Repr

/-- Why a walk stopped. -/
inductive WalkError (E : Type)
  | damage (d : Damage)
  | handler (e : E)
  deriving DecidableEq

/-- What a walk stepped over: a frame it handed on, a frame whose payload it reported, or a region
it could not read and reported. -/
inductive Step
  | frame (off : ℕ) (f : Frame)
  | undecodable (off : ℕ) (f : Frame) (msg : String)
  | unreadable (off n : ℕ) (d : Damage)
  deriving DecidableEq, Repr

/-- Where a step began. -/
def Step.off : Step → ℕ
  | .frame off _ => off
  | .undecodable off _ _ => off
  | .unreadable off _ _ => off

/-- The bytes it went past. -/
def Step.size : Step → ℕ
  | .frame _ f => f.size
  | .undecodable _ f _ => f.size
  | .unreadable _ n _ => n

/-- The outcome of a walk. -/
structure Walked (σ E : Type) where
  offset : ℕ
  state : σ
  error : Option (WalkError E)
  budget : ℤ
  steps : List Step
  deriving DecidableEq

/-- The outcome with a step in front. -/
def Walked.after {σ E : Type} (w : Walked σ E) (step : Step) : Walked σ E :=
  { w with steps := step :: w.steps }

section

variable {σ E : Type} {crc : Bytes → UInt32} {left : ℤ}

/-- Where unreadable regions are reported; its own error stops the walk. -/
abbrev Report (σ E : Type) := ℕ → ℕ → Damage → σ → Except E σ

/-- Hand a frame to the handlers, if any.  A payload that does not decode is reported when salvaging
and an error otherwise; a handler's own error is always one. -/
def dispatchFrame (h : Option (Handlers σ E)) (damaged : Option (Report σ E)) (off : ℕ) (f : Frame)
    (s : σ) : Except (WalkError E) (σ × Step) :=
  match h with
  | none => .ok (s, .frame off f)
  | some h =>
      match dispatch f.typ f.payload h s with
      | .ok s' => .ok (s', .frame off f)
      | .error (.handler e) => .error (.handler e)
      | .error (.decode msg) =>
          match damaged with
          | none => .error (.damage (.decode msg))
          | some report =>
              match report off f.size (.decode msg) s with
              | .error e => .error (.handler e)
              | .ok s' => .ok (s', .undecodable off f msg)

theorem resync_suffix {bs next : Bytes} {budget : ℤ}
    (h : resync crc bs budget = (some next, left)) : next <:+ bs := by
  induction bs generalizing budget with
  | nil => cases h
  | cons b bs ih =>
    rw [resync] at h
    split at h
    · exact (ih h).trans (List.suffix_cons b bs)
    dsimp only at h
    split at h
    · cases h
    · split at h
      · cases h
        exact List.suffix_refl _
      · exact (ih h).trans (List.suffix_cons b bs)

variable (crc)

set_option linter.unusedVariables false in
/-- The walk over what is left of a segment of `total` bytes. -/
def walkFrom (h : Option (Handlers σ E)) (damaged : Option (Report σ E)) (total : ℕ) (rest : Bytes)
    (budget : ℤ) (s : σ) : Walked σ E :=
  if hrest : rest = [] then ⟨total, s, none, budget, []⟩
  else
    let off := total - rest.length
    match hread : readFrame crc rest with
    | .ok f =>
        match dispatchFrame h damaged off f s with
        | .error e => ⟨off, s, some e, budget, []⟩
        | .ok (s', step) => (walkFrom h damaged total (rest.drop f.size) budget s').after step
    | .error err =>
        match damaged with
        | none => ⟨off, s, if err = .eof then none else some (.damage .crc), budget, []⟩
        | some report =>
            match hsync : resync crc rest.tail budget with
            | (none, left) =>
                if err = .eof then ⟨off, s, none, left, []⟩
                else match report off rest.length .crc s with
                  | .error e => ⟨off, s, some (.handler e), left, []⟩
                  | .ok s' => ⟨total, s', none, left, [.unreadable off rest.length .crc]⟩
            | (some next, left) =>
                let d := if err = .eof then .hole else .crc
                let n := rest.length - next.length
                match report off n d s with
                | .error e => ⟨off, s, some (.handler e), left, []⟩
                | .ok s' => (walkFrom h damaged total next left s').after (.unreadable off n d)
termination_by rest.length
decreasing_by
  · have hsize := readFrame_size hread
    rw [List.length_drop]
    omega
  · have hpos := List.length_pos_iff.mpr hrest
    have hle := (resync_suffix hsync).length_le
    rw [List.length_tail] at hle
    omega

/-- The frames of one segment, from its start. -/
def walk (data : Bytes) (h : Option (Handlers σ E)) (damaged : Option (Report σ E)) (s : σ) :
    Walked σ E := walkFrom crc h damaged data.length data scanCRCBudget s

/-! ## One step of the walk -/

section

variable {crc} {h : Option (Handlers σ E)} {damaged : Option (Report σ E)} {total : ℕ}
  {rest : Bytes} {budget : ℤ} {s : σ} {report : Report σ E} {err : FrameError} {f : Frame}

theorem walkFrom_nil : walkFrom crc h damaged total [] budget s = ⟨total, s, none, budget, []⟩ := by
  rw [walkFrom, dif_pos rfl]

theorem ne_nil_of_readFrame (hread : readFrame crc rest = .ok f) : rest ≠ [] := by
  rintro rfl
  have hsize := readFrame_size hread
  rw [List.length_nil] at hsize
  omega

theorem walkFrom_frame {s' : σ} {step : Step} (hread : readFrame crc rest = .ok f)
    (hdispatch : dispatchFrame h damaged (total - rest.length) f s = .ok (s', step)) :
    walkFrom crc h damaged total rest budget s =
      (walkFrom crc h damaged total (rest.drop f.size) budget s').after step := by
  rw [walkFrom, dif_neg (ne_nil_of_readFrame hread)]
  split
  · next f' hread' =>
    rw [hread] at hread'
    cases hread'
    dsimp only
    rw [hdispatch]
  · next err hread' =>
    rw [hread] at hread'
    cases hread'

theorem walkFrom_strict_eof (hrest : rest ≠ []) (hread : readFrame crc rest = .error .eof) :
    walkFrom crc h none total rest budget s = ⟨total - rest.length, s, none, budget, []⟩ := by
  rw [walkFrom, dif_neg hrest]
  split
  · next f hread' =>
    rw [hread] at hread'
    cases hread'
  · next err hread' =>
    rw [hread] at hread'
    cases hread'
    rfl

/-- A salvaging walk where nothing can be trusted any more: the end of the log if the segment stops
there, one last region if a checksum is wrong. -/
theorem walkFrom_lost (hrest : rest ≠ [])
    (hread : readFrame crc rest = .error err) (hsync : resync crc rest.tail budget = (none, left)) :
    walkFrom crc h (some report) total rest budget s =
      if err = .eof then ⟨total - rest.length, s, none, left, []⟩
      else match report (total - rest.length) rest.length .crc s with
        | .error e => ⟨total - rest.length, s, some (.handler e), left, []⟩
        | .ok s' =>
          ⟨total, s', none, left, [.unreadable (total - rest.length) rest.length .crc]⟩ := by
  rw [walkFrom, dif_neg hrest]
  split
  · next f hread' =>
    rw [hread] at hread'
    cases hread'
  next err' hread' =>
  rw [hread] at hread'
  cases hread'
  dsimp only
  split
  · next left' hsync' =>
    rw [hsync] at hsync'
    cases hsync'
    rfl
  · next next left' hsync' =>
    rw [hsync] at hsync'
    cases hsync'

theorem walkFrom_resync {next : Bytes} {s' : σ}
    (hrest : rest ≠ []) (hread : readFrame crc rest = .error err)
    (hsync : resync crc rest.tail budget = (some next, left))
    (hreport : report (total - rest.length) (rest.length - next.length)
      (if err = .eof then .hole else .crc) s = .ok s') :
    walkFrom crc h (some report) total rest budget s =
      (walkFrom crc h (some report) total next left s').after (.unreadable (total - rest.length)
        (rest.length - next.length) (if err = .eof then .hole else .crc)) := by
  rw [walkFrom, dif_neg hrest]
  split
  · next f hread' =>
    rw [hread] at hread'
    cases hread'
  next err' hread' =>
  rw [hread] at hread'
  cases hread'
  dsimp only
  split
  · next left' hsync' =>
    rw [hsync] at hsync'
    cases hsync'
  · next next left' hsync' =>
    rw [hsync] at hsync'
    cases hsync'
    rw [hreport]

end

end

end OtelStorage.Wal
