import OtelStorage.Metrics.Read

/-!
# Planning a read

A read of some series first snapshots its sources: the parts whose bounds meet the window, unless
the recent tier covers it, and for each series the in-window samples of three buffers, oldest first:
the recent tier, the buffers of a flush in progress, and the head.

A buffer holds its samples as they arrived.  They are sorted for the read, equal timestamps in any
order: the sort of the source is not stable.
-/

namespace OtelStorage.Metrics

open Fibers

variable {ID F : Type*}

/-- A sort by timestamp as the standard library documents it: nothing is said of equal ones. -/
structure SortFunc (F : Type*) where
  sort : List (Sample F) → List (Sample F)
  perm : ∀ l, (sort l).Perm l
  ordered : ∀ l, Ordered Sample.ts (sort l)

/-- A sort. -/
def SortFunc.insertion (F : Type*) : SortFunc F where
  sort l := l.insertionSort fun a b => a.ts ≤ b.ts
  perm l := List.perm_insertionSort _ l
  ordered l :=
    haveI : Std.Total fun a b : Sample F => a.ts ≤ b.ts := ⟨fun a b => le_total a.ts b.ts⟩
    haveI : IsTrans (Sample F) fun a b => a.ts ≤ b.ts := ⟨fun _ _ _ => le_trans⟩
    List.pairwise_insertionSort _ l

/-- No timestamp is below the one before. -/
def ascending : List (Sample F) → Bool
  | [] => true
  | [_] => true
  | s :: u :: rest => decide (s.ts ≤ u.ts) && ascending (u :: rest)

/-- The samples of a buffer in a window, as they stand. -/
def windowCopy (buf : List (Sample F)) (start stop : ℤ) : List (Sample F) :=
  buf.filter fun s => start ≤ s.ts ∧ s.ts ≤ stop

variable (order : SortFunc F) (buf : List (Sample F)) (start stop : ℤ) {s : Sample F}

/-- The samples of a buffer in a window, sorted unless they are in order. -/
def sortedWindow (buf : List (Sample F)) (start stop : ℤ) : List (Sample F) :=
  if ascending buf then windowCopy buf start stop else windowCopy (order.sort buf) start stop

/-- The in-memory sources of a read, oldest first. -/
structure Buffers (ID F : Type*) where
  recent : ID → List (Sample F)
  flushing : ID → List (Sample F)
  head : ID → List (Sample F)

/-- The in-memory batches of a series, oldest source first. -/
def Buffers.memBatches (b : Buffers ID F) (id : ID) (start stop : ℤ) :
    List (List (Sample F)) :=
  [b.recent id, b.flushing id, b.head id].map fun buf => sortedWindow order buf start stop

/-- The parts a read looks at: none when it starts inside the recent tier. -/
def acquired {P : Type*} (recentEnabled : Bool) (recentMin : ℤ) (parts : List P) (start : ℤ) :
    List P :=
  if !recentEnabled || decide (start < recentMin) then parts else []

/-! ## Sorted windows -/

theorem ascending_iff {l : List (Sample F)} : ascending l = true ↔ Ordered Sample.ts l := by
  induction l with
  | nil => exact ⟨fun _ => .nil, fun _ => rfl⟩
  | cons s l ih =>
    cases l with
    | nil => exact ⟨fun _ => List.pairwise_singleton _ _, fun _ => rfl⟩
    | cons u l =>
      rw [ascending, Bool.and_eq_true, decide_eq_true_eq, ih]
      constructor
      · rintro ⟨hle, hord⟩
        exact List.pairwise_cons.mpr ⟨fun v hv => hle.trans (hord.head_le hv), hord⟩
      · intro h
        exact ⟨h.head_le (List.mem_cons_of_mem s List.mem_cons_self), h.of_cons⟩

theorem mem_windowCopy {buf : List (Sample F)} {start stop : ℤ} :
    s ∈ windowCopy buf start stop ↔ s ∈ buf ∧ start ≤ s.ts ∧ s.ts ≤ stop := by
  rw [windowCopy, List.mem_filter, decide_eq_true_eq]

theorem ordered_sortedWindow : Ordered Sample.ts (sortedWindow order buf start stop) := by
  rw [sortedWindow]
  split
  · next h => exact (ascending_iff.mp h).sublist List.filter_sublist
  · exact (order.ordered buf).sublist List.filter_sublist

theorem sortedWindow_perm :
    (sortedWindow order buf start stop).Perm (windowCopy buf start stop) := by
  rw [sortedWindow]
  split
  · exact .refl _
  · exact (order.perm buf).filter _

theorem mem_sortedWindow {order : SortFunc F} {buf : List (Sample F)} {start stop : ℤ} :
    s ∈ sortedWindow order buf start stop ↔ s ∈ buf ∧ start ≤ s.ts ∧ s.ts ≤ stop :=
  (sortedWindow_perm order buf start stop).mem_iff.trans mem_windowCopy

theorem window_sortedWindow :
    window (sortedWindow order buf start stop) start stop = sortedWindow order buf start stop := by
  rw [window_eq_filter (ordered_sortedWindow order buf start stop)]
  exact List.filter_eq_self.mpr fun s hs => decide_eq_true (mem_sortedWindow.mp hs).2

end OtelStorage.Metrics
