import OtelStorage.Signal.Codec

/-!
# Series, values and matchers

A series is identified by its resource's attributes, its scope and its own attributes.  A matcher is
a predicate on the value of a label; a series that does not carry the label shows it the empty
value.  `matchesSeries` is how the requester of a routed read narrows the answer: it looks a label
up in one place after the other and stops at the first.
-/

namespace OtelStorage.Query

open Delimited Signal

/-- A text as bytes. -/
def ascii (s : String) : Bytes := s.toList.map fun c => Fin.ofNat 256 c.toNat

/-- The label of a scope's name. -/
def labelScopeName : Bytes := ascii "otel.scope.name"

/-- The label of a scope's version. -/
def labelScopeVersion : Bytes := ascii "otel.scope.version"

/-- A label's value is this one. -/
structure EqualMatcher where
  name : Bytes
  value : Bytes
  deriving DecidableEq

/-- A predicate on the value of a label, with the equality it stands for if it is one. -/
structure Matcher where
  name : Bytes
  accepts : Value → Bool
  spec : Option EqualMatcher

variable (s : Series) {key name : Bytes} {v : Value} {a : Attributes}

/-- The value of a series' label: its own attributes come first, then its resource's, then its
scope's, then the scope's name and version. -/
def seriesLabel (name : Bytes) : Option Value :=
  match s.attributes.get name with
  | some v => some v
  | none =>
    match s.resource.attributes.get name with
    | some v => some v
    | none =>
      match s.scope.attributes.get name with
      | some v => some v
      | none =>
        if name = labelScopeName then
          if s.scope.name ≠ [] then some (.str s.scope.name) else none
        else if name = labelScopeVersion then
          if s.scope.version ≠ [] then some (.str s.scope.version) else none
        else none

/-- A series meets every matcher. -/
def matchesSeries (matchers : List Matcher) : Bool :=
  matchers.all fun m => m.accepts ((seriesLabel s m.name).getD .empty)

/-! ## The labels of a series -/

/-- A reserved label, unless it is empty. -/
def reserved (name value : Bytes) : Attributes := if value ≠ [] then [(name, .str value)] else []

/-- Every label a series carries, as the index registers them. -/
def labels : Attributes :=
  s.resource.attributes ++ s.scope.attributes ++ s.attributes ++
    reserved labelScopeName s.scope.name ++ reserved labelScopeVersion s.scope.version

/-- No label is carried with two values. -/
def OneValued : Prop :=
  ∀ name v w, (name, v) ∈ labels s → (name, w) ∈ labels s → v = w

theorem Attributes.mem_of_get (h : a.get key = some v) : (key, v) ∈ a := by
  obtain ⟨pre, post, rfl, -⟩ := List.lookup_eq_some_iff.mp h
  exact List.mem_append_right pre List.mem_cons_self

theorem Attributes.get_eq_none (h : a.get key = none) (v : Value) : (key, v) ∉ a := by
  intro hmem
  have hne := List.lookup_eq_none_iff.mp h (key, v) hmem
  simp at hne

theorem mem_reserved {value : Bytes} :
    (key, v) ∈ reserved name value ↔ value ≠ [] ∧ key = name ∧ v = .str value := by
  rw [reserved]
  split
  · next h => simp [h]
  · next h => simp [not_not.mp h]

variable {s}

theorem mem_labels :
    (key, v) ∈ labels s ↔ (key, v) ∈ s.attributes ∨ (key, v) ∈ s.resource.attributes ∨
      (key, v) ∈ s.scope.attributes ∨ (key, v) ∈ reserved labelScopeName s.scope.name ∨
      (key, v) ∈ reserved labelScopeVersion s.scope.version := by
  simp only [labels, List.mem_append]
  tauto

/-- **What is looked up is carried.** -/
theorem mem_labels_of_seriesLabel (h : seriesLabel s name = some v) : (name, v) ∈ labels s := by
  rw [mem_labels, mem_reserved, mem_reserved]
  rw [seriesLabel] at h
  split at h
  · next hget => exact .inl (Attributes.mem_of_get (hget.trans h))
  split at h
  · next hget => exact .inr (.inl (Attributes.mem_of_get (hget.trans h)))
  split at h
  · next hget => exact .inr (.inr (.inl (Attributes.mem_of_get (hget.trans h))))
  split at h
  · next hname =>
    split at h
    · next hne => exact .inr (.inr (.inr (.inl ⟨hne, hname, (Option.some.inj h).symm⟩)))
    · cases h
  split at h
  · next hname =>
    split at h
    · next hne =>
      exact .inr (.inr (.inr (.inr ⟨hne, hname, (Option.some.inj h).symm⟩)))
    · cases h
  · cases h

/-- **What is not found is not carried.** -/
theorem not_mem_labels_of_seriesLabel (h : seriesLabel s name = none) (v : Value) :
    (name, v) ∉ labels s := by
  rw [mem_labels, mem_reserved, mem_reserved]
  rw [seriesLabel] at h
  split at h
  · cases h
  next hown =>
  split at h
  · cases h
  next hres =>
  split at h
  · cases h
  next hscope =>
  rintro (hm | hm | hm | ⟨hne, rfl, -⟩ | ⟨hne, rfl, -⟩)
  · exact Attributes.get_eq_none hown v hm
  · exact Attributes.get_eq_none hres v hm
  · exact Attributes.get_eq_none hscope v hm
  · rw [if_pos rfl, if_pos hne] at h
    cases h
  · have hother : labelScopeVersion ≠ labelScopeName := by decide
    rw [if_neg hother, if_pos rfl, if_pos hne] at h
    cases h

end OtelStorage.Query
