import OtelStorage.Query.Matching

/-!
# The label index of the record engine

The head of a record engine keeps an inverted index: for a label and a value, the streams that carry
it.  A matcher is resolved by a scan of the values its label takes anywhere; if it accepts the empty
value, the streams without the label are added.

A stream that carries one label twice with two values, on its resource and on its scope say, is
registered under both, and a matcher selects it if it accepts either.  The requester of a routed
read looks one value up.  So the two agree on every list of matchers exactly when the stream carries
no label with two values (`resolve_agrees_iff`).
-/

namespace OtelStorage.Record

open Delimited Signal Query List Function

variable {ID : Type*} [LinearOrder ID] {id : ID} {ls : List (List ID)}

/-- A posting list as it is read: in order, each stream once. -/
def sortDedup (l : List ID) : List ID := (sorted l).dedup

/-- The union of posting lists. -/
def merge (ls : List (List ID)) : List ID := sortDedup ls.flatten

/-- The streams of one list that are not in another. -/
def without (l l' : List ID) : List ID := l.filter (· ∉ l')

/-- The streams that are in every list. -/
def intersect : List (List ID) → List ID
  | [] => []
  | l :: ls => l.filter fun id => ls.all fun l' => id ∈ l'

/-- The inverted index: for a label, the values it takes with the streams of each. -/
structure Postings (ID : Type*) where
  m : Bytes → List (Value × List ID)
  all : List ID

namespace Postings

/-- A stream added under a value. -/
def bump (id : ID) (v : Value) : List (Value × List ID) → List (Value × List ID)
  | [] => [(v, [id])]
  | (u, ids) :: byVal => if u = v then (u, ids ++ [id]) :: byVal else (u, ids) :: bump id v byVal

variable (p : Postings ID) (name : Bytes)

/-- A stream added under no label. -/
def addSeries (id : ID) : Postings ID := { p with all := p.all ++ [id] }

/-- A stream added under a label. -/
def add (id : ID) (name : Bytes) (v : Value) : Postings ID where
  m := update p.m name (bump id v (p.m name))
  all := p.all ++ [id]

/-- The streams whose value of a label is accepted. -/
def select (accepts : Value → Bool) : List ID :=
  merge (((p.m name).filter fun e => accepts e.1).map fun e => sortDedup e.2)

/-- The streams that carry a label. -/
def forName : List ID :=
  merge ((p.m name).map fun e => sortDedup e.2)

/-- The streams that do not carry a label. -/
def withoutName : List ID :=
  without (sortDedup p.all) (p.forName name)

end Postings

/-- The index of a head: the interned texts, and the postings. -/
structure Head (ID : Type*) where
  sym : List Bytes
  post : Postings ID

namespace Head

/-- An empty index. -/
def new : Head ID := ⟨[], ⟨fun _ => [], []⟩⟩

variable (encode : Value → Bytes) (h : Head ID)

/-- A label interned and registered. -/
def addLabel (id : ID) (h : Head ID) (label : Bytes × Value) : Head ID where
  sym := encode label.2 :: label.1 :: h.sym
  post := h.post.add id label.1 label.2

/-- A stream with all its labels. -/
def indexLabels (stream : ID × Series) : Head ID :=
  (labels stream.2).foldl (addLabel encode stream.1) { h with post := h.post.addSeries stream.1 }

/-- The index of some streams. -/
def build (streams : List (ID × Series)) : Head ID :=
  streams.foldl (indexLabels encode) new

/-- The streams one matcher selects; none if no stream can meet it. -/
def lower (m : Matcher) : Option (List ID) :=
  if m.name ∈ h.sym then
    if m.accepts .empty then
      some (merge [h.post.select m.name m.accepts, h.post.withoutName m.name])
    else some (h.post.select m.name m.accepts)
  else if m.accepts .empty then some (sortDedup h.post.all) else none

/-- The streams that meet every matcher. -/
def resolve (matchers : List Matcher) : List ID :=
  if matchers = [] then sortDedup h.post.all
  else
    match matchers.mapM h.lower with
    | none => []
    | some its => intersect its

end Head

/-! ## What the lists hold -/

theorem mem_sortDedup {l : List ID} : id ∈ sortDedup l ↔ id ∈ l := by
  rw [sortDedup, mem_dedup, (sorted_perm l).mem_iff]

theorem mem_merge : id ∈ merge ls ↔ ∃ l ∈ ls, id ∈ l := by
  rw [merge, mem_sortDedup, mem_flatten]

theorem mem_intersect (h : ls ≠ []) : id ∈ intersect ls ↔ ∀ l ∈ ls, id ∈ l := by
  cases ls with
  | nil => exact absurd rfl h
  | cons l ls =>
    rw [intersect, mem_filter, all_eq_true, forall_mem_cons]
    simp only [decide_eq_true_eq]

/-- A stream is registered under a label with a value. -/
def Postings.Registered (p : Postings ID) (id : ID) (name : Bytes) (v : Value) : Prop :=
  ∃ ids, (v, ids) ∈ p.m name ∧ id ∈ ids

namespace Postings

variable {p : Postings ID} {name : Bytes}

theorem mem_select {accepts : Value → Bool} :
    id ∈ p.select name accepts ↔ ∃ v, p.Registered id name v ∧ accepts v = true := by
  simp only [select, mem_merge, mem_map, mem_filter, Registered]
  constructor
  · rintro ⟨l, ⟨⟨v, ids⟩, ⟨he, hacc⟩, rfl⟩, hid⟩
    exact ⟨v, ⟨ids, he, mem_sortDedup.mp hid⟩, hacc⟩
  · rintro ⟨v, ⟨ids, he, hid⟩, hacc⟩
    exact ⟨_, ⟨(v, ids), ⟨he, hacc⟩, rfl⟩, mem_sortDedup.mpr hid⟩

theorem mem_forName : id ∈ p.forName name ↔ ∃ v, p.Registered id name v := by
  simp only [forName, mem_merge, mem_map, Registered]
  constructor
  · rintro ⟨l, ⟨⟨v, ids⟩, he, rfl⟩, hid⟩
    exact ⟨v, ids, he, mem_sortDedup.mp hid⟩
  · rintro ⟨v, ids, he, hid⟩
    exact ⟨_, ⟨(v, ids), he, rfl⟩, mem_sortDedup.mpr hid⟩

theorem mem_withoutName : id ∈ p.withoutName name ↔ id ∈ p.all ∧ ∀ v, ¬ p.Registered id name v := by
  rw [withoutName, without, mem_filter, mem_sortDedup, decide_eq_true_eq, mem_forName, not_exists]

section

omit [LinearOrder ID]

theorem mem_bump {id' : ID} {v v' : Value} {byVal : List (Value × List ID)} :
    (∃ ids, (v', ids) ∈ bump id v byVal ∧ id' ∈ ids) ↔
      (∃ ids, (v', ids) ∈ byVal ∧ id' ∈ ids) ∨ v' = v ∧ id' = id := by
  induction byVal with
  | nil => simp [bump, eq_comm]
  | cons e byVal ih =>
    obtain ⟨u, ids⟩ := e
    rw [bump]
    split
    · next huv =>
      subst huv
      simp only [mem_cons, Prod.mk.injEq]
      constructor
      · rintro ⟨l, ⟨rfl, rfl⟩ | hmem, hid⟩
        · rcases mem_append.mp hid with hid | hid
          · exact .inl ⟨ids, .inl ⟨rfl, rfl⟩, hid⟩
          · exact .inr ⟨rfl, mem_singleton.mp hid⟩
        · exact .inl ⟨l, .inr hmem, hid⟩
      · rintro (⟨l, ⟨rfl, rfl⟩ | hmem, hid⟩ | ⟨rfl, rfl⟩)
        · exact ⟨_, .inl ⟨rfl, rfl⟩, mem_append_left _ hid⟩
        · exact ⟨l, .inr hmem, hid⟩
        · exact ⟨_, .inl ⟨rfl, rfl⟩, mem_append_right _ (mem_singleton_self id')⟩
    · simp only [mem_cons, or_and_right, exists_or, ih, or_assoc]

theorem registered_add {id' : ID} {name' : Bytes} {v v' : Value} :
    (p.add id name v).Registered id' name' v' ↔
      p.Registered id' name' v' ∨ id' = id ∧ name' = name ∧ v' = v := by
  by_cases hname : name' = name
  · subst hname
    simp only [Registered, add, update_self, mem_bump, true_and]
    rw [and_comm]
  · simp only [Registered, add, update_of_ne hname, hname, false_and, and_false, or_false]

end

end Postings

/-! ## Built indexes -/

namespace Head

variable {encode : Value → Bytes}

omit [LinearOrder ID] in
theorem foldl_addLabel (id : ID) (labels : Attributes) (h : Head ID) :
    (∀ id' name v, (labels.foldl (addLabel encode id) h).post.Registered id' name v ↔
        h.post.Registered id' name v ∨ id' = id ∧ (name, v) ∈ labels) ∧
      (∀ id', id' ∈ (labels.foldl (addLabel encode id) h).post.all ↔
        id' ∈ h.post.all ∨ id' = id ∧ labels ≠ []) ∧
      ∀ name, (name ∈ h.sym ∨ ∃ v, (name, v) ∈ labels) →
        name ∈ (labels.foldl (addLabel encode id) h).sym := by
  induction labels generalizing h with
  | nil => simp
  | cons label labels ih =>
    obtain ⟨hreg, hall, hsym⟩ := ih (addLabel encode id h label)
    rw [foldl_cons]
    refine ⟨fun id' name v => ?_, fun id' => ?_, fun name hname => hsym name ?_⟩
    · rw [hreg, addLabel, Postings.registered_add, mem_cons, Prod.ext_iff]
      tauto
    · rw [hall, addLabel, Postings.add, mem_append, mem_singleton]
      simp only [ne_eq, reduceCtorEq, not_false_eq_true, and_true]
      tauto
    rcases hname with hname | ⟨v, hv⟩
    · exact .inl (mem_cons_of_mem _ (mem_cons_of_mem _ hname))
    · rcases mem_cons.mp hv with rfl | hv
      · exact .inl (mem_cons_of_mem _ mem_cons_self)
      · exact .inr ⟨v, hv⟩

/-- The index of some streams registers each under the labels it carries. -/
structure Indexes (h : Head ID) (streams : List (ID × Series)) : Prop where
  registered : ∀ id name v,
    h.post.Registered id name v ↔ ∃ s, (id, s) ∈ streams ∧ (name, v) ∈ labels s
  all : ∀ id, id ∈ h.post.all ↔ ∃ s, (id, s) ∈ streams
  sym : ∀ id s name v, (id, s) ∈ streams → (name, v) ∈ labels s → name ∈ h.sym

section

omit [LinearOrder ID]

/-- **One stream more.** -/
theorem Indexes.indexLabels {h : Head ID} {streams : List (ID × Series)} (hi : h.Indexes streams)
    (stream : ID × Series) : (h.indexLabels encode stream).Indexes (streams ++ [stream]) := by
  obtain ⟨id, s⟩ := stream
  obtain ⟨hreg, hall, hsym⟩ := @foldl_addLabel ID encode id (labels s)
    { h with post := h.post.addSeries id }
  constructor
  · intro id' name v
    refine (hreg id' name v).trans ?_
    have hold : ({ h with post := h.post.addSeries id } : Head ID).post.Registered id' name v ↔
        ∃ s', (id', s') ∈ streams ∧ (name, v) ∈ labels s' := hi.registered id' name v
    simp only [hold, mem_append, mem_singleton, Prod.mk.injEq, or_and_right, exists_or]
    refine or_congr_right ⟨?_, ?_⟩
    · rintro ⟨rfl, hv⟩
      exact ⟨s, ⟨rfl, rfl⟩, hv⟩
    · rintro ⟨s', ⟨rfl, rfl⟩, hv⟩
      exact ⟨rfl, hv⟩
  · intro id'
    refine (hall id').trans ?_
    simp only [Postings.addSeries, mem_append, mem_singleton, Prod.mk.injEq, exists_or, hi.all id']
    constructor
    · rintro ((h' | rfl) | ⟨rfl, -⟩)
      · exact .inl h'
      · exact .inr ⟨s, rfl, rfl⟩
      · exact .inr ⟨s, rfl, rfl⟩
    · rintro (h' | ⟨s', rfl, -⟩)
      · exact .inl (.inl h')
      · exact .inl (.inr rfl)
  · intro id' s' name v hs hv
    refine hsym name ?_
    rcases mem_append.mp hs with hs | hs
    · exact .inl (hi.sym id' s' name v hs hv)
    · obtain ⟨-, rfl⟩ := Prod.mk.inj (mem_singleton.mp hs)
      exact .inr ⟨v, hv⟩

theorem indexes_build (streams : List (ID × Series)) : (build encode streams).Indexes streams := by
  induction streams using List.reverseRecOn with
  | nil =>
    refine ⟨fun id name v => ?_, fun id => ?_, fun _ _ _ _ h => nomatch h⟩
    · exact ⟨fun ⟨_, h, _⟩ => absurd h not_mem_nil, fun ⟨_, h, _⟩ => absurd h not_mem_nil⟩
    · exact ⟨fun h => absurd h not_mem_nil, fun ⟨_, h⟩ => absurd h not_mem_nil⟩
  | append_singleton streams stream ih =>
    rw [build, foldl_append]
    exact ih.indexLabels stream

end

end Head

/-! ## Resolving -/

/-- A matcher accepts one of the values a series carries its label with, or its absence. -/
def Selects (s : Series) (m : Matcher) : Prop :=
  (∃ v, (m.name, v) ∈ labels s ∧ m.accepts v = true) ∨
    (∀ v, (m.name, v) ∉ labels s) ∧ m.accepts .empty = true

section Resolve

variable {h : Head ID} {streams : List (ID × Series)} {s : Series}

/-- An index in which an identifier stands for one series, as one that is computed from the series
does. -/
def Addressed (streams : List (ID × Series)) : Prop :=
  ∀ id s s', (id, s) ∈ streams → (id, s') ∈ streams → s = s'

omit [LinearOrder ID] in
theorem Head.Indexes.registered_iff {name : Bytes} (hi : h.Indexes streams) (ha : Addressed streams)
    (hs : (id, s) ∈ streams) {v : Value} :
    h.post.Registered id name v ↔ (name, v) ∈ labels s := by
  rw [hi.registered]
  constructor
  · rintro ⟨s', hs', hv⟩
    exact ha id s s' hs hs' ▸ hv
  · exact fun hv => ⟨s, hs, hv⟩

/-- **One matcher.** -/
theorem Head.Indexes.lower_iff (hi : h.Indexes streams) (ha : Addressed streams)
    (hs : (id, s) ∈ streams) (m : Matcher) :
    (∃ l, h.lower m = some l ∧ id ∈ l) ↔ Selects s m := by
  have hall : id ∈ h.post.all := (hi.all id).mpr ⟨s, hs⟩
  have hreg : ∀ v, h.post.Registered id m.name v ↔ (m.name, v) ∈ labels s := fun v =>
    hi.registered_iff ha hs
  rw [Head.lower, Selects]
  split
  · split
    · next habsent =>
      simp only [Option.some.injEq, exists_eq_left', mem_merge, mem_pair, exists_eq_or_imp,
        exists_eq_left, Postings.mem_select, Postings.mem_withoutName, hreg, hall,
        habsent, true_and,
        and_true]
    · next habsent =>
      simp only [Option.some.injEq, exists_eq_left', Postings.mem_select, hreg, habsent, and_false,
        or_false, Bool.false_eq_true]
  next hname =>
  -- a label no stream carries
  have hnone : ∀ v, (m.name, v) ∉ labels s := fun v hv => hname (hi.sym id s m.name v hs hv)
  split
  · next habsent =>
    simp only [Option.some.injEq, exists_eq_left', mem_sortDedup, hall, hnone, habsent,
      not_false_eq_true, implies_true, and_true, or_true]
  · next habsent =>
    simp only [reduceCtorEq, false_and, exists_false, hnone, habsent, and_false, or_false]

theorem mapM_lower (ms : List Matcher) :
    (∃ its, ms.mapM h.lower = some its ∧ ∀ l ∈ its, id ∈ l) ↔
      ∀ m ∈ ms, ∃ l, h.lower m = some l ∧ id ∈ l := by
  induction ms with
  | nil => simp
  | cons m ms ih =>
    rw [forall_mem_cons, ← ih, mapM_cons]
    cases h.lower m with
    | none => simp
    | some l =>
      cases ms.mapM h.lower with
      | none | some its => simp

/-- **What a list of matchers selects.** -/
theorem Head.Indexes.mem_resolve (hi : h.Indexes streams) (ha : Addressed streams)
    (hs : (id, s) ∈ streams) (ms : List Matcher) :
    id ∈ h.resolve ms ↔ ∀ m ∈ ms, Selects s m := by
  rw [Head.resolve]
  split
  · next hnil =>
    subst hnil
    rw [mem_sortDedup, hi.all]
    exact ⟨fun _ _ hm => absurd hm not_mem_nil, fun _ => ⟨s, hs⟩⟩
  next hne =>
  simp only [← hi.lower_iff ha hs, ← mapM_lower]
  split
  · next hnone => simp [hnone]
  next its hits =>
  have hnil : its ≠ [] := by
    rintro rfl
    cases ms with
    | nil => exact hne rfl
    | cons m ms =>
      rw [mapM_cons] at hits
      cases hm : h.lower m <;> cases hms : ms.mapM h.lower <;> simp_all
  rw [mem_intersect hnil]
  simp [hits]

end Resolve

/-! ## Agreement -/

variable {s : Series} {m : Matcher}

theorem selects_of_accepts (h : m.accepts ((seriesLabel s m.name).getD .empty) = true) :
    Selects s m := by
  cases hl : seriesLabel s m.name with
  | none =>
    rw [hl] at h
    exact .inr ⟨not_mem_labels_of_seriesLabel hl, h⟩
  | some v =>
    rw [hl] at h
    exact .inl ⟨v, mem_labels_of_seriesLabel hl, h⟩

/-- With one value for each label, it selects no other. -/
theorem accepts_of_selects (hone : OneValued s) (h : Selects s m) :
    m.accepts ((seriesLabel s m.name).getD .empty) = true := by
  rcases h with ⟨v, hv, hacc⟩ | ⟨hnone, hacc⟩
  · cases hl : seriesLabel s m.name with
    | none => exact absurd hv (not_mem_labels_of_seriesLabel hl v)
    | some u => exact hone m.name v u hv (mem_labels_of_seriesLabel hl) ▸ hacc
  · cases hl : seriesLabel s m.name with
    | none => exact hacc
    | some u => exact absurd (mem_labels_of_seriesLabel hl) (hnone u)

theorem matchesSeries_iff_selects (hone : OneValued s) (ms : List Matcher) :
    matchesSeries s ms = true ↔ ∀ m ∈ ms, Selects s m := by
  rw [matchesSeries, all_eq_true]
  exact forall₂_congr fun m _ => ⟨selects_of_accepts, accepts_of_selects hone⟩

/-- The matcher of one value. -/
def Matcher.only (name : Bytes) (v : Value) : Matcher := ⟨name, fun u => u = v, none⟩

/-- **When local and routed matching agree**: the requester accepts a series on every list of
matchers on which an index that holds it does, and on no other, exactly if it carries no label with
two values. -/
theorem resolve_agrees_iff (encode : Value → Bytes) {streams : List (ID × Series)}
    (ha : Addressed streams) {id : ID} {s : Series} (hs : (id, s) ∈ streams) :
    (∀ ms, matchesSeries s ms = true ↔ id ∈ (Head.build encode streams).resolve ms) ↔
      OneValued s := by
  have hresolve := (@Head.indexes_build ID encode streams).mem_resolve ha hs
  simp only [hresolve]
  refine ⟨fun h name v w hv hw => ?_, fun hone ms => matchesSeries_iff_selects hone ms⟩
  -- every value the label is carried with is the one that is looked up
  have hlook : ∀ u, (name, u) ∈ labels s → seriesLabel s name = some u := by
    intro u hu
    have hacc := (h [Matcher.only name u]).mpr fun m hm => by
      rw [mem_singleton.mp hm]
      exact .inl ⟨u, hu, decide_eq_true rfl⟩
    rw [matchesSeries, all_eq_true] at hacc
    have heq : (seriesLabel s name).getD .empty = u :=
      of_decide_eq_true (hacc _ (mem_singleton_self _))
    cases hl : seriesLabel s name with
    | none => exact absurd hu (not_mem_labels_of_seriesLabel hl u)
    | some x =>
      rw [hl] at heq
      exact congrArg some heq
  exact Option.some.inj ((hlook v hv).symm.trans (hlook w hw))

/-- A resource's attributes and a scope's, with one label in common. -/
def shadowing : Series :=
  ⟨⟨[], [(ascii "zone", .str (ascii "a"))]⟩, ⟨[], [], [], [(ascii "zone", .str (ascii "b"))]⟩, []⟩

/-- The index selects a series by its scope's value; the requester sees its resource's only. -/
theorem resolve_selects_shadowed :
    0 ∈ (Head.build (fun _ => []) [(0, shadowing)]).resolve
        [Matcher.only (ascii "zone") (.str (ascii "b"))] ∧
      matchesSeries shadowing [Matcher.only (ascii "zone") (.str (ascii "b"))] = false := by
  decide

/-- A series with a label in every place. -/
def plain : Series :=
  ⟨⟨[], [(ascii "zone", .str (ascii "a")), (ascii "hosts", .slice [.int 1, .int 2])]⟩,
    ⟨ascii "lib", ascii "v1", [], [(ascii "kind", .bool 1)]⟩, [(ascii "name", .str (ascii "up"))]⟩

theorem oneValued_of_nodup (h : ((labels s).map Prod.fst).Nodup) : OneValued s :=
  fun _ _ _ hv hw => (Prod.mk.inj (inj_on_of_nodup_map h hv hw rfl)).2

/-- Beside a stream with two values of a label, one with a single value of each is found where the
requester accepts it. -/
theorem resolve_agrees_plain :
    Addressed [(0, plain), (1, shadowing)] ∧ (0, plain) ∈ [(0, plain), (1, shadowing)] ∧
      ∀ ms, matchesSeries plain ms = true ↔
        0 ∈ (Head.build (fun _ => []) [(0, plain), (1, shadowing)]).resolve ms :=
  have hids : ([(0, plain), (1, shadowing)].map Prod.fst).Nodup := by decide
  have ha : Addressed [(0, plain), (1, shadowing)] := fun _ _ _ h h' =>
    (Prod.mk.inj (inj_on_of_nodup_map hids h h' rfl)).2
  ⟨ha, mem_cons_self,
    (resolve_agrees_iff (fun _ => []) ha mem_cons_self).mpr (oneValued_of_nodup (by decide))⟩

end OtelStorage.Record
