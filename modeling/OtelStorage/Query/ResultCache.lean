import OtelStorage.Query.Matching

/-!
# The cache of query results

A metric query over named tenants whose matchers are all equalities is answered from a cache.  Its
key writes the tenants, the window and the matchers one after the other, with a zero byte between
tenants and between a label and its value, and a unit separator between the parts.  Nothing escapes
these bytes where they stand in a tenant, a label or a value: `["a", "b"]` and `["a\0b"]` are one
scope.

So the key tells queries apart, and the cache answers what the source would, exactly when tenants,
labels and values hold neither separator (`cache_exact_iff`).
-/

namespace OtelStorage.Query

open Delimited List

/-- The byte between tenants, and between a label and its value. -/
def nul : Byte := 0

/-- The byte between the parts of a key. -/
def unitSep : Byte := 31

/-! ## Requests -/

/-- A request; the key leaves out the fields under `rest`. -/
structure Request (X : Type*) where
  tenant : Bytes
  start : ℤ
  stop : ℤ
  matchers : List Matcher
  rest : X

variable {X ε β : Type*} {k : Bytes} {l : List EqualMatcher}

/-- A matcher in a key. -/
def EqualMatcher.text (m : EqualMatcher) : Bytes := m.name ++ nul :: m.value

/-- The key of a request, unless a matcher is no equality. -/
def cacheKey (r : Request X) : Option Bytes := do
  let specs ← r.matchers.mapM Matcher.spec
  return r.tenant ++ unitSep :: formatInt r.start ++ unitSep :: formatInt r.stop ++
    (sorted (specs.map EqualMatcher.text)).flatMap (unitSep :: ·)

/-- The tenant of requests that name none: `default`. -/
def defaultTenant : Bytes := [100, 101, 102, 97, 117, 108, 116]

/-- The tenant a name stands for. -/
def normalizeTenant (t : Bytes) : Bytes := if t = [] then defaultTenant else t

/-- The token of a set of tenants. -/
def tenantScope (tenants : List Bytes) : Bytes :=
  [nul].intercalate (sorted (tenants.map normalizeTenant))

/-! ## The cache -/

/-- A cache with the least recently used entry last.  The source indexes the list by key. -/
structure MemoryCache (β : Type*) where
  -- no bound unless positive
  max : ℤ
  ll : List (Bytes × β)
  keys : (ll.map Prod.fst).Nodup
  bound : 0 < max → (ll.length : ℤ) ≤ max

namespace MemoryCache

/-- An empty cache. -/
def new (maxEntries : ℤ) : MemoryCache β := ⟨maxEntries, [], nodup_nil, le_of_lt⟩

/-- The entry of a key. -/
def find (c : MemoryCache β) (key : Bytes) : Option (Bytes × β) := c.ll.find? (·.1 = key)

/-- The entries of the other keys. -/
def others (c : MemoryCache β) (key : Bytes) : List (Bytes × β) := c.ll.filter (·.1 ≠ key)

theorem keys_cons_others (c : MemoryCache β) (key : Bytes) (b : β) :
    (((key, b) :: c.others key).map Prod.fst).Nodup := by
  rw [map_cons, nodup_cons]
  refine ⟨fun h => ?_, c.keys.sublist (filter_sublist.map Prod.fst)⟩
  obtain ⟨e, he, hkey⟩ := mem_map.mp h
  exact of_decide_eq_true (mem_filter.mp he).2 hkey

variable {c : MemoryCache β} {e : Bytes × β}

theorem length_others_lt {key : Bytes} (h : c.find key = some e) :
    (c.others key).length < c.ll.length :=
  length_filter_lt_length_iff_exists.mpr
    ⟨e, mem_of_find?_eq_some h, by simpa using List.find?_some h⟩

/-- A key's entry moved to the front, with a value. -/
def moveToFront (c : MemoryCache β) (key : Bytes) (b : β) {e : Bytes × β}
    (h : c.find key = some e) : MemoryCache β where
  max := c.max
  ll := (key, b) :: c.others key
  keys := c.keys_cons_others key b
  bound hmax := by
    have hlt := length_others_lt h
    have hle := c.bound hmax
    rw [length_cons]
    omega

/-- An entry, which moves to the front. -/
def get (c : MemoryCache β) (key : Bytes) : Option (β × MemoryCache β) :=
  match h : c.find key with
  | none => none
  | some e => some (e.2, c.moveToFront key e.2 h)

/-- What is left of a new front entry and the old ones: the last one goes when the bound is
exceeded. -/
def evict (c : MemoryCache β) (ll : List (Bytes × β)) : List (Bytes × β) :=
  if 0 < c.max ∧ c.max < ll.length then ll.dropLast else ll

theorem evict_sublist (c : MemoryCache β) (ll : List (Bytes × β)) : (c.evict ll).Sublist ll := by
  rw [evict]
  split
  · exact dropLast_sublist ll
  · exact .refl ll

/-- Set an entry, at the front. -/
def put (c : MemoryCache β) (key : Bytes) (b : β) : MemoryCache β :=
  match h : c.find key with
  | some _ => c.moveToFront key b h
  | none =>
    { max := c.max
      ll := c.evict ((key, b) :: c.ll)
      keys := by
        refine List.Nodup.sublist ((c.evict_sublist _).map Prod.fst) ?_
        rw [map_cons, nodup_cons]
        refine ⟨fun hmem => ?_, c.keys⟩
        obtain ⟨e, he, hkey⟩ := mem_map.mp hmem
        exact List.find?_eq_none.mp h e he (decide_eq_true hkey)
      bound := fun hmax => by
        have hle := c.bound hmax
        rw [evict]
        split
        · rw [length_dropLast, length_cons]
          omega
        · rw [length_cons] at *
          omega }

end MemoryCache

/-! ## Fetching -/

/-- Whether no more samples are expected in a request's window. -/
def settled (freshness now : ℤ) (r : Request X) : Bool :=
  decide (freshness ≤ 0) || decide (r.stop ≤ now - freshness)

/-- A fetch through the cache: the answer, and the cache after it. -/
def CacheFetcher.fetch (inner : Request X → Except ε β) (freshness now : ℤ) (c : MemoryCache β)
    (r : Request X) : Except ε β × MemoryCache β :=
  match cacheKey r with
  | none => (inner r, c)
  | some key =>
    if settled freshness now r then
      match c.get key with
      | some (b, c') => (.ok b, c')
      | none =>
        match inner r with
        | .error e => (.error e, c)
        | .ok b => (.ok b, c.put key b)
    else (inner r, c)

/-- Where a tenant's retention cuts reads off. -/
structure RetentionFloor where
  value : ℤ
  enabled : Bool

/-- A read that some tenant's retention cuts. -/
def clipped (floors : List RetentionFloor) (start : ℤ) : Bool :=
  floors.any fun f => f.enabled && decide (start < f.value)

/-- A query: the tenants it names, its request, the clock and the tenants' floors at the time. -/
structure Call (X : Type*) where
  tenants : List Bytes
  request : Request X
  now : ℤ
  floors : List RetentionFloor

/-- The request as it reaches the cache: under the token of its tenants. -/
def Call.scoped (q : Call X) : Request X := { q.request with tenant := tenantScope q.tenants }

/-- The key it is cached under. -/
def Call.key (q : Call X) : Option Bytes := cacheKey q.scoped

/-- The cache of a store, if it has one. -/
def openCache (entries : ℤ) : Option (MemoryCache β) :=
  if 0 < entries then some (MemoryCache.new entries) else none

/-- A query of a store: `base` answers for the tenants. -/
def fetch (base : List Bytes → Request X → Except ε β) (freshness : ℤ)
    (queryCache : Option (MemoryCache β)) (q : Call X) :
    Except ε β × Option (MemoryCache β) :=
  match queryCache with
  | none => (base q.tenants q.request, none)
  | some c =>
    if q.tenants = [] then (base q.tenants q.request, some c)
    else if clipped q.floors q.request.start then (base q.tenants q.scoped, some c)
    else (CacheFetcher.fetch (base q.tenants) freshness q.now c q.scoped).map id some

/-- The answers to a sequence of queries. -/
def answers (base : List Bytes → Request X → Except ε β) (freshness : ℤ) :
    Option (MemoryCache β) → List (Call X) → List (Except ε β)
  | _, [] => []
  | cache, q :: rest =>
    (fetch base freshness cache q).1 :: answers base freshness (fetch base freshness cache q).2 rest

/-! ## What a key should say -/

/-- Two queries ask for the same: the same tenants, window and equalities, in any order. -/
structure SameQuery (q₁ q₂ : Call X) : Prop where
  tenants : (q₁.tenants.map normalizeTenant).Perm (q₂.tenants.map normalizeTenant)
  start : q₁.request.start = q₂.request.start
  stop : q₁.request.stop = q₂.request.stop
  matchers : ∃ l₁ l₂, q₁.request.matchers.mapM Matcher.spec = some l₁ ∧
    q₂.request.matchers.mapM Matcher.spec = some l₂ ∧ l₁.Perm l₂

/-- Tenants, labels and values are texts over a set of bytes. -/
structure Call.Over (A : Set Byte) (q : Call X) : Prop where
  tenants : ∀ t ∈ q.tenants, ∀ b ∈ t, b ∈ A
  matchers : ∀ m ∈ q.request.matchers, ∀ e, m.spec = some e →
    (∀ b ∈ e.name, b ∈ A) ∧ ∀ b ∈ e.value, b ∈ A

/-- A source whose answer to an equality query depends on what the query asks for only. -/
structure Plain (base : List Bytes → Request X → Except ε β) : Prop where
  tenant : ∀ ts r t, base ts { r with tenant := t } = base ts r
  same : ∀ q₁ q₂ : Call X, SameQuery q₁ q₂ → base q₁.tenants q₁.request = base q₂.tenants q₂.request

/-- Queries with one key ask for the same. -/
def ExactKeys (X : Type*) (A : Set Byte) : Prop :=
  ∀ q₁ q₂ : Call X, q₁.Over A → q₂.Over A → q₁.tenants ≠ [] → q₂.tenants ≠ [] →
    ∀ k, q₁.key = some k → q₂.key = some k → SameQuery q₁ q₂

/-- Every sequence of queries is answered as the source would. -/
def Transparent (X ε β : Type*) (A : Set Byte) : Prop :=
  ∀ base : List Bytes → Request X → Except ε β, Plain base →
    ∀ (entries freshness : ℤ) (qs : List (Call X)), (∀ q ∈ qs, q.Over A) →
      answers base freshness (openCache entries) qs = qs.map fun q => base q.tenants q.request

/-! ## Keys -/

variable {q : Call X}

theorem Call.key_eq_some (h : q.key = some k) :
    ∃ l, q.request.matchers.mapM Matcher.spec = some l ∧
      k = [unitSep].intercalate (tenantScope q.tenants :: formatInt q.request.start ::
        formatInt q.request.stop :: sorted (l.map EqualMatcher.text)) := by
  rw [Call.key, cacheKey, Option.bind_eq_bind, Option.bind_eq_some_iff] at h
  obtain ⟨l, hl, hk⟩ := h
  refine ⟨l, hl, (Option.some.inj hk).symm.trans ?_⟩
  rw [intercalate_cons, flatMap_cons, flatMap_cons]
  simp only [append_assoc, cons_append]
  rfl

theorem Call.key_of_specs (h : q.request.matchers.mapM Matcher.spec = some l) :
    q.key = some ([unitSep].intercalate (tenantScope q.tenants :: formatInt q.request.start ::
      formatInt q.request.stop :: sorted (l.map EqualMatcher.text))) := by
  obtain ⟨k, hk⟩ : ∃ k, q.key = some k := by
    rw [Call.key, cacheKey]
    exact ⟨_, by rw [show q.scoped.matchers = q.request.matchers from rfl, h]; rfl⟩
  obtain ⟨l', hl', rfl⟩ := Call.key_eq_some hk
  rw [hk, Option.some.inj (h.symm.trans hl')]

section Clean

variable {A : Set Byte} {e : EqualMatcher}

theorem not_mem_normalizeTenant {x : Byte} (hx : x ∉ A) (hd : x ∉ defaultTenant) {t : Bytes}
    (ht : ∀ b ∈ t, b ∈ A) : x ∉ normalizeTenant t := by
  rw [normalizeTenant]
  split
  · exact hd
  · exact fun h => hx (ht x h)

theorem sorted_tenants_ne_nil (h : q.tenants ≠ []) : sorted (q.tenants.map normalizeTenant) ≠ [] :=
  fun hnil => h (map_eq_nil_iff.mp ((hnil ▸ sorted_perm _).nil_eq).symm)

theorem tenants_perm_of_scope (hnul : nul ∉ A) {q₁ q₂ : Call X} (h₁ : q₁.Over A) (h₂ : q₂.Over A)
    (hn₁ : q₁.tenants ≠ []) (hn₂ : q₂.tenants ≠ [])
    (h : tenantScope q₁.tenants = tenantScope q₂.tenants) :
    (q₁.tenants.map normalizeTenant).Perm (q₂.tenants.map normalizeTenant) := by
  have hfields : ∀ q : Call X, q.Over A →
      ∀ f ∈ sorted (q.tenants.map normalizeTenant), nul ∉ f := by
    intro q hq f hf
    obtain ⟨t, ht, rfl⟩ := mem_map.mp ((sorted_perm _).mem_iff.mp hf)
    exact not_mem_normalizeTenant hnul (by decide) (hq.tenants t ht)
  exact sorted_eq_iff.mp (intercalate_inj (hfields q₁ h₁) (hfields q₂ h₂)
    (sorted_tenants_ne_nil hn₁) (sorted_tenants_ne_nil hn₂) h)

theorem unitSep_not_mem_scope (hsep : unitSep ∉ A) (h : q.Over A) :
    unitSep ∉ tenantScope q.tenants := by
  intro hmem
  rcases mem_intercalate hmem with hnul | ⟨f, hf, hmem⟩
  · exact absurd hnul (by decide)
  · obtain ⟨t, ht, rfl⟩ := mem_map.mp ((sorted_perm _).mem_iff.mp hf)
    exact not_mem_normalizeTenant hsep (by decide) (h.tenants t ht) hmem

theorem unitSep_not_mem_formatInt (n : ℤ) : unitSep ∉ formatInt n := fun h =>
  absurd (le_of_mem_formatInt h) (by decide)

theorem exists_of_mem_specs {ms : List Matcher} (h : ms.mapM Matcher.spec = some l) (he : e ∈ l) :
    ∃ m ∈ ms, m.spec = some e := by
  induction ms generalizing l with
  | nil =>
    obtain rfl : [] = l := Option.some.inj h
    cases he
  | cons m ms ih =>
    rw [mapM_cons, Option.bind_eq_bind, Option.bind_eq_some_iff] at h
    obtain ⟨e', he', h⟩ := h
    rw [Option.bind_eq_bind, Option.bind_eq_some_iff] at h
    obtain ⟨l', hl', hl⟩ := h
    obtain rfl : e' :: l' = l := Option.some.inj hl
    rcases mem_cons.mp he with rfl | he
    · exact ⟨m, mem_cons_self, he'⟩
    · obtain ⟨m', hm', hspec⟩ := ih hl' he
      exact ⟨m', mem_cons_of_mem m hm', hspec⟩

theorem Call.Over.of_specs (h : q.Over A)
    (hl : q.request.matchers.mapM Matcher.spec = some l) (he : e ∈ l) :
    (∀ b ∈ e.name, b ∈ A) ∧ ∀ b ∈ e.value, b ∈ A := by
  obtain ⟨m, hm, hspec⟩ := exists_of_mem_specs hl he
  exact h.matchers m hm e hspec

theorem EqualMatcher.text_eq (e : EqualMatcher) : e.text = [nul].intercalate [e.name, e.value] := by
  rw [intercalate_cons]
  exact congrArg (e.name ++ ·) (append_nil _).symm

theorem perm_of_texts (hnul : nul ∉ A) {l₁ l₂ : List EqualMatcher}
    (h₁ : ∀ e ∈ l₁, (∀ b ∈ e.name, b ∈ A) ∧ ∀ b ∈ e.value, b ∈ A)
    (h₂ : ∀ e ∈ l₂, (∀ b ∈ e.name, b ∈ A) ∧ ∀ b ∈ e.value, b ∈ A)
    (h : (l₁.map EqualMatcher.text).Perm (l₂.map EqualMatcher.text)) : l₁.Perm l₂ := by
  have hsplit : ∀ l : List EqualMatcher,
      (∀ e ∈ l, (∀ b ∈ e.name, b ∈ A) ∧ ∀ b ∈ e.value, b ∈ A) →
      (l.map EqualMatcher.text).map (List.splitOn nul) = l.map fun e => [e.name, e.value] := by
    intro l hl
    rw [map_map]
    refine map_congr_left fun e he => ?_
    rw [Function.comp_apply, EqualMatcher.text_eq]
    refine splitOn_intercalate nul (fun f hf => ?_) (cons_ne_nil _ _)
    rcases mem_pair.mp hf with rfl | rfl
    · exact fun hmem => hnul ((hl e he).1 nul hmem)
    · exact fun hmem => hnul ((hl e he).2 nul hmem)
  have hperm := h.map (List.splitOn nul)
  rw [hsplit l₁ h₁, hsplit l₂ h₂] at hperm
  refine (map_perm_map_iff fun e e' hee' => ?_).mp hperm
  obtain ⟨hname, hvalue⟩ := List.cons.inj hee'
  cases e
  cases e'
  exact EqualMatcher.mk.injEq .. ▸ ⟨hname, (List.cons.inj hvalue).1⟩

/-- **Without separators in their texts**, keys tell queries apart. -/
theorem exactKeys_of_clean (hnul : nul ∉ A) (hsep : unitSep ∉ A) : ExactKeys X A := by
  intro q₁ q₂ h₁ h₂ hn₁ hn₂ k hk₁ hk₂
  obtain ⟨l₁, hl₁, rfl⟩ := Call.key_eq_some hk₁
  obtain ⟨l₂, hl₂, hk⟩ := Call.key_eq_some hk₂
  have hfields : ∀ (q : Call X) (l : List EqualMatcher), q.Over A →
      q.request.matchers.mapM Matcher.spec = some l →
      ∀ f ∈ tenantScope q.tenants :: formatInt q.request.start :: formatInt q.request.stop ::
        sorted (l.map EqualMatcher.text), unitSep ∉ f := by
    intro q l hq hl f hf
    simp only [mem_cons] at hf
    rcases hf with rfl | rfl | rfl | hf
    · exact unitSep_not_mem_scope hsep hq
    · exact unitSep_not_mem_formatInt _
    · exact unitSep_not_mem_formatInt _
    obtain ⟨e, he, rfl⟩ := mem_map.mp ((sorted_perm _).mem_iff.mp hf)
    obtain ⟨hname, hvalue⟩ := hq.of_specs hl he
    rw [EqualMatcher.text, mem_append, mem_cons]
    rintro (hmem | hmem | hmem)
    · exact hsep (hname _ hmem)
    · exact absurd hmem (by decide)
    · exact hsep (hvalue _ hmem)
  have heq := intercalate_inj (hfields q₁ l₁ h₁ hl₁) (hfields q₂ l₂ h₂ hl₂) (cons_ne_nil _ _)
    (cons_ne_nil _ _) hk
  simp only [List.cons.injEq] at heq
  obtain ⟨hscope, hstart, hstop, htexts⟩ := heq
  exact
    { tenants := tenants_perm_of_scope hnul h₁ h₂ hn₁ hn₂ hscope
      start := formatInt_injective hstart
      stop := formatInt_injective hstop
      matchers := ⟨l₁, l₂, hl₁, hl₂, perm_of_texts hnul (fun _ => h₁.of_specs hl₁)
        (fun _ => h₂.of_specs hl₂) (sorted_eq_iff.mp htexts)⟩ }

end Clean

/-! ## Collisions -/

section Collide

variable {A : Set Byte}

/-- A query of some tenants with some equalities. -/
def Call.ofSpecs (x : X) (tenants : List Bytes) (l : List EqualMatcher) : Call X where
  tenants := tenants
  request := ⟨[], 0, 0, l.map fun e => ⟨e.name, fun _ => true, some e⟩, x⟩
  now := 0
  floors := []

theorem specs_ofSpecs (x : X) (tenants : List Bytes) (l : List EqualMatcher) :
    (Call.ofSpecs x tenants l).request.matchers.mapM Matcher.spec = some l := by
  show (l.map fun e => (⟨e.name, fun _ => true, some e⟩ : Matcher)).mapM Matcher.spec = some l
  induction l with
  | nil => rfl
  | cons e l ih =>
    rw [map_cons, mapM_cons, ih]
    rfl

theorem over_ofSpecs {x : X} {tenants : List Bytes} (ht : ∀ t ∈ tenants, ∀ b ∈ t, b ∈ A)
    (hl : ∀ e ∈ l, (∀ b ∈ e.name, b ∈ A) ∧ ∀ b ∈ e.value, b ∈ A) :
    (Call.ofSpecs x tenants l).Over A := by
  refine ⟨ht, fun m hm e he => ?_⟩
  obtain ⟨e', he', rfl⟩ := mem_map.mp hm
  exact Option.some.inj he ▸ hl e' he'

/-- One key for queries that name different tenants or equalities. -/
theorem not_exactKeys (x : X) {tenants₁ tenants₂ : List Bytes} {l₁ l₂ : List EqualMatcher}
    (h₁ : (Call.ofSpecs x tenants₁ l₁).Over A) (h₂ : (Call.ofSpecs x tenants₂ l₂).Over A)
    (hn₁ : tenants₁ ≠ []) (hn₂ : tenants₂ ≠ [])
    (hkey : [unitSep].intercalate (tenantScope tenants₁ :: formatInt 0 :: formatInt 0 ::
        sorted (l₁.map EqualMatcher.text)) =
      [unitSep].intercalate (tenantScope tenants₂ :: formatInt 0 :: formatInt 0 ::
        sorted (l₂.map EqualMatcher.text)))
    (hne : (tenants₁.map normalizeTenant).Perm (tenants₂.map normalizeTenant) → ¬ l₁.Perm l₂) :
    ¬ ExactKeys X A := by
  intro hexact
  have hsame := hexact _ _ h₁ h₂ hn₁ hn₂ _ (Call.key_of_specs (specs_ofSpecs x tenants₁ l₁))
    ((Call.key_of_specs (specs_ofSpecs x tenants₂ l₂)).trans (congrArg some hkey.symm))
  obtain ⟨l₁', l₂', hl₁, hl₂, hperm⟩ := hsame.matchers
  rw [specs_ofSpecs] at hl₁ hl₂
  cases hl₁
  cases hl₂
  exact hne hsame.tenants hperm

/-- Two tenants, or one with the zero byte in its name. -/
theorem nul_not_mem_of_exactKeys [Nonempty X] (h : ExactKeys X A) : nul ∉ A := by
  intro hA
  obtain ⟨x⟩ := ‹Nonempty X›
  have hover : ∀ ts : List Bytes, (∀ t ∈ ts, ∀ b ∈ t, b = nul) →
      (Call.ofSpecs x ts []).Over A := fun ts hts =>
    over_ofSpecs (fun t ht b hb => hts t ht b hb ▸ hA) (nofun)
  refine not_exactKeys x (hover [[nul], [nul]] (by simp)) (hover [[nul, nul, nul]] (by simp))
    (cons_ne_nil _ _) (cons_ne_nil _ _) (by decide) (fun hperm => ?_) h
  exact absurd hperm.length_eq (by decide)

/-- A unit separator ends one value or starts the next label. -/
theorem unitSep_not_mem_of_exactKeys [Nonempty X] (h : ExactKeys X A) : unitSep ∉ A := by
  intro hA
  obtain ⟨x⟩ := ‹Nonempty X›
  have hover : ∀ l : List EqualMatcher,
      (∀ e ∈ l, (∀ b ∈ e.name, b = unitSep) ∧ ∀ b ∈ e.value, b = unitSep) →
      (Call.ofSpecs x [[]] l).Over A := fun l hl =>
    over_ofSpecs (by simp) fun e he =>
      ⟨fun b hb => (hl e he).1 b hb ▸ hA, fun b hb => (hl e he).2 b hb ▸ hA⟩
  refine not_exactKeys x (hover [⟨[], []⟩, ⟨[unitSep, unitSep], []⟩] (by simp))
    (hover [⟨[], [unitSep]⟩, ⟨[unitSep], []⟩] (by simp))
    (cons_ne_nil _ _) (cons_ne_nil _ _) (by decide) (fun _ hperm => ?_) h
  exact absurd (hperm.mem_iff.mp mem_cons_self) (by decide)

end Collide

/-! ## The cache -/

namespace MemoryCache

variable {c : MemoryCache β} {key : Bytes} {b : β}

/-- What is found was there, and the cache holds no more than before. -/
theorem get_eq_some {c' : MemoryCache β} (h : c.get key = some (b, c')) :
    (key, b) ∈ c.ll ∧ ∀ e ∈ c'.ll, e ∈ c.ll := by
  rw [get] at h
  split at h
  · cases h
  next e he =>
  obtain ⟨rfl, rfl⟩ := Prod.mk.inj (Option.some.inj h)
  have hmem : (key, e.2) ∈ c.ll := by
    have hfind : c.ll.find? (fun x => x.1 = key) = some e := he
    have htest := List.find?_some hfind
    have hkey : e.1 = key := of_decide_eq_true htest
    exact hkey ▸ mem_of_find?_eq_some he
  refine ⟨hmem, fun e' he' => ?_⟩
  rcases mem_cons.mp he' with rfl | he'
  · exact hmem
  · exact (mem_filter.mp he').1

theorem mem_put {e : Bytes × β} (h : e ∈ (c.put key b).ll) : e = (key, b) ∨ e ∈ c.ll := by
  rw [put] at h
  split at h
  · rcases mem_cons.mp h with rfl | h
    · exact .inl rfl
    · exact .inr (mem_filter.mp h).1
  · exact mem_cons.mp ((c.evict_sublist _).subset h)

end MemoryCache

section Fetch

variable {A : Set Byte} {base : List Bytes → Request X → Except ε β}
  {cache : Option (MemoryCache β)}

/-- Every cached answer is the source's to a query with that key. -/
def Faithful (A : Set Byte) (base : List Bytes → Request X → Except ε β) (c : MemoryCache β) :
    Prop :=
  ∀ e ∈ c.ll, ∃ q : Call X, q.Over A ∧ q.tenants ≠ [] ∧ q.key = some e.1 ∧
    base q.tenants q.request = .ok e.2

/-- **One fetch through the cache** answers as the source would, and caches only such answers. -/
theorem Faithful.cacheFetch {c : MemoryCache β} (hexact : ExactKeys X A) (hbase : Plain base)
    (hc : Faithful A base c) (freshness : ℤ) (hq : q.Over A) (hn : q.tenants ≠ []) :
    (CacheFetcher.fetch (base q.tenants) freshness q.now c q.scoped).1 = base q.tenants q.request ∧
      Faithful A base (CacheFetcher.fetch (base q.tenants) freshness q.now c q.scoped).2 := by
  have hscoped : base q.tenants q.scoped = base q.tenants q.request := hbase.tenant _ _ _
  rw [CacheFetcher.fetch]
  split
  · exact ⟨hscoped, hc⟩
  next key hkey =>
  split
  · split
    · next b c' hget =>
      obtain ⟨hmem, hsub⟩ := MemoryCache.get_eq_some hget
      obtain ⟨q', hq', hn', hkey', hans⟩ := hc _ hmem
      refine ⟨?_, fun e he => hc e (hsub e he)⟩
      exact hans.symm.trans (hbase.same q' q (hexact q' q hq' hq hn' hn key hkey' hkey))
    rw [hscoped]
    split
    · next herr => exact ⟨herr.symm, hc⟩
    next b hok =>
    refine ⟨hok.symm, fun e he => ?_⟩
    rcases MemoryCache.mem_put he with rfl | he
    · exact ⟨q, hq, hn, hkey, hok⟩
    · exact hc e he
  · exact ⟨hscoped, hc⟩

/-- **One query** of the store. -/
theorem fetch_spec (hexact : ExactKeys X A) (hbase : Plain base)
    (hc : ∀ c ∈ cache, Faithful A base c) (freshness : ℤ) (hq : q.Over A) :
    (fetch base freshness cache q).1 = base q.tenants q.request ∧
      ∀ c ∈ (fetch base freshness cache q).2, Faithful A base c := by
  cases cache with
  | none => exact ⟨rfl, hc⟩
  | some c =>
    rw [fetch]
    split
    · exact ⟨rfl, hc⟩
    next hn =>
    split
    · exact ⟨hbase.tenant _ _ _, hc⟩
    · obtain ⟨hans, hfaith⟩ := (hc c rfl).cacheFetch hexact hbase freshness hq hn
      exact ⟨hans, fun c' hc' => Option.some.inj hc' ▸ hfaith⟩

theorem answers_eq (hexact : ExactKeys X A) (hbase : Plain base) (freshness : ℤ)
    (qs : List (Call X)) (hqs : ∀ q ∈ qs, q.Over A) (hc : ∀ c ∈ cache, Faithful A base c) :
    answers base freshness cache qs = qs.map fun q => base q.tenants q.request := by
  induction qs generalizing cache with
  | nil => rfl
  | cons q qs ih =>
    obtain ⟨hans, hfaith⟩ := fetch_spec hexact hbase hc freshness (hqs q mem_cons_self)
    rw [answers, hans, ih (fun q' hq' => hqs q' (mem_cons_of_mem q hq')) hfaith, map_cons]

theorem transparent_of_exactKeys (hexact : ExactKeys X A) : Transparent X ε β A := by
  intro base hbase entries freshness qs hqs
  refine answers_eq hexact hbase freshness qs hqs fun c hc => ?_
  rw [openCache] at hc
  split at hc
  · cases hc
    exact nofun
  · cases hc

end Fetch

section Same

theorem SameQuery.symm {q₁ q₂ : Call X} (h : SameQuery q₁ q₂) : SameQuery q₂ q₁ := by
  obtain ⟨l₁, l₂, hl₁, hl₂, hperm⟩ := h.matchers
  exact ⟨h.tenants.symm, h.start.symm, h.stop.symm, l₂, l₁, hl₂, hl₁, hperm.symm⟩

theorem SameQuery.trans {q₁ q₂ q₃ : Call X} (h : SameQuery q₁ q₂) (h' : SameQuery q₂ q₃) :
    SameQuery q₁ q₃ := by
  obtain ⟨l₁, l₂, hl₁, hl₂, hperm⟩ := h.matchers
  obtain ⟨l₂', l₃, hl₂', hl₃, hperm'⟩ := h'.matchers
  obtain rfl := Option.some.inj (hl₂.symm.trans hl₂')
  exact ⟨h.tenants.trans h'.tenants, h.start.trans h'.start, h.stop.trans h'.stop, l₁, l₃, hl₁, hl₃,
    hperm.trans hperm'⟩

theorem SameQuery.refl_of_key (h : q.key = some k) : SameQuery q q := by
  obtain ⟨l, hl, -⟩ := Call.key_eq_some h
  exact ⟨.refl _, rfl, rfl, l, l, hl, hl, .refl l⟩

/-- A query at a time when no floor cuts it. -/
def Call.unclipped (q : Call X) : Call X := { q with floors := [] }

open Classical in
/-- A source that knows one query. -/
noncomputable def knows (ε : Type*) (q₁ : Call X) (b b' : β) (ts : List Bytes)
    (r : Request X) : Except ε β :=
  if SameQuery q₁ ⟨ts, r, 0, []⟩ then .ok b else .ok b'

theorem plain_knows (q₁ : Call X) (b b' : β) : Plain (knows ε q₁ b b') := by
  have hiff : ∀ q₂ q₃ : Call X, SameQuery q₂ q₃ →
      (SameQuery q₁ ⟨q₂.tenants, q₂.request, 0, []⟩ ↔
        SameQuery q₁ ⟨q₃.tenants, q₃.request, 0, []⟩) := fun q₂ q₃ h =>
    ⟨fun h₁ => h₁.trans { h with },
      fun h₁ => h₁.trans ⟨h.symm.tenants, h.symm.start, h.symm.stop, h.symm.matchers⟩⟩
  constructor
  · intro ts r t
    rw [knows, knows]
    congr 1
    exact propext ⟨fun h => { h with }, fun h => { h with }⟩
  · intro q₂ q₃ h
    rw [knows, knows]
    congr 1
    exact propext (hiff q₂ q₃ h)

theorem answers_pair (base : List Bytes → Request X → Except ε β) {q₁ q₂ : Call X}
    (hn₁ : q₁.tenants ≠ []) (hn₂ : q₂.tenants ≠ []) (hf₁ : q₁.floors = []) (hf₂ : q₂.floors = [])
    (hk₁ : q₁.key = some k) (hk₂ : q₂.key = some k) {b : β}
    (hb : base q₁.tenants q₁.scoped = .ok b) :
    answers base 0 (openCache 1) [q₁, q₂] = [.ok b, .ok b] := by
  have hsettled : ∀ q : Call X, settled 0 q.now q.scoped = true := fun q => rfl
  have hopen : (openCache 1 : Option (MemoryCache β)) = some (MemoryCache.new 1) := rfl
  have hnone : (MemoryCache.new 1 : MemoryCache β).get k = none := rfl
  obtain ⟨c, hc⟩ : ∃ c, ((MemoryCache.new 1 : MemoryCache β).put k b).get k = some (b, c) := by
    have hput : ((MemoryCache.new 1 : MemoryCache β).put k b).find k = some (k, b) := by
      have hll : ((MemoryCache.new 1 : MemoryCache β).put k b).ll = [(k, b)] := rfl
      rw [MemoryCache.find, hll, List.find?_cons_of_pos]
      exact decide_eq_true rfl
    rw [MemoryCache.get]
    split
    · next h => cases hput.symm.trans h
    · next e h =>
      obtain rfl := Option.some.inj (hput.symm.trans h)
      exact ⟨_, rfl⟩
  have hfirst : fetch base 0 (openCache 1) q₁ =
      (.ok b, some ((MemoryCache.new 1 : MemoryCache β).put k b)) := by
    rw [hopen, fetch]
    simp only [if_neg hn₁, hf₁, clipped, any_nil, CacheFetcher.fetch]
    rw [show cacheKey q₁.scoped = some k from hk₁]
    simp only [hsettled, hnone, hb]
    rfl
  have hsecond : (fetch base 0 (some ((MemoryCache.new 1 : MemoryCache β).put k b)) q₂).1 =
      .ok b := by
    rw [fetch]
    simp only [if_neg hn₂, hf₂, clipped, any_nil, CacheFetcher.fetch]
    rw [show cacheKey q₂.scoped = some k from hk₂]
    simp only [hsettled, hc]
    rfl
  rw [answers, answers, answers, hfirst]
  dsimp only
  rw [hsecond]

/-- **A transparent cache** has keys that tell queries apart. -/
theorem exactKeys_of_transparent [Nontrivial β] {A : Set Byte} (h : Transparent X ε β A) :
    ExactKeys X A := by
  intro q₁ q₂ h₁ h₂ hn₁ hn₂ k hk₁ hk₂
  obtain ⟨b, b', hne⟩ := exists_pair_ne β
  by_contra hdiff
  have hbase := plain_knows (ε := ε) q₁ b b'
  have hans₁ : knows ε q₁ b b' q₁.tenants q₁.request = .ok b := by
    have hrefl := SameQuery.refl_of_key hk₁
    rw [knows, if_pos { hrefl with }]
  have hans₂ : knows ε q₁ b b' q₂.tenants q₂.request = .ok b' := by
    rw [knows, if_neg fun hs => hdiff { hs with }]
  have hcached : answers (knows ε q₁ b b') 0 (openCache 1) [q₁.unclipped, q₂.unclipped] =
      [.ok b, .ok b] :=
    answers_pair _ (show q₁.unclipped.tenants ≠ [] from hn₁)
      (show q₂.unclipped.tenants ≠ [] from hn₂) rfl rfl hk₁ hk₂ ((hbase.tenant _ _ _).trans hans₁)
  have hplain := h _ hbase 1 0 [q₁.unclipped, q₂.unclipped] fun q hq => by
    rcases mem_pair.mp hq with rfl | rfl
    · exact ⟨h₁.tenants, h₁.matchers⟩
    · exact ⟨h₂.tenants, h₂.matchers⟩
  have hdirect : [q₁.unclipped, q₂.unclipped].map
      (fun q => knows ε q₁ b b' q.tenants q.request) = [.ok b, .ok b'] :=
    congrArg₂ (fun x y => [x, y]) hans₁ hans₂
  rw [hcached, hdirect] at hplain
  simp only [List.cons.injEq, Except.ok.injEq] at hplain
  exact hne hplain.2.1

end Same

/-- **When the cache is exact.**  Keys tell queries apart, and every sequence of queries is answered
as the source would answer it, exactly if tenants, labels and values are texts without the zero byte
and without the unit separator. -/
theorem cache_exact_iff [Nonempty X] [Nontrivial β] (A : Set Byte) :
    (ExactKeys X A ↔ nul ∉ A ∧ unitSep ∉ A) ∧ (Transparent X ε β A ↔ nul ∉ A ∧ unitSep ∉ A) := by
  have hkeys : ExactKeys X A ↔ nul ∉ A ∧ unitSep ∉ A :=
    ⟨fun h => ⟨nul_not_mem_of_exactKeys h, unitSep_not_mem_of_exactKeys h⟩,
      fun h => exactKeys_of_clean h.1 h.2⟩
  exact ⟨hkeys, fun h => hkeys.mp (exactKeys_of_transparent h),
    fun h => transparent_of_exactKeys (hkeys.mpr h)⟩

/-- Printable texts. -/
theorem cache_exact_printable :
    ExactKeys Unit {b | 32 ≤ b} ∧ Transparent Unit Unit Bool {b | 32 ≤ b} :=
  have hclean : nul ∉ {b : Byte | 32 ≤ b} ∧ unitSep ∉ {b : Byte | 32 ≤ b} :=
    ⟨show ¬ (32 : Byte) ≤ nul by decide, show ¬ (32 : Byte) ≤ unitSep by decide⟩
  ⟨(cache_exact_iff (ε := Unit) (β := Bool) _).1.mpr hclean, (cache_exact_iff _).2.mpr hclean⟩

/-- A source that answers with the tenants it reads. -/
def tenantsRead (ts : List Bytes) (_ : Request Unit) : Except Unit (List Bytes) :=
  .ok (sorted (ts.map normalizeTenant))

theorem plain_tenantsRead : Plain tenantsRead :=
  ⟨fun _ _ _ => rfl, fun _ _ h => congrArg Except.ok (sorted_eq_iff.mpr h.tenants)⟩

/-- After a query of `a` and `b`, a query of the tenant `a\0b` is answered with their data. -/
theorem cache_serves_other_tenants :
    ¬ ExactKeys Unit Set.univ ∧ Plain tenantsRead ∧
      answers tenantsRead 0 (openCache 10)
        [Call.ofSpecs () [[97], [98]] [], Call.ofSpecs () [[97, nul, 98]] []] =
          [.ok [[97], [98]], .ok [[97], [98]]] ∧
      tenantsRead [[97, nul, 98]] (Call.ofSpecs () [[97, nul, 98]] []).request =
        .ok [[97, nul, 98]] :=
  ⟨fun h => nul_not_mem_of_exactKeys h (Set.mem_univ nul), plain_tenantsRead, by decide, by decide⟩

end OtelStorage.Query
