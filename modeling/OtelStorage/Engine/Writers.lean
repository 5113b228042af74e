import OtelStorage.Engine.Commit
import OtelStorage.Foundation.CasStore

/-!
# Writers over one index

Any number of engines commit to one bucket index.  Between its commits an engine flushes, merges,
drops parts to retention and repairs lost ones; a commit builds an index from the parts as an
operation left them, saves it, and rebases and builds again when a rival was faster.

The protocol is parametrised by what is asked of the builds and of the rebases of a run, so that the
runs a result is about are the runs of one of its instances; `writers` asks for nothing.
-/

namespace OtelStorage

open Delimited BucketIndex CasStore

/-- The split group a part awaits a block of. -/
def Part.awaitsGroup (p : Part) : Option SplitGroup :=
  p.pending.bind fun plan => if plan.blocks.valid then none else plan.group

/-- The part awaits a fresh block. -/
def Part.awaitsBlock (p : Part) : Bool := p.pending.any fun plan => !plan.blocks.valid

/-- A part under the prefix, with no identity of its own. -/
def Part.bare (pref : Bytes) (pending : Option Plan) : Part :=
  ⟨pref, 0, 0, default, default, 0, 0, none, pending⟩

/-- What an operation does to the parts of an engine. -/
inductive PartsStep (parts : List Part) : List Part → Prop
  | flush (p : Part) (h : p.pending = some flushPlan) : PartsStep parts (parts ++ [p])
  /-- A merge of `src` into `outs`.  The split group is a new object, so its address is that of no
  group still awaited. -/
  | merge (src outs : List Part) (addr : ℕ) (hsrc : ∀ p ∈ src, p ∈ parts)
      (houts : outs.map Part.pending = (planMerge addr (src.map Part.entry) outs.length).map some)
      (haddr : ∀ p ∈ parts, ∀ g, p.awaitsGroup = some g → g.addr ≠ addr) :
      PartsStep parts ((parts.filter fun p => !src.contains p) ++ outs)
  /-- Retention, and parts a repaired one supersedes. -/
  | drop (kept : List Part) (h : kept.Sublist parts) : PartsStep parts kept
  /-- A part repair brought back keeps the identity it had. -/
  | repair (p : Part) (h : p.pending = none) : PartsStep parts (parts ++ [p])

/-- A sequence of operations. -/
def PartsRun : List Part → List Part → Prop := Relation.ReflTransGen PartsStep

/-- An attempt with the parts it was built from. -/
structure Built where
  parts : List Part
  attempt : Engine.Attempt

/-- An engine, the attempt it is about to save, and, for the record, every prefix it has had among
its own parts in an attempt or a load, and every prefix an attempt of it has taken out. -/
structure Writer where
  engine : Engine
  built : Option Built
  everIndexed : List Bytes
  everRemoved : List Bytes

/-- What the builds and the rebases of a run have to meet. -/
structure Rules where
  build : Engine → List Part → UInt64 → UInt64 → Sorts → Prop
  rebase : Writer → Option Index → Prop

namespace Writer

/-- The attempt built from `parts`, and the record of what it publishes and removes. -/
def build (s : Writer) (parts : List Part) (epoch : UInt64) (genTerm blockTerm : UInt64)
    (sorts : Sorts) : Writer :=
  let a := s.engine.nextIndex parts epoch genTerm blockTerm sorts
  { engine := a.engine
    built := some ⟨parts, a⟩
    everIndexed := s.everIndexed ++ parts.map Part.pref
    everRemoved := s.everRemoved ++ s.engine.indexed.filter fun p => !a.engine.indexed.contains p }

/-- The writer adopts the stored index before a retry. -/
def rebase (s : Writer) (stored : Option Index) : Writer :=
  { s with engine := s.engine.adoptIndex stored }

/-- The writer loads the stored index. -/
def load (s : Writer) (stored : Option Index) (opens : Entry → Bool) : Writer :=
  { s with
    engine := s.engine.adoptLoad stored opens
    everIndexed := s.everIndexed ++ (s.engine.adoptLoad stored opens).indexed }

/-- What a writer does between saves. -/
inductive Act (rules : Rules) (u : Unit) (o : Option Index) (s : Writer) : Unit → Writer → Prop
  | work (parts : List Part) (adopted acknowledged : List Want)
      (epoch : UInt64) (h : s.built = none) (hparts : PartsRun s.engine.parts parts) :
      Act rules u o s () { s with engine := { s.engine with
        parts := parts, adoptedWants := adopted, pendingHoles := acknowledged
        flushedEpoch := epoch } }
  | load (opens : Entry → Bool) (h : s.built = none) : Act rules u o s () (s.load o opens)
  | build (parts : List Part) (epoch : UInt64) (genTerm blockTerm : UInt64) (sorts : Sorts)
      (h : s.built = none) (hparts : PartsRun s.engine.parts parts)
      (hrule : rules.build s.engine parts genTerm blockTerm sorts) :
      Act rules u o s () (s.build parts epoch genTerm blockTerm sorts)
  /-- The process ends, and a new one begins with nothing in memory. -/
  | restart : Act rules u o s () { s with engine := Engine.new s.engine.writerID, built := none }
  /-- The save lost the race, or failed without landing. -/
  | fail : Act rules u o s () { s with built := none }
  | rebase (h : s.built = none) (hrule : rules.rebase s o) :
      Act rules u o s () (s.rebase o)

/-- A writer with no parts flushes its first. -/
theorem Act.flush {rules : Rules} {o : Option Index} {s : Writer} (pref : Bytes)
    (h : s.built = none) (hparts : s.engine.parts = [])
    (hrule : rules.build s.engine [Part.bare pref (some flushPlan)] 0 0 .stable) :
    Act rules () o s () (s.build [Part.bare pref (some flushPlan)] 1 0 0 .stable) :=
  .build _ 1 0 0 .stable h (by rw [hparts]; exact .single (.flush _ rfl)) hrule

/-- A writer that has not begun. -/
def IsNew (s : Writer) : Prop := ∃ writerID, s = ⟨Engine.new writerID, none, [], []⟩

end Writer

/-- The writers of one index, under rules.  A save whose answer is lost leaves the writer as it
was. -/
def writersUnder (rules : Rules) : Protocol Unit Writer Index where
  view s := s.engine.indexVersion
  candidate s := s.built.map fun b => b.attempt.index
  act := Writer.Act rules
  saved s s' := ∃ b, s.built = some b ∧
    (s' = { s with engine := Engine.landed b.attempt, built := none } ∨
      s' = { s with built := none })

/-- The writers of one index, as the code has them. -/
def writers : Protocol Unit Writer Index := writersUnder ⟨fun _ _ _ _ _ => True, fun _ _ => True⟩

theorem reachable_two (rules : Rules) : Reachable (writersUnder rules) Writer.IsNew
    (⟨(), none, fun _ => ⟨Engine.new [], none, [], []⟩, []⟩ : State Unit Bool Writer Index) :=
  ⟨_, ⟨rfl, rfl, fun _ => ⟨[], rfl⟩⟩, .refl⟩

end OtelStorage
