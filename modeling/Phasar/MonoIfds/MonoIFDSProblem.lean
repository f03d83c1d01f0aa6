import Mathlib.Data.Finset.Union
import Phasar.Lib.VecMap
import Phasar.Utils.Compressor

/-!
# Problems of the `MonoIFDSSolver`

The environments that the solver propagates, a map from facts to the source facts that they come from with
the two counters of environment versioning, and what a problem has to provide.

* `SourceFactSet`, `DataFlowEnvironment`: `mergeStates`, `tryMergeStates`;
* `MonoIfdsConfig`;
* `LocalMonoIFDSProblem`, `MonoIFDSProblem`, `Distributive`.
-/

namespace Phasar.MonoIfds

/-- `BitSet<SourceFactId>`. -/
abbrev SourceFactSet := Finset ℕ

/-- What `tryMergeWith` leaves, and whether it changed anything. -/
def SourceFactSet.tryMergeWith (set other : SourceFactSet) : SourceFactSet × Bool :=
  if other ⊆ set then (set, false) else (set ∪ other, true)

/-- The map of a `DataFlowEnvironment`. -/
abbrev FactMap (D : Type*) := VecMap D SourceFactSet

/-- `DataFlowEnvironment`. -/
structure DataFlowEnvironment (D : Type*) where
  facts : FactMap D := .empty
  analyzedVersion : UInt32 := 0
  version : UInt32 := 1

section

variable {D : Type*} [DecidableEq D]

/-- `Facts[Fact].insertAllOf(From)`. -/
def FactMap.insertAllOf (facts : FactMap D) (fact : D) (from' : SourceFactSet) : FactMap D :=
  facts.alter fact fun old => old.getD ∅ ∪ from'

/-- `Facts[Fact].insert(Id)`. -/
def FactMap.insert (facts : FactMap D) (fact : D) (id : ℕ) : FactMap D := facts.insertAllOf fact {id}

/-- The source fact `s` has the fact `d`. -/
def FactMap.Holds (facts : FactMap D) (s : ℕ) (d : D) : Prop := ∃ from', facts.get? d = some from' ∧ s ∈ from'

namespace DataFlowEnvironment

def empty (env : DataFlowEnvironment D) : Bool := env.facts.entries.isEmpty

def size (env : DataFlowEnvironment D) : ℕ := env.facts.entries.length

/-- `operator==` of the maps; the versions are not compared. -/
def eq (lhs rhs : DataFlowEnvironment D) : Bool :=
  lhs.size = rhs.size ∧ ∀ entry ∈ lhs.facts.entries, rhs.facts.get? entry.1 = some entry.2

def incVersion (env : DataFlowEnvironment D) : DataFlowEnvironment D := { env with version := env.version + 1 }

/-- The part of `mergeStates` behind the swap. -/
def mergeInto (into from' : DataFlowEnvironment D) : DataFlowEnvironment D :=
  { into with facts := from'.facts.entries.foldl (fun facts entry => facts.insertAllOf entry.1 entry.2) into.facts }

/-- `mergeStates`. Where an environment is moved or swapped, its versions go with it. -/
def mergeStates (into from' : DataFlowEnvironment D) : DataFlowEnvironment D :=
  if into.empty then from'
  else if into.size < from'.size then mergeInto from' into
  else mergeInto into from'

/-- Merge an entry; whether this is a change. -/
def tryMergeEntry (state : FactMap D × Bool) (entry : D × SourceFactSet) : FactMap D × Bool :=
  match state.1.get? entry.1 with
  | none => (state.1.set entry.1 entry.2, true)
  | some old =>
    let merged := SourceFactSet.tryMergeWith old entry.2
    (state.1.set entry.1 merged.1, state.2 || merged.2)

/-- `tryMergeStates`. An empty environment takes over the versions, too. -/
def tryMergeStates (into from' : DataFlowEnvironment D) : DataFlowEnvironment D × Bool :=
  if into.empty then (from', !from'.empty)
  else
    let merged := from'.facts.entries.foldl tryMergeEntry (into.facts, false)
    ({ into with facts := merged.1 }, merged.2)

end DataFlowEnvironment

end

/-! ### Configurations -/

inductive IterationStrategy
  | dedupFIFOQueue
  | topoPrioQueue
  | hybrid
  deriving DecidableEq, Repr

/-- `MonoIfdsConfig`. -/
structure MonoIfdsConfig where
  iterStrategy : IterationStrategy := .dedupFIFOQueue
  enableEnvVersioning : Bool := false
  eagerReturnPropagation : Bool := false
  deriving DecidableEq, Repr

/-! ### Problems -/

/-- The analysis of a component of the call graph. A flow function gets a map, and returns what it makes of it. -/
structure LocalMonoIFDSProblem (N F D : Type*) where
  getZeroValue : D
  normalFlow : FactMap D → N → FactMap D
  callToRetFlow : FactMap D → N → FactMap D
  returnFlow : N → D → List D
  invCallFlow : N → D → List D
  /-- Whether a summary was applied, and the second map with it. -/
  summaryFlow : FactMap D → FactMap D → N → F → Bool × FactMap D
  initialSeeds : FactMap D → Compressor D → F → FactMap D × Compressor D
  generateFactsAtCall : N → F → List D
  generateFacts : N → List D
  requestResultCallbackAtCallSite : N → F → List D
  requestResultCallback : N → List D

/-- `MonoIFDSProblem`; without `shouldBeInSummary` that is always true. -/
structure MonoIFDSProblem (N F D : Type*) where
  localAnalysis : ℕ → LocalMonoIFDSProblem N F D
  shouldBeInSummary : D → N → Bool := fun _ _ => true

variable {N F D : Type*} [DecidableEq D]

/-- The flow function acts on each fact of its own. -/
def FactByFact (flow : FactMap D → FactMap D) : Prop :=
  ∃ targets : D → D → Prop, ∀ facts s d', (flow facts).Holds s d' ↔ ∃ d, facts.Holds s d ∧ targets d d'

/-- The flow functions act fact by fact. For returns and `invCallFlow` their types say so. -/
structure LocalMonoIFDSProblem.Distributive (P : LocalMonoIFDSProblem N F D) : Prop where
  normalFlow : ∀ inst, FactByFact (P.normalFlow · inst)
  callToRetFlow : ∀ inst, FactByFact (P.callToRetFlow · inst)
  summaryFlow : ∀ inst callee, ∃ (applied : Bool) (targets : D → D → Prop),
    ∀ facts collected, (P.summaryFlow facts collected inst callee).1 = applied ∧
      ∀ s d', (P.summaryFlow facts collected inst callee).2.Holds s d' ↔
        collected.Holds s d' ∨ applied = true ∧ ∃ d, facts.Holds s d ∧ targets d d'

def MonoIFDSProblem.Distributive (P : MonoIFDSProblem N F D) : Prop := ∀ scc, (P.localAnalysis scc).Distributive

end Phasar.MonoIfds
