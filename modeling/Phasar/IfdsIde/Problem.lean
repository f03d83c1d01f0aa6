import Phasar.ControlFlow.ICFG
import Phasar.Lib.VecMap
import Mathlib.Order.Lattice

/-!
# Tabulation problems

The data-flow problems the IFDS/IDE solvers take: flow functions over facts `D`, edge functions `E`
over values `L`, and initial seeds. A container of facts is the list of its elements. The solvers
read flow functions through a cache that, with `autoAddZero`, lets the zero value generate itself
(`ZeroedFlowFunction`, `AutoAddZeroFF`); a special summary is never wrapped.

* `IFDSTabulationProblem`, `IDETabulationProblem`;
* `zeroed`, `IFDSTabulationProblem.cached`;
* `EdgeFunctions`: what a solver asks of edge functions, and `emptyEdgeFunctions`, its instance for
  solvers that compute no values;
* `LawfulEdgeFunctions`: the algebraic laws of edge functions.
-/

namespace Phasar

/-- The flow functions of a problem, its zero value and its seeds without their values. -/
structure IFDSTabulationProblem (N F D : Type*) where
  getZeroValue : D
  getNormalFlowFunction : N → N → D → List D
  getCallFlowFunction : N → F → D → List D
  getRetFlowFunction : N → F → N → N → D → List D
  getCallToRetFlowFunction : N → N → List F → D → List D
  getSummaryFlowFunction : N → F → Option (D → List D)

/-- `ZeroedFlowFunction`: the zero value always generates itself. -/
def zeroed {D : Type*} [DecidableEq D] (zeroValue : D) (delegate : D → List D) (source : D) :
    List D :=
  if source = zeroValue then (delegate source).insert zeroValue else delegate source

/-- The flow functions as the solvers' cache hands them out. -/
def IFDSTabulationProblem.cached {N F D : Type*} [DecidableEq D] (P : IFDSTabulationProblem N F D)
    (autoAddZero : Bool) : IFDSTabulationProblem N F D :=
  if autoAddZero then
    { P with
      getNormalFlowFunction := fun n m => zeroed P.getZeroValue (P.getNormalFlowFunction n m)
      getCallFlowFunction := fun c f => zeroed P.getZeroValue (P.getCallFlowFunction c f)
      getRetFlowFunction := fun c f e r => zeroed P.getZeroValue (P.getRetFlowFunction c f e r)
      getCallToRetFlowFunction := fun c r fs =>
        zeroed P.getZeroValue (P.getCallToRetFlowFunction c r fs) }
  else P

@[simp] theorem IFDSTabulationProblem.cached_getSummaryFlowFunction {N F D : Type*} [DecidableEq D]
    (P : IFDSTabulationProblem N F D) (b : Bool) :
    (P.cached b).getSummaryFlowFunction = P.getSummaryFlowFunction := by
  cases b <;> rfl

@[simp] theorem IFDSTabulationProblem.cached_getZeroValue {N F D : Type*} [DecidableEq D]
    (P : IFDSTabulationProblem N F D) (b : Bool) : (P.cached b).getZeroValue = P.getZeroValue := by
  cases b <;> rfl

/-- The edge functions of a problem: the functions on the edges of the exploded supergraph, and how
a solver composes (`extend`) and joins (`combine`) them. `isAllTop` is `llvm::isa<AllTop<l_t>>`. A
special summary may come without an edge function. -/
structure EdgeFunctions (N F D E : Type*) where
  getNormalEdgeFunction : N → D → N → D → E
  getCallEdgeFunction : N → D → F → D → E
  getReturnEdgeFunction : N → F → N → D → N → D → E
  getCallToRetEdgeFunction : N → D → N → D → List F → E
  getSummaryEdgeFunction : N → D → N → D → Option E
  extend : E → E → E
  combine : E → E → E
  identity : E
  isAllTop : E → Bool

/-- The edge functions of a solver with `ComputeValues = false`: its `EdgeFunctionPtrType` is the
`EmptyType`, which has a single value and no `AllTop`. -/
def emptyEdgeFunctions (N F D : Type*) : EdgeFunctions N F D Unit where
  getNormalEdgeFunction _ _ _ _ := ()
  getCallEdgeFunction _ _ _ _ := ()
  getReturnEdgeFunction _ _ _ _ _ _ := ()
  getCallToRetEdgeFunction _ _ _ _ _ := ()
  getSummaryEdgeFunction _ _ _ _ := some ()
  extend _ _ := ()
  combine _ _ := ()
  identity := ()
  isAllTop _ := false

/-- The algebra of edge functions: `combine` is a semilattice operation in which `AllTop` is neutral,
`extend` is associative and distributes over `combine` on both sides. -/
structure LawfulEdgeFunctions {N F D E : Type*} (ef : EdgeFunctions N F D E) : Prop where
  combine_assoc : ∀ a b c, ef.combine (ef.combine a b) c = ef.combine a (ef.combine b c)
  combine_comm : ∀ a b, ef.combine a b = ef.combine b a
  combine_idem : ∀ a, ef.combine a a = a
  allTop_combine : ∀ a b, ef.isAllTop a = true → ef.combine a b = b
  extend_assoc : ∀ a b c, ef.extend (ef.extend a b) c = ef.extend a (ef.extend b c)
  extend_combine : ∀ a b c, ef.extend a (ef.combine b c) = ef.combine (ef.extend a b) (ef.extend a c)
  combine_extend : ∀ a b c, ef.extend (ef.combine a b) c = ef.combine (ef.extend a c) (ef.extend b c)

/-- The join semilattice of lawful edge functions: `a ≤ b` when `b` absorbs `a`, so values grow from
`AllTop` as paths are joined in. -/
@[reducible] def LawfulEdgeFunctions.semilattice {N F D E : Type*} {ef : EdgeFunctions N F D E}
    (h : LawfulEdgeFunctions ef) : SemilatticeSup E :=
  letI : Max E := ⟨ef.combine⟩
  SemilatticeSup.mk' h.combine_comm h.combine_assoc h.combine_idem

/-! ### IDE problems -/

/-- The solver options the model reads. -/
structure IFDSIDESolverConfig where
  followReturnsPastSeeds : Bool
  autoAddZero : Bool

/-- An IDE problem: edge functions over the value lattice `L` and seeds with their values.
`extendNull` stands for `extend` of a special summary that comes without an edge function; nothing
is assumed about it. -/
structure IDETabulationProblem (N F D E L : Type*) extends
    IFDSTabulationProblem N F D, EdgeFunctions N F D E where
  allTopFunction : E
  extendNull : E → E
  topElement : L
  bottomElement : L
  join : L → L → L
  computeTarget : E → L → L
  initialSeeds : VecMap N (VecMap D L)
  solverConfig : IFDSIDESolverConfig
  isAllTop_iff : ∀ e, isAllTop e = true ↔ e = allTopFunction

namespace IDETabulationProblem

variable {N F D E L : Type*} [DecidableEq N] [DecidableEq D] (P : IDETabulationProblem N F D E L)

/-- `CachedFlowEdgeFunctions`, as far as flow functions are concerned. -/
def cachedFlows : IFDSTabulationProblem N F D :=
  P.toIFDSTabulationProblem.cached P.solverConfig.autoAddZero

/-- `extend` with the possibly missing edge function of a special summary. -/
def extendSummary (f : E) : Option E → E
  | some g => P.extend f g
  | none => P.extendNull f

/-- `addSeed` of the zero value at one seed node, unless it is seeded there already. -/
def seedZeroAt (facts : VecMap D L) : VecMap D L :=
  match facts.get? P.getZeroValue with
  | some _ => facts
  | none => facts.set P.getZeroValue P.bottomElement

/-- The seeds after `submitInitialSeeds` has added the zero value to every seed node. -/
def seeds : VecMap N (VecMap D L) where
  entries := P.initialSeeds.entries.map fun e => (e.1, P.seedZeroAt e.2)
  nodup := by simpa [Function.comp_def] using P.initialSeeds.nodup

/-- `fact` is seeded at `n`, the auto-added zero value included. -/
def IsSeed (n : N) (fact : D) : Prop :=
  ∃ facts, (n, facts) ∈ P.seeds.entries ∧ fact ∈ facts.keys

end IDETabulationProblem

end Phasar
