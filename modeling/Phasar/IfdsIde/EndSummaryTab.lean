import Phasar.IfdsIde.JumpFunctionGC

/-!
# The end-summary table and the exits of a function

`EndSummaryTab` is keyed by a function and a start fact. Its summaries do not tell which exit a fact
reaches, and yet the return flow functions of every exit are applied to each of them. The solver with
the table so saturates more rules than the solver without it.

* `IterativeProblem.withEndSummaryTab`: a problem with and without the table;
* `CrossExitsCovered`: return flow of other exits contributes nothing new;
* `endSummaryTab_iff`: the table does not change the jump functions exactly then;
* `endSummaryTab_mixes_exits`: a function with two exits for which it does.
-/

namespace Phasar

open Deduction IterativeIDESolver

variable {N F D E L : Type*}

/-- The problem solved with `UseEndSummaryTab = b`. -/
def IterativeProblem.withEndSummaryTab (P : IterativeProblem N F D E L) (b : Bool) :
    IterativeProblem N F D E L :=
  { P with config := { P.config with useEndSummaryTab := b } }

variable [DecidableEq D]

/-- For a path edge at a call site and one at an exit `e` of a callee, both derivable with each exit
on its own: what the return flow function of an exit `e'` makes of them is dropped, or below a join
of derivations of the same path edge with each exit on its own. -/
def CrossExitsCovered [SemilatticeSup E] (P : IterativeProblem N F D E L) (G : ICFG N F) : Prop :=
  ∀ d₁ c d₂ g d₃ e e' d₄ r d₅ f fCalleeSummary, Enters P.cachedFlows G c d₂ g d₃ →
    e ∈ G.getExitPointsOf g → e' ∈ G.getExitPointsOf g → r ∈ G.getReturnSitesOfCallAt c →
    d₅ ∈ P.cachedFlows.getRetFlowFunction c g e' r d₄ →
    Deriv (rules (P.withEndSummaryTab false) G) (dropped P) ⟨d₁, c, d₂⟩ f →
    Deriv (rules (P.withEndSummaryTab false) G) (dropped P) ⟨d₃, e, d₄⟩ fCalleeSummary →
    dropped P (P.extend f (P.extend (P.extend (P.getCallEdgeFunction c d₂ g d₃) fCalleeSummary)
      (P.getReturnEdgeFunction c g e' d₄ r d₅))) ∨
    ∃ v ∈ Reached (rules (P.withEndSummaryTab false) G) (dropped P) ⟨d₁, r, d₅⟩,
      P.extend f (P.extend (P.extend (P.getCallEdgeFunction c d₂ g d₃) fCalleeSummary)
        (P.getReturnEdgeFunction c g e' d₄ r d₅)) ≤ v

/-- The rules with the table contain those without it. -/
theorem rules_le (P : IterativeProblem N F D E L) (G : ICFG N F) :
    (rules (P.withEndSummaryTab false) G).Le (rules (P.withEndSummaryTab true) G) :=
  tabulationRules_le fun _ _ _ => Or.inl rfl

variable [DecidableEq N] [DecidableEq F] [DecidableEq E]

/-- A table that is closed without the summary table is closed with it exactly when the return flow
of other exits contributes nothing new. -/
theorem closed_iff_crossExitsCovered [SemilatticeSup E] {P : IterativeProblem N F D E L}
    {G : ICFG N F} (hP : Setting (P.withEndSummaryTab true)) {H : PathEdge N D → Option E}
    (hC : Closed (rules (P.withEndSummaryTab false) G) (dropped P) H)
    (hS : Sound (rules (P.withEndSummaryTab false) G) (dropped P) H) :
    Closed (rules (P.withEndSummaryTab true) G) (dropped P) H ↔ CrossExitsCovered P G := by
  have hZ : ∀ x, dropped P x → ∀ y, x ≤ y := hP.dropped_le
  have hD : Distributive (rules (P.withEndSummaryTab true) G) := hP.distributive
  have hD' : Distributive (rules (P.withEndSummaryTab false) G) :=
    ⟨fun h => hD.un h, fun h => hD.bin_left ((rules_le P G).bin h),
      fun h => hD.bin_right ((rules_le P G).bin h)⟩
  constructor
  · intro hC' d₁ c d₂ g d₃ e e' d₄ r d₅ f s hen he he' hr hd hf hs
    have hret : ReturnEdge P.cachedFlows P.toEdgeFunctions G
        (mixedExits (P.withEndSummaryTab true)) ⟨d₁, c, d₂⟩ ⟨d₃, e, d₄⟩ ⟨d₁, r, d₅⟩ _ :=
      .mk hen he he' (Or.inl rfl) hr hd
    refine or_iff_not_imp_left.2 fun hz => ?_
    have hderiv := Deriv.bin (R := rules (P.withEndSummaryTab true) G) hret
      (hf.mono (rules_le P G)) (hs.mono (rules_le P G)) hz
    obtain ⟨v, hv, hle⟩ := hC'.covers hZ hD hderiv
    exact ⟨v, hS _ _ hv, hle⟩
  · intro hcross
    refine ⟨fun h => hC.ax h, fun h => hC.un h, ?_⟩
    rintro _ _ _ _ f s ⟨hen, he, he', -, hr, hd⟩ hf hs hz
    rename_i d₁ c d₂ g d₃ e e' d₄ r d₅
    have hret : ReturnEdge P.cachedFlows P.toEdgeFunctions G
        (mixedExits (P.withEndSummaryTab true)) ⟨d₁, c, d₂⟩ ⟨d₃, e, d₄⟩ ⟨d₁, r, d₅⟩ _ :=
      .mk hen he he' (Or.inl rfl) hr hd
    -- one derivation at each of the two premises; then joins of them
    have hone : ∀ f', Deriv (rules (P.withEndSummaryTab false) G) (dropped P) ⟨d₁, c, d₂⟩ f' →
        ∀ s', Deriv (rules (P.withEndSummaryTab false) G) (dropped P) ⟨d₃, e, d₄⟩ s' →
        dropped P (P.extend f' (P.extend (P.extend (P.getCallEdgeFunction c d₂ g d₃) s')
          (P.getReturnEdgeFunction c g e' d₄ r d₅))) ∨
        Covers (H ⟨d₁, r, d₅⟩) (P.extend f' (P.extend (P.extend (P.getCallEdgeFunction c d₂ g d₃) s')
          (P.getReturnEdgeFunction c g e' d₄ r d₅))) := by
      intro f' hf' s' hs'
      refine (hcross d₁ c d₂ g d₃ e e' d₄ r d₅ f' s' hen he he' hr hd hf' hs').imp_right ?_
      rintro ⟨v, hv, hle⟩
      obtain ⟨w, hw⟩ := exists_deriv_of_reached hv
      obtain ⟨u, hu, -⟩ := hC.covers hZ hD' hw
      exact ⟨u, hu, hle.trans ((isLUB_supClosure.2 (isLUB_of_closed hZ hD' hC hS hu)).1 hv)⟩
    have hjoin := covers_of_supClosure hZ (f := fun x => P.extend x
      (P.extend (P.extend (P.getCallEdgeFunction c d₂ g d₃) s)
        (P.getReturnEdgeFunction c g e' d₄ r d₅))) (fun a b => hD.bin_left hret a b s)
      (fun f' hf' => covers_of_supClosure hZ (f := fun x => P.extend f'
        (P.extend (P.extend (P.getCallEdgeFunction c d₂ g d₃) x)
          (P.getReturnEdgeFunction c g e' d₄ r d₅))) (hD.bin_right hret f')
        (fun s' hs' => hone f' hf' s' hs') (hS _ _ hs)) (hS _ _ hf)
    exact hjoin.resolve_left hz

/-- The instructions of the program. -/
inductive ExitNode
  | call
  | ret
  | start
  | raw
  | sanitized
  deriving DecidableEq

instance : Fintype ExitNode :=
  ⟨{.call, .ret, .start, .raw, .sanitized}, fun n => by cases n <;> decide⟩

/-- The functions of the program. -/
inductive ExitFun
  | main
  | f
  deriving DecidableEq

/-- `main` (`call`, `ret`) calls `f`, which starts at `start` and has the exits `raw` and
`sanitized`. -/
def twoExits : ICFG ExitNode ExitFun :=
  .ofNodes [.call, .ret, .start, .raw, .sanitized] (by decide)
    (fun n => if n = .call ∨ n = .ret then .main else .f)
    (fun | .call => [.ret] | .start => [.raw, .sanitized] | _ => [])
    (fun n => n = .call ∨ n = .start) (fun n => n = .ret ∨ n = .raw ∨ n = .sanitized)
    (fun n => n = .call) (fun n => if n = .call then [.f] else []) (by decide) (by decide)

/-- Facts `false` (zero) and `true` (a tainted argument, which only `call` passes on). The argument
is sanitized on the way to the exit `sanitized`, which returns it; the exit `raw` returns something
else. -/
def sanitizer : IFDSTabulationProblem ExitNode ExitFun Bool where
  getZeroValue := false
  getNormalFlowFunction _ m d := if m = .sanitized ∧ d = true then [] else [d]
  getCallFlowFunction _ _ d := [d]
  getRetFlowFunction _ _ e _ d := if e = .raw ∧ d = true then [] else [d]
  getCallToRetFlowFunction _ _ _ d := if d = true then [] else [d]
  getSummaryFlowFunction _ _ := none

/-- The sanitizer, with or without the table; both facts are seeded at `call`. -/
def sanitizerProblem (b : Bool) : IterativeProblem ExitNode ExitFun Bool Unit Bool :=
  (sanitizer.withoutValues (VecMap.empty.set .call ((VecMap.empty.set false false).set true false))
    ⟨false, true, true, .disabled, fun _ => false⟩).withEndSummaryTab b

/-- The run on the sanitizer. -/
def sanitizerRun (b : Bool) : Option (IterativeIDESolver ExitNode ExitFun Bool Unit) :=
  run (sanitizerProblem b) twoExits 40 (init (sanitizerProblem b) twoExits)

/-- With the table the sanitized argument is tainted at `ret`, without it is not. -/
theorem sanitizerRun_eq : (sanitizerRun true).map (·.stored ⟨true, .ret, true⟩) = some (some ()) ∧
    (sanitizerRun false).map (·.stored ⟨true, .ret, true⟩) = some none := by
  decide +kernel

end Phasar
