import Phasar.IfdsIde.CallAgreement

/-!
# The iterative IDE solver, phase II

`performValuePropagation` turns what phase I has left into values. Jobs propagate values from the start
point of a function along the registered calls to the start points of the callees (`propagateValue`). Then
each start point whose values changed gives values to the other instructions of its function
(`computeValues`).

* `IterativeValueState`: `ValTab`, `WLProp`, `WLComp`;
* `submitInitialValues`, `propagateValue`, `computeValues`;
* `Step`: the processing of any job on `WLProp`;
* `finish`: the loop over `WLComp`, in any order.

A value that is read and has no entry gets one, with the default value of its type: `absent`.
-/

namespace Phasar

/-- The state of phase II. A missing entry of `valTab` is `none`. -/
structure IterativeValueState (N D L : Type*) where
  valTab : Table N D (Option L)
  wlProp : List ((N × D) × L)
  wlComp : List N

namespace IterativeValueState

variable {N F D E L : Type*} [DecidableEq N] [DecidableEq F] [DecidableEq D] [DecidableEq L]
variable (P : IDETabulationProblem N F D E L) (config : StaticSolverConfig N) (G : ICFG N F)
  (S : IterativeIDESolver N F D E) (absent : L)

/-- The value of a fact; it has an entry then. -/
def get (V : IterativeValueState N D L) (inst : N) (fact : D) : L × IterativeValueState N D L :=
  ((V.valTab inst fact).getD absent,
    { V with valTab := V.valTab.modify inst fact fun val => some (val.getD absent) })

def set (V : IterativeValueState N D L) (inst : N) (fact : D) (val : L) : IterativeValueState N D L :=
  if config.enableJumpFunctionGC = .enabledAggressively ∧
      IterativeIDESolver.keepAnalysisInformationAt (P.forIterative config) G true inst = false then V
  else { V with valTab := V.valTab.modify inst fact fun _ => some val }

/-- The jobs that `SourceFactAndCSToInterJob` leads to. -/
def interJobs (fact : D) (callSite : N) : List (InterPropagationJob N F D E) :=
  S.allInterPropagations.filter fun job => job.sourceFact = fact ∧ job.callSite = callSite

/-- Give a contribution to the start points of the callee. -/
def emplace (val : L) (V : IterativeValueState N D L) (job : InterPropagationJob N F D E) :
    IterativeValueState N D L :=
  (G.getStartPointsOf job.callee).foldl (fun V calleeSP =>
    { V with wlProp := V.wlProp ++ [((calleeSP, job.factInCallee), P.computeTarget job.sourceEF val)] }) V

/-- Join a value into the one at a start point; if that changes it, go on with the calls. -/
def propagateValue (V : IterativeValueState N D L) (sp : N) (fact : D) (val : L) :
    IterativeValueState N D L :=
  let storedVal := V.get absent sp fact
  let newVal := P.join storedVal.1 val
  if newVal = storedVal.1 then storedVal.2
  else
    let V := storedVal.2.set P config G sp fact newVal
    let V := { V with wlComp := V.wlComp.insert sp }
    (G.getCallsFromWithin (G.getFunctionOf sp)).foldl (fun V callSite =>
      (interJobs S fact callSite).foldl (emplace P G val) V) V

/-- What one jump function gives to the value of its target. -/
def computeCell (sp inst : N) (V : IterativeValueState N D L) (cell : (D × D) × E) :
    IterativeValueState N D L :=
  let val := V.get absent sp cell.1.1
  let storedVal := val.2.get absent inst cell.1.2
  let newVal := P.join storedVal.1 (P.computeTarget cell.2 val.1)
  if newVal ≠ storedVal.1 then storedVal.2.set P config G inst cell.1.2 newVal else storedVal.2

/-- The values at the other instructions of the function of a start point. -/
def computeValues (V : IterativeValueState N D L) (sp : N) : IterativeValueState N D L :=
  (G.getAllInstructionsOf (G.getFunctionOf sp)).foldl (fun V inst =>
    if inst = sp then V
    else if config.enableJumpFunctionGC = .enabledAggressively ∧ config.isInteresting inst = false then V
    else (S.jumpFunctions inst).entries.foldl (computeCell P config G absent sp inst) V) V

/-- What phase I has left; its values are all top. -/
def initial : IterativeValueState N D L where
  valTab inst fact := if S.valTab inst fact then some P.topElement else none
  wlProp := []
  wlComp := []

/-- Put the seeds on `WLProp`. -/
def submitInitialValues : IterativeValueState N D L :=
  P.initialSeeds.entries.foldl (fun V entry =>
    entry.2.entries.foldl (fun V seed =>
      { V with wlProp := V.wlProp ++ [((entry.1, seed.1), seed.2)] }) V) (initial P S)

/-- A job is taken from `WLProp`. -/
inductive Step (V : IterativeValueState N D L) : IterativeValueState N D L → Prop
  | take (l r : List ((N × D) × L)) (sp : N) (fact : D) (val : L) :
      V.wlProp = l ++ ((sp, fact), val) :: r →
      Step V (propagateValue P config G S absent { V with wlProp := l ++ r } sp fact val)

/-- The states of the loop over `WLProp`, the jobs taken in any order. -/
inductive Reachable : IterativeValueState N D L → Prop
  | init : Reachable (submitInitialValues P S)
  | step {V V' : IterativeValueState N D L} : Reachable V → Step P config G S absent V V' → Reachable V'

/-- `processEntriesUntilEmpty`, given up after `fuel` jobs; it takes the back. -/
def loop : ℕ → IterativeValueState N D L → IterativeValueState N D L
  | 0, V => V
  | fuel + 1, V =>
    match V.wlProp.getLast? with
    | none => V
    | some job =>
      loop fuel (propagateValue P config G S absent { V with wlProp := V.wlProp.dropLast }
        job.1.1 job.1.2 job.2)

/-- The loop over `WLComp`, with its elements in the given order. -/
def finish (V : IterativeValueState N D L) (order : List N) : IterativeValueState N D L :=
  { order.foldl (computeValues P config G S absent) V with wlProp := [], wlComp := [] }

omit [DecidableEq F] in
theorem reachable_loop (fuel : ℕ) {V : IterativeValueState N D L} (h : Reachable P config G S absent V) :
    Reachable P config G S absent (loop P config G S absent fuel V) := by
  induction fuel generalizing V with
  | zero => exact h
  | succ fuel ih =>
    unfold loop
    cases hl : V.wlProp.getLast? with
    | none => exact h
    | some job =>
      obtain ⟨ys, hys⟩ := List.getLast?_eq_some_iff.1 hl
      refine ih (h.step ?_)
      simpa [hys] using Step.take ys [] job.1.1 job.1.2 job.2 hys

end IterativeValueState

end Phasar
