import Phasar.IfdsIde.JumpFunctions

/-!
# The iterative IDE solver, phase I

`IterativeIDESolver` records a path edge when it is found and puts it on the work list; a popped edge
is pushed along the intra-procedural flow. At a call site the return flow is deferred: the call is
registered as an `InterPropagationJob`, and when the work list has run empty, `processInterJobs`
applies the summaries of every function with a new fact at an exit (`CallWL`) to the calls registered
for it. Optionally the jump functions of functions that cannot get new facts are then collected. The
graph has no `advanceToNextUser`, which only sparse graphs provide.

* `StaticSolverConfig`, `IterativeProblem`: the options and the problem, as the solver reads them;
  `IFDSTabulationProblem.withoutValues`: a problem solved with `ComputeValues = false`;
* `IterativeIDESolver`: the state; `storeResultsAndPropagate` and the functions built on it;
* `processInterJobs`, `runGC`, `doNext`;
* `Step`: `doNext`, returning true, with any element of the work list and any order of `CallWL`;
  `Finishes`: `doNext` returning false.
-/

namespace Phasar

/-- `JumpFunctionGCMode`. -/
inductive JumpFunctionGCMode
  | disabled
  | enabled
  | enabledAggressively
  deriving DecidableEq

/-- The static options of the solver. `isInteresting` is an optional member of the problem, constantly
false if it is missing. -/
structure StaticSolverConfig (N : Type*) where
  computeValues : Bool
  autoAddZero : Bool
  useEndSummaryTab : Bool
  enableJumpFunctionGC : JumpFunctionGCMode
  isInteresting : N → Bool

/-- A problem with the options it is solved with. Without values (`ComputeValues = false`) the edge
functions are `emptyEdgeFunctions`. -/
structure IterativeProblem (N F D E L : Type*) extends
    IFDSTabulationProblem N F D, EdgeFunctions N F D E where
  initialSeeds : VecMap N (VecMap D L)
  config : StaticSolverConfig N

/-- The problem that is solved with `ComputeValues = false`. -/
def IFDSTabulationProblem.withoutValues {N F D L : Type*} (FF : IFDSTabulationProblem N F D)
    (initialSeeds : VecMap N (VecMap D L)) (config : StaticSolverConfig N) :
    IterativeProblem N F D Unit L where
  toIFDSTabulationProblem := FF
  toEdgeFunctions := emptyEdgeFunctions N F D
  initialSeeds := initialSeeds
  config := { config with computeValues := false }

namespace IterativeProblem

variable {N F D E L : Type*} (P : IterativeProblem N F D E L)

/-- The flow functions as the cache hands them out. -/
def cachedFlows [DecidableEq D] : IFDSTabulationProblem N F D :=
  P.toIFDSTabulationProblem.cached P.config.autoAddZero

/-- A special summary without an edge function keeps the edge function of the source. -/
def extendSummary (f : E) : Option E → E
  | some g => P.extend f g
  | none => f

/-- `fact` is seeded at `n`; the zero value is not added. -/
def IsSeed (n : N) (fact : D) : Prop :=
  ∃ facts, (n, facts) ∈ P.initialSeeds.entries ∧ fact ∈ facts.keys

end IterativeProblem

/-- A call whose callee is entered with `factInCallee`; the two next-pointers of the source are the
lists that hold the job. -/
structure InterPropagationJob (N F D E : Type*) where
  sourceEF : E
  sourceFact : D
  callee : F
  callSite : N
  factInCallee : D
  deriving DecidableEq

/-- The state of phase I. `valTab` tells which facts have an entry; the entries are all top. -/
structure IterativeIDESolver (N F D E : Type*) where
  workList : List (PathEdge N D × E)
  allInterPropagations : List (InterPropagationJob N F D E)
  callWL : List (D × F)
  sourceFactAndFuncToInterJob : Table D F (List (InterPropagationJob N F D E))
  jumpFunctions : N → VecMap (D × D) E
  endSummaryTab : Table F D (VecMap D E)
  valTab : Table N D Bool
  refCountPerFunction : F → ℕ
  candidateFunctionsForGC : List F

namespace IterativeIDESolver

variable {N F D E L : Type*} [DecidableEq N] [DecidableEq F] [DecidableEq D] [DecidableEq E]
variable (P : IterativeProblem N F D E L) (G : ICFG N F)

/-! ### Storing path edges -/

/-- `keepAnalysisInformationAt<Set>`: exits, start points, return sites and, when an entry is set or
values are computed, interesting instructions. -/
def keepAnalysisInformationAt (forSet : Bool) (inst : N) : Bool :=
  (G.isExitInst inst || G.isStartPoint inst) || (G.getPredsOf inst).any G.isCallSite ||
    ((forSet || P.config.computeValues) && P.config.isInteresting inst)

/-- Create the entry of a fact. -/
def set (S : IterativeIDESolver N F D E) (inst : N) (fact : D) : IterativeIDESolver N F D E :=
  if P.config.enableJumpFunctionGC = .enabledAggressively ∧
      keepAnalysisInformationAt P G true inst = false then S
  else { S with valTab := S.valTab.modify inst fact fun _ => true }

/-- Write a jump function and register a propagation job for it. -/
def register (S : IterativeIDESolver N F D E) (edge : PathEdge N D) (funId : F) (f : E) :
    IterativeIDESolver N F D E :=
  let S := { S with
    jumpFunctions := Function.update S.jumpFunctions edge.target
      ((S.jumpFunctions edge.target).set (edge.dSource, edge.dTarget) f)
    workList := S.workList ++ [(edge, f)] }
  if P.config.enableJumpFunctionGC = .disabled then S
  else
    { S with
      refCountPerFunction :=
        Function.update S.refCountPerFunction funId (S.refCountPerFunction funId + 1)
      candidateFunctionsForGC := S.candidateFunctionsForGC.insert funId }

/-- Join an edge function into the jump function of a path edge. A new or changed jump function gets a
propagation job; all-top, a killed fact, is not stored. -/
def storeResultsAndPropagate (funId : F) (S : IterativeIDESolver N F D E)
    (item : PathEdge N D × E) : IterativeIDESolver N F D E :=
  let edge := item.1
  if P.isAllTop item.2 then S
  else
    match (S.jumpFunctions edge.target).get? (edge.dSource, edge.dTarget) with
    | none => set P G (register P S edge funId item.2) edge.target edge.dTarget
    | some f =>
      let newEF := P.combine f item.2
      if newEF ≠ f then register P S edge funId newEF else S

/-- Store path edges one after another. -/
def storeAll (funId : F) (S : IterativeIDESolver N F D E) (items : List (PathEdge N D × E)) :
    IterativeIDESolver N F D E :=
  items.foldl (storeResultsAndPropagate P G funId) S

/-- Join an edge function into the summaries of a function. -/
def storeSummary (jumpFns : VecMap D E) (localFact : D) (localEF : E) : VecMap D E :=
  match jumpFns.get? localFact with
  | none => jumpFns.set localFact localEF
  | some f =>
    let newEF := P.combine f localEF
    if newEF ≠ f then jumpFns.set localFact newEF else jumpFns

/-! ### Normal flow -/

/-- The edges along the normal flow. -/
def normalEdges (edge : PathEdge N D) (sourceEF : E) : List (PathEdge N D × E) :=
  (G.getSuccsOf edge.target).flatMap fun succ =>
    (P.cachedFlows.getNormalFlowFunction edge.target succ edge.dTarget).map fun fact =>
      (⟨edge.dSource, succ, fact⟩,
        P.extend sourceEF (P.getNormalEdgeFunction edge.target edge.dTarget succ fact))

/-- An edge at an instruction that is no call; at an exit the calls of the function are rescheduled,
and the summary table is updated. -/
def applyNormalFlow (S : IterativeIDESolver N F D E) (edge : PathEdge N D) (sourceEF : E) :
    IterativeIDESolver N F D E :=
  let funId := G.getFunctionOf edge.target
  let S := storeAll P G funId S (normalEdges P G edge sourceEF)
  if G.isExitInst edge.target then
    let S := { S with callWL := S.callWL.insert (edge.dSource, funId) }
    if P.config.useEndSummaryTab then
      { S with
        endSummaryTab := S.endSummaryTab.modify funId edge.dSource fun tab =>
          storeSummary P tab edge.dTarget sourceEF }
    else S
  else S

/-! ### Returns -/

/-- The facts known at the exit `exitInst` for the fact `fact` at the start of `callee`. The summary
table does not tell the exits of a function apart. -/
def summaries (S : IterativeIDESolver N F D E) (callee : F) (fact : D) (exitInst : N) :
    List (D × E) :=
  if P.config.useEndSummaryTab then (S.endSummaryTab callee fact).entries
  else ((S.jumpFunctions exitInst).entries.filter fun e => e.1.1 = fact).map fun e => (e.1.2, e.2)

/-- The edges to the return sites of a call made of summaries at one exit of the callee. -/
def procedureSummaryEdges (summaries : List (D × E)) (callSite : N) (callee : F) (exitInst : N)
    (sourceFact : D) (callEF : E) : List (PathEdge N D × E) :=
  (G.getReturnSitesOfCallAt callSite).flatMap fun retSite =>
    summaries.flatMap fun summary =>
      (P.cachedFlows.getRetFlowFunction callSite callee exitInst retSite summary.1).map
        fun retFact => (⟨sourceFact, retSite, retFact⟩,
          P.extend (P.extend callEF summary.2)
            (P.getReturnEdgeFunction callSite callee exitInst summary.1 retSite retFact))

/-- Apply summaries at one exit to a call. -/
def propagateProcedureSummaries (S : IterativeIDESolver N F D E) (summaries : List (D × E))
    (callSite : N) (callee : F) (exitInst : N) (sourceFact : D) (callEF : E) :
    IterativeIDESolver N F D E :=
  storeAll P G (G.getFunctionOf callSite) S
    (procedureSummaryEdges P G summaries callSite callee exitInst sourceFact callEF)

/-- Apply the summaries that are there when a call is registered. -/
def applyEarlySummariesAtCall (S : IterativeIDESolver N F D E)
    (job : InterPropagationJob N F D E) : IterativeIDESolver N F D E :=
  (G.getExitPointsOf job.callee).foldl
    (fun S exitInst => propagateProcedureSummaries P G S
      (summaries P S job.callee job.factInCallee exitInst) job.callSite job.callee exitInst
      job.sourceFact job.sourceEF) S

/-! ### Calls -/

/-- One fact that a call carries to the start point `sp` of a callee. The first time, the summaries
already there are applied, and the call is registered for those to come. -/
def enterCallee (edge : PathEdge N D) (sourceEF : E) (callee : F) (sp : N)
    (S : IterativeIDESolver N F D E) (fact : D) : IterativeIDESolver N F D E :=
  let callEF := P.extend sourceEF (P.getCallEdgeFunction edge.target edge.dTarget callee fact)
  let S := storeResultsAndPropagate P G callee S (⟨fact, sp, fact⟩, P.identity)
  let job : InterPropagationJob N F D E := ⟨callEF, edge.dSource, callee, edge.target, fact⟩
  if job ∈ S.allInterPropagations then S
  else
    let S := { S with allInterPropagations := job :: S.allInterPropagations }
    let S := applyEarlySummariesAtCall P G S job
    { S with
      sourceFactAndFuncToInterJob :=
        S.sourceFactAndFuncToInterJob.modify fact callee (job :: ·) }

/-- Start the callee and defer the return flow. -/
def deferCallFlow (S : IterativeIDESolver N F D E) (edge : PathEdge N D) (sourceEF : E)
    (callee : F) : IterativeIDESolver N F D E :=
  (G.getStartPointsOf callee).foldl
    (fun S sp => (P.cachedFlows.getCallFlowFunction edge.target callee edge.dTarget).foldl
      (enterCallee P G edge sourceEF callee sp) S) S

/-- The edges of a special summary. -/
def summaryEdges (edge : PathEdge N D) (sourceEF : E) (summaryFF : D → List D) :
    List (PathEdge N D × E) :=
  (G.getReturnSitesOfCallAt edge.target).flatMap fun retSite =>
    (summaryFF edge.dTarget).map fun fact =>
      (⟨edge.dSource, retSite, fact⟩,
        P.extendSummary sourceEF
          (P.getSummaryEdgeFunction edge.target edge.dTarget retSite fact))

/-- One callee of a call. The flag, whether nothing is known of the callee, goes into the kind of the
call-to-return edges and is overwritten by each callee. -/
def handleCallee (edge : PathEdge N D) (sourceEF : E) (S : IterativeIDESolver N F D E × Bool)
    (callee : F) : IterativeIDESolver N F D E × Bool :=
  match P.cachedFlows.getSummaryFlowFunction edge.target callee with
  | none => (deferCallFlow P G S.1 edge sourceEF callee, (G.getStartPointsOf callee).isEmpty)
  | some summaryFF =>
    (storeAll P G (G.getFunctionOf edge.target) S.1 (summaryEdges P G edge sourceEF summaryFF),
      false)

/-- All callees of a call. -/
def handleOrDeferCallFlow (S : IterativeIDESolver N F D E) (edge : PathEdge N D) (sourceEF : E)
    (callees : List F) : IterativeIDESolver N F D E × Bool :=
  callees.foldl (handleCallee P G edge sourceEF) (S, true)

/-- The edges along the call-to-return flow. -/
def callToReturnEdges (edge : PathEdge N D) (sourceEF : E) : List (PathEdge N D × E) :=
  (G.getReturnSitesOfCallAt edge.target).flatMap fun retSite =>
    (P.cachedFlows.getCallToRetFlowFunction edge.target retSite
      (G.getCalleesOfCallAt edge.target) edge.dTarget).map fun fact =>
        (⟨edge.dSource, retSite, fact⟩,
          P.extend sourceEF (P.getCallToRetEdgeFunction edge.target edge.dTarget retSite fact
            (G.getCalleesOfCallAt edge.target)))

/-- An edge at a call site. -/
def applyIntraCallFlow (S : IterativeIDESolver N F D E) (edge : PathEdge N D) (sourceEF : E) :
    IterativeIDESolver N F D E :=
  let S := (handleOrDeferCallFlow P G S edge sourceEF (G.getCalleesOfCallAt edge.target)).1
  storeAll P G (G.getFunctionOf edge.target) S (callToReturnEdges P G edge sourceEF)

/-- `propagate`: process a job taken from the work list. -/
def propagate (S : IterativeIDESolver N F D E) (edge : PathEdge N D) (sourceEF : E) :
    IterativeIDESolver N F D E :=
  let funId := G.getFunctionOf edge.target
  let S := if P.config.enableJumpFunctionGC = .disabled then S
    else { S with
      refCountPerFunction :=
        Function.update S.refCountPerFunction funId (S.refCountPerFunction funId - 1) }
  if !G.isCallSite edge.target then applyNormalFlow P G S edge sourceEF
  else applyIntraCallFlow P G S edge sourceEF

/-! ### Deferred returns -/

/-- Apply the summaries of one function and start fact to the calls registered for them. -/
def processRelevantCall (S : IterativeIDESolver N F D E) (call : D × F) :
    IterativeIDESolver N F D E :=
  (G.getExitPointsOf call.2).foldl
    (fun S exitInst =>
      let summaries := summaries P S call.2 call.1 exitInst
      (S.sourceFactAndFuncToInterJob call.1 call.2).foldl
        (fun S job => propagateProcedureSummaries P G S summaries job.callSite call.2 exitInst
          job.sourceFact job.sourceEF) S) S

/-- `processInterJobs`, with the elements of `CallWL` in the given order. -/
def processInterJobs (S : IterativeIDESolver N F D E) (relevantCalls : List (D × F)) :
    IterativeIDESolver N F D E :=
  relevantCalls.foldl (processRelevantCall P G) { S with callWL := [] }

/-! ### Garbage collection -/

/-- The functions that call `f`. -/
def callerFunctions (f : F) : List F := (G.getCallersOf f).map G.getFunctionOf

/-- `BitVector::reset` on a list of functions. -/
def reset (funs : List F) (f : F) : List F := funs.filter (· ≠ f)

@[simp] theorem mem_reset {funs : List F} {f g : F} : g ∈ reset funs f ↔ g ∈ funs ∧ g ≠ f := by
  simp [reset]

theorem length_reset_lt {funs : List F} {f : F} (h : f ∈ funs) :
    (reset funs f).length < funs.length :=
  List.length_filter_lt_length_iff_exists.2 ⟨f, h, by simp⟩

/-- The loop over `FunWorkList`: a final candidate on the list is dropped, and its callers are put on
the list. -/
def dropWaiting : List F → List F → List F
  | [], finalCandidates => finalCandidates
  | f :: funWorkList, finalCandidates =>
    if f ∈ finalCandidates then
      dropWaiting ((callerFunctions G f).reverse ++ funWorkList) (reset finalCandidates f)
    else dropWaiting funWorkList finalCandidates
  termination_by funWorkList finalCandidates => (finalCandidates.length, funWorkList.length)
  decreasing_by
    · exact Prod.Lex.left _ _ (length_reset_lt ‹_›)
    · exact Prod.Lex.right _ (by simp)

/-- `getCollectableFunctions`: candidates without pending jobs, none of whose callees is waited
for. -/
def getCollectableFunctions (S : IterativeIDESolver N F D E) : List F :=
  dropWaiting G
    ((S.candidateFunctionsForGC.filter (S.refCountPerFunction · ≠ 0)).flatMap (callerFunctions G)
      |>.reverse)
    (S.candidateFunctionsForGC.filter (S.refCountPerFunction · = 0))

/-- Clear the jump functions of an instruction, unless they are kept. -/
def removeJumpFunctionsFor (S : IterativeIDESolver N F D E) (inst : N) :
    IterativeIDESolver N F D E :=
  if keepAnalysisInformationAt P G false inst then S
  else { S with jumpFunctions := Function.update S.jumpFunctions inst .empty }

/-- `collectFunction`; erasing the entries of `SourceFactAndFuncToInterJob` is `cleanupInterJobsFor`. -/
def collectFunction (S : IterativeIDESolver N F D E) (funId : F) : IterativeIDESolver N F D E :=
  let S := (G.getAllInstructionsOf funId).foldl (removeJumpFunctionsFor P G) S
  { S with
    sourceFactAndFuncToInterJob := fun fact callee =>
      if callee = funId then [] else S.sourceFactAndFuncToInterJob fact callee
    candidateFunctionsForGC := reset S.candidateFunctionsForGC funId }

/-- `runGC`. -/
def runGC (S : IterativeIDESolver N F D E) : IterativeIDESolver N F D E :=
  (getCollectableFunctions G S).foldl (collectFunction P G) S

/-! ### Runs -/

/-- `submitInitialSeeds` on the empty state. -/
def init : IterativeIDESolver N F D E :=
  P.initialSeeds.entries.foldl
    (fun S entry => storeAll P G (G.getFunctionOf entry.1) S
      (entry.2.entries.map fun fact => (⟨fact.1, entry.1, fact.1⟩, P.identity)))
    { workList := []
      allInterPropagations := []
      callWL := []
      sourceFactAndFuncToInterJob := fun _ _ => []
      jumpFunctions := fun _ => .empty
      endSummaryTab := fun _ _ => .empty
      valTab := fun _ _ => false
      refCountPerFunction := fun _ => 0
      candidateFunctionsForGC := [] }

/-- What `doNext` does when the work list is empty. -/
def drained (S : IterativeIDESolver N F D E) (relevantCalls : List (D × F)) :
    IterativeIDESolver N F D E :=
  let S := processInterJobs P G S relevantCalls
  if P.config.enableJumpFunctionGC = .disabled then S else runGC P G S

/-- Pop the back of the work list and process it. -/
def popNext (S : IterativeIDESolver N F D E) : Option (IterativeIDESolver N F D E) :=
  S.workList.getLast?.map fun job =>
    propagate P G { S with workList := S.workList.dropLast } job.1 job.2

/-- `doNext`; false if there is nothing left to do. -/
def doNext (S : IterativeIDESolver N F D E) : IterativeIDESolver N F D E × Bool :=
  match popNext P G S with
  | some S' => (S', true)
  | none =>
    let S := drained P G S S.callWL
    match popNext P G S with
    | some S' => (S', true)
    | none => (S, false)

/-- The loop of `solve`, given up after `fuel` calls of `doNext`. -/
def run : ℕ → IterativeIDESolver N F D E → Option (IterativeIDESolver N F D E)
  | 0, _ => none
  | fuel + 1, S =>
    let next := doNext P G S
    if next.2 then run fuel next.1 else some next.1

/-- `doNext` returns true; the work list and `CallWL` are taken in any order. -/
inductive Step (S : IterativeIDESolver N F D E) : IterativeIDESolver N F D E → Prop
  | take (l r : List (PathEdge N D × E)) (edge : PathEdge N D) (f : E) :
      S.workList = l ++ (edge, f) :: r → Step S (propagate P G { S with workList := l ++ r } edge f)
  | drain (calls : List (D × F)) (l r : List (PathEdge N D × E)) (edge : PathEdge N D) (f : E) :
      S.workList = [] → calls.Perm S.callWL →
      (drained P G S calls).workList = l ++ (edge, f) :: r →
      Step S (propagate P G { drained P G S calls with workList := l ++ r } edge f)

/-- `doNext` returns false and leaves `S'`. -/
def Finishes (S S' : IterativeIDESolver N F D E) : Prop :=
  S.workList = [] ∧ ∃ calls, calls.Perm S.callWL ∧ S' = drained P G S calls ∧ S'.workList = []

/-- The states of the runs. -/
inductive Reachable : IterativeIDESolver N F D E → Prop
  | init : Reachable (init P G)
  | step {S S' : IterativeIDESolver N F D E} : Reachable S → Step P G S S' → Reachable S'

/-- The states in which `doNext` has returned false. -/
def Finished (S' : IterativeIDESolver N F D E) : Prop := ∃ S, Reachable P G S ∧ Finishes P G S S'

/-- The stored jump function of a path edge. -/
def stored (S : IterativeIDESolver N F D E) (edge : PathEdge N D) : Option E :=
  (S.jumpFunctions edge.target).get? (edge.dSource, edge.dTarget)

end IterativeIDESolver

end Phasar
