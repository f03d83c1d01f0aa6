import Phasar.IfdsIde.IterativeIDESolver

/-!
# The iterative IDE solver on a sparse graph

Where the graph has `advanceToNextUser`, `storeResultsAndPropagate` moves a path edge to the next user of
its fact before it looks up the jump function. All else is the solver of `IterativeIDESolver`: the flow and
edge functions are asked for the successor, and not for the instruction that the fact is moved to. The
function of an instruction is looked up where a job is taken, and handed down from there, as `FunId` is in the
source.

* `advance`: a path edge, moved;
* `SparseIterativeIDESolver.propagate`, `processInterJobs`, `doNext`: phase I;
* `SparseIterativeIDESolver.Step`, `Reachable`, `Finished`: its runs;
* `finished_self_iff`: where nothing is moved these are the runs of `IterativeIDESolver`.
-/

namespace Phasar

namespace SparseIterativeIDESolver

open IterativeIDESolver

variable {N F D E L : Type*}

/-- A path edge, moved to the next user of its fact. -/
def advance (advanceToNextUser : N → D → N) (edge : PathEdge N D) : PathEdge N D :=
  ⟨edge.dSource, advanceToNextUser edge.target edge.dTarget, edge.dTarget⟩

variable [DecidableEq N] [DecidableEq F] [DecidableEq D] [DecidableEq E]
variable (P : IterativeProblem N F D E L) (G : ICFG N F) (advanceToNextUser : N → D → N)

def storeResultsAndPropagate (funId : F) (S : IterativeIDESolver N F D E)
    (item : PathEdge N D × E) : IterativeIDESolver N F D E :=
  IterativeIDESolver.storeResultsAndPropagate P G funId S (advance advanceToNextUser item.1, item.2)

/-- Store path edges one after another. -/
def storeAll (funId : F) (S : IterativeIDESolver N F D E) (items : List (PathEdge N D × E)) :
    IterativeIDESolver N F D E :=
  items.foldl (storeResultsAndPropagate P G advanceToNextUser funId) S

def applyNormalFlow (S : IterativeIDESolver N F D E) (edge : PathEdge N D) (sourceEF : E) (funId : F) :
    IterativeIDESolver N F D E :=
  let S := storeAll P G advanceToNextUser funId S (normalEdges P G edge sourceEF)
  if G.isExitInst edge.target then
    let S := { S with callWL := S.callWL.insert (edge.dSource, funId) }
    if P.config.useEndSummaryTab then
      { S with
        endSummaryTab := S.endSummaryTab.modify funId edge.dSource fun tab =>
          storeSummary P tab edge.dTarget sourceEF }
    else S
  else S

def propagateProcedureSummaries (S : IterativeIDESolver N F D E) (summaries : List (D × E))
    (callSite : N) (callee : F) (exitInst : N) (sourceFact : D) (callerId : F) (callEF : E) :
    IterativeIDESolver N F D E :=
  storeAll P G advanceToNextUser callerId S
    (procedureSummaryEdges P G summaries callSite callee exitInst sourceFact callEF)

def applyEarlySummariesAtCall (S : IterativeIDESolver N F D E)
    (job : InterPropagationJob N F D E) (funId : F) : IterativeIDESolver N F D E :=
  (G.getExitPointsOf job.callee).foldl
    (fun S exitInst => propagateProcedureSummaries P G advanceToNextUser S
      (summaries P S job.callee job.factInCallee exitInst) job.callSite job.callee exitInst
      job.sourceFact funId job.sourceEF) S

def enterCallee (edge : PathEdge N D) (sourceEF : E) (callee : F) (funId : F) (sp : N)
    (S : IterativeIDESolver N F D E) (fact : D) : IterativeIDESolver N F D E :=
  let callEF := P.extend sourceEF (P.getCallEdgeFunction edge.target edge.dTarget callee fact)
  let S := storeResultsAndPropagate P G advanceToNextUser callee S (⟨fact, sp, fact⟩, P.identity)
  let job : InterPropagationJob N F D E := ⟨callEF, edge.dSource, callee, edge.target, fact⟩
  if S.allInterPropagations.contains job then S
  else
    let S := { S with allInterPropagations := job :: S.allInterPropagations }
    let S := applyEarlySummariesAtCall P G advanceToNextUser S job funId
    { S with
      sourceFactAndFuncToInterJob :=
        S.sourceFactAndFuncToInterJob.modify fact callee (job :: ·) }

def deferCallFlow (S : IterativeIDESolver N F D E) (edge : PathEdge N D) (sourceEF : E)
    (callee : F) (funId : F) : IterativeIDESolver N F D E :=
  (G.getStartPointsOf callee).foldl
    (fun S sp => (P.cachedFlows.getCallFlowFunction edge.target callee edge.dTarget).foldl
      (enterCallee P G advanceToNextUser edge sourceEF callee funId sp) S) S

/-- The flag of `IterativeIDESolver.handleCallee`, which only labels recorded edges, is left out. -/
def handleCallee (edge : PathEdge N D) (sourceEF : E) (funId : F) (S : IterativeIDESolver N F D E)
    (callee : F) : IterativeIDESolver N F D E :=
  match P.cachedFlows.getSummaryFlowFunction edge.target callee with
  | none => deferCallFlow P G advanceToNextUser S edge sourceEF callee funId
  | some summaryFF =>
    storeAll P G advanceToNextUser funId S (summaryEdges P G edge sourceEF summaryFF)

def handleOrDeferCallFlow (S : IterativeIDESolver N F D E) (edge : PathEdge N D) (sourceEF : E)
    (callees : List F) (funId : F) : IterativeIDESolver N F D E :=
  callees.foldl (handleCallee P G advanceToNextUser edge sourceEF funId) S

def applyIntraCallFlow (S : IterativeIDESolver N F D E) (edge : PathEdge N D) (sourceEF : E) (funId : F) :
    IterativeIDESolver N F D E :=
  let S := handleOrDeferCallFlow P G advanceToNextUser S edge sourceEF
    (G.getCalleesOfCallAt edge.target) funId
  storeAll P G advanceToNextUser funId S (callToReturnEdges P G edge sourceEF)

/-- `propagate`. Without garbage collection the source hands down no function, and looks it up where it needs
one. -/
def propagate (S : IterativeIDESolver N F D E) (edge : PathEdge N D) (sourceEF : E) :
    IterativeIDESolver N F D E :=
  let funId := G.getFunctionOf edge.target
  let S := if P.config.enableJumpFunctionGC = .disabled then S
    else { S with
      refCountPerFunction :=
        Function.update S.refCountPerFunction funId (S.refCountPerFunction funId - 1) }
  if !G.isCallSite edge.target then applyNormalFlow P G advanceToNextUser S edge sourceEF funId
  else applyIntraCallFlow P G advanceToNextUser S edge sourceEF funId

def processRelevantCall (S : IterativeIDESolver N F D E) (call : D × F) :
    IterativeIDESolver N F D E :=
  (G.getExitPointsOf call.2).foldl
    (fun S exitInst =>
      let summaries := summaries P S call.2 call.1 exitInst
      (S.sourceFactAndFuncToInterJob call.1 call.2).foldl
        (fun S job => propagateProcedureSummaries P G advanceToNextUser S summaries job.callSite call.2
          exitInst job.sourceFact (G.getFunctionOf job.callSite) job.sourceEF) S) S

/-- `processInterJobs`, with the elements of `CallWL` in the given order. -/
def processInterJobs (S : IterativeIDESolver N F D E) (relevantCalls : List (D × F)) :
    IterativeIDESolver N F D E :=
  relevantCalls.foldl (processRelevantCall P G advanceToNextUser) { S with callWL := [] }

/-! ### Runs -/

/-- `submitInitialSeeds` on the empty state; seeds are moved as well. -/
def init : IterativeIDESolver N F D E :=
  P.initialSeeds.entries.foldl
    (fun S entry => storeAll P G advanceToNextUser (G.getFunctionOf entry.1) S
      (entry.2.entries.map fun fact => (⟨fact.1, entry.1, fact.1⟩, P.identity)))
    { workList := []
      allInterPropagations := []
      callWL := []
      sourceFactAndFuncToInterJob := fun _ _ => []
      jumpFunctions := fun _ => .empty
      endSummaryTab := fun _ _ => .empty
      valTab := fun _ _ => false
      refCountPerFunction := fun _ => 0
      candidateFunctionsForGC := [] }

/-- What `doNext` does when the work list is empty. -/
def drained (S : IterativeIDESolver N F D E) (relevantCalls : List (D × F)) :
    IterativeIDESolver N F D E :=
  let S := processInterJobs P G advanceToNextUser S relevantCalls
  if P.config.enableJumpFunctionGC = .disabled then S else runGC P G S

/-- Pop the back of the work list and process it. -/
def popNext (S : IterativeIDESolver N F D E) : Option (IterativeIDESolver N F D E) :=
  S.workList.getLast?.map fun job =>
    propagate P G advanceToNextUser { S with workList := S.workList.dropLast } job.1 job.2

/-- `doNext`; false if there is nothing left to do. -/
def doNext (S : IterativeIDESolver N F D E) : IterativeIDESolver N F D E × Bool :=
  match popNext P G advanceToNextUser S with
  | some S' => (S', true)
  | none =>
    let S := drained P G advanceToNextUser S S.callWL
    match popNext P G advanceToNextUser S with
    | some S' => (S', true)
    | none => (S, false)

/-- The loop of `solve`, given up after `fuel` calls of `doNext`. -/
def run : ℕ → IterativeIDESolver N F D E → Option (IterativeIDESolver N F D E)
  | 0, _ => none
  | fuel + 1, S =>
    let next := doNext P G advanceToNextUser S
    if next.2 then run fuel next.1 else some next.1

/-- `doNext` returns true; the work list and `CallWL` are taken in any order. -/
inductive Step (S : IterativeIDESolver N F D E) : IterativeIDESolver N F D E → Prop
  | take (l r : List (PathEdge N D × E)) (edge : PathEdge N D) (f : E) :
      S.workList = l ++ (edge, f) :: r →
      Step S (propagate P G advanceToNextUser { S with workList := l ++ r } edge f)
  | drain (calls : List (D × F)) (l r : List (PathEdge N D × E)) (edge : PathEdge N D) (f : E) :
      S.workList = [] → calls.Perm S.callWL →
      (drained P G advanceToNextUser S calls).workList = l ++ (edge, f) :: r →
      Step S (propagate P G advanceToNextUser
        { drained P G advanceToNextUser S calls with workList := l ++ r } edge f)

/-- `doNext` returns false and leaves `S'`. -/
def Finishes (S S' : IterativeIDESolver N F D E) : Prop :=
  S.workList = [] ∧ ∃ calls, calls.Perm S.callWL ∧
    S' = drained P G advanceToNextUser S calls ∧ S'.workList = []

/-- The states of the runs. -/
inductive Reachable : IterativeIDESolver N F D E → Prop
  | init : Reachable (init P G advanceToNextUser)
  | step {S S' : IterativeIDESolver N F D E} :
      Reachable S → Step P G advanceToNextUser S S' → Reachable S'

/-- The states in which `doNext` has returned false. -/
def Finished (S' : IterativeIDESolver N F D E) : Prop :=
  ∃ S, Reachable P G advanceToNextUser S ∧ Finishes P G advanceToNextUser S S'

variable {P G advanceToNextUser} {S S' : IterativeIDESolver N F D E}

/-- `doNext` is a step, or finishes. -/
theorem doNext_cases (S : IterativeIDESolver N F D E) :
    ((doNext P G advanceToNextUser S).2 = true ∧
        Step P G advanceToNextUser S (doNext P G advanceToNextUser S).1) ∨
      ((doNext P G advanceToNextUser S).2 = false ∧
        Finishes P G advanceToNextUser S (doNext P G advanceToNextUser S).1) := by
  have hpop : ∀ {T T' : IterativeIDESolver N F D E}, popNext P G advanceToNextUser T = some T' →
      ∃ l i, T.workList = l ++ [i] ∧
        T' = propagate P G advanceToNextUser { T with workList := l ++ [] } i.1 i.2 := by
    intro T T' h
    obtain ⟨i, hi, rfl⟩ := Option.map_eq_some_iff.1 h
    obtain ⟨l, hl⟩ := List.getLast?_eq_some_iff.1 hi
    exact ⟨l, i, hl, by simp [hl]⟩
  have hempty : ∀ {T : IterativeIDESolver N F D E}, popNext P G advanceToNextUser T = none →
      T.workList = [] := by
    intro T h
    simpa [popNext] using h
  unfold doNext
  cases hp : popNext P G advanceToNextUser S with
  | some S' =>
    obtain ⟨l, i, hw, rfl⟩ := hpop hp
    exact Or.inl ⟨rfl, .take l [] i.1 i.2 hw⟩
  | none =>
    have hw := hempty hp
    cases hd : popNext P G advanceToNextUser (drained P G advanceToNextUser S S.callWL) with
    | some S' =>
      obtain ⟨l, i, hwd, rfl⟩ := hpop hd
      refine Or.inl ⟨by simp [hd], ?_⟩
      simp only [hd]
      exact .drain S.callWL l [] i.1 i.2 hw (.refl _) hwd
    | none =>
      refine Or.inr ⟨by simp [hd], ?_⟩
      simp only [hd]
      exact ⟨hw, S.callWL, .refl _, rfl, hempty hd⟩

/-- What `run` returns is the end of a run. -/
theorem finished_of_run {fuel : ℕ} (hS : Reachable P G advanceToNextUser S)
    (h : run P G advanceToNextUser fuel S = some S') : Finished P G advanceToNextUser S' := by
  induction fuel generalizing S with
  | zero => simp [run] at h
  | succ fuel ih =>
    simp only [run] at h
    have hcases : (doNext P G advanceToNextUser S).2 = true ∧ _ ∨ _ := doNext_cases S
    rcases hcases with ⟨hb, hs⟩ | ⟨hb, hf⟩
    · rw [if_pos hb] at h
      exact ih (hS.step hs) h
    · rw [if_neg (by simp [hb])] at h
      exact ⟨S, hS, Option.some.inj h ▸ hf⟩

/-! ### Without moves -/

/-- Nothing is moved. -/
abbrev stay : N → D → N := fun n _ => n

theorem enterCallee_self (edge : PathEdge N D) (f : E) (g : F) (sp : N) (S : IterativeIDESolver N F D E) (d : D) :
    enterCallee P G stay edge f g (G.getFunctionOf edge.target) sp S d =
      IterativeIDESolver.enterCallee P G edge f g sp S d := by
  unfold enterCallee IterativeIDESolver.enterCallee
  simp only [List.contains_iff_mem]
  rfl

theorem deferCallFlow_self (edge : PathEdge N D) (f : E) (g : F) (S : IterativeIDESolver N F D E) :
    deferCallFlow P G stay S edge f g (G.getFunctionOf edge.target) =
      IterativeIDESolver.deferCallFlow P G S edge f g := by
  have henter : ∀ sp, enterCallee P G stay edge f g (G.getFunctionOf edge.target) sp =
      IterativeIDESolver.enterCallee P G edge f g sp := by
    intro sp
    funext S d
    exact enterCallee_self edge f g sp S d
  unfold deferCallFlow IterativeIDESolver.deferCallFlow
  simp only [henter]

theorem handleOrDeferCallFlow_self (edge : PathEdge N D) (f : E) (callees : List F)
    (S : IterativeIDESolver N F D E) (b : Bool) :
    handleOrDeferCallFlow P G stay S edge f callees (G.getFunctionOf edge.target) =
      (callees.foldl (IterativeIDESolver.handleCallee P G edge f) (S, b)).1 := by
  induction callees generalizing S b with
  | nil => rfl
  | cons g callees ih =>
    have hg : handleCallee P G stay edge f (G.getFunctionOf edge.target) S g =
        (IterativeIDESolver.handleCallee P G edge f (S, b) g).1 := by
      unfold handleCallee IterativeIDESolver.handleCallee
      cases P.cachedFlows.getSummaryFlowFunction edge.target g with
      | none => exact deferCallFlow_self edge f g S
      | some h => rfl
    rw [handleOrDeferCallFlow, List.foldl_cons, List.foldl_cons, hg]
    exact ih _ _

/-- Without moves this is the solver of `IterativeIDESolver`. -/
theorem propagate_self (edge : PathEdge N D) (f : E) (S : IterativeIDESolver N F D E) :
    propagate P G stay S edge f = IterativeIDESolver.propagate P G S edge f := by
  have hcall : ∀ S, applyIntraCallFlow P G stay S edge f (G.getFunctionOf edge.target) =
      IterativeIDESolver.applyIntraCallFlow P G S edge f := by
    intro S
    unfold applyIntraCallFlow IterativeIDESolver.applyIntraCallFlow
    rw [handleOrDeferCallFlow_self edge f _ S true]
    rfl
  unfold propagate IterativeIDESolver.propagate
  simp only [hcall]
  rfl

theorem step_self_iff : Step P G stay S S' ↔ IterativeIDESolver.Step P G S S' := by
  constructor
  · rintro (⟨l, r, edge, f, hw⟩ | ⟨calls, l, r, edge, f, hw, hperm, hd⟩)
    · rw [propagate_self]
      exact .take l r edge f hw
    · rw [propagate_self]
      exact .drain calls l r edge f hw hperm hd
  · rintro (⟨l, r, edge, f, hw⟩ | ⟨calls, l, r, edge, f, hw, hperm, hd⟩)
    · rw [← propagate_self]
      exact .take l r edge f hw
    · rw [← propagate_self]
      exact .drain calls l r edge f hw hperm hd

theorem reachable_self_iff : Reachable P G stay S ↔ IterativeIDESolver.Reachable P G S := by
  constructor
  · intro h
    induction h with
    | init => exact .init
    | step _ hs ih => exact ih.step (step_self_iff.1 hs)
  · intro h
    induction h with
    | init => exact .init
    | step _ hs ih => exact ih.step (step_self_iff.2 hs)

/-- **Without moves the runs are those of `IterativeIDESolver`.** -/
theorem finished_self_iff : Finished P G stay S ↔ IterativeIDESolver.Finished P G S :=
  exists_congr fun _ => and_congr_left' reachable_self_iff

end SparseIterativeIDESolver

end Phasar
