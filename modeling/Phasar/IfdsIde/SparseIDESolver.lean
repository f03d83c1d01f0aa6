import Phasar.IfdsIde.IDESolver

/-!
# The IDE solver on a sparse graph

Where the graph knows the next user of a fact, phase I propagates the fact to it at once
(`getNextUserOrNull`, `GetNextUse`). Facts that enter a callee, and those that return without an
incoming call, go where they go otherwise.

* `destN`, `advance`: the targets of edges, moved to the next users;
* `SparseIDESolver.processCall` and its siblings, `SparseIDESolver.Reachable`;
* `propagate_none`: without next users this is the solver of `IDESolver`.
-/

namespace Phasar

namespace SparseIDESolver

open IDESolver

variable {N F D E L : Type*}

/-- `DestN`: the next user of a fact behind `n`, or else the successor. -/
def destN (nextUser : N → D → Option N) (n nPrime : N) (d₃ : D) : N :=
  (nextUser n d₃).getD nPrime

/-- Edges out of `n`, moved to the next users. -/
def advance (nextUser : N → D → Option N) (n : N) (items : List (PathEdge N D × E)) :
    List (PathEdge N D × E) :=
  items.map fun item =>
    (⟨item.1.dSource, destN nextUser n item.1.target item.1.dTarget, item.1.dTarget⟩, item.2)

theorem advance_flatMap {α : Type*} (nextUser : N → D → Option N) (n : N) (l : List α)
    (f : α → List (PathEdge N D × E)) :
    advance nextUser n (l.flatMap f) = l.flatMap fun x => advance nextUser n (f x) :=
  List.map_flatMap

theorem advance_map {α : Type*} (nextUser : N → D → Option N) (n : N) (l : List α)
    (f : α → PathEdge N D × E) : advance nextUser n (l.map f) = l.map fun x =>
      (⟨(f x).1.dSource, destN nextUser n (f x).1.target (f x).1.dTarget, (f x).1.dTarget⟩,
        (f x).2) :=
  List.map_map

variable [DecidableEq N] [DecidableEq D] [DecidableEq E]
variable (P : IDETabulationProblem N F D E L) (G : ICFG N F) (nextUser : N → D → Option N)

def enterCallee (edge : PathEdge N D) (f : E) (callee : F) (sp : N) (S : IDESolver N D E) (d₃ : D) :
    IDESolver N D E :=
  let S := (S.push [(⟨d₃, sp, d₃⟩, P.identity)]).addIncoming sp d₃ edge.target edge.dTarget
  S.push (advance nextUser edge.target (endSummaryEdges P G S edge f callee sp d₃))

def processCallee (edge : PathEdge N D) (f : E) (S : IDESolver N D E) (callee : F) :
    IDESolver N D E :=
  match P.cachedFlows.getSummaryFlowFunction edge.target callee with
  | some specialSum =>
    S.push (advance nextUser edge.target (specialSummaryEdges P G edge f specialSum))
  | none =>
    let res := P.cachedFlows.getCallFlowFunction edge.target callee edge.dTarget
    (G.getStartPointsOf callee).foldl
      (fun S sp => res.foldl (enterCallee P G nextUser edge f callee sp) S) S

def processCall (S : IDESolver N D E) (edge : PathEdge N D) : IDESolver N D E :=
  let f := jumpFunction P S edge
  let S := (G.getCalleesOfCallAt edge.target).foldl (processCallee P G nextUser edge f) S
  S.push (advance nextUser edge.target (callToReturnEdges P G edge f))

/-- The edges to return sites are moved behind their call sites. -/
def processExit (S : IDESolver N D E) (edge : PathEdge N D) : IDESolver N D E :=
  let f := jumpFunction P S edge
  let sps := G.getStartPointsOf (G.getFunctionOf edge.target)
  let S := sps.foldl
    (fun S sp => S.addEndSummary sp edge.dSource edge.target edge.dTarget f) S
  let inc := S.incomingCalls edge.dSource sps
  let S := S.push (inc.entries.flatMap fun e =>
    advance nextUser e.1 (returnEdges P G S edge f e.1 e.2))
  if P.solverConfig.followReturnsPastSeeds && inc.entries.isEmpty then
    let edges := unbalancedReturnEdges P G edge f
    { S.push edges with
      unbalancedRetSites := edges.foldl (fun rs e => rs.insert e.1.target) S.unbalancedRetSites }
  else S

def processNormalFlow (S : IDESolver N D E) (edge : PathEdge N D) : IDESolver N D E :=
  let f := jumpFunction P S edge
  S.push ((G.getSuccsOf edge.target).flatMap fun nPrime =>
    (P.cachedFlows.getNormalFlowFunction edge.target nPrime edge.dTarget).map fun d₃ =>
      (⟨edge.dSource, destN nextUser edge.target nPrime d₃, d₃⟩,
        P.extend f (P.getNormalEdgeFunction edge.target edge.dTarget nPrime d₃)))

def pathEdgeProcessingTask (S : IDESolver N D E) (edge : PathEdge N D) : IDESolver N D E :=
  if !G.isCallSite edge.target then
    let S := if G.isExitInst edge.target then processExit P G nextUser S edge else S
    if !(G.getSuccsOf edge.target).isEmpty then processNormalFlow P G nextUser S edge else S
  else processCall P G nextUser S edge

def propagate (S : IDESolver N D E) (edge : PathEdge N D) (f : E) : IDESolver N D E :=
  let jumpFnE := (S.jumpFn.stored edge).getD P.allTopFunction
  let fPrime := P.combine jumpFnE f
  if fPrime ≠ jumpFnE then
    pathEdgeProcessingTask P G nextUser
      { S with jumpFn :=
          S.jumpFn.addFunction P.isAllTop edge.dSource edge.target edge.dTarget fPrime } edge
  else S

def doNext (S : IDESolver N D E) : Option (IDESolver N D E) :=
  match S.workList.getLast? with
  | none => none
  | some (edge, f) =>
    some (propagate P G nextUser { S with workList := S.workList.dropLast } edge f)

/-- The loop of `solve`, cut off after `fuel` calls of `doNext`. -/
def run : ℕ → IDESolver N D E → IDESolver N D E
  | 0, S => S
  | fuel + 1, S =>
    match doNext P G nextUser S with
    | none => S
    | some S' => run fuel S'

/-- `doNext` on any element of the work list. -/
inductive Step (S : IDESolver N D E) : IDESolver N D E → Prop
  | take (l r : List (PathEdge N D × E)) (edge : PathEdge N D) (f : E) :
      S.workList = l ++ (edge, f) :: r →
        Step S (propagate P G nextUser { S with workList := l ++ r } edge f)

/-- The states of the runs that take the work list in any order. -/
inductive Reachable : IDESolver N D E → Prop
  | init : Reachable (init P)
  | step {S S' : IDESolver N D E} : Reachable S → Step P G nextUser S S' → Reachable S'

/-- `doNext` is a step. -/
theorem doNext_step {S S' : IDESolver N D E} (h : doNext P G nextUser S = some S') :
    Step P G nextUser S S' := by
  unfold doNext at h
  cases hl : S.workList.getLast? with
  | none => simp [hl] at h
  | some p =>
    obtain ⟨edge, f⟩ := p
    simp only [hl, Option.some.injEq] at h
    subst h
    obtain ⟨ys, hys⟩ := List.getLast?_eq_some_iff.1 hl
    simpa [hys] using Step.take ys [] edge f hys

theorem reachable_run (fuel : ℕ) {S : IDESolver N D E} (h : Reachable P G nextUser S) :
    Reachable P G nextUser (run P G nextUser fuel S) := by
  induction fuel generalizing S with
  | zero => exact h
  | succ fuel ih =>
    unfold run
    cases hn : doNext P G nextUser S with
    | none => exact h
    | some S' => exact ih (h.step (doNext_step P G nextUser hn))

/-! ### Without next users -/

omit [DecidableEq N] [DecidableEq D] [DecidableEq E] in
@[simp] theorem advance_none (n : N) (items : List (PathEdge N D × E)) :
    advance (fun _ _ => none) n items = items :=
  List.map_id items

variable {P G}

theorem propagate_none (S : IDESolver N D E) (edge : PathEdge N D) (f : E) :
    propagate P G (fun _ _ => none) S edge f = IDESolver.propagate P G S edge f := by
  have henter : ∀ f callee sp, enterCallee P G (fun _ _ => none) edge f callee sp =
      IDESolver.enterCallee P G edge f callee sp := by
    intro f callee sp
    funext S d₃
    simp only [enterCallee, IDESolver.enterCallee, advance_none]
  have hcallee : ∀ f, processCallee P G (fun _ _ => none) edge f =
      IDESolver.processCallee P G edge f := by
    intro f
    funext S callee
    unfold processCallee IDESolver.processCallee
    cases P.cachedFlows.getSummaryFlowFunction edge.target callee with
    | some specialSum => exact congrArg S.push (advance_none _ _)
    | none => simp only [henter]
  have hcall : ∀ S : IDESolver N D E,
      processCall P G (fun _ _ => none) S edge = IDESolver.processCall P G S edge := by
    intro S
    simp only [processCall, IDESolver.processCall, hcallee, advance_none]
  have hexit : ∀ S : IDESolver N D E,
      processExit P G (fun _ _ => none) S edge = IDESolver.processExit P G S edge := by
    intro S
    simp only [processExit, IDESolver.processExit, advance_none]
  have hnormal : ∀ S : IDESolver N D E,
      processNormalFlow P G (fun _ _ => none) S edge = IDESolver.processNormalFlow P G S edge :=
    fun _ => rfl
  simp only [propagate, IDESolver.propagate, pathEdgeProcessingTask,
    IDESolver.pathEdgeProcessingTask, hcall, hexit, hnormal]

theorem reachable_none {S : IDESolver N D E} (h : IDESolver.Reachable P G S) :
    Reachable P G (fun _ _ => none) S := by
  induction h with
  | init => exact .init
  | step _ hs ih =>
    obtain ⟨l, r, edge, f, hW⟩ := hs
    rw [← propagate_none]
    exact ih.step (.take l r edge f hW)

end SparseIDESolver

end Phasar
