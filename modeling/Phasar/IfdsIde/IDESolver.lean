import Phasar.IfdsIde.JumpFunctions

/-!
# The IDE solver, phase I

`IDESolver` builds jump functions with a work list of path edges and their edge functions. A popped
edge is joined into the store (`propagate`); if that changes the store the edge is processed at its
target: at a call site (`processCall`), at an exit instruction (`processExit`) or along the normal
flow (`processNormalFlow`). `EndsummaryTab` and `IncomingTab` connect the two halves of a call.

* `IDESolver`: the state; `vector`s are lists whose last element is the back;
* `processCall`, `processExit`, `processNormalFlow`, `propagate`, `doNext`;
* `Step`: `doNext` with any element of the work list in place of its back.
-/

namespace Phasar

/-- The state of phase I. -/
structure IDESolver (N D E : Type*) where
  workList : List (PathEdge N D × E)
  jumpFn : JumpFunctions N D E
  endsummaryTab : Table N D (VecMap (N × D) E)
  incomingTab : Table N D (VecMap N (List D))
  unbalancedRetSites : List N

namespace IDESolver

variable {N F D E L : Type*} [DecidableEq N] [DecidableEq D] [DecidableEq E]
variable (P : IDETabulationProblem N F D E L) (G : ICFG N F)

/-- The jump function of a path edge; all-top if none is stored. -/
def jumpFunction (S : IDESolver N D E) (edge : PathEdge N D) : E :=
  ((S.jumpFn.forwardLookup edge.dSource edge.target).get? edge.dTarget).getD P.allTopFunction

/-- Record the jump function of an exit as a summary of its start point. -/
def addEndSummary (S : IDESolver N D E) (sp : N) (d₁ : D) (eP : N) (d₂ : D) (f : E) :
    IDESolver N D E :=
  { S with endsummaryTab := S.endsummaryTab.modify sp d₁ fun tab => tab.set (eP, d₂) f }

/-- The exit values known for a fact at a start point. -/
def endSummary (S : IDESolver N D E) (sp : N) (d₃ : D) : List ((N × D) × E) :=
  (S.endsummaryTab sp d₃).entries

/-- The call sites, with their facts, that enter a start point with a fact. -/
def incoming (S : IDESolver N D E) (d₁ : D) (sp : N) : VecMap N (List D) := S.incomingTab sp d₁

/-- Register that the fact `d₃` at `sp` has an incoming edge from `d₂` at the call site `n`. -/
def addIncoming (S : IDESolver N D E) (sp : N) (d₃ : D) (n : N) (d₂ : D) : IDESolver N D E :=
  { S with
    incomingTab := S.incomingTab.modify sp d₃ fun inc =>
      inc.alter n fun ds => (ds.getD []).insert d₂ }

/-- Append to the work list. -/
def push (S : IDESolver N D E) (items : List (PathEdge N D × E)) : IDESolver N D E :=
  { S with workList := S.workList ++ items }

/-! ### Calls -/

/-- The summary edges of a callee with a special summary. -/
def specialSummaryEdges (edge : PathEdge N D) (f : E) (specialSum : D → List D) :
    List (PathEdge N D × E) :=
  (G.getReturnSitesOfCallAt edge.target).flatMap fun returnSiteN =>
    (specialSum edge.dTarget).map fun d₃ =>
      (⟨edge.dSource, returnSiteN, d₃⟩,
        P.extendSummary f (P.getSummaryEdgeFunction edge.target edge.dTarget returnSiteN d₃))

/-- The caller-side edges made of the end summaries known for the fact `d₃` at `sp`. -/
def endSummaryEdges (S : IDESolver N D E) (edge : PathEdge N D) (f : E) (callee : F) (sp : N)
    (d₃ : D) : List (PathEdge N D × E) :=
  (S.endSummary sp d₃).flatMap fun entry =>
    let eP := entry.1.1
    let d₄ := entry.1.2
    (G.getReturnSitesOfCallAt edge.target).flatMap fun retSiteN =>
      (P.cachedFlows.getRetFlowFunction edge.target callee eP retSiteN d₄).map fun d₅ =>
        let f₄ := P.getCallEdgeFunction edge.target edge.dTarget callee d₃
        let f₅ := P.getReturnEdgeFunction edge.target callee eP d₄ retSiteN d₅
        let fPrime := P.extend (P.extend f₄ entry.2) f₅
        (⟨edge.dSource, retSiteN, d₅⟩, P.extend f fPrime)

/-- One fact `d₃` that a call carries to the start point `sp`: the self-loop, the incoming edge and
the summaries already there. -/
def enterCallee (edge : PathEdge N D) (f : E) (callee : F) (sp : N) (S : IDESolver N D E) (d₃ : D) :
    IDESolver N D E :=
  let S := (S.push [(⟨d₃, sp, d₃⟩, P.identity)]).addIncoming sp d₃ edge.target edge.dTarget
  S.push (endSummaryEdges P G S edge f callee sp d₃)

/-- One possible callee of a call. -/
def processCallee (edge : PathEdge N D) (f : E) (S : IDESolver N D E) (callee : F) :
    IDESolver N D E :=
  match P.cachedFlows.getSummaryFlowFunction edge.target callee with
  | some specialSum => S.push (specialSummaryEdges P G edge f specialSum)
  | none =>
    let res := P.cachedFlows.getCallFlowFunction edge.target callee edge.dTarget
    (G.getStartPointsOf callee).foldl
      (fun S sp => res.foldl (enterCallee P G edge f callee sp) S) S

/-- The edges along the call-to-return flow. -/
def callToReturnEdges (edge : PathEdge N D) (f : E) : List (PathEdge N D × E) :=
  (G.getReturnSitesOfCallAt edge.target).flatMap fun returnSiteN =>
    (P.cachedFlows.getCallToRetFlowFunction edge.target returnSiteN
      (G.getCalleesOfCallAt edge.target) edge.dTarget).map fun d₃ =>
        (⟨edge.dSource, returnSiteN, d₃⟩,
          P.extend f (P.getCallToRetEdgeFunction edge.target edge.dTarget returnSiteN d₃
            (G.getCalleesOfCallAt edge.target)))

/-- Lines 13-20 of the algorithm: a path edge at a call site. -/
def processCall (S : IDESolver N D E) (edge : PathEdge N D) : IDESolver N D E :=
  let f := jumpFunction P S edge
  let S := (G.getCalleesOfCallAt edge.target).foldl (processCallee P G edge f) S
  S.push (callToReturnEdges P G edge f)

/-! ### Exits and normal flow -/

/-- The incoming calls of a fact over all start points; a later start point overwrites. -/
def incomingCalls (S : IDESolver N D E) (d₁ : D) (sps : List N) : VecMap N (List D) :=
  sps.foldl (fun inc sp => inc.insertAll (S.incoming d₁ sp)) .empty

/-- The edges to the return sites of the call site `c`, entered with the facts `ds`. -/
def returnEdges (S : IDESolver N D E) (edge : PathEdge N D) (f : E) (c : N) (ds : List D) :
    List (PathEdge N D × E) :=
  let fn := G.getFunctionOf edge.target
  (G.getReturnSitesOfCallAt c).flatMap fun retSiteC =>
    ds.flatMap fun d₄ =>
      (P.cachedFlows.getRetFlowFunction c fn edge.target retSiteC edge.dTarget).flatMap fun d₅ =>
        let f₄ := P.getCallEdgeFunction c d₄ fn edge.dSource
        let f₅ := P.getReturnEdgeFunction c fn edge.target edge.dTarget retSiteC d₅
        let fPrime := P.extend (P.extend f₄ f) f₅
        ((S.jumpFn.reverseLookup c d₄).entries.filter (fun e => e.2 ≠ P.allTopFunction)).map
          fun entry => (⟨entry.1, retSiteC, d₅⟩, P.extend entry.2 fPrime)

/-- The edges of a return without an incoming call. -/
def unbalancedReturnEdges (edge : PathEdge N D) (f : E) : List (PathEdge N D × E) :=
  let fn := G.getFunctionOf edge.target
  (G.getCallersOf fn).flatMap fun caller =>
    (G.getReturnSitesOfCallAt caller).flatMap fun retSiteC =>
      (P.cachedFlows.getRetFlowFunction caller fn edge.target retSiteC edge.dTarget).map fun d₅ =>
        (⟨P.getZeroValue, retSiteC, d₅⟩,
          P.extend f (P.getReturnEdgeFunction caller fn edge.target edge.dTarget retSiteC d₅))

/-- Lines 21-32 of the algorithm: a path edge at an exit instruction. -/
def processExit (S : IDESolver N D E) (edge : PathEdge N D) : IDESolver N D E :=
  let f := jumpFunction P S edge
  let sps := G.getStartPointsOf (G.getFunctionOf edge.target)
  let S := sps.foldl
    (fun S sp => S.addEndSummary sp edge.dSource edge.target edge.dTarget f) S
  let inc := S.incomingCalls edge.dSource sps
  let S := S.push (inc.entries.flatMap fun e => returnEdges P G S edge f e.1 e.2)
  if P.solverConfig.followReturnsPastSeeds && inc.entries.isEmpty then
    let edges := unbalancedReturnEdges P G edge f
    { S.push edges with
      unbalancedRetSites := edges.foldl (fun rs e => rs.insert e.1.target) S.unbalancedRetSites }
  else S

/-- Lines 33-37 of the algorithm: propagate the intra-procedural flow. -/
def processNormalFlow (S : IDESolver N D E) (edge : PathEdge N D) : IDESolver N D E :=
  let f := jumpFunction P S edge
  S.push ((G.getSuccsOf edge.target).flatMap fun nPrime =>
    (P.cachedFlows.getNormalFlowFunction edge.target nPrime edge.dTarget).map fun d₃ =>
      (⟨edge.dSource, nPrime, d₃⟩,
        P.extend f (P.getNormalEdgeFunction edge.target edge.dTarget nPrime d₃)))

/-- Dispatch on the target of a path edge. -/
def pathEdgeProcessingTask (S : IDESolver N D E) (edge : PathEdge N D) : IDESolver N D E :=
  if !G.isCallSite edge.target then
    let S := if G.isExitInst edge.target then processExit P G S edge else S
    if !(G.getSuccsOf edge.target).isEmpty then processNormalFlow P G S edge else S
  else processCall P G S edge

/-- Join an edge function into the jump function of a path edge; process the edge if it changed. -/
def propagate (S : IDESolver N D E) (edge : PathEdge N D) (f : E) : IDESolver N D E :=
  let jumpFnE := (S.jumpFn.stored edge).getD P.allTopFunction
  let fPrime := P.combine jumpFnE f
  if fPrime ≠ jumpFnE then
    pathEdgeProcessingTask P G
      { S with jumpFn :=
          S.jumpFn.addFunction P.isAllTop edge.dSource edge.target edge.dTarget fPrime } edge
  else S

/-! ### Runs -/

/-- The self-loops of the seeds. -/
def submitInitialSeeds : List (PathEdge N D × E) :=
  P.seeds.entries.flatMap fun entry =>
    entry.2.entries.map fun fact => (⟨fact.1, entry.1, fact.1⟩, P.identity)

/-- `doInitialize`. -/
def init : IDESolver N D E where
  workList := submitInitialSeeds P
  jumpFn := .empty
  endsummaryTab _ _ := .empty
  incomingTab _ _ := .empty
  unbalancedRetSites := []

/-- `doNext`: take the back of the work list; nothing to do on an empty work list. -/
def doNext (S : IDESolver N D E) : Option (IDESolver N D E) :=
  match S.workList.getLast? with
  | none => none
  | some (edge, f) => some (propagate P G { S with workList := S.workList.dropLast } edge f)

/-- The loop of `solve`, cut off after `fuel` calls of `doNext`. -/
def run : ℕ → IDESolver N D E → IDESolver N D E
  | 0, S => S
  | fuel + 1, S =>
    match doNext P G S with
    | none => S
    | some S' => run fuel S'

/-- `doNext` on any element of the work list. -/
inductive Step (S : IDESolver N D E) : IDESolver N D E → Prop
  | take (l r : List (PathEdge N D × E)) (edge : PathEdge N D) (f : E) :
      S.workList = l ++ (edge, f) :: r → Step S (propagate P G { S with workList := l ++ r } edge f)

/-- The states of the runs that take the work list in any order. -/
inductive Reachable : IDESolver N D E → Prop
  | init : Reachable (init P)
  | step {S S' : IDESolver N D E} : Reachable S → Step P G S S' → Reachable S'

/-- `doNext` is a step. -/
theorem doNext_step {S S' : IDESolver N D E} (h : doNext P G S = some S') : Step P G S S' := by
  unfold doNext at h
  cases hl : S.workList.getLast? with
  | none => simp [hl] at h
  | some p =>
    obtain ⟨edge, f⟩ := p
    simp only [hl, Option.some.injEq] at h
    subst h
    obtain ⟨ys, hys⟩ := List.getLast?_eq_some_iff.1 hl
    simpa [hys] using Step.take ys [] edge f hys

theorem reachable_run (fuel : ℕ) {S : IDESolver N D E} (h : Reachable P G S) :
    Reachable P G (run P G fuel S) := by
  induction fuel generalizing S with
  | zero => exact h
  | succ fuel ih =>
    unfold run
    cases hn : doNext P G S with
    | none => exact h
    | some S' => exact ih (h.step (doNext_step P G hn))

end IDESolver

end Phasar
