import Phasar.IfdsIde.BasicEdgeFunctions
import Phasar.IfdsIde.IDESolver
import Phasar.IfdsIde.IterativeIDESolver
import Phasar.PathSensitivity.ExplodedSuperGraph

/-!
# Calls in both solvers

`IDESolver::processCall` beside the functions of `IterativeIDESolver` that handle a call.

* `compose`, `processCallAsserting`: `EdgeFunction::compose` asserts that its operands are not null;
* `processCall_summaries_iff`: special summaries are handled alike exactly where each of their facts
  has an edge function;
* `hasNoCalleeInformation`, `callToReturnCalls`: the kind of the call-to-return edges;
* `callToReturnCalls_iff`: it is the same exactly if the last callee is as unknown as all of them.
-/

namespace Phasar

/-- `EdgeFunction::compose` of two edge functions that may be null. Nothing is returned where an
assertion fails. -/
def EdgeFunctions.compose {N F D E : Type*} (EF : EdgeFunctions N F D E) :
    Option E → Option E → Option E
  | some first, some second => some (EF.extend first second)
  | _, _ => none

/-- The problem as the iterative solver takes it. -/
def IDETabulationProblem.forIterative {N F D E L : Type*} (P : IDETabulationProblem N F D E L)
    (config : StaticSolverConfig N) : IterativeProblem N F D E L where
  toIFDSTabulationProblem := P.toIFDSTabulationProblem
  toEdgeFunctions := P.toEdgeFunctions
  initialSeeds := P.initialSeeds
  config := { config with computeValues := true, autoAddZero := P.solverConfig.autoAddZero }

namespace IDESolver

variable {N F D E L : Type*} [DecidableEq N] [DecidableEq D] [DecidableEq E]
variable (P : IDETabulationProblem N F D E L) (G : ICFG N F)

/-! ### Special summaries -/

/-- `specialSummaryEdges` with its assertions. -/
def specialSummaryEdgesAsserting (edge : PathEdge N D) (f : E) (specialSum : D → List D) :
    Option (List (PathEdge N D × E)) :=
  ((G.getReturnSitesOfCallAt edge.target).flatMap fun returnSiteN =>
    (specialSum edge.dTarget).map fun d₃ => (returnSiteN, d₃)).mapM fun p =>
      (P.compose (some f) (P.getSummaryEdgeFunction edge.target edge.dTarget p.1 p.2)).map
        fun fPrime => (⟨edge.dSource, p.1, p.2⟩, fPrime)

def processCalleeAsserting (edge : PathEdge N D) (f : E) (S : IDESolver N D E) (callee : F) :
    Option (IDESolver N D E) :=
  match P.cachedFlows.getSummaryFlowFunction edge.target callee with
  | some specialSum => (specialSummaryEdgesAsserting P G edge f specialSum).map S.push
  | none => some (processCallee P G edge f S callee)

/-- `processCall` with the assertions of the special summaries. -/
def processCallAsserting (S : IDESolver N D E) (edge : PathEdge N D) : Option (IDESolver N D E) :=
  let f := jumpFunction P S edge
  ((G.getCalleesOfCallAt edge.target).foldlM (processCalleeAsserting P G edge f) S).map fun S =>
    S.push (callToReturnEdges P G edge f)

variable {P G}

/-- The facts that a special summary produces at return sites have edge functions. -/
def SummaryEdgesGiven (P : IDETabulationProblem N F D E L) (G : ICFG N F) (c : N) (d₂ : D)
    (specialSum : D → List D) : Prop :=
  ∀ r ∈ G.getReturnSitesOfCallAt c, ∀ d₃ ∈ specialSum d₂, P.getSummaryEdgeFunction c d₂ r d₃ ≠ none

theorem mapM_of_forall {α β : Type*} {l : List α} {f : α → Option β} {g : α → β}
    (h : ∀ a ∈ l, f a = some (g a)) : l.mapM f = some (l.map g) := by
  induction l with
  | nil => rfl
  | cons a l ih =>
    rw [List.mapM_cons, h a List.mem_cons_self, ih fun b hb => h b (List.mem_cons_of_mem a hb)]
    rfl

theorem isSome_of_mapM {α β : Type*} {l : List α} {f : α → Option β} {l' : List β}
    (h : l.mapM f = some l') : ∀ a ∈ l, (f a).isSome = true := by
  induction l generalizing l' with
  | nil => exact fun a ha => absurd ha List.not_mem_nil
  | cons a l ih =>
    rw [List.mapM_cons] at h
    obtain ⟨b, hb, h⟩ := Option.bind_eq_some_iff.1 h
    obtain ⟨l₀, hl₀, -⟩ := Option.bind_eq_some_iff.1 h
    rw [List.forall_mem_cons, hb]
    exact ⟨rfl, ih hl₀⟩

omit [DecidableEq N] [DecidableEq D] [DecidableEq E] in
/-- The edge functions given are composed. -/
theorem specialSummaryEdgesAsserting_eq {edge : PathEdge N D} {f : E} {specialSum : D → List D}
    (h : SummaryEdgesGiven P G edge.target edge.dTarget specialSum) :
    specialSummaryEdgesAsserting P G edge f specialSum =
      some (specialSummaryEdges P G edge f specialSum) := by
  have hedges : specialSummaryEdges P G edge f specialSum =
      ((G.getReturnSitesOfCallAt edge.target).flatMap fun returnSiteN =>
        (specialSum edge.dTarget).map fun d₃ => (returnSiteN, d₃)).map fun p =>
          (⟨edge.dSource, p.1, p.2⟩,
            P.extendSummary f (P.getSummaryEdgeFunction edge.target edge.dTarget p.1 p.2)) := by
    rw [List.map_flatMap]
    simp only [List.map_map]
    rfl
  rw [hedges, specialSummaryEdgesAsserting]
  refine mapM_of_forall ?_
  rintro ⟨r, d₃⟩ hp
  obtain ⟨r', hr, hd⟩ := List.mem_flatMap.1 hp
  obtain ⟨d₃', hd₃, heq⟩ := List.mem_map.1 hd
  cases heq
  obtain ⟨g, hg⟩ := Option.ne_none_iff_exists'.1 (h r hr d₃ hd₃)
  rw [hg]
  rfl

omit [DecidableEq N] [DecidableEq D] [DecidableEq E] in
/-- A missing edge function is composed with, and an assertion fails. -/
theorem summaryEdgesGiven_of_eq {edge : PathEdge N D} {f : E} {specialSum : D → List D}
    {items : List (PathEdge N D × E)}
    (h : specialSummaryEdgesAsserting P G edge f specialSum = some items) :
    SummaryEdgesGiven P G edge.target edge.dTarget specialSum := by
  intro r hr d₃ hd₃ hnull
  have hsome := isSome_of_mapM h (r, d₃)
    (List.mem_flatMap.2 ⟨r, hr, List.mem_map_of_mem hd₃⟩)
  dsimp only at hsome
  rw [hnull] at hsome
  cases hsome

/-- The callees with special summaries have the edge functions of what these produce. -/
def CalleesGiven (P : IDETabulationProblem N F D E L) (G : ICFG N F) (c : N) (d₂ : D)
    (callees : List F) : Prop :=
  ∀ g ∈ callees, ∀ specialSum, P.cachedFlows.getSummaryFlowFunction c g = some specialSum →
    SummaryEdgesGiven P G c d₂ specialSum

omit [DecidableEq E] in
theorem foldlM_processCallee_eq {edge : PathEdge N D} {f : E} {callees : List F}
    (h : CalleesGiven P G edge.target edge.dTarget callees) (S : IDESolver N D E) :
    callees.foldlM (processCalleeAsserting P G edge f) S =
      some (callees.foldl (processCallee P G edge f) S) := by
  induction callees generalizing S with
  | nil => rfl
  | cons g callees ih =>
    obtain ⟨hg, hcallees⟩ := List.forall_mem_cons.1 h
    have hcallee : processCalleeAsserting P G edge f S g = some (processCallee P G edge f S g) := by
      unfold processCalleeAsserting processCallee
      cases hs : P.cachedFlows.getSummaryFlowFunction edge.target g with
      | none => rfl
      | some specialSum =>
        dsimp only
        rw [specialSummaryEdgesAsserting_eq (hg specialSum hs)]
        rfl
    rw [List.foldlM_cons, hcallee, List.foldl_cons]
    exact ih hcallees _

omit [DecidableEq E] in
theorem calleesGiven_of_foldlM {edge : PathEdge N D} {f : E} {callees : List F}
    {S S' : IDESolver N D E}
    (h : callees.foldlM (processCalleeAsserting P G edge f) S = some S') :
    CalleesGiven P G edge.target edge.dTarget callees := by
  induction callees generalizing S with
  | nil => exact fun g hg => absurd hg List.not_mem_nil
  | cons g callees ih =>
    rw [List.foldlM_cons] at h
    obtain ⟨S₁, hS₁, h⟩ := Option.bind_eq_some_iff.1 h
    refine List.forall_mem_cons.2 ⟨fun specialSum hs => ?_, ih h⟩
    rw [processCalleeAsserting, hs] at hS₁
    obtain ⟨items, hitems, -⟩ := Option.map_eq_some_iff.1 hS₁
    exact summaryEdgesGiven_of_eq hitems

omit [DecidableEq N] [DecidableEq E] in
theorem cachedFlows_getSummaryFlowFunction (c : N) (g : F) :
    P.cachedFlows.getSummaryFlowFunction c g = P.getSummaryFlowFunction c g := by
  rw [IDETabulationProblem.cachedFlows, IFDSTabulationProblem.cached_getSummaryFlowFunction]

omit [DecidableEq N] [DecidableEq D] [DecidableEq E] in
theorem specialSummaryEdges_eq (config : StaticSolverConfig N) {edge : PathEdge N D} {f : E}
    {specialSum : D → List D} (h : SummaryEdgesGiven P G edge.target edge.dTarget specialSum) :
    specialSummaryEdges P G edge f specialSum =
      IterativeIDESolver.summaryEdges (P.forIterative config) G edge f specialSum := by
  rw [specialSummaryEdges, IterativeIDESolver.summaryEdges]
  refine List.flatMap_congr fun r hr => List.map_congr_left fun d₃ hd₃ => ?_
  obtain ⟨g, hg⟩ := Option.ne_none_iff_exists'.1 (h r hr d₃ hd₃)
  have hg' : (P.forIterative config).getSummaryEdgeFunction edge.target edge.dTarget r d₃ =
      some g := hg
  rw [hg, hg']
  rfl

variable (P G) in
omit [DecidableEq E] in
/-- **Special summaries in both solvers.** A call composes no null edge function and propagates what
`applySummaryFlow` does, exactly if the special summaries of its callees have edge functions for what
they produce. -/
theorem processCall_summaries_iff (config : StaticSolverConfig N) (S : IDESolver N D E)
    (edge : PathEdge N D) :
    (processCallAsserting P G S edge = some (processCall P G S edge) ∧
      ∀ g ∈ G.getCalleesOfCallAt edge.target, ∀ specialSum,
        P.getSummaryFlowFunction edge.target g = some specialSum →
          specialSummaryEdges P G edge (jumpFunction P S edge) specialSum =
            IterativeIDESolver.summaryEdges (P.forIterative config) G edge (jumpFunction P S edge)
              specialSum) ↔
    ∀ g ∈ G.getCalleesOfCallAt edge.target, ∀ specialSum,
      P.getSummaryFlowFunction edge.target g = some specialSum →
        ∀ r ∈ G.getReturnSitesOfCallAt edge.target, ∀ d₃ ∈ specialSum edge.dTarget,
          P.getSummaryEdgeFunction edge.target edge.dTarget r d₃ ≠ none := by
  constructor
  · rintro ⟨h, -⟩ g hg specialSum hs
    obtain ⟨S', hS', -⟩ := Option.map_eq_some_iff.1 h
    exact calleesGiven_of_foldlM hS' g hg specialSum
      ((cachedFlows_getSummaryFlowFunction edge.target g).trans hs)
  · intro h
    have hgiven : CalleesGiven P G edge.target edge.dTarget (G.getCalleesOfCallAt edge.target) := by
      intro g hg specialSum hs
      exact h g hg specialSum ((cachedFlows_getSummaryFlowFunction edge.target g).symm.trans hs)
    constructor
    · rw [processCallAsserting, processCall, foldlM_processCallee_eq hgiven, Option.map_some]
    · exact fun g hg specialSum hs => specialSummaryEdges_eq config (h g hg specialSum hs)

/-- `false` calls the function `true`, which has it as its start point, and the declaration `false`;
the call returns to `true`. -/
def callingBoth : ICFG Bool Bool :=
  .ofNodes [false, true] (by decide) (fun _ => true) (fun n => if n then [] else [true])
    (fun n => !n) (fun n => n) (fun n => !n) (fun n => if n then [] else [true, false]) (by decide)
    (by decide)

/-- One fact, which every flow function keeps; special summaries have the edge functions of the
interface's default. -/
def keepingProblem (summary : Option (Unit → List Unit)) :
    IDETabulationProblem Bool Bool Unit BasicEdgeFunction Bool where
  getZeroValue := ()
  getNormalFlowFunction _ _ d := [d]
  getCallFlowFunction _ _ d := [d]
  getRetFlowFunction _ _ _ _ d := [d]
  getCallToRetFlowFunction _ _ _ d := [d]
  getSummaryFlowFunction _ _ := summary
  getNormalEdgeFunction _ _ _ _ := .edgeIdentity
  getCallEdgeFunction _ _ _ _ := .edgeIdentity
  getReturnEdgeFunction _ _ _ _ _ _ := .edgeIdentity
  getCallToRetEdgeFunction _ _ _ _ _ := .edgeIdentity
  getSummaryEdgeFunction _ _ _ _ := none
  extend := BasicEdgeFunction.compose
  combine := BasicEdgeFunction.join
  identity := .edgeIdentity
  isAllTop f := f = .allTop
  allTopFunction := .allTop
  extendNull := id
  topElement := true
  bottomElement := false
  join := and
  computeTarget := BasicEdgeFunction.computeTarget
  initialSeeds := .empty
  solverConfig := ⟨false, true⟩
  isAllTop_iff := BasicEdgeFunction.isAllTop_iff

/-- The default edge function of a special summary is composed; `applySummaryFlow` keeps the jump
function. -/
theorem nullSummary_composed :
    processCallAsserting (keepingProblem (some fun d => [d])) callingBoth
        (init (keepingProblem (some fun d => [d]))) ⟨(), false, ()⟩ = none ∧
      IterativeIDESolver.summaryEdges ((keepingProblem (some fun d => [d])).forIterative
          ⟨true, true, false, .disabled, fun _ => false⟩) callingBoth ⟨(), false, ()⟩ .edgeIdentity
        (fun d => [d]) = [(⟨(), true, ()⟩, .edgeIdentity)] :=
  ⟨rfl, rfl⟩

/-! ### The kind of call-to-return edges -/

variable (P G) in
/-- `HasNoCalleeInformation` of `processCall`. -/
def hasNoCalleeInformation (c : N) (callees : List F) : Bool :=
  callees.foldl (fun unknown callee =>
    match P.cachedFlows.getSummaryFlowFunction c callee with
    | some _ => false
    | none => (G.getStartPointsOf callee).foldl (fun _ _ => false) unknown) true

variable (P G) in
/-- The calls of `saveEdges` for the call-to-return flow. -/
def callToReturnCalls (edge : PathEdge N D) (callees : List F) :
    List (ExplodedSuperGraph.Call N D) :=
  (G.getReturnSitesOfCallAt edge.target).map fun r =>
    { curr := edge.target
      currNode := edge.dTarget
      succ := r
      succNodes := P.cachedFlows.getCallToRetFlowFunction edge.target r callees edge.dTarget
      kind := if hasNoCalleeInformation P G edge.target callees then .skipUnknownFn
        else .callToRet }

/-- Nothing is known of the callee. -/
def Unknown (P : IDETabulationProblem N F D E L) (G : ICFG N F) (c : N) (g : F) : Prop :=
  P.getSummaryFlowFunction c g = none ∧ G.getStartPointsOf g = []

omit [DecidableEq N] [DecidableEq E] in
/-- `processCall` looks whether anything is known of some callee. -/
theorem hasNoCalleeInformation_iff (c : N) (callees : List F) :
    hasNoCalleeInformation P G c callees = true ↔ ∀ g ∈ callees, Unknown P G c g := by
  have key : ∀ (l : List F) (b : Bool), l.foldl (fun unknown callee =>
      match P.cachedFlows.getSummaryFlowFunction c callee with
      | some _ => false
      | none => (G.getStartPointsOf callee).foldl (fun _ _ => false) unknown) b = true ↔
        b = true ∧ ∀ g ∈ l, Unknown P G c g := by
    intro l
    induction l with
    | nil => simp
    | cons g l ih =>
      intro b
      rw [List.foldl_cons, ih, List.forall_mem_cons, ← and_assoc, Unknown]
      refine and_congr_left fun _ => ?_
      rw [cachedFlows_getSummaryFlowFunction]
      cases P.getSummaryFlowFunction c g with
      | some specialSum => simp
      | none =>
        have hstarts : ∀ (starts : List N) (b : Bool),
            starts.foldl (fun _ _ => false) b = true ↔ b = true ∧ starts = [] := by
          intro starts
          induction starts with
          | nil => simp
          | cons sp starts ih' =>
            intro b
            rw [List.foldl_cons, ih']
            simp
        simp [hstarts]
  rw [hasNoCalleeInformation, key]
  simp

end IDESolver

namespace IterativeIDESolver

variable {N F D E L : Type*} [DecidableEq N] [DecidableEq F] [DecidableEq D] [DecidableEq E]

/-- The calls of `saveEdges` for the call-to-return flow. -/
def callToReturnCalls (P : IterativeProblem N F D E L) (G : ICFG N F)
    (S : IterativeIDESolver N F D E) (edge : PathEdge N D) (sourceEF : E) (callees : List F) :
    List (ExplodedSuperGraph.Call N D) :=
  (G.getReturnSitesOfCallAt edge.target).map fun r =>
    { curr := edge.target
      currNode := edge.dTarget
      succ := r
      succNodes := P.cachedFlows.getCallToRetFlowFunction edge.target r callees edge.dTarget
      kind := if (handleOrDeferCallFlow P G S edge sourceEF callees).2 then .skipUnknownFn
        else .callToRet }

variable {P : IDETabulationProblem N F D E L} {G : ICFG N F}

/-- The last callee decides. -/
theorem handleOrDeferCallFlow_iff (config : StaticSolverConfig N) (S : IterativeIDESolver N F D E)
    (edge : PathEdge N D) (sourceEF : E) (callees : List F) :
    (handleOrDeferCallFlow (P.forIterative config) G S edge sourceEF callees).2 = true ↔
      ∀ g, callees.getLast? = some g → IDESolver.Unknown P G edge.target g := by
  rcases List.eq_nil_or_concat callees with rfl | ⟨l, g, rfl⟩
  · simp [handleOrDeferCallFlow]
  · have hsummary : (P.forIterative config).cachedFlows.getSummaryFlowFunction edge.target g =
        P.getSummaryFlowFunction edge.target g := by
      rw [IterativeProblem.cachedFlows, IFDSTabulationProblem.cached_getSummaryFlowFunction]
      rfl
    rw [List.concat_eq_append, handleOrDeferCallFlow, List.foldl_append, List.foldl_cons,
      List.foldl_nil, List.getLast?_concat]
    simp only [Option.some.injEq, forall_eq', IDESolver.Unknown]
    unfold handleCallee
    rw [hsummary]
    cases P.getSummaryFlowFunction edge.target g with
    | some summaryFF => simp
    | none => simp

variable (P G) in
/-- **The kind of call-to-return edges.** The iterative solver finds no information exactly where no
callee has any, and saves the edges of `processCall`, exactly if nothing is known of any callee where
nothing is known of the last one. -/
theorem callToReturnCalls_iff (config : StaticSolverConfig N) (S : IterativeIDESolver N F D E)
    (edge : PathEdge N D) (sourceEF : E) (callees : List F) :
    (((handleOrDeferCallFlow (P.forIterative config) G S edge sourceEF callees).2 = true ↔
        ∀ g ∈ callees, IDESolver.Unknown P G edge.target g) ∧
      (handleOrDeferCallFlow (P.forIterative config) G S edge sourceEF callees).2 =
        IDESolver.hasNoCalleeInformation P G edge.target callees ∧
      callToReturnCalls (P.forIterative config) G S edge sourceEF callees =
        IDESolver.callToReturnCalls P G edge callees) ↔
    ∀ g, callees.getLast? = some g → IDESolver.Unknown P G edge.target g →
      ∀ g' ∈ callees, IDESolver.Unknown P G edge.target g' := by
  rw [handleOrDeferCallFlow_iff]
  constructor
  · rintro ⟨h, -⟩ g hg hunknown
    refine h.1 fun g' hg' => ?_
    rwa [← Option.some.inj (hg.symm.trans hg')]
  · intro h
    have hiff : (∀ g, callees.getLast? = some g → IDESolver.Unknown P G edge.target g) ↔
        ∀ g ∈ callees, IDESolver.Unknown P G edge.target g := by
      constructor
      · intro hlast g' hg'
        cases hl : callees.getLast? with
        | none =>
          rw [List.getLast?_eq_none_iff.1 hl] at hg'
          exact absurd hg' List.not_mem_nil
        | some g => exact h g hl (hlast g hl) g' hg'
      · exact fun hall g hg => hall g (List.mem_of_getLast? hg)
    have hflag : (handleOrDeferCallFlow (P.forIterative config) G S edge sourceEF callees).2 =
        IDESolver.hasNoCalleeInformation P G edge.target callees := by
      rw [Bool.eq_iff_iff, handleOrDeferCallFlow_iff, IDESolver.hasNoCalleeInformation_iff]
      exact hiff
    refine ⟨hiff, hflag, ?_⟩
    rw [callToReturnCalls, IDESolver.callToReturnCalls, hflag]
    rfl

/-- A declaration after a function with a start point. -/
theorem lastCallee_overwrites :
    (handleOrDeferCallFlow ((IDESolver.keepingProblem none).forIterative
        ⟨true, true, false, .disabled, fun _ => false⟩) IDESolver.callingBoth
      (init ((IDESolver.keepingProblem none).forIterative
        ⟨true, true, false, .disabled, fun _ => false⟩) IDESolver.callingBoth) ⟨(), false, ()⟩
      .edgeIdentity [true, false]).2 = true ∧
    IDESolver.hasNoCalleeInformation (IDESolver.keepingProblem none) IDESolver.callingBoth false
      [true, false] = false := by
  constructor
  · rw [handleOrDeferCallFlow_iff]
    rintro g hg
    obtain rfl := Option.some.inj hg
    exact ⟨rfl, rfl⟩
  · rfl

end IterativeIDESolver

end Phasar
