import Phasar.IfdsIde.IFDS
import Phasar.IfdsIde.SparseIterativeIDESolver

/-!
# The reference counts of pending jobs

With garbage collection of jump functions, the solver counts the jobs of each function on the work list. A job
is counted for the function that is handed down to `storeResultsAndPropagate`, and taken off for the function
of its instruction.

* `Counted`: the counts are the numbers of jobs;
* `Counted.storeAll`: path edges inside the function that is handed down;
* `refCount_consistent`: the counts in every run.
-/

namespace Phasar

namespace SparseIterativeIDESolver

open IterativeIDESolver

variable {N F D E L : Type*} [DecidableEq N] [DecidableEq F] [DecidableEq D] [DecidableEq E]
variable {P : IterativeProblem N F D E L} {G : ICFG N F} {advanceToNextUser : N → D → N}
variable {S S' : IterativeIDESolver N F D E} {funId : F}

/-- The jobs on the work list whose instruction belongs to the function. -/
def pendingJobs (G : ICFG N F) (S : IterativeIDESolver N F D E) (f : F) : ℕ :=
  S.workList.countP fun job => G.getFunctionOf job.1.target = f

/-- The count of each function is the number of its pending jobs. -/
def Counted (G : ICFG N F) (S : IterativeIDESolver N F D E) : Prop :=
  ∀ f, S.refCountPerFunction f = pendingJobs G S f

/-- A fact is moved inside the function. -/
def StaysInFunction (G : ICFG N F) (advanceToNextUser : N → D → N) : Prop :=
  ∀ n d, G.getFunctionOf (advanceToNextUser n d) = G.getFunctionOf n

/-! ### Counting a job -/

omit [DecidableEq N] [DecidableEq D] [DecidableEq E] in
theorem Counted.congr (h : Counted G S) (hjobs : S'.workList = S.workList)
    (hcounts : S'.refCountPerFunction = S.refCountPerFunction) : Counted G S' := by
  intro f
  rw [hcounts, h f, pendingJobs, pendingJobs, hjobs]

omit [DecidableEq E] in
theorem Counted.register (h : Counted G S) (hgc : P.config.enableJumpFunctionGC ≠ .disabled)
    {edge : PathEdge N D} (hfun : G.getFunctionOf edge.target = funId) (x : E) :
    Counted G (register P S edge funId x) := by
  intro f
  rw [IterativeIDESolver.register, if_neg hgc]
  show Function.update S.refCountPerFunction funId _ f = (S.workList ++ [(edge, x)]).countP _
  rw [List.countP_append, List.countP_singleton]
  by_cases hf : f = funId
  · subst hf
    rw [Function.update_self, h f, if_pos (by simpa using hfun)]
    rfl
  · rw [Function.update_of_ne hf, h f, if_neg (by simpa [hfun] using Ne.symm hf)]
    rfl

theorem Counted.store (h : Counted G S) (hgc : P.config.enableJumpFunctionGC ≠ .disabled)
    {edge : PathEdge N D} (hfun : G.getFunctionOf edge.target = funId) (x : E) :
    Counted G (IterativeIDESolver.storeResultsAndPropagate P G funId S (edge, x)) := by
  have hset : ∀ {T : IterativeIDESolver N F D E}, Counted G T → ∀ n d,
      Counted G (IterativeIDESolver.set P G T n d) := by
    intro T hT n d
    unfold IterativeIDESolver.set
    split_ifs
    · exact hT
    · exact hT.congr rfl rfl
  unfold IterativeIDESolver.storeResultsAndPropagate
  dsimp only
  split_ifs
  · exact h
  · cases (S.jumpFunctions edge.target).get? (edge.dSource, edge.dTarget) with
    | none => exact hset (h.register hgc hfun x) _ _
    | some f =>
      dsimp only
      split_ifs
      · exact h.register hgc hfun _
      · exact h

/-- Path edges inside the function that is handed down. -/
theorem Counted.storeAll (h : Counted G S) (hgc : P.config.enableJumpFunctionGC ≠ .disabled)
    (hadv : StaysInFunction G advanceToNextUser) {items : List (PathEdge N D × E)}
    (hitems : ∀ i ∈ items, G.getFunctionOf i.1.target = funId) :
    Counted G (storeAll P G advanceToNextUser funId S items) := by
  refine List.foldlRecOn items _ h fun T hT i hi => ?_
  refine hT.store hgc ?_ i.2
  rw [advance, hadv]
  exact hitems i hi

/-! ### The paths of the function -/

omit [DecidableEq N] [DecidableEq F] [DecidableEq E] in
theorem function_normalEdges {edge : PathEdge N D} {f : E} :
    ∀ i ∈ normalEdges P G edge f, G.getFunctionOf i.1.target = G.getFunctionOf edge.target := by
  intro i hi
  obtain ⟨succ, hsucc, hi⟩ := List.mem_flatMap.1 hi
  obtain ⟨fact, -, rfl⟩ := List.mem_map.1 hi
  exact G.getFunctionOf_succ edge.target succ hsucc

omit [DecidableEq N] [DecidableEq F] [DecidableEq E] in
theorem function_callToReturnEdges {edge : PathEdge N D} {f : E} :
    ∀ i ∈ callToReturnEdges P G edge f, G.getFunctionOf i.1.target = G.getFunctionOf edge.target := by
  intro i hi
  obtain ⟨retSite, hret, hi⟩ := List.mem_flatMap.1 hi
  obtain ⟨fact, -, rfl⟩ := List.mem_map.1 hi
  exact G.getFunctionOf_returnSite hret

omit [DecidableEq N] [DecidableEq F] [DecidableEq D] [DecidableEq E] in
theorem function_summaryEdges {edge : PathEdge N D} {f : E} {summaryFF : D → List D} :
    ∀ i ∈ summaryEdges P G edge f summaryFF, G.getFunctionOf i.1.target = G.getFunctionOf edge.target := by
  intro i hi
  obtain ⟨retSite, hret, hi⟩ := List.mem_flatMap.1 hi
  obtain ⟨fact, -, rfl⟩ := List.mem_map.1 hi
  exact G.getFunctionOf_returnSite hret

omit [DecidableEq N] [DecidableEq F] [DecidableEq E] in
theorem function_procedureSummaryEdges {summaries : List (D × E)} {callSite exitInst : N} {callee : F}
    {sourceFact : D} {callEF : E} :
    ∀ i ∈ procedureSummaryEdges P G summaries callSite callee exitInst sourceFact callEF,
      G.getFunctionOf i.1.target = G.getFunctionOf callSite := by
  intro i hi
  obtain ⟨retSite, hret, hi⟩ := List.mem_flatMap.1 hi
  obtain ⟨summary, -, hi⟩ := List.mem_flatMap.1 hi
  obtain ⟨fact, -, rfl⟩ := List.mem_map.1 hi
  exact G.getFunctionOf_returnSite hret

/-! ### Taking a job, and collecting garbage -/

omit [DecidableEq N] [DecidableEq D] [DecidableEq E] in
/-- The job that is taken is no longer counted. -/
theorem Counted.take (h : Counted G S) {l r : List (PathEdge N D × E)} {edge : PathEdge N D} {f : E}
    (hjobs : S.workList = l ++ (edge, f) :: r) :
    0 < S.refCountPerFunction (G.getFunctionOf edge.target) ∧
      Counted G { S with
        workList := l ++ r
        refCountPerFunction := Function.update S.refCountPerFunction (G.getFunctionOf edge.target)
          (S.refCountPerFunction (G.getFunctionOf edge.target) - 1) } := by
  have hpending : ∀ g, S.refCountPerFunction g =
      (l ++ r).countP (fun job => G.getFunctionOf job.1.target = g) +
        if G.getFunctionOf edge.target = g then 1 else 0 := by
    intro g
    rw [h g, pendingJobs, hjobs, List.countP_append, List.countP_append, List.countP_cons, Nat.add_assoc]
    simp only [decide_eq_true_eq]
  refine ⟨?_, fun g => ?_⟩
  · rw [hpending, if_pos rfl]
    exact Nat.succ_pos _
  -- the count of the other functions is left alone
  · show Function.update S.refCountPerFunction _ _ g = (l ++ r).countP _
    by_cases hg : g = G.getFunctionOf edge.target
    · rw [hg, Function.update_self, hpending, if_pos rfl, Nat.add_sub_cancel]
    · rw [Function.update_of_ne hg, hpending, if_neg (Ne.symm hg), Nat.add_zero]

omit [DecidableEq D] [DecidableEq E] in
/-- Garbage collection takes no job, and leaves the counts. -/
theorem Counted.runGC (h : Counted G S) : Counted G (runGC P G S) := by
  refine List.foldlRecOn _ _ h fun T hT g _ => ?_
  refine Counted.congr ?_ rfl rfl
  refine List.foldlRecOn _ _ hT fun T' hT' inst _ => ?_
  unfold removeJumpFunctionsFor
  split_ifs
  · exact hT'
  · exact hT'.congr rfl rfl

section Steps

variable (hgc : P.config.enableJumpFunctionGC ≠ .disabled) (hadv : StaysInFunction G advanceToNextUser)
include hgc hadv

theorem Counted.applyNormalFlow (h : Counted G S) {edge : PathEdge N D} {f : E}
    (hfun : G.getFunctionOf edge.target = funId) :
    Counted G (applyNormalFlow P G advanceToNextUser S edge f funId) := by
  have hstore : Counted G (SparseIterativeIDESolver.storeAll P G advanceToNextUser funId S
      (normalEdges P G edge f)) := h.storeAll hgc hadv fun i hi => (function_normalEdges i hi).trans hfun
  unfold SparseIterativeIDESolver.applyNormalFlow
  dsimp only
  split_ifs
  · exact hstore.congr rfl rfl
  · exact hstore.congr rfl rfl
  · exact hstore

theorem Counted.propagateProcedureSummaries (h : Counted G S) {summaries : List (D × E)}
    {callSite exitInst : N} {callee callerId : F} {sourceFact : D} {callEF : E}
    (hfun : G.getFunctionOf callSite = callerId) :
    Counted G (propagateProcedureSummaries P G advanceToNextUser S summaries callSite callee exitInst sourceFact
      callerId callEF) :=
  h.storeAll hgc hadv fun i hi => (function_procedureSummaryEdges i hi).trans hfun

theorem Counted.applyEarlySummariesAtCall (h : Counted G S) {job : InterPropagationJob N F D E}
    (hfun : G.getFunctionOf job.callSite = funId) :
    Counted G (applyEarlySummariesAtCall P G advanceToNextUser S job funId) :=
  List.foldlRecOn _ _ h fun _ hT _ _ => hT.propagateProcedureSummaries hgc hadv hfun

theorem Counted.enterCallee (h : Counted G S) {edge : PathEdge N D} {f : E} {callee : F} {sp : N}
    (hsp : sp ∈ G.getStartPointsOf callee) (hfun : G.getFunctionOf edge.target = funId) (fact : D) :
    Counted G (enterCallee P G advanceToNextUser edge f callee funId sp S fact) := by
  -- the start point belongs to the callee, which is handed down with it
  have hstart : Counted G (SparseIterativeIDESolver.storeResultsAndPropagate P G advanceToNextUser callee S
      (⟨fact, sp, fact⟩, P.identity)) := by
    refine h.store hgc ?_ _
    rw [advance, hadv]
    exact G.getFunctionOf_startPoint hsp
  unfold SparseIterativeIDESolver.enterCallee
  dsimp only
  split_ifs
  · exact hstart
  · -- the early summaries are handed the function of the caller
    have hearly : ∀ {T : IterativeIDESolver N F D E} {job : InterPropagationJob N F D E} {lists},
        Counted G T → G.getFunctionOf job.callSite = funId →
        Counted G { SparseIterativeIDESolver.applyEarlySummariesAtCall P G advanceToNextUser T job funId with
          sourceFactAndFuncToInterJob := lists } :=
      fun hT hjob => (hT.applyEarlySummariesAtCall hgc hadv hjob).congr rfl rfl
    exact hearly (hstart.congr rfl rfl) hfun

theorem Counted.handleCallee (h : Counted G S) {edge : PathEdge N D} {f : E}
    (hfun : G.getFunctionOf edge.target = funId) (callee : F) :
    Counted G (handleCallee P G advanceToNextUser edge f funId S callee) := by
  unfold SparseIterativeIDESolver.handleCallee
  cases P.cachedFlows.getSummaryFlowFunction edge.target callee with
  | none =>
    refine List.foldlRecOn _ _ h fun T hT sp hsp => ?_
    refine List.foldlRecOn _ _ hT fun T' hT' fact _ => ?_
    exact hT'.enterCallee hgc hadv hsp hfun fact
  | some summaryFF =>
    exact h.storeAll hgc hadv fun i hi => (function_summaryEdges i hi).trans hfun

theorem Counted.applyIntraCallFlow (h : Counted G S) {edge : PathEdge N D} {f : E}
    (hfun : G.getFunctionOf edge.target = funId) :
    Counted G (applyIntraCallFlow P G advanceToNextUser S edge f funId) := by
  have hcallees : Counted G (handleOrDeferCallFlow P G advanceToNextUser S edge f
      (G.getCalleesOfCallAt edge.target) funId) :=
    List.foldlRecOn _ _ h fun T hT callee _ => hT.handleCallee hgc hadv hfun callee
  exact hcallees.storeAll hgc hadv fun i hi => (function_callToReturnEdges i hi).trans hfun

/-! ### Steps -/

theorem Counted.propagate (h : Counted G S) {l r : List (PathEdge N D × E)} {edge : PathEdge N D} {f : E}
    (hjobs : S.workList = l ++ (edge, f) :: r) :
    Counted G (propagate P G advanceToNextUser { S with workList := l ++ r } edge f) := by
  have htake := (h.take hjobs).2
  unfold SparseIterativeIDESolver.propagate
  dsimp only
  rw [if_neg hgc]
  split_ifs
  · exact htake.applyNormalFlow hgc hadv rfl
  · exact htake.applyIntraCallFlow hgc hadv rfl

theorem Counted.processInterJobs (h : Counted G S) (calls : List (D × F)) :
    Counted G (processInterJobs P G advanceToNextUser S calls) := by
  refine List.foldlRecOn _ _ (h.congr rfl rfl) fun T hT call _ => ?_
  refine List.foldlRecOn _ _ hT fun T' hT' exitInst _ => ?_
  refine List.foldlRecOn _ _ hT' fun T'' hT'' job _ => ?_
  exact hT''.propagateProcedureSummaries hgc hadv rfl

theorem Counted.drained (h : Counted G S) (calls : List (D × F)) :
    Counted G (drained P G advanceToNextUser S calls) := by
  unfold SparseIterativeIDESolver.drained
  dsimp only
  rw [if_neg hgc]
  exact (h.processInterJobs hgc hadv calls).runGC

theorem counted_init : Counted G (init P G advanceToNextUser) := by
  refine List.foldlRecOn _ _ (fun _ => rfl) fun T hT entry _ => ?_
  refine hT.storeAll hgc hadv fun i hi => ?_
  obtain ⟨fact, -, rfl⟩ := List.mem_map.1 hi
  rfl

/-! ### Runs -/

/-- The counts in every state of a run. -/
theorem Reachable.counted (hS : Reachable P G advanceToNextUser S) : Counted G S := by
  induction hS with
  | init => exact counted_init hgc hadv
  | step _ hstep ih =>
    cases hstep with
    | take l r edge f hjobs => exact ih.propagate hgc hadv hjobs
    | drain calls l r edge f _ _ hjobs => exact (ih.drained hgc hadv calls).propagate hgc hadv hjobs

end Steps

/-- The counts agree with the work list, and can be decremented for each of its jobs. -/
structure Consistent (G : ICFG N F) (S : IterativeIDESolver N F D E) : Prop where
  counted : ∀ f, S.refCountPerFunction f = pendingJobs G S f
  pos : ∀ job ∈ S.workList, 0 < S.refCountPerFunction (G.getFunctionOf job.1.target)
  empty : S.workList = [] → ∀ f, S.refCountPerFunction f = 0

omit [DecidableEq N] [DecidableEq D] [DecidableEq E] in
theorem Counted.consistent (h : Counted G S) : Consistent G S := by
  refine ⟨h, fun job hjob => ?_, fun hempty f => ?_⟩
  · obtain ⟨l, r, hjobs⟩ := List.append_of_mem hjob
    exact (h.take hjobs).1
  · rw [h f, pendingJobs, hempty, List.countP_nil]

/-- The problem of the recursive program, with garbage collection. -/
def collected : IterativeProblem (Fin 4) (Fin 2) (Fin 2) Unit BinaryDomain :=
  recursiveProblem.withoutValues mainZeroSeeds ⟨false, true, false, .enabledAggressively, fun _ => false⟩

/-- The zero fact is moved from the start of `g` to its exit. -/
def toExit (n : Fin 4) (d : Fin 2) : Fin 4 := if n.val = 2 ∧ d.val = 0 then Fin.last 3 else n

end SparseIterativeIDESolver

end Phasar
