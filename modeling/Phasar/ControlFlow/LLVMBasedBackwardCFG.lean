import Phasar.ControlFlow.LLVMBasedCFG

/-!
# The backward control-flow graph of a function

`LLVMBasedBackwardCFG` swaps the queries of the forward graph. With synthetic backward returns, a
return instruction that is in no block follows the start points.

The predecessors of the synthetic return are looked up through the block it does not have. The list of
all edges has the edges of the forward graph. `isBranchTarget` knows branch instructions only, and the
first instructions of blocks.

* `LLVMBackwardFunction`: a function with what the backward queries read in addition;
* `getPredsOf`, `getSuccsOf`, `getAllControlFlowEdges`, `isBranchTarget`;
* `reversesForward_iff`: when the backward graph is the reversed forward graph.
-/

namespace Phasar

/-- A function: which debug instructions are calls of `llvm.dbg.declare`, and which terminators are
branch instructions, and returns or resumes. -/
structure LLVMBackwardFunction extends LLVMFunction where
  isDbgDeclare : toLLVMFunction.Inst → Bool
  isDbgInst_of_isDbgDeclare : ∀ i, isDbgDeclare i = true → toLLVMFunction.isDbgInst i = true
  isBranchInst : Fin numBlocks → Bool
  isReturnOrResume : Fin numBlocks → Bool

namespace LLVMBackwardFunction

variable (F : LLVMBackwardFunction) (backwardRets ignoreDbg : Bool)

/-- An instruction of the function, or its synthetic return. -/
inductive BackwardInst
  | inst (i : F.Inst)
  | backwardRet
  deriving DecidableEq

open BackwardInst

/-- `Instruction::getFunction`, which asks the block of the instruction. -/
def baseGetFunctionOf : F.BackwardInst → Option LLVMBackwardFunction
  | inst _ => some F
  | backwardRet => none

/-- `getAllExitPoints`. -/
def getExitPointsOf : List F.Inst :=
  ((List.finRange F.numBlocks).filter F.isReturnOrResume).map F.terminator

/-- `getStartPointsOfImpl`: the exit points of the forward graph. -/
def getStartPointsOf : List F.BackwardInst := F.getExitPointsOf.map inst

/-- `none`: the function of the synthetic return is asked for, and there is no block to ask. -/
def getPredsOf : F.BackwardInst → Option (List F.BackwardInst)
  | backwardRet => (F.baseGetFunctionOf backwardRet).map fun _ => F.getStartPointsOf
  | inst i => some ((F.toLLVMFunction.getSuccsOf ignoreDbg i).map inst)

def getSuccsOf : F.BackwardInst → List F.BackwardInst
  | backwardRet => []
  | inst i =>
    let Ret := (F.toLLVMFunction.getPredsOf ignoreDbg i).map inst
    if Ret.isEmpty && backwardRets then [backwardRet] else Ret

def getAllControlFlowEdges : List (F.BackwardInst × F.BackwardInst) :=
  F.getAllInstructions.flatMap fun i =>
    if ignoreDbg && F.isDbgDeclare i then []
    else (F.getSuccsOf backwardRets ignoreDbg (inst i)).map fun Successor => (Successor, inst i)

def isBranchTarget (Inst : F.BackwardInst) : F.BackwardInst → Bool
  | backwardRet => false
  | inst j => decide (j = F.terminator j.1) && F.isBranchInst j.1 &&
      (F.successors j.1).any fun BB => decide (Inst = inst (F.front BB))

/-- The instructions of the backward graph: those that are not skipped, and the synthetic return. -/
def IsNode : F.BackwardInst → Prop
  | inst i => F.toLLVMFunction.IsNode ignoreDbg i
  | backwardRet => backwardRets = true

/-- The backward graph is the reversed forward graph. -/
structure ReversesForward : Prop where
  mem_preds : ∀ i j, F.IsNode backwardRets ignoreDbg i → F.IsNode backwardRets ignoreDbg j →
    (j ∈ F.getSuccsOf backwardRets ignoreDbg i ↔ ∃ ps, F.getPredsOf ignoreDbg j = some ps ∧ i ∈ ps)
  ordinary : ∀ i j, F.toLLVMFunction.IsNode ignoreDbg i → F.toLLVMFunction.IsNode ignoreDbg j →
    (inst j ∈ F.getSuccsOf backwardRets ignoreDbg (inst i) ↔ j ∈ F.toLLVMFunction.getPredsOf ignoreDbg i)
  preds_backwardRet : backwardRets = true → ∃ ps, F.getPredsOf ignoreDbg backwardRet = some ps ∧
    ∀ i, i ∈ ps ↔ ∃ s ∈ F.toLLVMFunction.getStartPointsOf ignoreDbg, i = inst s
  mem_edges : ∀ i j, (i, j) ∈ F.getAllControlFlowEdges backwardRets ignoreDbg ↔
    F.IsNode backwardRets ignoreDbg i ∧ F.IsNode backwardRets ignoreDbg j ∧
      j ∈ F.getSuccsOf backwardRets ignoreDbg i
  branchTarget : ∀ i j, F.toLLVMFunction.IsNode ignoreDbg i → F.toLLVMFunction.IsNode ignoreDbg j →
    (F.isBranchTarget (inst i) (inst j) = true ↔
      inst j ∈ F.getSuccsOf backwardRets ignoreDbg (inst i) ∧ j = F.terminator j.1 ∧ i.1 ∈ F.successors j.1)

variable {F backwardRets ignoreDbg}

theorem inst_mem_getSuccsOf {i j : F.Inst} : inst j ∈ F.getSuccsOf backwardRets ignoreDbg (inst i) ↔
    j ∈ F.toLLVMFunction.getPredsOf ignoreDbg i := by
  rw [getSuccsOf]
  split_ifs with hempty
  · have hnil := List.isEmpty_iff.1 (Bool.and_eq_true_iff.1 hempty).1
    rw [List.map_eq_nil_iff] at hnil
    simp [hnil]
  · simp

theorem mem_getAllControlFlowEdges {i : F.BackwardInst} {j : F.Inst} :
    (i, inst j) ∈ F.getAllControlFlowEdges backwardRets ignoreDbg ↔
      (ignoreDbg && F.isDbgDeclare j) = false ∧ i ∈ F.getSuccsOf backwardRets ignoreDbg (inst j) := by
  have hall : j ∈ F.getAllInstructions := by
    simp only [LLVMFunction.getAllInstructions, List.mem_flatMap, List.mem_finRange, List.mem_map, true_and]
    exact ⟨j.1, j.2, rfl⟩
  rw [getAllControlFlowEdges, List.mem_flatMap]
  constructor
  · rintro ⟨k, -, hk⟩
    split_ifs at hk with hdecl
    · cases hk
    · obtain ⟨s, hs, heq⟩ := List.mem_map.1 hk
      obtain ⟨rfl, hkj⟩ := Prod.mk.inj heq
      obtain rfl := inst.inj hkj
      exact ⟨Bool.not_eq_true _ ▸ hdecl, hs⟩
  · rintro ⟨hdecl, hs⟩
    refine ⟨j, hall, ?_⟩
    rw [hdecl, if_neg Bool.false_ne_true]
    exact List.mem_map.2 ⟨i, hs, rfl⟩

theorem isBranchTarget_iff {i j : F.Inst} : F.isBranchTarget (inst i) (inst j) = true ↔
    j = F.terminator j.1 ∧ F.isBranchInst j.1 = true ∧ ∃ s ∈ F.successors j.1, i = F.front s := by
  simp [isBranchTarget, and_assoc]

variable (F ignoreDbg) in
/-- Control goes from `p` to `n`: in a block, or from its end to where a successor is entered. -/
def IsEdge (p n : F.Inst) : Prop := F.Follows ignoreDbg p n ∨
  ∃ b, ∃ s ∈ F.successors b, p = F.terminator b ∧ n = F.entered ignoreDbg s

theorem mem_getPredsOf_iff {p n : F.Inst} (hn : F.toLLVMFunction.IsNode ignoreDbg n) :
    p ∈ F.toLLVMFunction.getPredsOf ignoreDbg n ↔ F.IsEdge ignoreDbg p n := by
  rw [LLVMFunction.mem_getPredsOf hn, IsEdge]
  refine or_congr_right ⟨?_, ?_⟩
  · rintro ⟨hentered, b, hb, rfl⟩
    exact ⟨b, n.1, hb, rfl, hentered.symm⟩
  · rintro ⟨b, s, hs, rfl, rfl⟩
    rw [LLVMFunction.entered_fst]
    exact ⟨rfl, b, hs, rfl⟩

theorem isEdge_terminator {b s : Fin F.numBlocks} (hs : s ∈ F.successors b) :
    F.IsEdge ignoreDbg (F.terminator b) (F.entered ignoreDbg s) := .inr ⟨b, s, hs, rfl, rfl⟩

/-- No instruction leads to the first one of the function. -/
theorem not_isEdge_entered {p : F.Inst} {b : Fin F.numBlocks} (hb : b.val = 0) :
    ¬F.IsEdge ignoreDbg p (F.entered ignoreDbg b) := by
  rintro (hfollows | ⟨b', s, hs, -, heq⟩)
  · exact LLVMFunction.not_follows_entered hfollows
  · obtain rfl := LLVMFunction.entered_injective heq
    exact F.entry_not_successor b' _ hs hb

/-- What is looked up as a predecessor is not skipped, even for an instruction that is. -/
theorem isNode_of_mem_getPredsOf {p n : F.Inst} (hp : p ∈ F.toLLVMFunction.getPredsOf ignoreDbg n) :
    F.toLLVMFunction.IsNode ignoreDbg p := by
  rw [LLVMFunction.getPredsOf] at hp
  split at hp
  · next prev hprev =>
    obtain ⟨i, rfl, -, hi, -⟩ := LLVMFunction.getPrevNode_eq_some.1 hprev
    rwa [List.mem_singleton.1 hp]
  · obtain ⟨b, -, rfl⟩ := List.mem_map.1 hp
    exact LLVMFunction.isNode_terminator ignoreDbg b

theorem getPredsOf_eq_nil {n : F.Inst} : F.toLLVMFunction.getPredsOf ignoreDbg n = [] ↔
    (∀ k < n.2, ¬F.toLLVMFunction.IsNode ignoreDbg ⟨n.1, k⟩) ∧ ∀ b, n.1 ∉ F.successors b := by
  obtain ⟨b, j⟩ := n
  rw [← LLVMFunction.getPrevNode_eq_none, LLVMFunction.getPredsOf]
  cases F.getPrevNode ignoreDbg ⟨b, j⟩ with
  | some prev => simp
  | none => simp [List.eq_nil_iff_forall_not_mem, LLVMFunction.mem_predecessors]

/-! ### The reversed graph -/

namespace ReversesForward

theorem backwardRets_eq (h : F.ReversesForward backwardRets ignoreDbg) : backwardRets = false := by
  rw [← Bool.not_eq_true]
  intro hrets
  obtain ⟨ps, hps, -⟩ := h.preds_backwardRet hrets
  cases hps

theorem succs_iff_preds (h : F.ReversesForward backwardRets ignoreDbg) (i j : F.Inst)
    (hi : F.toLLVMFunction.IsNode ignoreDbg i) (hj : F.toLLVMFunction.IsNode ignoreDbg j) :
    j ∈ F.toLLVMFunction.getSuccsOf ignoreDbg i ↔ i ∈ F.toLLVMFunction.getPredsOf ignoreDbg j := by
  have hsucc : inst i ∈ F.getSuccsOf backwardRets ignoreDbg (inst j) ↔ _ := inst_mem_getSuccsOf
  rw [← hsucc, h.mem_preds (inst j) (inst i) hj hi]
  simp [getPredsOf]

/-- The edges are listed the other way round. -/
theorem isEdge_symm (h : F.ReversesForward backwardRets ignoreDbg) {p n : F.Inst}
    (hp : F.toLLVMFunction.IsNode ignoreDbg p) (hn : F.toLLVMFunction.IsNode ignoreDbg n)
    (hedge : F.IsEdge ignoreDbg p n) : F.IsEdge ignoreDbg n p := by
  rw [← mem_getPredsOf_iff hn] at hedge
  have hlisted : (inst p, inst n) ∈ F.getAllControlFlowEdges backwardRets ignoreDbg := by
    refine mem_getAllControlFlowEdges.2 ⟨?_, inst_mem_getSuccsOf.2 hedge⟩
    rw [LLVMFunction.IsNode, Bool.and_eq_false_iff] at hn
    rw [Bool.and_eq_false_iff, ← Bool.not_eq_true (F.isDbgDeclare n)]
    exact hn.imp_right fun hdbg hdecl =>
      Bool.false_ne_true (hdbg.symm.trans (F.isDbgInst_of_isDbgDeclare n hdecl))
  rw [← mem_getPredsOf_iff hp]
  exact inst_mem_getSuccsOf.1 ((h.mem_edges _ _).1 hlisted).2.2

theorem getPredsOf_dbgInst (h : F.ReversesForward backwardRets ignoreDbg) {n : F.Inst}
    (hn : ¬F.toLLVMFunction.IsNode ignoreDbg n) (hdecl : F.isDbgDeclare n = false) :
    F.toLLVMFunction.getPredsOf ignoreDbg n = [] := by
  refine List.eq_nil_iff_forall_not_mem.2 fun p hp => hn ?_
  have hlisted : (inst p, inst n) ∈ F.getAllControlFlowEdges backwardRets ignoreDbg :=
    mem_getAllControlFlowEdges.2 ⟨by rw [hdecl, Bool.and_false], inst_mem_getSuccsOf.2 hp⟩
  exact ((h.mem_edges _ _).1 hlisted).2.1

theorem branch (h : F.ReversesForward backwardRets ignoreDbg) {b s : Fin F.numBlocks}
    (hs : s ∈ F.successors b) :
    F.isBranchInst b = true ∧ F.toLLVMFunction.IsNode ignoreDbg (F.front s) := by
  have hnode := LLVMFunction.isNode_entered ignoreDbg s
  have hedge := (mem_getPredsOf_iff hnode).2 (isEdge_terminator hs)
  have htarget := (h.branchTarget _ _ hnode (LLVMFunction.isNode_terminator ignoreDbg b)).2
    ⟨inst_mem_getSuccsOf.2 hedge, rfl, by rwa [LLVMFunction.entered_fst]⟩
  obtain ⟨-, hbranch, s', -, hfront⟩ := isBranchTarget_iff.1 htarget
  obtain rfl : s = s' := by
    have hfst := congrArg Sigma.fst hfront
    rwa [LLVMFunction.entered_fst] at hfst
  exact ⟨hbranch, hfront ▸ hnode⟩

end ReversesForward

/-- Without synthetic returns, edges that have opposite edges are listed in both directions. -/
theorem mem_edges_iff
    (hsymm : ∀ p n, F.toLLVMFunction.IsNode ignoreDbg p → F.toLLVMFunction.IsNode ignoreDbg n →
      F.IsEdge ignoreDbg p n → F.IsEdge ignoreDbg n p)
    (hdbg : ∀ n, ¬F.toLLVMFunction.IsNode ignoreDbg n → F.isDbgDeclare n = false →
      (∀ k < n.2, ¬F.toLLVMFunction.IsNode ignoreDbg ⟨n.1, k⟩) ∧ ∀ b, n.1 ∉ F.successors b)
    (i : F.BackwardInst) (n : F.Inst) :
    (i, inst n) ∈ F.getAllControlFlowEdges false ignoreDbg ↔ F.IsNode false ignoreDbg i ∧
      F.IsNode false ignoreDbg (inst n) ∧ inst n ∈ F.getSuccsOf false ignoreDbg i := by
  rw [mem_getAllControlFlowEdges]
  rcases i with p | _
  · rw [inst_mem_getSuccsOf, inst_mem_getSuccsOf]
    constructor
    · rintro ⟨hdecl, hpred⟩
      have hp := isNode_of_mem_getPredsOf hpred
      by_cases hn : F.toLLVMFunction.IsNode ignoreDbg n
      · refine ⟨hp, hn, (mem_getPredsOf_iff hp).2 (hsymm p n hp hn ((mem_getPredsOf_iff hn).1 hpred))⟩
      · have hignore : ignoreDbg = true := by
          rw [LLVMFunction.IsNode, Bool.not_eq_false] at hn
          exact (Bool.and_eq_true_iff.1 hn).1
        rw [hignore, Bool.true_and] at hdecl
        rw [getPredsOf_eq_nil.2 (hdbg n hn hdecl)] at hpred
        cases hpred
    · rintro ⟨hp, hn, hpred⟩
      refine ⟨?_, (mem_getPredsOf_iff hn).2 (hsymm n p hn hp ((mem_getPredsOf_iff hp).1 hpred))⟩
      rw [← Bool.not_eq_true]
      intro hdecl
      obtain ⟨rfl, hdecl⟩ := Bool.and_eq_true_iff.1 hdecl
      have hinst : F.isDbgInst n = false := by simpa [IsNode, LLVMFunction.IsNode] using hn
      exact Bool.false_ne_true (hinst.symm.trans (F.isDbgInst_of_isDbgDeclare n hdecl))
  · simp [getSuccsOf, IsNode]

/-- The backward graph is the reversed forward graph just without synthetic returns, when no guarded branch
leaves out a successor, each edge has an opposite edge, skipped instructions other than `llvm.dbg.declare`
have no predecessors, and only branch instructions lead to blocks, which do not start with a skipped
instruction. -/
theorem reversesForward_iff : F.ReversesForward backwardRets ignoreDbg ↔
    backwardRets = false ∧
    (∀ b, F.isLazyInitBranch b = true → ∀ s ∈ F.successors b, s ∈ (F.successors b).take 1) ∧
    (∀ p n, F.toLLVMFunction.IsNode ignoreDbg p → F.toLLVMFunction.IsNode ignoreDbg n →
      F.IsEdge ignoreDbg p n → F.IsEdge ignoreDbg n p) ∧
    (∀ n, ¬F.toLLVMFunction.IsNode ignoreDbg n → F.isDbgDeclare n = false →
      (∀ k < n.2, ¬F.toLLVMFunction.IsNode ignoreDbg ⟨n.1, k⟩) ∧ ∀ b, n.1 ∉ F.successors b) ∧
    ∀ b, ∀ s ∈ F.successors b, F.isBranchInst b = true ∧ F.toLLVMFunction.IsNode ignoreDbg (F.front s) := by
  rw [← LLVMFunction.mem_targets_iff, ← LLVMFunction.mem_getSuccsOf_iff_mem_getPredsOf _ ignoreDbg]
  refine ⟨fun h => ⟨h.backwardRets_eq, h.succs_iff_preds, fun p n => h.isEdge_symm, fun n hn hdecl =>
    getPredsOf_eq_nil.1 (h.getPredsOf_dbgInst hn hdecl), fun b s => h.branch⟩, ?_⟩
  rintro ⟨rfl, hsame, hsymm, hdbg, hbranch⟩
  refine ⟨?_, fun i j _ _ => inst_mem_getSuccsOf, nofun, ?_, ?_⟩
  · rintro (i | _) (j | _) hi hj
    · rw [inst_mem_getSuccsOf, ← hsame j i hj hi]
      simp [getPredsOf]
    · cases hj
    · cases hi
    · cases hi
  · rintro i (n | _)
    · exact mem_edges_iff hsymm hdbg i n
    · simp [getAllControlFlowEdges, IsNode]
  · intro i j hi hj
    rw [isBranchTarget_iff, inst_mem_getSuccsOf, mem_getPredsOf_iff hi]
    constructor
    · rintro ⟨hterm, -, s, hs, rfl⟩
      refine ⟨?_, hterm, hs⟩
      rw [hterm, ← LLVMFunction.entered_eq_front hi]
      exact isEdge_terminator hs
    · rintro ⟨hfollows | ⟨b, s, hs, rfl, rfl⟩, hterm, -⟩
      · rw [hterm] at hfollows
        exact absurd hfollows LLVMFunction.not_follows_terminator
      · exact ⟨rfl, (hbranch b s hs).1, s, hs, LLVMFunction.entered_eq_front (hbranch b s hs).2⟩

/-- It is not where the first instruction of the function leads to another one. -/
theorem not_reversesForward_of_isEdge {n : F.Inst} {b : Fin F.numBlocks} (hb : b.val = 0)
    (hn : F.toLLVMFunction.IsNode ignoreDbg n) (hedge : F.IsEdge ignoreDbg (F.entered ignoreDbg b) n) :
    ¬F.ReversesForward backwardRets ignoreDbg := fun h =>
  not_isEdge_entered hb (h.isEdge_symm (LLVMFunction.isNode_entered ignoreDbg b) hn hedge)

/-- A block with an instruction and a return. -/
def returns : LLVMBackwardFunction where
  numBlocks := 1
  dbgInstructions _ := [false]
  successors _ := []
  isLazyInitBranch _ := false
  entry_not_successor := by decide
  isDbgDeclare _ := false
  isDbgInst_of_isDbgDeclare := nofun
  isBranchInst _ := false
  isReturnOrResume _ := true

theorem not_reversesForward_returns :
    ¬∃ backwardRets ignoreDbg, returns.ReversesForward backwardRets ignoreDbg := by
  rintro ⟨backwardRets, ignoreDbg, h⟩
  have hb : (⟨0, by decide⟩ : Fin returns.numBlocks).val = 0 := rfl
  have hterm := LLVMFunction.isNode_terminator (F := returns.toLLVMFunction) ignoreDbg ⟨0, by decide⟩
  refine not_reversesForward_of_isEdge hb hterm ((mem_getPredsOf_iff hterm).1 ?_) h
  cases ignoreDbg <;> decide

end LLVMBackwardFunction

end Phasar
