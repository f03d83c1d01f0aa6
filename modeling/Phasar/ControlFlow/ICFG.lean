import Mathlib.Data.List.Basic

/-!
# The interprocedural control-flow graph

The part of the `ICFG` and `BidiCFG` interfaces that the solvers query. Instructions are `N`,
functions are `F`; every range the interface returns is a list in the order of the range. The fields
after the queries are the interface's own contract: the start and exit points of a function are its
start and exit instructions, the predecessors are the reversed successors, the callers of a function
are the call sites that have it among their callees, control flow and return sites stay inside a
function, and (as the solvers note) a call site is never an exit instruction.

* `ICFG`: the queries and their contract;
* `ICFG.ofNodes`: the graph given by its nodes, control-flow edges and call edges.
-/

namespace Phasar

/-- An interprocedural control-flow graph. -/
structure ICFG (N F : Type*) where
  getFunctionOf : N → F
  getAllInstructionsOf : F → List N
  getSuccsOf : N → List N
  getPredsOf : N → List N
  getStartPointsOf : F → List N
  getExitPointsOf : F → List N
  isCallSite : N → Bool
  isStartPoint : N → Bool
  isExitInst : N → Bool
  getCalleesOfCallAt : N → List F
  getReturnSitesOfCallAt : N → List N
  getCallersOf : F → List N
  getCallsFromWithin : F → List N
  allNonCallStartNodes : List N
  mem_getAllInstructionsOf : ∀ n f, n ∈ getAllInstructionsOf f ↔ getFunctionOf n = f
  mem_getPredsOf : ∀ m n, m ∈ getPredsOf n ↔ n ∈ getSuccsOf m
  mem_getStartPointsOf : ∀ n f,
    n ∈ getStartPointsOf f ↔ isStartPoint n = true ∧ getFunctionOf n = f
  mem_getExitPointsOf : ∀ n f, n ∈ getExitPointsOf f ↔ isExitInst n = true ∧ getFunctionOf n = f
  mem_getCallersOf : ∀ c f, c ∈ getCallersOf f ↔ isCallSite c = true ∧ f ∈ getCalleesOfCallAt c
  mem_getCallsFromWithin : ∀ c f,
    c ∈ getCallsFromWithin f ↔ isCallSite c = true ∧ getFunctionOf c = f
  mem_allNonCallStartNodes : ∀ n,
    n ∈ allNonCallStartNodes ↔ isCallSite n = false ∧ isStartPoint n = false
  getFunctionOf_succ : ∀ n, ∀ m ∈ getSuccsOf n, getFunctionOf m = getFunctionOf n
  returnSite_succ : ∀ c, ∀ r ∈ getReturnSitesOfCallAt c, r ∈ getSuccsOf c
  exit_not_callSite : ∀ n, isExitInst n = true → isCallSite n = false

namespace ICFG

variable {N F : Type*} (G : ICFG N F)

theorem getFunctionOf_returnSite {c r : N} (h : r ∈ G.getReturnSitesOfCallAt c) :
    G.getFunctionOf r = G.getFunctionOf c :=
  G.getFunctionOf_succ c r (G.returnSite_succ c r h)

theorem getFunctionOf_startPoint {sp : N} {f : F} (h : sp ∈ G.getStartPointsOf f) :
    G.getFunctionOf sp = f :=
  ((G.mem_getStartPointsOf sp f).1 h).2

theorem isStartPoint_of_mem {sp : N} {f : F} (h : sp ∈ G.getStartPointsOf f) :
    G.isStartPoint sp = true :=
  ((G.mem_getStartPointsOf sp f).1 h).1

/-- The graph with the given nodes: control-flow successors, start, exit and call instructions and
callees are given, everything else follows. The return sites of a call are its successors. -/
def ofNodes [DecidableEq N] [DecidableEq F] (nodes : List N) (hnodes : ∀ n, n ∈ nodes) (fn : N → F)
    (succs : N → List N) (start exit call : N → Bool) (callees : N → List F)
    (hfn : ∀ n, ∀ m ∈ succs n, fn m = fn n) (hexit : ∀ n, exit n = true → call n = false) :
    ICFG N F where
  getFunctionOf := fn
  getAllInstructionsOf f := nodes.filter (fn · = f)
  getSuccsOf := succs
  getPredsOf n := nodes.filter (n ∈ succs ·)
  getStartPointsOf f := nodes.filter fun n => start n ∧ fn n = f
  getExitPointsOf f := nodes.filter fun n => exit n ∧ fn n = f
  isCallSite := call
  isStartPoint := start
  isExitInst := exit
  getCalleesOfCallAt := callees
  getReturnSitesOfCallAt := succs
  getCallersOf f := nodes.filter fun c => call c ∧ f ∈ callees c
  getCallsFromWithin f := nodes.filter fun c => call c ∧ fn c = f
  allNonCallStartNodes := nodes.filter fun n => !call n ∧ !start n
  mem_getAllInstructionsOf n f := by simp [hnodes]
  mem_getPredsOf m n := by simp [hnodes]
  mem_getStartPointsOf n f := by simp [hnodes]
  mem_getExitPointsOf n f := by simp [hnodes]
  mem_getCallersOf c f := by simp [hnodes]
  mem_getCallsFromWithin c f := by simp [hnodes]
  mem_allNonCallStartNodes n := by simp [hnodes]
  getFunctionOf_succ := hfn
  returnSite_succ _ _ h := h
  exit_not_callSite := hexit

end ICFG

end Phasar
