import Phasar.Lib.FlowEquations
import Phasar.Lib.Propagation
import Phasar.ControlFlow.LLVMBasedCFG

/-!
# The intraprocedural monotone solver

`IntraMonoSolver`: a work list of control-flow edges. An edge recomputes the value of its target, from
all predecessors where the control-flow graph reports a branch target, and from the source of the edge
otherwise.

* `iterate`, `solve`: the solver over what a control-flow graph reports;
* `Consistent`, `exists_iterate`: the graphs for which it ends with the least solution;
* `solvesMFP_iff`: the functions for which it does.
-/

namespace Phasar

open FlowEquations

/-- What the solver asks a control-flow graph. -/
structure CFG (N : Type*) where
  getPredsOf : N → List N
  getSuccsOf : N → List N
  isBranchTarget : N → N → Bool
  allControlFlowEdges : List (N × N)

/-- What `LLVMBasedCFG` reports of a function. -/
def LLVMFunction.cfg (F : LLVMFunction) (ignoreDbg : Bool) : CFG F.Inst where
  getPredsOf := F.getPredsOf ignoreDbg
  getSuccsOf := F.getSuccsOf ignoreDbg
  isBranchTarget := F.isBranchTarget
  allControlFlowEdges := F.getAllControlFlowEdges ignoreDbg

/-- A problem with the values `L`; `insert` adds seeds to a value. -/
structure IntraMonoProblem (N L : Type*) where
  normalFlow : N → L → L
  merge : L → L → L
  equalTo : L → L → Bool
  allTop : L
  insert : L → L → L
  initialSeeds : N → Option L

/-- Monotone functions on a lattice, with `allTop` the neutral element of `merge`. -/
structure IntraMonoProblem.Lawful {N L : Type*} [SemilatticeSup L] [OrderBot L]
    (P : IntraMonoProblem N L) : Prop where
  normalFlow : ∀ n, Monotone (P.normalFlow n)
  merge : ∀ x y, P.merge x y = x ⊔ y
  equalTo : ∀ x y, P.equalTo x y = true ↔ x = y
  allTop : P.allTop = ⊥

namespace IntraMonoSolver

variable {N L : Type*} [DecidableEq N] (cfg : CFG N) (P : IntraMonoProblem N L)

/-- `Analysis` before the iteration. -/
def initialAnalysis (n : N) : L :=
  match P.initialSeeds n with
  | some facts => P.insert P.allTop facts
  | none => P.allTop

/-- The value for the target of an edge. -/
def computeOut (A : N → L) (src dst : N) : L :=
  if cfg.isBranchTarget src dst then
    (cfg.getPredsOf dst).foldl
      (fun out pred => if pred ≠ src then P.merge out (P.normalFlow pred (A pred)) else out)
      (P.normalFlow src (A src))
  else P.normalFlow src (A src)

/-- Step 2 of `solve`, for at most `fuel` edges of the work list. -/
def loop : ℕ → List (N × N) → (N → L) → Option (N → L)
  | _, [], A => some A
  | 0, _ :: _, _ => none
  | fuel + 1, (src, dst) :: worklist, A =>
    let out := computeOut cfg P A src dst
    if P.equalTo out (A dst) then loop fuel worklist A
    else loop fuel (worklist ++ (cfg.getSuccsOf dst).map (Prod.mk dst)) (Function.update A dst out)

/-- `Analysis` before the final pass. -/
def iterate (fuel : ℕ) : Option (N → L) := loop cfg P fuel cfg.allControlFlowEdges (initialAnalysis P)

/-- `Analysis` after the final pass. -/
def solve (fuel : ℕ) : Option (N → L) :=
  (iterate cfg P fuel).map fun A n => P.normalFlow n (A n)

variable (node start : N → Prop)

/-- The equations with the reported predecessors. -/
def predEquations : System N L where
  node := node
  start := start
  pred p n := node n ∧ p ∈ cfg.getPredsOf n
  flow := P.normalFlow
  init := initialAnalysis P

/-- The equations with the predecessors along the reported successors. -/
def succEquations : System N L where
  node := node
  start := start
  pred p n := node p ∧ n ∈ cfg.getSuccsOf p
  flow := P.normalFlow
  init := initialAnalysis P

/-- For every problem with seeds at start nodes, the solver ends with the least solution, whether
predecessors are those reported or those along the reported successors. -/
def SolvesMFP : Prop :=
  ∀ (L : Type) [SemilatticeSup L] [OrderBot L] [WellFoundedGT L] (P : IntraMonoProblem N L),
    P.Lawful → (∀ n, (P.initialSeeds n).isSome → start n) → ∃ A : N → L,
      (∃ bound, ∀ fuel ≥ bound, iterate cfg P fuel = some A ∧
        solve cfg P fuel = some fun n => P.normalFlow n (A n)) ∧
      Least (predEquations cfg P node start) A ∧ Least (succEquations cfg P node start) A

/-- The queries agree: edges, successors and predecessors are the same relation, start nodes have no
predecessors, and a node with several of them is a branch target. -/
structure Consistent : Prop where
  edges : ∀ p n, (p, n) ∈ cfg.allControlFlowEdges ↔ node p ∧ n ∈ cfg.getSuccsOf p
  node_succ : ∀ p n, node p → n ∈ cfg.getSuccsOf p → node n
  preds : ∀ p n, node n → (p ∈ cfg.getPredsOf n ↔ node p ∧ n ∈ cfg.getSuccsOf p)
  start : ∀ p n, node p → n ∈ cfg.getSuccsOf p → ¬start n
  branchTarget : ∀ p n, node p → n ∈ cfg.getSuccsOf p →
    cfg.isBranchTarget p n = true ∨ ∀ q ∈ cfg.getPredsOf n, q = p

variable {cfg P node start} [SemilatticeSup L] [OrderBot L]

theorem foldl_merge_le_iff (hP : P.Lawful) {A : N → L} {src : N} {x : L} :
    ∀ {preds : List N} {out : L},
      preds.foldl (fun out pred =>
          if pred ≠ src then P.merge out (P.normalFlow pred (A pred)) else out) out ≤ x ↔
        out ≤ x ∧ ∀ p ∈ preds, p ≠ src → P.normalFlow p (A p) ≤ x
  | [], out => by simp
  | p :: preds, out => by
    rw [List.foldl_cons, foldl_merge_le_iff hP, List.forall_mem_cons]
    by_cases hp : p = src
    · rw [if_neg (not_not.2 hp)]
      exact and_congr_right fun _ => ⟨fun h => ⟨fun hne => absurd hp hne, h⟩, And.right⟩
    · rw [if_pos hp, hP.merge, sup_le_iff, and_assoc]
      exact and_congr_right fun _ =>
        and_congr_left fun _ => ⟨fun h _ => h, fun h => h hp⟩

/-- Along an edge, the least upper bound of what flows in from all predecessors is computed. -/
theorem isLUB_computeOut (hP : P.Lawful) (hcfg : Consistent cfg node start) {A : N → L} {src dst : N}
    (hsrc : node src) (hdst : dst ∈ cfg.getSuccsOf src) :
    IsLUB (Incoming (succEquations cfg P node start) A dst) (computeOut cfg P A src dst) := by
  have hnode := hcfg.node_succ src dst hsrc hdst
  have hle : ∀ x, computeOut cfg P A src dst ≤ x ↔
      ∀ p, node p ∧ dst ∈ cfg.getSuccsOf p → P.normalFlow p (A p) ≤ x := by
    intro x
    simp only [← hcfg.preds _ dst hnode]
    have hself : src ∈ cfg.getPredsOf dst := (hcfg.preds src dst hnode).2 ⟨hsrc, hdst⟩
    rw [computeOut]
    split_ifs with htarget
    · rw [foldl_merge_le_iff hP]
      constructor
      · rintro ⟨hout, hother⟩ p hp
        by_cases heq : p = src
        · rwa [heq]
        · exact hother p hp heq
      · exact fun h => ⟨h src hself, fun p hp _ => h p hp⟩
    · have hsingle := (hcfg.branchTarget src dst hsrc hdst).resolve_left htarget
      exact ⟨fun h p hp => hsingle p hp ▸ h, fun h => h src hself⟩
  constructor
  · rintro x ⟨p, hp, rfl⟩
    exact (hle _).1 le_rfl p hp
  · intro x hx
    exact (hle x).2 fun p hp => hx ⟨p, hp, rfl⟩

/-- The edges of the work list are edges of the graph. -/
def Edges (cfg : CFG N) (node : N → Prop) (worklist : List (N × N)) : Prop :=
  ∀ e ∈ worklist, node e.1 ∧ e.2 ∈ cfg.getSuccsOf e.1

omit [DecidableEq N] in
theorem regular (hP : P.Lawful) (hcfg : Consistent cfg node start) :
    (succEquations cfg P node start).Regular where
  flow := hP.normalFlow
  node p n hp := ⟨hp.1, hcfg.node_succ p n hp.1 hp.2⟩
  start p n hp := hcfg.start p n hp.1 hp.2

/-- The iteration ends with the least solution. -/
theorem exists_loop [Finite N] [WellFoundedGT L] (hP : P.Lawful) (hcfg : Consistent cfg node start) :
    ∀ (s : (N → L) × List (N × N)), Edges cfg node s.2 →
      Approx (succEquations cfg P node start) s.1 (fun n => ∃ e ∈ s.2, e.2 = n) →
      ∃ A, (∃ bound, ∀ fuel ≥ bound, loop cfg P fuel s.2 s.1 = some A) ∧
        Least (succEquations cfg P node start) A := by
  have hwf := wellFounded_of_progress (σ := (N → L) × List (N × N))
    (r := fun s s' => s.1 < s'.1 ∨ s.1 = s'.1 ∧ s'.2.length < s.2.length) (fun s => s.1)
    (fun s => s.2.length) fun _ _ h => h
  intro s
  induction s using hwf.induction with
  | h s ih =>
    obtain ⟨A, worklist⟩ := s
    intro hedges happrox
    cases worklist with
    | nil =>
      refine ⟨A, ⟨0, fun fuel _ => by cases fuel <;> rfl⟩, Approx.least ⟨happrox.start, happrox.below,
        happrox.rising, fun n hn hs => ?_⟩⟩
      exact (happrox.done n hn hs).imp_left fun ⟨e, he, _⟩ => absurd he List.not_mem_nil
    | cons e worklist =>
      obtain ⟨src, dst⟩ := e
      obtain ⟨hsrc, hdst⟩ := hedges _ List.mem_cons_self
      have hlub := isLUB_computeOut hP hcfg (A := A) hsrc hdst
      have hnode := hcfg.node_succ src dst hsrc hdst
      have hstart := hcfg.start src dst hsrc hdst
      have hrest : Edges cfg node worklist := fun e he => hedges e (List.mem_cons_of_mem _ he)
      have htodo : ∀ m, (∃ e ∈ (src, dst) :: worklist, e.2 = m) → m ≠ dst → ∃ e ∈ worklist, e.2 = m := by
        rintro m ⟨e, he, rfl⟩ hne
        rcases List.mem_cons.1 he with rfl | he
        · exact absurd rfl hne
        · exact ⟨e, he, rfl⟩
      by_cases heq : P.equalTo (computeOut cfg P A src dst) (A dst) = true
      · -- the value does not change
        rw [hP.equalTo] at heq
        rw [heq] at hlub
        obtain ⟨B, ⟨bound, hB⟩, hleast⟩ := ih (A, worklist)
          (Or.inr ⟨rfl, by simp⟩) hrest (happrox.skip hlub htodo)
        refine ⟨B, ⟨bound + 1, fun fuel hfuel => ?_⟩, hleast⟩
        obtain ⟨fuel, rfl⟩ : ∃ k, fuel = k + 1 := ⟨fuel - 1, by omega⟩
        simp only [loop]
        rw [if_pos ((hP.equalTo _ _).2 heq), hB fuel (by omega)]
      · have hlt : A < Function.update A dst (computeOut cfg P A src dst) := by
          have hne := fun h => heq ((hP.equalTo _ _).2 h)
          have hle := happrox.le hnode hstart hlub
          exact lt_update_self_iff.2 (lt_of_le_of_ne hle (Ne.symm hne))
        have hedges' : Edges cfg node (worklist ++ (cfg.getSuccsOf dst).map (Prod.mk dst)) := by
          intro e he
          rcases List.mem_append.1 he with he | he
          · exact hrest e he
          · obtain ⟨m, hm, rfl⟩ := List.mem_map.1 he
            exact ⟨hnode, hm⟩
        obtain ⟨B, ⟨bound, hB⟩, hleast⟩ := ih
          (Function.update A dst (computeOut cfg P A src dst),
            worklist ++ (cfg.getSuccsOf dst).map (Prod.mk dst))
          (Or.inl hlt) hedges' <| happrox.recompute (regular hP hcfg) hnode hstart hlub
            (fun m hm hne => by
              obtain ⟨e, he, rfl⟩ := htodo m hm hne
              exact ⟨e, List.mem_append_left _ he, rfl⟩)
            fun m hm => ⟨(dst, m), List.mem_append_right _ (List.mem_map.2 ⟨m, hm.2, rfl⟩), rfl⟩
        refine ⟨B, ⟨bound + 1, fun fuel hfuel => ?_⟩, hleast⟩
        obtain ⟨fuel, rfl⟩ : ∃ k, fuel = k + 1 := ⟨fuel - 1, by omega⟩
        simp only [loop]
        rw [if_neg heq, hB fuel (by omega)]

omit [DecidableEq N] [SemilatticeSup L] [OrderBot L] in
theorem predEquations_eq (hcfg : Consistent cfg node start) :
    predEquations cfg P node start = succEquations cfg P node start := by
  simp only [predEquations, succEquations, System.mk.injEq, true_and, and_true]
  funext p n
  refine propext ⟨fun h => (hcfg.preds p n h.1).1 h.2, fun h => ?_⟩
  have hn := hcfg.node_succ p n h.1 h.2
  exact ⟨hn, (hcfg.preds p n hn).2 h⟩

theorem Consistent.solvesMFP [Finite N] (hcfg : Consistent cfg node start) :
    SolvesMFP cfg node start := by
  intro L _ _ _ P hP hseeds
  have hbot : ∀ n, ¬start n → initialAnalysis P n = ⊥ := by
    intro n hn
    have hnone : P.initialSeeds n = none := by
      cases hcase : P.initialSeeds n with
      | none => rfl
      | some facts => exact absurd (hseeds n (by rw [hcase]; rfl)) hn
    rw [initialAnalysis, hnone, hP.allTop]
  have hinit : Approx (succEquations cfg P node start) (initialAnalysis P)
      fun n => ∃ e ∈ cfg.allControlFlowEdges, e.2 = n :=
    .init (fun _ _ => rfl) hbot fun p n hp => ⟨(p, n), (hcfg.edges p n).2 hp, rfl⟩
  obtain ⟨A, ⟨bound, hA⟩, hleast⟩ := exists_loop hP hcfg (initialAnalysis P, cfg.allControlFlowEdges)
    (fun e he => (hcfg.edges e.1 e.2).1 he) hinit
  refine ⟨A, ⟨bound, fun fuel hfuel => ?_⟩, predEquations_eq hcfg ▸ hleast, hleast⟩
  have hiter : iterate cfg P fuel = some A := hA fuel hfuel
  exact ⟨hiter, by rw [solve, hiter, Option.map_some]⟩

/-! ### Where the solver does not compute the solution -/

/-- The problem whose facts are the instructions just executed. -/
def lastInstruction (N : Type) [DecidableEq N] : IntraMonoProblem N (Finset N) where
  normalFlow n _ := {n}
  merge x y := x ∪ y
  equalTo x y := decide (x = y)
  allTop := ∅
  insert x y := x ∪ y
  initialSeeds _ := none

theorem lawful_lastInstruction (N : Type) [DecidableEq N] : (lastInstruction N).Lawful where
  normalFlow _ _ _ _ := le_rfl
  merge _ _ := rfl
  equalTo x y := by simp [lastInstruction]
  allTop := rfl

variable {M : Type} [DecidableEq M] {G : CFG M} {isNode isStart : M → Prop}

/-- Without branch targets, a value is that of the last edge. -/
theorem loop_lastInstruction {n : M} (hn : ∀ src, G.isBranchTarget src n = false) :
    ∀ {fuel : ℕ} {worklist : List (M × M)} {A A' : M → Finset M},
      loop G (lastInstruction M) fuel worklist A = some A' →
      (A n).card ≤ 1 → (A' n).card ≤ 1
  | _, [], A, A', h, hA => by
    rw [loop] at h
    exact Option.some.inj h ▸ hA
  | 0, _ :: _, _, _, h, _ => by
    rw [loop] at h
    cases h
  | fuel + 1, (src, dst) :: worklist, A, A', h, hA => by
    simp only [loop] at h
    split_ifs at h with heq
    · exact loop_lastInstruction hn h hA
    · refine loop_lastInstruction hn h ?_
      by_cases hdst : n = dst
      · subst hdst
        rw [Function.update_self, computeOut, hn src, if_neg Bool.false_ne_true]
        exact (Finset.card_singleton src).le
      · rwa [Function.update_of_ne hdst]

/-- If it computes the solution, the reported predecessors are along the reported successors, and a
node that is no branch target has at most one predecessor. -/
theorem SolvesMFP.agree [Finite M] (h : SolvesMFP G isNode isStart) {n p : M} (hn : isNode n)
    (hs : ¬isStart n) (hp : p ∈ G.getPredsOf n) :
    n ∈ G.getSuccsOf p ∧
      ((∀ src, G.isBranchTarget src n = false) → ∀ q ∈ G.getPredsOf n, q = p) := by
  obtain ⟨A, ⟨bound, hA⟩, hpreds, hsuccs⟩ :=
    h (Finset M) (lastInstruction M) (lawful_lastInstruction M) fun n hsome => by cases hsome
  have hmem : ∀ q ∈ G.getPredsOf n, q ∈ A n := fun q hq =>
    Finset.singleton_subset_iff.1 ((hpreds.1.merge n hn hs).1 ⟨q, ⟨hn, hq⟩, rfl⟩)
  constructor
  · by_contra hnot
    have hlub := hsuccs.1.merge n hn hs
    have hupper : (A n).erase p ∈
        upperBounds (Incoming (succEquations G (lastInstruction M) isNode isStart) A n) := by
      rintro x ⟨q, hq, rfl⟩
      have hqA := Finset.singleton_subset_iff.1 (hlub.1 ⟨q, hq, rfl⟩)
      have hne : q ≠ p := fun heq => hnot (heq ▸ hq.2)
      exact Finset.singleton_subset_iff.2 (Finset.mem_erase.2 ⟨hne, hqA⟩)
    exact (Finset.mem_erase.1 (hlub.2 hupper (hmem p hp))).1 rfl
  · intro htarget q hq
    have hcard := loop_lastInstruction htarget (hA bound le_rfl).1 (by simp [initialAnalysis,
      lastInstruction])
    exact Finset.card_le_one.1 hcard q (hmem q hq) p (hmem p hp)

end IntraMonoSolver

/-! ### The control-flow graphs of functions -/

namespace LLVMFunction

open IntraMonoSolver

variable {F : LLVMFunction} {ignoreDbg : Bool}

/-- No successor is left out, and a block that starts with a skipped debug instruction has a single
predecessor. -/
structure Aligned (F : LLVMFunction) (ignoreDbg : Bool) : Prop where
  complete : ∀ b, F.isLazyInitBranch b = true → ∀ s ∈ F.successors b,
    (F.successors b).head? = some s
  joins : ignoreDbg = true → ∀ b, F.isDbgInst (F.front b) = true → ∀ p q, b ∈ F.successors p →
    b ∈ F.successors q → p = q

theorem Aligned.mem_targets (h : F.Aligned ignoreDbg) {b s : Fin F.numBlocks} :
    s ∈ F.targets b ↔ s ∈ F.successors b := by
  rw [targets]
  split_ifs with hlazy
  · refine ⟨List.mem_of_mem_take, fun hs => ?_⟩
    obtain ⟨rest, hrest⟩ := List.head?_eq_some_iff.1 (h.complete b hlazy s hs)
    rw [hrest]
    exact List.mem_cons_self
  · rfl

theorem Follows.unique {p q n : F.Inst} (hp : F.Follows ignoreDbg p n)
    (hq : F.Follows ignoreDbg q n) : q = p := by
  have hn : F.IsNode ignoreDbg n := by
    obtain ⟨b, i, j, -, rfl, -, -, hj, -⟩ := hp
    exact hj
  exact Option.some.inj (((getPrevNode_eq_some_iff hn).2 hq).symm.trans
    ((getPrevNode_eq_some_iff hn).2 hp))

theorem Aligned.consistent (h : F.Aligned ignoreDbg) :
    Consistent (F.cfg ignoreDbg) (F.IsNode ignoreDbg) (· ∈ F.getStartPointsOf ignoreDbg) where
  edges p n := mem_getAllControlFlowEdges
  node_succ p n := isNode_of_mem_getSuccsOf
  preds p n hn := by
    show p ∈ F.getPredsOf ignoreDbg n ↔ F.IsNode ignoreDbg p ∧ n ∈ F.getSuccsOf ignoreDbg p
    rw [mem_getPredsOf hn]
    constructor
    · rintro (hfollows | ⟨hentered, b, hb, rfl⟩)
      · have hp : F.IsNode ignoreDbg p := by
          obtain ⟨b, i, j, rfl, -, -, hi, -⟩ := hfollows
          exact hi
        exact ⟨hp, (mem_getSuccsOf hp).2 (Or.inl hfollows)⟩
      · exact ⟨isNode_terminator _ b, (mem_getSuccsOf (isNode_terminator _ b)).2
          (Or.inr ⟨rfl, n.1, h.mem_targets.2 hb, hentered⟩)⟩
    · rintro ⟨hp, hn⟩
      rcases (mem_getSuccsOf hp).1 hn with hfollows | ⟨hterm, s, hs, rfl⟩
      · exact Or.inl hfollows
      · rw [entered_fst]
        exact Or.inr ⟨rfl, p.1, h.mem_targets.1 hs, hterm.symm⟩
  start p n hp hn hstart := by
    obtain ⟨b, hb, rfl⟩ := mem_getStartPointsOf.1 hstart
    rcases (mem_getSuccsOf hp).1 hn with hfollows | ⟨-, s, hs, heq⟩
    · exact not_follows_entered hfollows
    · obtain rfl := entered_injective heq
      exact F.entry_not_successor _ _ (h.mem_targets.1 hs) hb
  branchTarget p n hp hn := by
    have hnode := isNode_of_mem_getSuccsOf hp hn
    rcases (mem_getSuccsOf hp).1 hn with hfollows | ⟨hterm, s, hs, rfl⟩
    · refine Or.inr fun q hq => ?_
      rcases (mem_getPredsOf hnode).1 hq with hfollows' | ⟨hentered, -⟩
      · exact hfollows.unique hfollows'
      · exact absurd (hentered ▸ hfollows) not_follows_entered
    · have hsucc := h.mem_targets.1 hs
      by_cases hdbg : (ignoreDbg && F.isDbgInst (F.front s)) = true
      · obtain ⟨hignore, hdbg⟩ := Bool.and_eq_true_iff.1 hdbg
        refine Or.inr fun q hq => ?_
        rcases (mem_getPredsOf hnode).1 hq with hfollows | ⟨-, b, hb, rfl⟩
        · exact absurd hfollows not_follows_entered
        · rw [entered_fst] at hb
          rw [h.joins hignore s hdbg b p.1 hb hsucc, ← hterm]
      · refine Or.inl (isBranchTarget_iff.2 ⟨hterm, s, hsucc, ?_⟩)
        rw [entered, if_neg hdbg]

/-- The start point is where the entry block is entered. -/
theorem not_start_of_successor {b s : Fin F.numBlocks} (hs : s ∈ F.successors b) :
    F.entered ignoreDbg s ∉ F.getStartPointsOf ignoreDbg := by
  intro hstart
  obtain ⟨c, hc, heq⟩ := mem_getStartPointsOf.1 hstart
  exact F.entry_not_successor b s hs (entered_injective heq ▸ hc)

theorem terminator_mem_getPredsOf {b s : Fin F.numBlocks} (hs : s ∈ F.successors b) :
    F.terminator b ∈ F.getPredsOf ignoreDbg (F.entered ignoreDbg s) := by
  refine (mem_getPredsOf (isNode_entered _ s)).2 (Or.inr ⟨?_, b, ?_, rfl⟩)
  · rw [entered_fst]
  · rwa [entered_fst]

/-- For which functions the solver computes the least solution for every problem. -/
theorem solvesMFP_iff (F : LLVMFunction) (ignoreDbg : Bool) :
    SolvesMFP (F.cfg ignoreDbg) (F.IsNode ignoreDbg) (· ∈ F.getStartPointsOf ignoreDbg) ↔
      F.Aligned ignoreDbg := by
  refine ⟨fun h => ⟨fun b hlazy s hs => ?_, fun hignore b hdbg p q hp hq => ?_⟩,
    fun h => h.consistent.solvesMFP⟩
  · -- the successor that is left out still reports the branch as its predecessor
    have hmem := (h.agree (isNode_entered _ s) (not_start_of_successor hs)
      (terminator_mem_getPredsOf hs)).1
    rcases (mem_getSuccsOf (isNode_terminator _ b)).1 hmem with hfollows | ⟨-, t, ht, heq⟩
    · exact absurd hfollows not_follows_entered
    · obtain rfl := entered_injective heq
      have htake : t ∈ (F.successors b).take 1 := by
        have htargets : F.targets b = (F.successors b).take 1 := if_pos hlazy
        exact htargets ▸ ht
      cases hsuccs : F.successors b with
      | nil =>
        rw [hsuccs] at hs
        exact absurd hs List.not_mem_nil
      | cons c rest =>
        rw [hsuccs] at htake
        rw [List.mem_singleton.1 htake, List.head?_cons]
  · -- where the block is entered is not its front, so that no edge is a branch
    have htarget : ∀ src, F.isBranchTarget src (F.entered ignoreDbg b) = false := by
      intro src
      refine Bool.eq_false_iff.2 fun hbranch => ?_
      obtain ⟨-, s, -, heq⟩ := isBranchTarget_iff.1 hbranch
      have hnode := isNode_entered ignoreDbg b
      obtain rfl : s = b := by
        have := congrArg Sigma.fst heq
        rwa [entered_fst] at this
      rw [← heq, IsNode, hignore, Bool.true_and, hdbg] at hnode
      cases hnode
    have hunique := (h.agree (isNode_entered _ b) (not_start_of_successor hq)
      (terminator_mem_getPredsOf hq)).2 htarget _ (terminator_mem_getPredsOf hp)
    exact congrArg Sigma.fst hunique

/-- The successors of a branch to two blocks that both continue with a third one. -/
def diamondSuccessors (b : Fin 4) : List (Fin 4) :=
  (List.finRange 4).filter fun s => [(0, 1), (0, 2), (1, 3), (2, 3)].contains (b.val, s.val)

theorem diamondSuccessors_ne_entry : ∀ b, ∀ s ∈ diamondSuccessors b, s.val ≠ 0 := by
  decide

/-- The block in which the branches join starts with a debug instruction. -/
def dbgDiamond : LLVMFunction where
  numBlocks := 4
  dbgInstructions b := if b.val = 3 then [true] else []
  successors := diamondSuccessors
  isLazyInitBranch _ := false
  entry_not_successor := diamondSuccessors_ne_entry

theorem not_solvesMFP_dbgDiamond : ¬SolvesMFP (dbgDiamond.cfg true) (dbgDiamond.IsNode true)
    (· ∈ dbgDiamond.getStartPointsOf true) := by
  intro h
  let join : dbgDiamond.Inst := dbgDiamond.terminator (3 : Fin 4)
  let left : dbgDiamond.Inst := dbgDiamond.terminator (1 : Fin 4)
  let right : dbgDiamond.Inst := dbgDiamond.terminator (2 : Fin 4)
  have hpreds : left ∈ (dbgDiamond.cfg true).getPredsOf join ∧
      right ∈ (dbgDiamond.cfg true).getPredsOf join := by decide
  have hstart : join ∉ dbgDiamond.getStartPointsOf true := by decide
  have htarget : ∀ src, (dbgDiamond.cfg true).isBranchTarget src join = false := by decide
  have hne : right ≠ left := by decide
  exact hne ((h.agree (isNode_terminator true _) hstart hpreds.1).2 htarget right hpreds.2)

end LLVMFunction

end Phasar
