import Mathlib.Data.Fintype.Sigma
import Mathlib.Data.List.FinRange
import Mathlib.Logic.Equiv.Fin.Basic

/-!
# The control-flow graph of a function

What `LLVMBasedCFG` reports of a function: predecessors, successors, branch targets and all edges.
Instructions are positions in basic blocks. Debug instructions can be skipped, and at a branch that
guards the initialization of a static variable the case of an initialized variable is left out of the
successors.

* `LLVMFunction`: blocks, with their debug instructions and the successors of their terminators;
* `getPredsOf`, `getSuccsOf`, `isBranchTarget`, `getAllControlFlowEdges`, `getStartPointsOf`;
* `mem_getPredsOf`, `mem_getSuccsOf`: when predecessors and successors disagree;
* `succs_preds_agree_iff`: when all of them describe one graph.
-/

namespace Phasar

/-- A function: which instructions before the terminator of a block are debug instructions, the
successors of the terminator, and whether it is a branch on the guard of a static variable. The entry
block, the first one, has no predecessors. -/
structure LLVMFunction where
  numBlocks : ℕ
  dbgInstructions : Fin numBlocks → List Bool
  successors : Fin numBlocks → List (Fin numBlocks)
  isLazyInitBranch : Fin numBlocks → Bool
  entry_not_successor : ∀ b, ∀ s ∈ successors b, s.val ≠ 0

namespace LLVMFunction

variable (F : LLVMFunction)

/-- A block with a position in it; the last position is that of the terminator. -/
abbrev Inst := (b : Fin F.numBlocks) × Fin ((F.dbgInstructions b).length + 1)

def isDbgInst (i : F.Inst) : Bool := (F.dbgInstructions i.1).getD i.2.val false

def front (b : Fin F.numBlocks) : F.Inst := ⟨b, ⟨0, Nat.succ_pos _⟩⟩

def terminator (b : Fin F.numBlocks) : F.Inst := ⟨b, Fin.last _⟩

variable (ignoreDbg : Bool)

/-- `getPrevNode`, or `getPrevNonDebugInstruction` when debug instructions are skipped. -/
def getPrevNode (i : F.Inst) : Option F.Inst :=
  (Fin.findRev? fun j => decide (j < i.2) && !(ignoreDbg && F.isDbgInst ⟨i.1, j⟩)).map (Sigma.mk i.1)

/-- `getNextNode`, or `getNextNonDebugInstruction` when debug instructions are skipped. -/
def getNextNode (i : F.Inst) : Option F.Inst :=
  (Fin.find? fun j => decide (i.2 < j) && !(ignoreDbg && F.isDbgInst ⟨i.1, j⟩)).map (Sigma.mk i.1)

/-- The predecessors of a block, one for each edge. -/
def predecessors (b : Fin F.numBlocks) : List (Fin F.numBlocks) :=
  (List.finRange F.numBlocks).flatMap fun p =>
    ((F.successors p).filter fun s => decide (s = b)).map fun _ => p

def getPredsOf (i : F.Inst) : List F.Inst :=
  match F.getPrevNode ignoreDbg i with
  | some prev => [prev]
  | none => (F.predecessors i.1).map F.terminator

/-- Where a block is entered. -/
def entered (b : Fin F.numBlocks) : F.Inst :=
  if ignoreDbg && F.isDbgInst (F.front b) then
    (F.getNextNode true (F.front b)).getD (F.front b)
  else F.front b

def getSuccsOf (i : F.Inst) : List F.Inst :=
  match F.getNextNode ignoreDbg i with
  | some next => [next]
  | none =>
    -- skip the case that the variable is already initialized
    if F.isLazyInitBranch i.1 then ((F.successors i.1).take 1).map (F.entered ignoreDbg)
    else (F.successors i.1).map (F.entered ignoreDbg)

def isBranchTarget (inst succ : F.Inst) : Bool :=
  decide (inst = F.terminator inst.1) &&
    -- the front itself, also where the other queries skip it
    (F.successors inst.1).any fun b => decide (F.front b = succ)

def getAllInstructions : List F.Inst :=
  (List.finRange F.numBlocks).flatMap fun b => (List.finRange _).map (Sigma.mk b)

def getAllControlFlowEdges : List (F.Inst × F.Inst) :=
  F.getAllInstructions.flatMap fun i =>
    if ignoreDbg && F.isDbgInst i then [] else (F.getSuccsOf ignoreDbg i).map (Prod.mk i)

def getStartPointsOf : List F.Inst :=
  ((List.finRange F.numBlocks).filter fun b => decide (b.val = 0)).map (F.entered ignoreDbg)

/-- The instructions that are not skipped. -/
def IsNode (i : F.Inst) : Prop := (ignoreDbg && F.isDbgInst i) = false

variable {F ignoreDbg}

theorem isNode_terminator (ignoreDbg : Bool) (b : Fin F.numBlocks) : F.IsNode ignoreDbg (F.terminator b) := by
  simp [IsNode, isDbgInst, terminator]

/-! ### Inside a block -/

theorem getNextNode_eq_some {b : Fin F.numBlocks} {i : Fin ((F.dbgInstructions b).length + 1)}
    {n : F.Inst} : F.getNextNode ignoreDbg ⟨b, i⟩ = some n ↔ ∃ j, n = ⟨b, j⟩ ∧ i < j ∧
      F.IsNode ignoreDbg ⟨b, j⟩ ∧ ∀ k, i < k → k < j → ¬F.IsNode ignoreDbg ⟨b, k⟩ := by
  simp only [getNextNode, Option.map_eq_some_iff, Fin.find?_eq_some_iff, IsNode]
  constructor
  · rintro ⟨j, ⟨hj, hmin⟩, rfl⟩
    simp only [Bool.and_eq_true, decide_eq_true_eq, Bool.not_eq_true'] at hj
    refine ⟨j, rfl, hj.1, hj.2, fun k hik hkj hk => ?_⟩
    simpa [hik, hk] using hmin k hkj
  · rintro ⟨j, rfl, hij, hj, hmin⟩
    refine ⟨j, ⟨by simp [hij, hj], fun k hkj => ?_⟩, rfl⟩
    by_cases hik : i < k
    · simpa [hik] using hmin k hik hkj
    · simp [hik]

theorem getNextNode_eq_none {b : Fin F.numBlocks} {i : Fin ((F.dbgInstructions b).length + 1)} :
    F.getNextNode ignoreDbg ⟨b, i⟩ = none ↔ (⟨b, i⟩ : F.Inst) = F.terminator b := by
  simp only [getNextNode, Option.map_eq_none_iff, Fin.find?_eq_none_iff]
  constructor
  · intro h
    by_contra hne
    have hlt : i < Fin.last _ := Fin.lt_last_iff_ne_last.2 fun heq => hne (by rw [heq]; rfl)
    have hlast := isNode_terminator ignoreDbg b
    have := h (Fin.last _)
    simp only [hlt, decide_true, Bool.true_and, Bool.not_eq_false'] at this
    exact Bool.false_ne_true (hlast.symm.trans this)
  · intro h k
    obtain rfl : i = Fin.last _ := by simpa [terminator] using h
    simp [Fin.le_last]

theorem getPrevNode_eq_some {b : Fin F.numBlocks} {j : Fin ((F.dbgInstructions b).length + 1)}
    {p : F.Inst} : F.getPrevNode ignoreDbg ⟨b, j⟩ = some p ↔ ∃ i, p = ⟨b, i⟩ ∧ i < j ∧
      F.IsNode ignoreDbg ⟨b, i⟩ ∧ ∀ k, i < k → k < j → ¬F.IsNode ignoreDbg ⟨b, k⟩ := by
  simp only [getPrevNode, Option.map_eq_some_iff, Fin.findRev?_eq_some_iff, IsNode]
  constructor
  · rintro ⟨i, ⟨hi, hmax⟩, rfl⟩
    simp only [Bool.and_eq_true, decide_eq_true_eq, Bool.not_eq_true'] at hi
    refine ⟨i, rfl, hi.1, hi.2, fun k hik hkj hk => ?_⟩
    simpa [hkj, hk] using hmax k hik
  · rintro ⟨i, rfl, hij, hi, hmax⟩
    refine ⟨i, ⟨by simp [hij, hi], fun k hik => ?_⟩, rfl⟩
    by_cases hkj : k < j
    · simpa [hkj] using hmax k hik hkj
    · simp [hkj]

theorem getPrevNode_eq_none {b : Fin F.numBlocks} {j : Fin ((F.dbgInstructions b).length + 1)} :
    F.getPrevNode ignoreDbg ⟨b, j⟩ = none ↔ ∀ k < j, ¬F.IsNode ignoreDbg ⟨b, k⟩ := by
  simp only [getPrevNode, Option.map_eq_none_iff, Fin.findRev?_eq_none_iff, IsNode]
  refine forall_congr' fun k => ?_
  by_cases hkj : k < j <;> simp [hkj]

variable (F ignoreDbg) in
/-- `n` is the next instruction after `p` in their block. -/
def Follows (p n : F.Inst) : Prop := ∃ b i j, p = ⟨b, i⟩ ∧ n = ⟨b, j⟩ ∧ i < j ∧
  F.IsNode ignoreDbg ⟨b, i⟩ ∧ F.IsNode ignoreDbg ⟨b, j⟩ ∧
  ∀ k, i < k → k < j → ¬F.IsNode ignoreDbg ⟨b, k⟩

theorem getNextNode_eq_some_iff {p n : F.Inst} (hp : F.IsNode ignoreDbg p) :
    F.getNextNode ignoreDbg p = some n ↔ F.Follows ignoreDbg p n := by
  obtain ⟨b, i⟩ := p
  rw [getNextNode_eq_some]
  constructor
  · rintro ⟨j, rfl, hij, hj, hk⟩
    exact ⟨b, i, j, rfl, rfl, hij, hp, hj, hk⟩
  · rintro ⟨_, _, j, heq, rfl, hij, -, hj, hk⟩
    cases heq
    exact ⟨j, rfl, hij, hj, hk⟩

theorem getPrevNode_eq_some_iff {p n : F.Inst} (hn : F.IsNode ignoreDbg n) :
    F.getPrevNode ignoreDbg n = some p ↔ F.Follows ignoreDbg p n := by
  obtain ⟨b, j⟩ := n
  rw [getPrevNode_eq_some]
  constructor
  · rintro ⟨i, rfl, hij, hi, hk⟩
    exact ⟨b, i, j, rfl, rfl, hij, hi, hn, hk⟩
  · rintro ⟨_, i, _, rfl, heq, hij, hi, -, hk⟩
    cases heq
    exact ⟨i, rfl, hij, hi, hk⟩

/-- A block is entered at its first instruction. -/
theorem entered_spec (ignoreDbg : Bool) (b : Fin F.numBlocks) : ∃ j, F.entered ignoreDbg b = ⟨b, j⟩ ∧
    F.IsNode ignoreDbg ⟨b, j⟩ ∧ ∀ k < j, ¬F.IsNode ignoreDbg ⟨b, k⟩ := by
  rw [entered]
  split_ifs with hdbg
  · obtain ⟨rfl, hfront⟩ := Bool.and_eq_true_iff.1 hdbg
    cases hnext : F.getNextNode true (F.front b) with
    | none =>
      -- the terminator is no debug instruction
      have hterm := isNode_terminator true b
      rw [← getNextNode_eq_none.1 hnext, IsNode] at hterm
      exact absurd (hterm.symm.trans hfront) Bool.false_ne_true
    | some n =>
      obtain ⟨j, rfl, -, hj, hk⟩ := getNextNode_eq_some.1 hnext
      refine ⟨j, rfl, hj, fun k hkj hk' => ?_⟩
      rcases Fin.eq_or_lt_of_le (Fin.zero_le k) with rfl | hpos
      · rw [IsNode, Bool.true_and] at hk'
        exact Bool.false_ne_true (hk'.symm.trans hfront)
      · exact hk k hpos hkj hk'
  · exact ⟨_, rfl, by simpa [IsNode, front] using hdbg, fun k hk => absurd hk (Fin.not_lt_zero k)⟩

theorem isNode_entered (ignoreDbg : Bool) (b : Fin F.numBlocks) : F.IsNode ignoreDbg (F.entered ignoreDbg b) := by
  obtain ⟨j, heq, hj, -⟩ := entered_spec ignoreDbg b
  rwa [heq]

theorem entered_fst (b : Fin F.numBlocks) : (F.entered ignoreDbg b).1 = b := by
  obtain ⟨j, heq, -⟩ := entered_spec ignoreDbg b
  rw [heq]

theorem entered_injective {b c : Fin F.numBlocks}
    (h : F.entered ignoreDbg b = F.entered ignoreDbg c) : b = c := by
  have hfst := congrArg Sigma.fst h
  rwa [entered_fst, entered_fst] at hfst

/-- An instruction without predecessor in its block is where the block is entered. -/
theorem getPrevNode_eq_none_iff {n : F.Inst} (hn : F.IsNode ignoreDbg n) :
    F.getPrevNode ignoreDbg n = none ↔ F.entered ignoreDbg n.1 = n := by
  obtain ⟨b, j⟩ := n
  obtain ⟨i, heq, hi, hk⟩ := entered_spec ignoreDbg b
  rw [getPrevNode_eq_none]
  constructor
  · intro hnone
    rw [heq]
    rcases lt_trichotomy i j with hlt | rfl | hgt
    · exact absurd hi (hnone i hlt)
    · rfl
    · exact absurd hn (hk j hgt)
  · intro hentered
    obtain rfl : i = j := by simpa using heq.symm.trans hentered
    exact hk

theorem not_follows_entered {p : F.Inst} {b : Fin F.numBlocks} :
    ¬F.Follows ignoreDbg p (F.entered ignoreDbg b) := by
  intro h
  have hnode := isNode_entered ignoreDbg b
  have hsome := (getPrevNode_eq_some_iff hnode).2 h
  have hnone := (getPrevNode_eq_none_iff hnode).2 (by
    obtain ⟨j, heq, -⟩ := entered_spec ignoreDbg b
    rw [heq]
    exact heq)
  rw [hnone] at hsome
  cases hsome

/-! ### Predecessors and successors -/

variable (F) in
/-- The successors of the terminator of a block that are not left out. -/
def targets (b : Fin F.numBlocks) : List (Fin F.numBlocks) :=
  if F.isLazyInitBranch b then (F.successors b).take 1 else F.successors b

theorem mem_predecessors {b p : Fin F.numBlocks} : p ∈ F.predecessors b ↔ b ∈ F.successors p := by
  simp [predecessors]

theorem mem_getSuccsOf {p n : F.Inst} (hp : F.IsNode ignoreDbg p) :
    n ∈ F.getSuccsOf ignoreDbg p ↔ F.Follows ignoreDbg p n ∨
      p = F.terminator p.1 ∧ ∃ s ∈ F.targets p.1, F.entered ignoreDbg s = n := by
  have hnext := getNextNode_eq_some_iff (n := n) hp
  have hnone : F.getNextNode ignoreDbg p = none ↔ p = F.terminator p.1 := getNextNode_eq_none
  cases hcase : F.getNextNode ignoreDbg p with
  | some next =>
    have hterm : p ≠ F.terminator p.1 := fun heq => by
      rw [hnone.2 heq] at hcase
      cases hcase
    simp only [getSuccsOf, hcase, List.mem_singleton, ← hnext, Option.some.injEq, hterm, false_and,
      or_false]
    exact eq_comm
  | none =>
    have hterm : p = F.terminator p.1 := hnone.1 hcase
    have hsuccs : F.getSuccsOf ignoreDbg p = (F.targets p.1).map (F.entered ignoreDbg) := by
      simp only [getSuccsOf, hcase, targets]
      split_ifs <;> rfl
    rw [hsuccs, ← hnext, hcase, List.mem_map]
    simp [← hterm]

theorem mem_getPredsOf {p n : F.Inst} (hn : F.IsNode ignoreDbg n) :
    p ∈ F.getPredsOf ignoreDbg n ↔ F.Follows ignoreDbg p n ∨
      F.entered ignoreDbg n.1 = n ∧ ∃ b, n.1 ∈ F.successors b ∧ F.terminator b = p := by
  have hprev := getPrevNode_eq_some_iff (p := p) hn
  have hnone := getPrevNode_eq_none_iff hn
  cases hcase : F.getPrevNode ignoreDbg n with
  | some prev =>
    have hentered : F.entered ignoreDbg n.1 ≠ n := fun heq => by
      rw [hnone.2 heq] at hcase
      cases hcase
    simp only [getPredsOf, hcase, List.mem_singleton, ← hprev, Option.some.injEq, hentered,
      false_and, or_false]
    exact eq_comm
  | none =>
    simp only [getPredsOf, hcase, ← hprev, List.mem_map, mem_predecessors, hnone.1 hcase]
    simp

theorem mem_getAllControlFlowEdges {p n : F.Inst} :
    (p, n) ∈ F.getAllControlFlowEdges ignoreDbg ↔
      F.IsNode ignoreDbg p ∧ n ∈ F.getSuccsOf ignoreDbg p := by
  have hall : p ∈ F.getAllInstructions := by
    simp only [getAllInstructions, List.mem_flatMap, List.mem_finRange, List.mem_map, true_and]
    exact ⟨p.1, p.2, rfl⟩
  simp only [getAllControlFlowEdges, List.mem_flatMap, IsNode]
  constructor
  · rintro ⟨i, -, hi⟩
    split_ifs at hi with hdbg
    · exact absurd hi List.not_mem_nil
    · obtain ⟨m, hm, heq⟩ := List.mem_map.1 hi
      obtain ⟨rfl, rfl⟩ := Prod.mk.inj heq
      exact ⟨Bool.not_eq_true _ ▸ hdbg, hm⟩
  · rintro ⟨hp, hn⟩
    refine ⟨p, hall, ?_⟩
    rw [hp, if_neg Bool.false_ne_true]
    exact List.mem_map.2 ⟨n, hn, rfl⟩

theorem mem_getStartPointsOf {n : F.Inst} : n ∈ F.getStartPointsOf ignoreDbg ↔
    ∃ b : Fin F.numBlocks, b.val = 0 ∧ F.entered ignoreDbg b = n := by
  simp [getStartPointsOf]

theorem isBranchTarget_iff {p n : F.Inst} : F.isBranchTarget p n = true ↔
    p = F.terminator p.1 ∧ ∃ s ∈ F.successors p.1, F.front s = n := by
  simp [isBranchTarget]

theorem isNode_of_mem_getSuccsOf {p n : F.Inst} (hp : F.IsNode ignoreDbg p)
    (hn : n ∈ F.getSuccsOf ignoreDbg p) : F.IsNode ignoreDbg n := by
  rcases (mem_getSuccsOf hp).1 hn with ⟨b, i, j, -, rfl, -, -, hj, -⟩ | ⟨-, s, -, rfl⟩
  · exact hj
  · exact isNode_entered ignoreDbg s

theorem not_follows_terminator {n : F.Inst} {b : Fin F.numBlocks} :
    ¬F.Follows ignoreDbg (F.terminator b) n := by
  rintro ⟨b', i, j, hterm, -, hij, -⟩
  obtain rfl : b = b' := congrArg Sigma.fst hterm
  obtain rfl : Fin.last _ = i := eq_of_heq (Sigma.mk.inj hterm).2
  exact absurd hij (not_lt_of_ge (Fin.le_last j))

/-! ### One graph -/

variable (F ignoreDbg) in
/-- Successors, predecessors, edges and branch targets describe one graph. -/
structure SuccsPredsAgree : Prop where
  mem_preds : ∀ i j, F.IsNode ignoreDbg i → F.IsNode ignoreDbg j →
    (j ∈ F.getSuccsOf ignoreDbg i ↔ i ∈ F.getPredsOf ignoreDbg j)
  mem_edges : ∀ i j, (i, j) ∈ F.getAllControlFlowEdges ignoreDbg ↔
    F.IsNode ignoreDbg i ∧ F.IsNode ignoreDbg j ∧ j ∈ F.getSuccsOf ignoreDbg i
  branchTarget : ∀ i j, F.IsNode ignoreDbg i → F.IsNode ignoreDbg j →
    (F.isBranchTarget i j = true ↔ j ∈ F.getSuccsOf ignoreDbg i ∧ i = F.terminator i.1)

theorem mem_getSuccsOf_terminator {b : Fin F.numBlocks} {n : F.Inst} :
    n ∈ F.getSuccsOf ignoreDbg (F.terminator b) ↔ ∃ s ∈ F.targets b, F.entered ignoreDbg s = n := by
  rw [mem_getSuccsOf (isNode_terminator ignoreDbg b), or_iff_right not_follows_terminator]
  exact and_iff_right rfl

theorem terminator_mem_getPredsOf_entered (ignoreDbg : Bool) {b s : Fin F.numBlocks} :
    F.terminator b ∈ F.getPredsOf ignoreDbg (F.entered ignoreDbg s) ↔ s ∈ F.successors b := by
  rw [mem_getPredsOf (isNode_entered ignoreDbg s), or_iff_right not_follows_entered, entered_fst]
  constructor
  · rintro ⟨-, b', hb', hterm⟩
    obtain rfl : b' = b := congrArg Sigma.fst hterm
    exact hb'
  · exact fun hs => ⟨rfl, b, hs, rfl⟩

/-- No guarded branch leaves out a successor. -/
theorem mem_targets_iff : (∀ b s, s ∈ F.targets b ↔ s ∈ F.successors b) ↔
    ∀ b, F.isLazyInitBranch b = true → ∀ s ∈ F.successors b, s ∈ (F.successors b).take 1 := by
  refine forall_congr' fun b => ?_
  by_cases hlazy : F.isLazyInitBranch b = true
  · have htake : ∀ s, s ∈ F.targets b ↔ s ∈ (F.successors b).take 1 := fun s => by rw [targets, if_pos hlazy]
    simp only [htake, hlazy, true_imp_iff]
    exact forall_congr' fun s => ⟨fun h => h.2, fun h => ⟨List.mem_of_mem_take, h⟩⟩
  · have hall : ∀ s, s ∈ F.targets b ↔ s ∈ F.successors b := fun s => by rw [targets, if_neg hlazy]
    exact iff_of_true hall fun h => absurd h hlazy

theorem entered_eq_front {b : Fin F.numBlocks} (h : F.IsNode ignoreDbg (F.front b)) :
    F.entered ignoreDbg b = F.front b := by
  rw [IsNode] at h
  rw [entered, h, if_neg Bool.false_ne_true]

variable (F ignoreDbg) in
/-- Predecessors and successors are inverse just when no successor is left out. -/
theorem mem_getSuccsOf_iff_mem_getPredsOf : (∀ i j, F.IsNode ignoreDbg i → F.IsNode ignoreDbg j →
    (j ∈ F.getSuccsOf ignoreDbg i ↔ i ∈ F.getPredsOf ignoreDbg j)) ↔
      ∀ b s, s ∈ F.targets b ↔ s ∈ F.successors b := by
  constructor
  · intro h b s
    rw [← terminator_mem_getPredsOf_entered ignoreDbg,
      ← h _ _ (isNode_terminator ignoreDbg b) (isNode_entered ignoreDbg s), mem_getSuccsOf_terminator]
    constructor
    · exact fun hs => ⟨s, hs, rfl⟩
    · rintro ⟨s', hs', heq⟩
      rwa [← entered_injective heq]
  · intro hsame i j hi hj
    rw [mem_getSuccsOf hi, mem_getPredsOf hj]
    refine or_congr_right ⟨?_, ?_⟩
    · rintro ⟨hterm, s, hs, rfl⟩
      rw [entered_fst]
      exact ⟨rfl, i.1, (hsame i.1 s).1 hs, hterm.symm⟩
    · rintro ⟨hj', b, hb, rfl⟩
      exact ⟨rfl, j.1, (hsame b j.1).2 hb, hj'⟩

theorem SuccsPredsAgree.mem_targets (h : F.SuccsPredsAgree ignoreDbg) (b s : Fin F.numBlocks) :
    s ∈ F.targets b ↔ s ∈ F.successors b :=
  (mem_getSuccsOf_iff_mem_getPredsOf F ignoreDbg).1 h.mem_preds b s

theorem SuccsPredsAgree.isNode_front (h : F.SuccsPredsAgree ignoreDbg) {b s : Fin F.numBlocks}
    (hs : s ∈ F.successors b) : F.IsNode ignoreDbg (F.front s) := by
  have hsucc : F.entered ignoreDbg s ∈ F.getSuccsOf ignoreDbg (F.terminator b) :=
    mem_getSuccsOf_terminator.2 ⟨s, (h.mem_targets b s).2 hs, rfl⟩
  have htarget := (h.branchTarget _ _ (isNode_terminator ignoreDbg b) (isNode_entered ignoreDbg s)).2
    ⟨hsucc, rfl⟩
  obtain ⟨-, s', -, hfront⟩ := isBranchTarget_iff.1 htarget
  have hnode := isNode_entered ignoreDbg s
  obtain rfl : s' = s := by
    have hfst := congrArg Sigma.fst hfront
    rwa [entered_fst] at hfst
  rwa [← hfront] at hnode

/-- They do just when no guarded branch leaves out a successor, and no branch leads to a debug instruction
that is skipped. -/
theorem succs_preds_agree_iff : F.SuccsPredsAgree ignoreDbg ↔
    (∀ b, F.isLazyInitBranch b = true → ∀ s ∈ F.successors b, s ∈ (F.successors b).take 1) ∧
      ∀ b, ∀ s ∈ F.successors b, F.IsNode ignoreDbg (F.front s) := by
  rw [← mem_targets_iff]
  refine ⟨fun h => ⟨h.mem_targets, fun b s => h.isNode_front⟩, ?_⟩
  rintro ⟨hsame, hfront⟩
  refine ⟨(mem_getSuccsOf_iff_mem_getPredsOf F ignoreDbg).2 hsame, fun i j => ?_, fun i j hi hj => ?_⟩
  · rw [mem_getAllControlFlowEdges]
    exact and_congr_right fun hi => (and_iff_right_of_imp (isNode_of_mem_getSuccsOf hi)).symm
  · rw [isBranchTarget_iff]
    constructor
    · rintro ⟨hterm, s, hs, rfl⟩
      refine ⟨?_, hterm⟩
      rw [hterm, mem_getSuccsOf_terminator]
      exact ⟨s, (hsame i.1 s).2 hs, entered_eq_front (hfront i.1 s hs)⟩
    · rintro ⟨hsucc, hterm⟩
      rw [hterm, mem_getSuccsOf_terminator] at hsucc
      obtain ⟨s, hs, rfl⟩ := hsucc
      have hs' := (hsame i.1 s).1 hs
      exact ⟨hterm, s, hs', (entered_eq_front (hfront i.1 s hs')).symm⟩

/-- A branch to a block that starts with a debug instruction. -/
def dbgTarget : LLVMFunction where
  numBlocks := 2
  dbgInstructions b := if b.val = 1 then [true] else []
  successors b := if h : b.val = 0 then [⟨1, by decide⟩] else []
  isLazyInitBranch _ := false
  entry_not_successor := by decide

/-- A branch on the guard of a static variable: to its initialization, or around it. -/
def guarded : LLVMFunction where
  numBlocks := 3
  dbgInstructions _ := []
  successors b :=
    if b.val = 0 then [⟨1, by decide⟩, ⟨2, by decide⟩]
    else if b.val = 1 then [⟨2, by decide⟩]
    else []
  isLazyInitBranch b := b.val = 0
  entry_not_successor := by decide

/-- The successor that is left out has the branch as a predecessor, and an edge to a block that starts with
a debug instruction is no branch. -/
theorem not_succsPredsAgree_guarded :
    (∀ ignoreDbg, ¬guarded.SuccsPredsAgree ignoreDbg) ∧ ¬dbgTarget.SuccsPredsAgree true := by
  constructor
  · intro ignoreDbg h
    have hmem : ⟨2, by decide⟩ ∈ guarded.successors ⟨0, by decide⟩ := .tail _ (.head _)
    have hpred := (terminator_mem_getPredsOf_entered ignoreDbg).2 hmem
    have hsucc := (h.mem_preds _ _ (isNode_terminator ignoreDbg _) (isNode_entered ignoreDbg _)).2 hpred
    obtain ⟨s, hs, heq⟩ := mem_getSuccsOf_terminator.1 hsucc
    rw [entered_injective heq] at hs
    have heq := congrArg Fin.val (List.mem_singleton.1 hs)
    exact absurd heq (by decide)
  · intro h
    have hsucc : dbgTarget.terminator ⟨1, by decide⟩ ∈
        dbgTarget.getSuccsOf true (dbgTarget.terminator ⟨0, by decide⟩) := .head _
    have htarget := (h.branchTarget _ _ (isNode_terminator true _) (isNode_terminator true _)).2 ⟨hsucc, rfl⟩
    exact absurd htarget (by decide)

end LLVMFunction

end Phasar
