import Phasar.Lib.UnionFind
import Phasar.Utils.AdjacencyList

/-!
# Minimising a graph

`minimizeGraph` joins vertices whose successors are already joined. Classes grow while the pairs are
tried, and vertices can end up in one class without having been compared.

* `IntEqClasses`: `llvm::IntEqClasses` after `compress`;
* `scan`, `fixpoint`, `minimizeGraph`;
* `Stable`: vertices of one class have the same label and the same edges up to classes;
* `minimalClasses_minimizeGraph`: the classes at the end.
-/

namespace Phasar.Utils

/-! ### Classes of numbers -/

/-- The classes of the numbers below some bound. Those of leaders are numbered in their order. -/
structure IntEqClasses where
  classOf : ℕ → ℕ
  numClasses : ℕ

/-- The number of classes whose leader is below a bound. -/
def countLeaders (equiv : UnionFind ℕ) (n : ℕ) : ℕ :=
  (List.range n).countP fun v => equiv.find v = v

/-- `IntEqClasses::compress` for the numbers below `n`. -/
def compress (equiv : UnionFind ℕ) (n : ℕ) : IntEqClasses :=
  ⟨fun v => countLeaders equiv (equiv.find v), countLeaders equiv n⟩

theorem countLeaders_succ (equiv : UnionFind ℕ) (n : ℕ) :
    countLeaders equiv (n + 1) = countLeaders equiv n + if equiv.find n = n then 1 else 0 := by
  rw [countLeaders, List.range_succ, List.countP_append, List.countP_singleton]
  simp [countLeaders]

theorem countLeaders_mono (equiv : UnionFind ℕ) : Monotone (countLeaders equiv) :=
  monotone_nat_of_le_succ fun n => by
    rw [countLeaders_succ]
    exact Nat.le_add_right _ _

theorem countLeaders_lt {equiv : UnionFind ℕ} {v n : ℕ} (hv : equiv.find v = v) (h : v < n) :
    countLeaders equiv v < countLeaders equiv n := by
  refine lt_of_lt_of_le ?_ (countLeaders_mono equiv h)
  rw [countLeaders_succ, if_pos hv]
  exact Nat.lt_succ_self _

/-- Two numbers have the same class exactly if they have the same leader. -/
theorem classOf_compress_iff {equiv : UnionFind ℕ} {n v w : ℕ} :
    (compress equiv n).classOf v = (compress equiv n).classOf w ↔ equiv.find v = equiv.find w := by
  refine ⟨fun h => ?_, fun h => congrArg (countLeaders equiv) h⟩
  rcases lt_trichotomy (equiv.find v) (equiv.find w) with hlt | heq | hlt
  · exact absurd h (countLeaders_lt (equiv.find_find v) hlt).ne
  · exact heq
  · exact absurd h (countLeaders_lt (equiv.find_find w) hlt).ne'

theorem classOf_compress_lt {equiv : UnionFind ℕ} {n v : ℕ} (h : equiv.find v < n) :
    (compress equiv n).classOf v < (compress equiv n).numClasses :=
  countLeaders_lt (equiv.find_find v) h

/-! ### The algorithm -/

section Algorithm

variable {T W : Type*} [DecidableEq W]

/-- The pairs that are tried, in this order: equal labels and the same number of edges. -/
def initialWorkList [DecidableEq T] (G : AdjacencyList T W) : List (ℕ × ℕ) :=
  (List.range G.size).flatMap fun vtx =>
    ((List.range' (vtx + 1) (G.size - (vtx + 1))).filter fun inner =>
      G.node vtx = G.node inner ∧ G.outDegree vtx = G.outDegree inner).map fun inner => (vtx, inner)

def isEquivalent (equiv : UnionFind ℕ) (lhs rhs : OutEdge W) : Bool :=
  lhs.weight = rhs.weight ∧
    (lhs.target = rhs.target ∨ equiv.find lhs.target = equiv.find rhs.target)

def makeEquivalent (equiv : UnionFind ℕ) (lhs rhs : ℕ) : UnionFind ℕ :=
  if lhs = rhs then equiv else equiv.joinMin lhs rhs

/-- The edges match one after the other. -/
def matchInOrder (equiv : UnionFind ℕ) (lhs rhs : List (OutEdge W)) : Bool :=
  (lhs.zip rhs).all fun p => isEquivalent equiv p.1 p.2

/-- Two edges match with the other ones swapped. -/
def matchSwapped (equiv : UnionFind ℕ) (lhs rhs : List (OutEdge W)) : Bool :=
  match lhs, rhs with
  | [lFirst, lSecond], rFirst :: rSecond :: _ =>
    isEquivalent equiv lFirst rSecond && isEquivalent equiv lSecond rFirst
  | _, _ => false

/-- Swap the element with the last one and drop it. -/
def removeAt (workList : List (ℕ × ℕ)) (i : ℕ) : List (ℕ × ℕ) :=
  match workList.getLast? with
  | some last => (workList.set i last).dropLast
  | none => workList

structure MinimizeState where
  workList : List (ℕ × ℕ)
  equiv : UnionFind ℕ
  changed : Bool

theorem length_removeAt (workList : List (ℕ × ℕ)) (i : ℕ) :
    (removeAt workList i).length = workList.length - 1 := by
  cases hlast : workList.getLast? with
  | none =>
    rw [removeAt, hlast, List.getLast?_eq_none_iff.1 hlast]
    rfl
  | some last =>
    rw [removeAt, hlast]
    simp

/-- The inner loop, from index `i` on. -/
def scan (G : AdjacencyList T W) (i : ℕ) (s : MinimizeState) : MinimizeState :=
  if h : i < s.workList.length then
    let p := s.workList[i]
    if matchInOrder s.equiv (G.outEdges p.1) (G.outEdges p.2) ∨
        matchSwapped s.equiv (G.outEdges p.1) (G.outEdges p.2) then
      scan G i ⟨removeAt s.workList i, makeEquivalent s.equiv p.1 p.2, true⟩
    else scan G (i + 1) s
  else s
  termination_by s.workList.length - i
  decreasing_by
    · rw [length_removeAt]
      omega
    · omega

/-- A round that changes something removes a pair. -/
theorem length_scan (G : AdjacencyList T W) (i : ℕ) (s : MinimizeState) :
    (scan G i s).workList.length ≤ s.workList.length ∧
      ((scan G i s).changed → s.changed ∨ (scan G i s).workList.length < s.workList.length) := by
  induction i, s using scan.induct G with
  | case1 i s h p hmatch ih =>
    rw [scan, dif_pos h, if_pos hmatch]
    rw [length_removeAt] at ih
    refine ⟨ih.1.trans (Nat.sub_le _ _), fun _ => Or.inr ?_⟩
    exact ih.1.trans_lt (Nat.sub_lt (Nat.zero_lt_of_lt h) Nat.one_pos)
  | case2 i s h p hmatch ih =>
    rw [scan, dif_pos h, if_neg hmatch]
    exact ih
  | case3 i s h =>
    rw [scan, dif_neg h]
    exact ⟨le_rfl, Or.inl⟩

/-- Rounds until nothing changes. -/
def fixpoint (G : AdjacencyList T W) (s : MinimizeState) : MinimizeState :=
  let s' := scan G 0 { s with changed := false }
  if _h : s'.changed then fixpoint G s' else s'
  termination_by s.workList.length
  decreasing_by
    exact ((length_scan G 0 { s with changed := false }).2 _h).resolve_left Bool.false_ne_true

def minimizeGraph [DecidableEq T] (G : AdjacencyList T W) : IntEqClasses :=
  compress (fixpoint G ⟨initialWorkList G, .singletons, true⟩).equiv G.size

end Algorithm

/-! ### Stability -/

section Stability

variable {T W : Type*} {G : AdjacencyList T W} {equiv : UnionFind ℕ}

/-- Every edge of `v` has an edge of `w` with the same weight to the same class. -/
def Simulated (G : AdjacencyList T W) (equiv : UnionFind ℕ) (v w : ℕ) : Prop :=
  ∀ e ∈ G.outEdges v, ∃ e' ∈ G.outEdges w,
    e.weight = e'.weight ∧ equiv.find e.target = equiv.find e'.target

/-- Vertices of one class have the same label and the same edges up to classes. -/
def Stable (G : AdjacencyList T W) (equiv : UnionFind ℕ) : Prop :=
  ∀ v w, equiv.find v = equiv.find w → G.node v = G.node w ∧ Simulated G equiv v w

theorem Simulated.trans {u v w : ℕ} (h : Simulated G equiv u v) (h' : Simulated G equiv v w) :
    Simulated G equiv u w := by
  intro e he
  obtain ⟨e', he', hw, hf⟩ := h e he
  obtain ⟨e'', he'', hw', hf'⟩ := h' e' he'
  exact ⟨e'', he'', hw.trans hw', hf.trans hf'⟩

theorem Simulated.finer {equiv' : UnionFind ℕ} (hfiner : equiv.Finer equiv') {v w : ℕ}
    (h : Simulated G equiv v w) : Simulated G equiv' v w := by
  intro e he
  obtain ⟨e', he', hw, hf⟩ := h e he
  exact ⟨e', he', hw, hfiner.same hf⟩

theorem stable_singletons : Stable G .singletons := by
  intro v w h
  obtain rfl : v = w := h
  exact ⟨rfl, fun e he => ⟨e, he, rfl, rfl⟩⟩

/-- Joining two vertices that match keeps the classes stable, also for the vertices that are put
together with them. -/
theorem Stable.joinMin {l r : ℕ} (h : Stable G equiv) (hnode : G.node l = G.node r)
    (hlr : Simulated G equiv l r) (hrl : Simulated G equiv r l) : Stable G (equiv.joinMin l r) := by
  have hfiner := equiv.finer_joinMin l r
  intro v w hvw
  rcases (equiv.find_joinMin_iff l r v w).1 hvw with heq | ⟨hv, hw⟩ | ⟨hv, hw⟩
  · exact ⟨(h v w heq).1, (h v w heq).2.finer hfiner⟩
  · obtain ⟨hvn, hvl⟩ := h v l hv
    obtain ⟨hwn, hrw⟩ := h r w hw.symm
    exact ⟨hvn.trans (hnode.trans hwn), ((hvl.trans hlr).trans hrw).finer hfiner⟩
  · obtain ⟨hvn, hvr⟩ := h v r hv
    obtain ⟨hwn, hlw⟩ := h l w hw.symm
    exact ⟨hvn.trans (hnode.symm.trans hwn), ((hvr.trans hrl).trans hlw).finer hfiner⟩

variable [DecidableEq W]

theorem isEquivalent_iff {e e' : OutEdge W} :
    isEquivalent equiv e e' ↔
      e.weight = e'.weight ∧ equiv.find e.target = equiv.find e'.target := by
  rw [isEquivalent, decide_eq_true_iff]
  refine and_congr_right fun _ => ⟨?_, Or.inr⟩
  rintro (h | h)
  · rw [h]
  · exact h

/-- A pair that matches has as many edges on both sides, each with its counterpart. -/
theorem simulated_of_match {l r : ℕ} (hdegree : G.outDegree l = G.outDegree r)
    (hmatch : matchInOrder equiv (G.outEdges l) (G.outEdges r) ∨
      matchSwapped equiv (G.outEdges l) (G.outEdges r)) :
    Simulated G equiv l r ∧ Simulated G equiv r l := by
  rw [AdjacencyList.outDegree, AdjacencyList.outDegree] at hdegree
  rw [Simulated, Simulated]
  generalize G.outEdges l = ls, G.outEdges r = rs at hdegree hmatch ⊢
  rcases hmatch with horder | hswap
  · rw [matchInOrder, List.all_eq_true] at horder
    have hpair : ∀ i (hl : i < ls.length) (hr : i < rs.length),
        ls[i].weight = rs[i].weight ∧ equiv.find ls[i].target = equiv.find rs[i].target := by
      intro i hl hr
      refine isEquivalent_iff.1 (horder (ls[i], rs[i]) (List.mem_iff_getElem.2 ⟨i, ?_, ?_⟩))
      · rw [List.length_zip]
        exact lt_min hl hr
      · exact List.getElem_zip
    constructor
    · intro e he
      obtain ⟨i, hi, rfl⟩ := List.mem_iff_getElem.1 he
      have hr : i < rs.length := hdegree ▸ hi
      exact ⟨rs[i], List.getElem_mem hr, hpair i hi hr⟩
    · intro e he
      obtain ⟨i, hi, rfl⟩ := List.mem_iff_getElem.1 he
      have hl : i < ls.length := hdegree ▸ hi
      obtain ⟨hw, hf⟩ := hpair i hl hi
      exact ⟨ls[i], List.getElem_mem hl, hw.symm, hf.symm⟩
  · match ls, rs with
    | [l₁, l₂], [r₁, r₂] =>
      rw [matchSwapped, Bool.and_eq_true, isEquivalent_iff, isEquivalent_iff] at hswap
      obtain ⟨⟨hw₁, hf₁⟩, hw₂, hf₂⟩ := hswap
      simp [hw₁, hw₂, hf₁, hf₂]

/-! ### Runs -/

theorem mem_of_mem_removeAt {workList : List (ℕ × ℕ)} {i : ℕ} {p : ℕ × ℕ}
    (h : p ∈ removeAt workList i) : p ∈ workList := by
  rw [removeAt] at h
  cases hlast : workList.getLast? with
  | none =>
    rw [hlast] at h
    exact h
  | some last =>
    rw [hlast] at h
    rcases List.mem_or_eq_of_mem_set (List.dropLast_subset _ h) with hp | rfl
    · exact hp
    · exact List.mem_of_getLast? hlast

/-- What holds between two tries. -/
structure MinimizeInv (G : AdjacencyList T W) (s : MinimizeState) : Prop where
  stable : Stable G s.equiv
  finer : UnionFind.Finer .singletons s.equiv
  alike : ∀ p ∈ s.workList, G.node p.1 = G.node p.2 ∧ G.outDegree p.1 = G.outDegree p.2

theorem MinimizeInv.merge {s : MinimizeState} {p : ℕ × ℕ} {i : ℕ} (h : MinimizeInv G s)
    (hp : p ∈ s.workList)
    (hmatch : matchInOrder s.equiv (G.outEdges p.1) (G.outEdges p.2) ∨
      matchSwapped s.equiv (G.outEdges p.1) (G.outEdges p.2)) :
    MinimizeInv G ⟨removeAt s.workList i, makeEquivalent s.equiv p.1 p.2, true⟩ := by
  obtain ⟨hnode, hdegree⟩ := h.alike p hp
  obtain ⟨hlr, hrl⟩ := simulated_of_match hdegree hmatch
  refine ⟨?_, ?_, fun q hq => h.alike q (mem_of_mem_removeAt hq)⟩
  · rw [makeEquivalent]
    split_ifs
    · exact h.stable
    · exact h.stable.joinMin hnode hlr hrl
  · rw [makeEquivalent]
    split_ifs
    · exact h.finer
    · exact h.finer.trans (s.equiv.finer_joinMin p.1 p.2)

theorem MinimizeInv.scan {i : ℕ} {s : MinimizeState} (h : MinimizeInv G s) :
    MinimizeInv G (scan G i s) := by
  induction i, s using scan.induct G with
  | case1 i s hi p hmatch ih =>
    rw [Utils.scan, dif_pos hi, if_pos hmatch]
    exact ih (h.merge (List.getElem_mem hi) hmatch)
  | case2 i s hi p hmatch ih =>
    rw [Utils.scan, dif_pos hi, if_neg hmatch]
    exact ih h
  | case3 i s hi =>
    rw [Utils.scan, dif_neg hi]
    exact h

theorem MinimizeInv.fixpoint {s : MinimizeState} (h : MinimizeInv G s) :
    MinimizeInv G (fixpoint G s) := by
  induction s using fixpoint.induct G with
  | case1 s s' hs' ih =>
    rw [Utils.fixpoint, dif_pos hs']
    exact ih (MinimizeInv.scan ⟨h.stable, h.finer, h.alike⟩)
  | case2 s s' hs' =>
    rw [Utils.fixpoint, dif_neg hs']
    exact MinimizeInv.scan ⟨h.stable, h.finer, h.alike⟩

omit [DecidableEq W] in
theorem minimizeInv_init [DecidableEq T] :
    MinimizeInv G ⟨initialWorkList G, .singletons, true⟩ := by
  refine ⟨stable_singletons, .refl _, fun p hp => ?_⟩
  obtain ⟨vtx, -, hp⟩ := List.mem_flatMap.1 hp
  obtain ⟨inner, hinner, rfl⟩ := List.mem_map.1 hp
  exact of_decide_eq_true (List.mem_filter.1 hinner).2

/-- The classes of `minimizeGraph`: dense, and stable. -/
structure MinimalClasses (G : AdjacencyList T W) (eq : IntEqClasses) : Prop where
  node : ∀ {v w}, eq.classOf v = eq.classOf w → G.node v = G.node w
  edge : ∀ {v w}, eq.classOf v = eq.classOf w → ∀ e ∈ G.outEdges v, ∃ e' ∈ G.outEdges w,
    e.weight = e'.weight ∧ eq.classOf e.target = eq.classOf e'.target
  lt : ∀ {v}, v < G.size → eq.classOf v < eq.numClasses

theorem minimalClasses_minimizeGraph [DecidableEq T] (G : AdjacencyList T W) :
    MinimalClasses G (minimizeGraph G) := by
  have h := (minimizeInv_init (G := G)).fixpoint
  constructor
  · exact fun hvw => (h.stable _ _ (classOf_compress_iff.1 hvw)).1
  · intro v w hvw e he
    obtain ⟨e', he', hw, hf⟩ := (h.stable v w (classOf_compress_iff.1 hvw)).2 e he
    exact ⟨e', he', hw, classOf_compress_iff.2 hf⟩
  · exact fun hv => classOf_compress_lt ((h.finer.le _).trans_lt hv)

end Stability

end Phasar.Utils
