import Phasar.Utils.SCCGeneric
import Phasar.Lib.TopologicalOrder
import Mathlib.Data.Finset.Sort

/-!
# The order of the components

The components of a graph with the edges between them, `computeSCCDependencies`, and their
topological order, `computeSCCOrder`. The recursion of the latter starts in the components without
predecessors. Since the graph of the components has no cycles, each component is reached from one of
them.

* `SetOrder`: the order in which the set of children of a component is traversed;
* `computeSCCDependencies`, `computeSCCOrder`;
* `SCCHolder.Components`, with `reach_iff`, `acyclic` and `exists_order`;
* `computeSCCOrder_correct`, `sccOrder_topological`.
-/

namespace Phasar

open StronglyConnected TopologicalOrder

/-- The edges between components, and the components that no edge leads to. -/
structure SCCOrder.SCCDependencyGraph where
  childrenOfSCC : ℕ → Finset ℕ
  sccRoots : List ℕ

/-- The order in which the hash set of the children of each component is traversed. -/
structure SetOrder where
  toList : ℕ → Finset ℕ → List ℕ
  mem_toList : ∀ c s x, x ∈ toList c s ↔ x ∈ s
  nodup_toList : ∀ c s, (toList c s).Nodup

/-- The children of a component in the order in which they are traversed. -/
def SetOrder.children (ord : SetOrder) (deps : SCCOrder.SCCDependencyGraph) (c : ℕ) : List ℕ :=
  ord.toList c (deps.childrenOfSCC c)

section Dependencies

variable {n : ℕ} (G : Fin n → List (Fin n)) (h : SCCHolder n)

/-- The body of the loops of `computeSCCDependencies`: the children found so far, and `Roots`. -/
def addDependency (srcSCC succSCC : ℕ) (s : (ℕ → Finset ℕ) × Finset ℕ) : (ℕ → Finset ℕ) × Finset ℕ :=
  if succSCC ≠ srcSCC then
    (Function.update s.1 srcSCC (insert succSCC (s.1 srcSCC)), s.2.erase succSCC)
  else s

/-- The loop over the edges of a vertex. -/
def addEdges (srcSCC : ℕ) (succs : List (Fin n)) (s : (ℕ → Finset ℕ) × Finset ℕ) :
    (ℕ → Finset ℕ) × Finset ℕ :=
  succs.foldl (fun s succ => addDependency srcSCC (h.sccOfNode succ) s) s

/-- The loop over the vertices. -/
def addVertices (vertices : List (Fin n)) (s : (ℕ → Finset ℕ) × Finset ℕ) :
    (ℕ → Finset ℕ) × Finset ℕ :=
  vertices.foldl (fun s v => addEdges h (h.sccOfNode v) (G v) s) s

/-- `computeSCCDependencies`; the roots are listed in ascending order. -/
def computeSCCDependencies : SCCOrder.SCCDependencyGraph :=
  let s := addVertices G h (List.finRange n) (fun _ => ∅, Finset.range h.nodesInSCC.length)
  { childrenOfSCC := s.1
    sccRoots := (List.range h.nodesInSCC.length).filter fun c => decide (c ∈ s.2) }

end Dependencies

/-- `computeSCCOrder`; `none` when the fuel for the recursion runs out. -/
def computeSCCOrder (ord : SetOrder) (fuel : ℕ) (deps : SCCOrder.SCCDependencyGraph) : Option (List ℕ) :=
  (visitAll (ord.children deps) fuel deps.sccRoots (∅, [])).map fun s => s.2.reverse

/-! ### The edges between components -/

variable {n : ℕ} {G : Fin n → List (Fin n)} {h : SCCHolder n}

section

variable {src succ c d : ℕ} {s : (ℕ → Finset ℕ) × Finset ℕ}

theorem mem_children_addDependency :
    d ∈ (addDependency src succ s).1 c ↔ d ∈ s.1 c ∨ c = src ∧ d = succ ∧ d ≠ c := by
  rw [addDependency]
  split_ifs with hne
  · by_cases hc : c = src
    · subst hc
      simp only [Function.update_self, Finset.mem_insert, true_and]
      constructor
      · rintro (rfl | hd)
        · exact Or.inr ⟨rfl, hne⟩
        · exact Or.inl hd
      · rintro (hd | ⟨rfl, -⟩)
        · exact Or.inr hd
        · exact Or.inl rfl
    · simp only [Function.update_of_ne hc]
      exact ⟨Or.inl, fun hd => hd.resolve_right fun hd => hc hd.1⟩
  · refine ⟨Or.inl, fun hd => hd.resolve_right ?_⟩
    rintro ⟨rfl, rfl, hdc⟩
    exact hne hdc

theorem mem_roots_addDependency :
    d ∈ (addDependency src succ s).2 ↔ d ∈ s.2 ∧ (d = succ → d = src) := by
  rw [addDependency]
  split_ifs with hne
  · rw [Finset.mem_erase]
    constructor
    · rintro ⟨hd, hmem⟩
      exact ⟨hmem, fun heq => absurd heq hd⟩
    · rintro ⟨hmem, hd⟩
      exact ⟨fun heq => hne (heq ▸ hd heq), hmem⟩
  · exact ⟨fun hd => ⟨hd, fun heq => heq.trans (not_not.1 hne)⟩, And.left⟩

theorem mem_children_addEdges {succs : List (Fin n)} : d ∈ (addEdges h src succs s).1 c ↔
    d ∈ s.1 c ∨ c = src ∧ (∃ w ∈ succs, d = h.sccOfNode w) ∧ d ≠ c := by
  induction succs generalizing s with
  | nil => simp [addEdges]
  | cons w succs ih =>
    simp only [addEdges] at ih ⊢
    rw [List.foldl_cons, ih, mem_children_addDependency]
    simp only [List.mem_cons, exists_eq_or_imp]
    tauto

theorem mem_roots_addEdges {succs : List (Fin n)} : d ∈ (addEdges h src succs s).2 ↔
    d ∈ s.2 ∧ ∀ w ∈ succs, d = h.sccOfNode w → d = src := by
  induction succs generalizing s with
  | nil => simp [addEdges]
  | cons w succs ih =>
    simp only [addEdges] at ih ⊢
    rw [List.foldl_cons, ih, mem_roots_addDependency]
    simp only [List.mem_cons, forall_eq_or_imp]
    tauto

theorem mem_children_addVertices {vertices : List (Fin n)} :
    d ∈ (addVertices G h vertices s).1 c ↔ d ∈ s.1 c ∨
      ∃ v ∈ vertices, c = h.sccOfNode v ∧ (∃ w ∈ G v, d = h.sccOfNode w) ∧ d ≠ c := by
  induction vertices generalizing s with
  | nil => simp [addVertices]
  | cons v vertices ih =>
    simp only [addVertices] at ih ⊢
    rw [List.foldl_cons, ih, mem_children_addEdges]
    simp only [List.mem_cons, exists_eq_or_imp, or_assoc]

theorem mem_roots_addVertices {vertices : List (Fin n)} : d ∈ (addVertices G h vertices s).2 ↔
    d ∈ s.2 ∧ ∀ v ∈ vertices, ∀ w ∈ G v, d = h.sccOfNode w → d = h.sccOfNode v := by
  induction vertices generalizing s with
  | nil => simp [addVertices]
  | cons v vertices ih =>
    simp only [addVertices] at ih ⊢
    rw [List.foldl_cons, ih, mem_roots_addEdges]
    simp only [List.mem_cons, forall_eq_or_imp, and_assoc]

end

theorem mem_childrenOfSCC {c d : ℕ} : d ∈ (computeSCCDependencies G h).childrenOfSCC c ↔
    ∃ v w, w ∈ G v ∧ h.sccOfNode v = c ∧ h.sccOfNode w = d ∧ d ≠ c := by
  rw [computeSCCDependencies, mem_children_addVertices]
  constructor
  · rintro (hd | ⟨v, -, rfl, ⟨w, hw, rfl⟩, hne⟩)
    · exact absurd hd (Finset.notMem_empty d)
    · exact ⟨v, w, hw, rfl, rfl, hne⟩
  · rintro ⟨v, w, hw, rfl, rfl, hne⟩
    exact Or.inr ⟨v, List.mem_finRange v, rfl, ⟨w, hw, rfl⟩, hne⟩

theorem mem_sccRoots {c : ℕ} : c ∈ (computeSCCDependencies G h).sccRoots ↔
    c < h.nodesInSCC.length ∧ ∀ d, c ∉ (computeSCCDependencies G h).childrenOfSCC d := by
  simp only [mem_childrenOfSCC]
  simp only [computeSCCDependencies, List.mem_filter, List.mem_range, decide_eq_true_eq,
    mem_roots_addVertices, Finset.mem_range]
  constructor
  · rintro ⟨hc, -, hno⟩
    refine ⟨hc, ?_⟩
    rintro d ⟨v, w, hw, rfl, rfl, hne⟩
    exact hne (hno v (List.mem_finRange v) w hw rfl)
  · rintro ⟨hc, hno⟩
    refine ⟨hc, hc, fun v _ w hw hcw => ?_⟩
    by_contra hne
    exact hno (h.sccOfNode v) ⟨v, w, hw, rfl, hcw.symm, hne⟩

/-- A holder with the strongly connected components of the graph `G`, numbered in any order. -/
structure SCCHolder.Components (G : Fin n → List (Fin n)) (h : SCCHolder n) : Prop where
  complete : ∀ v, v ∈ h.nodesInSCC.flatten
  nodup : h.nodesInSCC.flatten.Nodup
  ne_nil : ∀ c ∈ h.nodesInSCC, c ≠ []
  agree : ∀ (v : Fin n) (i : ℕ), h.sccOfNode v = i ↔ ∃ c, h.nodesInSCC[i]? = some c ∧ v ∈ c
  connected : ∀ v w, h.sccOfNode v = h.sccOfNode w ↔ Reach G v w ∧ Reach G w v

namespace SCCHolder.Components

theorem sccOfNode_lt (hcomp : h.Components G) (v : Fin n) :
    h.sccOfNode v < h.nodesInSCC.length := by
  obtain ⟨c, hc, -⟩ := (hcomp.agree v _).1 rfl
  exact (List.getElem?_eq_some_iff.1 hc).1

/-- Both ends of an edge are components. -/
theorem mem_range (hcomp : h.Components G) (ord : SetOrder) {c d : ℕ}
    (hd : d ∈ ord.children (computeSCCDependencies G h) c) :
    c ∈ Finset.range h.nodesInSCC.length ∧ d ∈ Finset.range h.nodesInSCC.length := by
  obtain ⟨v, w, -, rfl, rfl, -⟩ := mem_childrenOfSCC.1 ((ord.mem_toList _ _ _).1 hd)
  exact ⟨Finset.mem_range.2 (hcomp.sccOfNode_lt v), Finset.mem_range.2 (hcomp.sccOfNode_lt w)⟩

/-- Reachability between components is reachability between their vertices. -/
theorem reach_iff (hcomp : h.Components G) (ord : SetOrder) {v w : Fin n} :
    Reach (ord.children (computeSCCDependencies G h)) (h.sccOfNode v) (h.sccOfNode w) ↔
      Reach G v w := by
  constructor
  · intro hr
    generalize hd : h.sccOfNode w = d at hr
    induction hr generalizing w with
    | refl => exact ((hcomp.connected v w).1 hd.symm).1
    | tail _ hchild ih =>
      obtain ⟨x, y, hy, hx, rfl, -⟩ := mem_childrenOfSCC.1 ((ord.mem_toList _ _ _).1 hchild)
      exact ((ih hx).tail hy).trans ((hcomp.connected w y).1 hd).2
  · intro hr
    induction hr with
    | refl => exact .refl
    | @tail x y _ hy ih =>
      by_cases heq : h.sccOfNode y = h.sccOfNode x
      · rwa [heq]
      · exact ih.tail ((ord.mem_toList _ _ _).2 (mem_childrenOfSCC.2 ⟨x, y, hy, rfl, rfl, heq⟩))

/-- A cycle of components would be one component. -/
theorem acyclic (hcomp : h.Components G) (ord : SetOrder) (c : ℕ) :
    ¬Relation.TransGen (fun c d => d ∈ ord.children (computeSCCDependencies G h) c) c c := by
  intro hcycle
  obtain ⟨d, hcd, hdc⟩ := Relation.TransGen.head'_iff.1 hcycle
  obtain ⟨v, w, hw, rfl, rfl, hne⟩ := mem_childrenOfSCC.1 ((ord.mem_toList _ _ _).1 hcd)
  exact hne ((hcomp.connected w v).2 ⟨(hcomp.reach_iff ord).1 hdc, .single hw⟩)

end SCCHolder.Components

namespace SCCHolder.Correct

theorem components (hcorrect : h.Correct G) : h.Components G where
  complete := hcorrect.complete
  nodup := hcorrect.nodup
  ne_nil := hcorrect.ne_nil
  agree := hcorrect.agree
  connected := hcorrect.connected

theorem child_lt (hcorrect : h.Correct G) {c d : ℕ}
    (hd : d ∈ (computeSCCDependencies G h).childrenOfSCC c) :
    d < c ∧ c < h.nodesInSCC.length := by
  obtain ⟨v, w, hw, rfl, rfl, hne⟩ := mem_childrenOfSCC.1 hd
  exact ⟨hcorrect.ordered v w hw (Ne.symm hne), hcorrect.sccOfNode_lt v⟩

/-- Reachability between components is reachability between their vertices. -/
theorem reach_iff (hcorrect : h.Correct G) (ord : SetOrder) {v w : Fin n} :
    Reach (ord.children (computeSCCDependencies G h)) (h.sccOfNode v) (h.sccOfNode w) ↔
      Reach G v w :=
  hcorrect.components.reach_iff ord

end SCCHolder.Correct

/-! ### The order -/

/-- The search from the roots leaves every component once, and after its children. -/
theorem SCCHolder.Components.exists_order (hcomp : h.Components G) (ord : SetOrder) :
    ∃ l : List ℕ, Closed (ord.children (computeSCCDependencies G h)) l ∧ l.Nodup ∧
      (∀ c, c ∈ l ↔ c < h.nodesInSCC.length) ∧
      ∀ fuel ≥ h.nodesInSCC.length,
        computeSCCOrder ord fuel (computeSCCDependencies G h) = some l.reverse := by
  set deps := computeSCCDependencies G h with hdeps
  obtain ⟨rank, hrank, hlt⟩ := exists_rank (S := Finset.range h.nodesInSCC.length)
    (fun c d hd => (hcomp.mem_range ord hd).2) (hcomp.acyclic ord)
  have hsize : ∀ c ∈ deps.sccRoots, c < h.nodesInSCC.length := fun c hc => (mem_sccRoots.1 hc).1
  have hroots : ∀ c ∈ deps.sccRoots, rank c < h.nodesInSCC.length := fun c hc =>
    (hlt c (Finset.mem_range.2 (hsize c hc))).trans_eq (Finset.card_range _)
  obtain ⟨s, hs, hclosed, -, hmem⟩ := visitAll_postorder hrank (s := (∅, [])) hroots .nil (by simp)
  have hleaves := visitAll_leaves
    (fun c _ d hd => Finset.mem_range.1 (hcomp.mem_range ord hd).2) hsize hs .nil (by simp)
  refine ⟨s.2, hclosed, hleaves.nodup, fun c => ⟨hleaves.within (by simp) c, fun hc => ?_⟩,
    fun fuel hfuel => ?_⟩
  · -- a component is reached from a root
    obtain ⟨r, hr, hsource, hrc⟩ := exists_source hrank
      (fun c d hd => (hcomp.mem_range ord hd).1) (Finset.mem_range.2 hc)
    refine hclosed.mem_of_reach hrc (hmem r (mem_sccRoots.2 ⟨Finset.mem_range.1 hr, fun d hd => ?_⟩))
    exact hsource d ((ord.mem_toList _ _ _).2 hd)
  · rw [computeSCCOrder, visitAll_mono hfuel hs, Option.map_some]

/-- The order lists every component, and none before one that has an edge to it. -/
theorem computeSCCOrder_correct (hcorrect : h.Correct G) (ord : SetOrder) :
    ∃ l, Closed (ord.children (computeSCCDependencies G h)) l ∧
      (∀ v, h.sccOfNode v ∈ l) ∧
      ∀ fuel ≥ h.nodesInSCC.length,
        computeSCCOrder ord fuel (computeSCCDependencies G h) = some l.reverse := by
  obtain ⟨l, hclosed, -, hmem, horder⟩ := hcorrect.components.exists_order ord
  exact ⟨l, hclosed, fun v => (hmem _).2 (hcorrect.sccOfNode_lt v), horder⟩

/-- The components with the edges between them form an acyclic graph, whose order lists every component
once and before its children. -/
theorem sccOrder_topological (hcomp : h.Components G) (ord : SetOrder) :
    let deps := computeSCCDependencies G h
    (∀ c d, d ∈ deps.childrenOfSCC c ↔
      c ≠ d ∧ ∃ v, ∃ w ∈ G v, h.sccOfNode v = c ∧ h.sccOfNode w = d) ∧
    (∀ c, ¬Relation.TransGen (fun c d => d ∈ deps.childrenOfSCC c) c c) ∧
    deps.sccRoots.Nodup ∧
    (∀ c, c ∈ deps.sccRoots ↔ c < h.nodesInSCC.length ∧ ∀ d, c ∉ deps.childrenOfSCC d) ∧
    ∃ order, (∀ fuel ≥ h.nodesInSCC.length, computeSCCOrder ord fuel deps = some order) ∧
      order.Nodup ∧ (∀ c, c ∈ order ↔ c < h.nodesInSCC.length) ∧
      ∀ pre c post, order = pre ++ c :: post → ∀ d ∈ deps.childrenOfSCC c, d ∈ post := by
  intro deps
  refine ⟨fun c d => ?_, fun c hcycle => ?_, List.nodup_range.filter _, fun c => mem_sccRoots, ?_⟩
  · rw [mem_childrenOfSCC]
    constructor
    · rintro ⟨v, w, hw, hv, hwd, hne⟩
      exact ⟨hne.symm, v, w, hw, hv, hwd⟩
    · rintro ⟨hne, v, w, hw, hv, hwd⟩
      exact ⟨v, w, hw, hv, hwd, hne.symm⟩
  · exact hcomp.acyclic ord c
      (Relation.TransGen.mono (fun x y hy => (ord.mem_toList x _ y).2 hy) c c hcycle)
  · obtain ⟨l, hclosed, hnodup, hmem, horder⟩ := hcomp.exists_order ord
    refine ⟨l.reverse, horder, List.nodup_reverse.2 hnodup, fun c => ?_, fun pre c post heq d hd => ?_⟩
    · rw [List.mem_reverse, hmem]
    · have hl : l = post.reverse ++ c :: pre.reverse := by
        rw [← List.reverse_reverse l, heq]
        simp
      exact List.mem_reverse.1 (hclosed.mem_of_eq_append hl d ((ord.mem_toList _ _ _).2 hd))

/-- The children in ascending order. -/
def SetOrder.ascending : SetOrder := ⟨fun _ s => s.sort, by simp, by simp⟩

/-- Every vertex has an edge to itself and two to the last vertex. -/
def lastGraph (v : Fin 8) : List (Fin 8) := [v, Fin.last 7, Fin.last 7]

/-- Every vertex is a component. -/
def singletons : SCCHolder 8 := ⟨Fin.val, (List.finRange 8).map fun v => [v]⟩

theorem singletons_components : singletons.Components lastGraph where
  complete := by decide
  nodup := by decide
  ne_nil := by decide
  agree v i := by
    simp only [singletons, List.getElem?_map, Option.map_eq_some_iff]
    constructor
    · rintro rfl
      exact ⟨[v], ⟨v, by simp, rfl⟩, by simp⟩
    · rintro ⟨c, ⟨w, hw, rfl⟩, hv⟩
      obtain ⟨hlt, hw⟩ := List.getElem?_eq_some_iff.1 hw
      rw [List.mem_singleton.1 hv, ← hw]
      simp
  connected v w := by
    have hle : ∀ {v w : Fin 8}, Reach lastGraph v w → v ≤ w := by
      intro v w hr
      induction hr with
      | refl => exact le_rfl
      | @tail x y _ hy ih =>
        simp only [lastGraph, List.mem_cons, List.not_mem_nil, or_false, or_self] at hy
        rcases hy with rfl | rfl
        · exact ih
        · exact Fin.le_last v
    constructor
    · intro heq
      obtain rfl := Fin.val_injective heq
      exact ⟨.refl, .refl⟩
    · rintro ⟨hvw, hwv⟩
      exact congrArg Fin.val (le_antisymm (hle hvw) (hle hwv))

theorem sccOrder_topological_last :
    ∃ order, (∀ fuel ≥ 8, computeSCCOrder .ascending fuel
      (computeSCCDependencies lastGraph singletons) = some order) ∧
      order.Nodup ∧ ∀ c, c ∈ order ↔ c < 8 := by
  obtain ⟨-, -, -, -, order, hrun, hnodup, hmem, -⟩ :=
    sccOrder_topological singletons_components .ascending
  exact ⟨order, hrun, hnodup, hmem⟩

end Phasar
