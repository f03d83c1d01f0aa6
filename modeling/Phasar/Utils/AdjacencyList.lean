import Mathlib.Data.List.Basic
import Mathlib.Tactic.Common
import Phasar.Lib.GraphLanguage

/-!
# Adjacency lists

`psr::AdjacencyList` and its graph traits: vertices are numbered in the order of their insertion.

* `addNode`, `addRoot`, `addEdge`, `dedupOutEdges`; an assertion that fails gives `none`;
* `WF`: edges and roots name vertices of the graph;
* `toGraph`: the rooted graph that an adjacency list stands for.
-/

namespace Phasar.Utils

/-- An edge: its target and its weight. -/
structure OutEdge (W : Type*) where
  target : ℕ
  weight : W
  deriving DecidableEq

/-- `withEdgeTarget`: the same weight, but another target. -/
def OutEdge.withEdgeTarget {W : Type*} (e : OutEdge W) (tar : ℕ) : OutEdge W :=
  { e with target := tar }

structure AdjacencyList (T W : Type*) where
  nodes : List T
  adj : List (List (OutEdge W))
  roots : List ℕ

namespace AdjacencyList

variable {T W : Type*}

def empty : AdjacencyList T W := ⟨[], [], []⟩

def size (G : AdjacencyList T W) : ℕ := G.adj.length

def node (G : AdjacencyList T W) (vtx : ℕ) : Option T := G.nodes[vtx]?

def outEdges (G : AdjacencyList T W) (vtx : ℕ) : List (OutEdge W) := G.adj[vtx]?.getD []

def outDegree (G : AdjacencyList T W) (vtx : ℕ) : ℕ := (G.outEdges vtx).length

/-- A new vertex, numbered `size`. -/
def addNode (G : AdjacencyList T W) (val : T) : AdjacencyList T W :=
  { G with nodes := G.nodes ++ [val], adj := G.adj ++ [[]] }

def addRoot (G : AdjacencyList T W) (vtx : ℕ) : Option (AdjacencyList T W) :=
  if vtx < G.size then some { G with roots := G.roots ++ [vtx] } else none

def addEdge (G : AdjacencyList T W) (source : ℕ) (edge : OutEdge W) : Option (AdjacencyList T W) :=
  if source < G.size then some { G with adj := G.adj.modify source (· ++ [edge]) } else none

/-- `std::unique`: of equal elements in a row the first one is left. -/
def unique [DecidableEq W] : List (OutEdge W) → List (OutEdge W)
  | [] => []
  | [e] => [e]
  | e :: e' :: rest => if e = e' then unique (e' :: rest) else e :: unique (e' :: rest)

/-- `less` is the order of edges, where their type has one. -/
def dedup [DecidableEq W] (less : Option (OutEdge W → OutEdge W → Bool))
    (edges : List (OutEdge W)) : List (OutEdge W) :=
  match less with
  | some less => unique (edges.mergeSort fun e e' => !less e' e)
  | none => edges.eraseDups

def dedupOutEdges [DecidableEq W] (less : Option (OutEdge W → OutEdge W → Bool))
    (G : AdjacencyList T W) (vtx : ℕ) : AdjacencyList T W :=
  { G with adj := G.adj.modify vtx (dedup less) }

/-- Each vertex has a label and edges; edges and roots name vertices. -/
structure WF (G : AdjacencyList T W) : Prop where
  size_eq : G.nodes.length = G.size
  target_lt : ∀ {v e}, e ∈ G.outEdges v → e.target < G.size
  root_lt : ∀ {v}, v ∈ G.roots → v < G.size

/-- The graph as a relation; a vertex outside has no label. -/
def toGraph (G : AdjacencyList T W) : LabelledGraph ℕ (Option T) W where
  label := G.node
  Edge v w t := ⟨t, w⟩ ∈ G.outEdges v
  Root v := v ∈ G.roots

/-! ### New vertices, roots and edges -/

section Lemmas

variable {G G' : AdjacencyList T W} {v source : ℕ} {e edge : OutEdge W} {val : T}

theorem mem_outEdges_iff : e ∈ G.outEdges v ↔ ∃ edges, G.adj[v]? = some edges ∧ e ∈ edges := by
  rw [outEdges]
  cases G.adj[v]? <;> simp

theorem wf_iff : G.WF ↔ G.nodes.length = G.size ∧
    (∀ edges ∈ G.adj, ∀ e ∈ edges, e.target < G.size) ∧ ∀ v ∈ G.roots, v < G.size := by
  constructor
  · intro h
    refine ⟨h.size_eq, fun edges hedges e he => ?_, fun v hv => h.root_lt hv⟩
    obtain ⟨v, hv⟩ := List.mem_iff_getElem?.1 hedges
    exact h.target_lt (mem_outEdges_iff.2 ⟨edges, hv, he⟩)
  · rintro ⟨hsize, htarget, hroot⟩
    refine ⟨hsize, fun he => ?_, fun {v} hv => hroot v hv⟩
    obtain ⟨edges, hv, he⟩ := mem_outEdges_iff.1 he
    exact htarget edges (List.mem_of_getElem? hv) _ he

instance : Decidable G.WF := decidable_of_iff _ wf_iff.symm

theorem WF.node_isSome (h : G.WF) (hv : v < G.size) : ∃ l, G.node v = some l := by
  rw [← h.size_eq] at hv
  exact ⟨_, List.getElem?_eq_getElem hv⟩

@[simp] theorem size_addNode : (G.addNode val).size = G.size + 1 := List.length_append

@[simp] theorem roots_addNode : (G.addNode val).roots = G.roots := rfl

@[simp] theorem outEdges_addNode : (G.addNode val).outEdges v = G.outEdges v := by
  change ((G.adj ++ [[]])[v]?).getD [] = _
  by_cases hv : v < G.adj.length
  · rw [List.getElem?_append_left hv]
    rfl
  · have hnone : G.adj[v]? = none := List.getElem?_eq_none (not_lt.1 hv)
    rw [outEdges, hnone, List.getElem?_append_right (not_lt.1 hv)]
    cases hn : v - G.adj.length <;> simp

theorem node_addNode_of_lt (hv : v < G.nodes.length) : (G.addNode val).node v = G.node v :=
  List.getElem?_append_left hv

theorem node_addNode_self (h : G.nodes.length = G.size) :
    (G.addNode val).node G.size = some val := by
  rw [← h]
  exact List.getElem?_concat_length

theorem addRoot_of_lt (h : v < G.size) :
    G.addRoot v = some { G with roots := G.roots ++ [v] } := if_pos h

theorem addEdge_of_lt (h : source < G.size) :
    G.addEdge source edge = some { G with adj := G.adj.modify source (· ++ [edge]) } := if_pos h

/-- What an edge adds, and what it leaves alone. -/
theorem addEdge_spec (h : G.addEdge source edge = some G') :
    G'.nodes = G.nodes ∧ G'.roots = G.roots ∧ G'.size = G.size ∧
      ∀ v e, e ∈ G'.outEdges v ↔ e ∈ G.outEdges v ∨ (v = source ∧ e = edge) := by
  rw [addEdge] at h
  split_ifs at h with hlt
  obtain rfl := Option.some.inj h
  refine ⟨rfl, rfl, List.length_modify .., fun v e => ?_⟩
  change e ∈ ((G.adj.modify source (· ++ [edge]))[v]?).getD [] ↔ _
  rw [List.getElem?_modify, outEdges]
  by_cases hv : source = v
  · subst hv
    rw [List.getElem?_eq_getElem hlt]
    simp
  · simp [hv, Ne.symm hv]

theorem outEdges_addEdge (h : G.addEdge source edge = some G') :
    G'.outEdges v = if v = source then G.outEdges v ++ [edge] else G.outEdges v := by
  rw [addEdge] at h
  split_ifs at h with hlt
  obtain rfl := Option.some.inj h
  change ((G.adj.modify source (· ++ [edge]))[v]?).getD [] = _
  rw [List.getElem?_modify, outEdges]
  by_cases hv : v = source
  · subst hv
    rw [List.getElem?_eq_getElem hlt]
    simp
  · simp [hv, Ne.symm hv]

end Lemmas

/-! ### Removing duplicates -/

section Dedup

variable [DecidableEq W] {less : Option (OutEdge W → OutEdge W → Bool)}

theorem mem_unique {e : OutEdge W} : ∀ {edges : List (OutEdge W)}, e ∈ unique edges ↔ e ∈ edges
  | [] => Iff.rfl
  | [_] => Iff.rfl
  | a :: b :: rest => by
    rw [unique]
    split_ifs with hab
    · rw [mem_unique, hab]
      simp
    · rw [List.mem_cons, mem_unique, ← List.mem_cons]

theorem mem_dedup {e : OutEdge W} {edges : List (OutEdge W)} :
    e ∈ dedup less edges ↔ e ∈ edges := by
  cases less with
  | none => exact List.mem_eraseDups
  | some less => exact mem_unique.trans List.mem_mergeSort

theorem mem_outEdges_dedupOutEdges {G : AdjacencyList T W} {vtx v : ℕ} {e : OutEdge W} :
    e ∈ (dedupOutEdges less G vtx).outEdges v ↔ e ∈ G.outEdges v := by
  change e ∈ ((G.adj.modify vtx (dedup less))[v]?).getD [] ↔ _
  rw [List.getElem?_modify, outEdges]
  cases G.adj[v]? with
  | none => split_ifs <;> rfl
  | some edges =>
    split_ifs
    · exact mem_dedup
    · rfl

theorem WF.dedupOutEdges {G : AdjacencyList T W} (h : G.WF) (vtx : ℕ) :
    (dedupOutEdges less G vtx).WF := by
  have hsize : (AdjacencyList.dedupOutEdges less G vtx).size = G.size := List.length_modify ..
  refine ⟨h.size_eq.trans hsize.symm, fun he => ?_, fun hv => ?_⟩
  · rw [hsize]
    exact h.target_lt (mem_outEdges_dedupOutEdges.1 he)
  · rw [hsize]
    exact h.root_lt hv

theorem WF.foldl_dedupOutEdges (l : List ℕ) {G : AdjacencyList T W} (h : G.WF) :
    (l.foldl (AdjacencyList.dedupOutEdges less) G).WF := by
  induction l generalizing G with
  | nil => exact h
  | cons vtx l ih => exact ih (h.dedupOutEdges vtx)

/-- Removing duplicates changes nothing in the graph as a relation. -/
theorem toGraph_dedupOutEdges (G : AdjacencyList T W) (vtx : ℕ) :
    (dedupOutEdges less G vtx).toGraph = G.toGraph := by
  have hedge : (dedupOutEdges less G vtx).toGraph.Edge = G.toGraph.Edge := by
    funext v w t
    exact propext mem_outEdges_dedupOutEdges
  exact congrArg (LabelledGraph.mk G.node · fun v => v ∈ G.roots) hedge

theorem toGraph_foldl_dedupOutEdges (l : List ℕ) (G : AdjacencyList T W) :
    (l.foldl (dedupOutEdges less) G).toGraph = G.toGraph := by
  induction l generalizing G with
  | nil => rfl
  | cons vtx l ih => exact (ih _).trans (toGraph_dedupOutEdges G vtx)

end Dedup

end AdjacencyList

end Phasar.Utils
