import Phasar.Lib.LoopRule
import Phasar.Utils.AdjacencyList

/-!
# Reversing a graph

`reverseGraph` turns all edges around. The vertices without edges become roots.

* `reverseGraph`, `reverseGraph_spec`.
-/

namespace Phasar.Utils.AdjacencyList

variable {T W : Type*}

/-- Turn the edges of one vertex around. -/
def reverseEdges (G ret : AdjacencyList T W) (i : ℕ) : Option (AdjacencyList T W) :=
  ((G.outEdges i).foldlM (fun ret child => addEdge ret child.target (child.withEdgeTarget i)) ret).bind
    fun ret => if G.outDegree i = 0 then ret.addRoot i else some ret

def reverseGraph (G : AdjacencyList T W) : Option (AdjacencyList T W) :=
  (List.range G.size).foldlM (reverseEdges G) (G.nodes.foldl addNode empty)

theorem foldl_addNode (l : List T) (G : AdjacencyList T W) :
    (l.foldl addNode G).nodes = G.nodes ++ l ∧ (l.foldl addNode G).size = G.size + l.length ∧
      (l.foldl addNode G).roots = G.roots ∧ ∀ v, (l.foldl addNode G).outEdges v = G.outEdges v := by
  induction l generalizing G with
  | nil => exact ⟨(List.append_nil _).symm, rfl, rfl, fun _ => rfl⟩
  | cons val l ih =>
    obtain ⟨hnodes, hsize, hroots, hedges⟩ := ih (G.addNode val)
    refine ⟨?_, ?_, hroots, fun v => (hedges v).trans outEdges_addNode⟩
    · rw [List.foldl_cons, hnodes, addNode, List.append_assoc]
      rfl
    · rw [List.foldl_cons, hsize, size_addNode, List.length_cons]
      omega

/-- The edges of some vertices are turned around, and those of the vertex `i` in part. -/
structure Turned (G : AdjacencyList T W) (done : ℕ → Prop) (i : ℕ) (edges : List (OutEdge W))
    (ret : AdjacencyList T W) : Prop where
  nodes : ret.nodes = G.nodes
  size : ret.size = G.size
  mem_outEdges : ∀ t s w, ⟨s, w⟩ ∈ ret.outEdges t ↔
    (done s ∧ ⟨t, w⟩ ∈ G.outEdges s) ∨ (s = i ∧ ⟨t, w⟩ ∈ edges)
  mem_roots : ∀ v, v ∈ ret.roots ↔ done v ∧ G.outEdges v = []

variable {G ret : AdjacencyList T W} {i k : ℕ}

theorem Turned.addEdge {done : ℕ → Prop} {edges : List (OutEdge W)} (h : Turned G done i edges ret)
    {e : OutEdge W} (he : e.target < G.size) :
    ∃ ret', ret.addEdge e.target (e.withEdgeTarget i) = some ret' ∧
      Turned G done i (edges ++ [e]) ret' := by
  obtain ⟨ret', hadd⟩ : ∃ ret', ret.addEdge e.target (e.withEdgeTarget i) = some ret' :=
    ⟨_, addEdge_of_lt (h.size ▸ he)⟩
  obtain ⟨hnodes, hroots, hsize, hmem⟩ := addEdge_spec hadd
  refine ⟨_, hadd, hnodes.trans h.nodes, hsize.trans h.size, fun t s w => ?_, fun v => ?_⟩
  · rw [hmem, h.mem_outEdges, List.mem_append, List.mem_singleton]
    obtain ⟨target, weight⟩ := e
    simp only [OutEdge.withEdgeTarget, OutEdge.mk.injEq]
    tauto
  · rw [hroots, h.mem_roots]

theorem Turned.reverseEdges (hwf : G.WF) (h : Turned G (· < i) i [] ret) (hi : i < G.size) :
    ∃ ret', AdjacencyList.reverseEdges G ret i = some ret' ∧
      Turned G (· < i + 1) (i + 1) [] ret' := by
  obtain ⟨ret₁, hret₁, h₁⟩ := LoopRule.foldlM_rule (Turned G (· < i) i) (G.outEdges i)
    (fun done e todo s hl hs => hs.addEdge (hwf.target_lt (v := i) (by rw [hl]; simp))) h
  have hmem : ∀ t s w, ⟨s, w⟩ ∈ ret₁.outEdges t ↔
      (s < i + 1 ∧ ⟨t, w⟩ ∈ G.outEdges s) ∨ (s = i + 1 ∧ (⟨t, w⟩ : OutEdge W) ∈ []) := by
    intro t s w
    rw [h₁.mem_outEdges, Nat.lt_succ_iff_lt_or_eq]
    simp only [List.not_mem_nil, and_false, or_false, or_and_right]
    refine or_congr_right ⟨?_, ?_⟩
    all_goals
      rintro ⟨rfl, he⟩
      exact ⟨rfl, he⟩
  have hroots : ∀ v, v ∈ ret₁.roots ∨ (v = i ∧ G.outEdges i = []) ↔ v < i + 1 ∧ G.outEdges v = [] := by
    intro v
    rw [h₁.mem_roots, Nat.lt_succ_iff_lt_or_eq, or_and_right]
    refine or_congr_right ⟨?_, ?_⟩
    all_goals
      rintro ⟨rfl, he⟩
      exact ⟨rfl, he⟩
  rw [AdjacencyList.reverseEdges, hret₁, Option.bind_some]
  have hdegree : G.outDegree i = 0 ↔ G.outEdges i = [] := List.length_eq_zero_iff
  split_ifs with hzero
  · refine ⟨_, addRoot_of_lt (h₁.size ▸ hi), h₁.nodes, h₁.size, hmem, fun v => ?_⟩
    rw [← hroots, List.mem_append, List.mem_singleton]
    simp only [hdegree.1 hzero, and_true]
  · refine ⟨_, rfl, h₁.nodes, h₁.size, hmem, fun v => ?_⟩
    rw [← hroots]
    exact (or_iff_left fun hv => hzero (hdegree.2 hv.2)).symm

/-- All edges are turned around. -/
theorem reverseGraph_spec (hwf : G.WF) : ∃ ret, G.reverseGraph = some ret ∧ ret.nodes = G.nodes ∧
    (∀ t s w, ⟨s, w⟩ ∈ ret.outEdges t ↔ ⟨t, w⟩ ∈ G.outEdges s) ∧
    ∀ v, v ∈ ret.roots ↔ v < G.size ∧ G.outEdges v = [] := by
  have hlt : ∀ {s : ℕ} {e : OutEdge W}, e ∈ G.outEdges s → s < G.size := by
    intro s e he
    obtain ⟨edges, hs, -⟩ := mem_outEdges_iff.1 he
    exact (List.getElem?_eq_some_iff.1 hs).1
  obtain ⟨hnodes, hsize, hroots, hedges⟩ := foldl_addNode G.nodes (empty : AdjacencyList T W)
  have hstart : Turned G (· < 0) 0 [] (G.nodes.foldl addNode empty) := by
    refine ⟨hnodes, ?_, fun t s w => ?_, fun v => ?_⟩
    · rw [hsize, hwf.size_eq]
      exact Nat.zero_add _
    · rw [hedges]
      simp [empty, outEdges]
    · rw [hroots]
      simp [empty]
  obtain ⟨ret, hret, h⟩ := LoopRule.foldlM_range_rule (AdjacencyList.reverseEdges G)
    (fun k ret => Turned G (· < k) k [] ret) id G.size
    (fun k hk ret hret => hret.reverseEdges hwf hk) hstart
  rw [List.map_id] at hret
  refine ⟨ret, hret, h.nodes, fun t s w => ?_, h.mem_roots⟩
  rw [h.mem_outEdges]
  simp only [List.not_mem_nil, and_false, or_false]
  exact and_iff_right_of_imp hlt

end Phasar.Utils.AdjacencyList
