import Phasar.Lib.GraphLanguage
import Phasar.PathSensitivity.ReverseDAG
import Phasar.Utils.ReverseGraph
import Mathlib.Data.List.Count
import Mathlib.Data.List.Nodup
import Mathlib.Data.List.Perm.Subperm
import Mathlib.Data.Option.Basic
import Mathlib.Data.Prod.Basic

/-!
# What `reverseDAG` builds

The graph that is built has a copy of every vertex within the depth, and the edges from the vertices
below it, turned around.

* `Renumbered`: copies of the vertices in `order`, and of the edges and roots that were visited;
* `Buffers`: the levels that the two buffers hold;
* `levels_spec`: the state after some levels;
* `IsReversal`, `reverseDAG_spec`: the result, and how it compares with `reverseGraph`.
-/

namespace Phasar.PathSensitivityManager

open Utils Utils.AdjacencyList

variable {T W : Type*} [DecidableEq W] (dag : Utils.AdjacencyList T W)

/-! ### The graph that is built -/

/-- The graph has a copy of every vertex in `order`. The edges in `edges`, each with its source, are
turned around, and the vertices in `roots` are roots. -/
structure Renumbered (order : List ℕ) (edges : List (ℕ × OutEdge W)) (roots : List ℕ)
    (st : ReverseState T W) : Prop where
  nodup : order.Nodup
  lt : ∀ v ∈ order, v < dag.size
  cache : ∀ v i, st.cache v = some i ↔ order[i]? = some v
  nodes : st.ret.nodes.map some = order.map dag.node
  size : st.ret.size = order.length
  edge_lt : ∀ i e, e ∈ st.ret.outEdges i → i < order.length ∧ e.target < order.length
  count : ∀ i j t s w, order[i]? = some t → order[j]? = some s →
    (st.ret.outEdges i).count ⟨j, w⟩ = edges.count (s, ⟨t, w⟩)
  edge_mem : ∀ p ∈ edges, p.1 ∈ order ∧ p.2.target ∈ order
  roots : st.ret.roots.map (order[·]?) = roots.map some

variable {dag} {order : List ℕ} {edges : List (ℕ × OutEdge W)} {roots : List ℕ}
  {st st' : ReverseState T W} {v s t i j : ℕ}

theorem getElem?_append_singleton_of_some {α : Type*} {l : List α} {a b : α} {i : ℕ}
    (h : l[i]? = some a) : (l ++ [b])[i]? = some a := by
  rw [List.getElem?_append_left (List.getElem?_eq_some_iff.1 h).1, h]

theorem getElem?_append_singleton_iff {α : Type*} {l : List α} {a b : α} {i : ℕ} :
    (l ++ [b])[i]? = some a ↔ l[i]? = some a ∨ (i = l.length ∧ a = b) := by
  rcases lt_trichotomy i l.length with hlt | rfl | hgt
  · rw [List.getElem?_append_left hlt]
    exact (or_iff_left fun h => absurd h.1 (Nat.ne_of_lt hlt)).symm
  · rw [List.getElem?_concat_length, List.getElem?_eq_none le_rfl]
    simp [eq_comm]
  · rw [List.getElem?_eq_none (by rw [List.length_append]; simp; omega),
      List.getElem?_eq_none (Nat.le_of_lt hgt)]
    simp [Nat.ne_of_gt hgt]

omit [DecidableEq W] in
theorem mem_order_iff_cache (h : ∀ v i, st.cache v = some i ↔ order[i]? = some v) :
    v ∈ order ↔ ∃ i, st.cache v = some i := by
  rw [List.mem_iff_getElem?]
  exact exists_congr fun i => (h v i).symm

theorem Renumbered.addVertex (h : Renumbered dag order edges roots st) (hwf : dag.WF) (hv : v ∉ order)
    (hlt : v < dag.size) : ∃ val, dag.node v = some val ∧
      Renumbered dag (order ++ [v]) edges roots { st with
        ret := st.ret.addNode val
        cache := Function.update st.cache v (some st.ret.size) } := by
  obtain ⟨val, hval⟩ := hwf.node_isSome hlt
  refine ⟨val, hval, ?_, ?_, fun u i => ?_, ?_, ?_, fun i e he => ?_, fun i j t s w ht hs => ?_,
    fun p hp => ?_, ?_⟩
  · exact List.nodup_append.2 ⟨h.nodup, List.nodup_singleton v, fun a ha b hb => by
      rw [List.mem_singleton.1 hb]
      exact fun heq => hv (heq ▸ ha)⟩
  · intro u hu
    rcases List.mem_append.1 hu with hu | hu
    · exact h.lt u hu
    · rwa [List.mem_singleton.1 hu]
  · show Function.update st.cache v (some st.ret.size) u = some i ↔ _
    rw [getElem?_append_singleton_iff]
    by_cases huv : u = v
    · subst huv
      rw [Function.update_self, h.size, Option.some.injEq]
      have hnone : order[i]? ≠ some u := fun hi => hv (List.mem_of_getElem? hi)
      simp only [hnone, false_or, and_true]
      exact eq_comm
    · rw [Function.update_of_ne huv, h.cache]
      exact (or_iff_left fun hi => huv hi.2).symm
  · show (st.ret.nodes ++ [val]).map some = _
    rw [List.map_append, List.map_append, h.nodes, List.map_singleton, List.map_singleton, hval]
  · rw [size_addNode, h.size, List.length_append, List.length_singleton]
  · rw [outEdges_addNode] at he
    obtain ⟨hi, he⟩ := h.edge_lt i e he
    rw [List.length_append, List.length_singleton]
    omega
  · -- the new vertex has no edges yet, in either direction
    have hnotMem : ∀ s w, edges.count (s, (⟨v, w⟩ : OutEdge W)) = 0 ∧
        ∀ t, edges.count (v, (⟨t, w⟩ : OutEdge W)) = 0 := fun s w =>
      ⟨List.count_eq_zero.2 fun hmem => hv (h.edge_mem _ hmem).2, fun t =>
        List.count_eq_zero.2 fun hmem => hv (h.edge_mem _ hmem).1⟩
    rw [outEdges_addNode]
    rcases getElem?_append_singleton_iff.1 ht with ht | ⟨rfl, htv⟩
    · rcases getElem?_append_singleton_iff.1 hs with hs | ⟨rfl, hsv⟩
      · exact h.count i j t s w ht hs
      · rw [hsv, (hnotMem v w).2 t]
        exact List.count_eq_zero.2 fun hmem => absurd (h.edge_lt i _ hmem).2 (lt_irrefl _)
    · rw [htv, (hnotMem s w).1]
      exact List.count_eq_zero.2 fun hmem => absurd (h.edge_lt _ _ hmem).1 (lt_irrefl _)
  · exact ⟨List.mem_append_left _ (h.edge_mem p hp).1, List.mem_append_left _ (h.edge_mem p hp).2⟩
  · show st.ret.roots.map _ = _
    rw [← h.roots]
    refine List.map_congr_left fun r hr => ?_
    have hmem : order[r]? ∈ roots.map some := h.roots ▸ List.mem_map_of_mem hr
    obtain ⟨u, -, hu⟩ := List.mem_map.1 hmem
    rw [← hu]
    exact getElem?_append_singleton_of_some hu.symm

theorem Renumbered.addEdge (h : Renumbered dag order edges roots st) (hs : order[j]? = some s)
    {succ : OutEdge W} (ht : order[i]? = some succ.target) :
    ∃ ret, Utils.AdjacencyList.addEdge st.ret i (succ.withEdgeTarget j) = some ret ∧
      Renumbered dag order (edges ++ [(s, succ)]) roots { st with ret := ret } := by
  have hi : i < order.length := (List.getElem?_eq_some_iff.1 ht).1
  have hj : j < order.length := (List.getElem?_eq_some_iff.1 hs).1
  obtain ⟨ret, hadd⟩ : ∃ ret, st.ret.addEdge i (succ.withEdgeTarget j) = some ret :=
    ⟨_, addEdge_of_lt (h.size ▸ hi)⟩
  obtain ⟨hnodes, hroots, hsize, hmem⟩ := addEdge_spec hadd
  refine ⟨_, hadd, h.nodup, h.lt, h.cache, ?_, ?_, fun i' e he => ?_, fun i' j' t' s' w ht' hs' => ?_,
    fun p hp => ?_, ?_⟩
  · show List.map some (Utils.AdjacencyList.nodes _) = _
    rw [hnodes, h.nodes]
  · exact hsize.trans h.size
  · rcases (hmem i' e).1 he with he | ⟨rfl, rfl⟩
    · exact h.edge_lt i' e he
    · exact ⟨hi, hj⟩
  · show (Utils.AdjacencyList.outEdges _ i').count _ = _
    rw [outEdges_addEdge hadd, List.count_append, ← h.count i' j' t' s' w ht' hs']
    have hinj : ∀ {a b : ℕ} {u u' : ℕ}, order[a]? = some u → order[b]? = some u' → (a = b ↔ u = u') := by
      intro a b u u' ha hb
      constructor
      · rintro rfl
        exact Option.some.inj (ha.symm.trans hb)
      · rintro rfl
        exact (List.getElem?_inj (List.getElem?_eq_some_iff.1 ha).1 h.nodup).1 (ha.trans hb.symm)
    obtain ⟨target, weight⟩ := succ
    have hsucc : ((s, (⟨target, weight⟩ : OutEdge W)) = (s', ⟨t', w⟩)) ↔
        i' = i ∧ (⟨j, weight⟩ : OutEdge W) = ⟨j', w⟩ := by
      rw [hinj ht' ht, Prod.mk.injEq, OutEdge.mk.injEq, OutEdge.mk.injEq, hinj hs hs']
      exact ⟨fun ⟨h₁, h₂, h₃⟩ => ⟨h₂.symm, h₁, h₃⟩, fun ⟨h₁, h₂, h₃⟩ => ⟨h₂, h₁.symm, h₃⟩⟩
    rw [List.count_singleton]
    by_cases hi' : i' = i
    · rw [if_pos hi', List.count_append, List.count_singleton]
      congr 1
      simp only [beq_iff_eq, hsucc, hi', true_and, OutEdge.withEdgeTarget]
    · rw [if_neg hi']
      simp only [beq_iff_eq, hsucc, hi', false_and, if_false, Nat.add_zero]
  · rcases List.mem_append.1 hp with hp | hp
    · exact h.edge_mem p hp
    · rw [List.mem_singleton.1 hp]
      exact ⟨List.mem_of_getElem? hs, List.mem_of_getElem? ht⟩
  · show List.map _ (Utils.AdjacencyList.roots _) = _
    rw [hroots, h.roots]

theorem Renumbered.setRoot (h : Renumbered dag order edges roots st) (hv : order[i]? = some v) :
    ∃ ret, st.ret.addRoot i = some ret ∧
      Renumbered dag order edges (roots ++ [v]) { st with ret := ret } := by
  have hi : i < order.length := (List.getElem?_eq_some_iff.1 hv).1
  refine ⟨_, addRoot_of_lt (h.size ▸ hi), h.nodup, h.lt, h.cache, h.nodes, h.size, h.edge_lt, h.count,
    h.edge_mem, ?_⟩
  show (st.ret.roots ++ [i]).map _ = _
  rw [List.map_append, h.roots, List.map_append, List.map_singleton, List.map_singleton, hv]

/-! ### The buffers -/

/-- One half of the memory holds the level `consumed`, the other half the level `inserted` so far. -/
structure Buffers (n : ℕ) (consumed inserted : List (ℕ × ℕ)) (st : ReverseState T W) : Prop where
  halves : (st.wlConsumeBegin = 0 ∧ st.wlInsertBegin = n) ∨
    (st.wlConsumeBegin = n ∧ st.wlInsertBegin = 0)
  consumeEnd : st.wlConsumeEnd = st.wlConsumeBegin + consumed.length
  insertEnd : st.wlInsertEnd = st.wlInsertBegin + inserted.length
  consume_le : consumed.length ≤ n
  insert_le : inserted.length ≤ n
  consume : ∀ k p, consumed[k]? = some p → st.buf (st.wlConsumeBegin + k) = p
  insert : ∀ k p, inserted[k]? = some p → st.buf (st.wlInsertBegin + k) = p

variable {consumed inserted : List (ℕ × ℕ)} {p : ℕ × ℕ}

omit [DecidableEq W] in
theorem Buffers.congr {n : ℕ} (h : Buffers n consumed inserted st) (ret : Utils.AdjacencyList T W)
    (cache : ℕ → Option ℕ) : Buffers n consumed inserted { st with
      ret := ret
      cache := cache } :=
  ⟨h.halves, h.consumeEnd, h.insertEnd, h.consume_le, h.insert_le, h.consume, h.insert⟩

omit [DecidableEq W] in
theorem Buffers.swap {n : ℕ} (h : Buffers n consumed inserted st) : Buffers n inserted [] st.swap where
  halves := h.halves.symm.imp And.symm And.symm
  consumeEnd := h.insertEnd
  insertEnd := rfl
  consume_le := h.insert_le
  insert_le := Nat.zero_le n
  consume := h.insert
  insert _ _ hk := absurd hk (by simp)

omit [DecidableEq W] in
theorem Buffers.pushInsert (h : Buffers dag.size consumed inserted st) (hlt : inserted.length < dag.size)
    (p : ℕ × ℕ) : ∃ st', PathSensitivityManager.pushInsert dag p st = some st' ∧ st'.ret = st.ret ∧
      st'.cache = st.cache ∧ st'.wlConsumeBegin = st.wlConsumeBegin ∧
      Buffers dag.size consumed (inserted ++ [p]) st' := by
  have hconsume := h.consume_le
  have hend := h.insertEnd
  have hfree : st.wlInsertEnd < 2 * dag.size := by
    rcases h.halves with ⟨-, hbegin⟩ | ⟨-, hbegin⟩ <;> omega
  refine ⟨_, if_pos hfree, rfl, rfl, rfl, h.halves, h.consumeEnd, ?_, hconsume, ?_, fun k p' hk => ?_,
    fun k p' hk => ?_⟩
  · show st.wlInsertEnd + 1 = _
    rw [hend, List.length_append, List.length_singleton, Nat.add_assoc]
  · rw [List.length_append, List.length_singleton]
    omega
  · -- the entry written is in the other half
    have hk' := (List.getElem?_eq_some_iff.1 hk).1
    have hne : st.wlConsumeBegin + k ≠ st.wlInsertEnd := by
      rcases h.halves with ⟨hbegin, hbegin'⟩ | ⟨hbegin, hbegin'⟩ <;> omega
    show Function.update st.buf _ p _ = p'
    rw [Function.update_of_ne hne, h.consume k p' hk]
  · show Function.update st.buf _ p (st.wlInsertBegin + k) = p'
    rcases getElem?_append_singleton_iff.1 hk with hk | ⟨rfl, rfl⟩
    · have hk' := (List.getElem?_eq_some_iff.1 hk).1
      rw [Function.update_of_ne (by omega), h.insert k p' hk]
    · rw [← hend, Function.update_self]

omit [DecidableEq W] in
theorem Buffers.pushConsume (h : Buffers dag.size consumed [] st) (hlt : consumed.length < dag.size)
    (p : ℕ × ℕ) : ∃ st', PathSensitivityManager.pushConsume dag p st = some st' ∧ st'.ret = st.ret ∧
      st'.cache = st.cache ∧ Buffers dag.size (consumed ++ [p]) [] st' := by
  have hend := h.consumeEnd
  have hfree : st.wlConsumeEnd < 2 * dag.size := by
    rcases h.halves with ⟨hbegin, -⟩ | ⟨hbegin, -⟩ <;> omega
  refine ⟨_, if_pos hfree, rfl, rfl, h.halves, ?_, h.insertEnd, ?_, h.insert_le, fun k p' hk => ?_,
    fun k p' hk => absurd hk (by simp)⟩
  · show st.wlConsumeEnd + 1 = _
    rw [hend, List.length_append, List.length_singleton, Nat.add_assoc]
  · rw [List.length_append, List.length_singleton]
    omega
  · show Function.update st.buf _ p (st.wlConsumeBegin + k) = p'
    rcases getElem?_append_singleton_iff.1 hk with hk | ⟨rfl, rfl⟩
    · have hk' := (List.getElem?_eq_some_iff.1 hk).1
      rw [Function.update_of_ne (by omega), h.consume k p' hk]
    · rw [← hend, Function.update_self]

/-! ### One level -/

/-- The copies are in the graph, and the levels in the buffers, each entry with its copy. -/
structure Invariant (dag : Utils.AdjacencyList T W) (order : List ℕ) (edges : List (ℕ × OutEdge W))
    (roots : List ℕ) (consumed inserted : List (ℕ × ℕ)) (st : ReverseState T W) : Prop where
  renumbered : Renumbered dag order edges roots st
  buffers : Buffers dag.size consumed inserted st
  copies : ∀ p ∈ consumed ++ inserted, order[p.2]? = some p.1
  nodup : (inserted.map Prod.fst).Nodup

theorem Renumbered.congr (h : Renumbered dag order edges roots st) (hret : st'.ret = st.ret)
    (hcache : st'.cache = st.cache) : Renumbered dag order edges roots st' := by
  refine ⟨h.nodup, h.lt, ?_, ?_, ?_, ?_, ?_, h.edge_mem, ?_⟩
  · rw [hcache]
    exact h.cache
  all_goals rw [hret]
  · exact h.nodes
  · exact h.size
  · exact h.edge_lt
  · exact h.count
  · exact h.roots

/-- Fewer vertices than there are have been inserted, if one is new. -/
theorem length_lt_of_notMem {l order : List ℕ} {n v : ℕ} (hnodup : l.Nodup) (hsub : ∀ u ∈ l, u ∈ order)
    (hlt : ∀ u ∈ order, u < n) (hv : v ∉ order) (hvn : v < n) : l.length < n := by
  have hcons : (v :: l).Nodup := List.nodup_cons.2 ⟨fun hmem => hv (hsub v hmem), hnodup⟩
  have hsubset : v :: l ⊆ List.range n := by
    intro u hu
    rcases List.mem_cons.1 hu with rfl | hu
    · exact List.mem_range.2 hvn
    · exact List.mem_range.2 (hlt u (hsub u hu))
  have hle := (List.subperm_of_subset hcons hsubset).length_le
  rwa [List.length_cons, List.length_range] at hle

theorem Invariant.mem_order (h : Invariant dag order edges roots consumed inserted st)
    (hp : p ∈ consumed ++ inserted) : p.1 ∈ order := List.mem_of_getElem? (h.copies p hp)

/-- The edge `succ` of `s` has been visited: its target has a copy, and is in the next level if it is
new. -/
structure Visited (order order' : List ℕ) (inserted inserted' : List (ℕ × ℕ)) (targets : List ℕ) :
    Prop where
  extends_order : order <+: order'
  mem_order : ∀ v, v ∈ order' ↔ v ∈ order ∨ v ∈ targets
  mem_inserted : ∀ v, v ∈ inserted'.map Prod.fst ↔
    v ∈ inserted.map Prod.fst ∨ (v ∉ order ∧ v ∈ targets)

theorem Visited.trans {order' order'' : List ℕ} {inserted' inserted'' : List (ℕ × ℕ)}
    {targets targets' : List ℕ} (h : Visited order order' inserted inserted' targets)
    (h' : Visited order' order'' inserted' inserted'' targets') :
    Visited order order'' inserted inserted'' (targets ++ targets') where
  extends_order := h.extends_order.trans h'.extends_order
  mem_order v := by rw [h'.mem_order, h.mem_order, List.mem_append, or_assoc]
  mem_inserted v := by
    rw [h'.mem_inserted, h.mem_inserted, h.mem_order, List.mem_append]
    tauto

theorem visited_nil : Visited order order inserted inserted [] where
  extends_order := List.prefix_rfl
  mem_order v := by simp
  mem_inserted v := by simp

theorem getElem?_of_extends {l m : List ℕ} (h : l <+: m) {i a : ℕ} (hi : l[i]? = some a) :
    m[i]? = some a := by
  obtain ⟨rest, rfl⟩ := h
  rw [List.getElem?_append_left (List.getElem?_eq_some_iff.1 hi).1, hi]

theorem visitSucc_spec (hwf : dag.WF) (h : Invariant dag order edges roots consumed inserted st)
    (hs : order[j]? = some s) {succ : OutEdge W} (hsucc : succ.target < dag.size) :
    ∃ order' inserted' st', visitSucc dag j st succ = some st' ∧
      Invariant dag order' (edges ++ [(s, succ)]) roots consumed inserted' st' ∧
      Visited order order' inserted inserted' [succ.target] ∧
      st'.wlConsumeBegin = st.wlConsumeBegin := by
  cases hcache : st.cache succ.target with
  | some i =>
    -- the successor has its copy, and only gets an edge
    have hi := (h.renumbered.cache _ _).1 hcache
    have hmem : succ.target ∈ order := List.mem_of_getElem? hi
    obtain ⟨ret, hret, hren⟩ := h.renumbered.addEdge hs hi
    refine ⟨order, inserted, { st with ret := ret }, ?_,
      ⟨hren, h.buffers.congr ret st.cache, h.copies, h.nodup⟩, ⟨List.prefix_rfl, fun v => ?_, fun v => ?_⟩,
      rfl⟩
    · unfold visitSucc
      rw [hcache]
      dsimp only
      rw [Option.bind_some, hcache, Option.bind_some, hret]
      rfl
    · rw [List.mem_singleton]
      exact (or_iff_left_of_imp fun heq => heq ▸ hmem).symm
    · rw [List.mem_singleton]
      exact (or_iff_left fun hv => hv.1 (hv.2 ▸ hmem)).symm
  | none =>
    have hnew : succ.target ∉ order := fun hmem => by
      obtain ⟨i, hi⟩ := (mem_order_iff_cache h.renumbered.cache).1 hmem
      cases hcache.symm.trans hi
    obtain ⟨val, hval, hren⟩ := h.renumbered.addVertex hwf hnew hsucc
    -- a new copy is pushed once, so the buffer is large enough
    have hlt : inserted.length < dag.size := by
      rw [← List.length_map Prod.fst]
      refine length_lt_of_notMem h.nodup (fun u hu => ?_) h.renumbered.lt hnew hsucc
      obtain ⟨p, hp, rfl⟩ := List.mem_map.1 hu
      exact h.mem_order (List.mem_append_right _ hp)
    have hbuffers := h.buffers.congr (st.ret.addNode val)
      (Function.update st.cache succ.target (some st.ret.size))
    obtain ⟨st₁, hst₁, hret₁, hcache₁, hbegin₁, hbuffers₁⟩ :=
      hbuffers.pushInsert hlt (succ.target, st.ret.size)
    have hren₁ := hren.congr hret₁ hcache₁
    have hself : (order ++ [succ.target])[st.ret.size]? = some succ.target := by
      rw [h.renumbered.size, List.getElem?_concat_length]
    obtain ⟨ret, hret, hren₂⟩ := hren₁.addEdge (getElem?_append_singleton_of_some hs) hself
    refine ⟨order ++ [succ.target], inserted ++ [(succ.target, st.ret.size)], { st₁ with ret := ret },
      ?_, ⟨hren₂, hbuffers₁.congr ret st₁.cache, fun p hp => ?_, ?_⟩, ⟨List.prefix_append _ _,
      fun v => ?_, fun v => ?_⟩, hbegin₁⟩
    · have hcopy : st₁.cache succ.target = some st.ret.size := (hren₁.cache _ _).2 hself
      unfold visitSucc addVertex
      rw [hcache]
      dsimp only
      rw [hval, Option.map_some, Option.bind_some, hst₁, Option.bind_some, hcopy, Option.bind_some, hret]
      rfl
    · rw [← List.append_assoc] at hp
      rcases List.mem_append.1 hp with hp | hp
      · exact getElem?_append_singleton_of_some (h.copies p hp)
      · rw [List.mem_singleton.1 hp]
        exact hself
    · rw [List.map_append, List.map_singleton]
      refine List.nodup_append.2 ⟨h.nodup, List.nodup_singleton _, fun a ha b hb => ?_⟩
      obtain ⟨p, hp, rfl⟩ := List.mem_map.1 ha
      rw [List.mem_singleton.1 hb]
      intro heq
      have hmem := h.mem_order (List.mem_append_right consumed hp)
      rw [show p.1 = succ.target from heq] at hmem
      exact hnew hmem
    · rw [List.mem_append]
    · rw [List.map_append, List.mem_append, List.map_singleton, List.mem_singleton]
      exact or_congr_right ⟨fun hv => ⟨hv ▸ hnew, hv⟩, fun hv => hv.2⟩

/-- The edges of a vertex, in their order. -/
theorem foldlM_visitSucc (hwf : dag.WF) (h : Invariant dag order edges roots consumed inserted st)
    (hs : order[j]? = some s) (l : List (OutEdge W)) (hl : ∀ e ∈ l, e.target < dag.size) :
    ∃ order' inserted' st', l.foldlM (visitSucc dag j) st = some st' ∧
      Invariant dag order' (edges ++ l.map (Prod.mk s)) roots consumed inserted' st' ∧
      Visited order order' inserted inserted' (l.map OutEdge.target) ∧
      st'.wlConsumeBegin = st.wlConsumeBegin := by
  obtain ⟨st', hst', order', inserted', h'⟩ := LoopRule.foldlM_rule
    (fun done st₁ => ∃ order₁ inserted₁,
      Invariant dag order₁ (edges ++ done.map (Prod.mk s)) roots consumed inserted₁ st₁ ∧
      Visited order order₁ inserted inserted₁ (done.map OutEdge.target) ∧
      st₁.wlConsumeBegin = st.wlConsumeBegin) l
    (fun done e todo st₁ hdone h₁ => by
      obtain ⟨order₁, inserted₁, hinv₁, hvisited₁, hbegin₁⟩ := h₁
      have he : e ∈ l := hdone ▸ List.mem_append_right done List.mem_cons_self
      obtain ⟨order₂, inserted₂, st₂, hst₂, hinv₂, hvisited₂, hbegin₂⟩ :=
        visitSucc_spec hwf hinv₁ (getElem?_of_extends hvisited₁.extends_order hs) (hl e he)
      refine ⟨st₂, hst₂, order₂, inserted₂, ?_, ?_, hbegin₂.trans hbegin₁⟩
      · rwa [List.map_append, ← List.append_assoc]
      · rw [List.map_append]
        exact hvisited₁.trans hvisited₂)
    ⟨order, inserted, by rwa [List.map_nil, List.append_nil], visited_nil, rfl⟩
  exact ⟨order', inserted', st', hst', h'⟩

variable (dag) in
/-- The edges of some vertices, each with its source. -/
def edgesOf (C : List ℕ) : List (ℕ × OutEdge W) := C.flatMap fun v => (dag.outEdges v).map (Prod.mk v)

variable (dag) in
/-- Those of some vertices that have no edges. -/
def sinksOf (C : List ℕ) : List ℕ := C.filter (dag.outDegree · = 0)

variable (dag) in
def targetsOf (C : List ℕ) : List ℕ := C.flatMap fun v => (dag.outEdges v).map OutEdge.target

theorem Invariant.setRoot (h : Invariant dag order edges roots consumed inserted st)
    (hv : order[i]? = some v) : ∃ st', PathSensitivityManager.setRoot i st = some st' ∧
      Invariant dag order edges (roots ++ [v]) consumed inserted st' ∧
      st'.wlConsumeBegin = st.wlConsumeBegin := by
  obtain ⟨ret, hret, hren⟩ := h.renumbered.setRoot hv
  refine ⟨{ st with ret := ret }, ?_, ⟨hren, h.buffers.congr ret st.cache, h.copies, h.nodup⟩, rfl⟩
  rw [PathSensitivityManager.setRoot, hret]
  rfl

/-- One entry of the level is consumed. -/
theorem consume_spec (hwf : dag.WF) {C : List ℕ}
    (h : Invariant dag order (edgesOf dag C) (sinksOf dag C) consumed inserted st) {k : ℕ}
    (hk : consumed[k]? = some p) :
    ∃ order' inserted' st', consume dag st (st.wlConsumeBegin + k) = some st' ∧
      Invariant dag order' (edgesOf dag (C ++ [p.1])) (sinksOf dag (C ++ [p.1])) consumed inserted' st' ∧
      Visited order order' inserted inserted' (targetsOf dag [p.1]) ∧
      st'.wlConsumeBegin = st.wlConsumeBegin := by
  have hp : order[p.2]? = some p.1 := h.copies p (List.mem_append_left _ (List.mem_of_getElem? hk))
  obtain ⟨order', inserted', st', hst', hinv, hvisited, hbegin⟩ :=
    foldlM_visitSucc hwf h hp (dag.outEdges p.1) fun e he => hwf.target_lt he
  have hedges : edgesOf dag (C ++ [p.1]) = edgesOf dag C ++ (dag.outEdges p.1).map (Prod.mk p.1) := by
    rw [edgesOf, List.flatMap_append, List.flatMap_singleton]
    rfl
  have htargets : targetsOf dag [p.1] = (dag.outEdges p.1).map OutEdge.target :=
    List.flatMap_singleton _ _
  rw [consume, h.buffers.consume k p hk, hst', Option.bind_some, hedges, htargets, sinksOf,
    List.filter_append]
  by_cases hzero : dag.outDegree p.1 = 0
  · obtain ⟨st₁, hst₁, hinv₁, hbegin₁⟩ := hinv.setRoot (getElem?_of_extends hvisited.extends_order hp)
    refine ⟨order', inserted', st₁, ?_, ?_, hvisited, hbegin₁.trans hbegin⟩
    · rw [if_pos hzero, hst₁]
    · rwa [List.filter_singleton, decide_eq_true hzero, cond_true]
  · refine ⟨order', inserted', st', if_neg hzero, ?_, hvisited, hbegin⟩
    rwa [List.filter_singleton, decide_eq_false hzero, cond_false, List.append_nil]

/-- Before the level `d`: what is below it has been consumed, and the level is in the buffer. -/
structure AtLevel (dag : Utils.AdjacencyList T W) (d : ℕ) (order C : List ℕ) (L : List (ℕ × ℕ))
    (st : ReverseState T W) : Prop where
  invariant : Invariant dag order (edgesOf dag C) (sinksOf dag C) L [] st
  nodup_level : (L.map Prod.fst).Nodup
  nodup : C.Nodup
  mem_order : ∀ v, v ∈ order ↔ Within dag d v
  mem_level : ∀ v, v ∈ L.map Prod.fst ↔ AtDistance dag d v
  mem_consumed : ∀ v, v ∈ C ↔ Below dag d v

omit [DecidableEq W] in
theorem mem_targetsOf {C : List ℕ} : v ∈ targetsOf dag C ↔ ∃ u ∈ C, ∃ e ∈ dag.outEdges u, e.target = v := by
  simp only [targetsOf, List.mem_flatMap, List.mem_map]

omit [DecidableEq W] in
theorem Buffers.length_eq {n : ℕ} (h : Buffers n consumed inserted st) :
    st.wlConsumeEnd - st.wlConsumeBegin = consumed.length := by
  rw [h.consumeEnd, Nat.add_sub_cancel_left]

omit [DecidableEq W] in
theorem Buffers.positions_eq {n : ℕ} (h : Buffers n consumed inserted st) :
    st.positions = (List.range consumed.length).map (st.wlConsumeBegin + ·) := by
  rw [ReverseState.positions, h.length_eq]

variable {d maxDepth : ℕ} {C : List ℕ} {L : List (ℕ × ℕ)}

/-- The loop over one level. -/
theorem AtLevel.step (hwf : dag.WF) (h : AtLevel dag d order C L st) :
    ∃ order' L' st', st.positions.foldlM (consume dag) st = some st' ∧
      AtLevel dag (d + 1) order' (C ++ L.map Prod.fst) L' st'.swap := by
  obtain ⟨st', hst', order', L', hinv, hvisited, -⟩ := LoopRule.foldlM_range_rule (consume dag)
    (fun k st₁ => ∃ order₁ L₁,
      Invariant dag order₁ (edgesOf dag (C ++ (L.take k).map Prod.fst))
        (sinksOf dag (C ++ (L.take k).map Prod.fst)) L L₁ st₁ ∧
      Visited order order₁ [] L₁ (targetsOf dag ((L.take k).map Prod.fst)) ∧
      st₁.wlConsumeBegin = st.wlConsumeBegin) (st.wlConsumeBegin + ·) L.length
    (fun k hk st₁ h₁ => by
      obtain ⟨order₁, L₁, hinv₁, hvisited₁, hbegin₁⟩ := h₁
      obtain ⟨order₂, L₂, st₂, hst₂, hinv₂, hvisited₂, hbegin₂⟩ :=
        consume_spec hwf hinv₁ (List.getElem?_eq_getElem hk)
      have htake : (L.take (k + 1)).map Prod.fst = (L.take k).map Prod.fst ++ [L[k].1] := by
        rw [List.take_succ_eq_append_getElem hk, List.map_append, List.map_singleton]
      refine ⟨st₂, hbegin₁ ▸ hst₂, order₂, L₂, ?_, ?_, hbegin₂.trans hbegin₁⟩
      · rwa [htake, ← List.append_assoc]
      · rw [htake, targetsOf, List.flatMap_append]
        exact hvisited₁.trans hvisited₂)
    ⟨order, [], by simpa using h.invariant, by simpa [targetsOf] using visited_nil, rfl⟩
  rw [← h.invariant.buffers.positions_eq] at hst'
  rw [List.take_length] at hinv hvisited
  have htargets : ∀ v, v ∈ targetsOf dag (L.map Prod.fst) ↔
      ∃ u, AtDistance dag d u ∧ ∃ e ∈ dag.outEdges u, e.target = v := by
    intro v
    rw [mem_targetsOf]
    exact exists_congr fun u => and_congr_left fun _ => h.mem_level u
  have horder : ∀ v, v ∈ order' ↔ Within dag (d + 1) v := by
    intro v
    rw [hvisited.mem_order, h.mem_order, htargets, within_succ_iff]
  refine ⟨order', L', st', hst', ⟨hinv.renumbered.congr rfl rfl, hinv.buffers.swap, fun p hp => ?_,
    List.nodup_nil⟩, hinv.nodup, ?_, horder, fun v => ?_, fun v => ?_⟩
  · rw [List.append_nil] at hp
    exact hinv.copies p (List.mem_append_right L hp)
  · refine List.nodup_append.2 ⟨h.nodup, h.nodup_level, fun a ha b hb => ?_⟩
    rintro rfl
    exact ((h.mem_level a).1 hb).2 ((h.mem_consumed a).1 ha)
  · rw [hvisited.mem_inserted, atDistance_iff, ← horder, hvisited.mem_order, below_succ_iff,
      ← h.mem_order]
    simp only [List.map_nil, List.not_mem_nil, false_or]
    tauto
  · rw [List.mem_append, h.mem_consumed, h.mem_level, below_succ_iff, within_iff]

/-- Behind an empty level there is nothing. -/
theorem AtLevel.of_empty (h : AtLevel dag d order C [] st) (n : ℕ) :
    AtLevel dag (d + n) order C [] st := by
  have hempty : ∀ v, ¬AtDistance dag d v := fun v hv => absurd ((h.mem_level v).2 hv) (by simp)
  have hbelow : ∀ v, Below dag (d + n) v ↔ Below dag d v := by
    intro v
    constructor
    · rintro ⟨k, -, hk⟩
      exact below_of_empty hempty hk
    · rintro ⟨k, hk, hsteps⟩
      exact ⟨k, Nat.lt_of_lt_of_le hk (Nat.le_add_right d n), hsteps⟩
  have hdistance : ∀ v, ¬AtDistance dag (d + n) v := fun v hv =>
    hv.2 ((hbelow v).2 (below_of_empty hempty hv.1))
  refine ⟨h.invariant, h.nodup_level, h.nodup, fun v => ?_, fun v => ?_, fun v => ?_⟩
  · rw [h.mem_order, within_iff, within_iff, hbelow]
    exact or_congr_right (iff_of_false (hempty v) (hdistance v))
  · exact iff_of_false (by simp) (hdistance v)
  · rw [h.mem_consumed, hbelow]

theorem levels_spec (hwf : dag.WF) (left : ℕ) (h : AtLevel dag d order C L st) :
    ∃ order' C' L' st', levels dag left st = some st' ∧ AtLevel dag (d + left) order' C' L' st' := by
  induction left generalizing d order C L st with
  | zero => exact ⟨order, C, L, st, rfl, h⟩
  | succ left ih =>
    by_cases hempty : st.wlConsumeBegin = st.wlConsumeEnd
    · have hL : L = [] := by
        have hlength := h.invariant.buffers.length_eq
        rw [hempty, Nat.sub_self] at hlength
        exact List.length_eq_zero_iff.1 hlength.symm
      subst hL
      exact ⟨order, C, [], st, if_pos hempty, h.of_empty (left + 1)⟩
    · obtain ⟨order₁, L₁, st₁, hst₁, h₁⟩ := h.step hwf
      obtain ⟨order', C', L', st', hst', h'⟩ := ih h₁
      refine ⟨order', C', L', st', ?_, by rwa [Nat.add_assoc, Nat.add_comm 1] at h'⟩
      rw [levels, if_neg hempty, hst₁]
      exact hst'

/-! ### The roots -/

theorem visitRoot_spec (hwf : dag.WF) (h : Invariant dag (L.map Prod.fst) [] [] L [] st)
    (hv : v < dag.size) : ∃ L' st', visitRoot dag st v = some st' ∧
      Invariant dag (L'.map Prod.fst) [] [] L' [] st' ∧
      ∀ u, u ∈ L'.map Prod.fst ↔ u ∈ L.map Prod.fst ∨ u = v := by
  cases hcache : st.cache v with
  | some i =>
    have hmem : v ∈ L.map Prod.fst := List.mem_of_getElem? ((h.renumbered.cache _ _).1 hcache)
    refine ⟨L, st, ?_, h, fun u => (or_iff_left_of_imp fun hu => hu ▸ hmem).symm⟩
    unfold visitRoot
    rw [hcache]
  | none =>
    have hnew : v ∉ L.map Prod.fst := fun hmem => by
      obtain ⟨i, hi⟩ := (mem_order_iff_cache h.renumbered.cache).1 hmem
      cases hcache.symm.trans hi
    obtain ⟨val, hval, hren⟩ := h.renumbered.addVertex hwf hnew hv
    have hlt : L.length < dag.size := by
      rw [← List.length_map Prod.fst]
      exact length_lt_of_notMem h.renumbered.nodup (fun u hu => hu) h.renumbered.lt hnew hv
    have hbuffers := h.buffers.congr (st.ret.addNode val)
      (Function.update st.cache v (some st.ret.size))
    obtain ⟨st₁, hst₁, hret₁, hcache₁, hbuffers₁⟩ := hbuffers.pushConsume hlt (v, st.ret.size)
    have horder : (L ++ [(v, st.ret.size)]).map Prod.fst = L.map Prod.fst ++ [v] := by
      rw [List.map_append, List.map_singleton]
    refine ⟨L ++ [(v, st.ret.size)], st₁, ?_, ⟨?_, hbuffers₁, fun p hp => ?_, List.nodup_nil⟩,
      fun u => ?_⟩
    · unfold visitRoot addVertex
      rw [hcache]
      dsimp only
      rw [hval, Option.map_some, Option.bind_some, hst₁]
    · rw [horder]
      exact hren.congr hret₁ hcache₁
    · rw [horder]
      rw [List.append_nil] at hp
      rcases List.mem_append.1 hp with hp | hp
      · exact getElem?_append_singleton_of_some (h.copies p (List.mem_append_left _ hp))
      · rw [List.mem_singleton.1 hp, h.renumbered.size, List.getElem?_concat_length]
    · rw [horder, List.mem_append, List.mem_singleton]

theorem invariant_init : Invariant dag [] [] [] [] [] (.init dag) where
  renumbered :=
    { nodup := List.nodup_nil
      lt := fun v hv => absurd hv (by simp)
      cache := fun v i => by simp [ReverseState.init]
      nodes := rfl
      size := rfl
      edge_lt := fun i e he => absurd he (by simp [ReverseState.init, empty, outEdges])
      count := fun i j t s w ht => absurd ht (by simp)
      edge_mem := fun p hp => absurd hp (by simp)
      roots := rfl }
  buffers :=
    { halves := Or.inl ⟨rfl, rfl⟩
      consumeEnd := rfl
      insertEnd := rfl
      consume_le := Nat.zero_le _
      insert_le := Nat.zero_le _
      consume := fun k p hk => absurd hk (by simp)
      insert := fun k p hk => absurd hk (by simp) }
  copies := fun p hp => absurd hp (by simp)
  nodup := List.nodup_nil

/-- The roots are the first level. -/
theorem atLevel_roots (hwf : dag.WF) : ∃ order L st,
    dag.roots.foldlM (visitRoot dag) (.init dag) = some st ∧ AtLevel dag 0 order [] L st := by
  obtain ⟨st, hst, L, hinv, hmem⟩ := LoopRule.foldlM_rule
    (fun done st => ∃ L, Invariant dag (L.map Prod.fst) [] [] L [] st ∧ ∀ u, u ∈ L.map Prod.fst ↔ u ∈ done)
    dag.roots
    (fun done rt todo st₁ hdone h₁ => by
      obtain ⟨L₁, hinv₁, hmem₁⟩ := h₁
      have hrt : rt ∈ dag.roots := hdone ▸ List.mem_append_right done List.mem_cons_self
      obtain ⟨L₂, st₂, hst₂, hinv₂, hmem₂⟩ := visitRoot_spec hwf hinv₁ (hwf.root_lt hrt)
      refine ⟨st₂, hst₂, L₂, hinv₂, fun u => ?_⟩
      rw [hmem₂, hmem₁, List.mem_append, List.mem_singleton])
    ⟨[], invariant_init, fun u => Iff.rfl⟩
  have hbelow : ∀ v, ¬Below dag 0 v := by
    rintro v ⟨k, hk, -⟩
    exact Nat.not_lt_zero k hk
  refine ⟨L.map Prod.fst, L, st, hst, hinv, hinv.renumbered.nodup, List.nodup_nil, fun v => ?_,
    fun v => ?_, fun v => iff_of_false (by simp) (hbelow v)⟩
  · rw [hmem, within_iff]
    exact ⟨fun hv => Or.inr ⟨hv, hbelow v⟩, fun hv => (hv.resolve_left (hbelow v)).1⟩
  · rw [hmem]
    exact ⟨fun hv => ⟨hv, hbelow v⟩, fun hv => hv.1⟩

/-- What was cut off has become a root. -/
theorem cutOff_spec (h : AtLevel dag d order C L st) : ∃ st', cutOff st = some st' ∧
    Renumbered dag order (edgesOf dag C) (sinksOf dag C ++ L.map Prod.fst) st' := by
  obtain ⟨st', hst', hinv, -⟩ := LoopRule.foldlM_range_rule (fun st i => setRoot (st.buf i).2 st)
    (fun k st₁ => Invariant dag order (edgesOf dag C) (sinksOf dag C ++ (L.take k).map Prod.fst) L [] st₁ ∧
      st₁.wlConsumeBegin = st.wlConsumeBegin) (st.wlConsumeBegin + ·) L.length
    (fun k hk st₁ h₁ => by
      obtain ⟨hinv₁, hbegin₁⟩ := h₁
      have hk' := List.getElem?_eq_getElem hk
      have hcopy := hinv₁.copies L[k] (List.mem_append_left _ (List.getElem_mem hk))
      obtain ⟨st₂, hst₂, hinv₂, hbegin₂⟩ := hinv₁.setRoot hcopy
      refine ⟨st₂, ?_, ?_, hbegin₂.trans hbegin₁⟩
      · rw [← hbegin₁, hinv₁.buffers.consume k _ hk', hst₂]
      · rwa [List.take_succ_eq_append_getElem hk, List.map_append, List.map_singleton,
          ← List.append_assoc])
    ⟨by simpa using h.invariant, rfl⟩
  rw [← h.invariant.buffers.positions_eq] at hst'
  rw [List.take_length] at hinv
  exact ⟨st', hst', hinv.renumbered⟩

/-! ### The result -/

/-- The graph turned around up to a depth. Its vertex `i` is a copy of the `i`-th vertex in `order`;
vertices that have been cut off have no edges to them, and are roots. -/
structure IsReversal (dag : Utils.AdjacencyList T W) (maxDepth : ℕ) (order : List ℕ) (ret : Utils.AdjacencyList T W) :
    Prop where
  nodup : order.Nodup
  mem_order : ∀ v, v ∈ order ↔ Within dag maxDepth v
  size : ret.size = order.length
  nodes : ret.nodes.map some = order.map dag.node
  edge_lt : ∀ i e, e ∈ ret.outEdges i → i < order.length ∧ e.target < order.length
  count : ∀ i j t s w, order[i]? = some t → order[j]? = some s → Below dag maxDepth s →
    (ret.outEdges i).count ⟨j, w⟩ = (dag.outEdges s).count ⟨t, w⟩
  count_cut : ∀ i j s w, order[j]? = some s → ¬Below dag maxDepth s → ⟨j, w⟩ ∉ ret.outEdges i
  nodup_roots : ret.roots.Nodup
  mem_roots : ∀ i, i ∈ ret.roots ↔
    ∃ v, order[i]? = some v ∧ (dag.outEdges v = [] ∨ AtDistance dag maxDepth v)

/-- Each vertex has its edges once. -/
theorem count_edgesOf (hC : C.Nodup) (e : OutEdge W) :
    (edgesOf dag C).count (s, e) = if s ∈ C then (dag.outEdges s).count e else 0 := by
  have hinj : Function.Injective (Prod.mk (β := OutEdge W) s) := Prod.mk_right_injective s
  induction C with
  | nil => rfl
  | cons v C ih =>
    obtain ⟨hv, hC⟩ := List.nodup_cons.1 hC
    rw [edgesOf, List.flatMap_cons, List.count_append]
    show _ + (edgesOf dag C).count (s, e) = _
    rw [ih hC]
    by_cases hs : s = v
    · subst hs
      rw [List.count_map_of_injective _ _ hinj, if_neg hv, if_pos List.mem_cons_self, Nat.add_zero]
    · have hzero : ((dag.outEdges v).map (Prod.mk v)).count (s, e) = 0 := by
        refine List.count_eq_zero.2 fun hmem => ?_
        obtain ⟨e', -, he'⟩ := List.mem_map.1 hmem
        exact hs (congrArg Prod.fst he').symm
      rw [hzero, Nat.zero_add]
      simp only [List.mem_cons, hs, false_or]

theorem Renumbered.mem_ret_roots (h : Renumbered dag order edges roots st) :
    i ∈ st.ret.roots ↔ ∃ v ∈ roots, order[i]? = some v := by
  constructor
  · intro hi
    have hmem : order[i]? ∈ roots.map some := h.roots ▸ List.mem_map_of_mem hi
    obtain ⟨v, hv, heq⟩ := List.mem_map.1 hmem
    exact ⟨v, hv, heq.symm⟩
  · rintro ⟨v, hv, hi⟩
    have hmem : some v ∈ st.ret.roots.map (order[·]?) := h.roots ▸ List.mem_map_of_mem hv
    obtain ⟨j, hj, hjv⟩ := List.mem_map.1 hmem
    rwa [(List.getElem?_inj (List.getElem?_eq_some_iff.1 hi).1 h.nodup).1 (hi.trans hjv.symm)]

theorem AtLevel.isReversal (h : AtLevel dag maxDepth order C L st)
    (h' : Renumbered dag order (edgesOf dag C) (sinksOf dag C ++ L.map Prod.fst) st') :
    IsReversal dag maxDepth order st'.ret := by
  have hsinks : ∀ v, v ∈ sinksOf dag C ↔ v ∈ C ∧ dag.outEdges v = [] := by
    intro v
    rw [sinksOf, List.mem_filter, decide_eq_true_iff, outDegree, List.length_eq_zero_iff]
  refine ⟨h'.nodup, h.mem_order, h'.size, h'.nodes, h'.edge_lt, fun i j t s w ht hs hbelow => ?_,
    fun i j s w hs hbelow hmem => ?_, ?_, fun i => ?_⟩
  · rw [h'.count i j t s w ht hs, count_edgesOf h.nodup, if_pos ((h.mem_consumed s).2 hbelow)]
  · have ht := List.getElem?_eq_getElem (h'.edge_lt i _ hmem).1
    have hcount := h'.count i j _ s w ht hs
    rw [count_edgesOf h.nodup, if_neg fun hC => hbelow ((h.mem_consumed s).1 hC)] at hcount
    exact List.count_eq_zero.1 hcount hmem
  · refine List.Nodup.of_map (order[·]?) ?_
    rw [h'.roots]
    refine List.Nodup.map (Option.some_injective ℕ) ?_
    refine List.nodup_append.2 ⟨h.nodup.filter _, h.nodup_level, fun a ha b hb => ?_⟩
    rintro rfl
    exact ((h.mem_level a).1 hb).2 ((h.mem_consumed a).1 ((hsinks a).1 ha).1)
  · rw [h'.mem_ret_roots]
    refine exists_congr fun v => ?_
    rw [and_comm, List.mem_append, hsinks, h.mem_consumed, h.mem_level]
    refine and_congr_right fun hi => ?_
    have hwithin := within_iff.1 ((h.mem_order v).1 (List.mem_of_getElem? hi))
    tauto

variable (dag) in
/-- There is a walk from a root. -/
def Reachable (v : ℕ) : Prop := ∃ k, Steps dag k v

omit [DecidableEq W] in
theorem Reachable.lt (hwf : dag.WF) (h : Reachable dag v) : v < dag.size := by
  obtain ⟨k, hk⟩ := h
  cases k with
  | zero => exact hwf.root_lt hk
  | succ k =>
    obtain ⟨u, -, e, he, rfl⟩ := hk
    exact hwf.target_lt he

/-- Where nothing has been cut off, the graph reads like the whole graph turned around. -/
theorem IsReversal.bisimulation {ret rev : Utils.AdjacencyList T W} (h : IsReversal dag maxDepth order ret)
    (hwf : dag.WF) (hbelow : ∀ v, Reachable dag v → Below dag maxDepth v) (hnodes : rev.nodes = dag.nodes)
    (hedges : ∀ t s w, ⟨s, w⟩ ∈ rev.outEdges t ↔ ⟨t, w⟩ ∈ dag.outEdges s)
    (hroots : ∀ v, v ∈ rev.roots ↔ v < dag.size ∧ dag.outEdges v = []) :
    LabelledGraph.Bisimulation ret.toGraph (rev.toGraph.restrict (Reachable dag))
      fun i v => order[i]? = some v := by
  have hreachable : ∀ {i v : ℕ}, order[i]? = some v → Reachable dag v := by
    intro i v hi
    obtain ⟨k, -, hk⟩ := (h.mem_order v).1 (List.mem_of_getElem? hi)
    exact ⟨k, hk⟩
  have hcopy : ∀ {v : ℕ}, Reachable dag v → ∃ i : ℕ, order[i]? = some v := by
    intro v hv
    exact List.mem_iff_getElem?.1 ((h.mem_order v).2 (within_iff.2 (Or.inl (hbelow v hv))))
  have hmem : ∀ {i j v s : ℕ} {w : W}, order[i]? = some v → order[j]? = some s →
      (⟨j, w⟩ ∈ ret.outEdges i ↔ ⟨s, w⟩ ∈ rev.outEdges v) := by
    intro i j v s w hi hj
    rw [hedges, ← List.count_pos_iff, ← List.count_pos_iff,
      h.count i j v s w hi hj (hbelow s (hreachable hj))]
  refine ⟨fun {i v} hi => ?_, fun {i} hroot => ?_, fun {v} hv => ?_, fun {i v w j} hi he => ?_,
    fun {i v w s} hi he => ?_⟩
  · have hmap := congrArg (·[i]?) h.nodes
    simp only [List.getElem?_map, hi, Option.map_some] at hmap
    obtain ⟨val, hval, heq⟩ := Option.map_eq_some_iff.1 hmap
    show ret.node i = rev.node v
    rw [node, hval, heq, node, node, hnodes]
  · obtain ⟨v, hv, hsink⟩ := (h.mem_roots i).1 hroot
    have hv' := hreachable hv
    refine ⟨v, ⟨(hroots v).2 ⟨hv'.lt hwf, ?_⟩, hv'⟩, hv⟩
    exact hsink.resolve_right fun hdistance => hdistance.2 (hbelow v hv')
  · obtain ⟨hroot, hv'⟩ := hv
    obtain ⟨i, hi⟩ := hcopy hv'
    exact ⟨i, (h.mem_roots i).2 ⟨v, hi, Or.inl ((hroots v).1 hroot).2⟩, hi⟩
  · have hj := List.getElem?_eq_getElem (h.edge_lt i _ he).2
    exact ⟨_, ⟨(hmem hi hj).1 he, hreachable hi, hreachable hj⟩, hj⟩
  · obtain ⟨he, -, hs⟩ := he
    obtain ⟨j, hj⟩ := hcopy hs
    exact ⟨j, (hmem hi hj).2 he, hj⟩

/-- The graph is turned around up to the depth; when the depth exceeds all distances, its paths from
roots to leaves read like those of `reverseGraph` on the part that is reachable. -/
theorem reverseDAG_spec (hwf : dag.WF) (maxDepth : ℕ) :
    ∃ order ret rev, reverseDAG dag maxDepth = some ret ∧ IsReversal dag maxDepth order ret ∧
      reverseGraph dag = some rev ∧ ((∀ v, Reachable dag v → Below dag maxDepth v) →
        ret.toGraph.maximalLanguage = (rev.toGraph.restrict (Reachable dag)).maximalLanguage) := by
  obtain ⟨order₀, L₀, st₀, hst₀, h₀⟩ := atLevel_roots hwf
  obtain ⟨order, C, L, st, hst, h⟩ := levels_spec hwf maxDepth h₀
  rw [Nat.zero_add] at h
  obtain ⟨st', hst', hren⟩ := cutOff_spec h
  obtain ⟨rev, hrev, hnodes, hedges, hroots⟩ := reverseGraph_spec hwf
  have hreversal := h.isReversal hren
  refine ⟨order, st'.ret, rev, ?_, hreversal, hrev, fun hbelow =>
    (hreversal.bisimulation hwf hbelow hnodes hedges hroots).maximalLanguage_eq⟩
  rw [reverseDAG, hst₀, Option.bind_some, hst, Option.bind_some, hst', Option.map_some]

/-- Two paths of different lengths to one vertex. -/
def twoPaths : Utils.AdjacencyList ℕ ℕ where
  nodes := [10, 11, 12]
  adj := [[⟨1, 0⟩, ⟨2, 1⟩], [⟨2, 2⟩], []]
  roots := [0, 0]

theorem twoPaths_reverseDAG : ∃ order ret rev, reverseDAG twoPaths 2 = some ret ∧
    IsReversal twoPaths 2 order ret ∧ reverseGraph twoPaths = some rev ∧
      ((∀ v, Reachable twoPaths v → Below twoPaths 2 v) →
        ret.toGraph.maximalLanguage = (rev.toGraph.restrict (Reachable twoPaths)).maximalLanguage) :=
  reverseDAG_spec (by decide) 2

end Phasar.PathSensitivityManager
