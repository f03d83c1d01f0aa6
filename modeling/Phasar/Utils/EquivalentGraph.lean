import Mathlib.Algebra.BigOperators.Group.Finset.Basic
import Mathlib.Algebra.Order.BigOperators.Group.Finset
import Phasar.Utils.MinimizeGraph

/-!
# The graph of the classes

`createEquivalentGraphFrom` builds a graph with a vertex for each class that a root reaches. Its
work list holds vertices of the given graph, some of them repeatedly.

* `visitRoot`, `visitEdge`, `visit`, `createEquivalentGraphFrom`;
* `Built`: the new graph has the edges that have been taken over;
* `Stacked`: why a vertex that is taken from the work list again leads nowhere;
* `minimizeGraph_language`: the new graph has the paths of the given one.
-/

namespace Phasar.Utils

variable {T W : Type*}

/-- The variables of the loop. The back of the work list comes first; an invalid vertex is
`none`. -/
structure BuildState (T W : Type*) where
  eq2Vtx : List (Option ℕ)
  workList : List ℕ
  handled : Finset ℕ
  ret : AdjacencyList T W

namespace BuildState

/-- The new vertex of the class of a vertex. -/
def vertexOf (eq : IntEqClasses) (s : BuildState T W) (vtx : ℕ) : Option ℕ :=
  (s.eq2Vtx[eq.classOf vtx]?).join

/-- A new vertex for the class of a vertex. -/
def addClass (eq : IntEqClasses) (s : BuildState T W) (vtx : ℕ) (label : T) : BuildState T W :=
  { s with
    eq2Vtx := s.eq2Vtx.set (eq.classOf vtx) (some s.ret.size)
    ret := s.ret.addNode label }

end BuildState

open BuildState

def visitRoot (G : AdjacencyList T W) (eq : IntEqClasses) (s : BuildState T W) (rt : ℕ) :
    Option (BuildState T W) :=
  if s.vertexOf eq rt = none then
    ((G.node rt).map (s.addClass eq rt)).bind fun s =>
      (s.vertexOf eq rt).bind fun nwRt =>
        (s.ret.addRoot nwRt).map fun ret => { s with ret := ret, workList := rt :: s.workList }
  else some { s with workList := rt :: s.workList }

def visitEdge (G : AdjacencyList T W) (eq : IntEqClasses) (nwVtx : ℕ) (s : BuildState T W)
    (edge : OutEdge W) : Option (BuildState T W) :=
  (if s.vertexOf eq edge.target = none then (G.node edge.target).map (s.addClass eq edge.target)
    else some s).bind fun s =>
    (s.vertexOf eq edge.target).bind fun nwTarget =>
      (s.ret.addEdge nwVtx (edge.withEdgeTarget nwTarget)).map fun ret =>
        { s with
          ret := ret
          workList :=
            if edge.target ∈ s.handled then s.workList else edge.target :: s.workList }

def visit (G : AdjacencyList T W) (eq : IntEqClasses) (vtx : ℕ) (s : BuildState T W) :
    Option (BuildState T W) :=
  (s.vertexOf eq vtx).bind fun nwVtx =>
    (G.outEdges vtx).foldlM (visitEdge G eq nwVtx) { s with handled := insert vtx s.handled }

def buildLoop (G : AdjacencyList T W) (eq : IntEqClasses) :
    ℕ → BuildState T W → Option (BuildState T W)
  | fuel, s =>
    match s.workList, fuel with
    | [], _ => some s
    | _ :: _, 0 => none
    | vtx :: rest, fuel + 1 =>
      (visit G eq vtx { s with workList := rest }).bind (buildLoop G eq fuel)

def createEquivalentGraphFrom [DecidableEq W] (less : Option (OutEdge W → OutEdge W → Bool))
    (fuel : ℕ) (G : AdjacencyList T W) (eq : IntEqClasses) : Option (AdjacencyList T W) :=
  (G.roots.foldlM (visitRoot G eq) ⟨List.replicate eq.numClasses none, [], ∅, .empty⟩).bind fun s =>
    (buildLoop G eq fuel s).map fun s =>
      (List.range s.ret.size).foldl (AdjacencyList.dedupOutEdges less) s.ret

/-! ### The new graph -/

section Built

variable {G : AdjacencyList T W} {eq : IntEqClasses} {s s' s'' : BuildState T W}
  {done done' : ℕ → OutEdge W → Prop}

/-- The new graph has a vertex for each class with a vertex, and the edges `done`. -/
structure Built (G : AdjacencyList T W) (eq : IntEqClasses) (done : ℕ → OutEdge W → Prop)
    (s : BuildState T W) : Prop where
  length : s.eq2Vtx.length = eq.numClasses
  size_eq : s.ret.nodes.length = s.ret.size
  lt : ∀ {v n}, s.vertexOf eq v = some n → n < s.ret.size
  label : ∀ {v n}, s.vertexOf eq v = some n →
    ∃ w, eq.classOf w = eq.classOf v ∧ s.ret.node n = G.node w
  inj : ∀ {v w n}, s.vertexOf eq v = some n → s.vertexOf eq w = some n →
    eq.classOf v = eq.classOf w
  sound : ∀ {n e}, e ∈ s.ret.outEdges n → ∃ v e', done v e' ∧ s.vertexOf eq v = some n ∧
    s.vertexOf eq e'.target = some e.target ∧ e'.weight = e.weight
  complete : ∀ {v e}, done v e → ∃ n m, s.vertexOf eq v = some n ∧
    s.vertexOf eq e.target = some m ∧ ⟨m, e.weight⟩ ∈ s.ret.outEdges n

theorem vertexOf_congr {v w : ℕ} (h : eq.classOf v = eq.classOf w) :
    s.vertexOf eq v = s.vertexOf eq w := by
  rw [vertexOf, vertexOf, h]

theorem vertexOf_addClass {v w : ℕ} {label : T} (h : eq.classOf v < s.eq2Vtx.length) :
    (s.addClass eq v label).vertexOf eq w =
      if eq.classOf w = eq.classOf v then some s.ret.size else s.vertexOf eq w := by
  change ((s.eq2Vtx.set (eq.classOf v) (some s.ret.size))[eq.classOf w]?).join = _
  rw [List.getElem?_set, vertexOf]
  by_cases hc : eq.classOf w = eq.classOf v
  · rw [if_pos hc.symm, if_pos h, if_pos hc]
    rfl
  · rw [if_neg (Ne.symm hc), if_neg hc]

/-- A new class leaves the vertices of the others alone. -/
theorem keep_addClass (label : T) {v w n : ℕ} (h : eq.classOf v < s.eq2Vtx.length)
    (hnone : s.vertexOf eq v = none) (hw : s.vertexOf eq w = some n) :
    (s.addClass eq v label).vertexOf eq w = some n := by
  rw [vertexOf_addClass h, if_neg]
  · exact hw
  · intro hc
    rw [vertexOf_congr hc, hnone] at hw
    cases hw

theorem cases_addClass (label : T) {v w n : ℕ} (h : eq.classOf v < s.eq2Vtx.length)
    (hw : (s.addClass eq v label).vertexOf eq w = some n) :
    (eq.classOf w = eq.classOf v ∧ n = s.ret.size) ∨ s.vertexOf eq w = some n := by
  rw [vertexOf_addClass h] at hw
  split_ifs at hw with hc
  · exact Or.inl ⟨hc, (Option.some.inj hw).symm⟩
  · exact Or.inr hw

theorem Built.congr (h : Built G eq done s) (hdone : ∀ v e, done v e ↔ done' v e) :
    Built G eq done' s := by
  have heq : done = done' := by
    funext v e
    exact propext (hdone v e)
  exact heq ▸ h

/-- A new vertex has no edges yet. -/
theorem Built.addClass (h : Built G eq done s) {v : ℕ} (hlt : eq.classOf v < eq.numClasses)
    (hnone : s.vertexOf eq v = none) {label : T} (hlabel : G.node v = some label) :
    Built G eq done (s.addClass eq v label) := by
  have hclass : eq.classOf v < s.eq2Vtx.length := h.length ▸ hlt
  have hold : ∀ {w n}, s.vertexOf eq w = some n →
      (s.addClass eq v label).vertexOf eq w = some n := keep_addClass label hclass hnone
  have hcases : ∀ {w n}, (s.addClass eq v label).vertexOf eq w = some n →
      (eq.classOf w = eq.classOf v ∧ n = s.ret.size) ∨ s.vertexOf eq w = some n :=
    cases_addClass label hclass
  constructor
  · exact List.length_set.trans h.length
  · change (s.ret.nodes ++ [label]).length = (s.ret.adj ++ [[]]).length
    rw [List.length_append, List.length_append, h.size_eq]
    rfl
  · intro w n hw
    change n < (s.ret.addNode label).size
    rw [AdjacencyList.size_addNode]
    rcases hcases hw with ⟨-, rfl⟩ | hw
    · exact Nat.lt_succ_self _
    · exact Nat.lt_succ_of_lt (h.lt hw)
  · intro w n hw
    change ∃ u, _ ∧ (s.ret.addNode label).node n = _
    rcases hcases hw with ⟨hc, rfl⟩ | hw
    · exact ⟨v, hc.symm, (AdjacencyList.node_addNode_self h.size_eq).trans hlabel.symm⟩
    · obtain ⟨u, hu, hnode⟩ := h.label hw
      refine ⟨u, hu, (AdjacencyList.node_addNode_of_lt ?_).trans hnode⟩
      rw [h.size_eq]
      exact h.lt hw
  · intro u w n hu hw
    rcases hcases hu with ⟨hcu, rfl⟩ | hu
    · rcases hcases hw with ⟨hcw, -⟩ | hw
      · exact hcu.trans hcw.symm
      · exact absurd (h.lt hw) (lt_irrefl _)
    · rcases hcases hw with ⟨-, rfl⟩ | hw
      · exact absurd (h.lt hu) (lt_irrefl _)
      · exact h.inj hu hw
  · intro n e he
    obtain ⟨u, e', hdone, hu, ht, hw⟩ := h.sound (AdjacencyList.outEdges_addNode ▸ he)
    exact ⟨u, e', hdone, hold hu, hold ht, hw⟩
  · intro u e hdone
    obtain ⟨n, m, hn, hm, he⟩ := h.complete hdone
    refine ⟨n, m, hold hn, hold hm, ?_⟩
    change _ ∈ (s.ret.addNode label).outEdges n
    rw [AdjacencyList.outEdges_addNode]
    exact he

/-- A new edge between vertices that exist. -/
theorem Built.addEdge (h : Built G eq done s) {v n m : ℕ} {e : OutEdge W}
    (hn : s.vertexOf eq v = some n) (hm : s.vertexOf eq e.target = some m)
    {ret : AdjacencyList T W} (hret : s.ret.addEdge n (e.withEdgeTarget m) = some ret)
    (workList : List ℕ) :
    Built G eq (fun u d => done u d ∨ u = v ∧ d = e)
      { s with ret := ret, workList := workList } := by
  obtain ⟨hnodes, -, hsize, hedges⟩ := AdjacencyList.addEdge_spec hret
  constructor
  · exact h.length
  · change ret.nodes.length = ret.size
    rw [hnodes, hsize]
    exact h.size_eq
  · intro u k hu
    change k < ret.size
    rw [hsize]
    exact h.lt hu
  · intro u k hu
    change ∃ w, _ ∧ ret.nodes[k]? = _
    rw [hnodes]
    exact h.label hu
  · exact h.inj
  · intro k d hd
    rcases (hedges k d).1 hd with hd | ⟨rfl, rfl⟩
    · obtain ⟨u, d', hdone, hu, ht, hw⟩ := h.sound hd
      exact ⟨u, d', Or.inl hdone, hu, ht, hw⟩
    · exact ⟨v, e, Or.inr ⟨rfl, rfl⟩, hn, hm, rfl⟩
  · rintro u d (hdone | ⟨rfl, rfl⟩)
    · obtain ⟨k, l, hk, hl, hd⟩ := h.complete hdone
      exact ⟨k, l, hk, hl, (hedges k _).2 (Or.inl hd)⟩
    · exact ⟨n, m, hn, hm, (hedges n _).2 (Or.inr ⟨rfl, rfl⟩)⟩

/-! ### Taking over edges -/

/-- What changes while edges to `targets` are taken over. -/
structure Added (eq : IntEqClasses) (targets : List ℕ) (s s' : BuildState T W) : Prop where
  keep : ∀ {v n}, s.vertexOf eq v = some n → s'.vertexOf eq v = some n
  known : ∀ t ∈ targets, s'.vertexOf eq t ≠ none
  old : ∀ {v}, s'.vertexOf eq v ≠ none →
    s.vertexOf eq v ≠ none ∨ ∃ t ∈ targets, eq.classOf v = eq.classOf t
  roots : s'.ret.roots = s.ret.roots
  handled : s'.handled = s.handled
  workList : s'.workList = (targets.filter (· ∉ s.handled)).reverse ++ s.workList

theorem Added.keep_ne {targets : List ℕ} (h : Added eq targets s s') {v : ℕ}
    (hv : s.vertexOf eq v ≠ none) : s'.vertexOf eq v ≠ none := by
  obtain ⟨n, hn⟩ := Option.ne_none_iff_exists'.1 hv
  rw [h.keep hn]
  exact Option.some_ne_none n

theorem Added.nil (s : BuildState T W) : Added eq [] s s where
  keep h := h
  known _ ht := absurd ht List.not_mem_nil
  old h := Or.inl h
  roots := rfl
  handled := rfl
  workList := rfl

theorem Added.cons {t : ℕ} {targets : List ℕ} (h : Added eq [t] s s')
    (h' : Added eq targets s' s'') : Added eq (t :: targets) s s'' where
  keep hv := h'.keep (h.keep hv)
  known u hu := by
    rcases List.mem_cons.1 hu with rfl | hu
    · exact h'.keep_ne (h.known u List.mem_cons_self)
    · exact h'.known u hu
  old hv := by
    rcases h'.old hv with hv | ⟨u, hu, hc⟩
    · rcases h.old hv with hv | ⟨u, hu, hc⟩
      · exact Or.inl hv
      · exact Or.inr ⟨u, List.mem_cons.2 (Or.inl (List.mem_singleton.1 hu)), hc⟩
    · exact Or.inr ⟨u, List.mem_cons_of_mem t hu, hc⟩
  roots := h'.roots.trans h.roots
  handled := h'.handled.trans h.handled
  workList := by
    rw [h'.workList, h.workList, h.handled, ← List.append_assoc, ← List.reverse_append,
      ← List.filter_append]
    rfl

theorem visitEdge_spec (hG : G.WF) (heq : MinimalClasses G eq) (h : Built G eq done s) {v n : ℕ}
    (hn : s.vertexOf eq v = some n) {e : OutEdge W} (he : e ∈ G.outEdges v) :
    ∃ s', visitEdge G eq n s e = some s' ∧ Added eq [e.target] s s' ∧
      Built G eq (fun u d => done u d ∨ u = v ∧ d = e) s' := by
  have hlt := hG.target_lt he
  obtain ⟨label, hlabel⟩ := hG.node_isSome hlt
  have hclass := heq.lt hlt
  rw [visitEdge]
  generalize hs₁ : (if s.vertexOf eq e.target = none then
    (G.node e.target).map (s.addClass eq e.target) else some s) = o
  -- the state in which the target has a vertex
  obtain ⟨s₁, rfl, hbuilt, hkeep, hold, ⟨m, hm⟩, hroots, hhandled, hworkList⟩ :
      ∃ s₁, o = some s₁ ∧ Built G eq done s₁ ∧
        (∀ {u k}, s.vertexOf eq u = some k → s₁.vertexOf eq u = some k) ∧
        (∀ {u}, s₁.vertexOf eq u ≠ none →
          s.vertexOf eq u ≠ none ∨ eq.classOf u = eq.classOf e.target) ∧
        (∃ m, s₁.vertexOf eq e.target = some m) ∧ s₁.ret.roots = s.ret.roots ∧
        s₁.handled = s.handled ∧ s₁.workList = s.workList := by
    by_cases hnone : s.vertexOf eq e.target = none
    · rw [if_pos hnone, hlabel, Option.map_some] at hs₁
      have hlen : eq.classOf e.target < s.eq2Vtx.length := h.length ▸ hclass
      refine ⟨_, hs₁.symm, h.addClass hclass hnone hlabel, keep_addClass label hlen hnone, ?_,
        ⟨s.ret.size, ?_⟩, rfl, rfl, rfl⟩
      · intro u hu
        obtain ⟨k, hk⟩ := Option.ne_none_iff_exists'.1 hu
        rcases cases_addClass label hlen hk with ⟨hc, -⟩ | hk
        · exact Or.inr hc
        · exact Or.inl (hk ▸ Option.some_ne_none k)
      · rw [vertexOf_addClass hlen, if_pos rfl]
    · rw [if_neg hnone] at hs₁
      exact ⟨s, hs₁.symm, h, fun hu => hu, fun hu => Or.inl hu,
        Option.ne_none_iff_exists'.1 hnone, rfl, rfl, rfl⟩
  have hn₁ := hkeep hn
  have hret : s₁.ret.addEdge n (e.withEdgeTarget m) = some _ :=
    AdjacencyList.addEdge_of_lt (hbuilt.lt hn₁)
  rw [Option.bind_some, hm, Option.bind_some, hret, Option.map_some]
  refine ⟨_, rfl, ?_, hbuilt.addEdge hn₁ hm hret _⟩
  constructor
  · exact hkeep
  · intro t ht
    rw [List.mem_singleton.1 ht]
    change s₁.vertexOf eq e.target ≠ none
    rw [hm]
    exact Option.some_ne_none m
  · intro u hu
    exact (hold hu).imp id fun hc => ⟨e.target, List.mem_singleton_self _, hc⟩
  · exact hroots
  · exact hhandled
  · change (if e.target ∈ s₁.handled then _ else _) = _
    rw [hhandled, hworkList, List.filter_singleton]
    split_ifs with hmem <;> simp [hmem]

theorem visitEdges_spec (hG : G.WF) (heq : MinimalClasses G eq) {v n : ℕ} (edges : List (OutEdge W))
    (hedges : ∀ e ∈ edges, e ∈ G.outEdges v) :
    ∀ {done : ℕ → OutEdge W → Prop} {s : BuildState T W}, Built G eq done s →
      s.vertexOf eq v = some n → ∃ s', edges.foldlM (visitEdge G eq n) s = some s' ∧
        Added eq (edges.map OutEdge.target) s s' ∧
        Built G eq (fun u d => done u d ∨ u = v ∧ d ∈ edges) s' := by
  induction edges with
  | nil =>
    intro done s h _
    exact ⟨s, rfl, .nil s, h.congr fun u d => by simp⟩
  | cons e edges ih =>
    intro done s h hn
    obtain ⟨s₁, hs₁, hadded, h₁⟩ := visitEdge_spec hG heq h hn (hedges e List.mem_cons_self)
    obtain ⟨s₂, hs₂, hadded', h₂⟩ :=
      ih (fun d hd => hedges d (List.mem_cons_of_mem e hd)) h₁ (hadded.keep hn)
    refine ⟨s₂, ?_, hadded.cons hadded', h₂.congr fun u d => ?_⟩
    · rw [List.foldlM_cons, hs₁]
      exact hs₂
    · rw [List.mem_cons]
      tauto

/-! ### The work list -/

/-- The targets of a handled vertex that waits again are handled before it is taken. -/
def Stacked (G : AdjacencyList T W) (s : BuildState T W) : Prop :=
  ∀ above v below, s.workList = above ++ v :: below → v ∈ s.handled →
    ∀ e ∈ G.outEdges v, e.target ∈ s.handled ∨ e.target ∈ above

/-- The vertices that are added to the work list when a vertex is visited. -/
def pushed (G : AdjacencyList T W) (handled : Finset ℕ) (v : ℕ) : List ℕ :=
  (((G.outEdges v).map OutEdge.target).filter (· ∉ insert v handled)).reverse

theorem mem_pushed {handled : Finset ℕ} {v t : ℕ} :
    t ∈ pushed G handled v ↔ (∃ e ∈ G.outEdges v, e.target = t) ∧ t ∉ insert v handled := by
  rw [pushed, List.mem_reverse, List.mem_filter, List.mem_map, decide_eq_true_iff]

theorem Stacked.visit (h : Stacked G s) {v : ℕ} {rest : List ℕ} (hwork : s.workList = v :: rest)
    (hhandled : s'.handled = insert v s.handled)
    (hworkList : s'.workList = pushed G s.handled v ++ rest) : Stacked G s' := by
  intro above u below hsplit hu e he
  rw [hworkList] at hsplit
  rw [hhandled] at hu ⊢
  -- a vertex that was pushed just now is not handled, so `u` was waiting before
  obtain ⟨above', rfl, hrest⟩ :
      ∃ above', above = pushed G s.handled v ++ above' ∧ rest = above' ++ u :: below := by
    rcases List.append_eq_append_iff.1 hsplit with ⟨l, habove, hrest⟩ | ⟨l, hp, hbelow⟩
    · exact ⟨l, habove, hrest⟩
    · cases l with
      | nil => exact ⟨[], by simpa using hp.symm, hbelow.symm⟩
      | cons x l =>
        obtain rfl : u = x := (List.cons.inj hbelow).1
        have hx : u ∈ pushed G s.handled v := hp ▸ List.mem_append_right above List.mem_cons_self
        exact absurd hu (mem_pushed.1 hx).2
  by_cases ht : e.target ∈ insert v s.handled
  · exact Or.inl ht
  right
  rw [List.mem_append]
  rcases Finset.mem_insert.1 hu with rfl | hu
  · exact Or.inl (mem_pushed.2 ⟨⟨e, he, rfl⟩, ht⟩)
  · have hsplit' : s.workList = (v :: above') ++ u :: below := by
      rw [hwork, hrest]
      rfl
    rw [Finset.mem_insert, not_or] at ht
    rcases h _ u below hsplit' hu e he with hmem | hmem
    · exact absurd hmem ht.2
    · exact Or.inr ((List.mem_cons.1 hmem).resolve_left ht.1)

/-- The waiting vertices, and those that can still be added. -/
def remaining (G : AdjacencyList T W) (s : BuildState T W) : ℕ :=
  s.workList.length + ∑ v ∈ (Finset.range G.size).filter (· ∉ s.handled), G.outDegree v

theorem Stacked.remaining_lt (h : Stacked G s) {v : ℕ} {rest : List ℕ} (hv : v < G.size)
    (hwork : s.workList = v :: rest) (hhandled : s'.handled = insert v s.handled)
    (hworkList : s'.workList = pushed G s.handled v ++ rest) : remaining G s' < remaining G s := by
  rw [remaining, remaining, hworkList, hwork, List.length_append, List.length_cons, hhandled]
  by_cases hmem : v ∈ s.handled
  · -- all targets have been handled
    have hnil : pushed G s.handled v = [] := by
      refine List.eq_nil_iff_forall_not_mem.2 fun t ht => ?_
      obtain ⟨⟨e, he, rfl⟩, hnot⟩ := mem_pushed.1 ht
      rcases h [] v rest hwork hmem e he with hin | hin
      · exact hnot (Finset.mem_insert_of_mem hin)
      · exact absurd hin List.not_mem_nil
    rw [hnil, Finset.insert_eq_of_mem hmem]
    simp
  · have hlen : (pushed G s.handled v).length ≤ G.outDegree v := by
      rw [pushed, List.length_reverse, AdjacencyList.outDegree, ← List.length_map OutEdge.target]
      exact List.length_filter_le _ _
    have hfilter : (Finset.range G.size).filter (· ∉ insert v s.handled) =
        ((Finset.range G.size).filter (· ∉ s.handled)).erase v := by
      ext u
      simp only [Finset.mem_filter, Finset.mem_erase, Finset.mem_insert, not_or]
      tauto
    have hin : v ∈ (Finset.range G.size).filter (· ∉ s.handled) :=
      Finset.mem_filter.2 ⟨Finset.mem_range.2 hv, hmem⟩
    rw [hfilter, ← Finset.add_sum_erase _ _ hin]
    omega

/-- What holds whenever a vertex is taken from the work list. -/
structure LoopInv (G : AdjacencyList T W) (eq : IntEqClasses) (s : BuildState T W) : Prop where
  built : Built G eq (fun v e => v ∈ s.handled ∧ e ∈ G.outEdges v) s
  waiting : ∀ v ∈ s.workList, v < G.size ∧ s.vertexOf eq v ≠ none
  live : ∀ {v}, s.vertexOf eq v ≠ none →
    ∃ w, eq.classOf w = eq.classOf v ∧ (w ∈ s.handled ∨ w ∈ s.workList)
  stacked : Stacked G s
  root : ∀ {v}, v ∈ G.roots → ∃ n ∈ s.ret.roots, s.vertexOf eq v = some n
  root_inv : ∀ {n}, n ∈ s.ret.roots → ∃ v ∈ G.roots, s.vertexOf eq v = some n

theorem visit_spec (hG : G.WF) (heq : MinimalClasses G eq) (h : LoopInv G eq s) {v : ℕ}
    {rest : List ℕ} (hwork : s.workList = v :: rest) :
    ∃ s', visit G eq v { s with workList := rest } = some s' ∧ LoopInv G eq s' ∧
      remaining G s' < remaining G s := by
  obtain ⟨hv, hne⟩ := h.waiting v (hwork ▸ List.mem_cons_self)
  obtain ⟨n, hn⟩ := Option.ne_none_iff_exists'.1 hne
  let s₀ : BuildState T W := { s with workList := rest, handled := insert v s.handled }
  have hbuilt₀ : Built G eq (fun u d => u ∈ s.handled ∧ d ∈ G.outEdges u) s₀ :=
    ⟨h.built.length, h.built.size_eq, h.built.lt, h.built.label, h.built.inj, h.built.sound,
      h.built.complete⟩
  obtain ⟨s', hs', hadded, hbuilt⟩ := visitEdges_spec hG heq (G.outEdges v) (fun _ he => he)
    hbuilt₀ hn
  have hhandled : s'.handled = insert v s.handled := hadded.handled
  have hworkList : s'.workList = pushed G s.handled v ++ rest := hadded.workList
  refine ⟨s', ?_, ⟨?_, ?_, ?_, h.stacked.visit hwork hhandled hworkList, ?_, ?_⟩,
    h.stacked.remaining_lt hv hwork hhandled hworkList⟩
  · rw [visit]
    change (s.vertexOf eq v).bind _ = _
    rw [hn]
    exact hs'
  · refine hbuilt.congr fun u d => ?_
    rw [hhandled, Finset.mem_insert]
    constructor
    · rintro (⟨hu, hd⟩ | ⟨rfl, hd⟩)
      · exact ⟨Or.inr hu, hd⟩
      · exact ⟨Or.inl rfl, hd⟩
    · rintro ⟨rfl | hu, hd⟩
      · exact Or.inr ⟨rfl, hd⟩
      · exact Or.inl ⟨hu, hd⟩
  · intro t ht
    rw [hworkList, List.mem_append] at ht
    rcases ht with ht | ht
    · obtain ⟨⟨e, he, rfl⟩, -⟩ := mem_pushed.1 ht
      exact ⟨hG.target_lt he, hadded.known _ (List.mem_map_of_mem he)⟩
    · obtain ⟨hlt, hne⟩ := h.waiting t (hwork ▸ List.mem_cons_of_mem v ht)
      exact ⟨hlt, hadded.keep_ne hne⟩
  · intro u hu
    -- a class that has a vertex had one before, or is that of a successor
    rcases hadded.old hu with hu | ⟨t, ht, hc⟩
    · obtain ⟨w, hc, hw⟩ := h.live hu
      refine ⟨w, hc, ?_⟩
      rw [hwork, List.mem_cons] at hw
      rw [hhandled, hworkList, Finset.mem_insert, List.mem_append]
      tauto
    · refine ⟨t, hc.symm, ?_⟩
      obtain ⟨e, he, rfl⟩ := List.mem_map.1 ht
      rw [hhandled, hworkList, List.mem_append, mem_pushed]
      by_cases hmem : e.target ∈ insert v s.handled
      · exact Or.inl hmem
      · exact Or.inr (Or.inl ⟨⟨e, he, rfl⟩, hmem⟩)
  · intro u hu
    obtain ⟨k, hk, hvert⟩ := h.root hu
    exact ⟨k, hadded.roots ▸ hk, hadded.keep hvert⟩
  · intro k hk
    obtain ⟨u, hu, hvert⟩ := h.root_inv (hadded.roots ▸ hk)
    exact ⟨u, hu, hadded.keep hvert⟩

/-- Enough fuel empties the work list. -/
theorem buildLoop_spec (hG : G.WF) (heq : MinimalClasses G eq) (m : ℕ) :
    ∀ {s : BuildState T W}, LoopInv G eq s → remaining G s ≤ m →
      ∃ s', (∀ fuel, m ≤ fuel → buildLoop G eq fuel s = some s') ∧ LoopInv G eq s' ∧
        s'.workList = [] := by
  induction m with
  | zero =>
    intro s h hm
    have hnil : s.workList = [] := List.length_eq_zero_iff.1 (by rw [remaining] at hm; omega)
    refine ⟨s, fun fuel _ => ?_, h, hnil⟩
    unfold buildLoop
    rw [hnil]
  | succ m ih =>
    intro s h hm
    cases hwork : s.workList with
    | nil =>
      refine ⟨s, fun fuel _ => ?_, h, hwork⟩
      unfold buildLoop
      rw [hwork]
    | cons v rest =>
      obtain ⟨s₁, hs₁, h₁, hlt⟩ := visit_spec hG heq h hwork
      obtain ⟨s', hs', h', hnil⟩ := ih h₁ (Nat.le_of_lt_succ (hlt.trans_le hm))
      refine ⟨s', fun fuel hfuel => ?_, h', hnil⟩
      obtain ⟨fuel, rfl⟩ := Nat.exists_eq_add_of_le' (Nat.one_le_of_lt hfuel)
      unfold buildLoop
      rw [hwork]
      change (visit G eq v { s with workList := rest }).bind _ = _
      rw [hs₁]
      exact hs' fuel (Nat.le_of_succ_le_succ hfuel)

/-! ### Roots -/

/-- What holds after some roots. -/
structure RootInv (G : AdjacencyList T W) (eq : IntEqClasses) (visited : List ℕ)
    (s : BuildState T W) : Prop where
  built : Built G eq (fun _ _ => False) s
  handled : s.handled = ∅
  workList : s.workList = visited.reverse
  known : ∀ v ∈ visited, s.vertexOf eq v ≠ none
  root : ∀ {v n}, s.vertexOf eq v = some n → n ∈ s.ret.roots
  root_inv : ∀ {n}, n ∈ s.ret.roots → ∃ v ∈ visited, s.vertexOf eq v = some n

theorem visitRoot_spec (hG : G.WF) (heq : MinimalClasses G eq) {visited : List ℕ}
    (h : RootInv G eq visited s) {rt : ℕ} (hrt : rt < G.size) :
    ∃ s', visitRoot G eq s rt = some s' ∧ RootInv G eq (visited ++ [rt]) s' := by
  have hworkList : rt :: s.workList = (visited ++ [rt]).reverse := by
    rw [h.workList, List.reverse_append]
    rfl
  rw [visitRoot]
  -- a root makes a vertex unless an equivalent one has come before
  by_cases hnone : s.vertexOf eq rt = none
  · obtain ⟨label, hlabel⟩ := hG.node_isSome hrt
    have hclass := heq.lt hrt
    have hlen : eq.classOf rt < s.eq2Vtx.length := h.built.length ▸ hclass
    have hbuilt := h.built.addClass hclass hnone hlabel
    have hself : (s.addClass eq rt label).vertexOf eq rt = some s.ret.size := by
      rw [vertexOf_addClass hlen, if_pos rfl]
    have hroot : (s.addClass eq rt label).ret.addRoot s.ret.size = some _ :=
      AdjacencyList.addRoot_of_lt (hbuilt.lt hself)
    rw [if_pos hnone, hlabel, Option.map_some, Option.bind_some, hself, Option.bind_some, hroot,
      Option.map_some]
    refine ⟨_, rfl, ⟨hbuilt.length, hbuilt.size_eq, hbuilt.lt, hbuilt.label, hbuilt.inj,
      hbuilt.sound, hbuilt.complete⟩, h.handled, hworkList, ?_, ?_, ?_⟩
    · intro v hv
      change (s.addClass eq rt label).vertexOf eq v ≠ none
      rcases List.mem_append.1 hv with hv | hv
      · obtain ⟨n, hn⟩ := Option.ne_none_iff_exists'.1 (h.known v hv)
        rw [keep_addClass label hlen hnone hn]
        exact Option.some_ne_none n
      · rw [List.mem_singleton.1 hv, hself]
        exact Option.some_ne_none _
    · intro v n hv
      change n ∈ s.ret.roots ++ [s.ret.size]
      rcases cases_addClass label hlen hv with ⟨-, rfl⟩ | hv
      · exact List.mem_append_right _ (List.mem_singleton_self _)
      · exact List.mem_append_left _ (h.root hv)
    · intro n hn
      rcases List.mem_append.1 (show n ∈ s.ret.roots ++ [s.ret.size] from hn) with hn | hn
      · obtain ⟨v, hv, hvert⟩ := h.root_inv hn
        have hkeep : (s.addClass eq rt label).vertexOf eq v = some n :=
          keep_addClass label hlen hnone hvert
        exact ⟨v, List.mem_append_left _ hv, hkeep⟩
      · rw [List.mem_singleton.1 hn]
        exact ⟨rt, List.mem_append_right _ (List.mem_singleton_self _), hself⟩
  · rw [if_neg hnone]
    refine ⟨_, rfl, ⟨h.built.length, h.built.size_eq, h.built.lt, h.built.label, h.built.inj,
      h.built.sound, h.built.complete⟩, h.handled, hworkList, ?_, h.root, ?_⟩
    · intro v hv
      rcases List.mem_append.1 hv with hv | hv
      · exact h.known v hv
      · rw [List.mem_singleton.1 hv]
        exact hnone
    · intro n hn
      obtain ⟨v, hv, hvert⟩ := h.root_inv hn
      exact ⟨v, List.mem_append_left _ hv, hvert⟩

theorem visitRoots_spec (hG : G.WF) (heq : MinimalClasses G eq) (roots : List ℕ)
    (hroots : ∀ v ∈ roots, v < G.size) :
    ∀ {visited : List ℕ} {s : BuildState T W}, RootInv G eq visited s →
      ∃ s', roots.foldlM (visitRoot G eq) s = some s' ∧ RootInv G eq (visited ++ roots) s' := by
  induction roots with
  | nil =>
    intro visited s h
    rw [List.append_nil]
    exact ⟨s, rfl, h⟩
  | cons rt roots ih =>
    intro visited s h
    obtain ⟨s₁, hs₁, h₁⟩ := visitRoot_spec hG heq h (hroots rt List.mem_cons_self)
    obtain ⟨s₂, hs₂, h₂⟩ := ih (fun v hv => hroots v (List.mem_cons_of_mem rt hv)) h₁
    refine ⟨s₂, ?_, ?_⟩
    · rw [List.foldlM_cons, hs₁]
      exact hs₂
    · rwa [List.append_assoc] at h₂

theorem rootInv_init : RootInv G eq []
    ⟨List.replicate eq.numClasses none, [], ∅, .empty⟩ := by
  have hnone : ∀ v, (⟨List.replicate eq.numClasses none, [], ∅, .empty⟩ :
      BuildState T W).vertexOf eq v = none := by
    intro v
    change ((List.replicate eq.numClasses none)[eq.classOf v]?).join = none
    rw [List.getElem?_replicate]
    split_ifs <;> rfl
  have hsome : ∀ {v n}, (⟨List.replicate eq.numClasses none, [], ∅, .empty⟩ :
      BuildState T W).vertexOf eq v ≠ some n := by
    intro v n
    rw [hnone]
    exact (Option.some_ne_none n).symm
  exact ⟨⟨List.length_replicate, rfl, fun h => absurd h hsome, fun h => absurd h hsome,
    fun h => absurd h hsome, fun h => absurd h List.not_mem_nil, False.elim⟩, rfl, rfl,
    fun v hv => absurd hv List.not_mem_nil, fun h => absurd h hsome,
    fun h => absurd h List.not_mem_nil⟩

theorem RootInv.loopInv (hG : G.WF) (h : RootInv G eq G.roots s) : LoopInv G eq s where
  built := h.built.congr fun v e => by simp [h.handled]
  waiting v hv := by
    rw [h.workList, List.mem_reverse] at hv
    exact ⟨hG.root_lt hv, h.known v hv⟩
  live hv := by
    obtain ⟨n, hn⟩ := Option.ne_none_iff_exists'.1 hv
    obtain ⟨w, hw, hvert⟩ := h.root_inv (h.root hn)
    refine ⟨w, h.built.inj hvert hn, Or.inr ?_⟩
    rw [h.workList, List.mem_reverse]
    exact hw
  stacked _ v _ _ hv := by
    rw [h.handled] at hv
    exact absurd hv (Finset.notMem_empty v)
  root hv := by
    obtain ⟨n, hn⟩ := Option.ne_none_iff_exists'.1 (h.known _ hv)
    exact ⟨n, h.root hn, hn⟩
  root_inv := h.root_inv

/-! ### The paths of the new graph -/

theorem LoopInv.wf (h : LoopInv G eq s) : s.ret.WF where
  size_eq := h.built.size_eq
  target_lt he := by
    obtain ⟨_, _, _, _, ht, _⟩ := h.built.sound he
    exact h.built.lt ht
  root_lt hn := by
    obtain ⟨_, _, hv⟩ := h.root_inv hn
    exact h.built.lt hv

/-- When nothing waits, the new graph is the given one up to classes. -/
theorem LoopInv.bisimulation (heq : MinimalClasses G eq) (h : LoopInv G eq s)
    (hnil : s.workList = []) :
    LabelledGraph.Bisimulation G.toGraph s.ret.toGraph fun v n => s.vertexOf eq v = some n where
  label hv := by
    obtain ⟨w, hc, hnode⟩ := h.built.label hv
    exact (heq.node hc.symm).trans hnode.symm
  root := h.root
  root_inv := h.root_inv
  edge {v n w t} hv he := by
    -- some vertex of the class has been handled
    obtain ⟨u, hc, hu⟩ := h.live (hv ▸ Option.some_ne_none n)
    rw [hnil] at hu
    have hhandled := hu.resolve_right List.not_mem_nil
    obtain ⟨e, he, hw, ht⟩ := heq.edge hc.symm _ he
    obtain ⟨k, m, hk, hm, hnew⟩ := h.built.complete ⟨hhandled, he⟩
    obtain rfl : n = k := by
      rw [vertexOf_congr hc, hv] at hk
      exact Option.some.inj hk
    refine ⟨m, ?_, (vertexOf_congr ht).trans hm⟩
    change ⟨m, w⟩ ∈ s.ret.outEdges n
    rw [show w = e.weight from hw]
    exact hnew
  edge_inv {v n w m} hv he := by
    obtain ⟨u, e, ⟨-, he⟩, hu, hm, hw⟩ := h.built.sound he
    obtain ⟨e', he', hw', ht⟩ := heq.edge (h.built.inj hu hv) e he
    refine ⟨e'.target, ?_, (vertexOf_congr ht).symm.trans hm⟩
    change ⟨e'.target, w⟩ ∈ G.outEdges v
    rw [show w = e'.weight from hw.symm.trans hw']
    exact he'

/-- The number of edges. -/
def AdjacencyList.numEdges (G : AdjacencyList T W) : ℕ := ∑ v ∈ Finset.range G.size, G.outDegree v

/-- Minimising keeps the paths from the roots: all, those that cannot be continued, and those
without end. The work list is empty after one step for each root and each edge at most. -/
theorem minimizeGraph_language [DecidableEq T] [DecidableEq W]
    (less : Option (OutEdge W → OutEdge W → Bool)) (G : AdjacencyList T W) (hG : G.WF) :
    ∃ H : AdjacencyList T W,
      (∀ fuel, G.roots.length + G.numEdges ≤ fuel →
        createEquivalentGraphFrom less fuel G (minimizeGraph G) = some H) ∧ H.WF ∧
      H.toGraph.language = G.toGraph.language ∧
      H.toGraph.maximalLanguage = G.toGraph.maximalLanguage ∧
      H.toGraph.infiniteLanguage = G.toGraph.infiniteLanguage := by
  have heq := minimalClasses_minimizeGraph G
  obtain ⟨s, hs, hroots⟩ :=
    visitRoots_spec hG heq G.roots (fun _ hv => hG.root_lt hv) rootInv_init
  rw [List.nil_append] at hroots
  have hinit := hroots.loopInv hG
  have hremaining : remaining G s = G.roots.length + G.numEdges := by
    rw [remaining, hroots.workList, List.length_reverse, hroots.handled, AdjacencyList.numEdges]
    simp
  obtain ⟨s', hs', hinv, hnil⟩ := buildLoop_spec hG heq _ hinit hremaining.le
  have hbisim := hinv.bisimulation heq hnil
  refine ⟨(List.range s'.ret.size).foldl (AdjacencyList.dedupOutEdges less) s'.ret,
    fun fuel hfuel => ?_, hinv.wf.foldl_dedupOutEdges _, ?_⟩
  · rw [createEquivalentGraphFrom, hs, Option.bind_some, hs' fuel hfuel, Option.map_some]
  · rw [AdjacencyList.toGraph_foldl_dedupOutEdges]
    exact ⟨hbisim.language_eq.symm, hbisim.maximalLanguage_eq.symm, hbisim.infiniteLanguage_eq.symm⟩

/-- Two ways to one vertex, whose middle vertices are alike. -/
theorem minimizeGraph_language_diamond :
    ∃ H : AdjacencyList ℕ ℕ,
      (∀ fuel, 5 ≤ fuel →
        createEquivalentGraphFrom none fuel
          ⟨[0, 1, 1, 2], [[⟨1, 7⟩, ⟨2, 7⟩], [⟨3, 8⟩], [⟨3, 8⟩], []], [0]⟩
          (minimizeGraph ⟨[0, 1, 1, 2], [[⟨1, 7⟩, ⟨2, 7⟩], [⟨3, 8⟩], [⟨3, 8⟩], []], [0]⟩) =
            some H) ∧
      H.toGraph.language =
        (⟨[0, 1, 1, 2], [[⟨1, 7⟩, ⟨2, 7⟩], [⟨3, 8⟩], [⟨3, 8⟩], []], [0]⟩ :
          AdjacencyList ℕ ℕ).toGraph.language := by
  obtain ⟨H, hH, -, hlanguage, -⟩ := minimizeGraph_language none
    (⟨[0, 1, 1, 2], [[⟨1, 7⟩, ⟨2, 7⟩], [⟨3, 8⟩], [⟨3, 8⟩], []], [0]⟩ : AdjacencyList ℕ ℕ)
    (by decide)
  exact ⟨H, hH, hlanguage⟩

end Built

end Phasar.Utils
