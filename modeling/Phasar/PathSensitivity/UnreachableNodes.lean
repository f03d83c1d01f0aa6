import Phasar.Lib.DagPaths
import Phasar.Lib.SwapRemove
import Phasar.Lib.TopologicalOrder
import Phasar.PathSensitivity.ConstraintPathFilter
import Phasar.Utils.AdjacencyList

/-!
# Pruning the edges of a path DAG

`filterOutUnreachableNodes` computes, for every vertex, a constraint for reaching the leaf, bottom-up. It
removes the edges and roots from which the solver finds no way to the leaf, while it iterates over them.

* `PathDAG`, `PruneQuery`: the arguments;
* `doFilter`, `filterOutUnreachableNodes`: `none` when it runs out of fuel, or at `llvm_unreachable`;
* `Admits`, `FeasiblePath`: the paths whose constraints a model satisfies;
* `Reaches`, `Live`: ways to the leaf, one edge at a time.
-/

namespace Phasar.Z3BasedPathSensitivityManager

open SMT Utils DagPaths SwapRemove

/-- A DAG in which the leaf has no edges. The labels are stored in reverse. -/
structure PathDAG (N W : Type) where
  graph : AdjacencyList (List N) W
  leaf : ℕ
  wf : graph.WF
  acyclic : ∀ v, ¬Relation.TransGen (fun v w => w ∈ (graph.outEdges v).map OutEdge.target) v v
  label_ne_nil : ∀ label ∈ graph.nodes, label ≠ []
  leaf_sink : graph.outEdges leaf = []

/-- `bool_val`. -/
def boolVal {S : Type} : Bool → Term S .bool
  | true => .eq (.intVal 0) (.intVal 0)
  | false => .not (.eq (.intVal 0) (.intVal 0))

@[simp] theorem eval_boolVal {S : Type} (M : Model S) (b : Bool) : (boolVal b).eval M = b := by
  cases b <;> rfl

/-- `simplify`, which keeps the meaning of a term. -/
structure Simplifier (S : Type) where
  simplify : Term S .bool → Term S .bool
  eval_simplify : ∀ M t, (simplify t).eval M = t.eval M

/-- The arguments of `filterOutUnreachableNodes`. -/
structure PruneQuery (N S W : Type) where
  dag : PathDAG N W
  additionalConstraint : Option (Term S .bool)
  LPC : N → N → Option (Term S .bool)
  z3 : Z3 S
  simplifier : Simplifier S

/-- The variables that the search changes, the graph among them. -/
structure FilterContext (N S W : Type) where
  graph : AdjacencyList (List N) W
  visited : ℕ → Bool
  nodeConstraints : ℕ → Term S .bool
  ctr : ℕ
  solver : Solver S

variable {N S W : Type}

/-- `removeEdge` at an index. -/
def removeEdge (vtx i : ℕ) (G : AdjacencyList (List N) W) : AdjacencyList (List N) W :=
  { G with adj := G.adj.modify vtx (swapRemove · i) }

/-- `removeRoot` at an index. -/
def removeRoot (i : ℕ) (G : AdjacencyList (List N) W) : AdjacencyList (List N) W :=
  { G with roots := swapRemove G.roots i }

/-- The label of a vertex, from its first instruction to its last one. -/
def label (G : AdjacencyList (List N) W) (v : ℕ) : List N := ((G.node v).getD []).reverse

def children (G : AdjacencyList (List N) W) (v : ℕ) : List ℕ := (G.outEdges v).map OutEdge.target

theorem outEdges_removeEdge (vtx i : ℕ) (G : AdjacencyList (List N) W) (v : ℕ) :
    (removeEdge vtx i G).outEdges v =
      if v = vtx then swapRemove (G.outEdges v) i else G.outEdges v := by
  change ((G.adj.modify vtx (swapRemove · i))[v]?).getD [] = _
  rw [List.getElem?_modify, AdjacencyList.outEdges]
  by_cases hv : v = vtx
  · subst hv
    rw [if_pos rfl]
    cases G.adj[v]? <;> simp [swapRemove]
  · rw [if_neg hv]
    cases G.adj[v]? <;> simp [Ne.symm hv]

theorem size_removeEdge (vtx i : ℕ) (G : AdjacencyList (List N) W) :
    (removeEdge vtx i G).size = G.size := List.length_modify ..

namespace PruneQuery

variable (q : PruneQuery N S W)

/-- `X && *Constr`, where the edge has a constraint. -/
def addConstraint (X : Term S .bool) (prev inst : N) : Term S .bool :=
  match q.LPC prev inst with
  | some constr => .logic .and X constr
  | none => X

/-- The constraints inside a vertex. -/
def vertexConstraint (insts : List N) : Term S .bool :=
  (insts.zip insts.tail).foldl (fun X p => q.addConstraint X p.1 p.2) (boolVal true)

/-- `Y`, with the constraint from the last instruction of a vertex to the first one of the next. -/
def edgeConstraint (insts adjInsts : List N) (Y : Term S .bool) : Term S .bool :=
  match insts.getLast?, adjInsts.head? with
  | some prev, some inst => q.addConstraint Y prev inst
  | _, _ => Y

/-- The body of the loop over the edges of `vtx`; the second part of the state is `Ys`. -/
def visitEdge (doFilter : ℕ → FilterContext N S W → Option (FilterContext N S W)) (vtx : ℕ)
    (X : Term S .bool) (edge : OutEdge W) (s : FilterContext N S W × List (Term S .bool)) :
    Option (Bool × FilterContext N S W × List (Term S .bool)) :=
  let adj := edge.target
  (if s.1.visited adj then some s.1 else doFilter adj s.1).map fun ctx =>
    let Y := q.edgeConstraint (label ctx.graph vtx) (label ctx.graph adj) (ctx.nodeConstraints adj)
    let solver := (ctx.solver.push.add ⟨.bool, X⟩).add ⟨.bool, Y⟩
    if (q.z3.check solver.assertions).isSome then
      (true, { ctx with solver := solver.pop }, s.2 ++ [Y])
    else
      (false, { ctx with
        ctr := ctx.ctr + 1
        solver := solver.pop }, s.2)

/-- `NodeConstraints[vtx] = constr`. -/
def setConstraint (vtx : ℕ) (constr : Term S .bool) (ctx : FilterContext N S W) : FilterContext N S W :=
  { ctx with nodeConstraints := Function.update ctx.nodeConstraints vtx constr }

/-- After the loop over the edges; what is returned is the constraint of the vertex. -/
def finish (vtx : ℕ) (X : Term S .bool) (s : FilterContext N S W × List (Term S .bool)) :
    Option (FilterContext N S W) :=
  if s.1.graph.outDegree vtx = 0 then
    some (setConstraint vtx (if vtx = q.dag.leaf then X else boolVal false) s.1)
  else match s.2 with
    | [] => none
    | y :: ys => some (setConstraint vtx
        (q.simplifier.simplify (.logic .and X (ys.foldl (.logic .or) y))) s.1)

/-- The out-edges of a vertex, in the state of the loop over them. -/
def loopEdges (vtx : ℕ) (s : FilterContext N S W × List (Term S .bool)) : List (OutEdge W) :=
  s.1.graph.outEdges vtx

def loopRemove (vtx i : ℕ) (s : FilterContext N S W × List (Term S .bool)) :
    FilterContext N S W × List (Term S .bool) :=
  ({ s.1 with graph := removeEdge vtx i s.1.graph }, s.2)

def doFilter : ℕ → ℕ → FilterContext N S W → Option (FilterContext N S W)
  | 0, _, _ => none
  | fuel + 1, vtx, ctx =>
    let X := q.vertexConstraint (label ctx.graph vtx)
    (sweep (loopEdges vtx) (loopRemove vtx) (q.visitEdge (doFilter fuel) vtx X)
      (ctx.graph.outDegree vtx + 1) 0
      ({ ctx with visited := Function.update ctx.visited vtx true }, [])).bind (q.finish vtx X)

/-- The body of the loop over the roots; the second part of the state is `Ret`. -/
def visitRoot (rt : ℕ) (s : FilterContext N S W × Term S .bool) :
    Option (Bool × FilterContext N S W × Term S .bool) :=
  (q.doFilter q.dag.graph.size rt s.1).map fun ctx =>
    (!(decide (rt ≠ q.dag.leaf) && (ctx.graph.outEdges rt).isEmpty),
      ctx, .logic .or s.2 (ctx.nodeConstraints rt))

def init : FilterContext N S W where
  graph := q.dag.graph
  visited _ := false
  nodeConstraints _ := boolVal true
  ctr := 0
  solver := ⟨(q.additionalConstraint.map fun e => (⟨.bool, e⟩ : Expr S)).toList, []⟩

/-- The pruned graph, and the constraint for reaching the leaf. The recursion is not deeper than there
are vertices. -/
def filterOutUnreachableNodes : Option (AdjacencyList (List N) W × Term S .bool) :=
  (sweep (fun s : FilterContext N S W × Term S .bool => s.1.graph.roots)
    (fun i s => ({ s.1 with graph := removeRoot i s.1.graph }, s.2)) q.visitRoot
    (q.dag.graph.roots.length + 1) 0 (q.init, boolVal false)).map fun s =>
      (s.1.graph, q.simplifier.simplify s.2)

/-! ### The constraints of a path -/

def AllTrue (M : Model S) (constraints : List (Term S .bool)) : Prop :=
  ∀ c ∈ constraints, c.eval M = true

/-- The constraints on the edges between instructions in a row. -/
def chain : List N → List (Term S .bool)
  | [] => []
  | [_] => []
  | prev :: inst :: insts => (q.LPC prev inst).toList ++ chain (inst :: insts)

/-- The constraint on the edge from one list of instructions to the next one. -/
def between (insts insts' : List N) : List (Term S .bool) :=
  match insts.getLast?, insts'.head? with
  | some prev, some inst => (q.LPC prev inst).toList
  | _, _ => []

/-- The instructions on a path. -/
def sequence (G : AdjacencyList (List N) W) (path : List ℕ) : List N := path.flatMap (label G)

/-- The model satisfies the additional constraint. -/
def Assumed (M : Model S) : Prop := ∀ c ∈ q.additionalConstraint, c.eval M = true

/-- The model satisfies the constraints on a path. -/
def Admits (M : Model S) (G : AdjacencyList (List N) W) (path : List ℕ) : Prop :=
  AllTrue M (q.chain (sequence G path))

/-- A path from a root of the graph to the leaf, whose constraints can be satisfied together with the
additional one. -/
def FeasiblePath (G : AdjacencyList (List N) W) (path : List ℕ) : Prop :=
  (∃ r ∈ G.roots, PathTo (children G) q.dag.leaf r path) ∧ ∃ M, q.Assumed M ∧ q.Admits M G path

variable {q}

theorem allTrue_append {M : Model S} {cs ds : List (Term S .bool)} :
    AllTrue M (cs ++ ds) ↔ AllTrue M cs ∧ AllTrue M ds :=
  List.forall_mem_append

theorem chain_append (l m : List N) :
    q.chain (l ++ m) = q.chain l ++ q.between l m ++ q.chain m := by
  induction l with
  | nil => rfl
  | cons a l ih =>
    cases l with
    | nil =>
      cases m with
      | nil => rfl
      | cons b m => rfl
    | cons b l =>
      have hlast : q.between (a :: b :: l) m = q.between (b :: l) m := by
        rw [between, between, List.getLast?_cons_cons]
      rw [List.cons_append, List.cons_append, chain, ← List.cons_append, ih, chain, hlast]
      simp only [List.append_assoc]

theorem eval_addConstraint {M : Model S} {X : Term S .bool} {prev inst : N} :
    (q.addConstraint X prev inst).eval M = true ↔
      X.eval M = true ∧ AllTrue M (q.LPC prev inst).toList := by
  rw [addConstraint]
  cases q.LPC prev inst with
  | none => simp [AllTrue]
  | some c => simp [AllTrue, Term.eval, BoolOp.apply]

theorem eval_vertexConstraint {M : Model S} (insts : List N) :
    (q.vertexConstraint insts).eval M = true ↔ AllTrue M (q.chain insts) := by
  have hfold : ∀ (insts : List N) (X : Term S .bool),
      ((insts.zip insts.tail).foldl (fun X p => q.addConstraint X p.1 p.2) X).eval M = true ↔
        X.eval M = true ∧ AllTrue M (q.chain insts) := by
    intro insts
    induction insts with
    | nil => simp [chain, AllTrue]
    | cons a insts ih =>
      cases insts with
      | nil => simp [chain, AllTrue]
      | cons b insts =>
        intro X
        rw [List.tail_cons, List.zip_cons_cons, List.foldl_cons]
        rw [List.tail_cons] at ih
        rw [ih, eval_addConstraint, chain, allTrue_append, and_assoc]
  rw [vertexConstraint, hfold, eval_boolVal]
  exact and_iff_right rfl

theorem eval_edgeConstraint {M : Model S} {insts insts' : List N} {Y : Term S .bool} :
    (q.edgeConstraint insts insts' Y).eval M = true ↔
      Y.eval M = true ∧ AllTrue M (q.between insts insts') := by
  unfold edgeConstraint between
  split
  · exact eval_addConstraint
  · exact (and_iff_left fun c hc => absurd hc List.not_mem_nil).symm

theorem eval_foldl_or {M : Model S} {y : Term S .bool} {ys : List (Term S .bool)} :
    (ys.foldl (.logic .or) y).eval M = true ↔ ∃ t ∈ y :: ys, t.eval M = true := by
  induction ys generalizing y with
  | nil => simp
  | cons y' ys ih =>
    rw [List.foldl_cons, ih]
    simp [Term.eval, BoolOp.apply, or_assoc]

/-! ### Ways to the leaf -/

variable (q)

/-- The instructions of a vertex of the given graph. -/
def insts (v : ℕ) : List N := label q.dag.graph v

/-- The model satisfies the constraints on some path from the vertex to the leaf. -/
def Reaches (M : Model S) (v : ℕ) : Prop :=
  ∃ p, PathTo (children q.dag.graph) q.dag.leaf v p ∧ q.Admits M q.dag.graph p

/-- The model satisfies the constraints inside a vertex, on the edge behind it, and on some way to the
leaf. -/
def Passes (M : Model S) (v w : ℕ) : Prop :=
  AllTrue M (q.chain (q.insts v)) ∧ AllTrue M (q.between (q.insts v) (q.insts w)) ∧ q.Reaches M w

/-- An edge that must not be removed. -/
def Live (v w : ℕ) : Prop := ∃ M, q.Assumed M ∧ q.Passes M v w

variable {q}

theorem insts_ne_nil {w : ℕ} (h : w < q.dag.graph.size) : q.insts w ≠ [] := by
  obtain ⟨l, hl⟩ := q.dag.wf.node_isSome h
  rw [insts, label, hl]
  exact fun hnil => q.dag.label_ne_nil l (List.mem_of_getElem? hl) (List.reverse_eq_nil_iff.1 hnil)

theorem children_lt {v w : ℕ} (h : w ∈ children q.dag.graph v) : w < q.dag.graph.size := by
  obtain ⟨e, he, rfl⟩ := List.mem_map.1 h
  exact q.dag.wf.target_lt he

theorem admits_cons {M : Model S} {v w : ℕ} {p : List ℕ} (hw : w < q.dag.graph.size)
    (hp : PathTo (children q.dag.graph) q.dag.leaf w p) : q.Admits M q.dag.graph (v :: p) ↔
      AllTrue M (q.chain (q.insts v)) ∧ AllTrue M (q.between (q.insts v) (q.insts w)) ∧
        q.Admits M q.dag.graph p := by
  obtain ⟨rest, rfl⟩ := hp.exists_cons
  have hhead : q.between (q.insts v) (sequence q.dag.graph (w :: rest)) =
      q.between (q.insts v) (q.insts w) := by
    have hne : label q.dag.graph w ≠ [] := insts_ne_nil hw
    rw [between, between, sequence, List.flatMap_cons, List.head?_append_of_ne_nil _ hne]
    rfl
  rw [Admits, sequence, List.flatMap_cons, chain_append, allTrue_append, allTrue_append, and_assoc]
  exact and_congr_right fun _ => and_congr_left fun _ => by rw [← hhead]; rfl

theorem reaches_leaf {M : Model S} :
    q.Reaches M q.dag.leaf ↔ AllTrue M (q.chain (q.insts q.dag.leaf)) := by
  have hone : sequence q.dag.graph [q.dag.leaf] = q.insts q.dag.leaf := List.flatMap_singleton _ _
  constructor
  · rintro ⟨p, hp, hadmits⟩
    cases hp with
    | leaf => rwa [Admits, hone] at hadmits
    | cons h _ =>
      rw [children, q.dag.leaf_sink] at h
      cases h
  · intro h
    exact ⟨[q.dag.leaf], .leaf, by rwa [Admits, hone]⟩

/-- A way from another vertex goes over one of its edges. -/
theorem reaches_iff {M : Model S} {v : ℕ} (hv : v ≠ q.dag.leaf) :
    q.Reaches M v ↔ ∃ e ∈ q.dag.graph.outEdges v, q.Passes M v e.target := by
  constructor
  · rintro ⟨p, hp, hadmits⟩
    cases hp with
    | leaf => exact absurd rfl hv
    | @cons v w p hw hp =>
      obtain ⟨hchain, hbetween, hadmits⟩ := (admits_cons (children_lt hw) hp).1 hadmits
      obtain ⟨e, he, rfl⟩ := List.mem_map.1 hw
      exact ⟨e, he, hchain, hbetween, p, hp, hadmits⟩
  · rintro ⟨e, he, hchain, hbetween, p, hp, hadmits⟩
    have hw : e.target ∈ children q.dag.graph v := List.mem_map_of_mem he
    exact ⟨v :: p, .cons hw hp, (admits_cons (children_lt hw) hp).2 ⟨hchain, hbetween, hadmits⟩⟩

end PruneQuery

end Phasar.Z3BasedPathSensitivityManager
