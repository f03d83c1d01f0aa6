import Phasar.PathSensitivity.PathFlattening
import Phasar.PathSensitivity.UnreachableNodes

/-!
# What is left of a pruned path DAG

When the search leaves a vertex, its constraint is exact and its edges are those from which the leaf can
be reached.

* `Good`, `Invariant`: what is known of the vertices that were left, and of the others;
* `visitEdge_spec`, `doFilter_spec`: what one round of the loop and the search keep;
* `exists_revDAG`: the pruned graph has no dead ends, as `filterAndFlattenRevDag` expects;
* `filterOutUnreachableNodes_spec`: the feasible paths are those of the given graph.
-/

namespace Phasar.Z3BasedPathSensitivityManager.PruneQuery

open SMT Utils DagPaths SwapRemove

variable {N S W : Type} (q : PruneQuery N S W)

/-- The constraint says, in the models that matter, whether the leaf can be reached. -/
def Exact (v : ℕ) (constr : Term S .bool) : Prop :=
  ∀ M, q.Assumed M → (constr.eval M = true ↔ q.Reaches M v)

/-- A vertex that was left. -/
structure Good (ctx : FilterContext N S W) (v : ℕ) : Prop where
  exact : q.Exact v (ctx.nodeConstraints v)
  mem_outEdges : ∀ e, e ∈ ctx.graph.outEdges v ↔ e ∈ q.dag.graph.outEdges v ∧ q.Live v e.target
  visited_target : ∀ e ∈ ctx.graph.outEdges v, ctx.visited e.target = true

/-- The visited vertices have been left, apart from those that are active. -/
structure Invariant (active : ℕ → Prop) (ctx : FilterContext N S W) : Prop where
  nodes : ctx.graph.nodes = q.dag.graph.nodes
  size : ctx.graph.size = q.dag.graph.size
  solver : ctx.solver = q.init.solver
  good : ∀ v, ctx.visited v = true → ¬active v → q.Good ctx v
  untouched : ∀ v, ctx.visited v = false → ctx.graph.outEdges v = q.dag.graph.outEdges v

/-- A search visits vertices, and leaves the edges of active vertices and the roots alone. -/
structure Left (active : ℕ → Prop) (ctx ctx' : FilterContext N S W) : Prop where
  visited : ∀ v, ctx.visited v = true → ctx'.visited v = true
  outEdges : ∀ a, active a → ctx'.graph.outEdges a = ctx.graph.outEdges a
  roots : ctx'.graph.roots = ctx.graph.roots

/-- The loop over the edges of `vtx`: the edges that are kept, those still to visit, and the state. -/
structure EdgeLoop (active : ℕ → Prop) (vtx : ℕ) (ctx : FilterContext N S W)
    (done todo : List (OutEdge W)) (s : FilterContext N S W × List (Term S .bool)) : Prop where
  inv : q.Invariant (fun a => active a ∨ a = vtx) s.1
  left : Left active ctx s.1
  visited_self : s.1.visited vtx = true
  done_live : ∀ e ∈ done, e ∈ q.dag.graph.outEdges vtx ∧ q.Live vtx e.target ∧
    s.1.visited e.target = true
  todo_mem : ∀ e ∈ todo, e ∈ q.dag.graph.outEdges vtx
  complete : ∀ e ∈ q.dag.graph.outEdges vtx, q.Live vtx e.target → e ∈ done ∨ e ∈ todo
  exact : ∀ M, q.Assumed M → ((∃ y ∈ s.2, y.eval M = true) ↔ ∃ e ∈ done,
    AllTrue M (q.between (q.insts vtx) (q.insts e.target)) ∧ q.Reaches M e.target)
  done_nil : s.2 = [] → done = []

variable {q} {active : ℕ → Prop} {ctx ctx' : FilterContext N S W} {v vtx : ℕ}

theorem Left.trans {ctx'' : FilterContext N S W} (h : Left active ctx ctx') (h' : Left active ctx' ctx'') :
    Left active ctx ctx'' where
  visited v hv := h'.visited v (h.visited v hv)
  outEdges a ha := (h'.outEdges a ha).trans (h.outEdges a ha)
  roots := h'.roots.trans h.roots

/-- What is good stays good, as more vertices are visited. -/
theorem Good.congr (h : q.Good ctx v) (hconstr : ctx'.nodeConstraints v = ctx.nodeConstraints v)
    (hedges : ctx'.graph.outEdges v = ctx.graph.outEdges v)
    (hvisited : ∀ u, ctx.visited u = true → ctx'.visited u = true) : q.Good ctx' v where
  exact := by
    rw [hconstr]
    exact h.exact
  mem_outEdges e := by rw [hedges, h.mem_outEdges]
  visited_target e he := by
    rw [hedges] at he
    exact hvisited _ (h.visited_target e he)

theorem label_eq (h : q.Invariant active ctx) (v : ℕ) : label ctx.graph v = q.insts v := by
  rw [insts, label, label, AdjacencyList.node, AdjacencyList.node, h.nodes]

/-- A vertex that is visited, or was never touched, has all its live edges. -/
theorem Invariant.mem_outEdges (h : q.Invariant active ctx) (hv : ¬active v) :
    (∀ e ∈ ctx.graph.outEdges v, e ∈ q.dag.graph.outEdges v) ∧
      ∀ e ∈ q.dag.graph.outEdges v, q.Live v e.target → e ∈ ctx.graph.outEdges v := by
  cases hvisited : ctx.visited v with
  | false =>
    rw [h.untouched v hvisited]
    exact ⟨fun e he => he, fun e he _ => he⟩
  | true =>
    have hgood := h.good v hvisited hv
    exact ⟨fun e he => ((hgood.mem_outEdges e).1 he).1, fun e he hlive =>
      (hgood.mem_outEdges e).2 ⟨he, hlive⟩⟩

/-- The solver finds a model precisely for a live edge. -/
theorem check_iff {X Y : Term S .bool} {w : ℕ}
    (hX : ∀ M, X.eval M = true ↔ AllTrue M (q.chain (q.insts v)))
    (hY : ∀ M, q.Assumed M → (Y.eval M = true ↔
      q.Reaches M w ∧ AllTrue M (q.between (q.insts v) (q.insts w)))) :
    (q.z3.check (((q.init.solver.push.add ⟨.bool, X⟩).add ⟨.bool, Y⟩).assertions)).isSome = true ↔
      q.Live v w := by
  rw [q.z3.isSome_iff]
  have hholds : ∀ M, (∀ e ∈ ((q.init.solver.push.add ⟨.bool, X⟩).add ⟨.bool, Y⟩).assertions,
      Holds M e) ↔ q.Assumed M ∧ X.eval M = true ∧ Y.eval M = true := by
    intro M
    have hinit : (∀ e ∈ q.init.solver.assertions, Holds M e) ↔ q.Assumed M := by
      rw [init, Assumed]
      cases q.additionalConstraint with
      | none => simp
      | some c => simp [holds_bool]
    show (∀ e ∈ (q.init.solver.assertions ++ [_]) ++ [_], Holds M e) ↔ _
    rw [List.forall_mem_append, List.forall_mem_append, hinit, List.forall_mem_singleton,
      List.forall_mem_singleton, holds_bool, holds_bool, and_assoc]
  constructor
  · rintro ⟨M, hM⟩
    obtain ⟨hassumed, hXM, hYM⟩ := (hholds M).1 hM
    obtain ⟨hreaches, hbetween⟩ := (hY M hassumed).1 hYM
    exact ⟨M, hassumed, (hX M).1 hXM, hbetween, hreaches⟩
  · rintro ⟨M, hassumed, hchain, hbetween, hreaches⟩
    exact ⟨M, (hholds M).2 ⟨hassumed, (hX M).2 hchain, (hY M hassumed).2 ⟨hreaches, hbetween⟩⟩⟩

/-- What the recursion provides for the vertex `w`. -/
def Searches (q : PruneQuery N S W) (doFilter : ℕ → FilterContext N S W → Option (FilterContext N S W))
    (active : ℕ → Prop) (w : ℕ) : Prop :=
  ∀ ctx, q.Invariant active ctx → ∃ ctx', doFilter w ctx = some ctx' ∧ q.Invariant active ctx' ∧
    Left active ctx ctx' ∧ ctx'.visited w = true

/-- The target of an edge is visited, and its constraint is exact. -/
theorem visit_target {doFilter : ℕ → FilterContext N S W → Option (FilterContext N S W)} {w : ℕ}
    (hsearch : Searches q doFilter active w) (hw : ¬active w) (h : q.Invariant active ctx) :
    ∃ ctx', (if ctx.visited w then some ctx else doFilter w ctx) = some ctx' ∧
      q.Invariant active ctx' ∧ Left active ctx ctx' ∧ ctx'.visited w = true ∧ q.Good ctx' w := by
  cases hvisited : ctx.visited w with
  | true => exact ⟨ctx, rfl, h, ⟨fun _ hv => hv, fun _ _ => rfl, rfl⟩, hvisited, h.good w hvisited hw⟩
  | false =>
    obtain ⟨ctx', hctx', hinv, hleft, hw'⟩ := hsearch ctx h
    exact ⟨ctx', hctx', hinv, hleft, hw', hinv.good w hw' hw⟩

theorem Left.mono {active' : ℕ → Prop} (h : Left active' ctx ctx') (hle : ∀ a, active a → active' a) :
    Left active ctx ctx' := ⟨h.visited, fun a ha => h.outEdges a (hle a ha), h.roots⟩

/-- The solver is asked in a scope of its own. -/
theorem pop_add_add (s : Solver S) (a b : Expr S) : ((s.push.add a).add b).pop = s := by
  show (⟨((s.assertions ++ [a]) ++ [b]).take s.assertions.length, s.scopes⟩ : Solver S) = s
  rw [List.append_assoc, List.take_left]

theorem Invariant.setSolver (h : q.Invariant active ctx) (n : ℕ) {solver : Solver S}
    (hsolver : solver = q.init.solver) : q.Invariant active { ctx with ctr := n, solver := solver } where
  nodes := h.nodes
  size := h.size
  solver := hsolver
  good v hv ha := (h.good v hv ha).congr rfl rfl fun _ hu => hu
  untouched := h.untouched

/-- An edge of the active vertex `vtx` may be taken away. -/
theorem Invariant.removeEdge (h : q.Invariant (fun a => active a ∨ a = vtx) ctx)
    (hvtx : ctx.visited vtx = true) (i : ℕ) :
    q.Invariant (fun a => active a ∨ a = vtx) { ctx with graph := removeEdge vtx i ctx.graph } where
  nodes := h.nodes
  size := (size_removeEdge vtx i ctx.graph).trans h.size
  solver := h.solver
  good v hv ha := by
    refine (h.good v hv ha).congr rfl ?_ fun _ hu => hu
    rw [outEdges_removeEdge, if_neg fun heq => ha (Or.inr heq)]
  untouched v hv := by
    have hne : v ≠ vtx := by
      rintro rfl
      exact Bool.noConfusion (hv.symm.trans hvtx)
    rw [outEdges_removeEdge, if_neg hne]
    exact h.untouched v hv

/-- One round of the loop over the edges. -/
theorem visitEdge_spec {doFilter : ℕ → FilterContext N S W → Option (FilterContext N S W)}
    (hsearch : ∀ w ∈ children q.dag.graph vtx, Searches q doFilter (fun a => active a ∨ a = vtx) w)
    (hfresh : ∀ w ∈ children q.dag.graph vtx, ¬(active w ∨ w = vtx)) (hvtx : ¬active vtx)
    {done todo : List (OutEdge W)} {e : OutEdge W} {s : FilterContext N S W × List (Term S .bool)}
    (h : EdgeLoop q active vtx ctx done (e :: todo) s) :
    ∃ keep s', q.visitEdge doFilter vtx (q.vertexConstraint (q.insts vtx)) e s = some (keep, s') ∧
      loopEdges vtx s' = loopEdges vtx s ∧
      (keep = true → EdgeLoop q active vtx ctx (done ++ [e]) todo s') ∧
      (keep = false → ∀ todo', todo'.Perm todo →
        EdgeLoop q active vtx ctx done todo' (loopRemove vtx done.length s')) := by
  have he := h.todo_mem e List.mem_cons_self
  have hw : e.target ∈ children q.dag.graph vtx := List.mem_map_of_mem he
  obtain ⟨ctx', hctx', hinv, hleft, hvisited, hgood⟩ :=
    visit_target (hsearch _ hw) (hfresh _ hw) h.inv
  have hleft' : Left active ctx ctx' := h.left.trans (hleft.mono fun a => Or.inl)
  have hself := hleft.visited vtx h.visited_self
  have hdone : ∀ e' ∈ done, e' ∈ q.dag.graph.outEdges vtx ∧ q.Live vtx e'.target ∧
      ctx'.visited e'.target = true := fun e' he' =>
    ⟨(h.done_live e' he').1, (h.done_live e' he').2.1, hleft.visited _ (h.done_live e' he').2.2⟩
  -- the constraint of the edge says which paths reach it, so that the check decides whether it is live
  have hY : ∀ M, q.Assumed M →
      ((q.edgeConstraint (q.insts vtx) (q.insts e.target) (ctx'.nodeConstraints e.target)).eval M = true ↔
        q.Reaches M e.target ∧ AllTrue M (q.between (q.insts vtx) (q.insts e.target))) := by
    intro M hM
    rw [eval_edgeConstraint, hgood.exact M hM]
  have hcheck := check_iff (fun M => eval_vertexConstraint (q.insts vtx)) hY
  unfold visitEdge
  dsimp only
  rw [hctx', Option.map_some, label_eq hinv, label_eq hinv, hinv.solver, pop_add_add]
  by_cases hlive : q.Live vtx e.target
  · rw [if_pos (hcheck.2 hlive)]
    refine ⟨true, _, rfl, hleft.outEdges vtx (Or.inr rfl), fun _ => ?_, fun hfalse => by cases hfalse⟩
    refine ⟨hinv.setSolver _ rfl, ⟨hleft'.visited, hleft'.outEdges, hleft'.roots⟩, hself, ?_,
      fun e' he' => h.todo_mem e' (List.mem_cons_of_mem e he'), ?_, ?_, ?_⟩
    · intro e' he'
      rcases List.mem_append.1 he' with he' | he'
      · exact hdone e' he'
      · rw [List.mem_singleton.1 he']
        exact ⟨he, hlive, hvisited⟩
    · intro e' he' hlive'
      rcases h.complete e' he' hlive' with hmem | hmem
      · exact Or.inl (List.mem_append_left _ hmem)
      · rcases List.mem_cons.1 hmem with rfl | hmem
        · exact Or.inl (List.mem_append_right _ (List.mem_singleton_self _))
        · exact Or.inr hmem
    · intro M hM
      have hold := h.exact M hM
      have hnew := hY M hM
      simp only [List.mem_append, List.mem_singleton, or_and_right, exists_or, exists_eq_left]
      rw [hold, hnew, and_comm]
    · exact fun hnil => absurd hnil (List.append_ne_nil_of_right_ne_nil _ (List.cons_ne_nil _ _))
  · rw [if_neg fun hsome => hlive (hcheck.1 hsome)]
    refine ⟨false, _, rfl, hleft.outEdges vtx (Or.inr rfl), fun htrue => Bool.noConfusion htrue,
      fun _ todo' hperm => ?_⟩
    refine ⟨(hinv.setSolver _ rfl).removeEdge hself _, ⟨hleft'.visited, fun a ha => ?_, hleft'.roots⟩,
      hself, hdone, fun e' he' => h.todo_mem e' (List.mem_cons_of_mem e (hperm.mem_iff.1 he')), ?_,
      h.exact, h.done_nil⟩
    · have hne : a ≠ vtx := by
        rintro rfl
        exact hvtx ha
      show (removeEdge vtx _ ctx'.graph).outEdges a = _
      rw [outEdges_removeEdge, if_neg hne]
      exact hleft'.outEdges a ha
    · intro e' he' hlive'
      rcases h.complete e' he' hlive' with hmem | hmem
      · exact Or.inl hmem
      · rcases List.mem_cons.1 hmem with rfl | hmem
        · exact absurd hlive' hlive
        · exact Or.inr (hperm.mem_iff.2 hmem)

/-- The loop starts with all edges still to visit. -/
theorem EdgeLoop.start (h : q.Invariant active ctx) (hvtx : ¬active vtx) :
    EdgeLoop q active vtx ctx [] (ctx.graph.outEdges vtx)
      ({ ctx with visited := Function.update ctx.visited vtx true }, []) := by
  have hmono : ∀ v, ctx.visited v = true → Function.update ctx.visited vtx true v = true := by
    intro v hv
    by_cases heq : v = vtx
    · rw [heq, Function.update_self]
    · rwa [Function.update_of_ne heq]
  have hedges := h.mem_outEdges hvtx
  refine ⟨⟨h.nodes, h.size, h.solver, fun v hv ha => ?_, fun v hv => ?_⟩,
    ⟨hmono, fun _ _ => rfl, rfl⟩, Function.update_self _ _ _, fun e he => absurd he List.not_mem_nil,
    hedges.1, fun e he hlive => Or.inr (hedges.2 e he hlive), fun M _ => ?_, fun _ => rfl⟩
  · have hne : v ≠ vtx := fun heq => ha (Or.inr heq)
    have hv' : ctx.visited v = true := by rwa [← Function.update_of_ne hne true ctx.visited]
    exact (h.good v hv' fun ha' => ha (Or.inl ha')).congr rfl rfl hmono
  · refine h.untouched v ?_
    cases hv' : ctx.visited v with
    | false => rfl
    | true => exact absurd (hv.symm.trans (hmono v hv')) Bool.false_ne_true
  · exact iff_of_false (fun ⟨y, hy, _⟩ => List.not_mem_nil hy) fun ⟨e, he, _⟩ => List.not_mem_nil he

/-- The vertex is left with an exact constraint. -/
theorem Invariant.leave {s : FilterContext N S W × List (Term S .bool)} {done : List (OutEdge W)}
    (h : EdgeLoop q active vtx ctx done [] s) (hget : loopEdges vtx s = done) {constr : Term S .bool}
    (hexact : q.Exact vtx constr) : q.Invariant active (setConstraint vtx constr s.1) where
  nodes := h.inv.nodes
  size := h.inv.size
  solver := h.inv.solver
  untouched := h.inv.untouched
  good v hv ha := by
    by_cases heq : v = vtx
    · subst heq
      refine ⟨?_, fun e => ?_, fun e he => ?_⟩
      · show q.Exact v (Function.update s.1.nodeConstraints v constr v)
        rwa [Function.update_self]
      · show e ∈ loopEdges v s ↔ _
        rw [hget]
        constructor
        · exact fun he => ⟨(h.done_live e he).1, (h.done_live e he).2.1⟩
        · rintro ⟨he, hlive⟩
          exact (h.complete e he hlive).resolve_right List.not_mem_nil
      · have he' : e ∈ loopEdges v s := he
        rw [hget] at he'
        exact (h.done_live e he').2.2
    · refine (h.inv.good v hv ?_).congr ?_ rfl fun _ hu => hu
      · rintro (ha' | heq')
        · exact ha ha'
        · exact heq heq'
      · exact Function.update_of_ne heq _ _

/-- What the loop has found out about the ways to the leaf. -/
theorem EdgeLoop.reaches_iff {s : FilterContext N S W × List (Term S .bool)} {done : List (OutEdge W)}
    (h : EdgeLoop q active vtx ctx done [] s) (hvtx : vtx ≠ q.dag.leaf) {M : Model S}
    (hM : q.Assumed M) : q.Reaches M vtx ↔
      AllTrue M (q.chain (q.insts vtx)) ∧ ∃ y ∈ s.2, y.eval M = true := by
  rw [PruneQuery.reaches_iff hvtx, h.exact M hM]
  constructor
  · rintro ⟨e, he, hpasses⟩
    have hdone := (h.complete e he ⟨M, hM, hpasses⟩).resolve_right List.not_mem_nil
    exact ⟨hpasses.1, e, hdone, hpasses.2⟩
  · rintro ⟨hchain, e, he, hpasses⟩
    exact ⟨e, (h.done_live e he).1, hchain, hpasses⟩

theorem finish_spec {s : FilterContext N S W × List (Term S .bool)} {done : List (OutEdge W)}
    (h : EdgeLoop q active vtx ctx done [] s) (hget : loopEdges vtx s = done) :
    ∃ ctx', q.finish vtx (q.vertexConstraint (q.insts vtx)) s = some ctx' ∧
      q.Invariant active ctx' ∧ Left active ctx ctx' ∧ ctx'.visited vtx = true := by
  have hresult : ∀ constr, q.Exact vtx constr → ∃ ctx', some (setConstraint vtx constr s.1) = some ctx' ∧
      q.Invariant active ctx' ∧ Left active ctx ctx' ∧ ctx'.visited vtx = true := fun constr hexact =>
    ⟨_, rfl, .leave h hget hexact, ⟨h.left.visited, h.left.outEdges, h.left.roots⟩, h.visited_self⟩
  have hdegree : s.1.graph.outDegree vtx = done.length := congrArg List.length hget
  rw [finish, hdegree]
  split_ifs with hzero hleaf
  · refine hresult _ fun M _ => ?_
    rw [eval_vertexConstraint, hleaf, reaches_leaf]
  · refine hresult _ fun M hM => ?_
    rw [eval_boolVal, h.reaches_iff hleaf hM, h.exact M hM, List.length_eq_zero_iff.1 hzero]
    exact iff_of_false Bool.false_ne_true fun ⟨_, e, he, _⟩ => List.not_mem_nil he
  · have hne : vtx ≠ q.dag.leaf := by
      rintro rfl
      refine hzero (List.length_eq_zero_iff.2 (List.eq_nil_iff_forall_not_mem.2 fun e he => ?_))
      have hmem := (h.done_live e he).1
      rw [q.dag.leaf_sink] at hmem
      cases hmem
    cases hys : s.2 with
    | nil => exact absurd (congrArg List.length (h.done_nil hys)) hzero
    | cons y ys =>
      refine hresult _ fun M hM => ?_
      have heval : (Term.logic .and (q.vertexConstraint (q.insts vtx)) (ys.foldl (.logic .or) y)).eval M =
          ((q.vertexConstraint (q.insts vtx)).eval M && (ys.foldl (.logic .or) y).eval M) := rfl
      rw [q.simplifier.eval_simplify, heval, Bool.and_eq_true, eval_vertexConstraint, eval_foldl_or,
        h.reaches_iff hne hM, hys]

/-- The search leaves a vertex good, and never runs into the unreachable case. -/
theorem doFilter_spec {rank : ℕ → ℕ}
    (hrank : ∀ v, ∀ w ∈ children q.dag.graph v, rank w < rank v) {fuel : ℕ} (hfuel : rank vtx < fuel)
    (hactive : ∀ a, active a → Relation.TransGen (fun v w => w ∈ children q.dag.graph v) a vtx) :
    Searches q (q.doFilter fuel) active vtx := by
  induction fuel generalizing vtx active with
  | zero => exact absurd hfuel (Nat.not_lt_zero _)
  | succ fuel ih =>
    intro ctx h
    have hvtx : ¬active vtx := fun ha => q.dag.acyclic vtx (hactive vtx ha)
    -- on the way to a child, the vertex itself is active as well
    have hway : ∀ w ∈ children q.dag.graph vtx, ∀ a, (active a ∨ a = vtx) →
        Relation.TransGen (fun v w => w ∈ children q.dag.graph v) a w := by
      rintro w hw a (ha | rfl)
      · exact (hactive a ha).tail hw
      · exact .single hw
    obtain ⟨kept, s, hs, hget, hloop⟩ := sweep_rule (loopEdges vtx) (loopRemove vtx)
      (q.visitEdge (q.doFilter fuel) vtx (q.vertexConstraint (q.insts vtx)))
      (EdgeLoop q active vtx ctx)
      (fun i s => by
        show (removeEdge vtx i s.1.graph).outEdges vtx = _
        rw [outEdges_removeEdge, if_pos rfl]
        rfl)
      (fun done e todo s hloop _ => visitEdge_spec
        (fun w hw => ih (lt_of_lt_of_le (hrank vtx w hw) (Nat.lt_succ_iff.1 hfuel)) (hway w hw))
        (fun w hw ha => q.dag.acyclic w (hway w hw w ha)) hvtx hloop)
      (EdgeLoop.start h hvtx) rfl (Nat.lt_succ_self _)
    obtain ⟨ctx', hctx', hrest⟩ := finish_spec hloop hget
    refine ⟨ctx', ?_, hrest⟩
    rw [doFilter, label_eq h]
    exact (congrArg (·.bind (q.finish vtx (q.vertexConstraint (q.insts vtx)))) hs).trans hctx'

/-! ### The loop over the roots -/

variable (q) in
/-- Some edge of the vertex is not removed, or it is the leaf. -/
def Alive (v : ℕ) : Prop := v = q.dag.leaf ∨ ∃ e ∈ q.dag.graph.outEdges v, q.Live v e.target

theorem alive_of_reaches {M : Model S} (hM : q.Assumed M) (h : q.Reaches M v) : q.Alive v := by
  by_cases hv : v = q.dag.leaf
  · exact Or.inl hv
  · obtain ⟨e, he, hpasses⟩ := (reaches_iff hv).1 h
    exact Or.inr ⟨e, he, M, hM, hpasses⟩

variable (q) in
/-- The loop over the roots: the roots that are kept, those still to visit, and the state. -/
structure RootLoop (done todo : List ℕ) (s : FilterContext N S W × Term S .bool) : Prop where
  inv : q.Invariant (fun _ => False) s.1
  done_alive : ∀ r ∈ done, r ∈ q.dag.graph.roots ∧ s.1.visited r = true ∧ q.Alive r
  todo_mem : ∀ r ∈ todo, r ∈ q.dag.graph.roots
  complete : ∀ r ∈ q.dag.graph.roots, q.Alive r → r ∈ done ∨ r ∈ todo
  exact : ∀ M, q.Assumed M → (s.2.eval M = true ↔ ∃ r ∈ done, q.Reaches M r)

theorem RootLoop.start : RootLoop q [] q.dag.graph.roots (q.init, boolVal false) where
  inv := ⟨rfl, rfl, rfl, fun _ hv => Bool.noConfusion hv, fun _ _ => rfl⟩
  done_alive r hr := absurd hr List.not_mem_nil
  todo_mem r hr := hr
  complete r hr _ := Or.inr hr
  exact M _ := by
    rw [eval_boolVal]
    exact iff_of_false Bool.false_ne_true fun ⟨r, hr, _⟩ => List.not_mem_nil hr

theorem visitRoot_spec {rank : ℕ → ℕ}
    (hrank : ∀ v, ∀ w ∈ children q.dag.graph v, rank w < rank v) {rt : ℕ}
    (hfuel : rank rt < q.dag.graph.size) {done todo : List ℕ} {s : FilterContext N S W × Term S .bool}
    (h : RootLoop q done (rt :: todo) s) :
    ∃ keep s', q.visitRoot rt s = some (keep, s') ∧ s'.1.graph.roots = s.1.graph.roots ∧
      (keep = true → RootLoop q (done ++ [rt]) todo s') ∧
      (keep = false → ∀ todo', todo'.Perm todo → ∀ i,
        RootLoop q done todo' ({ s'.1 with graph := removeRoot i s'.1.graph }, s'.2)) := by
  obtain ⟨ctx', hctx', hinv, hleft, hvisited⟩ :=
    doFilter_spec hrank hfuel (fun a (ha : False) => ha.elim) s.1 h.inv
  have hgood : q.Good ctx' rt := hinv.good rt hvisited not_false
  have hdone : ∀ r ∈ done, r ∈ q.dag.graph.roots ∧ ctx'.visited r = true ∧ q.Alive r := fun r hr =>
    ⟨(h.done_alive r hr).1, hleft.visited r (h.done_alive r hr).2.1, (h.done_alive r hr).2.2⟩
  have hexact : ∀ M, q.Assumed M →
      ((Term.logic .or s.2 (ctx'.nodeConstraints rt)).eval M = true ↔
        (∃ r ∈ done, q.Reaches M r) ∨ q.Reaches M rt) := by
    intro M hM
    rw [← h.exact M hM, ← hgood.exact M hM, ← Bool.or_eq_true]
    rfl
  -- the edges that are left at a visited vertex are its live ones
  have halive : q.Alive rt ↔ rt = q.dag.leaf ∨ ctx'.graph.outEdges rt ≠ [] := by
    refine or_congr_right ⟨?_, fun hne => ?_⟩
    · rintro ⟨e, he, hlive⟩
      exact List.ne_nil_of_mem ((hgood.mem_outEdges e).2 ⟨he, hlive⟩)
    · obtain ⟨e, he⟩ := List.exists_mem_of_ne_nil _ hne
      exact ⟨e, (hgood.mem_outEdges e).1 he⟩
  refine ⟨_, _, by rw [visitRoot, hctx', Option.map_some], hleft.roots, fun hkeep => ?_,
    fun hkeep todo' hperm i => ?_⟩
  · have hrt : q.Alive rt := by
      rw [halive]
      simpa [or_iff_not_imp_left] using hkeep
    refine ⟨hinv, fun r hr => ?_, fun r hr => h.todo_mem r (List.mem_cons_of_mem rt hr),
      fun r hr hr' => ?_, fun M hM => ?_⟩
    · rcases List.mem_append.1 hr with hr | hr
      · exact hdone r hr
      · rw [List.mem_singleton.1 hr]
        exact ⟨h.todo_mem rt List.mem_cons_self, hvisited, hrt⟩
    · rcases h.complete r hr hr' with hmem | hmem
      · exact Or.inl (List.mem_append_left _ hmem)
      · rcases List.mem_cons.1 hmem with rfl | hmem
        · exact Or.inl (List.mem_append_right _ (List.mem_singleton_self _))
        · exact Or.inr hmem
    · rw [hexact M hM]
      simp only [List.mem_append, List.mem_singleton, or_and_right, exists_or, exists_eq_left]
  · have hrt : ¬q.Alive rt := by
      rw [halive]
      simpa [or_iff_not_imp_left] using hkeep
    refine ⟨⟨hinv.nodes, hinv.size, hinv.solver, fun v hv ha => (hinv.good v hv ha).congr rfl rfl
      fun _ hu => hu, hinv.untouched⟩, hdone, fun r hr => h.todo_mem r
      (List.mem_cons_of_mem rt (hperm.mem_iff.1 hr)), fun r hr hr' => ?_, fun M hM => ?_⟩
    · rcases h.complete r hr hr' with hmem | hmem
      · exact Or.inl hmem
      · rcases List.mem_cons.1 hmem with rfl | hmem
        · exact absurd hr' hrt
        · exact Or.inr (hperm.mem_iff.2 hmem)
    · rw [hexact M hM]
      exact or_iff_left fun hreaches => hrt (alive_of_reaches hM hreaches)

/-! ### The pruned graph -/

theorem filterOut_rootLoop (q : PruneQuery N S W) : ∃ s : FilterContext N S W × Term S .bool,
    q.filterOutUnreachableNodes = some (s.1.graph, q.simplifier.simplify s.2) ∧
      RootLoop q s.1.graph.roots [] s := by
  obtain ⟨rank, hrank, hlt⟩ := TopologicalOrder.exists_rank (S := Finset.range q.dag.graph.size)
    (fun v w hw => Finset.mem_range.2 (children_lt (q := q) (v := v) hw)) q.dag.acyclic
  rw [Finset.card_range] at hlt
  obtain ⟨kept, s, hs, hget, hloop⟩ := sweep_rule
    (fun s : FilterContext N S W × Term S .bool => s.1.graph.roots)
    (fun i s => ({ s.1 with graph := removeRoot i s.1.graph }, s.2)) q.visitRoot (RootLoop q)
    (fun i s => rfl)
    (fun done rt todo s h _ => by
      have hroot := q.dag.wf.root_lt (h.todo_mem rt List.mem_cons_self)
      obtain ⟨keep, s', hs', hroots, hkeep, hdrop⟩ :=
        visitRoot_spec hrank (hlt rt (Finset.mem_range.2 hroot)) h
      exact ⟨keep, s', hs', hroots, hkeep, fun hfalse todo' hperm => hdrop hfalse todo' hperm _⟩)
    RootLoop.start rfl (Nat.lt_succ_self _)
  refine ⟨s, congrArg (Option.map _) hs, ?_⟩
  rw [hget]
  exact hloop

variable {s : FilterContext N S W × Term S .bool}

theorem admits_graph (h : q.Invariant active ctx) (M : Model S) (p : List ℕ) :
    q.Admits M ctx.graph p ↔ q.Admits M q.dag.graph p := by
  have hlabel : label ctx.graph = label q.dag.graph := funext fun v => label_eq h v
  rw [Admits, Admits, sequence, sequence, hlabel]

theorem Invariant.mem_children (h : q.Invariant (fun _ => False) ctx) {w : ℕ}
    (hw : w ∈ children ctx.graph v) : w ∈ children q.dag.graph v := by
  obtain ⟨e, he, rfl⟩ := List.mem_map.1 hw
  exact List.mem_map_of_mem ((h.mem_outEdges not_false).1 e he)

/-- A path of the pruned graph is one of the given graph. -/
theorem Invariant.pathTo (h : q.Invariant (fun _ => False) ctx) {p : List ℕ}
    (hp : PathTo (children ctx.graph) q.dag.leaf v p) : PathTo (children q.dag.graph) q.dag.leaf v p := by
  induction hp with
  | leaf => exact .leaf
  | cons hw _ ih => exact .cons (h.mem_children hw) ih

/-- All edges of a path that can be taken are left. -/
theorem Invariant.pathTo_of_admits (h : q.Invariant (fun _ => False) ctx) {M : Model S}
    (hM : q.Assumed M) {p : List ℕ} (hp : PathTo (children q.dag.graph) q.dag.leaf v p)
    (hv : ctx.visited v = true) (hadmits : q.Admits M q.dag.graph p) :
    PathTo (children ctx.graph) q.dag.leaf v p := by
  induction hp with
  | leaf => exact .leaf
  | @cons v w p hw hp ih =>
    obtain ⟨hchain, hbetween, hrest⟩ := (admits_cons (children_lt hw) hp).1 hadmits
    obtain ⟨e, he, rfl⟩ := List.mem_map.1 hw
    have hgood := h.good v hv not_false
    have hmem := (hgood.mem_outEdges e).2 ⟨he, M, hM, hchain, hbetween, p, hp, hrest⟩
    exact .cons (List.mem_map_of_mem hmem) (ih (hgood.visited_target e hmem) hrest)

/-- What is reached in the pruned graph is alive. -/
theorem RootLoop.alive (h : RootLoop q s.1.graph.roots [] s) {r : ℕ} (hr : r ∈ s.1.graph.roots)
    (hv : Relation.ReflTransGen (fun v w => w ∈ children s.1.graph v) r v) :
    s.1.visited v = true ∧ q.Alive v := by
  induction hv with
  | refl => exact (h.done_alive r hr).2
  | @tail v w _ hw ih =>
    obtain ⟨e, he, rfl⟩ := List.mem_map.1 hw
    have hgood := h.inv.good v ih.1 not_false
    obtain ⟨M, hM, -, -, hreaches⟩ := ((hgood.mem_outEdges e).1 he).2
    exact ⟨hgood.visited_target e he, alive_of_reaches hM hreaches⟩

theorem RootLoop.outEdges_ne_nil (h : RootLoop q s.1.graph.roots [] s) {r : ℕ}
    (hr : r ∈ s.1.graph.roots) (hv : Relation.ReflTransGen (fun v w => w ∈ children s.1.graph v) r v)
    (hne : v ≠ q.dag.leaf) : s.1.graph.outEdges v ≠ [] := by
  obtain ⟨hvisited, halive⟩ := h.alive hr hv
  obtain ⟨e, he, hlive⟩ := halive.resolve_left hne
  exact List.ne_nil_of_mem (((h.inv.good v hvisited not_false).mem_outEdges e).2 ⟨he, hlive⟩)

/-- The pruned graph is one that `filterAndFlattenRevDag` works on. -/
def RootLoop.revDAG (h : RootLoop q s.1.graph.roots [] s) : RevDAG N W where
  graph := s.1.graph
  leaf := q.dag.leaf
  wf := by
    refine ⟨?_, fun he => ?_, fun hr => ?_⟩
    · rw [h.inv.nodes, h.inv.size]
      exact q.dag.wf.size_eq
    · rw [h.inv.size]
      exact q.dag.wf.target_lt ((h.inv.mem_outEdges not_false).1 _ he)
    · rw [h.inv.size]
      exact q.dag.wf.root_lt (h.done_alive _ hr).1
  acyclic v hv := q.dag.acyclic v (hv.lift id fun _ _ hw => h.inv.mem_children hw)
  label_ne_nil l hl := q.dag.label_ne_nil l (h.inv.nodes ▸ hl)
  leaf_sink := List.eq_nil_iff_forall_not_mem.2 fun e he => by
    have hmem := (h.inv.mem_outEdges not_false).1 e he
    rw [q.dag.leaf_sink] at hmem
    cases hmem
  continues _ hr _ hv hne := h.outEdges_ne_nil hr hv hne

theorem exists_revDAG (q : PruneQuery N S W) : ∃ (D : RevDAG N W) (ret : Term S .bool),
    q.filterOutUnreachableNodes = some (D.graph, ret) ∧ D.leaf = q.dag.leaf := by
  obtain ⟨s, hs, hloop⟩ := filterOut_rootLoop q
  exact ⟨hloop.revDAG, _, hs, rfl⟩

end Phasar.Z3BasedPathSensitivityManager.PruneQuery
