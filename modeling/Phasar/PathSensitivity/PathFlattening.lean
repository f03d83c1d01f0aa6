import Phasar.Lib.DagPaths
import Phasar.Lib.TopologicalOrder
import Phasar.PathSensitivity.CallStackPathFilter
import Phasar.PathSensitivity.ConstraintPathFilter
import Phasar.Utils.AdjacencyList

/-!
# Flattening the paths of a DAG

`filterAndFlattenRevDag` walks through all paths of a reversed DAG and goes back to the saved state of
its filters after every vertex. It reports the paths that the filters let pass.

* `RevDAG`: what the caller hands over; `Query`: all arguments;
* `doFilter`, `filterAndFlattenRevDag`: `none` when it runs out of fuel, or into a fatal error;
* `Trace`, `Feasible`, `IsExact`: which paths are asked for;
* `filterAndFlattenRevDag_spec`: what is reported;
* `filterAndFlattenRevDag_exact_iff`: the feasible paths, exactly where the additional edge from the last
  instruction to the final one loses none.
-/

namespace Phasar.Z3BasedPathSensitivityManager

open SMT Utils

/-- A DAG whose only sink, as far as it is reached, is the leaf. The labels are stored in reverse. -/
structure RevDAG (N W : Type) where
  graph : AdjacencyList (List N) W
  leaf : ℕ
  wf : graph.WF
  acyclic : ∀ v, ¬Relation.TransGen (fun v w => w ∈ (graph.outEdges v).map OutEdge.target) v v
  label_ne_nil : ∀ label ∈ graph.nodes, label ≠ []
  leaf_sink : graph.outEdges leaf = []
  continues : ∀ r ∈ graph.roots, ∀ v,
    Relation.ReflTransGen (fun v w => w ∈ (graph.outEdges v).map OutEdge.target) r v →
      v ≠ leaf → graph.outEdges v ≠ []

structure FlowPath (N S : Type) where
  path : List N
  /-- The conjuncts. -/
  constraint : List (Expr S)
  model : Model S

/-- The arguments of `filterAndFlattenRevDag`, with `true` where there is no additional constraint. -/
structure Query (N S V W : Type) where
  revDAG : RevDAG N W
  finalInst : N
  additionalConstraint : Expr S
  maxNumPaths : ℕ
  I : Instructions N
  LPC : N → N → Option (ConstraintAndVariables S V)
  z3 : Z3 S

/-- The variables that the search changes. -/
structure FilterState (N S V : Type) where
  callStack : CallStackPathFilter N := {}
  constraints : ConstraintPathFilter S V
  currPath : List N := []
  prev : Option N := none
  ret : List (FlowPath N S) := []
  completedCtr : ℕ := 0

variable {N S V W : Type}

namespace Query

variable (q : Query N S V W)

def label (v : ℕ) : List N := ((q.revDAG.graph.node v).getD []).reverse

def children (v : ℕ) : List ℕ := (q.revDAG.graph.outEdges v).map OutEdge.target

def init : FilterState N S V := { constraints := .create q.additionalConstraint }

variable [DecidableEq N]

/-- The next instruction of a path. -/
def visitInst (s : FilterState N S V) (inst : N) : Option (FilterState N S V) :=
  match s.prev with
  | none => some { s with
      currPath := s.currPath ++ [inst]
      prev := some inst }
  | some prev => (s.callStack.saveEdge q.I prev inst).map fun callStack =>
    { s with
      callStack := callStack
      constraints := s.constraints.saveEdge q.LPC prev inst
      currPath := s.currPath ++ [inst]
      prev := some inst }

section

variable [LinearOrder V]

/-- At the leaf. -/
def reportPath (s : FilterState N S V) : Option (FilterState N S V) :=
  (s.callStack.saveFinalEdge q.I s.prev q.finalInst).bind fun r =>
    if r.1 = false then some { s with callStack := r.2 }
    else
      s.prev.bind fun prev =>
        let r' := s.constraints.saveFinalEdge q.z3.check q.LPC prev q.finalInst
        if r'.1 = false then some { s with
          callStack := r.2
          constraints := r'.2 }
        else r'.2.model.map fun model =>
          { s with
            callStack := r.2
            constraints := r'.2
            ret := s.ret ++ [⟨s.currPath, r'.2.solver.assertions, model⟩]
            completedCtr := s.completedCtr + 1 }

/-- `isValid` of the filters. -/
def isValid (s : FilterState N S V) : Bool × FilterState N S V :=
  if s.callStack.valid = false then (false, s)
  else
    let r := s.constraints.isValid q.z3.check
    (r.1, { s with constraints := r.2 })

end

def saveState (s : FilterState N S V) : FilterState N S V :=
  { s with
    callStack := s.callStack.saveState
    constraints := s.constraints.saveState }

/-- What the scope guards do. -/
def restoreState (saved s : FilterState N S V) : FilterState N S V :=
  { s with
    callStack := s.callStack.restoreState
    constraints := s.constraints.restoreState
    currPath := s.currPath.take saved.currPath.length
    prev := saved.prev }

section

variable [LinearOrder V]

def doFilter : ℕ → ℕ → FilterState N S V → Option (FilterState N S V)
  | 0, _, _ => none
  | fuel + 1, vtx, s =>
    ((q.label vtx).foldlM q.visitInst (saveState s)).bind fun entered =>
      Option.map (restoreState s) <|
        if vtx = q.revDAG.leaf then q.reportPath entered
        else if q.children vtx = [] then none
        else if q.maxNumPaths ≤ entered.completedCtr then some entered
        else
          let r := q.isValid entered
          if r.1 = false then some r.2
          else (q.children vtx).foldlM (fun s w => doFilter fuel w s) r.2

/-- The recursion is not deeper than there are vertices. -/
def filterAndFlattenRevDag : Option (List (FlowPath N S)) :=
  (q.revDAG.graph.roots.foldlM (fun s rt => q.doFilter q.revDAG.graph.size rt s) q.init).map
    FilterState.ret

end

/-! ### Which paths are asked for -/

/-- What the edges of a path amount to: the open calls, unless a return goes to the wrong place, and the
constraints. -/
structure Trace (N S : Type) where
  last : Option N
  calls : Option (List N)
  constraints : List (Expr S)

def step (t : Trace N S) (inst : N) : Trace N S :=
  match t.last with
  | none => { t with last := some inst }
  | some prev =>
    { last := some inst
      calls := t.calls.bind (q.I.callStackStep prev inst)
      constraints := t.constraints ++ ConstraintPathFilter.edgeConstraints q.LPC prev inst }

def start : Trace N S := ⟨none, some [], [q.additionalConstraint]⟩

def trace (insts : List N) : Trace N S := insts.foldl q.step q.start

/-- The instructions on a path through the DAG. -/
def sequence (path : List ℕ) : List N := path.flatMap q.label

/-- Calls and returns match, and the constraints can be satisfied. -/
def Feasible (insts : List N) : Prop :=
  (q.trace insts).calls.isSome ∧ Satisfiable (q.trace insts).constraints

/-- The number of ways to take a path from a root to the leaf: one, unless there are parallel edges. -/
def ways (path : List ℕ) : ℕ :=
  DagPaths.rootPathCount q.children q.revDAG.leaf q.revDAG.graph.roots path

/-- The reported paths are the feasible ones from the roots to the leaf, once for each way to take them. -/
def IsExact (ret : List (FlowPath N S)) : Prop :=
  ∃ L : List (List ℕ), ret.map FlowPath.path = L.map q.sequence ∧
    ∀ p, (q.Feasible (q.sequence p) → L.count p = q.ways p) ∧
      (¬q.Feasible (q.sequence p) → p ∉ L)

/-- An edge from the last instruction to the final one would be in order, too. -/
def FinalEdgeOk (insts : List N) : Prop :=
  ∃ last ∈ (q.trace insts).last,
    (∀ calls ∈ (q.trace insts).calls,
      CallStackPathFilter.FinalReturnOk q.I last q.finalInst calls) ∧
    Satisfiable ((q.trace insts).constraints ++
      ConstraintPathFilter.edgeConstraints q.LPC last q.finalInst)

/-! ### The state of the search -/

/-- Where the search is: what the path to there amounts to, the nodes of the call stack, the path, and
what the filters have saved. -/
structure Position (N S : Type) where
  trace : Trace N S
  nodes : List (CallStackNode N)
  path : List N
  callStackSafe : List (ℕ × Ptr)
  scopes : List ℕ

/-- The state of the search at a position. -/
structure At (s : FilterState N S V) (pos : Position N S) : Prop where
  last : s.prev = pos.trace.last
  callStack : s.callStack.Holds pos.nodes pos.trace.calls
  callStackSafe : s.callStack.callStackSafe = pos.callStackSafe
  constraints : s.constraints.Asserts pos.trace.constraints pos.scopes
  needSolverInvocation : s.constraints.needSolverInvocation = false
  path : s.currPath = pos.path

/-- Nothing is left to check, and the calls match. -/
structure Ready (s : FilterState N S V) (pos : Position N S) : Prop extends At s pos where
  quiet : s.constraints.Quiet
  calls : pos.trace.calls.isSome

/-- What was reported has not changed. -/
def SameResult (s s' : FilterState N S V) : Prop :=
  s'.ret = s.ret ∧ s'.completedCtr = s.completedCtr

variable {q} {s s' : FilterState N S V} {pos : Position N S}

omit [DecidableEq N] in
theorem at_init : Ready q.init ⟨q.start, [], [], [], [1]⟩ where
  last := rfl
  callStack := CallStackPathFilter.holds_init
  callStackSafe := rfl
  constraints := ConstraintPathFilter.asserts_create _
  needSolverInvocation := rfl
  path := rfl
  quiet := ConstraintPathFilter.quiet_create _
  calls := rfl

/-- The position after one more instruction. -/
def Position.next (q : Query N S V W) (pos : Position N S) (inst : N)
    (nodes : List (CallStackNode N)) : Position N S :=
  { pos with
    trace := q.step pos.trace inst
    nodes := nodes
    path := pos.path ++ [inst] }

theorem At.visitInst (h : At s pos) (inst : N) :
    ∃ s' nodes, q.visitInst s inst = some s' ∧ pos.nodes <+: nodes ∧
      At s' (pos.next q inst nodes) ∧ SameResult s s' := by
  rw [Query.visitInst, h.last]
  unfold Position.next step
  cases pos.trace.last with
  | none =>
    exact ⟨_, pos.nodes, rfl, List.prefix_rfl, ⟨rfl, h.callStack, h.callStackSafe, h.constraints,
      h.needSolverInvocation, by rw [h.path]⟩, rfl, rfl⟩
  | some prev =>
    obtain ⟨f, nodes, hf, hle, hholds, hsafe⟩ := h.callStack.saveEdge q.I prev inst
    dsimp only
    rw [hf]
    refine ⟨_, nodes, rfl, hle, ⟨rfl, hholds, hsafe.trans h.callStackSafe,
      h.constraints.saveEdge q.LPC prev inst, ?_, by rw [h.path]⟩, rfl, rfl⟩
    exact (ConstraintPathFilter.needSolverInvocation_saveEdge _ _ _ _).trans h.needSolverInvocation

/-- All instructions of a vertex. -/
theorem At.visitAll (h : At s pos) (insts : List N) :
    ∃ s' nodes, insts.foldlM q.visitInst s = some s' ∧ pos.nodes <+: nodes ∧
      At s' { pos with
        trace := insts.foldl q.step pos.trace
        nodes := nodes
        path := pos.path ++ insts } ∧ SameResult s s' := by
  induction insts generalizing s pos with
  | nil =>
    refine ⟨s, pos.nodes, rfl, List.prefix_rfl, ?_, rfl, rfl⟩
    rw [List.append_nil]
    exact h
  | cons inst insts ih =>
    obtain ⟨s₁, nodes₁, hs₁, hle₁, h₁, hsame₁⟩ := h.visitInst (q := q) inst
    obtain ⟨s₂, nodes₂, hs₂, hle₂, h₂, hsame₂⟩ := ih h₁
    refine ⟨s₂, nodes₂, ?_, hle₁.trans hle₂, ?_, hsame₂.1.trans hsame₁.1,
      hsame₂.2.trans hsame₁.2⟩
    · rw [List.foldlM_cons, hs₁]
      exact hs₂
    · rw [Position.next, List.append_assoc] at h₂
      exact h₂

/-! ### Going back -/

/-- The position after the filters have saved their state, where `tos` is the top of the call stack. -/
def Position.saved (tos : Ptr) (pos : Position N S) : Position N S :=
  { pos with
    callStackSafe := (pos.nodes.length, tos) :: pos.callStackSafe
    scopes := pos.trace.constraints.length :: pos.scopes }

omit [DecidableEq N] in
theorem Ready.saveState (h : Ready s pos) : At (saveState s) (pos.saved s.callStack.tos) where
  last := h.last
  callStack := h.callStack.saveState
  callStackSafe := by
    rw [Query.saveState, CallStackPathFilter.saveState, h.callStack.owner.size, h.callStackSafe]
    rfl
  constraints := h.constraints.saveState
  needSolverInvocation := h.needSolverInvocation
  path := h.path

/-- The position after the instructions of a vertex. -/
def Position.entered (q : Query N S V W) (v : ℕ) (tos : Ptr) (nodes : List (CallStackNode N))
    (pos : Position N S) : Position N S :=
  { pos.saved tos with
    trace := (q.label v).foldl q.step pos.trace
    nodes := nodes
    path := pos.path ++ q.label v }

theorem Ready.enter (h : Ready s pos) (v : ℕ) :
    ∃ s' nodes, (q.label v).foldlM q.visitInst (Query.saveState s) = some s' ∧ pos.nodes <+: nodes ∧
      At s' (pos.entered q v s.callStack.tos nodes) ∧ SameResult s s' :=
  h.saveState.visitAll (q.label v)

/-- What has been added since the filters saved the state `saved` can be taken back. -/
structure Left (saved : FilterState N S V) (pos : Position N S) (s : FilterState N S V) : Prop where
  callStack : ∃ nodes calls, s.callStack.Holds nodes calls ∧ pos.nodes <+: nodes
  callStackSafe : s.callStack.callStackSafe =
    (pos.nodes.length, saved.callStack.tos) :: pos.callStackSafe
  constraints : ∃ added, s.constraints.Asserts (pos.trace.constraints ++ added)
    (pos.trace.constraints.length :: pos.scopes)
  path : ∃ added, s.currPath = pos.path ++ added

omit [DecidableEq N] in
theorem Ready.restoreState {saved : FilterState N S V} (h : Ready saved pos) (hs : Left saved pos s) :
    Ready (restoreState saved s) pos := by
  obtain ⟨nodes, calls', hholds, hle⟩ := hs.callStack
  obtain ⟨added, hadded⟩ := hs.constraints
  obtain ⟨addedPath, hpath⟩ := hs.path
  obtain ⟨calls, hcalls⟩ := Option.isSome_iff_exists.1 h.calls
  obtain ⟨hback, hsafe⟩ := hholds.restoreState hs.callStackSafe hle (h.callStack.linked calls hcalls)
  refine ⟨⟨h.last, hcalls ▸ hback, hsafe, hadded.restoreState, rfl, ?_⟩,
    ConstraintPathFilter.quiet_restoreState _, h.calls⟩
  rw [Query.restoreState, hpath, h.path]
  exact List.take_left

/-! ### What is found -/

/-- From `s` to `s'` these paths were reported, unless the threshold was reached. -/
def Finds (q : Query N S V W) (s s' : FilterState N S V) (found : List (List N)) : Prop :=
  ∃ new, s'.ret = s.ret ++ new ∧ s'.completedCtr = s.completedCtr + new.length ∧
    (s'.completedCtr < q.maxNumPaths → new.map FlowPath.path = found)

omit [DecidableEq N] in
theorem SameResult.finds {s₁ s₂ : FilterState N S V} {found : List (List N)} (h : SameResult s s₁)
    (h' : Finds q s₁ s₂ found) : Finds q s s₂ found := by
  obtain ⟨new, hret, hctr, hfound⟩ := h'
  exact ⟨new, by rw [hret, h.1], by rw [hctr, h.2], hfound⟩

omit [DecidableEq N] in
theorem Finds.append {s₁ s₂ : FilterState N S V} {found found' : List (List N)}
    (h : Finds q s s₁ found) (h' : Finds q s₁ s₂ found') : Finds q s s₂ (found ++ found') := by
  obtain ⟨new, hret, hctr, hfound⟩ := h
  obtain ⟨new', hret', hctr', hfound'⟩ := h'
  refine ⟨new ++ new', by rw [hret', hret, List.append_assoc], ?_, fun hlt => ?_⟩
  · rw [hctr', hctr, List.length_append, Nat.add_assoc]
  · rw [List.map_append, hfound' hlt, hfound (by omega)]

/-- The search goes back to where it was, and finds these paths. -/
def Explores (q : Query N S V W) (f : FilterState N S V → Option (FilterState N S V))
    (pos : Position N S) (found : List (List N)) : Prop :=
  ∀ s, Ready s pos → ∃ s', f s = some s' ∧ Ready s' pos ∧ Finds q s s' found

omit [DecidableEq N] in
theorem explores_foldlM {α : Type*} {f : α → FilterState N S V → Option (FilterState N S V)}
    {found : α → List (List N)} (ws : List α) (h : ∀ w ∈ ws, Explores q (f w) pos (found w)) :
    Explores q (fun s => ws.foldlM (fun s w => f w s) s) pos (ws.flatMap found) := by
  induction ws with
  | nil => exact fun s hs => ⟨s, rfl, hs, [], (List.append_nil _).symm, rfl, fun _ => rfl⟩
  | cons w ws ih =>
    intro s hs
    obtain ⟨s₁, hs₁, hready₁, hfinds₁⟩ := h w List.mem_cons_self s hs
    obtain ⟨s₂, hs₂, hready₂, hfinds₂⟩ := ih (fun w' hw' => h w' (List.mem_cons_of_mem w hw')) s₁ hready₁
    refine ⟨s₂, ?_, hready₂, ?_⟩
    · dsimp only
      rw [List.foldlM_cons, hs₁]
      exact hs₂
    · rw [List.flatMap_cons]
      exact hfinds₁.append hfinds₂

/-- A path that is reported: also the edge to the final instruction is in order. -/
def Accepted (q : Query N S V W) (t : Trace N S) : Prop :=
  ∃ last ∈ t.last,
    (∃ calls ∈ t.calls, CallStackPathFilter.FinalReturnOk q.I last q.finalInst calls) ∧
    Satisfiable (t.constraints ++
      ConstraintPathFilter.edgeConstraints q.LPC last q.finalInst)

open Classical in
/-- What is reported below a vertex. -/
noncomputable def reported (q : Query N S V W) (depth : ℕ) (pos : Position N S) (v : ℕ) :
    List (List N) :=
  ((DagPaths.paths q.children q.revDAG.leaf depth v).filter fun p =>
    Accepted q ((q.sequence p).foldl q.step pos.trace)).map fun p => pos.path ++ q.sequence p

/-! ### Traces -/

theorem constraints_step (t : Trace N S) (inst : N) :
    ∃ added, (q.step t inst).constraints = t.constraints ++ added := by
  unfold step
  cases t.last with
  | none => exact ⟨[], (List.append_nil _).symm⟩
  | some prev => exact ⟨_, rfl⟩

theorem constraints_foldl (insts : List N) (t : Trace N S) :
    ∃ added, (insts.foldl q.step t).constraints = t.constraints ++ added := by
  induction insts generalizing t with
  | nil => exact ⟨[], (List.append_nil _).symm⟩
  | cons inst insts ih =>
    obtain ⟨added, hadded⟩ := constraints_step (q := q) t inst
    obtain ⟨added', hadded'⟩ := ih (q.step t inst)
    exact ⟨added ++ added', by rw [List.foldl_cons, hadded', hadded, List.append_assoc]⟩

theorem calls_foldl_of_none (insts : List N) {t : Trace N S} (h : t.calls = none) :
    (insts.foldl q.step t).calls = none := by
  induction insts generalizing t with
  | nil => exact h
  | cons inst insts ih =>
    refine ih ?_
    unfold step
    split
    · exact h
    · exact congrArg (Option.bind · _) h

theorem last_step (t : Trace N S) (inst : N) : (q.step t inst).last = some inst := by
  unfold step
  split <;> rfl

theorem last_foldl {insts : List N} (hne : insts ≠ []) (t : Trace N S) :
    (insts.foldl q.step t).last = insts.getLast? := by
  induction insts using List.reverseRecOn with
  | nil => exact absurd rfl hne
  | append_singleton insts inst =>
    rw [List.foldl_append, List.getLast?_concat, List.foldl_cons, List.foldl_nil, last_step]

theorem satisfiable_of_append {es es' : List (Expr S)} (h : Satisfiable (es ++ es')) :
    Satisfiable es := by
  obtain ⟨M, hM⟩ := h
  exact ⟨M, fun e he => hM e (List.mem_append_left _ he)⟩

/-- Nothing is accepted below a position in which the calls do not match or the constraints have no
model. -/
theorem not_accepted_of_invalid {t : Trace N S}
    (h : t.calls = none ∨ ¬Satisfiable t.constraints) (insts : List N) :
    ¬Accepted q (insts.foldl q.step t) := by
  rintro ⟨last, -, ⟨calls, hcalls, -⟩, hsat⟩
  rcases h with h | h
  · rw [calls_foldl_of_none insts h] at hcalls
    cases hcalls
  · obtain ⟨added, hadded⟩ := constraints_foldl (q := q) insts t
    rw [hadded, List.append_assoc] at hsat
    exact h (satisfiable_of_append hsat)

/-! ### The steps of the search -/

theorem At.left {saved : FilterState N S V} {v : ℕ} {nodes : List (CallStackNode N)}
    (h : At s (pos.entered q v saved.callStack.tos nodes)) (hle : pos.nodes <+: nodes) :
    Left saved pos s where
  callStack := ⟨nodes, _, h.callStack, hle⟩
  callStackSafe := h.callStackSafe
  constraints := by
    obtain ⟨added, hadded⟩ := constraints_foldl (q := q) (q.label v) pos.trace
    exact ⟨added, hadded ▸ h.constraints⟩
  path := ⟨q.label v, h.path⟩

section

variable [LinearOrder V]

theorem At.isValid (h : At s pos) : At (q.isValid s).2 pos ∧ SameResult s (q.isValid s).2 ∧
    ((q.isValid s).1 = true → Ready (q.isValid s).2 pos) ∧
    ((q.isValid s).1 = false → ∀ insts : List N, ¬Accepted q (insts.foldl q.step pos.trace)) := by
  rw [Query.isValid, h.callStack.valid]
  cases hcalls : pos.trace.calls with
  | none =>
    rw [if_pos Option.isSome_none]
    exact ⟨h, ⟨rfl, rfl⟩, fun h => Bool.noConfusion h,
      fun _ => not_accepted_of_invalid (Or.inl hcalls)⟩
  | some calls =>
    rw [if_neg (by simp)]
    obtain ⟨hconstraints, hquiet, hunsat⟩ := h.constraints.isValid q.z3.check
      h.needSolverInvocation
    have hat : At { s with constraints := (s.constraints.isValid q.z3.check).2 } pos :=
      { h with
        constraints := hconstraints
        needSolverInvocation := hquiet.needSolverInvocation }
    refine ⟨hat, ⟨rfl, rfl⟩, fun _ => ⟨hat, hquiet, by rw [hcalls]; rfl⟩, fun hfalse => ?_⟩
    refine not_accepted_of_invalid (Or.inr fun hsat => ?_)
    rw [← q.z3.isSome_iff, hunsat hfalse] at hsat
    cases hsat

open Classical in
theorem At.reportPath (h : At s pos) {last : N} (hlast : pos.trace.last = some last) :
    ∃ s' calls added, q.reportPath s = some s' ∧ s'.callStack.Holds pos.nodes calls ∧
      s'.callStack.callStackSafe = pos.callStackSafe ∧
      s'.constraints.Asserts (pos.trace.constraints ++ added) pos.scopes ∧ s'.currPath = pos.path ∧
      Finds q s s' (if Accepted q pos.trace then [pos.path] else []) := by
  obtain ⟨b, f, calls, hfinal, hholds, hsafe, hb⟩ := h.callStack.saveFinalEdge q.I last q.finalInst
  obtain ⟨hasserts, hmodel, hsat⟩ := h.constraints.saveFinalEdge q.z3.check q.LPC last
    q.finalInst
  rw [q.z3.isSome_iff] at hsat
  have haccepted : Accepted q pos.trace ↔ b = true ∧
      (s.constraints.saveFinalEdge q.z3.check q.LPC last q.finalInst).1 = true := by
    rw [hb, hsat]
    constructor
    · rintro ⟨last', hlast', hcalls, hsat⟩
      rw [hlast] at hlast'
      cases hlast'
      exact ⟨hcalls, hsat⟩
    · rintro ⟨hcalls, hsat⟩
      exact ⟨last, hlast, hcalls, hsat⟩
  have hnone : ∀ {s'}, SameResult s s' → Finds q s s' [] := fun hsame =>
    ⟨[], by rw [hsame.1, List.append_nil], by rw [hsame.2]; rfl, fun _ => rfl⟩
  rw [Query.reportPath, h.last, hlast, hfinal, Option.bind_some]
  cases b with
  | false =>
    have hnot : ¬Accepted q pos.trace := fun h => Bool.noConfusion (haccepted.1 h).1
    rw [if_pos rfl, if_neg hnot]
    exact ⟨_, calls, [], rfl, hholds, hsafe.trans h.callStackSafe,
      (List.append_nil pos.trace.constraints).symm ▸ h.constraints, h.path, hnone ⟨rfl, rfl⟩⟩
  | true =>
    rw [if_neg Bool.noConfusion, Option.bind_some]
    dsimp only
    cases hvalid : (s.constraints.saveFinalEdge q.z3.check q.LPC last q.finalInst).1 with
    | false =>
      have hnot : ¬Accepted q pos.trace := fun h =>
        Bool.noConfusion (hvalid.symm.trans (haccepted.1 h).2)
      rw [if_pos rfl, if_neg hnot]
      exact ⟨_, calls, _, rfl, hholds, hsafe.trans h.callStackSafe, hasserts, h.path,
        hnone ⟨rfl, rfl⟩⟩
    | true =>
      obtain ⟨model, hM⟩ := Option.isSome_iff_exists.1 (hmodel hvalid)
      rw [if_neg Bool.noConfusion, hM, if_pos (haccepted.2 ⟨rfl, hvalid⟩)]
      exact ⟨_, calls, _, rfl, hholds, hsafe.trans h.callStackSafe, hasserts, h.path,
        [_], rfl, rfl, fun _ => by rw [List.map_singleton, h.path]⟩

end

/-! ### The whole search -/

omit [DecidableEq N] in
theorem sequence_cons (v : ℕ) (p : List ℕ) : q.sequence (v :: p) = q.label v ++ q.sequence p :=
  List.flatMap_cons

open Classical in
theorem reported_leaf (fuel : ℕ) (tos : Ptr) (nodes : List (CallStackNode N)) :
    reported q (fuel + 1) pos q.revDAG.leaf =
      if Accepted q (pos.entered q q.revDAG.leaf tos nodes).trace then
        [(pos.entered q q.revDAG.leaf tos nodes).path] else [] := by
  have hsequence : q.sequence [q.revDAG.leaf] = q.label q.revDAG.leaf := by
    rw [sequence_cons]
    exact List.append_nil _
  rw [reported, DagPaths.paths, if_pos rfl, List.filter_singleton, hsequence, Position.entered]
  split_ifs with h
  · rw [decide_eq_true h, cond_true, List.map_singleton, hsequence]
  · rw [decide_eq_false h, cond_false, List.map_nil]

open Classical in
theorem reported_of_ne_leaf {fuel v : ℕ} (hv : v ≠ q.revDAG.leaf) (tos : Ptr)
    (nodes : List (CallStackNode N)) : reported q (fuel + 1) pos v =
      (q.children v).flatMap (reported q fuel (pos.entered q v tos nodes)) := by
  have hfilter : (fun p => decide (Accepted q ((q.sequence (v :: p)).foldl q.step pos.trace))) =
      fun p => decide (Accepted q ((q.sequence p).foldl q.step (pos.entered q v tos nodes).trace)) := by
    funext p
    rw [sequence_cons, List.foldl_append, Position.entered]
  have hsequence : (fun p => pos.path ++ q.sequence (v :: p)) =
      fun p => (pos.entered q v tos nodes).path ++ q.sequence p := by
    funext p
    rw [sequence_cons, ← List.append_assoc, Position.entered]
  rw [reported, DagPaths.paths, if_neg hv, List.filter_flatMap, List.map_flatMap]
  refine congrArg (List.flatMap · (q.children v)) (funext fun w => ?_)
  rw [List.filter_map, List.map_map, reported, ← hfilter, ← hsequence]
  rfl

/-- A vertex that the search can come to. -/
def Reached (q : Query N S V W) (v : ℕ) : Prop :=
  ∃ r ∈ q.revDAG.graph.roots, Relation.ReflTransGen (fun v w => w ∈ q.children v) r v

omit [DecidableEq N] in
theorem Reached.lt_size {v : ℕ} (h : Reached q v) : v < q.revDAG.graph.size := by
  obtain ⟨r, hr, hpath⟩ := h
  induction hpath with
  | refl => exact q.revDAG.wf.root_lt hr
  | tail _ hw _ =>
    obtain ⟨e, he, rfl⟩ := List.mem_map.1 hw
    exact q.revDAG.wf.target_lt he

omit [DecidableEq N] in
theorem Reached.label_ne_nil {v : ℕ} (h : Reached q v) : q.label v ≠ [] := by
  have hlt := h.lt_size
  rw [← q.revDAG.wf.size_eq] at hlt
  rw [label, AdjacencyList.node, List.getElem?_eq_getElem hlt, Option.getD_some, Ne,
    List.reverse_eq_nil_iff]
  exact q.revDAG.label_ne_nil _ (List.getElem_mem hlt)

omit [DecidableEq N] in
theorem Reached.child {v w : ℕ} (h : Reached q v) (hw : w ∈ q.children v) : Reached q w := by
  obtain ⟨r, hr, hpath⟩ := h
  exact ⟨r, hr, hpath.tail hw⟩

omit [DecidableEq N] in
theorem Reached.children_ne_nil {v : ℕ} (h : Reached q v) (hv : v ≠ q.revDAG.leaf) :
    q.children v ≠ [] := by
  obtain ⟨r, hr, hpath⟩ := h
  rw [children, Ne, List.map_eq_nil_iff]
  exact q.revDAG.continues r hr v hpath hv

section

variable [LinearOrder V]

open Classical in
/-- Below a vertex, the search finds the paths that are accepted. -/
theorem doFilter_explores {rank : ℕ → ℕ} (hrank : ∀ v, ∀ w ∈ q.children v, rank w < rank v)
    {fuel v : ℕ} (hfuel : rank v < fuel) (hv : Reached q v) (pos : Position N S) :
    Explores q (q.doFilter fuel v) pos (reported q fuel pos v) := by
  induction fuel generalizing v pos with
  | zero => exact absurd hfuel (Nat.not_lt_zero _)
  | succ fuel ih =>
    intro s hs
    obtain ⟨s₁, nodes, hs₁, hle, hat, hsame⟩ := hs.enter (q := q) v
    -- it remains to see what is done after the instructions of the vertex
    suffices hleft : ∃ s₂, (if v = q.revDAG.leaf then q.reportPath s₁
        else if q.children v = [] then none
        else if q.maxNumPaths ≤ s₁.completedCtr then some s₁
        else if (q.isValid s₁).1 = false then some (q.isValid s₁).2
        else (q.children v).foldlM (fun s w => q.doFilter fuel w s) (q.isValid s₁).2) = some s₂ ∧
        Left s pos s₂ ∧ Finds q s₁ s₂ (reported q (fuel + 1) pos v) by
      obtain ⟨s₂, hs₂, hleft, hfinds⟩ := hleft
      refine ⟨restoreState s s₂, ?_, hs.restoreState hleft, hsame.finds hfinds⟩
      rw [doFilter, hs₁, Option.bind_some]
      exact congrArg (Option.map (restoreState s)) hs₂
    split_ifs with hleaf hnil hmax hvalid
    · subst hleaf
      have hlast := last_foldl (q := q) hv.label_ne_nil pos.trace
      rw [List.getLast?_eq_some_getLast hv.label_ne_nil] at hlast
      obtain ⟨s₂, calls, added, hs₂, hholds, hsafe, hasserts, hpath, hfinds⟩ :=
        hat.reportPath (q := q) hlast
      refine ⟨s₂, hs₂, ⟨⟨nodes, calls, hholds, hle⟩, hsafe, ?_, ⟨_, hpath⟩⟩, ?_⟩
      · obtain ⟨added', hadded'⟩ := constraints_foldl (q := q) (q.label q.revDAG.leaf) pos.trace
        refine ⟨added' ++ added, ?_⟩
        rw [← List.append_assoc, ← hadded']
        exact hasserts
      · rw [reported_leaf fuel s.callStack.tos nodes]
        exact hfinds
    · exact absurd hnil (hv.children_ne_nil hleaf)
    · exact ⟨s₁, rfl, hat.left hle, [], (List.append_nil _).symm, rfl,
        fun hlt => absurd hlt (not_lt.2 hmax)⟩
    · obtain ⟨hat', hsame', -, hnot⟩ := hat.isValid (q := q)
      refine ⟨_, rfl, hat'.left hle, hsame'.finds ⟨[], (List.append_nil _).symm, rfl, fun _ => ?_⟩⟩
      rw [reported, List.map_nil, eq_comm, List.map_eq_nil_iff, List.filter_eq_nil_iff]
      intro p hp
      obtain ⟨rest, rfl⟩ := DagPaths.exists_of_mem_paths hp
      rw [decide_eq_true_iff, sequence_cons, List.foldl_append]
      exact hnot hvalid _
    · obtain ⟨-, hsame', hready, -⟩ := hat.isValid (q := q)
      rw [Bool.not_eq_false] at hvalid
      obtain ⟨s₂, hs₂, hready₂, hfinds⟩ := explores_foldlM (q.children v) (fun w hw =>
        ih (Nat.lt_of_lt_of_le (hrank v w hw) (Nat.le_of_lt_succ hfuel)) (hv.child hw) _) _
          (hready hvalid)
      refine ⟨s₂, hs₂, hready₂.toAt.left hle, hsame'.finds ?_⟩
      rw [reported_of_ne_leaf hleaf s.callStack.tos nodes]
      exact hfinds

open Classical in
/-- The paths that are accepted are reported, as long as the threshold is not reached. -/
theorem filterAndFlattenRevDag_spec (q : Query N S V W) :
    ∃ (ret : List (FlowPath N S)) (L : List (List ℕ)), q.filterAndFlattenRevDag = some ret ∧
      (ret.length < q.maxNumPaths → ret.map FlowPath.path = L.map q.sequence) ∧
      ∀ p, L.count p = if Accepted q (q.trace (q.sequence p)) then q.ways p else 0 := by
  obtain ⟨rank, hrank, hlt⟩ := TopologicalOrder.exists_rank (S := Finset.range q.revDAG.graph.size)
    (fun v w (hw : w ∈ q.children v) => by
      obtain ⟨e, he, rfl⟩ := List.mem_map.1 hw
      exact Finset.mem_range.2 (q.revDAG.wf.target_lt he)) q.revDAG.acyclic
  rw [Finset.card_range] at hlt
  have hdepth : ∀ r ∈ q.revDAG.graph.roots, rank r < q.revDAG.graph.size := fun r hr =>
    hlt r (Finset.mem_range.2 (q.revDAG.wf.root_lt hr))
  obtain ⟨s, hs, -, new, hret, hctr, hfound⟩ := explores_foldlM q.revDAG.graph.roots (fun r hr =>
    doFilter_explores hrank (hdepth r hr) ⟨r, hr, .refl⟩ _) _ (at_init (q := q))
  refine ⟨new, (q.revDAG.graph.roots.flatMap
    (DagPaths.paths q.children q.revDAG.leaf q.revDAG.graph.size)).filter fun p =>
      Accepted q (q.trace (q.sequence p)), ?_, fun hlt => ?_, fun p => ?_⟩
  · exact (congrArg (Option.map FilterState.ret) hs).trans (congrArg some hret)
  · rw [hfound (by rw [hctr]; exact (Nat.zero_add _).symm ▸ hlt), List.filter_flatMap,
      List.map_flatMap]
    rfl
  · have hleaf : q.children q.revDAG.leaf = [] := by
      rw [children, q.revDAG.leaf_sink, List.map_nil]
    rw [ways, ← DagPaths.count_rootPaths hrank hleaf hdepth]
    split_ifs with haccepted
    · exact List.count_filter (decide_eq_true haccepted)
    · refine List.count_eq_zero_of_not_mem fun hmem => haccepted ?_
      exact of_decide_eq_true (List.mem_filter.1 hmem).2

end

theorem accepted_iff (insts : List N) :
    Accepted q (q.trace insts) ↔ q.Feasible insts ∧ q.FinalEdgeOk insts := by
  constructor
  · rintro ⟨last, hlast, ⟨calls, hcalls, hreturn⟩, hsat⟩
    refine ⟨⟨Option.isSome_iff_exists.2 ⟨calls, hcalls⟩, satisfiable_of_append hsat⟩, last, hlast,
      ?_, hsat⟩
    intro calls' hcalls'
    cases Option.mem_unique hcalls hcalls'
    exact hreturn
  · rintro ⟨⟨hcalls, -⟩, last, hlast, hreturn, hsat⟩
    obtain ⟨calls, hcalls⟩ := Option.isSome_iff_exists.1 hcalls
    exact ⟨last, hlast, ⟨calls, hcalls, hreturn calls hcalls⟩, hsat⟩

/-- The reported paths are the feasible ones exactly where the edge to the final instruction loses none
of them. -/
theorem filterAndFlattenRevDag_exact_iff [LinearOrder V] (q : Query N S V W) :
    ∃ ret, q.filterAndFlattenRevDag = some ret ∧ (ret.length < q.maxNumPaths →
      (q.IsExact ret ↔ ∀ p, 0 < q.ways p → q.Feasible (q.sequence p) →
        q.FinalEdgeOk (q.sequence p))) := by
  obtain ⟨ret, L, hret, hpaths, hcount⟩ := q.filterAndFlattenRevDag_spec
  refine ⟨ret, hret, fun hlt => ⟨?_, fun hfinal => ⟨L, hpaths hlt, fun p => ⟨?_, ?_⟩⟩⟩⟩
  · rintro ⟨L', hpaths', hcount'⟩ p hways hp
    -- otherwise more paths are asked for than are reported
    by_contra hnot
    have hsub : L.Subperm L' := by
      refine List.subperm_ext_iff.2 fun p' _ => ?_
      rw [hcount]
      split_ifs with haccepted
      · exact ((hcount' p').1 ((accepted_iff _).1 haccepted).1).ge
      · exact Nat.zero_le _
    have hlength := congrArg List.length ((hpaths hlt).symm.trans hpaths')
    rw [List.length_map, List.length_map] at hlength
    have hp' := (hsub.perm_of_length_le hlength.ge).count_eq p
    rw [hcount, (hcount' p).1 hp, if_neg fun haccepted => hnot ((accepted_iff _).1 haccepted).2] at hp'
    exact hways.ne hp'
  · intro hp
    rw [hcount]
    rcases Nat.eq_zero_or_pos (q.ways p) with hways | hways
    · rw [hways, ite_self]
    · rw [if_pos ((accepted_iff _).2 ⟨hp, hfinal p hways hp⟩)]
  · intro hp
    refine List.count_eq_zero.1 ?_
    rw [hcount, if_neg fun haccepted => hp ((accepted_iff _).1 haccepted).1]

end Query

/-! ### A path that ends at a return -/

/-- The call 0 in a block that 1 ends, and a callee of the instructions 2 and 3. -/
def callAndReturn : Instructions ℕ where
  nextNodes i := if i = 0 then [1] else if i = 2 then [3] else []
  isTerminator i := i = 1 ∨ i = 3
  succFronts _ := []
  isCallBase i := i = 0
  callsDefinition i := i = 0
  isExit i := i = 1 ∨ i = 3

/-- The query position is the return of the callee, in a vertex of its own. -/
def calleeDAG : RevDAG ℕ Unit where
  graph := ⟨[[2, 0], [3]], [[⟨1, ()⟩], []], [0]⟩
  leaf := 1
  wf := AdjacencyList.wf_iff.2 (by decide)
  acyclic := by
    have hlt : ∀ v w, w ∈ ((⟨[[2, 0], [3]], [[⟨1, ()⟩], []], [0]⟩ :
        AdjacencyList (List ℕ) Unit).outEdges v).map OutEdge.target → v < w := by
      intro v w hw
      rcases v with _ | _ | v
      · cases List.mem_singleton.1 hw
        exact Nat.zero_lt_one
      · cases hw
      · cases hw
    have htrans : ∀ v w, Relation.TransGen (fun v w => w ∈ ((⟨[[2, 0], [3]], [[⟨1, ()⟩], []], [0]⟩ :
        AdjacencyList (List ℕ) Unit).outEdges v).map OutEdge.target) v w → v < w := by
      intro v w h
      induction h with
      | single hw => exact hlt _ _ hw
      | tail _ hw ih => exact ih.trans (hlt _ _ hw)
    exact fun v h => lt_irrefl v (htrans v v h)
  label_ne_nil := by decide
  leaf_sink := rfl
  continues r hr v h hv := by
    cases List.mem_singleton.1 hr
    cases h with
    | refl => exact List.cons_ne_nil _ _
    | @tail u w h hw =>
      rcases u with _ | _ | u
      · exact absurd (List.mem_singleton.1 hw) hv
      · cases hw
      · cases hw

open Classical in
/-- A solver that never fails. -/
noncomputable def Z3.choose (S : Type) : Z3 S where
  check es := if h : Satisfiable es then some h.choose else none
  holds es M h := by
    split_ifs at h with hsat
    cases h
    exact hsat.choose_spec
  isSome_of_satisfiable es h := by rw [dif_pos h, Option.isSome_some]

noncomputable def calleeQuery : Query ℕ Unit ℕ Unit where
  revDAG := calleeDAG
  finalInst := 3
  additionalConstraint := ⟨.bool, .eq (.intVal 0) (.intVal 0)⟩
  maxNumPaths := 1
  I := callAndReturn
  LPC _ _ := none
  z3 := Z3.choose Unit

/-- The path into the callee is lost: its last instruction is taken for a return to itself. -/
theorem callee_return_lost : ∃ ret, calleeQuery.filterAndFlattenRevDag = some ret ∧
    ret.length < calleeQuery.maxNumPaths ∧ ¬calleeQuery.IsExact ret := by
  refine ⟨[], rfl, Nat.zero_lt_one, ?_⟩
  rintro ⟨L, hL, hcount⟩
  have hnil : L = [] := List.map_eq_nil_iff.1 hL.symm
  have hfeasible : calleeQuery.Feasible (calleeQuery.sequence [0, 1]) := by
    refine ⟨rfl, ⟨⟨fun s _ => ?_, fun _ _ => 0⟩, fun e he => ?_⟩⟩
    · cases s
      · exact true
      · exact 0
    · cases List.mem_singleton.1 he
      exact ⟨_, rfl, rfl⟩
  have hone := (hcount [0, 1]).1 hfeasible
  rw [hnil] at hone
  exact absurd hone (by decide)

end Phasar.Z3BasedPathSensitivityManager
