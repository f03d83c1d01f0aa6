import Phasar.Pointer.DelayedEdges
import Mathlib.Logic.Relation

/-!
# Decoupled GEPs

A GEP with constant indices on a local pointer gets a node of its own for each offset; the other
GEPs share the node of the pointer.

* `Event`, `runEvents`: GEPs are visited among other operations of the builder;
* `Kept`, `Colored`: which nodes are connected, and which are not;
* `keepsAliases_iff`: pointers that may alias are related if and only if the GEPs come in a harmless
  order, `OrderOk`.
-/

namespace Phasar.LLVMPAGBuilder

variable {V : Type} [DecidableEq V]

/-- A GEP is visited, or something else is done. -/
inductive Event (V : Type)
  | other (op : Op V)
  | handleGep (gep : GEPOperator V)

namespace Event

def run (facts : PointerFacts V) (ev : Event V) (s : PAGBuildData V) : PAGBuildData V :=
  match ev with
  | .other op => op.run s
  | .handleGep gep => s.handleGep facts gep

/-- The operations that a visit consists of. -/
def ops (facts : PointerFacts V) (ev : Event V) (s : PAGBuildData V) : List (Op V) :=
  match ev with
  | .other op => [op]
  | .handleGep gep =>
    match gep.decoupledOffset facts with
    | some offset =>
      match (s.localGeps gep.pointerOperand).find? (·.1 == offset) with
      | some p => [.addAliasOrEquate gep.var p.2]
      | none => [.getVariable gep.var]
    | none =>
      .getVariable gep.pointerOperand ::
        if s.localGeps gep.pointerOperand ≠ [] then
          (s.localGeps gep.pointerOperand).map fun p =>
            .addEdge (s.getVariable gep.pointerOperand).2 p.2 .assign
        else [.addAliasOrEquate gep.var (s.getVariable gep.pointerOperand).2]

def Valid (ev : Event V) (s : PAGBuildData V) : Prop :=
  match ev with
  | .other op => op.Valid s
  | .handleGep _ => True

end Event

variable (facts : PointerFacts V)

def runEvents : List (Event V) → PAGBuildData V → PAGBuildData V
  | [], s => s
  | ev :: events, s => runEvents events (ev.run facts s)

/-- The edges that the events ask for, the last one first. -/
def eventHistory : List (Event V) → PAGBuildData V → List Call
  | [], _ => []
  | ev :: events, s => eventHistory events (ev.run facts s) ++ history (ev.ops facts s) s

/-- The GEPs on a pointer that are visited, in their order. -/
def gepsOn (base : V) : List (Event V) → List (GEPOperator V)
  | [] => []
  | .other _ :: events => gepsOn base events
  | .handleGep gep :: events =>
    if gep.pointerOperand = base then gep :: gepsOn base events else gepsOn base events

/-- The offsets that a GEP can denote. -/
def GEPOperator.Denotes (gep : GEPOperator V) (offset : BitVec 64) : Prop :=
  ∀ o, gep.accumulateConstantOffset = some o → o = offset

/-- Two pointers have the same node, or are connected through Assign edges. -/
def Related (h : List Call) (s : PAGBuildData V) (v w : V) : Prop :=
  ∃ x y, s.VC.var2Id v = some x ∧ s.VC.var2Id w = some y ∧
    Relation.EqvGen (fun x y => Call.addEdge x y .assign ∈ h) x y

/-- Pointers that can denote the same offset are related. -/
structure KeepsAliases (base : V) (geps : List (GEPOperator V)) (h : List Call)
    (s : PAGBuildData V) : Prop where
  pairs : ∀ g ∈ geps, ∀ g' ∈ geps, g ≠ g' → (∃ offset, g.Denotes offset ∧ g'.Denotes offset) →
    Related h s g.var g'.var
  pointer : ∀ g ∈ geps, g.Denotes 0 → Related h s g.var base

/-- A GEP that gets a node of its own. -/
def GEPOperator.Decoupled (gep : GEPOperator V) : Prop := gep.decoupledOffset facts ≠ none

instance (gep : GEPOperator V) : Decidable (gep.Decoupled facts) :=
  inferInstanceAs (Decidable (gep.decoupledOffset facts ≠ none))

/-- Decoupled GEPs do not have the offset zero, come after the other GEPs, and not with a variable one. -/
structure OrderOk (geps : List (GEPOperator V)) : Prop where
  nonzero : ∀ g ∈ geps, g.decoupledOffset facts ≠ some 0
  last : geps.Pairwise fun g g' => g.Decoupled facts → g'.Decoupled facts
  alone : ∀ g ∈ geps, ∀ g' ∈ geps, g.Decoupled facts →
    g'.Decoupled facts ∨ g'.hasAllZeroIndices = true

variable {facts} {n : ℕ} {h h' : List Call} {s s' : PAGBuildData V} {var v w base : V} {id x y : ℕ}
  {op : Op V} {ev : Event V} {e : Edge}

/-! ### Visits as operations -/

omit [DecidableEq V] in
@[simp] theorem localGeps_erase : (s.eraseFromSimpleStoreLoad x).localGeps = s.localGeps := by
  rw [PAGBuildData.eraseFromSimpleStoreLoad]
  split_ifs <;> rfl

omit [DecidableEq V] in
@[simp] theorem localGeps_addEdge : (s.addEdge x y e).localGeps = s.localGeps := by
  rcases addEdge_cases s x y e with
    ⟨-, -, h⟩ | ⟨-, -, h⟩ | ⟨-, -, h⟩ | ⟨-, -, h⟩ | ⟨-, -, h⟩ <;>
    simp [h, PAGBuildData.delayStore, PAGBuildData.delayLoad, PAGBuildData.onAddEdge]

@[simp] theorem localGeps_getVariable : (s.getVariable var).1.localGeps = s.localGeps := by
  rw [PAGBuildData.getVariable]
  split_ifs <;> rfl

@[simp] theorem localGeps_addAliasOrEquate :
    (s.addAliasOrEquate var id).localGeps = s.localGeps := by
  rw [PAGBuildData.addAliasOrEquate]
  split_ifs
  · rfl
  · split
    · rfl
    · split_ifs <;> simp

theorem localGeps_runOps (ops : List (Op V)) : (runOps ops s).localGeps = s.localGeps := by
  induction ops generalizing s with
  | nil => rfl
  | cons op ops ih =>
    rw [runOps, ih]
    cases op <;> simp [Op.run, PAGBuildData.onAddEdge]

theorem runOps_addEdges (geps : List (BitVec 64 × ℕ)) (s : PAGBuildData V) :
    runOps (geps.map fun p => .addEdge x p.2 .assign) s =
      geps.foldl (fun s p => s.addEdge x p.2 .assign) s := by
  induction geps generalizing s with
  | nil => rfl
  | cons p geps ih => exact ih _

/-- The branches of `handleGep`. -/
theorem handleGep_cases (facts : PointerFacts V) (gep : GEPOperator V) (s : PAGBuildData V) :
    (∃ offset p, gep.decoupledOffset facts = some offset ∧
      (s.localGeps gep.pointerOperand).find? (·.1 == offset) = some p ∧
      (Event.handleGep gep).ops facts s = [.addAliasOrEquate gep.var p.2] ∧
      s.handleGep facts gep = s.addAliasOrEquate gep.var p.2) ∨
    (∃ offset, gep.decoupledOffset facts = some offset ∧
      (s.localGeps gep.pointerOperand).find? (·.1 == offset) = none ∧
      (Event.handleGep gep).ops facts s = [.getVariable gep.var] ∧
      s.handleGep facts gep = { (s.getVariable gep.var).1 with
        localGeps := Function.update s.localGeps gep.pointerOperand
          (s.localGeps gep.pointerOperand ++ [(offset, (s.getVariable gep.var).2)]) }) ∨
    (gep.decoupledOffset facts = none ∧ s.localGeps gep.pointerOperand = [] ∧
      (Event.handleGep gep).ops facts s = [.getVariable gep.pointerOperand,
        .addAliasOrEquate gep.var (s.getVariable gep.pointerOperand).2] ∧
      s.handleGep facts gep = (s.getVariable gep.pointerOperand).1.addAliasOrEquate gep.var
        (s.getVariable gep.pointerOperand).2) ∨
    (gep.decoupledOffset facts = none ∧ s.localGeps gep.pointerOperand ≠ [] ∧
      (Event.handleGep gep).ops facts s = .getVariable gep.pointerOperand ::
        (s.localGeps gep.pointerOperand).map (fun p =>
          .addEdge (s.getVariable gep.pointerOperand).2 p.2 .assign) ∧
      s.handleGep facts gep = runOps ((s.localGeps gep.pointerOperand).map fun p =>
          .addEdge (s.getVariable gep.pointerOperand).2 p.2 .assign)
        (s.getVariable gep.pointerOperand).1) := by
  rcases hoff : gep.decoupledOffset facts with _ | offset
  · refine Or.inr (Or.inr ?_)
    by_cases hnil : s.localGeps gep.pointerOperand = []
    · exact Or.inl ⟨rfl, hnil, by simp [Event.ops, hoff, hnil],
        by simp [PAGBuildData.handleGep, hoff, PAGBuildData.handleCastImpl, hnil]⟩
    · exact Or.inr ⟨rfl, hnil, by simp [Event.ops, hoff, hnil],
        by simp [PAGBuildData.handleGep, hoff, PAGBuildData.handleCastImpl, hnil, runOps_addEdges]⟩
  · rcases hfind : (s.localGeps gep.pointerOperand).find? (·.1 == offset) with _ | p
    · exact Or.inr (Or.inl ⟨offset, rfl, hfind, by simp [Event.ops, hoff, hfind],
        by simp [PAGBuildData.handleGep, hoff, hfind]⟩)
    · exact Or.inl ⟨offset, p, rfl, hfind, by simp [Event.ops, hoff, hfind],
        by simp [PAGBuildData.handleGep, hoff, hfind]⟩

/-- A visit does its operations, and may add a local GEP. -/
theorem Event.run_eq : ev.run facts s =
    { runOps (ev.ops facts s) s with localGeps := (ev.run facts s).localGeps } := by
  cases ev with
  | other op =>
    rw [Event.ops]
    rfl
  | handleGep gep =>
    rw [Event.run]
    rcases handleGep_cases facts gep s with ⟨offset, p, -, -, hops, hrun⟩ | ⟨offset, -, -, hops, hrun⟩ |
      ⟨-, -, hops, hrun⟩ | ⟨-, -, hops, hrun⟩ <;> rw [hops, hrun] <;> rfl

/-! ### Nodes stay, edges stay -/

/-- Later, there are more names and more edges. -/
structure Grows (h h' : List Call) (s s' : PAGBuildData V) : Prop where
  var2Id : ∀ var id, s.VC.var2Id var = some id → s'.VC.var2Id var = some id
  mem : ∀ c ∈ h, c ∈ h'

omit [DecidableEq V] in
theorem Grows.trans {h'' : List Call} {s'' : PAGBuildData V} (hg : Grows h h' s s')
    (hg' : Grows h' h'' s' s'') : Grows h h'' s s'' :=
  ⟨fun v id hv => hg'.var2Id v id (hg.var2Id v id hv), fun c hc => hg'.mem c (hg.mem c hc)⟩

/-- Two nodes are connected. -/
def Connected (h : List Call) : ℕ → ℕ → Prop :=
  Relation.EqvGen fun x y => Call.addEdge x y .assign ∈ h

theorem Connected.mono (hxy : Connected h x y) (hh : ∀ c ∈ h, c ∈ h') : Connected h' x y :=
  Relation.EqvGen.mono (fun _ _ hmem => hh _ hmem) x y hxy

omit [DecidableEq V] in
theorem Related.mono (hr : Related h s v w) (hg : Grows h h' s s') : Related h' s' v w := by
  obtain ⟨x, y, hx, hy, hxy⟩ := hr
  exact ⟨x, y, hg.var2Id v x hx, hg.var2Id w y hy, Connected.mono hxy hg.mem⟩

theorem var2Id_getVariable_self :
    (s.getVariable var).1.VC.var2Id var = some (s.getVariable var).2 := by
  rcases hvar : s.VC.var2Id var with _ | id <;>
    simp [PAGBuildData.getVariable, ValueCompressor.insert, hvar]

theorem var2Id_getVariable (hv : s.VC.var2Id v = some id) :
    (s.getVariable var).1.VC.var2Id v = some id := by
  rcases hvar : s.VC.var2Id var with _ | id
  · have hne : v ≠ var := by
      rintro rfl
      rw [hv] at hvar
      cases hvar
    simpa [PAGBuildData.getVariable, ValueCompressor.insert, hvar, Function.update_of_ne hne]
  · simpa [PAGBuildData.getVariable, ValueCompressor.insert, hvar]

theorem grows_op : Grows h (op.calls s ++ h) s (op.run s) := by
  refine ⟨fun v id hv => ?_, fun c hc => List.mem_append_right _ hc⟩
  cases op with
  | getVariable var => exact var2Id_getVariable hv
  | addAliasOrEquate var id' =>
    rw [Op.run, PAGBuildData.addAliasOrEquate]
    rcases hvar : s.VC.var2Id var with _ | existing
    · have hne : v ≠ var := by
        rintro rfl
        rw [hv] at hvar
        cases hvar
      simpa [ValueCompressor.addAlias, hvar, Function.update_of_ne hne]
    · simp only [ValueCompressor.addAlias, hvar, Bool.false_eq_true, if_false]
      split_ifs <;> simpa
  | addEdge src dst e => simpa [Op.run]
  | onAddEdge src dst => exact hv

theorem grows_runOps (ops : List (Op V)) : Grows h (history ops s ++ h) s (runOps ops s) := by
  induction ops generalizing h s with
  | nil => exact ⟨fun _ _ => fun hv => hv, fun _ hc => hc⟩
  | cons op ops ih =>
    rw [history, List.append_assoc]
    exact grows_op.trans ih

theorem grows_run : Grows h (history (ev.ops facts s) s ++ h) s (ev.run facts s) := by
  have hg : Grows h (history (ev.ops facts s) s ++ h) s (runOps (ev.ops facts s) s) := grows_runOps _
  rw [Event.run_eq]
  exact ⟨hg.var2Id, hg.mem⟩

/-- A value that is equated with a node is connected to it. -/
theorem connected_addAliasOrEquate (s : PAGBuildData V) (h : List Call) (var : V) (id : ℕ) : ∃ x,
    (s.addAliasOrEquate var id).VC.var2Id var = some x ∧
    Connected ((Op.addAliasOrEquate var id).calls s ++ h) x id := by
  rcases hvar : s.VC.var2Id var with _ | existing
  · refine ⟨id, ?_, .refl id⟩
    simp [PAGBuildData.addAliasOrEquate, ValueCompressor.addAlias, hvar]
  · have hgrows : Grows h _ s ((Op.addAliasOrEquate var id).run s) := grows_op
    refine ⟨existing, hgrows.var2Id var existing hvar, ?_⟩
    by_cases heq : existing = id
    · rw [heq]
      exact .refl id
    · refine .rel _ _ (List.mem_append_left _ ?_)
      simp [Op.calls, hvar, heq]

/-! ### Valid visits -/

/-- The local GEPs are nodes. -/
def GepsBelow (s : PAGBuildData V) : Prop := ∀ v, ∀ p ∈ s.localGeps v, p.2 < s.VC.size

theorem size_le_getVariable : s.VC.size ≤ (s.getVariable var).1.VC.size := by
  rcases hvar : s.VC.var2Id var with _ | id <;>
    simp [PAGBuildData.getVariable, ValueCompressor.insert, hvar, ValueCompressor.size]

theorem Reaches.getVariable_lt (hs : Reaches n h s) (var : V) :
    (s.getVariable var).2 < (s.getVariable var).1.VC.size :=
  (hs.getVariable var).vc var _ var2Id_getVariable_self

theorem validOps_addEdges {geps : List (BitVec 64 × ℕ)} (hx : x < s.VC.size)
    (hgeps : ∀ p ∈ geps, p.2 < s.VC.size) :
    ValidOps (geps.map fun p => .addEdge x p.2 .assign) s := by
  induction geps generalizing s with
  | nil => trivial
  | cons p geps ih =>
    refine ⟨⟨hx, hgeps p List.mem_cons_self⟩, ih ?_ fun q hq => ?_⟩
    · simpa [Op.run] using hx
    · simpa [Op.run] using hgeps q (List.mem_cons_of_mem p hq)

theorem Reaches.validOps (hs : Reaches n h s) (hgeps : GepsBelow s) (hev : ev.Valid s) :
    ValidOps (ev.ops facts s) s := by
  cases ev with
  | other op =>
    rw [Event.ops]
    exact ⟨hev, trivial⟩
  | handleGep gep =>
    rcases handleGep_cases facts gep s with ⟨offset, p, -, hfind, hops, -⟩ | ⟨offset, -, -, hops, -⟩ |
      ⟨-, -, hops, -⟩ | ⟨-, -, hops, -⟩ <;> rw [hops]
    · exact ⟨hgeps _ p (List.mem_of_find?_eq_some hfind), trivial⟩
    · exact ⟨trivial, trivial⟩
    · exact ⟨trivial, hs.getVariable_lt _, trivial⟩
    · refine ⟨trivial, validOps_addEdges (hs.getVariable_lt _) fun p hp => ?_⟩
      exact (hgeps _ p hp).trans_le size_le_getVariable

omit [DecidableEq V] in
theorem Reaches.withLocalGeps (hs : Reaches n h s) (L : V → List (BitVec 64 × ℕ)) :
    Reaches n h { s with localGeps := L } :=
  ⟨⟨hs.inv.plain, hs.inv.only, hs.inv.stores, hs.inv.loads, hs.inv.givenStore, hs.inv.givenLoad,
    hs.inv.givenOther⟩, hs.below, hs.vc, hs.le⟩

theorem Reaches.event (hs : Reaches n h s) (hgeps : GepsBelow s) (hev : ev.Valid s) :
    Reaches n (history (ev.ops facts s) s ++ h) (ev.run facts s) := by
  rw [Event.run_eq]
  exact (hs.runOps (hs.validOps hgeps hev)).withLocalGeps _

theorem size_le_op : s.VC.size ≤ (op.run s).VC.size := by
  cases op with
  | getVariable var => exact size_le_getVariable
  | addAliasOrEquate var id =>
    rw [Op.run, PAGBuildData.addAliasOrEquate]
    rcases hvar : s.VC.var2Id var with _ | existing
    · simp [ValueCompressor.addAlias, hvar, ValueCompressor.size]
    · simp only [ValueCompressor.addAlias, hvar, Bool.false_eq_true, if_false]
      split_ifs <;> simp
  | addEdge src dst e => simp [Op.run]
  | onAddEdge src dst => exact le_rfl

theorem size_le_runOps (ops : List (Op V)) : s.VC.size ≤ (runOps ops s).VC.size := by
  induction ops generalizing s with
  | nil => exact le_rfl
  | cons op ops ih => exact size_le_op.trans ih

/-- A visit adds at most the node of the GEP to the local GEPs. -/
theorem localGeps_handleGep (facts : PointerFacts V) (gep : GEPOperator V) (s : PAGBuildData V) :
    (s.handleGep facts gep).localGeps = s.localGeps ∨
      ∃ offset, gep.decoupledOffset facts = some offset ∧
        (s.localGeps gep.pointerOperand).find? (·.1 == offset) = none ∧
        (s.handleGep facts gep).localGeps = Function.update s.localGeps gep.pointerOperand
          (s.localGeps gep.pointerOperand ++ [(offset, (s.getVariable gep.var).2)]) := by
  rcases handleGep_cases facts gep s with ⟨offset, p, -, -, -, hrun⟩ | ⟨offset, hoff, hfind, -, hrun⟩ |
    ⟨-, -, -, hrun⟩ | ⟨-, -, -, hrun⟩ <;> rw [hrun]
  · exact Or.inl localGeps_addAliasOrEquate
  · exact Or.inr ⟨offset, hoff, hfind, rfl⟩
  · exact Or.inl (localGeps_addAliasOrEquate.trans localGeps_getVariable)
  · exact Or.inl ((localGeps_runOps _).trans localGeps_getVariable)

theorem GepsBelow.event (hgeps : GepsBelow s) (ev : Event V) (hs : Reaches n h s) :
    GepsBelow (ev.run facts s) := by
  have hsize : s.VC.size ≤ (ev.run facts s).VC.size := by
    rw [Event.run_eq]
    exact size_le_runOps _
  have hsame : (ev.run facts s).localGeps = s.localGeps → GepsBelow (ev.run facts s) :=
    fun heq v p hp => (hgeps v p (heq ▸ hp)).trans_le hsize
  cases ev with
  | other op => exact hsame (localGeps_runOps [op])
  | handleGep gep =>
    rcases handleGep_cases facts gep s with ⟨offset, p, -, -, -, hrun⟩ | ⟨offset, -, -, -, hrun⟩ |
      ⟨-, -, -, hrun⟩ | ⟨-, -, -, hrun⟩ <;> rw [Event.run] at hsame ⊢
    · exact hsame (by rw [hrun, localGeps_addAliasOrEquate])
    · intro v p hp
      rw [hrun] at hp ⊢
      by_cases hv : v = gep.pointerOperand
      · subst hv
        simp only [Function.update_self] at hp
        rcases List.mem_append.1 hp with hp | hp
        · exact (hgeps _ p hp).trans_le size_le_getVariable
        · rw [List.mem_singleton.1 hp]
          exact hs.getVariable_lt _
      · simp only [Function.update_of_ne hv] at hp
        exact (hgeps v p hp).trans_le size_le_getVariable
    · exact hsame (by rw [hrun, localGeps_addAliasOrEquate, localGeps_getVariable])
    · exact hsame (by rw [hrun, localGeps_runOps, localGeps_getVariable])

/-! ### A harmless order keeps aliases -/

/-- A decoupled GEP is connected to the node of its offset, another one to the pointer. -/
structure Placed (facts : PointerFacts V) (base : V) (h : List Call) (s : PAGBuildData V)
    (g : GEPOperator V) : Prop where
  decoupled : ∀ offset, g.decoupledOffset facts = some offset → ∃ x p,
    s.VC.var2Id g.var = some x ∧ (s.localGeps base).find? (·.1 == offset) = some p ∧
      Connected h x p.2
  other : g.decoupledOffset facts = none → Related h s g.var base

/-- The GEPs on the pointer so far have their places. -/
structure Kept (facts : PointerFacts V) (base : V) (geps : List (GEPOperator V)) (h : List Call)
    (s : PAGBuildData V) : Prop where
  placed : ∀ g ∈ geps, Placed facts base h s g
  nonempty : s.localGeps base ≠ [] → ∃ g ∈ geps, g.Decoupled facts

omit [DecidableEq V] in
theorem Placed.mono {g : GEPOperator V} (hp : Placed facts base h s g) (hg : Grows h h' s s')
    (hgeps : ∃ L, s'.localGeps base = s.localGeps base ++ L) : Placed facts base h' s' g := by
  refine ⟨fun offset hoff => ?_, fun hoff => (hp.other hoff).mono hg⟩
  obtain ⟨x, p, hx, hfind, hxp⟩ := hp.decoupled offset hoff
  obtain ⟨L, hL⟩ := hgeps
  refine ⟨x, p, hg.var2Id _ _ hx, ?_, hxp.mono hg.mem⟩
  rw [hL, List.find?_append, hfind, Option.some_or]

theorem placed_handleGep {gep : GEPOperator V}
    (hnil : gep.decoupledOffset facts = none → s.localGeps gep.pointerOperand = []) :
    Placed facts gep.pointerOperand (history ((Event.handleGep gep).ops facts s) s ++ h)
      (s.handleGep facts gep) gep := by
  rcases handleGep_cases facts gep s with ⟨offset, p, hoff, hfind, hops, hrun⟩ |
    ⟨offset, hoff, hfind, hops, hrun⟩ | ⟨hoff, -, hops, hrun⟩ | ⟨hoff, hne, -, -⟩
  · refine ⟨fun o ho => ?_, fun ho => ?_⟩
    · obtain rfl : offset = o := Option.some.inj (hoff.symm.trans ho)
      obtain ⟨x, hx, hxp⟩ := connected_addAliasOrEquate s h gep.var p.2
      refine ⟨x, p, hrun ▸ hx, ?_, ?_⟩
      · rw [hrun, localGeps_addAliasOrEquate, hfind]
      · rw [hops]
        exact hxp
    · rw [hoff] at ho
      cases ho
  · refine ⟨fun o ho => ?_, fun ho => ?_⟩
    · obtain rfl : offset = o := Option.some.inj (hoff.symm.trans ho)
      refine ⟨_, (offset, (s.getVariable gep.var).2), ?_, ?_, .refl _⟩
      · rw [hrun]
        exact var2Id_getVariable_self
      · rw [hrun]
        simp only [Function.update_self, List.find?_append, hfind, Option.none_or,
          List.find?_singleton, beq_self_eq_true, if_true]
    · rw [hoff] at ho
      cases ho
  · refine ⟨fun o ho => ?_, fun _ => ?_⟩
    · rw [hoff] at ho
      cases ho
    · have hhist : history ((Event.handleGep gep).ops facts s) s =
          (Op.addAliasOrEquate gep.var (s.getVariable gep.pointerOperand).2).calls
            (s.getVariable gep.pointerOperand).1 := by
        rw [hops]
        simp only [history, Op.calls, List.append_nil, List.nil_append]
        rfl
      obtain ⟨x, hx, hxp⟩ := connected_addAliasOrEquate (s.getVariable gep.pointerOperand).1 h gep.var
        (s.getVariable gep.pointerOperand).2
      have hgrows : Grows h _ (s.getVariable gep.pointerOperand).1 ((Op.addAliasOrEquate gep.var
        (s.getVariable gep.pointerOperand).2).run (s.getVariable gep.pointerOperand).1) := grows_op
      refine ⟨x, _, hrun ▸ hx, ?_, hhist ▸ hxp⟩
      rw [hrun]
      exact hgrows.var2Id _ _ var2Id_getVariable_self
  · exact absurd (hnil hoff) hne

theorem localGeps_other_event (facts : PointerFacts V) (s : PAGBuildData V)
    (hev : ∀ gep, ev = .handleGep gep → gep.pointerOperand ≠ base) :
    (ev.run facts s).localGeps base = s.localGeps base := by
  cases ev with
  | other op => exact congrFun (localGeps_runOps [op]) base
  | handleGep gep =>
    rw [Event.run]
    rcases localGeps_handleGep facts gep s with heq | ⟨offset, -, -, heq⟩ <;> rw [heq]
    rw [Function.update_of_ne (hev gep rfl).symm]

/-- What one event keeps, if no GEP that shares the node of the pointer comes after a decoupled one. -/
theorem Kept.event {geps : List (GEPOperator V)} (hk : Kept facts base geps h s)
    (hlast : ∀ g ∈ geps, g.Decoupled facts → ∀ g' ∈ gepsOn base [ev], g'.Decoupled facts) :
    Kept facts base (geps ++ gepsOn base [ev]) (history (ev.ops facts s) s ++ h)
      (ev.run facts s) := by
  have hother : (∀ gep, ev = .handleGep gep → gep.pointerOperand ≠ base) →
      Kept facts base geps (history (ev.ops facts s) s ++ h) (ev.run facts s) := by
    intro hev
    have hgeps := localGeps_other_event facts s hev
    refine ⟨fun g hmem => (hk.placed g hmem).mono grows_run ⟨[], ?_⟩, ?_⟩
    · rw [hgeps, List.append_nil]
    · rw [hgeps]
      exact hk.nonempty
  rcases ev with op | gep
  · rw [gepsOn, gepsOn, List.append_nil]
    exact hother nofun
  · by_cases hbase : gep.pointerOperand = base
    · subst hbase
      have hgepsOn : gepsOn gep.pointerOperand [.handleGep gep] = [gep] := by simp [gepsOn]
      rw [hgepsOn] at hlast ⊢
      have hL : ∃ L, (s.handleGep facts gep).localGeps gep.pointerOperand =
          s.localGeps gep.pointerOperand ++ L ∧ (L ≠ [] → gep.Decoupled facts) := by
        rcases localGeps_handleGep facts gep s with heq | ⟨offset, hoff, -, heq⟩
        · exact ⟨[], by rw [heq, List.append_nil], fun hne => absurd rfl hne⟩
        · refine ⟨_, by rw [heq, Function.update_self], fun _ => ?_⟩
          rw [GEPOperator.Decoupled, hoff]
          exact Option.some_ne_none offset
      obtain ⟨L, hL, hLd⟩ := hL
      refine ⟨fun g hmem => ?_, fun hne => ?_⟩
      · rcases List.mem_append.1 hmem with hmem | hmem
        · exact (hk.placed g hmem).mono grows_run ⟨L, hL⟩
        · rw [List.mem_singleton.1 hmem]
          refine placed_handleGep fun hoff => ?_
          by_contra hne
          obtain ⟨d, hd, hdd⟩ := hk.nonempty hne
          exact hlast d hd hdd gep List.mem_cons_self hoff
      · by_cases hnil : s.localGeps gep.pointerOperand = []
        · refine ⟨gep, List.mem_append_right _ List.mem_cons_self, hLd ?_⟩
          rintro rfl
          exact hne (by rw [Event.run, hL, hnil]; rfl)
        · obtain ⟨d, hd, hdd⟩ := hk.nonempty hnil
          exact ⟨d, List.mem_append_left _ hd, hdd⟩
    · have hgepsOn : gepsOn base [.handleGep gep] = [] := by simp [gepsOn, hbase]
      rw [hgepsOn, List.append_nil]
      refine hother fun gep' heq => ?_
      cases heq
      exact hbase

theorem gepsOn_cons (events : List (Event V)) :
    gepsOn base (ev :: events) = gepsOn base [ev] ++ gepsOn base events := by
  cases ev with
  | other op => rfl
  | handleGep gep =>
    simp only [gepsOn]
    split_ifs <;> rfl

theorem Kept.runEvents {events : List (Event V)} {geps : List (GEPOperator V)}
    (hk : Kept facts base geps h s)
    (hlast : (geps ++ gepsOn base events).Pairwise fun g g' => g.Decoupled facts → g'.Decoupled facts) :
    Kept facts base (geps ++ gepsOn base events) (eventHistory facts events s ++ h)
      (runEvents facts events s) := by
  induction events generalizing geps h s with
  | nil => simpa [gepsOn, eventHistory, Phasar.LLVMPAGBuilder.runEvents] using hk
  | cons ev events ih =>
    rw [gepsOn_cons, ← List.append_assoc] at hlast ⊢
    rw [eventHistory, List.append_assoc (eventHistory _ _ _)]
    refine ih (hk.event fun g hg hgd g' hg' => ?_) hlast
    exact (List.pairwise_append.1 (List.pairwise_append.1 hlast).1).2.2 g hg g' hg' hgd

omit [DecidableEq V] in
/-- A GEP without a node of its own can denote the offset zero. -/
theorem denotes_zero {g : GEPOperator V} (hlocal : facts.isLocal g.pointerOperand = true)
    (hoff : g.decoupledOffset facts = none) : g.Denotes 0 := by
  intro o ho
  rw [GEPOperator.decoupledOffset, hlocal, g.constant (by rw [ho]; exact Option.some_ne_none o)] at hoff
  by_cases hz : g.hasAllZeroIndices = true
  · rw [g.zero hz] at ho
    exact (Option.some.inj ho).symm
  · simp [hz, ho] at hoff

omit [DecidableEq V] in
theorem accumulate_of_decoupled {g : GEPOperator V} {offset : BitVec 64}
    (hoff : g.decoupledOffset facts = some offset) : g.accumulateConstantOffset = some offset := by
  rw [GEPOperator.decoupledOffset] at hoff
  split_ifs at hoff
  exact hoff

omit [DecidableEq V] in
/-- In a harmless order, aliases are kept. -/
theorem Kept.keepsAliases {geps : List (GEPOperator V)} (hk : Kept facts base geps h s)
    (hok : OrderOk facts geps) : KeepsAliases base geps h s := by
  have hpointer : ∀ g ∈ geps, g.Denotes 0 → g.decoupledOffset facts = none := by
    intro g hg h0
    rcases hoff : g.decoupledOffset facts with _ | offset
    · rfl
    · obtain rfl := h0 offset (accumulate_of_decoupled hoff)
      exact absurd hoff (hok.nonzero g hg)
  have hcross : ∀ g ∈ geps, ∀ g' ∈ geps, ∀ offset o, g.decoupledOffset facts = some offset →
      g'.decoupledOffset facts = none → g.Denotes o → ¬g'.Denotes o := by
    intro g hg g' hg' offset o hoff hoff' hd hd'
    obtain rfl := hd offset (accumulate_of_decoupled hoff)
    have hgd : g.Decoupled facts := by
      rw [GEPOperator.Decoupled, hoff]
      exact Option.some_ne_none offset
    have hzero := (hok.alone g hg g' hg' hgd).resolve_left fun h => h hoff'
    obtain rfl := hd' 0 (g'.zero hzero)
    exact hok.nonzero g hg hoff
  refine ⟨fun g hg g' hg' _ ⟨o, hd, hd'⟩ => ?_, fun g hg h0 => ?_⟩
  · rcases hoff : g.decoupledOffset facts with _ | offset
    · rcases hoff' : g'.decoupledOffset facts with _ | offset'
      · obtain ⟨x, b, hx, hb, hxb⟩ := (hk.placed g hg).other hoff
        obtain ⟨x', b', hx', hb', hxb'⟩ := (hk.placed g' hg').other hoff'
        obtain rfl : b = b' := Option.some.inj (hb.symm.trans hb')
        exact ⟨x, x', hx, hx', .trans _ _ _ hxb (.symm _ _ hxb')⟩
      · exact absurd hd (hcross g' hg' g hg offset' o hoff' hoff hd')
    · rcases hoff' : g'.decoupledOffset facts with _ | offset'
      · exact absurd hd' (hcross g hg g' hg' offset o hoff hoff' hd)
      · obtain rfl := hd offset (accumulate_of_decoupled hoff)
        obtain rfl := hd' offset' (accumulate_of_decoupled hoff')
        obtain ⟨x, p, hx, hp, hxp⟩ := (hk.placed g hg).decoupled _ hoff
        obtain ⟨x', p', hx', hp', hxp'⟩ := (hk.placed g' hg').decoupled _ hoff'
        obtain rfl : p = p' := Option.some.inj (hp.symm.trans hp')
        exact ⟨x, x', hx, hx', .trans _ _ _ hxp (.symm _ _ hxp')⟩
  · exact (hk.placed g hg).other (hpointer g hg h0)

/-! ### Nodes that are not connected -/

section Colors

variable {κ : Type} {color : V → κ} {colorOf : BitVec 64 → κ} {c : ℕ → κ} {gep : GEPOperator V}

/-- Nodes of different colors are not connected. -/
structure Colored (color : V → κ) (colorOf : BitVec 64 → κ) (base : V) (c : ℕ → κ) (h : List Call)
    (s : PAGBuildData V) : Prop where
  vars : ∀ var id, s.VC.var2Id var = some id → c id = color var
  edges : ∀ x y, .addEdge x y .assign ∈ h → c x = c y
  geps : ∀ p ∈ s.localGeps base, c p.2 = colorOf p.1

omit [DecidableEq V] in
theorem Colored.eq_of_connected (hc : Colored color colorOf base c h s) (hxy : Connected h x y) :
    c x = c y := by
  induction hxy with
  | rel x y hmem => exact hc.edges x y hmem
  | refl x => rfl
  | symm x y _ ih => exact ih.symm
  | trans x y z _ _ ih ih' => exact ih.trans ih'

omit [DecidableEq V] in
theorem Colored.eq_of_related (hc : Colored color colorOf base c h s) (hr : Related h s v w) :
    color v = color w := by
  obtain ⟨x, y, hx, hy, hxy⟩ := hr
  rw [← hc.vars v x hx, ← hc.vars w y hy]
  exact hc.eq_of_connected hxy

/-- The node of a value has the color of the value. -/
theorem Colored.getVariable (hc : Colored color colorOf base c h s) (hs : Reaches n h s)
    (hgeps : GepsBelow s) (var : V) : ∃ c', Colored color colorOf base c' h (s.getVariable var).1 := by
  rcases hvar : s.VC.var2Id var with _ | id
  · refine ⟨Function.update c s.VC.size (color var), fun v id hv => ?_, fun x y hmem => ?_,
      fun p hp => ?_⟩
    · simp only [PAGBuildData.getVariable, ValueCompressor.insert, hvar, if_true] at hv
      by_cases hvv : v = var
      · subst hvv
        rw [Function.update_self] at hv
        obtain rfl := Option.some.inj hv
        exact Function.update_self ..
      · rw [Function.update_of_ne hvv] at hv
        rw [Function.update_of_ne (hs.vc v id hv).ne]
        exact hc.vars v id hv
    · obtain ⟨hx, hy⟩ := hs.below.1 x y .assign hmem
      rw [Function.update_of_ne hx.ne, Function.update_of_ne hy.ne]
      exact hc.edges x y hmem
    · rw [localGeps_getVariable] at hp
      rw [Function.update_of_ne (hgeps base p hp).ne]
      exact hc.geps p hp
  · have : (s.getVariable var).1 = s := by
      simp [PAGBuildData.getVariable, ValueCompressor.insert, hvar]
    exact ⟨c, this.symm ▸ hc⟩

theorem Colored.addAliasOrEquate (hc : Colored color colorOf base c h s) (hid : c id = color var) :
    Colored color colorOf base c ((Op.addAliasOrEquate var id).calls s ++ h)
      (s.addAliasOrEquate var id) := by
  rcases hvar : s.VC.var2Id var with _ | existing
  · refine ⟨fun v x hv => ?_, fun x y hmem => ?_, fun p hp => ?_⟩
    · simp only [PAGBuildData.addAliasOrEquate, ValueCompressor.addAlias, hvar, if_true] at hv
      by_cases hvv : v = var
      · subst hvv
        rw [Function.update_self] at hv
        rw [← Option.some.inj hv, hid]
      · rw [Function.update_of_ne hvv] at hv
        exact hc.vars v x hv
    · rw [Op.calls, hvar] at hmem
      exact hc.edges x y hmem
    · rw [localGeps_addAliasOrEquate] at hp
      exact hc.geps p hp
  · have hsame : (s.addAliasOrEquate var id).VC = s.VC := by
      simp only [PAGBuildData.addAliasOrEquate, ValueCompressor.addAlias, hvar, Bool.false_eq_true,
        if_false]
      split_ifs <;> simp
    have heq : c id = c existing := hid.trans (hc.vars var existing hvar).symm
    refine ⟨fun v x hv => hc.vars v x (hsame ▸ hv), fun x y hmem => ?_, fun p hp => ?_⟩
    · rcases List.mem_append.1 hmem with hmem | hmem
      · simp only [Op.calls, hvar] at hmem
        split_ifs at hmem
        · cases hmem
        · rcases List.mem_pair.1 hmem with hxy | hxy <;> cases hxy
          · exact heq.symm
          · exact heq
      · exact hc.edges x y hmem
    · rw [localGeps_addAliasOrEquate] at hp
      exact hc.geps p hp

theorem Colored.addEdges {geps : List (BitVec 64 × ℕ)} (hc : Colored color colorOf base c h s)
    (hall : ∀ p ∈ geps, c x = c p.2) :
    Colored color colorOf base c (history (geps.map fun p => .addEdge x p.2 .assign) s ++ h)
      (runOps (geps.map fun p => .addEdge x p.2 .assign) s) := by
  induction geps generalizing h s with
  | nil => exact hc
  | cons p geps ih =>
    rw [List.map_cons, history, List.append_assoc]
    refine ih ⟨fun v id hv => hc.vars v id ?_, fun y z hmem => ?_, fun q hq => hc.geps q ?_⟩
      fun q hq => hall q (List.mem_cons_of_mem p hq)
    · simpa [Op.run] using hv
    · rcases List.mem_cons.1 hmem with heq | hmem
      · cases heq
        exact hall p List.mem_cons_self
      · exact hc.edges y z hmem
    · simpa [Op.run] using hq

theorem history_getVariable_cons (ops : List (Op V)) :
    history (.getVariable var :: ops) s = history ops (s.getVariable var).1 := by
  rw [history, Op.calls, List.append_nil]
  rfl

/-- A visit respects the colors. -/
theorem Colored.handleGep (hc : Colored color colorOf gep.pointerOperand c h s) (hs : Reaches n h s)
    (hgeps : GepsBelow s)
    (hdec : ∀ offset, gep.decoupledOffset facts = some offset → color gep.var = colorOf offset)
    (hfirst : gep.decoupledOffset facts = none → s.localGeps gep.pointerOperand = [] →
      color gep.var = color gep.pointerOperand)
    (hlate : gep.decoupledOffset facts = none → s.localGeps gep.pointerOperand ≠ [] →
      ∀ offset, colorOf offset = color gep.pointerOperand) :
    ∃ c', Colored color colorOf gep.pointerOperand c'
      (history ((Event.handleGep gep).ops facts s) s ++ h) (s.handleGep facts gep) := by
  rcases handleGep_cases facts gep s with ⟨offset, p, hoff, hfind, hops, hrun⟩ |
    ⟨offset, hoff, hfind, hops, hrun⟩ | ⟨hoff, hnil, hops, hrun⟩ | ⟨hoff, hne, hops, hrun⟩ <;>
    rw [hops, hrun]
  · refine ⟨c, hc.addAliasOrEquate ?_⟩
    have hp : p.1 = offset := by simpa using List.find?_some hfind
    rw [hc.geps p (List.mem_of_find?_eq_some hfind), hp, hdec offset hoff]
  · obtain ⟨c', hc'⟩ := hc.getVariable hs hgeps gep.var
    refine ⟨c', ⟨hc'.vars, hc'.edges, fun p hp => ?_⟩⟩
    simp only [Function.update_self] at hp
    rcases List.mem_append.1 hp with hp | hp
    · exact hc'.geps p (by rwa [localGeps_getVariable])
    · rw [List.mem_singleton.1 hp, hc'.vars gep.var _ var2Id_getVariable_self, hdec offset hoff]
  · obtain ⟨c', hc'⟩ := hc.getVariable hs hgeps gep.pointerOperand
    refine ⟨c', ?_⟩
    rw [history_getVariable_cons]
    refine hc'.addAliasOrEquate ?_
    rw [hc'.vars _ _ var2Id_getVariable_self, hfirst hoff hnil]
  · obtain ⟨c', hc'⟩ := hc.getVariable hs hgeps gep.pointerOperand
    refine ⟨c', ?_⟩
    rw [history_getVariable_cons]
    refine hc'.addEdges fun p hp => ?_
    rw [hc'.vars _ _ var2Id_getVariable_self, hc'.geps p (by rwa [localGeps_getVariable]),
      hlate hoff hne]

/-- Whether a decoupled GEP has been visited shows in the local GEPs. -/
def Seen (facts : PointerFacts V) (base : V) (geps : List (GEPOperator V)) (s : PAGBuildData V) : Prop :=
  s.localGeps base ≠ [] ↔ ∃ d ∈ geps, d.Decoupled facts

theorem Seen.handleGep {geps : List (GEPOperator V)} (hseen : Seen facts gep.pointerOperand geps s) :
    Seen facts gep.pointerOperand (geps ++ [gep]) (s.handleGep facts gep) := by
  have hmem : (∃ d ∈ geps ++ [gep], d.Decoupled facts) ↔
      (∃ d ∈ geps, d.Decoupled facts) ∨ gep.Decoupled facts := by
    simp only [List.mem_append, List.mem_singleton, or_and_right, exists_or, exists_eq_left]
  rw [Seen] at hseen ⊢
  rw [hmem, ← hseen]
  rcases handleGep_cases facts gep s with ⟨offset, p, hoff, hfind, -, hrun⟩ |
    ⟨offset, hoff, hfind, -, hrun⟩ | ⟨hoff, hnil, -, hrun⟩ | ⟨hoff, hne, -, hrun⟩ <;> rw [hrun]
  · rw [localGeps_addAliasOrEquate, GEPOperator.Decoupled, hoff]
    have hne := List.ne_nil_of_mem (List.mem_of_find?_eq_some hfind)
    exact ⟨Or.inl, fun _ => hne⟩
  · simp only [Function.update_self, GEPOperator.Decoupled, hoff]
    exact ⟨fun _ => Or.inr (Option.some_ne_none offset),
      fun _ => List.append_ne_nil_of_right_ne_nil _ nofun⟩
  · rw [localGeps_addAliasOrEquate, localGeps_getVariable, GEPOperator.Decoupled, hoff]
    exact ⟨Or.inl, fun hor => hor.resolve_right fun h => h rfl⟩
  · rw [localGeps_runOps, localGeps_getVariable, GEPOperator.Decoupled, hoff]
    exact ⟨Or.inl, fun hor => hor.resolve_right fun h => h rfl⟩

/-- The colors of the GEPs fit their order. -/
def Fits (facts : PointerFacts V) (color : V → κ) (colorOf : BitVec 64 → κ) (base : V)
    (geps : List (GEPOperator V)) : Prop :=
  ∀ pre g post, geps = pre ++ g :: post →
    (∀ offset, g.decoupledOffset facts = some offset → color g.var = colorOf offset) ∧
    (g.decoupledOffset facts = none → (¬∃ d ∈ pre, d.Decoupled facts) → color g.var = color base) ∧
    (g.decoupledOffset facts = none → (∃ d ∈ pre, d.Decoupled facts) →
      ∀ offset, colorOf offset = color base)

/-- An event is the use of a value, or visits a GEP on the pointer. -/
def Event.Alone (base : V) : Event V → Prop
  | .other (.getVariable _) => True
  | .other _ => False
  | .handleGep gep => gep.pointerOperand = base

theorem Colored.runEvents {events : List (Event V)} {geps : List (GEPOperator V)}
    (hc : Colored color colorOf base c h s) (hs : Reaches n h s) (hgeps : GepsBelow s)
    (hseen : Seen facts base geps s) (halone : ∀ ev ∈ events, ev.Alone base)
    (hfits : Fits facts color colorOf base (geps ++ gepsOn base events)) :
    ∃ c', Colored color colorOf base c' (eventHistory facts events s ++ h)
      (runEvents facts events s) := by
  induction events generalizing geps h s c with
  | nil => exact ⟨c, hc⟩
  | cons ev events ih =>
    have halone' : ∀ ev ∈ events, ev.Alone base :=
      fun ev' hev' => halone ev' (List.mem_cons_of_mem ev hev')
    have hev := halone ev List.mem_cons_self
    rw [eventHistory, List.append_assoc (eventHistory _ _ _)]
    match ev, hev with
    | .other (.getVariable var), _ =>
      obtain ⟨c', hc'⟩ := hc.getVariable hs hgeps var
      have hs' := hs.getVariable var
      refine ih hc' hs' (hgeps.event (.other (.getVariable var)) hs) ?_ halone' hfits
      show (s.getVariable var).1.localGeps base ≠ [] ↔ _
      rw [localGeps_getVariable]
      exact hseen
    | .handleGep gep, hbase =>
      obtain rfl : gep.pointerOperand = base := hbase
      have hon : gepsOn gep.pointerOperand (.handleGep gep :: events) =
          gep :: gepsOn gep.pointerOperand events := by simp [gepsOn]
      rw [hon] at hfits
      obtain ⟨hdec, hfirst, hlate⟩ := hfits geps gep _ rfl
      obtain ⟨c', hc'⟩ := hc.handleGep hs hgeps hdec
        (fun hoff hnil => hfirst hoff fun hex => hseen.2 hex hnil)
        (fun hoff hne => hlate hoff (hseen.1 hne))
      refine ih hc' (hs.event hgeps trivial) (hgeps.event _ hs) hseen.handleGep halone' ?_
      rw [List.append_assoc]
      exact hfits

end Colors

/-! ### When aliases are kept -/

/-- The builder only uses values and visits the GEPs on one pointer, each of them once. -/
structure VisitsAlone (base : V) (vc : ValueCompressor V) (events : List (Event V)) : Prop where
  ok : vc.Ok
  alone : ∀ ev ∈ events, ev.Alone base
  nodup : ((gepsOn base events).map (·.var)).Nodup
  notMem : ∀ g ∈ gepsOn base events, g.var ≠ base
  fresh : ∀ g ∈ gepsOn base events, vc.var2Id g.var = none

theorem pointerOperand_of_mem_gepsOn {events : List (Event V)} {g : GEPOperator V}
    (hg : g ∈ gepsOn base events) : g.pointerOperand = base := by
  induction events with
  | nil => cases hg
  | cons ev events ih =>
    rw [gepsOn_cons] at hg
    rcases List.mem_append.1 hg with hg | hg
    · cases ev with
      | other op => cases hg
      | handleGep gep =>
        simp only [gepsOn] at hg
        split_ifs at hg with hbase
        · rw [List.mem_singleton.1 hg, hbase]
        · cases hg
    · exact ih hg

theorem eq_of_map_nodup {α β : Type} {f : α → β} {l pre pre' post post' : List α} {a b : α}
    (hnodup : (l.map f).Nodup) (hl : l = pre ++ a :: post) (hl' : l = pre' ++ b :: post')
    (hab : f a = f b) : pre = pre' := by
  induction pre generalizing l pre' with
  | nil =>
    cases pre' with
    | nil => rfl
    | cons x pre' =>
      subst hl
      obtain ⟨rfl, rfl⟩ := List.cons.inj hl'
      refine absurd ?_ (List.nodup_cons.1 hnodup).1
      exact List.mem_map.2 ⟨b, List.mem_append_right _ List.mem_cons_self, hab.symm⟩
  | cons x pre ih =>
    cases pre' with
    | nil =>
      subst hl
      obtain ⟨rfl, rfl⟩ := List.cons.inj hl'
      refine absurd ?_ (List.nodup_cons.1 hnodup).1
      exact List.mem_map.2 ⟨a, List.mem_append_right _ List.mem_cons_self, hab⟩
    | cons y pre' =>
      subst hl
      obtain ⟨rfl, htail⟩ := List.cons.inj hl'
      rw [ih (List.nodup_cons.1 hnodup).2 rfl htail]

theorem exists_split_of_not_pairwise {α : Type} {R : α → α → Prop} {l : List α}
    (hl : ¬l.Pairwise R) : ∃ pre a post, l = pre ++ a :: post ∧ ∃ d ∈ pre, ¬R d a := by
  induction l using List.reverseRecOn with
  | nil => exact absurd List.Pairwise.nil hl
  | append_singleton l a ih =>
    by_cases hpre : l.Pairwise R
    · by_contra hno
      refine hl (List.pairwise_append.2 ⟨hpre, List.pairwise_singleton R a, fun d hd b hb => ?_⟩)
      rw [List.mem_singleton.1 hb]
      by_contra hR
      exact hno ⟨l, a, [], rfl, d, hd, hR⟩
    · obtain ⟨pre, b, post, rfl, hex⟩ := ih hpre
      exact ⟨pre, b, post ++ [a], by simp, hex⟩

section Alone

variable {vc : ValueCompressor V} {events : List (Event V)}

/-- The nodes of a run can be colored like the pointers. -/
theorem VisitsAlone.colored {κ : Type} {color : V → κ} {colorOf : BitVec 64 → κ}
    (hv : VisitsAlone base vc events) (hcolor : ∀ var, (∀ g ∈ gepsOn base events, g.var ≠ var) →
      color var = color base)
    (hfits : Fits facts color colorOf base (gepsOn base events)) :
    ∃ c, Colored color colorOf base c (eventHistory facts events { VC := vc })
      (runEvents facts events { VC := vc }) := by
  have hc : Colored color colorOf base (fun _ => color base) [] { VC := vc } := by
    refine ⟨fun var id hid => (hcolor var fun g hg => ?_).symm, nofun, nofun⟩
    rintro rfl
    have hfresh := hv.fresh g hg
    rw [show vc.var2Id g.var = some id from hid] at hfresh
    cases hfresh
  have hseen : Seen facts base [] ({ VC := vc } : PAGBuildData V) :=
    ⟨fun hne => absurd rfl hne, fun ⟨_, hd, _⟩ => absurd hd List.not_mem_nil⟩
  obtain ⟨c, hc'⟩ := hc.runEvents (Reaches.init hv.ok) nofun hseen hv.alone hfits
  rw [List.append_nil] at hc'
  exact ⟨c, hc'⟩

/-- A GEP that shares the node of the pointer is lost after a decoupled one. -/
theorem VisitsAlone.last (hv : VisitsAlone base vc events) (hlocal : facts.isLocal base = true)
    (hk : KeepsAliases base (gepsOn base events) (eventHistory facts events { VC := vc })
      (runEvents facts events { VC := vc })) :
    (gepsOn base events).Pairwise fun g g' => g.Decoupled facts → g'.Decoupled facts := by
  by_contra hnot
  obtain ⟨pre, z, post, hsplit, d, hd, hdz⟩ := exists_split_of_not_pairwise hnot
  obtain ⟨hdd, hzd⟩ := Classical.not_imp.1 hdz
  have hzoff : z.decoupledOffset facts = none := not_not.1 hzd
  have hz : z ∈ gepsOn base events := hsplit ▸ List.mem_append_right _ List.mem_cons_self
  have hbase : decide (base ≠ z.var) = true := decide_eq_true (hv.notMem z hz).symm
  have hfits : Fits facts (fun v => decide (v ≠ z.var)) (fun _ => true) base
      (gepsOn base events) := by
    intro pre' g post' hsplit'
    refine ⟨fun offset hoff => decide_eq_true fun heq => ?_, fun hoff hno => ?_,
      fun _ _ _ => hbase.symm⟩
    · have hg : g ∈ gepsOn base events := hsplit' ▸ List.mem_append_right _ List.mem_cons_self
      rw [List.inj_on_of_nodup_map hv.nodup hg hz heq, hzoff] at hoff
      cases hoff
    · refine Eq.trans (decide_eq_true fun heq => hno ⟨d, ?_, hdd⟩) hbase.symm
      rwa [eq_of_map_nodup hv.nodup hsplit' hsplit heq]
  obtain ⟨c, hc⟩ := hv.colored (fun var hvar => (decide_eq_true (hvar z hz).symm).trans hbase.symm) hfits
  have heq := hc.eq_of_related (hk.pointer z hz
    (denotes_zero (pointerOperand_of_mem_gepsOn hz ▸ hlocal) hzoff))
  simp [(hv.notMem z hz).symm] at heq

/-- A decoupled GEP is not connected to the pointer, and to no GEP that shares its node. -/
theorem VisitsAlone.not_related (hv : VisitsAlone base vc events)
    (hlast : (gepsOn base events).Pairwise fun g g' => g.Decoupled facts → g'.Decoupled facts)
    {d : GEPOperator V} (hd : d ∈ gepsOn base events) (hdd : d.Decoupled facts)
    (hw : ∀ g ∈ gepsOn base events, g.var = w → g.decoupledOffset facts = none) :
    ¬Related (eventHistory facts events { VC := vc }) (runEvents facts events { VC := vc }) d.var w := by
  intro hr
  have hcolor : ∀ var, decide (∀ g ∈ gepsOn base events, g.var = var →
      g.decoupledOffset facts = none) = true ↔
      ∀ g ∈ gepsOn base events, g.var = var → g.decoupledOffset facts = none :=
    fun var => decide_eq_true_iff
  have hother : ∀ var, (∀ g ∈ gepsOn base events, g.var ≠ var) →
      decide (∀ g ∈ gepsOn base events, g.var = var → g.decoupledOffset facts = none) = true :=
    fun var hvar => (hcolor var).2 fun g hg heq => absurd heq (hvar g hg)
  have hbase := hother base hv.notMem
  have hfits : Fits facts (fun v => decide (∀ g ∈ gepsOn base events, g.var = v →
      g.decoupledOffset facts = none)) (fun _ => false) base (gepsOn base events) := by
    intro pre g post hsplit
    have hg : g ∈ gepsOn base events := hsplit ▸ List.mem_append_right _ List.mem_cons_self
    refine ⟨fun offset hoff => decide_eq_false fun hall => ?_, fun hoff _ => ?_,
      fun hoff ⟨e, he, hed⟩ => ?_⟩
    · have hnone := hall g hg rfl
      rw [hoff] at hnone
      cases hnone
    · refine Eq.trans ((hcolor g.var).2 fun g' hg' heq => ?_) hbase.symm
      rw [List.inj_on_of_nodup_map hv.nodup hg' hg heq]
      exact hoff
    · rw [hsplit] at hlast
      exact absurd hoff ((List.pairwise_append.1 hlast).2.2 e he g List.mem_cons_self hed)
  obtain ⟨c, hc⟩ := hv.colored (fun var hvar => (hother var hvar).trans hbase.symm) hfits
  have heq := hc.eq_of_related hr
  have hwc := (hcolor w).2 hw
  have hdc : decide (∀ g ∈ gepsOn base events, g.var = d.var →
      g.decoupledOffset facts = none) = false := decide_eq_false fun hall => hdd (hall d hd rfl)
  rw [hwc, hdc] at heq
  cases heq

theorem VisitsAlone.orderOk (hv : VisitsAlone base vc events) (hlocal : facts.isLocal base = true)
    (hk : KeepsAliases base (gepsOn base events) (eventHistory facts events { VC := vc })
      (runEvents facts events { VC := vc })) :
    OrderOk facts (gepsOn base events) := by
  have hlast := hv.last hlocal hk
  refine ⟨fun g hg hoff => ?_, hlast, fun d hd g hg hdd => ?_⟩
  · have hgd : g.Decoupled facts := by
      rw [GEPOperator.Decoupled, hoff]
      exact Option.some_ne_none 0
    refine hv.not_related hlast hg hgd (fun g' hg' heq => absurd heq (hv.notMem g' hg')) ?_
    refine hk.pointer g hg fun o ho => ?_
    rw [accumulate_of_decoupled hoff] at ho
    exact (Option.some.inj ho).symm
  · by_contra hnot
    obtain ⟨hgd, hzero⟩ := not_or.1 hnot
    have hgoff : g.decoupledOffset facts = none := not_not.1 hgd
    have hvariable : g.accumulateConstantOffset = none := by
      by_contra hconst
      rw [Bool.not_eq_true] at hzero
      rw [GEPOperator.decoupledOffset, pointerOperand_of_mem_gepsOn hg, hlocal, g.constant hconst,
        hzero] at hgoff
      exact hconst hgoff
    refine hv.not_related hlast hd hdd (w := g.var) (fun g' hg' heq => ?_) ?_
    · rw [List.inj_on_of_nodup_map hv.nodup hg' hg heq]
      exact hgoff
    · obtain ⟨offset, hoff⟩ := Option.ne_none_iff_exists'.1 hdd
      refine hk.pairs d hd g hg ?_ ⟨offset, fun o ho => ?_, fun o ho => ?_⟩
      · rintro rfl
        exact hgd hdd
      · rw [accumulate_of_decoupled hoff] at ho
        exact (Option.some.inj ho).symm
      · rw [hvariable] at ho
        cases ho

/-- In a harmless order, pointers that can denote the same offset are related, whatever else the builder
does. If it only visits the GEPs on the pointer, then they are related in no other order. -/
theorem keepsAliases_iff (hlocal : facts.isLocal base = true) :
    (OrderOk facts (gepsOn base events) → KeepsAliases base (gepsOn base events)
      (eventHistory facts events { VC := vc }) (runEvents facts events { VC := vc })) ∧
    (VisitsAlone base vc events → KeepsAliases base (gepsOn base events)
        (eventHistory facts events { VC := vc }) (runEvents facts events { VC := vc }) →
      OrderOk facts (gepsOn base events)) := by
  refine ⟨fun hok => ?_, fun hv hk => hv.orderOk hlocal hk⟩
  have hk : Kept facts base [] [] ({ VC := vc } : PAGBuildData V) :=
    ⟨fun _ hg => absurd hg List.not_mem_nil, fun hne => absurd rfl hne⟩
  have hrun : Kept facts base ([] ++ gepsOn base events) (eventHistory facts events { VC := vc } ++ [])
      (runEvents facts events { VC := vc }) := hk.runEvents hok.last
  rw [List.append_nil] at hrun
  exact hrun.keepsAliases hok

end Alone

/-- Pointer `0` is an allocation. -/
def oneAlloca : PointerFacts ℕ where
  isArgument _ := false
  isAllocaInstOrHeapAllocaFunction v := v == 0
  isAddressTakenArg _ := false
  isAddressTakenVariable _ := false

/-- `getelementptr` of the allocation with a constant offset, or with a variable one. -/
def gepAt (var : ℕ) : Option (BitVec 64) → GEPOperator ℕ
  | some offset => ⟨var, 0, true, offset = 0, some offset, fun _ => rfl, fun h => by simpa using h⟩
  | none => ⟨var, 0, false, false, none, fun h => absurd rfl h, nofun⟩

/-- The first field through a GEP with zero indices, then the second field through two GEPs. -/
theorem keepsAliases_fields :
    Related (eventHistory oneAlloca [.handleGep (gepAt 1 (some 0)), .handleGep (gepAt 2 (some 8)),
        .handleGep (gepAt 3 (some 8))] { VC := {} })
      (runEvents oneAlloca [.handleGep (gepAt 1 (some 0)), .handleGep (gepAt 2 (some 8)),
        .handleGep (gepAt 3 (some 8))] { VC := {} }) 2 3 := by
  have hok : OrderOk oneAlloca (gepsOn 0 [.handleGep (gepAt 1 (some 0)), .handleGep (gepAt 2 (some 8)),
      .handleGep (gepAt 3 (some 8))]) := ⟨by decide, by decide, by decide⟩
  have hgeps : gepsOn 0 [.handleGep (gepAt 1 (some 0)), .handleGep (gepAt 2 (some 8)),
      .handleGep (gepAt 3 (some 8))] = [gepAt 1 (some 0), gepAt 2 (some 8), gepAt 3 (some 8)] := rfl
  have hlocal : oneAlloca.isLocal 0 = true := rfl
  refine ((keepsAliases_iff hlocal).1 hok).pairs (gepAt 2 (some 8)) (by rw [hgeps]; simp)
    (gepAt 3 (some 8)) (by rw [hgeps]; simp) (fun heq => ?_) ⟨8, fun o ho => ?_, fun o ho => ?_⟩
  · cases congrArg (·.var) heq
  · exact (Option.some.inj ho).symm
  · exact (Option.some.inj ho).symm

/-- `a[1]` before `a[i]`: the second one is related to nothing, not even to `a`. -/
theorem not_keepsAliases :
    ¬KeepsAliases 0 [gepAt 1 (some 8), gepAt 2 none]
      (eventHistory oneAlloca [.handleGep (gepAt 1 (some 8)), .handleGep (gepAt 2 none)] { VC := {} })
      (runEvents oneAlloca [.handleGep (gepAt 1 (some 8)), .handleGep (gepAt 2 none)] { VC := {} }) := by
  intro hk
  obtain ⟨x, y, hx, -⟩ := hk.pointer (gepAt 2 none) (by simp) nofun
  cases hx

end Phasar.LLVMPAGBuilder
