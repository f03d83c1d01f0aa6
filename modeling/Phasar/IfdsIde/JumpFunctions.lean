import Phasar.IfdsIde.Problem

/-!
# Jump functions

The two-dimensional tables of the solvers, and the jump-function store of `IDESolver` with its three
indexes.

* `Table`: a table whose cells exist from the start, each with a default value;
* `PathEdge`, `JumpFunctions`, `JumpFunctions.addFunction`;
* `JumpFunctions.Synced`: the three indexes hold the same jump functions; `addFunction` keeps them
  in step.
-/

namespace Phasar

/-! ### Tables -/

/-- A table with rows `R` and columns `C`; `get` of a missing cell creates the default value. -/
def Table (R C V : Type*) := R → C → V

namespace Table

variable {R C V : Type*} [DecidableEq R] [DecidableEq C]

/-- Change the value of one cell. -/
def modify (t : Table R C V) (r : R) (c : C) (f : V → V) : Table R C V :=
  fun r' c' => if r' = r ∧ c' = c then f (t r c) else t r' c'

@[simp] theorem modify_self (t : Table R C V) (r : R) (c : C) (f : V → V) :
    t.modify r c f r c = f (t r c) := by
  simp [modify]

theorem modify_of_ne (t : Table R C V) {r r' : R} {c c' : C} (f : V → V)
    (h : ¬ (r' = r ∧ c' = c)) : t.modify r c f r' c' = t r' c' := by
  simp [modify, h]

end Table

/-! ### Path edges and jump functions -/

/-- A path edge from the fact at the start of a function to a target statement and fact. -/
structure PathEdge (N D : Type*) where
  dSource : D
  target : N
  dTarget : D
  deriving DecidableEq

instance [Finite N] [Finite D] : Finite (PathEdge N D) :=
  Finite.of_injective (fun k => (k.dSource, k.target, k.dTarget)) fun k k' h => by
    obtain ⟨_, _, _⟩ := k
    obtain ⟨_, _, _⟩ := k'
    simpa using h

/-- The recorded jump functions, indexed by target node and fact, by source fact and target node,
and by target node. -/
structure JumpFunctions (N D E : Type*) where
  nonEmptyReverseLookup : Table N D (VecMap D E)
  nonEmptyForwardLookup : Table D N (VecMap D E)
  nonEmptyLookupByTargetNode : N → VecMap (D × D) E

namespace JumpFunctions

variable {N D E : Type*}

/-- The store without jump functions. -/
def empty : JumpFunctions N D E := ⟨fun _ _ => .empty, fun _ _ => .empty, fun _ => .empty⟩

/-- For a target all source facts with their jump functions. -/
def reverseLookup (JF : JumpFunctions N D E) (target : N) (targetVal : D) : VecMap D E :=
  JF.nonEmptyReverseLookup target targetVal

/-- For a source fact and a target node all target facts with their jump functions. -/
def forwardLookup (JF : JumpFunctions N D E) (sourceVal : D) (target : N) : VecMap D E :=
  JF.nonEmptyForwardLookup sourceVal target

/-- All jump functions of a target node. -/
def lookupByTarget (JF : JumpFunctions N D E) (target : N) : VecMap (D × D) E :=
  JF.nonEmptyLookupByTargetNode target

variable [DecidableEq D]

/-- The jump function stored for a path edge. -/
def stored (JF : JumpFunctions N D E) (k : PathEdge N D) : Option E :=
  (JF.reverseLookup k.target k.dTarget).get? k.dSource

/-- The three indexes hold the same jump functions, and never all-top. -/
structure Synced (isAllTop : E → Bool) (JF : JumpFunctions N D E) : Prop where
  forward : ∀ k : PathEdge N D, (JF.forwardLookup k.dSource k.target).get? k.dTarget = JF.stored k
  byTarget : ∀ k : PathEdge N D,
    (JF.lookupByTarget k.target).get? (k.dSource, k.dTarget) = JF.stored k
  not_allTop : ∀ {k e}, JF.stored k = some e → isAllTop e = false

variable {isAllTop : E → Bool} {JF : JumpFunctions N D E}

@[simp] theorem stored_empty (k : PathEdge N D) : (empty : JumpFunctions N D E).stored k = none :=
  rfl

theorem Synced.empty : Synced isAllTop (empty : JumpFunctions N D E) where
  forward _ := rfl
  byTarget _ := rfl
  not_allTop h := absurd h (by simp)

/-- A scan of the reverse lookup meets exactly the stored jump functions of its target. -/
theorem mem_reverseLookup {n : N} {d₁ d₂ : D} {e : E} :
    (d₁, e) ∈ (JF.reverseLookup n d₂).entries ↔ JF.stored ⟨d₁, n, d₂⟩ = some e :=
  VecMap.mem_entries_iff _ _ _

variable [DecidableEq N]

/-- Record a jump function, overwriting an older one; the default function all-top is not stored. -/
def addFunction (isAllTop : E → Bool) (JF : JumpFunctions N D E) (sourceVal : D) (target : N)
    (targetVal : D) (edgeFunc : E) : JumpFunctions N D E :=
  if isAllTop edgeFunc then JF
  else
    { nonEmptyReverseLookup :=
        JF.nonEmptyReverseLookup.modify target targetVal (·.set sourceVal edgeFunc)
      nonEmptyForwardLookup :=
        JF.nonEmptyForwardLookup.modify sourceVal target (·.set targetVal edgeFunc)
      nonEmptyLookupByTargetNode := Function.update JF.nonEmptyLookupByTargetNode target
        ((JF.nonEmptyLookupByTargetNode target).set (sourceVal, targetVal) edgeFunc) }

theorem stored_addFunction {k : PathEdge N D} {e : E} (he : isAllTop e = false)
    (k' : PathEdge N D) : (JF.addFunction isAllTop k.dSource k.target k.dTarget e).stored k' =
      if k' = k then some e else JF.stored k' := by
  obtain ⟨d₁, n, d₂⟩ := k
  obtain ⟨d₁', n', d₂'⟩ := k'
  simp only [stored, reverseLookup, addFunction, he, Bool.false_eq_true, if_false, Table.modify,
    PathEdge.mk.injEq]
  by_cases h : n' = n ∧ d₂' = d₂
  · obtain ⟨rfl, rfl⟩ := h
    simp [VecMap.get?_set, eq_comm]
  · rw [if_neg h, if_neg (by tauto)]

/-- **`addFunction` keeps the three indexes in step.** -/
theorem Synced.addFunction (h : Synced isAllTop JF) (k : PathEdge N D) (e : E) :
    Synced isAllTop (JF.addFunction isAllTop k.dSource k.target k.dTarget e) := by
  cases he : isAllTop e with
  | true => simpa [JumpFunctions.addFunction, he] using h
  | false =>
    obtain ⟨d₁, n, d₂⟩ := k
    refine ⟨fun k' => ?_, fun k' => ?_, fun {k' e'} hk' => ?_⟩
    · obtain ⟨d₁', n', d₂'⟩ := k'
      have hf := h.forward ⟨d₁', n', d₂'⟩
      rw [stored_addFunction he, ← hf]
      simp only [forwardLookup, JumpFunctions.addFunction, he, Bool.false_eq_true, if_false,
        Table.modify, PathEdge.mk.injEq]
      by_cases hk : d₁' = d₁ ∧ n' = n
      · obtain ⟨rfl, rfl⟩ := hk
        simp [VecMap.get?_set, eq_comm]
      · rw [if_neg hk, if_neg (by tauto)]
    · obtain ⟨d₁', n', d₂'⟩ := k'
      have hf := h.byTarget ⟨d₁', n', d₂'⟩
      rw [stored_addFunction he, ← hf]
      simp only [lookupByTarget, JumpFunctions.addFunction, he, Bool.false_eq_true, if_false,
        PathEdge.mk.injEq]
      by_cases hn : n' = n
      · subst hn
        simp [VecMap.get?_set, eq_comm]
      · rw [Function.update_of_ne hn, if_neg (by tauto)]
    · rw [stored_addFunction he] at hk'
      split_ifs at hk' with hk
      · obtain rfl := Option.some.inj hk'
        exact he
      · exact h.not_allTop hk'

end JumpFunctions

end Phasar
