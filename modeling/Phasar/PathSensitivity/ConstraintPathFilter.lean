import Phasar.Lib.SMTTerm
import Phasar.Lib.SortedRange

/-!
# The constraint filter

`ConstraintPathFilter` hands the constraints on the edges of a path to the solver. The solver is not
called while the variables of new constraints are new.

* `Solver`: the assertions, with scopes; `Z3`: what is assumed of the check;
* `ConstraintPathFilter`: `saveState`, `restoreState`, `saveEdge`, `isValid`, `saveFinalEdge`;
* `Asserts`, `Quiet`: the solver has the constraints of the path; nothing is left to check;
* `Asserts.isValid`, `Asserts.saveFinalEdge`: what an invalid path and a valid end mean.
-/

namespace Phasar.Z3BasedPathSensitivityManager

open SMT

/-- The assertions of `z3::solver`, and how many there were at every `push`. -/
structure Solver (S : Type) where
  assertions : List (Expr S)
  scopes : List ℕ

namespace Solver

variable {S : Type}

def push (s : Solver S) : Solver S := { s with scopes := s.assertions.length :: s.scopes }

def pop (s : Solver S) : Solver S :=
  match s.scopes with
  | [] => s
  | n :: scopes => ⟨s.assertions.take n, scopes⟩

def add (e : Expr S) (s : Solver S) : Solver S := { s with assertions := s.assertions ++ [e] }

end Solver

/-- Z3, whose check finds a model exactly where there is one. -/
structure Z3 (S : Type) where
  check : List (Expr S) → Option (Model S)
  holds : ∀ es M, check es = some M → ∀ e ∈ es, Holds M e
  isSome_of_satisfiable : ∀ es, Satisfiable es → (check es).isSome

theorem Z3.isSome_iff {S : Type} (z3 : Z3 S) {es : List (Expr S)} :
    (z3.check es).isSome ↔ Satisfiable es := by
  refine ⟨fun hsome => ?_, z3.isSome_of_satisfiable es⟩
  obtain ⟨M, hM⟩ := Option.isSome_iff_exists.1 hsome
  exact ⟨M, z3.holds es M hM⟩

/-- The constraint of an edge, with its variables. -/
structure ConstraintAndVariables (S V : Type) where
  constraint : Expr S
  vars : List V

structure ConstraintPathFilter (S V : Type) where
  solver : Solver S
  symbolicAtoms : List V := []
  numAtomsStack : List ℕ := [0]
  localAtoms : List V := []
  model : Option (Model S) := none
  needSolverInvocation : Bool := false

namespace ConstraintPathFilter

variable {N S V : Type}

/-- The constructor. -/
def create (additionalConstraint : Expr S) : ConstraintPathFilter S V where
  solver := (Solver.add additionalConstraint ⟨[], []⟩).push

def saveState (f : ConstraintPathFilter S V) : ConstraintPathFilter S V :=
  { f with
    numAtomsStack := f.numAtomsStack.headD 0 :: f.numAtomsStack
    solver := f.solver.push }

def restoreState (f : ConstraintPathFilter S V) : ConstraintPathFilter S V :=
  let diff := f.numAtomsStack.headD 0 - f.numAtomsStack.tail.headD 0
  { solver := f.solver.pop
    symbolicAtoms := f.symbolicAtoms.take (f.symbolicAtoms.length - diff)
    numAtomsStack := f.numAtomsStack.tail }

/-- `LPC` gives the constraint of an edge. -/
def saveEdge (LPC : N → N → Option (ConstraintAndVariables S V)) (prev inst : N)
    (f : ConstraintPathFilter S V) : ConstraintPathFilter S V :=
  match LPC prev inst with
  | none => f
  | some cv =>
    { f with
      solver := f.solver.add cv.constraint
      localAtoms := f.localAtoms ++ cv.vars }

section

variable [LinearOrder V]

/-- `SmallSetVector::insert`. -/
def insertAtom (atoms : List V) (v : V) : List V := if v ∈ atoms then atoms else atoms ++ [v]

def checkLocalAtomsOverlap (f : ConstraintPathFilter S V) : Bool × ConstraintPathFilter S V :=
  if f.needSolverInvocation then (true, f)
  else
    let localAtoms := SortedRange.sortUnique f.localAtoms
    let symbolicAtoms := localAtoms.foldl insertAtom f.symbolicAtoms
    (symbolicAtoms.length - f.symbolicAtoms.length != localAtoms.length,
      { f with
        symbolicAtoms := symbolicAtoms
        localAtoms := [] })

variable (check : List (Expr S) → Option (Model S))

def isValid (f : ConstraintPathFilter S V) : Bool × ConstraintPathFilter S V :=
  if f.localAtoms = [] ∧ f.needSolverInvocation = false then (true, f)
  else
    let overlap := f.checkLocalAtomsOverlap
    if overlap.1 = false then (true, overlap.2)
    else
      let f := { overlap.2 with needSolverInvocation := false }
      match check f.solver.assertions with
      | none => (false, f)
      | some model => (true, { f with model := some model })

def saveFinalEdge (LPC : N → N → Option (ConstraintAndVariables S V)) (prev finalInst : N)
    (f : ConstraintPathFilter S V) : Bool × ConstraintPathFilter S V :=
  isValid check { f.saveEdge LPC prev finalInst with needSolverInvocation := true }

end

/-! ### The constraints of the path -/

/-- The constraints of an edge. -/
def edgeConstraints (LPC : N → N → Option (ConstraintAndVariables S V)) (prev inst : N) :
    List (Expr S) :=
  ((LPC prev inst).map ConstraintAndVariables.constraint).toList

/-- The solver has these assertions and scopes. -/
def Asserts (f : ConstraintPathFilter S V) (constraints : List (Expr S)) (scopes : List ℕ) : Prop :=
  f.solver = ⟨constraints, scopes⟩

/-- Nothing is left to check. -/
structure Quiet (f : ConstraintPathFilter S V) : Prop where
  localAtoms : f.localAtoms = []
  needSolverInvocation : f.needSolverInvocation = false

variable {f : ConstraintPathFilter S V} {constraints added : List (Expr S)} {scopes : List ℕ}

theorem asserts_create (e : Expr S) : Asserts (create e : ConstraintPathFilter S V) [e] [1] := rfl

theorem quiet_create (e : Expr S) : Quiet (create e : ConstraintPathFilter S V) := ⟨rfl, rfl⟩

theorem Asserts.saveState (h : Asserts f constraints scopes) :
    Asserts f.saveState constraints (constraints.length :: scopes) := by
  rw [Asserts, ConstraintPathFilter.saveState, h]
  rfl

theorem Asserts.restoreState
    (h : Asserts f (constraints ++ added) (constraints.length :: scopes)) :
    Asserts f.restoreState constraints scopes := by
  rw [Asserts, ConstraintPathFilter.restoreState, h]
  exact congrArg (Solver.mk · scopes) List.take_left

theorem quiet_restoreState (f : ConstraintPathFilter S V) : Quiet f.restoreState := ⟨rfl, rfl⟩

theorem Asserts.saveEdge (h : Asserts f constraints scopes)
    (LPC : N → N → Option (ConstraintAndVariables S V)) (prev inst : N) :
    Asserts (f.saveEdge LPC prev inst) (constraints ++ edgeConstraints LPC prev inst) scopes := by
  unfold Asserts at h ⊢
  rw [ConstraintPathFilter.saveEdge, edgeConstraints]
  cases LPC prev inst with
  | none =>
    rw [h]
    exact congrArg (Solver.mk · scopes) (List.append_nil _).symm
  | some cv =>
    show f.solver.add cv.constraint = _
    rw [h]
    rfl

theorem needSolverInvocation_saveEdge (LPC : N → N → Option (ConstraintAndVariables S V))
    (prev inst : N) (f : ConstraintPathFilter S V) :
    (f.saveEdge LPC prev inst).needSolverInvocation = f.needSolverInvocation := by
  unfold ConstraintPathFilter.saveEdge
  split <;> rfl

variable [LinearOrder V] (check : List (Expr S) → Option (Model S))

theorem solver_checkLocalAtomsOverlap (f : ConstraintPathFilter S V) :
    f.checkLocalAtomsOverlap.2.solver = f.solver := by
  rw [checkLocalAtomsOverlap]
  split_ifs <;> rfl

/-- What a call of the solver does. -/
theorem isValid_of_overlap (hcheck : ¬(f.localAtoms = [] ∧ f.needSolverInvocation = false))
    (hoverlap : f.checkLocalAtomsOverlap.1 = true) :
    (f.isValid check).1 = (check f.solver.assertions).isSome ∧
      (f.isValid check).2.solver = f.solver ∧
      (f.isValid check).2.localAtoms = f.checkLocalAtomsOverlap.2.localAtoms ∧
      (f.isValid check).2.needSolverInvocation = false ∧
      ((f.isValid check).1 = true → (f.isValid check).2.model.isSome) := by
  rw [ConstraintPathFilter.isValid, if_neg hcheck]
  simp only [hoverlap, Bool.true_eq_false, if_false, solver_checkLocalAtomsOverlap]
  cases check f.solver.assertions with
  | none => exact ⟨rfl, rfl, rfl, rfl, fun h => by cases h⟩
  | some model => exact ⟨rfl, rfl, rfl, rfl, fun _ => rfl⟩

/-- A path that is given up has no model. The check is left out only where it is not needed now. -/
theorem Asserts.isValid (h : Asserts f constraints scopes) (hneed : f.needSolverInvocation = false) :
    Asserts (f.isValid check).2 constraints scopes ∧ Quiet (f.isValid check).2 ∧
      ((f.isValid check).1 = false → check constraints = none) := by
  have hlocal : f.checkLocalAtomsOverlap.2.localAtoms = [] := by
    rw [checkLocalAtomsOverlap, hneed]
    rfl
  by_cases hquiet : f.localAtoms = [] ∧ f.needSolverInvocation = false
  · rw [ConstraintPathFilter.isValid, if_pos hquiet]
    exact ⟨h, ⟨hquiet.1, hquiet.2⟩, fun h => by cases h⟩
  · by_cases hoverlap : f.checkLocalAtomsOverlap.1 = true
    · obtain ⟨hvalid, hsolver, hatoms, hneed', -⟩ := isValid_of_overlap check hquiet hoverlap
      refine ⟨hsolver.trans h, ⟨hatoms.trans hlocal, hneed'⟩, fun hfalse => ?_⟩
      rw [hvalid, h] at hfalse
      exact Option.isSome_eq_false_iff.1 hfalse |> Option.isNone_iff_eq_none.1
    · rw [ConstraintPathFilter.isValid, if_neg hquiet]
      simp only [Bool.not_eq_true] at hoverlap
      simp only [hoverlap, if_true]
      refine ⟨(solver_checkLocalAtomsOverlap f).trans h, ⟨hlocal, ?_⟩, fun h => by cases h⟩
      rw [checkLocalAtomsOverlap, hneed]
      rfl

/-- At the end of a path the solver is always called. -/
theorem Asserts.saveFinalEdge (h : Asserts f constraints scopes)
    (LPC : N → N → Option (ConstraintAndVariables S V)) (prev finalInst : N) :
    Asserts (f.saveFinalEdge check LPC prev finalInst).2
        (constraints ++ edgeConstraints LPC prev finalInst) scopes ∧
      ((f.saveFinalEdge check LPC prev finalInst).1 = true →
        (f.saveFinalEdge check LPC prev finalInst).2.model.isSome) ∧
      ((f.saveFinalEdge check LPC prev finalInst).1 = true ↔
        (check (constraints ++ edgeConstraints LPC prev finalInst)).isSome) := by
  have hedge := h.saveEdge LPC prev finalInst
  obtain ⟨hvalid, hsolver, -, -, hmodel⟩ := isValid_of_overlap check
    (f := { f.saveEdge LPC prev finalInst with needSolverInvocation := true })
    (fun hquiet => Bool.noConfusion hquiet.2) rfl
  refine ⟨hsolver.trans hedge, hmodel, ?_⟩
  have hassertions : (f.saveEdge LPC prev finalInst).solver.assertions =
      constraints ++ edgeConstraints LPC prev finalInst := congrArg Solver.assertions hedge
  rw [← hassertions]
  exact iff_of_eq (congrArg (· = true) hvalid)

end ConstraintPathFilter

end Phasar.Z3BasedPathSensitivityManager
