import Phasar.Utils.RemoveByIndex
import Mathlib.Logic.Function.Basic
import Mathlib.Data.List.Nodup
import Mathlib.Tactic.Common

/-!
# Alias sets behind boxes

`LLVMAliasSet` maps a pointer to a box with the address of its alias set. Several pointers share a box and
several boxes may have the same address. A merge redirects the boxes of the smaller set and frees it.

* `AliasSet`, `mergeBoxes`, `addSingletonAliasSet`, `mergeAliasSets`, `addPointer`;
* `Partition`: the sets are the classes of the pointers, and no box has the address of a freed set.
-/

namespace Phasar.LLVMAliasSet

/-- A failed assertion, or a null or dangling pointer that is read or freed. -/
inductive Error
  | assertion
  | badPointer
  deriving DecidableEq

/-- `AliasSets` with the indices of the boxes, and the tables of `AliasSetOwner`. The sets of addresses
that are not owned are gone. -/
structure AliasSet (V : Type) where
  aliasSets : V → Option ℕ
  allPTS : List ℕ
  ownedPTS : List ℕ
  sets : ℕ → List V

/-- An allocator answers with an address that is not in use. -/
structure Allocator (V : Type) where
  address : AliasSet V → ℕ
  address_notMem : ∀ s, address s ∉ s.ownedPTS

section Store

variable {V : Type} [DecidableEq V]

def empty : AliasSet V := ⟨fun _ => none, [], [], fun _ => []⟩

namespace AliasSet

variable (s : AliasSet V)

/-- The address in a box. -/
def get (b : ℕ) : Except Error ℕ :=
  match s.allPTS[b]? with
  | some a => .ok a
  | none => .error .badPointer

/-- The set at an address. -/
def read (a : ℕ) : Except Error (List V) :=
  if a ∈ s.ownedPTS then .ok (s.sets a) else .error .badPointer

/-- `AliasSetOwner::acquire`. -/
def acquire (A : Allocator V) : AliasSet V × ℕ :=
  ({ s with
      allPTS := s.allPTS ++ [A.address s]
      ownedPTS := s.ownedPTS ++ [A.address s]
      sets := Function.update s.sets (A.address s) [] }, s.allPTS.length)

/-- `AliasSetOwner::release`. -/
def release (a : ℕ) : Except Error (AliasSet V) :=
  if a ∈ s.ownedPTS then .ok { s with ownedPTS := s.ownedPTS.erase a } else .error .badPointer

/-- The body of the loop over the smaller set. -/
def redirect (toDelete large : ℕ) (v : V) : Except Error (AliasSet V) :=
  match s.aliasSets v with
  | none => .error .badPointer
  | some b => do
    let a ← s.get b
    return if a = toDelete then { s with allPTS := s.allPTS.set b large } else s

end AliasSet

/-- The insertion of an element into a set. -/
def insertElem (set : List V) (v : V) : List V := if v ∈ set then set else set ++ [v]

/-- The part of `mergeAliasSets` behind the choice of the smaller set. -/
def mergeInto (s : AliasSet V) (small large : ℕ) : Except Error (AliasSet V) := do
  let s' ← (s.sets small).foldlM (AliasSet.redirect · small large)
    { s with sets := Function.update s.sets large ((s.sets small).foldl insertElem (s.sets large)) }
  s'.release small

/-- `mergeAliasSets`, for boxes. -/
def mergeBoxes (s : AliasSet V) (pts₁ pts₂ : ℕ) : Except Error (AliasSet V) :=
  if pts₁ = pts₂ then .ok s
  else do
    let a₁ ← s.get pts₁
    let a₂ ← s.get pts₂
    if a₁ = a₂ then return s
    else
      let set₁ ← s.read a₁
      let set₂ ← s.read a₂
      if set₁.length > set₂.length then mergeInto s a₂ a₁ else mergeInto s a₁ a₂

/-- `mergeAliasSets`. -/
def mergeAliasSets (s : AliasSet V) (v₁ v₂ : V) : Except Error (AliasSet V) :=
  if v₁ = v₂ then .ok s
  else match s.aliasSets v₁, s.aliasSets v₂ with
    | some pts₁, some pts₂ => mergeBoxes s pts₁ pts₂
    | _, _ => .error .assertion

/-- `PTS->insert(V)`. -/
def insertInto (s : AliasSet V) (pts : ℕ) (v : V) : Except Error (AliasSet V) := do
  let a ← s.get pts
  let set ← s.read a
  return { s with sets := Function.update s.sets a (insertElem set v) }

def addSingletonAliasSet (A : Allocator V) (s : AliasSet V) (v : V) : Except Error (AliasSet V) :=
  match s.aliasSets v with
  | some pts => do
    let a ← s.get pts
    let set ← s.read a
    if v ∈ set then return s else .error .assertion
  | none => do
    let s' ← insertInto (s.acquire A).1 (s.acquire A).2 v
    return { s' with aliasSets := Function.update s'.aliasSets v (some (s.acquire A).2) }

/-- The end of both branches of `addPointer` with representatives: the pointer joins the set in a box. -/
def join (s : AliasSet V) (pts : ℕ) (v : V) : Except Error (AliasSet V) :=
  match s.aliasSets v with
  | some vpts => mergeBoxes s pts vpts
  | none => insertInto { s with aliasSets := Function.update s.aliasSets v (some pts) } pts v

/-- `AliasSets[V]`, a null pointer if there is no entry. -/
def lookup (s : AliasSet V) (v : V) : Except Error ℕ :=
  match s.aliasSets v with
  | some pts => .ok pts
  | none => .error .badPointer

variable {T : Type} [DecidableEq T]

/-- The loop over the representatives behind the first one that may alias the pointer, with their
positions. The types that occur and the positions to remove are collected. -/
def mergeReps (type : V → T) (pts : ℕ) :
    List (V × ℕ) → AliasSet V → List T → List ℕ → Except Error (AliasSet V × List T × List ℕ)
  | [], s, types, toRemove => .ok (s, types, toRemove)
  | (r, idx) :: reps, s, types, toRemove => do
    let rpts ← lookup s r
    let s' ← mergeBoxes s pts rpts
    if type r ∈ types then mergeReps type pts reps s' types (toRemove ++ [idx])
    else mergeReps type pts reps s' (types ++ [type r]) toRemove

/-- `ToMerge`. -/
def toMerge (mayAlias : V → V → Bool) (v : V) (reps : List V) : List (V × ℕ) :=
  reps.zipIdx.filter fun p => mayAlias v p.1

/-- `addPointer`, with the representatives. -/
def addPointer (A : Allocator V) (type : V → T) (mayAlias : V → V → Bool) (s : AliasSet V) (reps : List V)
    (v : V) : Except Error (AliasSet V × List V) :=
  match toMerge mayAlias v reps with
  | [] => do
    let s' ← addSingletonAliasSet A s v
    return (s', reps ++ [v])
  | [(r, _)] => do
    let pts ← lookup s r
    let s' ← join s pts v
    -- of each type, one representative stands for the pointers behind it
    return (s', if type v ≠ type r then reps ++ [v] else reps)
  | (r, _) :: rs => do
    let pts ← lookup s r
    let (s', types, toRemove) ← mergeReps type pts rs s [type r] []
    let s'' ← join s' pts v
    let reps' := (Utilities.removeByIndex reps toRemove).1.take (Utilities.removeByIndex reps toRemove).2
    return (s'', if type v ∈ types then reps' else reps' ++ [v])

end Store

/-! ### The analysis of functions and values -/

/-- What an instruction has to do with pointers: the value and the pointer operand of a store, and the
operands of a call or of another instruction. -/
structure Instruction (V : Type) where
  value : V
  store : Option (V × V)
  calledOperand : Option V
  dataOps : List V
  operands : List V

/-- A module with the alias analyses of its functions. -/
structure Module (V F T : Type) where
  isPointerTy : V → Bool
  isNull : V → Bool
  isInstruction : V → Bool
  isFunction : V → Bool
  isGlobalObject : V → Bool
  /-- The operand of a constant cast. -/
  castOperand : V → Option V
  type : V → T
  isDeclaration : F → Bool
  instructions : F → List (Instruction V)
  args : F → List V
  /-- The globals among the operands, as `addIfGlobal` collects them. -/
  usedGlobals : F → List V
  /-- The users that are instructions of a function. -/
  users : V → List (F × Instruction V)
  retrieveFunction : V → Option F
  mayAlias : F → V → V → Bool

/-- A call of the analysis of a function. -/
inductive Command (V : Type)
  | pointer (v : V)
  | singleton (v : V)
  | merge (v₁ v₂ : V)

/-- `AnalyzedFunctions` beside the sets. -/
structure State (V F : Type) where
  store : AliasSet V
  analyzedFunctions : List F

section Analysis

variable {V F T : Type} [DecidableEq V] [DecidableEq F] [DecidableEq T]

def isInterestingPointer (M : Module V F T) (v : V) : Bool := M.isPointerTy v && !M.isNull v

/-- The calls for a store. -/
def storeCommands (M : Module V F T) (svo spo : V) : List (Command V) :=
  if M.isPointerTy svo then
    (if M.isFunction svo then [.singleton svo, .singleton spo, .merge svo spo] else []) ++
      match M.castOperand svo with
      | some rhs => [.singleton spo] ++
          (if M.isPointerTy rhs then [.singleton rhs, .merge rhs spo] else []) ++
          [.singleton svo, .merge svo spo]
      | none => []
  else []

/-- The calls for the operands. -/
def operandCommands (M : Module V F T) (I : Instruction V) : List (Command V) :=
  match I.calledOperand with
  | some callee =>
    (if !M.isFunction callee && isInterestingPointer M callee && !M.isInstruction callee then
      [.pointer callee] else []) ++
      (I.dataOps.filter fun op => !M.isInstruction op && isInterestingPointer M op).map .pointer
  | none => (I.operands.filter fun op => !M.isInstruction op && isInterestingPointer M op).map .pointer

/-- The calls of the loop body for an instruction. -/
def instructionCommands (M : Module V F T) (I : Instruction V) : List (Command V) :=
  (if M.isPointerTy I.value then [.pointer I.value] else []) ++
    (match I.store with
      | some (svo, spo) => storeCommands M svo spo
      | none => []) ++ operandCommands M I

/-- The calls of `computeFunctionsAliasSet`. -/
def functionCommands (M : Module V F T) (f : F) : List (Command V) :=
  (M.instructions f).flatMap (instructionCommands M) ++
    ((M.args f).filter M.isPointerTy).map .pointer ++ (M.usedGlobals f).map .pointer

def exec (A : Allocator V) (M : Module V F T) (f : F) (p : AliasSet V × List V) :
    Command V → Except Error (AliasSet V × List V)
  | .pointer v => addPointer A M.type (M.mayAlias f) p.1 p.2 v
  | .singleton v => do
    let s' ← addSingletonAliasSet A p.1 v
    return (s', p.2)
  | .merge v₁ v₂ => do
    let s' ← mergeAliasSets p.1 v₁ v₂
    return (s', p.2)

def computeFunctionsAliasSet (A : Allocator V) (M : Module V F T) (st : State V F) (f : F) :
    Except Error (State V F) :=
  if f ∈ st.analyzedFunctions then .ok st
  else if M.isDeclaration f then .ok ⟨st.store, st.analyzedFunctions ++ [f]⟩
  else do
    let p ← (functionCommands M f).foldlM (exec A M f) (st.store, [])
    return ⟨p.1, st.analyzedFunctions ++ [f]⟩

/-- The loop body of `computeValuesAliasSet` for a user of a global object. -/
def computeUser (A : Allocator V) (M : Module V F T) (g : V) (st : State V F) (user : F × Instruction V) :
    Except Error (State V F) := do
  let st' ← computeFunctionsAliasSet A M st user.1
  if !M.isFunction g && isInterestingPointer M user.2.value then
    let s' ← mergeAliasSets st'.store user.2.value g
    return { st' with store := s' }
  else match user.2.store with
    | some (svo, spo) =>
      if isInterestingPointer M svo then
        let s' ← mergeAliasSets st'.store svo spo
        return { st' with store := s' }
      else return st'
    | none => return st'

def computeValuesAliasSet (A : Allocator V) (M : Module V F T) (st : State V F) (v : V) :
    Except Error (State V F) :=
  if isInterestingPointer M v then do
    let s' ← addSingletonAliasSet A st.store v
    if M.isGlobalObject v then (M.users v).foldlM (computeUser A M v) { st with store := s' }
    else match M.retrieveFunction v with
      | some f => computeFunctionsAliasSet A M { st with store := s' } f
      | none => return { st with store := s' }
  else .ok st

def introduceAlias (A : Allocator V) (M : Module V F T) (st : State V F) (v₁ v₂ : V) :
    Except Error (State V F) :=
  if isInterestingPointer M v₁ && isInterestingPointer M v₂ then do
    let st₁ ← computeValuesAliasSet A M st v₁
    let st₂ ← computeValuesAliasSet A M st₁ v₂
    let s' ← mergeAliasSets st₂.store v₁ v₂
    return { st₂ with store := s' }
  else .ok st

end Analysis

end Phasar.LLVMAliasSet
