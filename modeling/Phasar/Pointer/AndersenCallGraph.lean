import Phasar.Lib.ChangePass
import Phasar.Pointer.AndersenSolver
import Mathlib.Data.Finset.Insert

/-!
# The outer loop of the Andersen solver

`AndersenOTFSolver::SolverData::run`: functions are translated from a work list, and calls through
pointers, writes of function pointers and callbacks are checked again until nothing changes. The
translation of an instruction is given by the program, as the constraints that it inserts; node ids,
the arguments of a call site and the context of a callee are fixed by the program, and all nodes are
allocated.

* `Program`, `State`; `connectCallee`, `resolveFPCall`, `resolveVtableCall`, `resolveStructVCall`,
  `checkUnresolvedFieldWrites`, `checkUnresolvedCallbacks`, `run`.
-/

namespace Phasar.Andersen

open SolverData ChangePass

/-- An object: the value that it stands for, in a context. -/
structure ObjectKey (V C : Type) where
  val : V
  ctx : C
  deriving DecidableEq

structure FieldWriteInfo (F T : Type) where
  callees : List F
  elemTy : T
  deriving DecidableEq

structure QualifyingFieldWriteRecord (n : ℕ) (F T : Type) where
  ptrId : Fin n
  indices : List ℕ
  gepElemTy : T
  callee : F

structure CopyForwardFieldWriteRecord (n : ℕ) where
  ptrId : Fin n
  dstPtrId : Fin n
  copyLength : Option ℕ

structure FPCallRecord (n : ℕ) (S C : Type) where
  cs : S
  fpId : Fin n
  ctx : C

structure VCallRecord (n : ℕ) (S C : Type) where
  cs : S
  vtablePtrId : Fin n
  vtableIndex : ℕ
  ctx : C

structure StructVCallRecord (n : ℕ) (S C T : Type) where
  cs : S
  baseId : Fin n
  fpId : Fin n
  indices : List ℕ
  gepElemTy : T
  ctx : C

/-- The called operand of a call. -/
inductive CalledOperand (n : ℕ) (F T : Type)
  | direct (callee : F)
  | virtual (vtablePtr : Fin n) (vtableIndex : ℕ)
  | structField (base fp : Fin n) (indices : List ℕ) (gepElemTy : T)
  | indirect (fp : Fin n)

/-- What the translation of instructions does, in this order. -/
inductive Instr (n : ℕ) (F S T : Type)
  | insert (c : Constraint n)
  | qualifyingFieldWrite (rec : QualifyingFieldWriteRecord n F T)
  | poisonFieldWrite (ptrId : Fin n)
  | copyForwardFieldWrite (rec : CopyForwardFieldWriteRecord n)
  | call (cs : S) (operand : CalledOperand n F T)

/-- A constant initializer of a global: the type of the global, the element type if it is an array,
and `walkConstInitPath`. -/
structure ConstInit (F T : Type) where
  valueTy : T
  arrayElemTy : Option T
  walk : List ℕ → Option F

/-- The program, as far as the loop reads it. -/
structure Program (n : ℕ) (F S C V T : Type) where
  root : C
  entries : List F
  entryArgs : List (Constraint n)
  globals : List (Constraint n)
  body : F → C → List (Instr n F S T)
  isDeclaration : F → Bool
  /-- For a parameter, the parameters that it is stored to; `none` is the returned value. -/
  libFacts : F → Option (List (ℕ × List (Option ℕ)))
  argIsPointer : F → List Bool
  /-- Whether callbacks of declarations are followed (`Soundness` above `Unsound`). -/
  sound : Bool
  returnsVoid : F → Bool
  isAllocWrapper : F → Bool
  returnSlot : F → C → Fin n
  callObject : S → C → Fin n
  /-- The formal parameters; `none` if no pointer can be passed. -/
  params : F → C → List (Option (Fin n))
  args : S → C → List (List (Fin n))
  csRetVal : S → C → Option (Fin n)
  calleeContext : F → C → S → C
  isConsistentCall : S → F → Bool
  /-- The names of a node, with the value behind them. -/
  vars : Fin n → List (Option V × C)
  asFunction : V → Option F
  /-- The functions of a virtual table. -/
  vfs : V → Option (List (Option F))
  aliaseeObject : V → V
  constInit : V → Option (ConstInit F T)
  typeAllocSize : T → ℕ

/-- The writes of function pointers to fields of objects that are known. -/
structure FieldTables (F C V T : Type) where
  fnPtrFieldWrites : ObjectKey V C × List ℕ → Option (FieldWriteInfo F T) := fun _ => none
  fieldsByObject : ObjectKey V C → List (List ℕ) := fun _ => []
  impureObjects : ObjectKey V C → Bool := fun _ => false

/-- The state of `run`, with the top of the function work list first. -/
structure State (n : ℕ) (F S C V T : Type) where
  data : SolverData n
  functionWorklist : List (F × C) := []
  queued : Finset (F × C) := ∅
  connectedCallees : Finset ((S × C) × F × C) := ∅
  unresolvedFPCalls : List (FPCallRecord n S C) := []
  unresolvedVCalls : List (VCallRecord n S C) := []
  unresolvedStructVCalls : List (StructVCallRecord n S C T) := []
  unresolvedCallbacks : List (List (List (Fin n))) := []
  tables : FieldTables F C V T := {}
  unresolvedPoisonFieldWrites : List (Fin n) := []
  unresolvedQualFieldWrites : List (QualifyingFieldWriteRecord n F T) := []
  unresolvedCopyFieldWrites : List (CopyForwardFieldWriteRecord n) := []

variable {n : ℕ} {F S C V T : Type} [DecidableEq F] [DecidableEq S] [DecidableEq C] [DecidableEq V]
  [DecidableEq T]

/-! ### Writes of function pointers -/

namespace FieldTables

def poisonObject (obj : ObjectKey V C) (t : FieldTables F C V T) : FieldTables F C V T × Bool :=
  if t.impureObjects obj then (t, false)
  else ({ t with impureObjects := Function.update t.impureObjects obj true }, true)

/-- Add the callees that are not there yet; whether there is one. -/
def addCallees (callees new : List F) : List F × Bool :=
  new.foldl (fun r callee => if r.1.contains callee then r else (r.1 ++ [callee], true))
    (callees, false)

def mergeFieldWriteInfo (obj : ObjectKey V C) (indices : List ℕ) (src : FieldWriteInfo F T)
    (t : FieldTables F C V T) : FieldTables F C V T × Bool :=
  if t.impureObjects obj then (t, false)
  else
    match t.fnPtrFieldWrites (obj, indices) with
    | none =>
      ({ t with
          fnPtrFieldWrites := Function.update t.fnPtrFieldWrites (obj, indices)
            (some ⟨(addCallees [] src.callees).1, src.elemTy⟩)
          fieldsByObject := Function.update t.fieldsByObject obj
            (t.fieldsByObject obj ++ [indices]) }, true)
    | some info =>
      if info.elemTy ≠ src.elemTy then poisonObject obj t
      else
        let res := addCallees info.callees src.callees
        ({ t with
            fnPtrFieldWrites := Function.update t.fnPtrFieldWrites (obj, indices)
              (some ⟨res.1, info.elemTy⟩) }, res.2)

end FieldTables

namespace Program

variable (P : Program n F S C V T)

/-- The objects behind the pointees of a node, with those that have no value. -/
def pointeeVars (d : SolverData n) (v : Fin n) : List (Option V × C) :=
  (elems (d.nodes (d.rep v)).ptsSet).flatMap P.vars

/-- The objects behind the pointees of a node. -/
def objects (d : SolverData n) (v : Fin n) : List (ObjectKey V C) :=
  (P.pointeeVars d v).filterMap fun x => x.1.map fun val => ⟨val, x.2⟩

/-- `resolveFieldWrite` for the write of a function to a field. -/
def resolveQualFieldWrite (d : SolverData n) (rec : QualifyingFieldWriteRecord n F T)
    (t : FieldTables F C V T) : FieldTables F C V T × Bool :=
  foldAny (fun obj t => t.mergeFieldWriteInfo obj rec.indices ⟨[rec.callee], rec.gepElemTy⟩)
    (P.objects d rec.ptrId) t

/-- `resolveFieldWrite` for another write. -/
def resolvePoisonFieldWrite (d : SolverData n) (ptrId : Fin n) (t : FieldTables F C V T) :
    FieldTables F C V T × Bool :=
  foldAny FieldTables.poisonObject (P.objects d ptrId) t

/-- The fields of a source object that are copied to `dst`, and whether `dst` is poisoned. -/
def copySource (dst : ObjectKey V C) (copyLength : ℕ) (t : FieldTables F C V T)
    (r : Bool × List (List ℕ × FieldWriteInfo F T)) (src : ObjectKey V C) :
    Bool × List (List ℕ × FieldWriteInfo F T) :=
  if t.impureObjects src then (true, r.2)
  -- also where the fields of `dst` come from an earlier copy
  else if src ≠ dst ∧ t.fieldsByObject dst ≠ [] then (true, r.2)
  else
    (t.fieldsByObject src).foldl (fun r indices =>
      match t.fnPtrFieldWrites (src, indices) with
      | none => r
      | some info =>
        if copyLength < P.typeAllocSize info.elemTy then (true, r.2)
        else (r.1, r.2 ++ [(indices, info)])) r

def copyForwardTo (copyLength : Option ℕ) (srcs : List (ObjectKey V C)) (dst : ObjectKey V C)
    (t : FieldTables F C V T) : FieldTables F C V T × Bool :=
  if t.impureObjects dst then (t, false)
  else
    match copyLength with
    | none => t.poisonObject dst
    | some len =>
      let r := srcs.foldl (P.copySource dst len t) (false, [])
      if r.1 then t.poisonObject dst
      else foldAny (fun x t => t.mergeFieldWriteInfo dst x.1 x.2) r.2 t

def resolveCopyForward (d : SolverData n) (rec : CopyForwardFieldWriteRecord n)
    (t : FieldTables F C V T) : FieldTables F C V T × Bool :=
  foldAny (P.copyForwardTo rec.copyLength (P.objects d rec.ptrId)) (P.objects d rec.dstPtrId) t

/-- `checkUnresolvedFieldWrites`. -/
def checkUnresolvedFieldWrites (s : State n F S C V T) : State n F S C V T × Bool :=
  let copy := foldAny (P.resolveCopyForward s.data) s.unresolvedCopyFieldWrites s.tables
  let qual := foldAny (P.resolveQualFieldWrite s.data) s.unresolvedQualFieldWrites copy.1
  let poison := foldAny (P.resolvePoisonFieldWrite s.data) s.unresolvedPoisonFieldWrites qual.1
  ({ s with tables := poison.1 }, copy.2 || qual.2 || poison.2)

end Program

/-! ### Calls -/

namespace State

/-- Insert constraints, one after the other. -/
def insertAll (cs : List (Constraint n)) (s : State n F S C V T) : State n F S C V T :=
  { s with data := cs.foldl (fun d c => c.insert d) s.data }

/-- Queue a function, unless it was queued before. -/
def queue (fc : F × C) (s : State n F S C V T) : State n F S C V T × Bool :=
  if fc ∈ s.queued then (s, false)
  else ({ s with queued := insert fc s.queued, functionWorklist := fc :: s.functionWorklist }, true)

/-- `propagate`, with a bound on the rounds. -/
def propagate (fuel : ℕ) (s : State n F S C V T) : Option (State n F S C V T) :=
  (s.data.propagate fuel).map fun d => { s with data := d }

end State

namespace Program

variable (P : Program n F S C V T)

/-- The defined functions that the arguments point to. -/
def fnPtrArgs (d : SolverData n) (args : List (List (Fin n))) : List F :=
  args.flatten.flatMap fun arg =>
    (P.objects d arg).filterMap fun obj => (P.asFunction obj.val).filter (!P.isDeclaration ·)

def addFnPtrArgsAsEntries (args : List (List (Fin n))) (s : State n F S C V T) :
    State n F S C V T × Bool :=
  foldAny (fun fn s => s.queue (fn, P.root)) (P.fnPtrArgs s.data args) s

def checkUnresolvedCallbacks (s : State n F S C V T) : State n F S C V T × Bool :=
  foldAny P.addFnPtrArgsAsEntries s.unresolvedCallbacks s

/-- What `applyLibrarySummary` inserts. -/
def applyLibrarySummary (libSum : List (ℕ × List (Option ℕ))) (fn : F)
    (args : List (List (Fin n))) (csRetVal : Option (Fin n)) : List (Constraint n) :=
  libSum.flatMap fun (paramIdx, dests) =>
    match (P.argIsPointer fn)[paramIdx]?, args[paramIdx]? with
    | some true, some srcs =>
      dests.flatMap fun
        | some destIdx =>
          (args[destIdx]?.getD []).flatMap fun dst => srcs.map fun src => .addStore dst src
        | none =>
          match csRetVal with
          | none => []
          | some ret => srcs.map fun src => .addAssignEdge src ret
    | _, _ => []

/-- What a connection to a defined function inserts, for the returned value and the arguments. -/
def connectDefined (cs : S) (callee : F) (callerCtx calleeCtx : C) : List (Constraint n) :=
  let ret :=
    match P.csRetVal cs callerCtx with
    | none => []
    | some ret =>
      if P.returnsVoid callee then []
      else if P.isAllocWrapper callee then [.addPointee ret (P.callObject cs callerCtx)]
      else [.addAssignEdge (P.returnSlot callee calleeCtx) ret]
  ret ++ ((P.params callee calleeCtx).zip (P.args cs callerCtx)).flatMap fun (param, argIds) =>
    match param with
    | none => []
    | some paramId => argIds.map fun argId => .addAssignEdge argId paramId

/-- `connectCallee`, and whether it propagated a new connection. -/
def connectCallee (fuel : ℕ) (cs : S) (callerCtx : C) (callee : F) (s : State n F S C V T) :
    Option (State n F S C V T × Bool) :=
  let calleeCtx := P.calleeContext callee callerCtx cs
  if ((cs, callerCtx), callee, calleeCtx) ∈ s.connectedCallees then some (s, false)
  else
    let args := P.args cs callerCtx
    let s' := { s with
      connectedCallees := insert ((cs, callerCtx), callee, calleeCtx) s.connectedCallees }
    if P.isDeclaration callee then
      match P.libFacts callee with
      | some libSum =>
        some (s'.insertAll (P.applyLibrarySummary libSum callee args (P.csRetVal cs callerCtx)), false)
      | none =>
        if P.sound ∧ args.any (!·.isEmpty) then
          some ({ (P.addFnPtrArgsAsEntries args s').1 with
            unresolvedCallbacks := s.unresolvedCallbacks ++ [args] }, false)
        else some (s', false)
    else
      (((s'.queue (callee, calleeCtx)).1.insertAll
        (P.connectDefined cs callee callerCtx calleeCtx)).propagate fuel).map fun s => (s, true)

/-- Connect a call to callees. -/
def connectCallees (fuel : ℕ) (cs : S) (callerCtx : C) (callees : List F)
    (s : State n F S C V T) : Option (State n F S C V T × Bool) :=
  runAny (P.connectCallee fuel cs callerCtx) callees s

/-- The functions that a pointer points to. -/
def fpCallees (d : SolverData n) (cs : S) (fpId : Fin n) : List F :=
  (P.objects d fpId).filterMap fun obj => (P.asFunction obj.val).filter (P.isConsistentCall cs ·)

def resolveFPCall (fuel : ℕ) (rec : FPCallRecord n S C) (s : State n F S C V T) :
    Option (State n F S C V T × Bool) :=
  P.connectCallees fuel rec.cs rec.ctx (P.fpCallees s.data rec.cs rec.fpId) s

/-- The entries of the virtual tables that a pointer points to. -/
def vtableCallees (d : SolverData n) (rec : VCallRecord n S C) : List F :=
  (P.objects d rec.vtablePtrId).filterMap fun obj =>
    ((P.vfs obj.val).bind fun vfs => vfs[rec.vtableIndex]?.join).filter
      (P.isConsistentCall rec.cs ·)

def resolveVtableCall (fuel : ℕ) (rec : VCallRecord n S C) (s : State n F S C V T) :
    Option (State n F S C V T × Bool) :=
  P.connectCallees fuel rec.cs rec.ctx (P.vtableCallees s.data rec) s

/-- The callees of a call through a field of an object, or `none` if only the function pointer
tells. -/
def structCallees (t : FieldTables F C V T) (rec : StructVCallRecord n S C T)
    (x : Option V × C) : Option (List F) :=
  match x.1 with
  | none => none
  | some val =>
    match P.constInit (P.aliaseeObject val) with
    | none =>
      let obj : ObjectKey V C := ⟨P.aliaseeObject val, x.2⟩
      if t.impureObjects obj then none
      else
        match t.fnPtrFieldWrites (obj, rec.indices) with
        | none => none
        | some info =>
          if info.elemTy = rec.gepElemTy then
            some (info.callees.filter (P.isConsistentCall rec.cs ·))
          else none
    | some init =>
      if init.valueTy ≠ rec.gepElemTy ∧ init.arrayElemTy ≠ some rec.gepElemTy then none
      else some ((init.walk rec.indices).filter (P.isConsistentCall rec.cs ·)).toList

def resolveStructVCall (fuel : ℕ) (rec : StructVCallRecord n S C T) (s : State n F S C V T) :
    Option (State n F S C V T × Bool) :=
  let targets := (P.pointeeVars s.data rec.baseId).map (P.structCallees s.tables rec)
  (P.connectCallees fuel rec.cs rec.ctx (targets.flatMap fun t => t.getD []) s).bind fun res =>
    if targets.contains none then
      (P.resolveFPCall fuel ⟨rec.cs, rec.fpId, rec.ctx⟩ res.1).map fun res' =>
        (res'.1, res.2 || res'.2)
    else some res

/-! ### Translation -/

def handleCall (fuel : ℕ) (cs : S) (operand : CalledOperand n F T) (ctx : C)
    (s : State n F S C V T) : Option (State n F S C V T) :=
  match operand with
  | .direct callee => (P.connectCallee fuel cs ctx callee s).map Prod.fst
  | .virtual vtablePtr vtableIndex =>
    let rec' : VCallRecord n S C := ⟨cs, vtablePtr, vtableIndex, ctx⟩
    (P.resolveVtableCall fuel rec' s).map fun res =>
      { res.1 with unresolvedVCalls := res.1.unresolvedVCalls ++ [rec'] }
  | .structField base fp indices gepElemTy =>
    let rec' : StructVCallRecord n S C T := ⟨cs, base, fp, indices, gepElemTy, ctx⟩
    (P.resolveStructVCall fuel rec' s).map fun res =>
      { res.1 with unresolvedStructVCalls := res.1.unresolvedStructVCalls ++ [rec'] }
  | .indirect fp =>
    let rec' : FPCallRecord n S C := ⟨cs, fp, ctx⟩
    (P.resolveFPCall fuel rec' s).map fun res =>
      { res.1 with unresolvedFPCalls := res.1.unresolvedFPCalls ++ [rec'] }

def processInstruction (fuel : ℕ) (ctx : C) (s : State n F S C V T) (instr : Instr n F S T) :
    Option (State n F S C V T) :=
  match instr with
  | .insert c => some (s.insertAll [c])
  | .qualifyingFieldWrite rec =>
    some { s with
      tables := (P.resolveQualFieldWrite s.data rec s.tables).1
      unresolvedQualFieldWrites := s.unresolvedQualFieldWrites ++ [rec] }
  | .poisonFieldWrite ptrId =>
    some { s with
      tables := (P.resolvePoisonFieldWrite s.data ptrId s.tables).1
      unresolvedPoisonFieldWrites := s.unresolvedPoisonFieldWrites ++ [ptrId] }
  | .copyForwardFieldWrite rec =>
    some { s with
      tables := (P.resolveCopyForward s.data rec s.tables).1
      unresolvedCopyFieldWrites := s.unresolvedCopyFieldWrites ++ [rec] }
  | .call cs operand => P.handleCall fuel cs operand ctx s

def processFunction (fuel : ℕ) (fc : F × C) (s : State n F S C V T) : Option (State n F S C V T) :=
  (P.body fc.1 fc.2).foldlM (P.processInstruction fuel fc.2) s

/-! ### The main loop -/

/-- The loop over the function work list. -/
def processFunctions (fuel : ℕ) : ℕ → State n F S C V T → Option (State n F S C V T)
  | 0, _ => none
  | k + 1, s =>
    match s.functionWorklist with
    | [] => some s
    | fc :: rest =>
      ((P.processFunction fuel fc { s with functionWorklist := rest }).bind
        (State.propagate fuel)).bind (processFunctions fuel k)

/-- The checks after the work list, and whether one of them changed something. -/
def checkUnresolved (fuel : ℕ) (s : State n F S C V T) : Option (State n F S C V T × Bool) := do
  let s₁ := P.checkUnresolvedFieldWrites s
  let s₂ ← runAny (P.resolveFPCall fuel) s₁.1.unresolvedFPCalls s₁.1
  let s₃ ← runAny (P.resolveVtableCall fuel) s₂.1.unresolvedVCalls s₂.1
  let s₄ ← runAny (P.resolveStructVCall fuel) s₃.1.unresolvedStructVCalls s₃.1
  let s₅ := P.checkUnresolvedCallbacks s₄.1
  some (s₅.1, s₁.2 || s₂.2 || s₃.2 || s₄.2 || s₅.2)

/-- The do-while loop. -/
def loop (fuel : ℕ) : ℕ → State n F S C V T → Option (State n F S C V T)
  | 0, _ => none
  | k + 1, s => do
    let s₁ ← P.processFunctions fuel fuel s
    let res ← P.checkUnresolved fuel s₁
    if res.1.functionWorklist ≠ [] ∨ res.2 then loop fuel k res.1 else some res.1

/-- The constructor and `initGlobals`. -/
def initGlobals (fuel : ℕ) : Option (State n F S C V T) :=
  let s : State n F S C V T := { data := SolverData.init n }
  let entries := P.entries.foldl (fun s fn => (State.queue (fn, P.root) s).1) s
  ((entries.insertAll P.entryArgs).insertAll P.globals).propagate fuel

/-- `run`, up to the construction of the result, with a bound on the steps of every loop. -/
def run (fuel : ℕ) : Option (State n F S C V T) :=
  (P.initGlobals fuel).bind (P.loop fuel fuel)

end Program

end Phasar.Andersen
