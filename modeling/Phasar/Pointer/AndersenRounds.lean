import Phasar.Pointer.AndersenCopyForward

/-!
# The states of the outer loop

The states that the solver goes through, one translated instruction or one check of a record at a time,
and a memcpy whose fields are copied again in one of them.

* `Reachable`, `run_reachable`: every run stays among these states;
* `Reachable.wellFormed`: their tables of known writes are consistent;
* `resolveCopyForward_twice_iff`, `checkUnresolvedFieldWrites_poisons`.
-/

namespace Phasar.Andersen

open ChangePass FieldTables

variable {n : ℕ} {F S C V T : Type} [DecidableEq F] [DecidableEq S] [DecidableEq C] [DecidableEq V]
  [DecidableEq T]

namespace Program

/-- The states of `run`. -/
inductive Reachable (P : Program n F S C V T) : State n F S C V T → Prop
  | init {fuel : ℕ} {s : State n F S C V T} : P.initGlobals fuel = some s → Reachable P s
  | pop {s : State n F S C V T} {fc : F × C} {rest : List (F × C)} : Reachable P s →
      s.functionWorklist = fc :: rest → Reachable P { s with functionWorklist := rest }
  | instruction {fuel : ℕ} {ctx : C} {instr : Instr n F S T} {s s' : State n F S C V T} :
      Reachable P s → P.processInstruction fuel ctx s instr = some s' → Reachable P s'
  | propagate {fuel : ℕ} {s s' : State n F S C V T} : Reachable P s →
      s.propagate fuel = some s' → Reachable P s'
  | copyFieldWrite {s : State n F S C V T} (rec : CopyForwardFieldWriteRecord n) : Reachable P s →
      Reachable P { s with tables := (P.resolveCopyForward s.data rec s.tables).1 }
  | qualFieldWrite {s : State n F S C V T} (rec : QualifyingFieldWriteRecord n F T) :
      Reachable P s →
      Reachable P { s with tables := (P.resolveQualFieldWrite s.data rec s.tables).1 }
  | poisonFieldWrite {s : State n F S C V T} (ptrId : Fin n) : Reachable P s →
      Reachable P { s with tables := (P.resolvePoisonFieldWrite s.data ptrId s.tables).1 }
  | fpCall {fuel : ℕ} {rec : FPCallRecord n S C} {s : State n F S C V T}
      {res : State n F S C V T × Bool} : Reachable P s → P.resolveFPCall fuel rec s = some res →
      Reachable P res.1
  | vtableCall {fuel : ℕ} {rec : VCallRecord n S C} {s : State n F S C V T}
      {res : State n F S C V T × Bool} : Reachable P s →
      P.resolveVtableCall fuel rec s = some res → Reachable P res.1
  | structVCall {fuel : ℕ} {rec : StructVCallRecord n S C T} {s : State n F S C V T}
      {res : State n F S C V T × Bool} : Reachable P s →
      P.resolveStructVCall fuel rec s = some res → Reachable P res.1
  | callback {s : State n F S C V T} (args : List (List (Fin n))) : Reachable P s →
      Reachable P (P.addFnPtrArgsAsEntries args s).1

variable {P : Program n F S C V T} {s s' : State n F S C V T}

/-! ### Every run stays among the states -/

theorem Reachable.processFunction {fuel : ℕ} {fc : F × C} (hs : P.Reachable s)
    (h : P.processFunction fuel fc s = some s') : P.Reachable s' := by
  rw [Program.processFunction] at h
  generalize P.body fc.1 fc.2 = instrs at h
  induction instrs generalizing s with
  | nil =>
    cases h
    exact hs
  | cons instr instrs ih =>
    rw [List.foldlM_cons] at h
    obtain ⟨s₁, hs₁, h⟩ := Option.bind_eq_some_iff.1 h
    exact ih (hs.instruction hs₁) h

theorem Reachable.processFunctions {fuel k : ℕ} (hs : P.Reachable s)
    (h : P.processFunctions fuel k s = some s') : P.Reachable s' := by
  induction k generalizing s with
  | zero => cases h
  | succ k ih =>
    rw [Program.processFunctions] at h
    split at h
    · cases h
      exact hs
    · next fc rest hlist =>
      obtain ⟨s₁, hs₁, h⟩ := Option.bind_eq_some_iff.1 h
      obtain ⟨s₂, hs₂, hs₁⟩ := Option.bind_eq_some_iff.1 hs₁
      exact ih (((hs.pop hlist).processFunction hs₂).propagate hs₁) h

theorem Reachable.runAny {ρ : Type} {step : ρ → State n F S C V T → Option (State n F S C V T × Bool)}
    (hstep : ∀ r s res, P.Reachable s → step r s = some res → P.Reachable res.1) {rs : List ρ}
    {res : State n F S C V T × Bool} (hs : P.Reachable s) (h : runAny step rs s = some res) :
    P.Reachable res.1 := by
  have hok : AllSteps (fun _ _ => True) step rs s := .of_forall fun _ _ => trivial
  exact (runAny_rule (T := fun _ _ => True) (fun _ => trivial) (fun _ _ _ _ _ => trivial)
    (fun r s s' b _ hs h => ⟨hstep r s (s', b) hs h, trivial⟩) hok hs h).1

/-- A pass over recorded writes. -/
theorem Reachable.fieldWrites {ρ : Type}
    {step : SolverData n → ρ → FieldTables F C V T → FieldTables F C V T × Bool}
    (hstep : ∀ (r : ρ) (s : State n F S C V T), P.Reachable s →
      P.Reachable { s with tables := (step s.data r s.tables).1 }) (rs : List ρ)
    (hs : P.Reachable s) :
    P.Reachable { s with tables := (foldAny (step s.data) rs s.tables).1 } := by
  induction rs generalizing s with
  | nil => exact hs
  | cons r rs ih => exact ih (hstep r s hs)

theorem Reachable.checkUnresolvedFieldWrites (hs : P.Reachable s) :
    P.Reachable (P.checkUnresolvedFieldWrites s).1 := by
  have hcopy := hs.fieldWrites (fun r _ hs => hs.copyFieldWrite r) s.unresolvedCopyFieldWrites
  have hqual := hcopy.fieldWrites (fun r _ hs => hs.qualFieldWrite r) s.unresolvedQualFieldWrites
  exact hqual.fieldWrites (fun r _ hs => hs.poisonFieldWrite r) s.unresolvedPoisonFieldWrites

theorem Reachable.checkUnresolvedCallbacks (hs : P.Reachable s) :
    P.Reachable (P.checkUnresolvedCallbacks s).1 := by
  rw [Program.checkUnresolvedCallbacks]
  generalize s.unresolvedCallbacks = rs
  induction rs generalizing s with
  | nil => exact hs
  | cons r rs ih => exact ih (hs.callback r)

theorem Reachable.checkUnresolved {fuel : ℕ} {res : State n F S C V T × Bool} (hs : P.Reachable s)
    (h : P.checkUnresolved fuel s = some res) : P.Reachable res.1 := by
  rw [Program.checkUnresolved] at h
  obtain ⟨s₂, hs₂, h⟩ := Option.bind_eq_some_iff.1 h
  obtain ⟨s₃, hs₃, h⟩ := Option.bind_eq_some_iff.1 h
  obtain ⟨s₄, hs₄, h⟩ := Option.bind_eq_some_iff.1 h
  cases h
  have hfp := hs.checkUnresolvedFieldWrites.runAny (fun _ _ _ hs h => hs.fpCall h) hs₂
  have hvtable := hfp.runAny (fun _ _ _ hs h => hs.vtableCall h) hs₃
  exact (hvtable.runAny (fun _ _ _ hs h => hs.structVCall h) hs₄).checkUnresolvedCallbacks

theorem Reachable.loop {fuel k : ℕ} (hs : P.Reachable s) (h : P.loop fuel k s = some s') :
    P.Reachable s' := by
  induction k generalizing s with
  | zero => cases h
  | succ k ih =>
    rw [Program.loop] at h
    obtain ⟨s₁, hs₁, h⟩ := Option.bind_eq_some_iff.1 h
    obtain ⟨res, hres, h⟩ := Option.bind_eq_some_iff.1 h
    have hreach := (hs.processFunctions hs₁).checkUnresolved hres
    split_ifs at h
    · exact ih hreach h
    · cases h
      exact hreach

/-! ### The tables of the states -/

omit [DecidableEq F] [DecidableEq S] [DecidableEq C] [DecidableEq V] [DecidableEq T] in
theorem propagate_tables {fuel : ℕ} (h : s.propagate fuel = some s') : s'.tables = s.tables := by
  obtain ⟨d, -, rfl⟩ := Option.map_eq_some_iff.1 h
  rfl

omit [DecidableEq S] [DecidableEq V] [DecidableEq T] in
theorem queue_tables (fc : F × C) (s : State n F S C V T) : (s.queue fc).1.tables = s.tables := by
  rw [State.queue]
  split_ifs <;> rfl

omit [DecidableEq S] [DecidableEq V] [DecidableEq T] in
theorem addFnPtrArgsAsEntries_tables (args : List (List (Fin n))) (s : State n F S C V T) :
    (P.addFnPtrArgsAsEntries args s).1.tables = s.tables := by
  rw [addFnPtrArgsAsEntries]
  exact foldAny_rule (T := fun s s' : State n F S C V T => s'.tables = s.tables) (fun _ => rfl)
    (fun _ _ _ h h' => h'.trans h) (fun fn s => queue_tables (fn, P.root) s) _ s

omit [DecidableEq V] [DecidableEq T] in
/-- Connecting a call leaves the known writes alone. -/
theorem connectCallee_tables {fuel : ℕ} {cs : S} {ctx : C} {callee : F}
    {res : State n F S C V T × Bool} (h : P.connectCallee fuel cs ctx callee s = some res) :
    res.1.tables = s.tables := by
  rw [connectCallee] at h
  split_ifs at h with hconnected hdecl
  · cases h
    rfl
  · split at h
    · cases h
      rfl
    · dsimp only at h
      split_ifs at h
      · cases h
        exact addFnPtrArgsAsEntries_tables _ _
      · cases h
        rfl
  · obtain ⟨s₁, hs₁, rfl⟩ := Option.map_eq_some_iff.1 h
    rw [propagate_tables hs₁]
    exact queue_tables _ _

omit [DecidableEq V] [DecidableEq T] in
theorem connectCallees_tables {fuel : ℕ} {cs : S} {ctx : C} {callees : List F}
    {res : State n F S C V T × Bool} (h : P.connectCallees fuel cs ctx callees s = some res) :
    res.1.tables = s.tables := by
  have hok : AllSteps (fun _ _ => True) (P.connectCallee fuel cs ctx) callees s :=
    .of_forall fun _ _ => trivial
  exact (runAny_rule (I := fun _ => True) (T := fun s s' : State n F S C V T => s'.tables = s.tables)
    (fun _ => rfl) (fun _ _ _ h h' => h'.trans h)
    (fun _ _ _ _ _ _ h => ⟨trivial, connectCallee_tables h⟩) hok trivial h).2

omit [DecidableEq V] in
theorem resolveStructVCall_tables {fuel : ℕ} {rec : StructVCallRecord n S C T}
    {res : State n F S C V T × Bool} (h : P.resolveStructVCall fuel rec s = some res) :
    res.1.tables = s.tables := by
  obtain ⟨res₁, hres₁, h⟩ := Option.bind_eq_some_iff.1 h
  have htables := connectCallees_tables hres₁
  split_ifs at h
  · obtain ⟨res₂, hres₂, rfl⟩ := Option.map_eq_some_iff.1 h
    exact (connectCallees_tables hres₂).trans htables
  · cases h
    exact htables

omit [DecidableEq V] in
theorem handleCall_tables {fuel : ℕ} {cs : S} {operand : CalledOperand n F T} {ctx : C}
    (h : P.handleCall fuel cs operand ctx s = some s') : s'.tables = s.tables := by
  cases operand with
  | direct callee =>
    obtain ⟨res, hres, rfl⟩ := Option.map_eq_some_iff.1 h
    exact connectCallee_tables hres
  | virtual vtablePtr vtableIndex =>
    obtain ⟨res, hres, rfl⟩ := Option.map_eq_some_iff.1 h
    exact connectCallees_tables hres
  | structField base fp indices gepElemTy =>
    obtain ⟨res, hres, rfl⟩ := Option.map_eq_some_iff.1 h
    exact resolveStructVCall_tables hres
  | indirect fp =>
    obtain ⟨res, hres, rfl⟩ := Option.map_eq_some_iff.1 h
    exact connectCallees_tables hres

omit [DecidableEq S] in
theorem resolveCopyForward_wellFormed {d : SolverData n} {rec : CopyForwardFieldWriteRecord n}
    {t : FieldTables F C V T} (h : t.WellFormed) : (P.resolveCopyForward d rec t).1.WellFormed :=
  (copyAll_frame _ _ _ h).1

omit [DecidableEq S] in
theorem resolveQualFieldWrite_grows (d : SolverData n) (rec : QualifyingFieldWriteRecord n F T)
    (t : FieldTables F C V T) : Grows t (P.resolveQualFieldWrite d rec t).1 :=
  foldAny_rule Grows.refl (fun _ _ _ => Grows.trans)
    (fun obj t => (mergeFieldWriteInfo_merges obj _ _ t).grows) _ t

omit [DecidableEq F] [DecidableEq S] [DecidableEq T] in
theorem resolvePoisonFieldWrite_grows (d : SolverData n) (ptrId : Fin n)
    (t : FieldTables F C V T) : Grows t (P.resolvePoisonFieldWrite d ptrId t).1 :=
  foldAny_rule Grows.refl (fun _ _ _ => Grows.trans) poisonObject_grows _ t

theorem processInstruction_wellFormed {fuel : ℕ} {ctx : C} {instr : Instr n F S T}
    (hs : s.tables.WellFormed) (h : P.processInstruction fuel ctx s instr = some s') :
    s'.tables.WellFormed := by
  cases instr with
  | insert c =>
    cases h
    exact hs
  | qualifyingFieldWrite rec =>
    cases h
    exact (resolveQualFieldWrite_grows _ _ _).wellFormed hs
  | poisonFieldWrite ptrId =>
    cases h
    exact (resolvePoisonFieldWrite_grows _ _ _).wellFormed hs
  | copyForwardFieldWrite rec =>
    cases h
    exact resolveCopyForward_wellFormed hs
  | call cs operand =>
    rw [handleCall_tables h]
    exact hs

omit [DecidableEq S] [DecidableEq V] [DecidableEq T] in
theorem initGlobals_tables {fuel : ℕ} (h : P.initGlobals fuel = some s) : s.tables = {} := by
  rw [propagate_tables h]
  change (P.entries.foldl (fun s fn => (State.queue (fn, P.root) s).1) _).tables = {}
  generalize hs₀ : ({ data := SolverData.init n } : State n F S C V T) = s₀
  have htables : s₀.tables = {} := by rw [← hs₀]
  clear hs₀ h
  induction P.entries generalizing s₀ with
  | nil => exact htables
  | cons fn entries ih => exact ih _ ((queue_tables _ _).trans htables)

theorem Reachable.wellFormed (hs : P.Reachable s) : s.tables.WellFormed := by
  induction hs with
  | init h =>
    rw [initGlobals_tables h]
    exact wellFormed_empty
  | pop _ _ ih => exact ih
  | instruction _ h ih => exact processInstruction_wellFormed ih h
  | propagate _ h ih =>
    rw [propagate_tables h]
    exact ih
  | copyFieldWrite rec _ ih => exact resolveCopyForward_wellFormed ih
  | qualFieldWrite rec _ ih => exact (resolveQualFieldWrite_grows _ _ _).wellFormed ih
  | poisonFieldWrite ptrId _ ih => exact (resolvePoisonFieldWrite_grows _ _ _).wellFormed ih
  | fpCall _ h ih =>
    rw [connectCallees_tables h]
    exact ih
  | vtableCall _ h ih =>
    rw [connectCallees_tables h]
    exact ih
  | structVCall _ h ih =>
    rw [resolveStructVCall_tables h]
    exact ih
  | callback args _ ih =>
    rw [addFnPtrArgsAsEntries_tables]
    exact ih

/-! ### A memcpy in the next round -/

omit [DecidableEq S] in
/-- What a memcpy from another object has copied does not last: the next round poisons it. -/
theorem checkUnresolvedFieldWrites_poisons (hwf : s.tables.WellFormed)
    {rec : CopyForwardFieldWriteRecord n} (hrec : rec ∈ s.unresolvedCopyFieldWrites)
    {dst : ObjectKey V C} (hdst : dst ∈ P.objects s.data rec.dstPtrId)
    (hc : Clobbers (P.objects s.data rec.ptrId) dst s.tables) :
    (P.checkUnresolvedFieldWrites s).1.tables.impureObjects dst = true := by
  have hstep : ∀ (r : CopyForwardFieldWriteRecord n) (t : FieldTables F C V T), t.WellFormed →
      (P.resolveCopyForward s.data r t).1.WellFormed ∧ Grows t (P.resolveCopyForward s.data r t).1 :=
    fun r t ht => ⟨(copyAll_frame _ _ _ ht).1, (copyAll_frame _ _ _ ht).2.1⟩
  have hcopy := (foldAny_post (fun t => t.WellFormed ∧ Grows s.tables t)
    (fun r t => r = rec → t.impureObjects dst = true)
    (fun r _ t ht => ⟨(hstep r t ht.1).1, ht.2.trans (hstep r t ht.1).2⟩)
    (fun r _ t ht heq => by
      subst heq
      exact copyAll_clobbered _ ht.1 dst hdst ⟨ht.2.fieldsByObject dst hc.1, hc.2⟩)
    (fun r _ t ht r' himpure heq => (hstep r t ht.1).2.impureObjects dst (himpure heq))
    ⟨hwf, .refl _⟩).2 rec hrec rfl
  have hqual := foldAny_rule Grows.refl (fun _ _ _ => Grows.trans)
    (P.resolveQualFieldWrite_grows s.data) s.unresolvedQualFieldWrites
    (foldAny (P.resolveCopyForward s.data) s.unresolvedCopyFieldWrites s.tables).1
  exact (foldAny_rule Grows.refl (fun _ _ _ => Grows.trans)
    (P.resolvePoisonFieldWrite_grows s.data) s.unresolvedPoisonFieldWrites _).impureObjects dst
    (hqual.impureObjects dst hcopy)

/-- In a state of the solver, a second run for the same memcpy changes nothing exactly in the cases of
`CopiesOnce`. -/
theorem resolveCopyForward_twice_iff (hs : P.Reachable s) (rec : CopyForwardFieldWriteRecord n) :
    (P.resolveCopyForward s.data rec (P.resolveCopyForward s.data rec s.tables).1).1 =
        (P.resolveCopyForward s.data rec s.tables).1 ↔
      P.CopiesOnce rec.copyLength (P.objects s.data rec.ptrId) (P.objects s.data rec.dstPtrId)
        s.tables :=
  copyAll_twice_iff hs.wellFormed

end Program

/-! ### A memcpy between two objects -/

/-- Node 0 points to the source 2 and node 1 to the destination 3. A function is written to the first
field of the source, which is then copied. -/
def copyProgram : Program 10 Unit Unit Unit Bool Unit where
  root := ()
  entries := [()]
  entryArgs := []
  globals := [.addPointee 0 2, .addPointee 1 3]
  body _ _ := [.qualifyingFieldWrite ⟨0, [0], (), ()⟩, .copyForwardFieldWrite ⟨0, 1, some 8⟩]
  isDeclaration _ := false
  libFacts _ := none
  argIsPointer _ := []
  sound := true
  returnsVoid _ := true
  isAllocWrapper _ := false
  returnSlot _ _ := 4
  callObject _ _ := 5
  params _ _ := []
  args _ _ := []
  csRetVal _ _ := none
  calleeContext _ _ _ := ()
  isConsistentCall _ _ := true
  vars v := if v = 2 then [(some false, ())] else if v = 3 then [(some true, ())] else []
  asFunction _ := none
  vfs _ := none
  aliaseeObject v := v
  constInit _ := none
  typeAllocSize _ := 8

/-- The state before the function is translated. -/
def copyInit : State 10 Unit Unit Unit Bool Unit :=
  (copyProgram.initGlobals 4).getD { data := SolverData.init 10 }

/-- The state before the memcpy is translated. -/
def copyState : State 10 Unit Unit Unit Bool Unit :=
  (copyProgram.processInstruction 0 () { copyInit with functionWorklist := [] }
    (.qualifyingFieldWrite ⟨0, [0], (), ()⟩)).getD copyInit

theorem copyState_reachable : copyProgram.Reachable copyState := by
  have hinit : copyProgram.initGlobals 4 = some copyInit := rfl
  have hwrite : copyProgram.processInstruction 0 () { copyInit with functionWorklist := [] }
      (.qualifyingFieldWrite ⟨0, [0], (), ()⟩) = some copyState := rfl
  have hlist : copyInit.functionWorklist = [((), ())] := rfl
  exact ((Program.Reachable.init hinit).pop hlist).instruction hwrite

theorem copied_fields_poisoned :
    let rec' : CopyForwardFieldWriteRecord 10 := ⟨0, 1, some 8⟩
    let once := (copyProgram.resolveCopyForward copyState.data rec' copyState.tables).1
    let s := { copyState with tables := once, unresolvedCopyFieldWrites := [rec'] }
    copyProgram.Reachable copyState ∧
      once.fnPtrFieldWrites (⟨true, ()⟩, [0]) = some ⟨[()], ()⟩ ∧
      once.impureObjects ⟨true, ()⟩ = false ∧
      (copyProgram.resolveCopyForward copyState.data rec' once).1 ≠ once ∧
      (copyProgram.checkUnresolvedFieldWrites s).1.tables.impureObjects ⟨true, ()⟩ = true := by
  refine ⟨copyState_reachable, by decide, by decide, fun h => ?_, by decide⟩
  have himpure := congrArg (fun t => t.impureObjects ⟨true, ()⟩) h
  revert himpure
  decide

theorem resolveCopyForward_twice_iff_copyState :
    ¬copyProgram.CopiesOnce (some 8) [⟨false, ()⟩] [⟨true, ()⟩] copyState.tables := by
  intro h
  have heq := (Program.resolveCopyForward_twice_iff copyState_reachable ⟨0, 1, some 8⟩).2 h
  have himpure := congrArg (fun t => t.impureObjects ⟨true, ()⟩) heq
  revert himpure
  decide

end Phasar.Andersen
