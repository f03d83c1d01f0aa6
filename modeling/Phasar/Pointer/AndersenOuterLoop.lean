import Phasar.Pointer.AndersenCallGraph
import Phasar.Pointer.AndersenSolution

/-!
# What the outer loop of the Andersen solver keeps

Whatever the loop does, a connected callee stays linked to its call, and a function that was queued is on
the work list or its body is translated.

* `Linked`, `Done`, `Translated`: what a connection and the translation of a body leave behind;
* `Inv`, `Keeps`, `Grows`: the invariant, and the steps that keep it;
* `connectCallee_cases`, `connectCallee_spec`, `processInstruction_spec`: what the steps do;
* `processFunctions_spec`: all queued functions are translated when the work list is empty.
-/

namespace Phasar.Andersen

open SolverData ChangePass

variable {n : ℕ}

namespace SolverData

variable {s s' : SolverData n}

/-- `propagate` loses nothing. -/
theorem propagate_spec {fuel : ℕ} (h : Scheduled s) (hs' : s.propagate fuel = some s') :
    Scheduled s' ∧ SolverData.Ext s s' := by
  induction fuel generalizing s with
  | zero => cases hs'
  | succ fuel ih =>
    rw [propagate] at hs'
    split at hs'
    · next hlist =>
      cases hs'
      exact ⟨h, .refl _⟩
    · next w rest hlist =>
      have hkept := propagateRound_kept h hlist
      obtain ⟨hsched, hext⟩ := ih (hkept.scheduled h) hs'
      exact ⟨hsched, hkept.ext.trans hext⟩

theorem propagate_empty {fuel : ℕ} (h : s.propagate fuel = some s') : s'.propWorklist = [] := by
  induction fuel generalizing s with
  | zero => cases h
  | succ fuel ih =>
    rw [propagate] at h
    split at h
    · next hlist =>
      cases h
      exact hlist
    · exact ih h

/-- With an empty work list nothing is pending. -/
theorem Scheduled.pendingPts_eq (h : Scheduled s) (hlist : s.propWorklist = []) (v : Fin n) :
    (s.nodes (s.rep v)).pendingPts = ∅ := by
  by_contra hne
  obtain ⟨w, hw, -⟩ :=
    (h.queued _ (s.rep_rep v) (Finset.nonempty_iff_ne_empty.2 hne)).resolve_left id
  rw [hlist] at hw
  cases hw

end SolverData

variable {F S C V T : Type}

/-! ### What a step keeps -/

/-- All that a state has is there later. -/
structure State.Ext (s s' : State n F S C V T) : Prop where
  data : SolverData.Ext s.data s'.data
  queued : s.queued ⊆ s'.queued
  connectedCallees : s.connectedCallees ⊆ s'.connectedCallees
  unresolvedFPCalls : s.unresolvedFPCalls ⊆ s'.unresolvedFPCalls
  unresolvedVCalls : s.unresolvedVCalls ⊆ s'.unresolvedVCalls
  unresolvedStructVCalls : s.unresolvedStructVCalls ⊆ s'.unresolvedStructVCalls
  unresolvedCallbacks : s.unresolvedCallbacks ⊆ s'.unresolvedCallbacks
  unresolvedPoisonFieldWrites : s.unresolvedPoisonFieldWrites ⊆ s'.unresolvedPoisonFieldWrites
  unresolvedQualFieldWrites : s.unresolvedQualFieldWrites ⊆ s'.unresolvedQualFieldWrites
  unresolvedCopyFieldWrites : s.unresolvedCopyFieldWrites ⊆ s'.unresolvedCopyFieldWrites

namespace State.Ext

variable {s s' s'' : State n F S C V T}

theorem refl (s : State n F S C V T) : Ext s s :=
  ⟨.refl _, fun _ => id, fun _ => id, fun _ => id, fun _ => id, fun _ => id, fun _ => id,
    fun _ => id, fun _ => id, fun _ => id⟩

theorem trans (h : Ext s s') (h' : Ext s' s'') : Ext s s'' where
  data := h.data.trans h'.data
  queued := Finset.Subset.trans h.queued h'.queued
  connectedCallees := Finset.Subset.trans h.connectedCallees h'.connectedCallees
  unresolvedFPCalls := List.Subset.trans h.unresolvedFPCalls h'.unresolvedFPCalls
  unresolvedVCalls := List.Subset.trans h.unresolvedVCalls h'.unresolvedVCalls
  unresolvedStructVCalls := List.Subset.trans h.unresolvedStructVCalls h'.unresolvedStructVCalls
  unresolvedCallbacks := List.Subset.trans h.unresolvedCallbacks h'.unresolvedCallbacks
  unresolvedPoisonFieldWrites := List.Subset.trans h.unresolvedPoisonFieldWrites h'.unresolvedPoisonFieldWrites
  unresolvedQualFieldWrites := List.Subset.trans h.unresolvedQualFieldWrites h'.unresolvedQualFieldWrites
  unresolvedCopyFieldWrites := List.Subset.trans h.unresolvedCopyFieldWrites h'.unresolvedCopyFieldWrites

end State.Ext

namespace Program

variable (P : Program n F S C V T)

/-- The key under which the connection of a call to a callee is stored. -/
def connection (cs : S) (callerCtx : C) (callee : F) : (S × C) × F × C :=
  ((cs, callerCtx), callee, P.calleeContext callee callerCtx cs)

/-- The constraints that a connection inserts. -/
def connectionConstraints (k : (S × C) × F × C) : List (Constraint n) :=
  if P.isDeclaration k.2.1 then
    (P.libFacts k.2.1).elim [] fun libSum =>
      P.applyLibrarySummary libSum k.2.1 (P.args k.1.1 k.1.2) (P.csRetVal k.1.1 k.1.2)
  else P.connectDefined k.1.1 k.2.1 k.1.2 k.2.2

/-- What a connection leaves behind: its constraints, the body in the queue, and the arguments of a
library function without a summary. -/
structure Linked (s : State n F S C V T) (k : (S × C) × F × C) : Prop where
  recorded : ∀ c ∈ P.connectionConstraints k, c.Recorded s.data
  queued : P.isDeclaration k.2.1 = false → k.2 ∈ s.queued
  callback : P.isDeclaration k.2.1 = true → P.libFacts k.2.1 = none → P.sound = true →
    (P.args k.1.1 k.1.2).any (!·.isEmpty) = true → P.args k.1.1 k.1.2 ∈ s.unresolvedCallbacks

/-- What the translation of an instruction leaves behind. -/
def Done (s : State n F S C V T) (ctx : C) : Instr n F S T → Prop
  | .insert c => c.Recorded s.data
  | .qualifyingFieldWrite rec => rec ∈ s.unresolvedQualFieldWrites
  | .poisonFieldWrite ptrId => ptrId ∈ s.unresolvedPoisonFieldWrites
  | .copyForwardFieldWrite rec => rec ∈ s.unresolvedCopyFieldWrites
  | .call cs (.direct callee) => P.connection cs ctx callee ∈ s.connectedCallees
  | .call cs (.virtual vtablePtr vtableIndex) =>
    ⟨cs, vtablePtr, vtableIndex, ctx⟩ ∈ s.unresolvedVCalls
  | .call cs (.structField base fp indices gepElemTy) =>
    ⟨cs, base, fp, indices, gepElemTy, ctx⟩ ∈ s.unresolvedStructVCalls
  | .call cs (.indirect fp) => ⟨cs, fp, ctx⟩ ∈ s.unresolvedFPCalls

/-- The body of a function was processed. -/
def Translated (s : State n F S C V T) (fc : F × C) : Prop :=
  ∀ instr ∈ P.body fc.1 fc.2, P.Done s fc.2 instr

variable {P} {s s' s'' : State n F S C V T}

theorem Linked.mono {k : (S × C) × F × C} (h : P.Linked s k) (hext : State.Ext s s') :
    P.Linked s' k where
  recorded c hc := hext.data.recorded (h.recorded c hc)
  queued hdef := hext.queued (h.queued hdef)
  callback hdecl hlib hsound hargs := hext.unresolvedCallbacks (h.callback hdecl hlib hsound hargs)

theorem Done.mono {ctx : C} {instr : Instr n F S T} (h : P.Done s ctx instr)
    (hext : State.Ext s s') : P.Done s' ctx instr := by
  cases instr with
  | insert c => exact hext.data.recorded h
  | qualifyingFieldWrite rec => exact hext.unresolvedQualFieldWrites h
  | poisonFieldWrite ptrId => exact hext.unresolvedPoisonFieldWrites h
  | copyForwardFieldWrite rec => exact hext.unresolvedCopyFieldWrites h
  | call cs operand =>
    cases operand with
    | direct callee => exact hext.connectedCallees h
    | virtual vtablePtr vtableIndex => exact hext.unresolvedVCalls h
    | structField base fp indices gepElemTy => exact hext.unresolvedStructVCalls h
    | indirect fp => exact hext.unresolvedFPCalls h

/-- The invariant of the loop. The functions in `todo` are being processed. -/
structure Inv (P : Program n F S C V T) (todo : F × C → Prop) (s : State n F S C V T) : Prop where
  scheduled : Scheduled s.data
  linked : ∀ k ∈ s.connectedCallees, P.Linked s k
  bodies : ∀ fc ∈ s.queued, todo fc ∨ fc ∈ s.functionWorklist ∨ P.Translated s fc

/-- A step that keeps the invariant and all that was there. -/
def Keeps (P : Program n F S C V T) (s s' : State n F S C V T) : Prop :=
  ∀ todo, Inv P todo s → Inv P todo s' ∧ State.Ext s s'

theorem Keeps.refl (s : State n F S C V T) : Keeps P s s := fun _ h => ⟨h, .refl s⟩

theorem Keeps.trans (h : Keeps P s s') (h' : Keeps P s' s'') : Keeps P s s'' := by
  intro todo hs
  obtain ⟨hs', hext⟩ := h todo hs
  obtain ⟨hs'', hext'⟩ := h' todo hs'
  exact ⟨hs'', hext.trans hext'⟩

/-- A step that loses nothing, and whose new functions are all on the work list. -/
structure Grows (s s' : State n F S C V T) : Prop where
  ext : State.Ext s s'
  scheduled : Scheduled s'.data
  queued : ∀ fc ∈ s'.queued, fc ∈ s.queued ∨ fc ∈ s'.functionWorklist
  functionWorklist : s.functionWorklist ⊆ s'.functionWorklist

theorem Grows.trans (h : Grows s s') (h' : Grows s' s'') : Grows s s'' where
  ext := h.ext.trans h'.ext
  scheduled := h'.scheduled
  queued fc hfc := (h'.queued fc hfc).elim
    (fun hfc => (h.queued fc hfc).imp_right fun hfc => h'.functionWorklist hfc) Or.inr
  functionWorklist := List.Subset.trans h.functionWorklist h'.functionWorklist

/-- A step keeps the invariant if all that it connects is linked. -/
theorem Inv.grow {todo : F × C → Prop} (hs : Inv P todo s) (h : Grows s s')
    (hlinked : ∀ k ∈ s'.connectedCallees, k ∈ s.connectedCallees ∨ P.Linked s' k) :
    Inv P todo s' where
  scheduled := h.scheduled
  linked k hk := (hlinked k hk).elim (fun hk => (hs.linked k hk).mono h.ext) id
  bodies fc hfc := by
    rcases h.queued fc hfc with hfc | hfc
    · refine (hs.bodies fc hfc).imp_right (Or.imp (fun hfc => h.functionWorklist hfc) ?_)
      exact fun htr instr hinstr => (htr instr hinstr).mono h.ext
    · exact Or.inr (Or.inl hfc)

theorem Keeps.of_grows (h : Scheduled s.data → Grows s s')
    (hconn : s'.connectedCallees = s.connectedCallees) : Keeps P s s' := by
  intro todo hs
  have hg := h hs.scheduled
  exact ⟨hs.grow hg fun k hk => Or.inl (hconn ▸ hk), hg.ext⟩

/-! ### Steps of the run -/

/-- A step that changes no more than the lists of records. -/
theorem grows_of_ext (hs : Scheduled s.data) (hext : State.Ext s s') (hdata : s'.data = s.data)
    (hqueued : s'.queued = s.queued) (hlist : s'.functionWorklist = s.functionWorklist) :
    Grows s s' where
  ext := hext
  scheduled := hdata ▸ hs
  queued fc hfc := Or.inl (hqueued ▸ hfc)
  functionWorklist := by
    rw [hlist]
    exact List.Subset.refl _

theorem grows_insertAll (cs : List (Constraint n)) {s : State n F S C V T}
    (hs : Scheduled s.data) :
    Grows s (s.insertAll cs) ∧ ∀ c ∈ cs, c.Recorded (s.insertAll cs).data := by
  induction cs generalizing s with
  | nil => exact ⟨⟨.refl s, hs, fun _ => Or.inl, List.Subset.refl _⟩, by simp⟩
  | cons c cs ih =>
    obtain ⟨hkept, hrec⟩ := c.insert_spec s.data
    obtain ⟨hgrows, hcs⟩ := ih (s := { s with data := c.insert s.data }) (hkept.scheduled hs)
    have hfirst : Grows s { s with data := c.insert s.data } :=
      ⟨{ State.Ext.refl s with data := hkept.ext }, hkept.scheduled hs, fun _ => Or.inl,
        List.Subset.refl _⟩
    refine ⟨hfirst.trans hgrows, fun c' hc' => ?_⟩
    rcases List.mem_cons.1 hc' with rfl | hc'
    · exact hgrows.ext.data.recorded hrec
    · exact hcs c' hc'

theorem propagate_frame {fuel : ℕ} (h : s.propagate fuel = some s') :
    s' = { s with data := s'.data } ∧ s'.data.propWorklist = [] := by
  obtain ⟨d, hd, rfl⟩ := Option.map_eq_some_iff.1 h
  exact ⟨rfl, SolverData.propagate_empty hd⟩

theorem grows_propagate {fuel : ℕ} (hs : Scheduled s.data) (h : s.propagate fuel = some s') :
    Grows s s' := by
  obtain ⟨d, hd, rfl⟩ := Option.map_eq_some_iff.1 h
  obtain ⟨hsched, hext⟩ := SolverData.propagate_spec hs hd
  exact ⟨{ State.Ext.refl s with data := hext }, hsched, fun _ => Or.inl, List.Subset.refl _⟩

theorem keeps_insertAll (cs : List (Constraint n)) (s : State n F S C V T) :
    Keeps P s (s.insertAll cs) := .of_grows (fun hs => (grows_insertAll cs hs).1) rfl

theorem keeps_propagate {fuel : ℕ} (h : s.propagate fuel = some s') : Keeps P s s' := by
  refine .of_grows (fun hs => grows_propagate hs h) ?_
  rw [(propagate_frame h).1]

/-- A step that changes the queue of functions only. -/
def Queues (s s' : State n F S C V T) : Prop :=
  s' = { s with queued := s'.queued, functionWorklist := s'.functionWorklist } ∧
    (Scheduled s.data → Grows s s')

theorem Queues.keeps (h : Queues s s') : Keeps P s s' := by
  refine .of_grows h.2 ?_
  rw [h.1]

theorem keeps_runAny {ρ : Type} {step : ρ → State n F S C V T → Option (State n F S C V T × Bool)}
    (hstep : ∀ r s s' b, step r s = some (s', b) → Keeps P s s') {rs : List ρ} {b : Bool}
    (h : runAny step rs s = some (s', b)) : Keeps P s s' :=
  (runAny_rule (I := fun _ => True) (T := Keeps P) .refl
    (fun _ _ _ => .trans) (fun r s s' b _ _ h => ⟨trivial, hstep r s s' b h⟩)
    (.of_forall fun _ _ => trivial) trivial h).2

/-- The lists of records and the tables decide about no node and no connection. -/
theorem keeps_records (hext : State.Ext s s') (hdata : s'.data = s.data)
    (hconn : s'.connectedCallees = s.connectedCallees) (hqueued : s'.queued = s.queued)
    (hlist : s'.functionWorklist = s.functionWorklist) : Keeps P s s' :=
  .of_grows (fun hs => grows_of_ext hs hext hdata hqueued hlist) hconn

variable [DecidableEq F] [DecidableEq C]

/-- Queue a function: it is on the work list, unless it was queued before. -/
theorem queue_cases (fc : F × C) (s : State n F S C V T) :
    (fc ∈ s.queued ∧ s.queue fc = (s, false)) ∨ s.queue fc = ({ s with
      queued := insert fc s.queued, functionWorklist := fc :: s.functionWorklist }, true) := by
  rw [State.queue]
  split_ifs with hfc
  · exact Or.inl ⟨hfc, rfl⟩
  · exact Or.inr rfl

theorem grows_queue (fc : F × C) {s : State n F S C V T} (hs : Scheduled s.data) :
    Grows s (s.queue fc).1 ∧ fc ∈ (s.queue fc).1.queued := by
  rcases queue_cases fc s with ⟨hfc, heq⟩ | heq
  · rw [heq]
    exact ⟨⟨.refl s, hs, fun _ => Or.inl, List.Subset.refl _⟩, hfc⟩
  · rw [heq]
    refine ⟨⟨{ State.Ext.refl s with queued := Finset.subset_insert fc _ }, hs, fun fc' hfc' => ?_,
      List.subset_cons_self fc _⟩, Finset.mem_insert_self fc _⟩
    rcases Finset.mem_insert.1 hfc' with rfl | hfc'
    · exact Or.inr List.mem_cons_self
    · exact Or.inl hfc'

theorem keeps_queue (fc : F × C) (s : State n F S C V T) : Keeps P s (s.queue fc).1 := by
  refine .of_grows (fun hs => (grows_queue fc hs).1) ?_
  rcases queue_cases fc s with ⟨-, heq⟩ | heq <;> rw [heq]

theorem queues_addFnPtrArgsAsEntries (args : List (List (Fin n))) (s : State n F S C V T) :
    Queues s (P.addFnPtrArgsAsEntries args s).1 := by
  refine foldAny_rule (T := Queues) (fun s => ?_) (fun s₁ s₂ s₃ h h' => ?_) (fun fn s => ?_) _ s
  · exact ⟨rfl, fun hs => ⟨.refl s, hs, fun _ => Or.inl, List.Subset.refl _⟩⟩
  · have hdata : s₂.data = s₁.data := by rw [h.1]
    refine ⟨?_, fun hs => (h.2 hs).trans (h'.2 (hdata ▸ hs))⟩
    rw [h'.1, h.1]
  · refine ⟨?_, fun hs => (grows_queue _ hs).1⟩
    rcases queue_cases (fn, P.root) s with ⟨-, heq⟩ | heq <;> rw [heq]

variable [DecidableEq S]

/-- The state in which a connection is stored, but nothing is inserted yet. -/
def store (k : (S × C) × F × C) (s : State n F S C V T) : State n F S C V T :=
  { s with connectedCallees := insert k s.connectedCallees }

theorem grows_store (k : (S × C) × F × C) {s : State n F S C V T} (hs : Scheduled s.data) :
    Grows s (store k s) :=
  grows_of_ext hs { State.Ext.refl s with connectedCallees := Finset.subset_insert _ _ } rfl rfl rfl

/-- What `connectCallee` can do. -/
theorem connectCallee_cases {fuel : ℕ} {cs : S} {callerCtx : C} {callee : F} {b : Bool}
    (h : P.connectCallee fuel cs callerCtx callee s = some (s', b)) :
    let k := P.connection cs callerCtx callee
    let args := P.args cs callerCtx
    (k ∈ s.connectedCallees ∧ s' = s ∧ b = false) ∨ k ∉ s.connectedCallees ∧
      ((P.isDeclaration callee = true ∧ b = false ∧ (∃ libSum, P.libFacts callee = some libSum) ∧
          s' = (store k s).insertAll (P.connectionConstraints k)) ∨
        (P.isDeclaration callee = true ∧ b = false ∧ P.libFacts callee = none ∧
          if P.sound = true ∧ args.any (!·.isEmpty) = true then
            s' = { (P.addFnPtrArgsAsEntries args (store k s)).1 with
              unresolvedCallbacks := s.unresolvedCallbacks ++ [args] }
          else s' = store k s) ∨
        (P.isDeclaration callee = false ∧ b = true ∧
          ((((store k s).queue k.2).1.insertAll (P.connectionConstraints k)).propagate fuel) =
            some s')) := by
  intro k args
  rw [connectCallee] at h
  by_cases hconn : ((cs, callerCtx), callee, P.calleeContext callee callerCtx cs) ∈ s.connectedCallees
  · rw [if_pos hconn] at h
    cases h
    exact Or.inl ⟨hconn, rfl, rfl⟩
  rw [if_neg hconn] at h
  refine Or.inr ⟨hconn, ?_⟩
  cases hdecl : P.isDeclaration callee with
  | false =>
    have hcs : P.connectionConstraints k = P.connectDefined cs callee callerCtx k.2.2 := by
      simp [connectionConstraints, k, connection, hdecl]
    simp only [hdecl, Bool.false_eq_true, if_false] at h
    obtain ⟨s₁, hs₁, heq⟩ := Option.map_eq_some_iff.1 h
    cases heq
    refine Or.inr (Or.inr ⟨rfl, rfl, ?_⟩)
    rw [hcs]
    exact hs₁
  | true =>
    simp only [hdecl, if_true] at h
    cases hlib : P.libFacts callee with
    | some libSum =>
      have hcs : P.connectionConstraints k =
          P.applyLibrarySummary libSum callee args (P.csRetVal cs callerCtx) := by
        simp [connectionConstraints, k, connection, hdecl, hlib, args]
      simp only [hlib] at h
      cases h
      refine Or.inl ⟨rfl, rfl, ⟨libSum, rfl⟩, ?_⟩
      rw [hcs]
      rfl
    | none =>
      simp only [hlib] at h
      split_ifs at h ⊢ with hcallback
      · cases h
        exact Or.inr (Or.inl ⟨rfl, rfl, rfl, rfl⟩)
      · cases h
        exact Or.inr (Or.inl ⟨rfl, rfl, rfl, rfl⟩)

/-- A new connection keeps the invariant if it is linked. -/
theorem keeps_connect {k : (S × C) × F × C} (hgrows : Scheduled s.data → Grows (store k s) s')
    (hconn : s'.connectedCallees = (store k s).connectedCallees)
    (hlinked : Scheduled s.data → P.Linked s' k) : Keeps P s s' ∧ k ∈ s'.connectedCallees := by
  refine ⟨fun todo hs => ?_, hconn ▸ Finset.mem_insert_self _ _⟩
  have hg := (grows_store k hs.scheduled).trans (hgrows hs.scheduled)
  refine ⟨hs.grow hg fun k' hk' => ?_, hg.ext⟩
  rw [hconn] at hk'
  rcases Finset.mem_insert.1 hk' with rfl | hk'
  · exact Or.inr (hlinked hs.scheduled)
  · exact Or.inl hk'

/-- `connectCallee` connects the callee, and keeps the invariant. -/
theorem connectCallee_spec {fuel : ℕ} {cs : S} {callerCtx : C} {callee : F} {b : Bool}
    (h : P.connectCallee fuel cs callerCtx callee s = some (s', b)) :
    Keeps P s s' ∧ P.connection cs callerCtx callee ∈ s'.connectedCallees := by
  have hcases := connectCallee_cases h
  set k := P.connection cs callerCtx callee
  rcases hcases with ⟨hconn, rfl, -⟩ | ⟨-, hcases⟩
  · exact ⟨.refl s', hconn⟩
  rcases hcases with ⟨hdecl, -, ⟨libSum, hlib⟩, rfl⟩ | ⟨hdecl, -, hlib, hs'⟩ | ⟨hdef, -, hs'⟩
  -- a declaration with a summary: its constraints are inserted
  · have hgrows := fun hs : Scheduled s.data =>
      grows_insertAll (P.connectionConstraints k) (grows_store k hs).scheduled
    refine keeps_connect (fun hs => (hgrows hs).1) rfl fun hs => ⟨(hgrows hs).2, fun hdef => ?_,
      fun _ hnone => ?_⟩
    · exact absurd (hdecl.symm.trans hdef) (by simp)
    · exact absurd (hlib.symm.trans hnone) (by simp)
  -- a declaration without one: its function arguments become entries
  · have hcs : P.connectionConstraints k = [] := by
      simp [connectionConstraints, k, connection, hdecl, hlib]
    have hlinked : ∀ s' : State n F S C V T, (P.sound = true →
        (P.args cs callerCtx).any (!·.isEmpty) = true → P.args cs callerCtx ∈ s'.unresolvedCallbacks) →
        P.Linked s' k := fun s' hargs => by
      refine ⟨fun c hc => ?_, fun hdef => ?_, fun _ _ => hargs⟩
      · rw [hcs] at hc
        cases hc
      · exact absurd (hdecl.symm.trans hdef) (by simp)
    split_ifs at hs' with hcallback
    · obtain ⟨heq, hgrows⟩ := queues_addFnPtrArgsAsEntries (P := P) (P.args cs callerCtx) (store k s)
      subst hs'
      generalize (P.addFnPtrArgsAsEntries (P.args cs callerCtx) (store k s)).1 = s₁ at heq hgrows ⊢
      have hcallbacks : s₁.unresolvedCallbacks = s.unresolvedCallbacks := by
        rw [heq]
        rfl
      refine keeps_connect (fun hs => ?_) ?_ fun _ => hlinked _ fun _ _ => ?_
      · have hg := hgrows (grows_store k hs).scheduled
        refine hg.trans (grows_of_ext hg.scheduled { State.Ext.refl s₁ with
          unresolvedCallbacks := ?_ } rfl rfl rfl)
        rw [hcallbacks]
        exact List.subset_append_left _ _
      · change s₁.connectedCallees = _
        rw [heq]
      · exact List.mem_append_right _ (List.mem_singleton_self _)
    · subst hs'
      exact keeps_connect (fun hs => grows_of_ext (grows_store k hs).scheduled (.refl _) rfl rfl rfl)
        rfl fun _ => hlinked _ fun hsound hargs => absurd ⟨hsound, hargs⟩ hcallback
  -- a definition: it is queued, its constraints are inserted and propagated
  · have hqueue := fun hs : Scheduled s.data => grows_queue k.2 (grows_store k hs).scheduled
    have hinsert := fun hs : Scheduled s.data =>
      grows_insertAll (P.connectionConstraints k) (hqueue hs).1.scheduled
    have hprop := fun hs : Scheduled s.data => grows_propagate (hinsert hs).1.scheduled hs'
    refine keeps_connect (fun hs => ((hqueue hs).1.trans (hinsert hs).1).trans (hprop hs)) ?_
      fun hs => ⟨fun c hc => ?_, fun _ => ?_, fun hdecl => ?_⟩
    · rw [(propagate_frame hs').1]
      rcases queue_cases k.2 (store k s) with ⟨-, heq⟩ | heq
      · rw [heq]
        rfl
      · rw [heq]
        rfl
    · exact (hprop hs).ext.data.recorded ((hinsert hs).2 c hc)
    · exact (hprop hs).ext.queued ((hinsert hs).1.ext.queued (hqueue hs).2)
    · exact absurd (hdecl.symm.trans hdef) (by simp)

theorem keeps_connectCallees {fuel : ℕ} {cs : S} {ctx : C} {callees : List F} {b : Bool}
    (h : P.connectCallees fuel cs ctx callees s = some (s', b)) : Keeps P s s' :=
  keeps_runAny (fun _ _ _ _ h => (connectCallee_spec h).1) h

variable [DecidableEq T]

theorem keeps_resolveStructVCall {fuel : ℕ} {rec : StructVCallRecord n S C T} {b : Bool}
    (h : P.resolveStructVCall fuel rec s = some (s', b)) : Keeps P s s' := by
  obtain ⟨⟨s₁, b₁⟩, h₁, h⟩ := Option.bind_eq_some_iff.1 h
  have hfirst := keeps_connectCallees h₁
  split_ifs at h with hfallback
  · obtain ⟨⟨s₂, b₂⟩, h₂, heq⟩ := Option.map_eq_some_iff.1 h
    cases heq
    exact hfirst.trans (keeps_connectCallees h₂)
  · cases h
    exact hfirst

theorem handleCall_spec {fuel : ℕ} {cs : S} {operand : CalledOperand n F T} {ctx : C}
    (h : P.handleCall fuel cs operand ctx s = some s') :
    Keeps P s s' ∧ P.Done s' ctx (.call cs operand) := by
  cases operand with
  | direct callee =>
    obtain ⟨⟨s₁, b⟩, h₁, rfl⟩ := Option.map_eq_some_iff.1 h
    exact connectCallee_spec h₁
  | virtual vtablePtr vtableIndex =>
    obtain ⟨⟨s₁, b⟩, h₁, rfl⟩ := Option.map_eq_some_iff.1 h
    refine ⟨(keeps_connectCallees h₁).trans (keeps_records { State.Ext.refl s₁ with
      unresolvedVCalls := List.subset_append_left _ _ } rfl rfl rfl rfl), ?_⟩
    exact List.mem_append_right _ (List.mem_singleton_self _)
  | structField base fp indices gepElemTy =>
    obtain ⟨⟨s₁, b⟩, h₁, rfl⟩ := Option.map_eq_some_iff.1 h
    refine ⟨(keeps_resolveStructVCall h₁).trans (keeps_records { State.Ext.refl s₁ with
      unresolvedStructVCalls := List.subset_append_left _ _ } rfl rfl rfl rfl), ?_⟩
    exact List.mem_append_right _ (List.mem_singleton_self _)
  | indirect fp =>
    obtain ⟨⟨s₁, b⟩, h₁, rfl⟩ := Option.map_eq_some_iff.1 h
    refine ⟨(keeps_connectCallees h₁).trans (keeps_records { State.Ext.refl s₁ with
      unresolvedFPCalls := List.subset_append_left _ _ } rfl rfl rfl rfl), ?_⟩
    exact List.mem_append_right _ (List.mem_singleton_self _)

variable [DecidableEq V]

theorem processInstruction_spec {fuel : ℕ} {ctx : C} {instr : Instr n F S T}
    (h : P.processInstruction fuel ctx s instr = some s') :
    Keeps P s s' ∧ P.Done s' ctx instr := by
  cases instr with
  | insert c =>
    cases h
    exact ⟨keeps_insertAll [c] s, (c.insert_spec s.data).2⟩
  | qualifyingFieldWrite rec =>
    cases h
    exact ⟨keeps_records { State.Ext.refl s with
      unresolvedQualFieldWrites := List.subset_append_left _ _ } rfl rfl rfl rfl,
      List.mem_append_right _ (List.mem_singleton_self _)⟩
  | poisonFieldWrite ptrId =>
    cases h
    exact ⟨keeps_records { State.Ext.refl s with
      unresolvedPoisonFieldWrites := List.subset_append_left _ _ } rfl rfl rfl rfl,
      List.mem_append_right _ (List.mem_singleton_self _)⟩
  | copyForwardFieldWrite rec =>
    cases h
    exact ⟨keeps_records { State.Ext.refl s with
      unresolvedCopyFieldWrites := List.subset_append_left _ _ } rfl rfl rfl rfl,
      List.mem_append_right _ (List.mem_singleton_self _)⟩
  | call cs operand => exact handleCall_spec h

/-- The translation of a body: every instruction is done at the end. -/
theorem processBody_spec {fuel : ℕ} {ctx : C} {todo : F × C → Prop} {instrs : List (Instr n F S T)}
    (hs : Inv P todo s) (h : instrs.foldlM (P.processInstruction fuel ctx) s = some s') :
    Inv P todo s' ∧ State.Ext s s' ∧ ∀ instr ∈ instrs, P.Done s' ctx instr := by
  induction instrs generalizing s with
  | nil =>
    cases h
    exact ⟨hs, .refl _, by simp⟩
  | cons instr instrs ih =>
    rw [List.foldlM_cons] at h
    obtain ⟨s₁, h₁, h⟩ := Option.bind_eq_some_iff.1 h
    obtain ⟨hkeeps, hdone⟩ := processInstruction_spec h₁
    obtain ⟨hs₁, hext₁⟩ := hkeeps todo hs
    obtain ⟨hs', hext, hrest⟩ := ih hs₁ h
    refine ⟨hs', hext₁.trans hext, fun i hi => ?_⟩
    rcases List.mem_cons.1 hi with rfl | hi
    · exact hdone.mono hext
    · exact hrest i hi

/-- The loop over the function work list: all queued functions are translated at its end, and what they
have inserted is propagated. -/
theorem processFunctions_spec {fuel k : ℕ} (hs : Inv P (fun _ => False) s)
    (h : P.processFunctions fuel k s = some s') :
    Inv P (fun _ => False) s' ∧ State.Ext s s' ∧ s'.functionWorklist = [] ∧
      (s' = s ∨ s'.data.propWorklist = []) := by
  induction k generalizing s with
  | zero => cases h
  | succ k ih =>
    rw [processFunctions] at h
    split at h
    · next hempty =>
      cases h
      exact ⟨hs, .refl _, hempty, Or.inl rfl⟩
    · next fc rest hcons =>
      obtain ⟨s₂, h₂, h⟩ := Option.bind_eq_some_iff.1 h
      obtain ⟨s₁, h₁, h₂⟩ := Option.bind_eq_some_iff.1 h₂
      have hpopped : Inv P (· = fc) { s with functionWorklist := rest } := by
        refine ⟨hs.scheduled, fun k hk => ?_, fun fc' hfc' => ?_⟩
        · exact (hs.linked k hk).mono { State.Ext.refl s with }
        · rcases (hs.bodies fc' hfc').resolve_left id with hmem | htr
          · rw [hcons] at hmem
            exact (List.mem_cons.1 hmem).imp_right Or.inl
          · exact Or.inr (Or.inr fun instr hinstr => (htr instr hinstr).mono { State.Ext.refl s with })
      obtain ⟨hs₁, hext₁, hdone⟩ := processBody_spec hpopped h₁
      have hdone₁ : Inv P (fun _ => False) s₁ := by
        refine ⟨hs₁.scheduled, hs₁.linked, fun fc' hfc' => Or.inr ?_⟩
        rcases hs₁.bodies fc' hfc' with rfl | hrest
        · exact Or.inr hdone
        · exact hrest
      obtain ⟨hs₂, hext₂⟩ := keeps_propagate h₂ _ hdone₁
      obtain ⟨hs', hext, hempty, heq⟩ := ih hs₂ h
      have hpop : State.Ext s s₁ := { hext₁ with }
      refine ⟨hs', (hpop.trans hext₂).trans hext, hempty, Or.inr ?_⟩
      rcases heq with rfl | hprop
      · exact (propagate_frame h₂).2
      · exact hprop

end Program

end Phasar.Andersen
