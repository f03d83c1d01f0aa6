import Phasar.Pointer.AndersenOuterLoop

/-!
# What holds when the outer loop of the Andersen solver stops

The loop stops after a round of checks that report no change and queue no function. Such a round can only
connect declarations. A library summary adds edges then, but no pointees, so that the round would find the
same callees and the same fields again: every callee of a recorded call is connected, and a further round
changes nothing. What a summary has added is not propagated, as nothing is reported.

* `Quiet`: what a round without a change can do;
* `connectCallee_quiet`, `checkUnresolved_quiet`: it does no more;
* `Settled`, `run_settled`: what holds when the loop stops.
-/

set_option linter.unusedSectionVars false

namespace Phasar.Andersen

open SolverData ChangePass

variable {n : ℕ} {F S C V T : Type} [DecidableEq F] [DecidableEq S] [DecidableEq C] [DecidableEq V]
  [DecidableEq T]

/-! ### Writes of function pointers -/

namespace FieldTables

theorem addCallees_quiet {callees new : List F} (h : (addCallees callees new).2 = false) :
    (addCallees callees new).1 = callees := by
  have key : ∀ (new : List F) (r : List F × Bool), (new.foldl (fun r callee =>
      if r.1.contains callee then r else (r.1 ++ [callee], true)) r).2 = false →
      new.foldl (fun r callee => if r.1.contains callee then r else (r.1 ++ [callee], true)) r = r := by
    intro new
    induction new with
    | nil => exact fun _ _ => rfl
    | cons callee new ih =>
      intro r hr
      rw [List.foldl_cons] at hr ⊢
      by_cases hmem : r.1.contains callee
      · rw [if_pos hmem] at hr ⊢
        exact ih r hr
      · rw [if_neg hmem] at hr
        have hreported := ih _ hr
        rw [hreported] at hr
        cases hr
  rw [addCallees, key new (callees, false) h]

variable {t : FieldTables F C V T}

theorem poisonObject_quiet {obj : ObjectKey V C} (h : (t.poisonObject obj).2 = false) :
    (t.poisonObject obj).1 = t := by
  rw [poisonObject] at h ⊢
  split_ifs at h ⊢
  rfl

theorem mergeFieldWriteInfo_quiet {obj : ObjectKey V C} {indices : List ℕ} {src : FieldWriteInfo F T}
    (h : (t.mergeFieldWriteInfo obj indices src).2 = false) :
    (t.mergeFieldWriteInfo obj indices src).1 = t := by
  rw [mergeFieldWriteInfo] at h ⊢
  split_ifs at h ⊢ with himpure
  · rfl
  · cases hinfo : t.fnPtrFieldWrites (obj, indices) with
    | none =>
      simp only [hinfo] at h
      cases h
    | some info =>
      simp only [hinfo] at h ⊢
      split_ifs at h ⊢ with htype
      · exact poisonObject_quiet h
      · have hsame : some ⟨(addCallees info.callees src.callees).1, info.elemTy⟩ =
            t.fnPtrFieldWrites (obj, indices) := by
          rw [addCallees_quiet h, hinfo]
        simp only [hsame, Function.update_eq_self]

end FieldTables

namespace Program

variable {P : Program n F S C V T} {s s' s'' : State n F S C V T}

theorem copyForwardTo_quiet {copyLength : Option ℕ} {srcs : List (ObjectKey V C)} {dst : ObjectKey V C}
    {t : FieldTables F C V T} (h : (P.copyForwardTo copyLength srcs dst t).2 = false) :
    (P.copyForwardTo copyLength srcs dst t).1 = t := by
  unfold copyForwardTo at h ⊢
  split_ifs at h ⊢ with himpure
  · rfl
  · cases copyLength with
    | none => exact FieldTables.poisonObject_quiet h
    | some len =>
      dsimp only at h ⊢
      split_ifs at h ⊢ with hpoison
      · exact FieldTables.poisonObject_quiet h
      · exact (foldAny_quiet (fun x _ t ht => FieldTables.mergeFieldWriteInfo_quiet ht) h).1

variable {d : SolverData n} {t : FieldTables F C V T}

theorem resolveCopyForward_quiet {rec : CopyForwardFieldWriteRecord n}
    (h : (P.resolveCopyForward d rec t).2 = false) : (P.resolveCopyForward d rec t).1 = t :=
  (foldAny_quiet (fun _ _ _ ht => copyForwardTo_quiet ht) h).1

theorem resolveQualFieldWrite_quiet {rec : QualifyingFieldWriteRecord n F T}
    (h : (P.resolveQualFieldWrite d rec t).2 = false) : (P.resolveQualFieldWrite d rec t).1 = t :=
  (foldAny_quiet (fun _ _ _ ht => FieldTables.mergeFieldWriteInfo_quiet ht) h).1

theorem resolvePoisonFieldWrite_quiet {ptrId : Fin n}
    (h : (P.resolvePoisonFieldWrite d ptrId t).2 = false) : (P.resolvePoisonFieldWrite d ptrId t).1 = t :=
  (foldAny_quiet (fun _ _ _ ht => FieldTables.poisonObject_quiet ht) h).1

/-- A check of the recorded writes that reports no change. -/
theorem checkUnresolvedFieldWrites_quiet (h : (P.checkUnresolvedFieldWrites s).2 = false) :
    P.checkUnresolvedFieldWrites s = (s, false) := by
  refine Prod.ext ?_ h
  rw [checkUnresolvedFieldWrites] at h ⊢
  obtain ⟨hcopyQual, hpoison⟩ := Bool.or_eq_false_iff.1 h
  obtain ⟨hcopy, hqual⟩ := Bool.or_eq_false_iff.1 hcopyQual
  have hcopy' := (foldAny_quiet (fun _ _ _ ht => resolveCopyForward_quiet ht) hcopy).1
  rw [hcopy'] at hqual hpoison ⊢
  have hqual' := (foldAny_quiet (fun _ _ _ ht => resolveQualFieldWrite_quiet ht) hqual).1
  rw [hqual'] at hpoison ⊢
  rw [(foldAny_quiet (fun _ _ _ ht => resolvePoisonFieldWrite_quiet ht) hpoison).1]

/-! ### What is read of the nodes -/

theorem pointeeVars_congr {d d' : SolverData n} (h : EdgeFrame d d') (v : Fin n) :
    P.pointeeVars d' v = P.pointeeVars d v := by
  rw [pointeeVars, h.rep, h.ptsSet, pointeeVars]

theorem objects_congr {d d' : SolverData n} (h : EdgeFrame d d') : P.objects d' = P.objects d := by
  funext v
  rw [objects, pointeeVars_congr h, objects]

theorem checkUnresolvedFieldWrites_congr (hdata : EdgeFrame s.data s'.data) (htables : s'.tables = s.tables)
    (hcopy : s'.unresolvedCopyFieldWrites = s.unresolvedCopyFieldWrites)
    (hqual : s'.unresolvedQualFieldWrites = s.unresolvedQualFieldWrites)
    (hpoison : s'.unresolvedPoisonFieldWrites = s.unresolvedPoisonFieldWrites)
    (h : P.checkUnresolvedFieldWrites s = (s, false)) : P.checkUnresolvedFieldWrites s' = (s', false) := by
  have hcopy' : P.resolveCopyForward s'.data = P.resolveCopyForward s.data := by
    funext rec t
    rw [resolveCopyForward, objects_congr hdata, resolveCopyForward]
  have hqual' : P.resolveQualFieldWrite s'.data = P.resolveQualFieldWrite s.data := by
    funext rec t
    rw [resolveQualFieldWrite, objects_congr hdata, resolveQualFieldWrite]
  have hpoison' : P.resolvePoisonFieldWrite s'.data = P.resolvePoisonFieldWrite s.data := by
    funext ptrId t
    rw [resolvePoisonFieldWrite, objects_congr hdata, resolvePoisonFieldWrite]
  rw [checkUnresolvedFieldWrites] at h ⊢
  rw [hcopy', hqual', hpoison', htables, hcopy, hqual, hpoison]
  obtain ⟨hstate, hreport⟩ := Prod.mk.inj h
  have htables' := congrArg State.tables hstate
  dsimp only at htables'
  rw [hreport, htables', ← htables, ← hcopy, ← hqual, ← hpoison]

/-! ### A round without a change -/

/-- The defined functions among the arguments have been queued. -/
def Entered (P : Program n F S C V T) (s : State n F S C V T) (args : List (List (Fin n))) : Prop :=
  ∀ fn ∈ P.fnPtrArgs s.data args, (fn, P.root) ∈ s.queued

/-- Some call is connected to a declaration with a library summary. -/
def Summarized (P : Program n F S C V T) (s : State n F S C V T) : Prop :=
  ∃ k ∈ s.connectedCallees, P.isDeclaration k.2.1 = true ∧ ∃ libSum, P.libFacts k.2.1 = some libSum

/-- What a round does without reporting a change or queueing a function. -/
structure Quiet (P : Program n F S C V T) (s s' : State n F S C V T) : Prop where
  data : EdgeFrame s.data s'.data
  propWorklist : s'.data = s.data ∨ P.Summarized s'
  functionWorklist : s'.functionWorklist = s.functionWorklist
  queued : s'.queued = s.queued
  connectedCallees : s.connectedCallees ⊆ s'.connectedCallees
  unresolvedFPCalls : s'.unresolvedFPCalls = s.unresolvedFPCalls
  unresolvedVCalls : s'.unresolvedVCalls = s.unresolvedVCalls
  unresolvedStructVCalls : s'.unresolvedStructVCalls = s.unresolvedStructVCalls
  unresolvedCallbacks : ∀ args ∈ s'.unresolvedCallbacks, args ∈ s.unresolvedCallbacks ∨ P.Entered s' args
  tables : s'.tables = s.tables
  unresolvedPoisonFieldWrites : s'.unresolvedPoisonFieldWrites = s.unresolvedPoisonFieldWrites
  unresolvedQualFieldWrites : s'.unresolvedQualFieldWrites = s.unresolvedQualFieldWrites
  unresolvedCopyFieldWrites : s'.unresolvedCopyFieldWrites = s.unresolvedCopyFieldWrites

theorem fnPtrArgs_congr {d d' : SolverData n} (h : EdgeFrame d d') (args : List (List (Fin n))) :
    P.fnPtrArgs d' args = P.fnPtrArgs d args := by
  rw [fnPtrArgs, objects_congr h, fnPtrArgs]

theorem Summarized.mono (h : P.Summarized s) (hconn : s.connectedCallees ⊆ s'.connectedCallees) :
    P.Summarized s' := by
  obtain ⟨k, hk, hsum⟩ := h
  exact ⟨k, hconn hk, hsum⟩

namespace Quiet

theorem refl (s : State n F S C V T) : P.Quiet s s where
  data := .refl _
  propWorklist := Or.inl rfl
  functionWorklist := rfl
  queued := rfl
  connectedCallees := Finset.Subset.refl _
  unresolvedFPCalls := rfl
  unresolvedVCalls := rfl
  unresolvedStructVCalls := rfl
  unresolvedCallbacks _ h := Or.inl h
  tables := rfl
  unresolvedPoisonFieldWrites := rfl
  unresolvedQualFieldWrites := rfl
  unresolvedCopyFieldWrites := rfl

theorem entered (h : P.Quiet s s') {args : List (List (Fin n))} (hargs : P.Entered s args) :
    P.Entered s' args := by
  rw [Entered, fnPtrArgs_congr h.data, h.queued]
  exact hargs

theorem trans (h : P.Quiet s s') (h' : P.Quiet s' s'') : P.Quiet s s'' where
  data := h.data.trans h'.data
  propWorklist := by
    rcases h'.propWorklist with heq | hsum
    · rw [heq]
      exact h.propWorklist.imp_right fun hsum => hsum.mono h'.connectedCallees
    · exact Or.inr hsum
  functionWorklist := h'.functionWorklist.trans h.functionWorklist
  queued := h'.queued.trans h.queued
  connectedCallees := Finset.Subset.trans h.connectedCallees h'.connectedCallees
  unresolvedFPCalls := h'.unresolvedFPCalls.trans h.unresolvedFPCalls
  unresolvedVCalls := h'.unresolvedVCalls.trans h.unresolvedVCalls
  unresolvedStructVCalls := h'.unresolvedStructVCalls.trans h.unresolvedStructVCalls
  unresolvedCallbacks args hargs := (h'.unresolvedCallbacks args hargs).elim
    (fun hargs => (h.unresolvedCallbacks args hargs).imp_right h'.entered) Or.inr
  tables := h'.tables.trans h.tables
  unresolvedPoisonFieldWrites := h'.unresolvedPoisonFieldWrites.trans h.unresolvedPoisonFieldWrites
  unresolvedQualFieldWrites := h'.unresolvedQualFieldWrites.trans h.unresolvedQualFieldWrites
  unresolvedCopyFieldWrites := h'.unresolvedCopyFieldWrites.trans h.unresolvedCopyFieldWrites

end Quiet

/-! ### Queueing functions -/

theorem subset_queueAll (fns : List F) (s : State n F S C V T) : s.functionWorklist ⊆
    (foldAny (fun fn s => State.queue (fn, P.root) s) fns s).1.functionWorklist := by
  refine foldAny_rule (T := fun s s' : State n F S C V T => s.functionWorklist ⊆ s'.functionWorklist)
    (fun _ => List.Subset.refl _) (fun _ _ _ => List.Subset.trans) (fun fn s => ?_) fns s
  rcases queue_cases (fn, P.root) s with ⟨-, heq⟩ | heq
  · rw [heq]
    exact List.Subset.refl _
  · rw [heq]
    exact List.subset_cons_self _ _

/-- If no function is on the work list afterwards, all were queued before. -/
theorem queueAll_quiet {fns : List F}
    (h : (foldAny (fun fn s => State.queue (fn, P.root) s) fns s).1.functionWorklist = []) :
    foldAny (fun fn s => State.queue (fn, P.root) s) fns s = (s, false) ∧
      ∀ fn ∈ fns, (fn, P.root) ∈ s.queued := by
  induction fns with
  | nil => exact ⟨rfl, by simp⟩
  | cons fn fns ih =>
    rw [foldAny] at h ⊢
    rcases queue_cases (fn, P.root) s with ⟨hqueued, heq⟩ | heq
    · rw [heq] at h ⊢
      obtain ⟨hsame, hall⟩ := ih h
      rw [hsame]
      exact ⟨rfl, List.forall_mem_cons.2 ⟨hqueued, hall⟩⟩
    · have hmem : (fn, P.root) ∈ (State.queue (fn, P.root) s).1.functionWorklist := by
        rw [heq]
        exact List.mem_cons_self
      have hmem' := subset_queueAll (P := P) fns _ hmem
      rw [h] at hmem'
      cases hmem'

/-! ### Connecting calls -/

/-- A library summary stores and assigns. -/
theorem mem_applyLibrarySummary {libSum : List (ℕ × List (Option ℕ))} {fn : F} {args : List (List (Fin n))}
    {csRetVal : Option (Fin n)} {c : Constraint n} (h : c ∈ P.applyLibrarySummary libSum fn args csRetVal) :
    (∃ ptr src, c = .addStore ptr src) ∨ ∃ src dst, c = .addAssignEdge src dst := by
  obtain ⟨⟨paramIdx, dests⟩, -, h⟩ := List.mem_flatMap.1 h
  dsimp only at h
  split at h
  · obtain ⟨dest, -, h⟩ := List.mem_flatMap.1 h
    cases dest with
    | some destIdx =>
      obtain ⟨dst, -, h⟩ := List.mem_flatMap.1 h
      obtain ⟨src, -, rfl⟩ := List.mem_map.1 h
      exact Or.inl ⟨dst, src, rfl⟩
    | none =>
      cases csRetVal with
      | none => cases h
      | some ret =>
        obtain ⟨src, -, rfl⟩ := List.mem_map.1 h
        exact Or.inr ⟨src, ret, rfl⟩
  · cases h

/-- It adds no pointees. -/
theorem edgeFrame_applyLibrarySummary {cs : List (Constraint n)} (hcs : ∀ c ∈ cs,
    (∃ ptr src, c = .addStore ptr src) ∨ ∃ src dst, c = .addAssignEdge src dst) (d : SolverData n) :
    EdgeFrame d (cs.foldl (fun d c => c.insert d) d) := by
  induction cs generalizing d with
  | nil => exact .refl d
  | cons c cs ih =>
    rw [List.foldl_cons]
    refine EdgeFrame.trans ?_ (ih (fun c hc => hcs c (List.mem_cons_of_mem _ hc)) _)
    rcases hcs c List.mem_cons_self with ⟨ptr, src, rfl⟩ | ⟨src, dst, rfl⟩
    · exact (addAssignEdges_spec _ d).1.toEdgeFrame.trans (addDeref_frame ..)
    · exact (d.addAssignEdge_frame src dst).toEdgeFrame

theorem subset_connectCallee {fuel : ℕ} {cs : S} {ctx : C} {callee : F} {b : Bool}
    (h : P.connectCallee fuel cs ctx callee s = some (s', b)) :
    s.functionWorklist ⊆ s'.functionWorklist := by
  rcases connectCallee_cases h with ⟨-, rfl, -⟩ | ⟨-, ⟨-, -, -, rfl⟩ | ⟨-, -, -, hs'⟩ | ⟨-, -, hs'⟩⟩
  · exact List.Subset.refl _
  · exact List.Subset.refl _
  · split_ifs at hs' with hcallback
    · rw [hs']
      exact subset_queueAll _ (store _ s)
    · rw [hs']
      exact List.Subset.refl _
  · rw [(propagate_frame hs').1]
    rcases queue_cases (P.connection cs ctx callee).2 (store (P.connection cs ctx callee) s) with
      ⟨-, heq⟩ | heq
    · rw [heq]
      exact List.Subset.refl _
    · rw [heq]
      exact List.subset_cons_self _ _

/-- A connection that is not reported, and queues no function. -/
theorem connectCallee_quiet {fuel : ℕ} {cs : S} {ctx : C} {callee : F}
    (h : P.connectCallee fuel cs ctx callee s = some (s', false)) (hlist : s'.functionWorklist = []) :
    P.Quiet s s' ∧ P.connection cs ctx callee ∈ s'.connectedCallees := by
  have hcases := connectCallee_cases h
  refine ⟨?_, (connectCallee_spec h).2⟩
  set k := P.connection cs ctx callee
  rcases hcases with ⟨-, rfl, -⟩ | ⟨-, ⟨hdecl, -, ⟨libSum, hlib⟩, rfl⟩ | ⟨-, -, hlib, hs'⟩ | ⟨-, hb, -⟩⟩
  · exact .refl _
  · have hcs : P.connectionConstraints k =
        P.applyLibrarySummary libSum callee (P.args cs ctx) (P.csRetVal cs ctx) := by
      simp [connectionConstraints, k, connection, hdecl, hlib]
    exact { Quiet.refl (P := P) s with
      data := edgeFrame_applyLibrarySummary (fun c hc => mem_applyLibrarySummary (hcs ▸ hc)) s.data
      propWorklist := Or.inr ⟨k, Finset.mem_insert_self _ _, hdecl, libSum, hlib⟩
      connectedCallees := Finset.subset_insert _ _
      unresolvedCallbacks := fun _ hargs => Or.inl hargs }
  · split_ifs at hs' with hcallback
    · have hlist' : (P.addFnPtrArgsAsEntries (P.args cs ctx) (store k s)).1.functionWorklist = [] := by
        rwa [hs'] at hlist
      obtain ⟨hsame, hqueued⟩ := queueAll_quiet hlist'
      rw [addFnPtrArgsAsEntries, hsame] at hs'
      subst hs'
      exact { Quiet.refl (P := P) s with
        propWorklist := Or.inl rfl
        connectedCallees := Finset.subset_insert _ _
        unresolvedCallbacks := fun args hargs => (List.mem_append.1 hargs).imp_right fun hargs => by
          rw [List.mem_singleton.1 hargs]
          exact hqueued }
    · subst hs'
      exact { Quiet.refl (P := P) s with
        propWorklist := Or.inl rfl
        connectedCallees := Finset.subset_insert _ _
        unresolvedCallbacks := fun _ hargs => Or.inl hargs }
  · cases hb

/-! ### The checks -/

/-- The call is connected to the callees. -/
def Connected (P : Program n F S C V T) (s : State n F S C V T) (cs : S) (ctx : C) (callees : List F) : Prop :=
  ∀ callee ∈ callees, P.connection cs ctx callee ∈ s.connectedCallees

/-- The callees that are found for a call through a field. -/
def structVCallees (P : Program n F S C V T) (d : SolverData n) (t : FieldTables F C V T)
    (rec : StructVCallRecord n S C T) : List F :=
  let targets := (P.pointeeVars d rec.baseId).map (P.structCallees t rec)
  targets.flatMap (fun t => t.getD []) ++
    if targets.contains none then P.fpCallees d rec.cs rec.fpId else []

theorem Connected.mono {cs : S} {ctx : C} {callees : List F} (h : P.Connected s cs ctx callees)
    (hquiet : P.Quiet s s') : P.Connected s' cs ctx callees := fun callee hcallee =>
  hquiet.connectedCallees (h callee hcallee)

theorem fpCallees_congr {d d' : SolverData n} (h : EdgeFrame d d') (cs : S) (fpId : Fin n) :
    P.fpCallees d' cs fpId = P.fpCallees d cs fpId := by
  rw [fpCallees, objects_congr h, fpCallees]

theorem vtableCallees_congr {d d' : SolverData n} (h : EdgeFrame d d') (rec : VCallRecord n S C) :
    P.vtableCallees d' rec = P.vtableCallees d rec := by
  rw [vtableCallees, objects_congr h, vtableCallees]

theorem structVCallees_congr {d d' : SolverData n} (h : EdgeFrame d d') (t : FieldTables F C V T)
    (rec : StructVCallRecord n S C T) : P.structVCallees d' t rec = P.structVCallees d t rec := by
  rw [structVCallees, pointeeVars_congr h, fpCallees_congr h, structVCallees]

variable {fuel : ℕ}

/-- A pass without a report that leaves no function on the work list. -/
theorem pass_quiet {ρ : Type} {step : ρ → State n F S C V T → Option (State n F S C V T × Bool)}
    {post : ρ → State n F S C V T → Prop} {rs : List ρ} (h : runAny step rs s = some (s', false))
    (hlist : s'.functionWorklist = [])
    (hstep : ∀ r s s', step r s = some (s', false) → s'.functionWorklist = [] → P.Quiet s s' ∧ post r s')
    (hkeep : ∀ r s s', P.Quiet s s' → post r s → post r s') : P.Quiet s s' ∧ ∀ r ∈ rs, post r s' :=
  runAny_quiet (I := fun s => s.functionWorklist = []) .refl (fun _ _ _ => .trans)
    (fun _ _ hquiet hlist => hquiet.functionWorklist ▸ hlist) hstep hkeep h hlist

theorem connectCallees_quiet {cs : S} {ctx : C} {callees : List F}
    (h : P.connectCallees fuel cs ctx callees s = some (s', false)) (hlist : s'.functionWorklist = []) :
    P.Quiet s s' ∧ P.Connected s' cs ctx callees :=
  pass_quiet h hlist (fun _ _ _ h hlist => connectCallee_quiet h hlist)
    fun _ _ _ hquiet hconn => hquiet.connectedCallees hconn

theorem connectCallees_of_connected {cs : S} {ctx : C} {callees : List F} (h : P.Connected s cs ctx callees) :
    P.connectCallees fuel cs ctx callees s = some (s, false) :=
  runAny_of_quiet fun callee hcallee => if_pos (h callee hcallee)

theorem resolveFPCall_quiet {rec : FPCallRecord n S C} (h : P.resolveFPCall fuel rec s = some (s', false))
    (hlist : s'.functionWorklist = []) : P.Quiet s s' ∧
      P.Connected s' rec.cs rec.ctx (P.fpCallees s'.data rec.cs rec.fpId) := by
  obtain ⟨hquiet, hconn⟩ := connectCallees_quiet h hlist
  exact ⟨hquiet, by rwa [fpCallees_congr hquiet.data]⟩

theorem resolveVtableCall_quiet {rec : VCallRecord n S C}
    (h : P.resolveVtableCall fuel rec s = some (s', false)) (hlist : s'.functionWorklist = []) :
    P.Quiet s s' ∧ P.Connected s' rec.cs rec.ctx (P.vtableCallees s'.data rec) := by
  obtain ⟨hquiet, hconn⟩ := connectCallees_quiet h hlist
  exact ⟨hquiet, by rwa [vtableCallees_congr hquiet.data]⟩

theorem resolveStructVCall_quiet {rec : StructVCallRecord n S C T}
    (h : P.resolveStructVCall fuel rec s = some (s', false)) (hlist : s'.functionWorklist = []) :
    P.Quiet s s' ∧ P.Connected s' rec.cs rec.ctx (P.structVCallees s'.data s'.tables rec) := by
  obtain ⟨⟨s₁, b₁⟩, h₁, h⟩ := Option.bind_eq_some_iff.1 h
  dsimp only at h
  split_ifs at h with hnone
  · obtain ⟨⟨s₂, b₂⟩, h₂, heq⟩ := Option.map_eq_some_iff.1 h
    obtain ⟨rfl, hreport⟩ := Prod.mk.inj heq
    obtain ⟨rfl, rfl⟩ := Bool.or_eq_false_iff.1 hreport
    obtain ⟨hquiet₂, hconn₂⟩ := resolveFPCall_quiet h₂ hlist
    obtain ⟨hquiet₁, hconn₁⟩ := connectCallees_quiet h₁ (hquiet₂.functionWorklist ▸ hlist)
    have hquiet := hquiet₁.trans hquiet₂
    refine ⟨hquiet, ?_⟩
    rw [structVCallees_congr hquiet.data, hquiet.tables, structVCallees, if_pos hnone]
    rw [fpCallees_congr hquiet.data] at hconn₂
    exact fun callee hcallee => (List.mem_append.1 hcallee).elim (hconn₁.mono hquiet₂ callee) (hconn₂ callee)
  · obtain ⟨rfl, rfl⟩ := Prod.mk.inj (Option.some.inj h)
    obtain ⟨hquiet, hconn⟩ := connectCallees_quiet h₁ hlist
    refine ⟨hquiet, ?_⟩
    rw [structVCallees_congr hquiet.data, hquiet.tables, structVCallees, if_neg hnone, List.append_nil]
    exact hconn

theorem resolveStructVCall_of_connected {rec : StructVCallRecord n S C T}
    (h : P.Connected s rec.cs rec.ctx (P.structVCallees s.data s.tables rec)) :
    P.resolveStructVCall fuel rec s = some (s, false) := by
  have hfirst : P.Connected s rec.cs rec.ctx (((P.pointeeVars s.data rec.baseId).map
      (P.structCallees s.tables rec)).flatMap fun t => t.getD []) := fun callee hcallee =>
    h callee (List.mem_append_left _ hcallee)
  rw [resolveStructVCall, connectCallees_of_connected hfirst, Option.bind_some]
  dsimp only
  split_ifs with hnone
  · have hsecond : P.Connected s rec.cs rec.ctx (P.fpCallees s.data rec.cs rec.fpId) := fun callee hcallee =>
      h callee (List.mem_append_right _ (by rwa [if_pos hnone]))
    rw [resolveFPCall, connectCallees_of_connected hsecond]
    rfl
  · rfl

/-- The checks find nothing new. -/
structure Checked (P : Program n F S C V T) (s : State n F S C V T) : Prop where
  fieldWrites : P.checkUnresolvedFieldWrites s = (s, false)
  fpCalls : ∀ rec ∈ s.unresolvedFPCalls, P.Connected s rec.cs rec.ctx (P.fpCallees s.data rec.cs rec.fpId)
  vCalls : ∀ rec ∈ s.unresolvedVCalls, P.Connected s rec.cs rec.ctx (P.vtableCallees s.data rec)
  structVCalls : ∀ rec ∈ s.unresolvedStructVCalls,
    P.Connected s rec.cs rec.ctx (P.structVCallees s.data s.tables rec)
  callbacks : ∀ args ∈ s.unresolvedCallbacks, P.Entered s args

/-- Then they change nothing. -/
theorem Checked.checkUnresolved (h : P.Checked s) : P.checkUnresolved fuel s = some (s, false) := by
  have hfp : runAny (P.resolveFPCall fuel) s.unresolvedFPCalls s = some (s, false) :=
    runAny_of_quiet fun rec hrec => connectCallees_of_connected (h.fpCalls rec hrec)
  have hv : runAny (P.resolveVtableCall fuel) s.unresolvedVCalls s = some (s, false) :=
    runAny_of_quiet fun rec hrec => connectCallees_of_connected (h.vCalls rec hrec)
  have hstruct : runAny (P.resolveStructVCall fuel) s.unresolvedStructVCalls s = some (s, false) :=
    runAny_of_quiet fun rec hrec => resolveStructVCall_of_connected (h.structVCalls rec hrec)
  have hcallbacks : P.checkUnresolvedCallbacks s = (s, false) :=
    foldAny_of_quiet fun args hargs => foldAny_of_quiet fun fn hfn => if_pos (h.callbacks args hargs fn hfn)
  simp [Program.checkUnresolved, h.fieldWrites, hfp, hv, hstruct, hcallbacks]

theorem checkUnresolvedCallbacks_quiet (h : (P.checkUnresolvedCallbacks s).2 = false) :
    (P.checkUnresolvedCallbacks s).1 = s ∧ ∀ args ∈ s.unresolvedCallbacks, P.Entered s args := by
  have hqueue : ∀ (fc : F × C) (s : State n F S C V T), (s.queue fc).2 = false →
      (s.queue fc).1 = s ∧ fc ∈ s.queued := by
    intro fc s h
    rcases queue_cases fc s with ⟨hqueued, heq⟩ | heq
    · exact ⟨by rw [heq], hqueued⟩
    · rw [heq] at h
      cases h
  have hpass : ∀ (args : List (List (Fin n))) (s : State n F S C V T),
      (P.addFnPtrArgsAsEntries args s).2 = false →
        (P.addFnPtrArgsAsEntries args s).1 = s ∧ P.Entered s args := by
    intro args s h
    obtain ⟨hsame, hall⟩ := foldAny_quiet (fun fn _ s hs => (hqueue (fn, P.root) s hs).1) h
    exact ⟨hsame, fun fn hfn => (hqueue (fn, P.root) s (by rw [hall fn hfn])).2⟩
  obtain ⟨hsame, hall⟩ := foldAny_quiet (fun args _ s hs => (hpass args s hs).1) h
  exact ⟨hsame, fun args hargs => (hpass args s (by rw [hall args hargs])).2⟩

/-- **A round of checks without a change leaves nothing to be found.** -/
theorem checkUnresolved_quiet (h : P.checkUnresolved fuel s = some (s', false))
    (hlist : s'.functionWorklist = []) : P.Quiet s s' ∧ P.Checked s' := by
  rw [checkUnresolved] at h
  obtain ⟨⟨s₂, b₂⟩, h₂, h⟩ := Option.bind_eq_some_iff.1 h
  obtain ⟨⟨s₃, b₃⟩, h₃, h⟩ := Option.bind_eq_some_iff.1 h
  obtain ⟨⟨s₄, b₄⟩, h₄, h⟩ := Option.bind_eq_some_iff.1 h
  obtain ⟨hs', hreport⟩ := Prod.mk.inj (Option.some.inj h)
  simp only [Bool.or_eq_false_iff] at hreport
  obtain ⟨⟨⟨⟨hfields, rfl⟩, rfl⟩, rfl⟩, hcallbacks⟩ := hreport
  have hfields' := checkUnresolvedFieldWrites_quiet hfields
  rw [hfields'] at h₂
  obtain ⟨hsame, hentered⟩ := checkUnresolvedCallbacks_quiet hcallbacks
  rw [hsame] at hs'
  subst hs'
  -- the passes over the calls, the last one first
  obtain ⟨hquiet₄, hstruct⟩ := pass_quiet h₄ hlist (fun _ _ _ h hlist => resolveStructVCall_quiet h hlist)
    fun rec s s' hquiet hconn => by
      rw [structVCallees_congr hquiet.data, hquiet.tables]
      exact hconn.mono hquiet
  obtain ⟨hquiet₃, hv⟩ := pass_quiet h₃ (hquiet₄.functionWorklist ▸ hlist)
    (fun _ _ _ h hlist => resolveVtableCall_quiet h hlist) fun rec s s' hquiet hconn => by
      rw [vtableCallees_congr hquiet.data]
      exact hconn.mono hquiet
  have hquiet₃₄ := hquiet₃.trans hquiet₄
  obtain ⟨hquiet₂, hfp⟩ := pass_quiet h₂ (hquiet₃₄.functionWorklist ▸ hlist)
    (fun _ _ _ h hlist => resolveFPCall_quiet h hlist) fun rec s s' hquiet hconn => by
      rw [fpCallees_congr hquiet.data]
      exact hconn.mono hquiet
  have hquiet := hquiet₂.trans hquiet₃₄
  dsimp only at hquiet₂ hquiet₃ hquiet₄ hquiet₃₄ hquiet hfp hv hstruct
  refine ⟨hquiet, checkUnresolvedFieldWrites_congr hquiet.data hquiet.tables hquiet.unresolvedCopyFieldWrites
    hquiet.unresolvedQualFieldWrites hquiet.unresolvedPoisonFieldWrites hfields', fun rec hrec => ?_,
    fun rec hrec => ?_, fun rec hrec => ?_, hentered⟩
  · rw [fpCallees_congr hquiet₃₄.data]
    exact (hfp rec (hquiet.unresolvedFPCalls ▸ hrec)).mono hquiet₃₄
  · rw [vtableCallees_congr hquiet₄.data]
    exact (hv rec (hquiet₃₄.unresolvedVCalls ▸ hrec)).mono hquiet₄
  · exact hstruct rec (hquiet₄.unresolvedStructVCalls ▸ hrec)

/-! ### What every round keeps -/

theorem keeps_checkUnresolved {b : Bool} (h : P.checkUnresolved fuel s = some (s', b)) : Keeps P s s' := by
  rw [checkUnresolved] at h
  obtain ⟨⟨s₂, b₂⟩, h₂, h⟩ := Option.bind_eq_some_iff.1 h
  obtain ⟨⟨s₃, b₃⟩, h₃, h⟩ := Option.bind_eq_some_iff.1 h
  obtain ⟨⟨s₄, b₄⟩, h₄, h⟩ := Option.bind_eq_some_iff.1 h
  obtain ⟨rfl, -⟩ := Prod.mk.inj (Option.some.inj h)
  have hfields : Keeps P s (P.checkUnresolvedFieldWrites s).1 :=
    keeps_records { State.Ext.refl s with } rfl rfl rfl rfl
  have hfp : Keeps P (P.checkUnresolvedFieldWrites s).1 s₂ :=
    keeps_runAny (fun _ _ _ _ h => keeps_connectCallees h) h₂
  have hv : Keeps P s₂ s₃ := keeps_runAny (fun _ _ _ _ h => keeps_connectCallees h) h₃
  have hstruct : Keeps P s₃ s₄ := keeps_runAny (fun _ _ _ _ h => keeps_resolveStructVCall h) h₄
  have hcallbacks : Keeps P s₄ (P.checkUnresolvedCallbacks s₄).1 :=
    foldAny_rule .refl (fun _ _ _ => .trans) (fun args s => (queues_addFnPtrArgsAsEntries args s).keeps) _ s₄
  exact (((hfields.trans hfp).trans hv).trans hstruct).trans hcallbacks

/-- Nothing is left to be propagated, unless a library summary has been applied. -/
def Propagated (P : Program n F S C V T) (s : State n F S C V T) : Prop :=
  s.data.propWorklist = [] ∨ P.Summarized s

theorem Propagated.of_data (h : P.Propagated s) (hdata : s'.data = s.data)
    (hconn : s.connectedCallees ⊆ s'.connectedCallees) : P.Propagated s' :=
  h.imp (fun hlist => by rw [hdata, hlist]) fun hsum => hsum.mono hconn

theorem connectCallee_propagated {cs : S} {ctx : C} {callee : F} {b : Bool}
    (h : P.connectCallee fuel cs ctx callee s = some (s', b)) (hs : P.Propagated s) : P.Propagated s' := by
  rcases connectCallee_cases h with ⟨-, rfl, -⟩ | ⟨-, ⟨hdecl, -, hlib, rfl⟩ | ⟨-, -, -, hs'⟩ | ⟨-, -, hs'⟩⟩
  · exact hs
  · exact Or.inr ⟨_, Finset.mem_insert_self _ _, hdecl, hlib⟩
  · have hstore : P.Propagated (store (P.connection cs ctx callee) s) :=
      hs.of_data rfl (Finset.subset_insert _ _)
    split_ifs at hs' with hcallback
    · obtain ⟨heq, -⟩ := queues_addFnPtrArgsAsEntries (P := P) (P.args cs ctx)
        (store (P.connection cs ctx callee) s)
      rw [heq] at hs'
      rw [hs']
      exact hstore.of_data rfl (Finset.Subset.refl _)
    · rwa [hs']
  · exact Or.inl (propagate_frame hs').2

theorem runAny_propagated {ρ : Type} {step : ρ → State n F S C V T → Option (State n F S C V T × Bool)}
    (hstep : ∀ r s s' b, step r s = some (s', b) → P.Propagated s → P.Propagated s') {rs : List ρ} {b : Bool}
    (h : runAny step rs s = some (s', b)) (hs : P.Propagated s) : P.Propagated s' :=
  (runAny_rule (T := fun _ _ => True) (fun _ => trivial) (fun _ _ _ _ _ => trivial)
    (fun r s s' b _ hs h => ⟨hstep r s s' b h hs, trivial⟩) (.of_forall fun _ _ => trivial) hs h).1

theorem checkUnresolved_propagated {b : Bool} (h : P.checkUnresolved fuel s = some (s', b))
    (hs : P.Propagated s) : P.Propagated s' := by
  rw [checkUnresolved] at h
  obtain ⟨⟨s₂, b₂⟩, h₂, h⟩ := Option.bind_eq_some_iff.1 h
  obtain ⟨⟨s₃, b₃⟩, h₃, h⟩ := Option.bind_eq_some_iff.1 h
  obtain ⟨⟨s₄, b₄⟩, h₄, h⟩ := Option.bind_eq_some_iff.1 h
  obtain ⟨rfl, -⟩ := Prod.mk.inj (Option.some.inj h)
  have hcall : ∀ {cs : S} {ctx : C} {callees : List F} {s s' : State n F S C V T} {b : Bool},
      P.connectCallees fuel cs ctx callees s = some (s', b) → P.Propagated s → P.Propagated s' :=
    fun h => runAny_propagated (fun _ _ _ _ h => connectCallee_propagated h) h
  have hstruct : ∀ rec s s' b, P.resolveStructVCall fuel rec s = some (s', b) →
      P.Propagated s → P.Propagated s' := by
    intro rec s s' b h hs
    obtain ⟨⟨s₁, b₁⟩, h₁, h⟩ := Option.bind_eq_some_iff.1 h
    split_ifs at h with hnone
    · obtain ⟨⟨s₂, b₂⟩, h₂, heq⟩ := Option.map_eq_some_iff.1 h
      obtain ⟨rfl, -⟩ := Prod.mk.inj heq
      exact hcall h₂ (hcall h₁ hs)
    · obtain ⟨rfl, -⟩ := Prod.mk.inj (Option.some.inj h)
      exact hcall h₁ hs
  have hfields : P.Propagated (P.checkUnresolvedFieldWrites s).1 := hs.of_data rfl (Finset.Subset.refl _)
  have hs₄ := runAny_propagated hstruct h₄ (runAny_propagated (fun _ _ _ _ h => hcall h) h₃
    (runAny_propagated (fun _ _ _ _ h => hcall h) h₂ hfields))
  refine foldAny_rule (T := fun s s' => P.Propagated s → P.Propagated s') (fun _ h => h)
    (fun _ _ _ h h' hs => h' (h hs)) (fun args s hs => ?_) _ s₄ hs₄
  rw [(queues_addFnPtrArgsAsEntries args s).1]
  exact hs.of_data rfl (Finset.Subset.refl _)

/-! ### The main loop -/

/-- What the main loop leaves. -/
structure Settled (P : Program n F S C V T) (s : State n F S C V T) : Prop where
  entries : ∀ fn ∈ P.entries, (fn, P.root) ∈ s.queued
  globals : ∀ c ∈ P.entryArgs ++ P.globals, c.Recorded s.data
  bodies : ∀ fc ∈ s.queued, P.Translated s fc
  linked : ∀ k ∈ s.connectedCallees, P.Linked s k
  functionWorklist : s.functionWorklist = []
  checked : P.Checked s
  propagated : P.Summarized s ∨ s.data.propWorklist = [] ∧
    (∀ v, (s.data.nodes (s.data.rep v)).pendingPts = ∅) ∧
    ∀ u, s.data.rep u = u → ∀ v ∈ (s.data.nodes u).assignDsts,
      (s.data.nodes u).ptsSet ⊆ (s.data.nodes (s.data.rep v)).ptsSet

theorem loop_spec {k : ℕ} (hs : Inv P (fun _ => False) s) (hprop : P.Propagated s)
    (h : P.loop fuel k s = some s') :
    Inv P (fun _ => False) s' ∧ State.Ext s s' ∧ s'.functionWorklist = [] ∧ P.Checked s' ∧
      P.Propagated s' := by
  induction k generalizing s with
  | zero => cases h
  | succ k ih =>
    rw [loop] at h
    obtain ⟨s₁, h₁, h⟩ := Option.bind_eq_some_iff.1 h
    obtain ⟨⟨s₂, b⟩, h₂, h⟩ := Option.bind_eq_some_iff.1 h
    obtain ⟨hs₁, hext₁, hlist₁, hprop₁⟩ := processFunctions_spec hs h₁
    have hprop₁' : P.Propagated s₁ := by
      rcases hprop₁ with rfl | hprop₁
      · exact hprop
      · exact Or.inl hprop₁
    obtain ⟨hs₂, hext₂⟩ := keeps_checkUnresolved h₂ _ hs₁
    have hprop₂ := checkUnresolved_propagated h₂ hprop₁'
    dsimp only at h
    split_ifs at h with hagain
    · obtain ⟨hs', hext, hrest⟩ := ih hs₂ hprop₂ h
      exact ⟨hs', (hext₁.trans hext₂).trans hext, hrest⟩
    · obtain rfl := Option.some.inj h
      obtain ⟨hlist, hb⟩ := not_or.1 hagain
      have hlist := not_not.1 hlist
      obtain rfl : b = false := Bool.eq_false_iff.2 hb
      exact ⟨hs₂, hext₁.trans hext₂, hlist, (checkUnresolved_quiet h₂ hlist).2, hprop₂⟩

theorem initGlobals_spec (h : P.initGlobals fuel = some s) :
    Inv P (fun _ => False) s ∧ P.Propagated s ∧ (∀ fn ∈ P.entries, (fn, P.root) ∈ s.queued) ∧
      ∀ c ∈ P.entryArgs ++ P.globals, c.Recorded s.data := by
  have hinit : Inv P (fun _ => False) { data := SolverData.init n } := by
    refine ⟨⟨fun u _ o ho => ?_, fun u _ hne => ?_⟩, fun k hk => ?_, fun fc hfc => ?_⟩
    · exact absurd ho (Finset.notMem_empty o)
    · exact absurd hne Finset.not_nonempty_empty
    · exact absurd hk (Finset.notMem_empty k)
    · exact absurd hfc (Finset.notMem_empty fc)
  have hqueue : ∀ (fns : List F) (s : State n F S C V T), Inv P (fun _ => False) s →
      let s' := fns.foldl (fun s fn => (State.queue (fn, P.root) s).1) s
      Inv P (fun _ => False) s' ∧ State.Ext s s' ∧ ∀ fn ∈ fns, (fn, P.root) ∈ s'.queued := by
    intro fns
    induction fns with
    | nil => exact fun s hs => ⟨hs, .refl s, by simp⟩
    | cons fn fns ih =>
      intro s hs
      obtain ⟨hs₁, hext₁⟩ := keeps_queue (P := P) (fn, P.root) s _ hs
      obtain ⟨hs', hext, hall⟩ := ih _ hs₁
      exact ⟨hs', hext₁.trans hext,
        List.forall_mem_cons.2 ⟨hext.queued (grows_queue (fn, P.root) hs.scheduled).2, hall⟩⟩
  obtain ⟨hs₁, hext₁, hentries⟩ := hqueue P.entries _ hinit
  rw [initGlobals] at h
  set s₁ := P.entries.foldl (fun s fn => (State.queue (fn, P.root) s).1) { data := SolverData.init n }
  obtain ⟨hs₂, hext₂⟩ := keeps_insertAll (P := P) P.entryArgs s₁ _ hs₁
  obtain ⟨hs₃, hext₃⟩ := keeps_insertAll (P := P) P.globals (s₁.insertAll P.entryArgs) _ hs₂
  obtain ⟨hs, hext⟩ := keeps_propagate h _ hs₃
  refine ⟨hs, Or.inl (propagate_frame h).2, fun fn hfn => ?_, fun c hc => ?_⟩
  · exact hext.queued (hext₃.queued (hext₂.queued (hentries fn hfn)))
  · rcases List.mem_append.1 hc with hc | hc
    · exact hext.data.recorded (hext₃.data.recorded ((grows_insertAll P.entryArgs hs₁.scheduled).2 c hc))
    · exact hext.data.recorded ((grows_insertAll P.globals hs₂.scheduled).2 c hc)

/-- **When the main loop stops, everything is settled.** -/
theorem run_settled (h : P.run fuel = some s) :
    P.Settled s ∧ ∀ fuel, P.checkUnresolved fuel s = some (s, false) := by
  obtain ⟨s₀, h₀, h⟩ := Option.bind_eq_some_iff.1 h
  obtain ⟨hs₀, hprop₀, hentries, hglobals⟩ := initGlobals_spec h₀
  obtain ⟨hs, hext, hlist, hchecked, hprop⟩ := loop_spec hs₀ hprop₀ h
  refine ⟨⟨fun fn hfn => hext.queued (hentries fn hfn), fun c hc => hext.data.recorded (hglobals c hc),
    fun fc hfc => ?_, hs.linked, hlist, hchecked, ?_⟩, fun fuel => hchecked.checkUnresolved⟩
  · rcases hs.bodies fc hfc with htodo | hmem | htr
    · exact htodo.elim
    · rw [hlist] at hmem
      cases hmem
    · exact htr
  · rcases hprop with hempty | hsum
    · have hpending := hs.scheduled.pendingPts_eq hempty
      refine Or.inr ⟨hempty, hpending, fun u hu v hv o ho => ?_⟩
      have hnone := hpending u
      rw [hu] at hnone
      exact (hs.scheduled.sent u hu o ho (by rw [hnone]; exact Finset.notMem_empty o) v hv).resolve_right id
    · exact Or.inl hsum

end Program

/-! ### A call through a pointer -/

/-- The function `false` calls through node 0, which points to the function `true`. -/
def pointerProgram : Program 11 Bool Unit Unit Bool Unit where
  root := ()
  entries := [false]
  entryArgs := []
  globals := [.addPointee 0 2]
  body fn _ := if fn then [.insert (.addAssignEdge 0 1)] else [.call () (.indirect 0)]
  isDeclaration _ := false
  libFacts _ := none
  argIsPointer _ := []
  sound := true
  returnsVoid _ := true
  isAllocWrapper _ := false
  returnSlot _ _ := 3
  callObject _ _ := 3
  params _ _ := []
  args _ _ := []
  csRetVal _ _ := none
  calleeContext _ _ _ := ()
  isConsistentCall _ _ := true
  vars v := if v = 2 then [(some true, ())] else []
  asFunction v := some v
  vfs _ := none
  aliaseeObject v := v
  constInit _ := none
  typeAllocSize _ := 8

def pointerState : State 11 Bool Unit Unit Bool Unit :=
  (pointerProgram.run 6).getD { data := SolverData.init 11 }

/-- The callee is found, and its assignment satisfied. -/
theorem run_settled_pointerProgram : pointerProgram.Settled pointerState ∧
    ((), ()) ∈ pointerState.connectedCallees.image Prod.fst ∧
    (2 : Fin 11) ∈ (pointerState.data.nodes 1).ptsSet := by
  obtain ⟨s, hs⟩ := Option.isSome_iff_exists.1 (show (pointerProgram.run 6).isSome = true by decide +kernel)
  have heq : pointerState = s := by
    rw [pointerState, hs]
    rfl
  exact ⟨heq ▸ (Program.run_settled hs).1, by decide +kernel, by decide +kernel⟩

end Phasar.Andersen
