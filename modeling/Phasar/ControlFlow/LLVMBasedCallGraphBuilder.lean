import Mathlib.Data.Finset.Insert
import Mathlib.Data.List.Perm.Subperm
import Phasar.Lib.ChangePass
import Phasar.Lib.VecMap

/-!
# Building the call graph

The builder walks through all functions that are called, and asks a resolver for the callees of indirect
calls. The resolver learns from the callees that are reported to it, so the indirect calls are resolved
again until none of them has more callees than recorded.

* `Module`, `Resolver`, `Builder`;
* `processFunction`, `constructDynamicCall`, `buildCallGraph`;
* `Inv`, `Grows`: what each step keeps, for a resolver whose results only grow.
-/

namespace Phasar.LLVMBasedCallGraphBuilder

/-- What `getCalledOperand` is after stripping casts and aliases. -/
inductive CalledOperand (F : Type*)
  | function (callee : F)
  | inlineAsm
  | value
  deriving DecidableEq

/-- The functions of a module with their instructions. An instruction stands in one place; only calls have
a called operand. -/
structure Module (I F : Type*) where
  isDeclaration : F → Bool
  instructions : F → List I
  calledOperand : I → Option (CalledOperand F)
  nodup_instructions : ∀ f, (instructions f).Nodup
  function_unique : ∀ f g i, i ∈ instructions f → i ∈ instructions g → f = g

inductive Soundness
  | sound
  | soundy
  | unsound
  | invalid
  deriving DecidableEq

/-- `FunctionSetTy`, in the order of its iteration. -/
abbrev FunctionSet (F : Type*) := {l : List F // l.Nodup}

/-- A resolver with its state, the helper analysis included. -/
structure Resolver (σ I F : Type*) where
  mutatesHelperAnalysisInformation : Bool
  resolveIndirectCall : σ → I → FunctionSet F × σ
  handlePossibleTargets : σ → I → FunctionSet F → σ

/-- The order in which the iteration over a hash map with the given keys meets them. -/
structure IterationOrder (K : Type*) where
  order : List K → List K
  perm : ∀ l, (order l).Perm l

structure CallGraph (I F : Type*) where
  calleesAt : I → Option (List F)
  callersOf : F → Option (List I)

/-- `handled` is a history of the calls of `handlePossibleTargets`; the back of `functionWL` comes first. -/
structure Builder (σ I F : Type*) where
  cg : CallGraph I F
  visitedFunctions : Finset F
  functionWL : List F
  indirectCalls : VecMap I ℕ
  res : σ
  handled : List (I × FunctionSet F)

section Model

variable {σ I F : Type*} [DecidableEq I] [DecidableEq F]

namespace CallGraph

def empty : CallGraph I F := ⟨fun _ => none, fun _ => none⟩

/-- `getCalleesOfCallAt`. -/
def callees (cg : CallGraph I F) (cs : I) : List F := (cg.calleesAt cs).getD []

/-- `getCallersOf`. -/
def callers (cg : CallGraph I F) (f : F) : List I := (cg.callersOf f).getD []

def addFunctionVertex (cg : CallGraph I F) (f : F) : CallGraph I F :=
  { cg with callersOf := Function.update cg.callersOf f (some (cg.callers f)) }

def addInstructionVertex (cg : CallGraph I F) (cs : I) : CallGraph I F :=
  { cg with calleesAt := Function.update cg.calleesAt cs (some (cg.callees cs)) }

def addCallEdge (cg : CallGraph I F) (cs : I) (callee : F) : CallGraph I F :=
  { calleesAt := Function.update cg.calleesAt cs (some (cg.callees cs ++ [callee]))
    callersOf := Function.update cg.callersOf callee (some (cg.callers callee ++ [cs])) }

end CallGraph

variable (m : Module I F) (r : Resolver σ I F)

/-- The state after `initWorkList`. -/
def initWorkList (entryPointFns : List F) (s : σ) : Builder σ I F :=
  { cg := .empty, visitedFunctions := ∅, functionWL := entryPointFns.reverse, indirectCalls := .empty,
    res := s, handled := [] }

/-- The targets of a call, and whether they are final. -/
def fillPossibleTargets (cs : I) (b : Builder σ I F) :
    CalledOperand F → FunctionSet F × Builder σ I F × Bool
  | .function staticCallee => (⟨[staticCallee], List.nodup_singleton _⟩, b, true)
  | .inlineAsm => (⟨[], List.nodup_nil⟩, b, true)
  | .value =>
    let possibleTargets := r.resolveIndirectCall b.res cs
    (possibleTargets.1, { b with res := possibleTargets.2,
                                 indirectCalls := b.indirectCalls.set cs possibleTargets.1.1.length },
      false)

def handlePossibleTargets (cs : I) (targets : FunctionSet F) (b : Builder σ I F) : Builder σ I F :=
  { b with res := r.handlePossibleTargets b.res cs targets, handled := (cs, targets) :: b.handled }

/-- The loop over the targets of a call. -/
def addTargets (cs : I) (targets : List F) (b : Builder σ I F) : Builder σ I F :=
  targets.foldl (fun b f => { b with cg := b.cg.addCallEdge cs f, functionWL := f :: b.functionWL }) b

/-- An instruction in the loop of `processFunction`. -/
def processInstruction (i : I) (b : Builder σ I F) : Builder σ I F × Bool :=
  match m.calledOperand i with
  | none => (b, true)
  | some operand =>
    let filled := fillPossibleTargets r i b operand
    let handled := handlePossibleTargets r i filled.1 filled.2.1
    (addTargets i filled.1.1 { handled with cg := handled.cg.addInstructionVertex i }, filled.2.2)

def processInstructions : List I → Builder σ I F → Builder σ I F × Bool
  | [], b => (b, true)
  | i :: is, b =>
    let head := processInstruction m r i b
    let tail := processInstructions is head.1
    (tail.1, head.2 && tail.2)

/-- The result says whether the fixpoint is reached. -/
def processFunction (f : F) (b : Builder σ I F) : Builder σ I F × Bool :=
  if m.isDeclaration f || f ∈ b.visitedFunctions then (b, true)
  else processInstructions m r (m.instructions f)
    { b with visitedFunctions := insert f b.visitedFunctions, cg := b.cg.addFunctionVertex f }

/-- The result says whether new targets were found; `none` is a fatal error. -/
def constructDynamicCall (cs : I) (b : Builder σ I F) : Option (Builder σ I F × Bool) :=
  match m.calledOperand cs, b.cg.calleesAt cs, b.indirectCalls.get? cs with
  | some _, some callees, some numIndCalls =>
    let possibleTargets := r.resolveIndirectCall b.res cs
    let b := { b with res := possibleTargets.2 }
    if numIndCalls ≥ possibleTargets.1.1.length then some (b, false)
    else
      let newTargets : FunctionSet F :=
        ⟨possibleTargets.1.1.filter (fun f => f ∉ callees), possibleTargets.1.2.filter _⟩
      let b := { b with indirectCalls := b.indirectCalls.set cs possibleTargets.1.1.length }
      some (addTargets cs newTargets.1 (handlePossibleTargets r cs newTargets b), true)
  | _, _, _ => none

/-- The loop over `FunctionWL`. -/
def processFunctionWL : ℕ → Builder σ I F → Option (Builder σ I F × Bool)
  | 0, _ => none
  | fuel + 1, b =>
    match b.functionWL with
    | [] => some (b, true)
    | f :: wl =>
      let processed := processFunction m r f { b with functionWL := wl }
      (processFunctionWL fuel processed.1).map fun rest => (rest.1, processed.2 && rest.2)

variable (order : IterationOrder I)

/-- The outer loop of `buildCallGraph`. -/
def buildLoop (requiresIndirectCallsFixpoint : Bool) : ℕ → Builder σ I F → Option (Builder σ I F)
  | 0, _ => none
  | fuel + 1, b =>
    (processFunctionWL m r (fuel + 1) b).bind fun worked =>
      if requiresIndirectCallsFixpoint then
        (ChangePass.runAny (constructDynamicCall m r)
          (order.order worked.1.indirectCalls.keys) worked.1).bind
          fun passed =>
            if worked.2 && !passed.2 then some passed.1
            else buildLoop requiresIndirectCallsFixpoint fuel passed.1
      else if worked.2 then some worked.1
      else buildLoop requiresIndirectCallsFixpoint fuel worked.1

def buildCallGraph (soundness : Soundness) (fuel : ℕ) (b : Builder σ I F) : Option (Builder σ I F) :=
  buildLoop m r order (soundness ≠ .unsound && r.mutatesHelperAnalysisInformation) fuel b

end Model

/-! ### What the steps keep -/

section Invariant

variable {σ I F : Type*} [DecidableEq I] [DecidableEq F]

namespace CallGraph

/-- Both tables of the graph hold the same edges. -/
def EdgesAgree (cg : CallGraph I F) : Prop := ∀ cs f, (cg.callers f).count cs = (cg.callees cs).count f

variable {cg : CallGraph I F}

omit [DecidableEq I] [DecidableEq F] in
theorem callees_of_some {cs : I} {l : List F} (h : cg.calleesAt cs = some l) : cg.callees cs = l := by
  rw [callees, h, Option.getD_some]

omit [DecidableEq I] [DecidableEq F] in
/-- A callee is in the list of its call site. -/
theorem exists_calleesAt {cs : I} {f : F} (hf : f ∈ cg.callees cs) : ∃ l, cg.calleesAt cs = some l ∧ f ∈ l := by
  cases hat : cg.calleesAt cs with
  | none => simp [callees, hat] at hf
  | some l => exact ⟨l, rfl, callees_of_some hat ▸ hf⟩

theorem EdgesAgree.addFunctionVertex (h : cg.EdgesAgree) (f : F) : (cg.addFunctionVertex f).EdgesAgree := by
  intro cs g
  rw [← show cg.callees cs = (cg.addFunctionVertex f).callees cs from rfl, ← h cs g]
  by_cases hg : g = f
  · simp [CallGraph.addFunctionVertex, callers, hg]
  · simp [CallGraph.addFunctionVertex, callers, hg]

theorem EdgesAgree.addInstructionVertex (h : cg.EdgesAgree) (i : I) :
    (cg.addInstructionVertex i).EdgesAgree := by
  intro cs g
  rw [← show cg.callers g = (cg.addInstructionVertex i).callers g from rfl, h cs g]
  by_cases hcs : cs = i
  · simp [CallGraph.addInstructionVertex, callees, hcs]
  · simp [CallGraph.addInstructionVertex, callees, hcs]

theorem EdgesAgree.addCallEdge (h : cg.EdgesAgree) (i : I) (f : F) : (cg.addCallEdge i f).EdgesAgree := by
  intro cs g
  have hcallers : (cg.addCallEdge i f).callers g = if g = f then cg.callers f ++ [i] else cg.callers g := by
    by_cases hg : g = f <;> simp [CallGraph.addCallEdge, callers, hg]
  have hcallees : (cg.addCallEdge i f).callees cs = if cs = i then cg.callees i ++ [f] else cg.callees cs := by
    by_cases hcs : cs = i <;> simp [CallGraph.addCallEdge, callees, hcs]
  rw [hcallers, hcallees]
  by_cases hg : g = f <;> by_cases hcs : cs = i <;>
    simp [hg, hcs, h cs g, h i f, h i g, h cs f, Ne.symm]

end CallGraph

/-- The callees that the resolver returns. -/
def resolved (r : Resolver σ I F) (s : σ) (cs : I) : List F := (r.resolveIndirectCall s cs).1.1

/-- The results only grow, and only through `handlePossibleTargets`. -/
structure Resolver.Monotone (r : Resolver σ I F) : Prop where
  resolve : ∀ s cs cs' f, f ∈ resolved r (r.resolveIndirectCall s cs).2 cs' ↔ f ∈ resolved r s cs'
  handle : ∀ s cs targets cs' f,
    f ∈ resolved r s cs' → f ∈ resolved r (r.handlePossibleTargets s cs targets) cs'

variable (m : Module I F) (r : Resolver σ I F)

/-- `f` has been processed, or it waits for that, or it has no body. -/
def Pending (b : Builder σ I F) (f : F) : Prop :=
  m.isDeclaration f ∨ f ∈ b.visitedFunctions ∨ f ∈ b.functionWL

structure Inv (b : Builder σ I F) : Prop where
  pending : ∀ cs l, b.cg.calleesAt cs = some l → ∀ f ∈ l, Pending m b f
  located : ∀ cs l, b.cg.calleesAt cs = some l → ∃ f ∈ b.visitedFunctions, cs ∈ m.instructions f
  static : ∀ cs l, b.cg.calleesAt cs = some l → ∀ f, m.calledOperand cs = some (.function f) → l = [f]
  dynamic : ∀ cs l, b.cg.calleesAt cs = some l → m.calledOperand cs = some .value →
    b.indirectCalls.get? cs = some l.length ∧ l.Nodup ∧ ∀ f ∈ l, f ∈ resolved r b.res cs
  indirect : ∀ cs n, b.indirectCalls.get? cs = some n →
    m.calledOperand cs = some .value ∧ b.cg.calleesAt cs ≠ none
  handled : ∀ cs l, b.cg.calleesAt cs = some l → ∀ f ∈ l,
    ∃ targets, (cs, targets) ∈ b.handled ∧ f ∈ targets.1
  agree : b.cg.EdgesAgree

/-- What a step may not take back. -/
structure Grows (b b' : Builder σ I F) : Prop where
  visited : b.visitedFunctions ⊆ b'.visitedFunctions
  edges : ∀ cs l, b.cg.calleesAt cs = some l → ∃ l', b'.cg.calleesAt cs = some l' ∧ ∀ f ∈ l, f ∈ l'
  pending : ∀ f, Pending m b f → Pending m b' f

variable {m r}

omit [DecidableEq I] [DecidableEq F] in
theorem Grows.refl (b : Builder σ I F) : Grows m b b :=
  ⟨fun _ h => h, fun _ l h => ⟨l, h, fun _ hf => hf⟩, fun _ h => h⟩

omit [DecidableEq I] [DecidableEq F] in
theorem Grows.trans {b₁ b₂ b₃ : Builder σ I F} (h : Grows m b₁ b₂) (h' : Grows m b₂ b₃) :
    Grows m b₁ b₃ where
  visited := fun _ hf => h'.visited (h.visited hf)
  edges cs l hl := by
    obtain ⟨l', hl', hsub⟩ := h.edges cs l hl
    obtain ⟨l'', hl'', hsub'⟩ := h'.edges cs l' hl'
    exact ⟨l'', hl'', fun f hf => hsub' f (hsub f hf)⟩
  pending := fun f hf => h'.pending f (h.pending f hf)

omit [DecidableEq I] [DecidableEq F] in
theorem Grows.callees {b b' : Builder σ I F} (h : Grows m b b') (cs : I) {f : F}
    (hf : f ∈ b.cg.callees cs) : f ∈ b'.cg.callees cs := by
  obtain ⟨l, hl, hmem⟩ := CallGraph.exists_calleesAt hf
  obtain ⟨l', hl', hsub⟩ := h.edges cs l hl
  rw [CallGraph.callees_of_some hl']
  exact hsub f hmem

/-! #### Adding targets -/

section AddTargets

variable {cs : I} {b : Builder σ I F}

@[simp] theorem addTargets_visited (cs : I) (ts : List F) (b : Builder σ I F) :
    (addTargets cs ts b).visitedFunctions = b.visitedFunctions := by
  induction ts generalizing b with
  | nil => rfl
  | cons f ts ih => exact ih _

@[simp] theorem addTargets_indirectCalls (cs : I) (ts : List F) (b : Builder σ I F) :
    (addTargets cs ts b).indirectCalls = b.indirectCalls := by
  induction ts generalizing b with
  | nil => rfl
  | cons f ts ih => exact ih _

@[simp] theorem addTargets_res (cs : I) (ts : List F) (b : Builder σ I F) :
    (addTargets cs ts b).res = b.res := by
  induction ts generalizing b with
  | nil => rfl
  | cons f ts ih => exact ih _

@[simp] theorem addTargets_handled (cs : I) (ts : List F) (b : Builder σ I F) :
    (addTargets cs ts b).handled = b.handled := by
  induction ts generalizing b with
  | nil => rfl
  | cons f ts ih => exact ih _

@[simp] theorem addTargets_functionWL (cs : I) (ts : List F) (b : Builder σ I F) :
    (addTargets cs ts b).functionWL = ts.reverse ++ b.functionWL := by
  induction ts generalizing b with
  | nil => rfl
  | cons f ts ih => exact (ih _).trans (by simp)

theorem addTargets_calleesAt (ts : List F) {l : List F} (h : b.cg.calleesAt cs = some l) :
    (addTargets cs ts b).cg.calleesAt = Function.update b.cg.calleesAt cs (some (l ++ ts)) := by
  induction ts generalizing b l with
  | nil => simp [addTargets, ← h]
  | cons f ts ih =>
    have hl : (b.cg.addCallEdge cs f).calleesAt cs = some (l ++ [f]) := by
      simp [CallGraph.addCallEdge, CallGraph.callees_of_some h]
    refine (ih hl).trans ?_
    simp [CallGraph.addCallEdge]

theorem addTargets_agree (ts : List F) (h : b.cg.EdgesAgree) : (addTargets cs ts b).cg.EdgesAgree := by
  induction ts generalizing b with
  | nil => exact h
  | cons f ts ih => exact ih (h.addCallEdge cs f)

end AddTargets

/-! #### Reported targets -/

/-- From `b` to `b'` the targets of a call were reported and added. -/
structure Reported (r : Resolver σ I F) (cs : I) (targets : FunctionSet F) (b b' : Builder σ I F) :
    Prop where
  visited : b'.visitedFunctions = b.visitedFunctions
  functionWL : b'.functionWL = targets.1.reverse ++ b.functionWL
  handled : b'.handled = (cs, targets) :: b.handled
  calleesAt : b'.cg.calleesAt = Function.update b.cg.calleesAt cs (some (b.cg.callees cs ++ targets.1))
  agree : b.cg.EdgesAgree → b'.cg.EdgesAgree
  indirectCalls : ∀ cs', cs' ≠ cs → b'.indirectCalls.get? cs' = b.indirectCalls.get? cs'
  resolved : ∀ cs' f, f ∈ resolved r b.res cs' → f ∈ resolved r b'.res cs'

namespace Reported

variable {cs : I} {targets : FunctionSet F} {b b' : Builder σ I F}

theorem calleesAt_self (h : Reported r cs targets b b') :
    b'.cg.calleesAt cs = some (b.cg.callees cs ++ targets.1) := by
  rw [h.calleesAt, Function.update_self]

theorem calleesAt_ne (h : Reported r cs targets b b') {cs' : I} (hne : cs' ≠ cs) :
    b'.cg.calleesAt cs' = b.cg.calleesAt cs' := by
  rw [h.calleesAt, Function.update_of_ne hne]

theorem pending (h : Reported r cs targets b b') {f : F} (hf : Pending m b f ∨ f ∈ targets.1) :
    Pending m b' f := by
  simp only [Pending, h.visited, h.functionWL, List.mem_append, List.mem_reverse] at hf ⊢
  tauto

theorem grows (h : Reported r cs targets b b') : Grows m b b' where
  visited := by rw [h.visited]
  edges cs' l hl := by
    by_cases hcs : cs' = cs
    · subst hcs
      refine ⟨_, h.calleesAt_self, fun f hf => List.mem_append_left _ ?_⟩
      rwa [CallGraph.callees_of_some hl]
    · exact ⟨l, (h.calleesAt_ne hcs).trans hl, fun f hf => hf⟩
  pending f hf := h.pending (Or.inl hf)

/-- The invariant lasts if it holds of the call itself. -/
theorem inv (h : Reported r cs targets b b') (hb : Inv m r b)
    (located : ∃ f ∈ b.visitedFunctions, cs ∈ m.instructions f)
    (static : ∀ f, m.calledOperand cs = some (.function f) → b.cg.callees cs ++ targets.1 = [f])
    (dynamic : m.calledOperand cs = some .value →
      b'.indirectCalls.get? cs = some (b.cg.callees cs ++ targets.1).length ∧
        (b.cg.callees cs ++ targets.1).Nodup ∧ ∀ f ∈ targets.1,
          f ∈ LLVMBasedCallGraphBuilder.resolved r b'.res cs)
    (indirect : ∀ n, b'.indirectCalls.get? cs = some n → m.calledOperand cs = some .value) :
    Inv m r b' where
  pending cs' l hl f hf := by
    by_cases hcs : cs' = cs
    · subst hcs
      rw [h.calleesAt_self, Option.some.injEq] at hl
      subst hl
      refine h.pending ((List.mem_append.1 hf).imp_left fun hf => ?_)
      obtain ⟨l, hl, hmem⟩ := CallGraph.exists_calleesAt hf
      exact hb.pending cs' l hl f hmem
    · rw [h.calleesAt_ne hcs] at hl
      exact h.pending (Or.inl (hb.pending cs' l hl f hf))
  located cs' l hl := by
    rw [h.visited]
    by_cases hcs : cs' = cs
    · exact hcs ▸ located
    · exact hb.located cs' l ((h.calleesAt_ne hcs).symm.trans hl)
  static cs' l hl f hf := by
    by_cases hcs : cs' = cs
    · subst hcs
      rw [h.calleesAt_self, Option.some.injEq] at hl
      exact hl ▸ static f hf
    · exact hb.static cs' l ((h.calleesAt_ne hcs).symm.trans hl) f hf
  dynamic cs' l hl hop := by
    by_cases hcs : cs' = cs
    · subst hcs
      rw [h.calleesAt_self, Option.some.injEq] at hl
      subst hl
      obtain ⟨hcount, hnodup, hmem⟩ := dynamic hop
      refine ⟨hcount, hnodup, fun f hf => ?_⟩
      rcases List.mem_append.1 hf with hf | hf
      · obtain ⟨l, hl, hmem⟩ := CallGraph.exists_calleesAt hf
        exact h.resolved cs' f ((hb.dynamic cs' l hl hop).2.2 f hmem)
      · exact hmem f hf
    · obtain ⟨hcount, hnodup, hmem⟩ := hb.dynamic cs' l ((h.calleesAt_ne hcs).symm.trans hl) hop
      exact ⟨(h.indirectCalls cs' hcs).trans hcount, hnodup, fun f hf => h.resolved cs' f (hmem f hf)⟩
  indirect cs' n hn := by
    by_cases hcs : cs' = cs
    · subst hcs
      exact ⟨indirect n hn, by simp [h.calleesAt_self]⟩
    · rw [h.calleesAt_ne hcs]
      exact hb.indirect cs' n ((h.indirectCalls cs' hcs).symm.trans hn)
  handled cs' l hl f hf := by
    rw [h.handled]
    by_cases hcs : cs' = cs
    · subst hcs
      rw [h.calleesAt_self, Option.some.injEq] at hl
      subst hl
      rcases List.mem_append.1 hf with hf | hf
      · obtain ⟨l, hl, hmem⟩ := CallGraph.exists_calleesAt hf
        obtain ⟨ts, hts, hf⟩ := hb.handled cs' l hl f hmem
        exact ⟨ts, List.mem_cons_of_mem _ hts, hf⟩
      · exact ⟨targets, List.mem_cons_self, hf⟩
    · obtain ⟨ts, hts, hf⟩ := hb.handled cs' l ((h.calleesAt_ne hcs).symm.trans hl) f hf
      exact ⟨ts, List.mem_cons_of_mem _ hts, hf⟩
  agree := h.agree hb.agree

end Reported

/-- Reporting and adding targets, for a call with a vertex. -/
theorem reported_addTargets (cs : I) (targets : FunctionSet F) {b b₁ : Builder σ I F} {l : List F}
    (hl : b₁.cg.calleesAt = Function.update b.cg.calleesAt cs (some l)) (hcallees : b.cg.callees cs = l)
    (visited : b₁.visitedFunctions = b.visitedFunctions) (functionWL : b₁.functionWL = b.functionWL)
    (handled : b₁.handled = (cs, targets) :: b.handled) (agree : b.cg.EdgesAgree → b₁.cg.EdgesAgree)
    (indirectCalls : ∀ cs', cs' ≠ cs → b₁.indirectCalls.get? cs' = b.indirectCalls.get? cs')
    (resolved : ∀ cs' f, f ∈ resolved r b.res cs' → f ∈ LLVMBasedCallGraphBuilder.resolved r b₁.res cs') :
    Reported r cs targets b (addTargets cs targets.1 b₁) where
  visited := by rw [addTargets_visited, visited]
  functionWL := by rw [addTargets_functionWL, functionWL]
  handled := by rw [addTargets_handled, handled]
  calleesAt := by
    rw [addTargets_calleesAt targets.1 (l := l) (by rw [hl, Function.update_self]), hl, hcallees,
      Function.update_idem]
  agree h := addTargets_agree targets.1 (agree h)
  indirectCalls := by rwa [addTargets_indirectCalls]
  resolved := by rwa [addTargets_res]

/-! #### One instruction, one indirect call -/

section Steps

variable {cs : I} {b b' : Builder σ I F}

/-- The targets of a call that is processed for the first time. -/
def InitialTargets (r : Resolver σ I F) (s : σ) (cs : I) (targets : List F) : CalledOperand F → Prop
  | .function f => targets = [f]
  | .inlineAsm => targets = []
  | .value => targets = resolved r s cs

theorem processInstruction_spec (hr : r.Monotone) {i : I} {operand : CalledOperand F}
    (hop : m.calledOperand i = some operand) (b : Builder σ I F) :
    ∃ targets, InitialTargets r b.res i targets.1 operand ∧
      Reported r i targets b (processInstruction m r i b).1 ∧
      (operand = .value → (processInstruction m r i b).1.indirectCalls.get? i = some targets.1.length) ∧
      (operand ≠ .value → (processInstruction m r i b).1.indirectCalls = b.indirectCalls) := by
  simp only [processInstruction, hop]
  cases operand with
  | function f =>
    refine ⟨⟨[f], List.nodup_singleton f⟩, rfl, ?_, by simp,
      fun _ => by simp [handlePossibleTargets, fillPossibleTargets]⟩
    exact reported_addTargets i _ rfl rfl rfl rfl rfl (·.addInstructionVertex i) (fun _ _ => rfl)
      (fun cs' g hg => hr.handle _ _ _ cs' g hg)
  | inlineAsm =>
    refine ⟨⟨[], List.nodup_nil⟩, rfl, ?_, by simp,
      fun _ => by simp [handlePossibleTargets, fillPossibleTargets]⟩
    exact reported_addTargets i _ rfl rfl rfl rfl rfl (·.addInstructionVertex i) (fun _ _ => rfl)
      (fun cs' g hg => hr.handle _ _ _ cs' g hg)
  | value =>
    refine ⟨(r.resolveIndirectCall b.res i).1, rfl, ?_, fun _ => ?_, by simp⟩
    · exact reported_addTargets i _ rfl rfl rfl rfl rfl (·.addInstructionVertex i)
        (fun cs' hne => VecMap.get?_set_ne _ (Ne.symm hne) _)
        (fun cs' g hg => hr.handle _ _ _ cs' g ((hr.resolve _ _ _ _).2 hg))
    · simp [handlePossibleTargets, fillPossibleTargets]

/-- An instruction of a visited function that has not been processed. -/
theorem processInstruction_inv (hr : r.Monotone) (hb : Inv m r b) {f : F} (hf : f ∈ b.visitedFunctions)
    {i : I} (hi : i ∈ m.instructions f) (hfresh : b.cg.calleesAt i = none) :
    Inv m r (processInstruction m r i b).1 ∧ Grows m b (processInstruction m r i b).1 ∧
      (processInstruction m r i b).1.visitedFunctions = b.visitedFunctions ∧
      (m.calledOperand i ≠ none → (processInstruction m r i b).1.cg.calleesAt i ≠ none) ∧
      ∀ i', i' ≠ i → (processInstruction m r i b).1.cg.calleesAt i' = b.cg.calleesAt i' := by
  cases hop : m.calledOperand i with
  | none =>
    have heq : (processInstruction m r i b).1 = b := by simp [processInstruction, hop]
    rw [heq]
    exact ⟨hb, Grows.refl b, rfl, fun h => absurd rfl h, fun _ _ => rfl⟩
  | some operand =>
    obtain ⟨targets, htargets, hrep, hvalue, hother⟩ := processInstruction_spec hr hop b
    have hcallees : b.cg.callees i = [] := by rw [CallGraph.callees, hfresh, Option.getD_none]
    have hnone : b.indirectCalls.get? i = none := by
      rw [Option.eq_none_iff_forall_ne_some]
      exact fun n hn => (hb.indirect i n hn).2 hfresh
    refine ⟨hrep.inv hb ⟨f, hf, hi⟩ ?_ ?_ ?_, hrep.grows, hrep.visited, fun _ => ?_,
      fun i' hne => hrep.calleesAt_ne hne⟩
    · intro g hg
      cases hop.symm.trans hg
      rwa [hcallees, List.nil_append]
    · intro hv
      cases hop.symm.trans hv
      rw [hcallees, List.nil_append]
      refine ⟨hvalue rfl, targets.2, fun g hg => hrep.resolved i g ?_⟩
      rwa [← show targets.1 = resolved r b.res i from htargets]
    · intro n hn
      by_contra hv
      rw [hother (fun h => hv (hop.trans (congrArg some h))), hnone] at hn
      cases hn
    · simp [hrep.calleesAt_self]

theorem processInstructions_inv (hr : r.Monotone) {f : F} (is : List I) (hb : Inv m r b)
    (hf : f ∈ b.visitedFunctions)
    (his : ∀ i ∈ is, i ∈ m.instructions f ∧ b.cg.calleesAt i = none) (hnodup : is.Nodup) :
    Inv m r (processInstructions m r is b).1 ∧ Grows m b (processInstructions m r is b).1 ∧
      (processInstructions m r is b).1.visitedFunctions = b.visitedFunctions ∧
      ∀ i ∈ is, m.calledOperand i ≠ none → (processInstructions m r is b).1.cg.calleesAt i ≠ none := by
  induction is generalizing b with
  | nil => exact ⟨hb, Grows.refl b, rfl, by simp⟩
  | cons i is ih =>
    obtain ⟨hi, his⟩ := List.forall_mem_cons.1 his
    obtain ⟨hnot, hnodup⟩ := List.nodup_cons.1 hnodup
    obtain ⟨hinv, hgrows, hvis, hvertex, hother⟩ := processInstruction_inv hr hb hf hi.1 hi.2
    have hne : ∀ i' ∈ is, i' ≠ i := fun i' hi' heq => hnot (heq ▸ hi')
    obtain ⟨hinv', hgrows', hvis', hvertices⟩ := ih hinv (hvis ▸ hf)
      (fun i' hi' => ⟨(his i' hi').1, (hother i' (hne i' hi')).trans (his i' hi').2⟩) hnodup
    refine ⟨hinv', hgrows.trans hgrows', hvis'.trans hvis,
      List.forall_mem_cons.2 ⟨fun hop => ?_, hvertices⟩⟩
    obtain ⟨l, hl⟩ := Option.ne_none_iff_exists'.1 (hvertex hop)
    obtain ⟨l', hl', -⟩ := hgrows'.edges i l hl
    simp [hl', processInstructions]

omit [DecidableEq I] in
theorem perm_append_filter {l l' : List F} (hl : l.Nodup) (hl' : l'.Nodup) (hsub : ∀ f ∈ l, f ∈ l') :
    (l ++ l'.filter (fun f => f ∉ l)).Perm l' := by
  refine (List.perm_ext_iff_of_nodup (hl.append (hl'.filter _) ?_) hl').2 fun f => ?_
  · intro f hf hf'
    simp [hf] at hf'
  · by_cases hf : f ∈ l
    · simp [hf, hsub f hf]
    · simp [hf]

/-- An indirect call with a vertex: nothing but the state of the resolver changes, or it gets new edges. -/
theorem constructDynamicCall_spec (hr : r.Monotone) (hb : Inv m r b) {l : List F}
    (hop : m.calledOperand cs = some .value)
    (hl : b.cg.calleesAt cs = some l) :
    ∃ b' changed, constructDynamicCall m r cs b = some (b', changed) ∧ Inv m r b' ∧ Grows m b b' ∧
      b'.visitedFunctions = b.visitedFunctions ∧
      (changed = true → ∃ f ∈ b'.cg.callees cs, f ∉ l) ∧
      (changed = false → b' = { b with res := b'.res } ∧
        (∀ cs' f, f ∈ resolved r b'.res cs' ↔ f ∈ resolved r b.res cs') ∧
        ∀ f ∈ resolved r b.res cs, f ∈ l) := by
  obtain ⟨hcount, hnodup, hmem⟩ := hb.dynamic cs l hl hop
  by_cases hle : (r.resolveIndirectCall b.res cs).1.1.length ≤ l.length
  · refine ⟨{ b with res := (r.resolveIndirectCall b.res cs).2 }, false, ?_, ?_, ?_, rfl, by simp,
    fun _ => ⟨rfl, ?_, ?_⟩⟩
    · simp [constructDynamicCall, hop, hl, hcount, hle]
    · exact { hb with
        dynamic := fun cs' l hl hop => ⟨(hb.dynamic cs' l hl hop).1, (hb.dynamic cs' l hl hop).2.1,
          fun f hf => (hr.resolve _ _ _ _).2 ((hb.dynamic cs' l hl hop).2.2 f hf)⟩ }
    · exact ⟨fun _ h => h, fun _ l h => ⟨l, h, fun _ hf => hf⟩, fun _ h => h⟩
    · exact fun cs' f => hr.resolve _ _ _ _
    · -- a duplicate-free sublist that is not shorter has all elements
      have hperm := (hnodup.subperm hmem).perm_of_length_le hle
      exact fun f hf => hperm.mem_iff.2 hf
  · set newTargets : FunctionSet F :=
      ⟨(r.resolveIndirectCall b.res cs).1.1.filter (fun f => f ∉ l),
        (r.resolveIndirectCall b.res cs).1.2.filter _⟩
      with hnew
    set b₁ := handlePossibleTargets r cs newTargets
      { b with res := (r.resolveIndirectCall b.res cs).2
               indirectCalls := b.indirectCalls.set cs (r.resolveIndirectCall b.res cs).1.1.length } with hb₁
    have hcallees : b.cg.callees cs = l := CallGraph.callees_of_some hl
    have hrep : Reported r cs newTargets b (addTargets cs newTargets.1 b₁) :=
      reported_addTargets cs newTargets (by rw [← hl, Function.update_eq_self]; rfl) hcallees rfl rfl rfl
        (fun h => h)
        (fun cs' hne => VecMap.get?_set_ne _ (Ne.symm hne) _)
        (fun cs' f hf => hr.handle _ _ _ cs' f ((hr.resolve _ _ _ _).2 hf))
    have hperm : (l ++ newTargets.1).Perm (resolved r b.res cs) :=
      perm_append_filter hnodup (r.resolveIndirectCall b.res cs).1.2 hmem
    refine ⟨addTargets cs newTargets.1 b₁, true, ?_, ?_, hrep.grows, hrep.visited, fun _ => ?_, by simp⟩
    · simp [constructDynamicCall, hop, hl, hcount, hle, hb₁, hnew]
    · refine hrep.inv hb (hb.located cs l hl) (fun f hf => absurd (hop.symm.trans hf) (by simp))
        (fun _ => ?_) (fun _ _ => hop)
      rw [hcallees]
      refine ⟨?_, hperm.nodup_iff.2 (r.resolveIndirectCall b.res cs).1.2, fun f hf => hrep.resolved cs f ?_⟩
      · rw [addTargets_indirectCalls, hperm.length_eq]
        exact VecMap.get?_set_self _ _ _
      · exact List.mem_of_mem_filter hf
    · -- more targets than recorded: one of them is new
      by_contra hall
      push Not at hall
      refine hle ((r.resolveIndirectCall b.res cs).1.2.subperm fun f hf => ?_).length_le
      have hf' : f ∈ l ++ newTargets.1 := hperm.mem_iff.2 hf
      exact hall f (by rwa [CallGraph.callees_of_some hrep.calleesAt_self, hcallees])

end Steps

end Invariant

end Phasar.LLVMBasedCallGraphBuilder
