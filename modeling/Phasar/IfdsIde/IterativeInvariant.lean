import Phasar.IfdsIde.IterativeIDESolver
import Phasar.IfdsIde.Tabulation
import Phasar.Lib.LoopRule

/-!
# The invariant of the iterative solver

What holds between two actions of `IterativeIDESolver`, relative to the history `H` of all path edges
ever stored: the garbage collector removes jump functions, but nothing that it removes would ever
lead to a new path edge.

* `rules`: the tabulation rules; with the summary table, return flow mixes the exits of a function;
* `Live`: the pairs of a start fact and a function that may still get new path edges;
* `Open`, `Starting`: what is being processed, and so exempt from parts of the invariant;
* `Inv`, `Inv.store`, `Inv.storeAll`: the invariant; storing derivable path edges keeps it.
-/

set_option linter.unusedSectionVars false

namespace Phasar

namespace IterativeIDESolver

open Deduction

variable {N F D E L : Type*}

/-! ### Pairs of a start fact and a function -/

/-- The start fact and the function of a path edge. -/
def pairOf (G : ICFG N F) (k : PathEdge N D) : D × F := (k.dSource, G.getFunctionOf k.target)

/-- The pair that makes a registered call. -/
def caller (G : ICFG N F) (j : InterPropagationJob N F D E) : D × F :=
  (j.sourceFact, G.getFunctionOf j.callSite)

/-- The pair that a registered call enters. -/
def entered (j : InterPropagationJob N F D E) : D × F := (j.factInCallee, j.callee)

/-- What is being processed: path edges taken from the work list and pairs taken from `CallWL`. -/
structure Open (N F D E : Type*) where
  key : PathEdge N D → E → Prop
  call : D × F → Prop

/-- Nothing is being processed. -/
def Open.nothing : Open N F D E := ⟨fun _ _ => False, fun _ => False⟩

/-- One path edge is being processed. -/
def Open.taking (k : PathEdge N D) (f : E) : Open N F D E :=
  ⟨fun k' f' => k' = k ∧ f' = f, fun _ => False⟩

/-- The calls that are being started: a job that is not linked yet, and jobs whose callee may not be
entered at all its start points yet. -/
structure Starting (N F D E : Type*) where
  unlinked : InterPropagationJob N F D E → Prop
  entering : InterPropagationJob N F D E → Prop

/-- No call is being started. -/
def Starting.nothing : Starting N F D E := ⟨fun _ => False, fun _ => False⟩

/-- The pairs with pending work, and the pairs that wait for a live pair to return. -/
inductive Live (G : ICFG N F) (O : Open N F D E) (S : IterativeIDESolver N F D E) : D × F → Prop
  | pending {k f} : (k, f) ∈ S.workList → Live G O S (pairOf G k)
  | callWL {p} : p ∈ S.callWL → Live G O S p
  | key {k f} : O.key k f → Live G O S (pairOf G k)
  | call {p} : O.call p → Live G O S p
  | caller {j} : j ∈ S.allInterPropagations → Live G O S (entered j) → Live G O S (caller G j)

variable {G : ICFG N F} {O : Open N F D E} {S S' : IterativeIDESolver N F D E}

theorem Live.mono {O' : Open N F D E} (hw : ∀ i ∈ S.workList, i ∈ S'.workList ∨ O'.key i.1 i.2)
    (hc : ∀ p ∈ S.callWL, p ∈ S'.callWL ∨ O'.call p)
    (hj : ∀ j ∈ S.allInterPropagations, j ∈ S'.allInterPropagations)
    (hk : ∀ k f, O.key k f → O'.key k f) (hp : ∀ p, O.call p → O'.call p) {p : D × F}
    (h : Live G O S p) : Live G O' S' p := by
  induction h with
  | pending hm => rcases hw _ hm with h | h
                  · exact .pending h
                  · exact .key h
  | callWL hm => rcases hc _ hm with h | h
                 · exact .callWL h
                 · exact .call h
  | key h => exact .key (hk _ _ h)
  | call h => exact .call (hp _ h)
  | caller hm _ ih => exact .caller (hj _ hm) ih

/-- Only the work list, the rescheduled calls, and the jobs matter. -/
theorem Live.congr (hw : S'.workList = S.workList) (hc : S'.callWL = S.callWL)
    (hj : S'.allInterPropagations = S.allInterPropagations) {p : D × F} (h : Live G O S p) : Live G O S' p :=
  h.mono (fun _ hi => Or.inl (hw ▸ hi)) (fun _ hp => Or.inl (hc ▸ hp)) (fun _ hj' => hj ▸ hj')
    (fun _ _ hk => hk) fun _ hp => hp

theorem Live.of_nothing {p : D × F} (h : Live G .nothing S p) : Live G O S p :=
  h.mono (fun _ => Or.inl) (fun _ => Or.inl) (fun _ hj => hj) (fun _ _ => False.elim) fun _ => False.elim

/-! ### The rules and the setting -/

/-- The pairs of an exit that a fact reaches and an exit whose return flow is applied to it. -/
def mixedExits (P : IterativeProblem N F D E L) (e e' : N) : Prop :=
  P.config.useEndSummaryTab = true ∨ e = e'

variable [DecidableEq D]

theorem stored_update [DecidableEq N] (S : IterativeIDESolver N F D E) (k : PathEdge N D) (y : E)
    (k' : PathEdge N D) :
    ((Function.update S.jumpFunctions k.target
      ((S.jumpFunctions k.target).set (k.dSource, k.dTarget) y)) k'.target).get?
        (k'.dSource, k'.dTarget) = if k' = k then some y else S.stored k' := by
  obtain ⟨d₁, n, d₂⟩ := k
  obtain ⟨d₁', n', d₂'⟩ := k'
  by_cases hn : n' = n
  · subst hn
    simp [stored, VecMap.get?_set, eq_comm]
  · simp [stored, hn]

/-- The rules that the solver saturates. -/
abbrev rules (P : IterativeProblem N F D E L) (G : ICFG N F) :
    Deduction.Rules (PathEdge N D) E :=
  tabulationRules P.cachedFlows P.toEdgeFunctions P.extendSummary G (mixedExits P) P.IsSeed

/-- The weights that are not stored. -/
abbrev dropped (P : IterativeProblem N F D E L) : E → Prop := fun x => P.isAllTop x = true

/-- The runs considered: lawful edge functions; with the garbage collector in the mode `Enabled`, a
single one that is not all-top. -/
structure Setting [SemilatticeSup E] (P : IterativeProblem N F D E L) : Prop where
  law : LawfulEdgeFunctions P.toEdgeFunctions
  sup : ∀ a b, P.combine a b = a ⊔ b
  gc : P.config.enableJumpFunctionGC = .disabled ∨
    (P.config.enableJumpFunctionGC = .enabled ∧ (∀ x y : E, x = y) ∧ ∀ x, P.isAllTop x = false)

/-- The jump functions of the instruction are never removed. -/
def Kept (P : IterativeProblem N F D E L) (G : ICFG N F) (n : N) : Prop :=
  P.config.enableJumpFunctionGC = .disabled ∨ keepAnalysisInformationAt P G false n = true

/-- The weight of a return, composed as the solver does. -/
def returnEF (P : IterativeProblem N F D E L) (j : InterPropagationJob N F D E) (e : N) (d₄ : D)
    (r : N) (d₅ : D) (s : E) : E :=
  P.extend (P.extend j.sourceEF s) (P.getReturnEdgeFunction j.callSite j.callee e d₄ r d₅)

/-- The history with what is stored on top. -/
def hist (H : PathEdge N D → Option E) (S : IterativeIDESolver N F D E) (k : PathEdge N D) :
    Option E :=
  (S.stored k).or (H k)

/-- The summary of `d₄` at the exit `e` of `g`. -/
def summaryOf (P : IterativeProblem N F D E L) (S : IterativeIDESolver N F D E)
    (H : PathEdge N D → Option E) (g : F) (d₃ : D) (e : N) (d₄ : D) : Option E :=
  if P.config.useEndSummaryTab then (S.endSummaryTab g d₃).get? d₄ else H ⟨d₃, e, d₄⟩

/-! ### The invariant -/

variable [DecidableEq N] [DecidableEq F] [DecidableEq E] [SemilatticeSup E]
variable {P : IterativeProblem N F D E L} {J : Starting N F D E} {H : PathEdge N D → Option E}

/-- The weight is dropped or covered by the history. -/
def Has (P : IterativeProblem N F D E L) (H : PathEdge N D → Option E) (k : PathEdge N D) (x : E) :
    Prop :=
  dropped P x ∨ Covers (H k) x

/-- A path edge is yet to be processed. -/
def ToDo (O : Open N F D E) (S : IterativeIDESolver N F D E) (k : PathEdge N D) (f : E) : Prop :=
  (k, f) ∈ S.workList ∨ O.key k f

/-- The return at the exit `e` of the callee of `j` has been applied to the summary `s`. -/
def Returned (P : IterativeProblem N F D E L) (G : ICFG N F) (H : PathEdge N D → Option E)
    (j : InterPropagationJob N F D E) (e : N) (d₄ : D) (s : E) : Prop :=
  ∀ r ∈ G.getReturnSitesOfCallAt j.callSite,
    ∀ d₅ ∈ P.cachedFlows.getRetFlowFunction j.callSite j.callee e r d₄,
      Has P H ⟨j.sourceFact, r, d₅⟩ (returnEF P j e d₄ r d₅ s)

/-- The invariant of the solver. -/
structure Inv (P : IterativeProblem N F D E L) (G : ICFG N F) (O : Open N F D E)
    (J : Starting N F D E) (S : IterativeIDESolver N F D E) (H : PathEdge N D → Option E) :
    Prop where
  stored_eq : ∀ {k f}, S.stored k = some f → H k = some f
  kept : ∀ {k : PathEdge N D}, Kept P G k.target → S.stored k = H k
  val : ∀ {n d}, S.valTab n d = true ↔ ∃ d₁, H ⟨d₁, n, d⟩ ≠ none
  sound : Sound (rules P G) (dropped P) H
  pending : ∀ {k f}, ToDo O S k f → f ∈ Reached (rules P G) (dropped P) k
  un : ∀ {k k' f φ}, H k = some f → (rules P G).un k k' φ → Has P H k' (φ f) ∨ ToDo O S k f
  registered : ∀ {d₁ c d₂ f g d₃}, H ⟨d₁, c, d₂⟩ = some f → Enters P.cachedFlows G c d₂ g d₃ →
    ⟨P.extend f (P.getCallEdgeFunction c d₂ g d₃), d₁, g, c, d₃⟩ ∈ S.allInterPropagations ∨
      ToDo O S ⟨d₁, c, d₂⟩ f
  job : ∀ {j}, j ∈ S.allInterPropagations → ∃ d₂ f,
    Enters P.cachedFlows G j.callSite d₂ j.callee j.factInCallee ∧
      j.sourceEF = P.extend f (P.getCallEdgeFunction j.callSite d₂ j.callee j.factInCallee) ∧
      f ∈ Reached (rules P G) (dropped P) ⟨j.sourceFact, j.callSite, d₂⟩
  start : ∀ {j}, j ∈ S.allInterPropagations →
    (∀ sp ∈ G.getStartPointsOf j.callee, Has P H ⟨j.factInCallee, sp, j.factInCallee⟩ P.identity) ∨
      J.entering j ∧ (j ∈ S.sourceFactAndFuncToInterJob j.factInCallee j.callee ∨ J.unlinked j)
  linked : ∀ {j}, j ∈ S.allInterPropagations →
    j ∈ S.sourceFactAndFuncToInterJob j.factInCallee j.callee ∨ J.unlinked j ∨
      (P.config.enableJumpFunctionGC ≠ .disabled ∧ ¬ Live G O S (entered j))
  listed : ∀ {j d g}, j ∈ S.sourceFactAndFuncToInterJob d g →
    j ∈ S.allInterPropagations ∧ entered j = (d, g)
  returned : ∀ {j e d₄ s}, j ∈ S.allInterPropagations → e ∈ G.getExitPointsOf j.callee →
    summaryOf P S H j.callee j.factInCallee e d₄ = some s →
    Returned P G H j e d₄ s ∨
      (P.config.useEndSummaryTab = false ∧ ToDo O S ⟨j.factInCallee, e, d₄⟩ s) ∨
      (entered j ∈ S.callWL ∨ O.call (entered j)) ∨ J.unlinked j
  table : P.config.useEndSummaryTab = true → ∀ {g e d₃ d₄ s}, e ∈ G.getExitPointsOf g →
    H ⟨d₃, e, d₄⟩ = some s →
    Covers ((S.endSummaryTab g d₃).get? d₄) s ∨ ToDo O S ⟨d₃, e, d₄⟩ s
  table_sound : P.config.useEndSummaryTab = true → ∀ {g d₃ d₄ s},
    (S.endSummaryTab g d₃).get? d₄ = some s →
    s ∈ supClosure {w | ∃ e ∈ G.getExitPointsOf g, Deriv (rules P G) (dropped P) ⟨d₃, e, d₄⟩ w}
  candidate : P.config.enableJumpFunctionGC ≠ .disabled → ∀ {p}, Live G O S p →
    p.2 ∈ S.candidateFunctionsForGC
  refCount : P.config.enableJumpFunctionGC ≠ .disabled → ∀ f,
    S.refCountPerFunction f =
      (S.workList.filter fun i => G.getFunctionOf i.1.target = f).length

/-! ### Storing a path edge -/

/-- The state after registering a jump function. -/
structure Registers (P : IterativeProblem N F D E L) (S S' : IterativeIDESolver N F D E)
    (k : PathEdge N D) (funId : F) (y : E) : Prop where
  stored : ∀ k', S'.stored k' = if k' = k then some y else S.stored k'
  workList : S'.workList = S.workList ++ [(k, y)]
  jobs : S'.allInterPropagations = S.allInterPropagations
  callWL : S'.callWL = S.callWL
  lists : S'.sourceFactAndFuncToInterJob = S.sourceFactAndFuncToInterJob
  summaries : S'.endSummaryTab = S.endSummaryTab
  refCount : P.config.enableJumpFunctionGC ≠ .disabled → S'.refCountPerFunction =
    Function.update S.refCountPerFunction funId (S.refCountPerFunction funId + 1)
  candidates : P.config.enableJumpFunctionGC ≠ .disabled →
    ∀ f, f ∈ S'.candidateFunctionsForGC ↔ f = funId ∨ f ∈ S.candidateFunctionsForGC

theorem registers_register (S : IterativeIDESolver N F D E) (k : PathEdge N D) (funId : F) (y : E) :
    Registers P S (register P S k funId y) k funId y := by
  unfold register
  split_ifs with h
  · exact ⟨stored_update S k y, rfl, rfl, rfl, rfl, rfl, fun hn => absurd h hn, fun hn => absurd h hn⟩
  · exact ⟨stored_update S k y, rfl, rfl, rfl, rfl, rfl, fun _ => rfl,
      fun _ f => by simp⟩

theorem valTab_register (S : IterativeIDESolver N F D E) (k : PathEdge N D) (funId : F) (y : E) :
    (register P S k funId y).valTab = S.valTab := by
  unfold register
  split_ifs <;> rfl

/-- Storing a path edge changes nothing, or registers the joined jump function. -/
theorem store_cases (hP : Setting P) (funId : F) (S : IterativeIDESolver N F D E)
    (k : PathEdge N D) (x : E) :
    (storeResultsAndPropagate P G funId S (k, x) = S ∧ Has P S.stored k x) ∨
    ∃ y, ¬ dropped P x ∧ S.stored k ≠ some y ∧ y = (S.stored k).elim x (· ⊔ x) ∧
      Registers P S (storeResultsAndPropagate P G funId S (k, x)) k funId y ∧
      ∀ n d, (storeResultsAndPropagate P G funId S (k, x)).valTab n d = true ↔
        S.valTab n d = true ∨ S.stored k = none ∧ n = k.target ∧ d = k.dTarget := by
  have hmode : P.config.enableJumpFunctionGC ≠ .enabledAggressively := by
    rcases hP.gc with h | ⟨h, -⟩ <;> simp [h]
  by_cases hx : P.isAllTop x = true
  · exact Or.inl ⟨by simp [storeResultsAndPropagate, hx], Or.inl hx⟩
  · unfold storeResultsAndPropagate
    simp only [if_neg hx]
    cases hs : (S.jumpFunctions k.target).get? (k.dSource, k.dTarget) with
    | none =>
      have hs' : S.stored k = none := hs
      refine Or.inr ⟨x, hx, by simp [hs'], by simp [hs'], ?_, fun n d => ?_⟩
      · have hset : ∀ T : IterativeIDESolver N F D E, set P G T k.target k.dTarget =
            { T with valTab := T.valTab.modify k.target k.dTarget fun _ => true } := by
          intro T
          simp [set, hmode]
        have hr := registers_register (P := P) S k funId x
        simp only [hset]
        exact ⟨hr.stored, hr.workList, hr.jobs, hr.callWL, hr.lists, hr.summaries, hr.refCount,
          hr.candidates⟩
      · simp only [set, hmode, false_and, if_false, Table.modify, valTab_register, hs', true_and]
        by_cases h : n = k.target ∧ d = k.dTarget <;> simp [h]
    | some e =>
      have hs' : S.stored k = some e := hs
      simp only
      by_cases hne : P.combine e x = e
      · rw [hP.sup] at hne
        refine Or.inl ⟨by simp [hP.sup, hne], Or.inr ?_⟩
        rw [hs', covers_some, ← hne]
        exact le_sup_right
      · refine Or.inr ⟨e ⊔ x, hx, ?_, by simp [hs'], ?_, fun n d => ?_⟩
        · rw [hs', ne_eq, Option.some.injEq]
          rw [hP.sup] at hne
          exact Ne.symm hne
        · rw [if_pos hne, hP.sup]
          exact registers_register S k funId _
        · rw [if_pos hne, valTab_register]
          simp [hs']

/-- Jump functions only rise; without a rise there is no new job on the work list. -/
structure Grows (H₀ : PathEdge N D → Option E) (S S' : IterativeIDESolver N F D E) : Prop where
  raised : ∀ {k f}, S.stored k = some f → Covers (S'.stored k) f
  hist : ∀ {k f}, hist H₀ S k = some f → Covers (hist H₀ S' k) f
  quiet : S'.stored = S.stored → S'.workList = S.workList

/-- What storing path edges with `A` changes. -/
structure Le (A : PathEdge N D → Prop) (H₀ : PathEdge N D → Option E)
    (S S' : IterativeIDESolver N F D E) : Prop extends Grows H₀ S S' where
  changed : ∀ {k f}, S'.stored k = some f → S.stored k = some f ∨ (k, f) ∈ S'.workList ∧ A k
  workList : ∀ i ∈ S.workList, i ∈ S'.workList
  jobs : ∀ j ∈ S.allInterPropagations, j ∈ S'.allInterPropagations
  lists : ∀ j d g, j ∈ S.sourceFactAndFuncToInterJob d g → j ∈ S'.sourceFactAndFuncToInterJob d g
  callWL : S'.callWL = S.callWL
  summaries : S'.endSummaryTab = S.endSummaryTab

theorem Le.refl {A : PathEdge N D → Prop} {H₀ : PathEdge N D → Option E}
    (S : IterativeIDESolver N F D E) : Le A H₀ S S where
  raised h := ⟨_, h, le_rfl⟩
  hist h := ⟨_, h, le_rfl⟩
  changed h := Or.inl h
  workList _ h := h
  jobs _ h := h
  lists _ _ _ h := h
  callWL := rfl
  summaries := rfl
  quiet _ := rfl

theorem Le.trans {A : PathEdge N D → Prop} {H₀ : PathEdge N D → Option E}
    {S₁ S₂ S₃ : IterativeIDESolver N F D E} (h : Le A H₀ S₁ S₂) (h' : Le A H₀ S₂ S₃) :
    Le A H₀ S₁ S₃ where
  raised hf := by
    obtain ⟨f₂, hf₂, hle⟩ := h.raised hf
    exact (h'.raised hf₂).mono hle
  hist hf := by
    obtain ⟨f₂, hf₂, hle⟩ := h.hist hf
    exact (h'.hist hf₂).mono hle
  changed hf := by
    rcases h'.changed hf with h₂ | h₂
    · exact (h.changed h₂).imp_right fun hw => ⟨h'.workList _ hw.1, hw.2⟩
    · exact Or.inr h₂
  workList i hi := h'.workList i (h.workList i hi)
  jobs j hj := h'.jobs j (h.jobs j hj)
  lists j d g hj := h'.lists j d g (h.lists j d g hj)
  callWL := h'.callWL.trans h.callWL
  summaries := h'.summaries.trans h.summaries
  quiet heq := by
    -- a value that rises and is what it was at the end has not changed in between
    have h₂ : S₂.stored = S₁.stored := by
      funext k
      cases hk : S₁.stored k with
      | none =>
        cases hk₂ : S₂.stored k with
        | none => rfl
        | some f₂ =>
          have := h'.raised hk₂
          rw [heq, hk] at this
          exact absurd this not_covers_none
      | some f =>
        obtain ⟨f₂, hf₂, hle⟩ := h.raised hk
        have := h'.raised hf₂
        rw [heq, hk, covers_some] at this
        rw [hf₂, le_antisymm this hle]
    rw [h'.quiet (heq.trans h₂.symm), h.quiet h₂]

theorem Le.weaken {A B : PathEdge N D → Prop} {H₀ : PathEdge N D → Option E} (h : Le A H₀ S S')
    (hAB : ∀ k, A k → B k) : Le B H₀ S S' :=
  { h with changed := fun hf => (h.changed hf).imp_right fun h => ⟨h.1, hAB _ h.2⟩ }

/-- What the history has, it keeps. -/
theorem Le.has {A : PathEdge N D → Prop} {H₀ : PathEdge N D → Option E}
    {S S' : IterativeIDESolver N F D E} (h : Le A H₀ S S') {k : PathEdge N D} {x : E}
    (hk : Has P (IterativeIDESolver.hist H₀ S) k x) :
    Has P (IterativeIDESolver.hist H₀ S') k x := by
  rcases hk with hd | ⟨f, hf, hle⟩
  · exact Or.inl hd
  · exact Or.inr ((h.hist hf).mono hle)

/-- The pair is live, or its calls are all made by live pairs and are registered: a path edge of the
pair may be found. -/
def Wakes (G : ICFG N F) (O : Open N F D E) (J : Starting N F D E) (S : IterativeIDESolver N F D E)
    (p : D × F) : Prop :=
  Live G O S p ∨ ∀ j ∈ S.allInterPropagations, entered j = p →
    Live G O S (caller G j) ∧
      (j ∈ S.sourceFactAndFuncToInterJob j.factInCallee j.callee ∨ J.unlinked j)

/-- A new job on the work list makes no other pair live than its own. -/
theorem live_push {k : PathEdge N D} {y : E} (hw : S'.workList = S.workList ++ [(k, y)])
    (hj : S'.allInterPropagations = S.allInterPropagations) (hc : S'.callWL = S.callWL)
    (hk : Wakes G O J S (pairOf G k)) {p : D × F} (h : Live G O S' p) :
    Live G O S p ∨ p = pairOf G k := by
  induction h with
  | @pending k' f hm =>
    rw [hw, List.mem_append, List.mem_singleton, Prod.mk.injEq] at hm
    rcases hm with hm | ⟨rfl, rfl⟩
    · exact Or.inl (.pending hm)
    · exact Or.inr rfl
  | callWL hm => exact Or.inl (.callWL (hc ▸ hm))
  | key h => exact Or.inl (.key h)
  | call h => exact Or.inl (.call h)
  | @caller j hm _ ih =>
    rw [hj] at hm
    rcases ih with hl | heq
    · exact Or.inl (.caller hm hl)
    · rcases hk with hl | hall
      · exact Or.inl (.caller hm (heq ▸ hl))
      · exact Or.inl (hall j hm heq).1

theorem hist_of_stored {H₀ : PathEdge N D → Option E} {k : PathEdge N D} {f : E}
    (h : S.stored k = some f) : hist H₀ S k = some f := by
  simp [hist, h]

theorem Registers.hist {k : PathEdge N D} {funId : F} {y : E} (hr : Registers P S S' k funId y)
    (H₀ : PathEdge N D → Option E) (k' : PathEdge N D) :
    hist H₀ S' k' = if k' = k then some y else hist H₀ S k' := by
  unfold IterativeIDESolver.hist
  rw [hr.stored]
  split_ifs <;> simp

/-- **Registering a reached jump function keeps the invariant.** -/
theorem Inv.register {H₀ : PathEdge N D → Option E} {k : PathEdge N D} {y : E}
    (hi : Inv P G O J S (hist H₀ S)) (hr : Registers P S S' k (G.getFunctionOf k.target) y)
    (hval : ∀ n d, S'.valTab n d = true ↔
      S.valTab n d = true ∨ S.stored k = none ∧ n = k.target ∧ d = k.dTarget)
    (hy : y ∈ Reached (rules P G) (dropped P) k) (hge : ∀ f, hist H₀ S k = some f → f ≤ y)
    (hk : P.config.enableJumpFunctionGC ≠ .disabled → Wakes G O J S (pairOf G k)) :
    Inv P G O J S' (hist H₀ S') := by
  have hH := hr.hist H₀
  have hcov : ∀ {k' x}, Covers (hist H₀ S k') x → Covers (hist H₀ S' k') x := by
    rintro k' x ⟨f, hf, hle⟩
    rw [hH]
    split_ifs with h
    · subst h
      exact covers_some.2 (hle.trans (hge f hf))
    · exact ⟨f, hf, hle⟩
  have hhas : ∀ {k' x}, Has P (hist H₀ S) k' x → Has P (hist H₀ S') k' x := fun h => h.imp_right hcov
  have htodo : ∀ {k' f}, ToDo O S k' f → ToDo O S' k' f := fun h =>
    h.imp_left fun h => by rw [hr.workList]; exact List.mem_append_left _ h
  have hself : ToDo O S' k y := Or.inl (by rw [hr.workList]; simp)
  -- what is known for the other path edges is known for all of them, up to what is to do
  have hcase : ∀ {k' f}, hist H₀ S' k' = some f → hist H₀ S k' = some f ∨ ToDo O S' k' f := by
    intro k' f hf
    rw [hH] at hf
    split_ifs at hf with h
    · subst h
      exact Or.inr (Option.some.inj hf ▸ hself)
    · exact Or.inl hf
  refine ⟨hist_of_stored, ?_, ?_, ?_, ?_, ?_, ?_, ?_, ?_, ?_, ?_, ?_, ?_, ?_, ?_, ?_⟩
  · intro k' hk'
    rw [hr.stored, hH, hi.kept hk']
  · intro n d
    rw [hval, hi.val]
    constructor
    · rintro (⟨d₁, h⟩ | ⟨-, rfl, rfl⟩)
      · refine ⟨d₁, ?_⟩
        rw [hH]
        split_ifs <;> simp_all
      · exact ⟨k.dSource, by simp [hH]⟩
    · rintro ⟨d₁, h⟩
      rw [hH] at h
      split_ifs at h with heq
      · cases hs : S.stored k with
        | none => exact Or.inr ⟨rfl, by rw [← heq], by rw [← heq]⟩
        | some f => exact Or.inl ⟨d₁, by rw [heq, hist_of_stored hs]; simp⟩
      · exact Or.inl ⟨d₁, h⟩
  · intro k' f hf
    rw [hH] at hf
    split_ifs at hf with h
    · subst h
      exact Option.some.inj hf ▸ hy
    · exact hi.sound k' f hf
  · rintro k' f (hm | ho)
    · rw [hr.workList, List.mem_append, List.mem_singleton, Prod.mk.injEq] at hm
      rcases hm with hm | ⟨rfl, rfl⟩
      · exact hi.pending (Or.inl hm)
      · exact hy
    · exact hi.pending (Or.inr ho)
  · intro k₁ k₂ f φ hf hun
    rcases hcase hf with hf | ht
    · exact (hi.un hf hun).imp hhas htodo
    · exact Or.inr ht
  · intro d₁ c d₂ f g d₃ hf hen
    rcases hcase hf with hf | ht
    · rw [hr.jobs]
      exact (hi.registered hf hen).imp_right htodo
    · exact Or.inr ht
  · intro j hj
    exact hi.job (hr.jobs ▸ hj)
  · intro j hj
    rw [hr.lists]
    exact (hi.start (hr.jobs ▸ hj)).imp_left fun h sp hsp => hhas (h sp hsp)
  · intro j hj
    rw [hr.jobs] at hj
    rw [hr.lists]
    rcases hi.linked hj with hl | hu | ⟨hgc, hl⟩
    · exact Or.inl hl
    · exact Or.inr (Or.inl hu)
    · by_cases hlive : Live G O S' (entered j)
      · -- a pair that comes alive has its jobs registered
        rcases live_push hr.workList hr.jobs hr.callWL (hk hgc) hlive with h | h
        · exact absurd h hl
        · rcases hk hgc with h' | hall
          · exact absurd (h ▸ h') hl
          · exact (hall j hj h).2.imp_right Or.inl
      · exact Or.inr (Or.inr ⟨hgc, hlive⟩)
  · intro j d g hj
    rw [hr.lists] at hj
    rw [hr.jobs]
    exact hi.listed hj
  · intro j e d₄ s hj he hs
    rw [hr.jobs] at hj
    rw [hr.callWL]
    have hold : summaryOf P S (hist H₀ S) j.callee j.factInCallee e d₄ = some s ∨
        P.config.useEndSummaryTab = false ∧ ToDo O S' ⟨j.factInCallee, e, d₄⟩ s := by
      cases ht : P.config.useEndSummaryTab with
      | true => exact Or.inl (by simpa [summaryOf, ht, hr.summaries] using hs)
      | false =>
        have hs' : hist H₀ S' ⟨j.factInCallee, e, d₄⟩ = some s := by simpa [summaryOf, ht] using hs
        exact (hcase hs').imp (fun h => by simpa [summaryOf, ht] using h) (fun h => ⟨rfl, h⟩)
    rcases hold with hold | hnew
    · rcases hi.returned hj he hold with h | h | h
      · exact Or.inl fun r hr' d₅ hd₅ => hhas (h r hr' d₅ hd₅)
      · exact Or.inr (Or.inl ⟨h.1, htodo h.2⟩)
      · exact Or.inr (Or.inr h)
    · exact Or.inr (Or.inl hnew)
  · intro ht g e d₃ d₄ s he hs
    rw [hr.summaries]
    rcases hcase hs with hs | hs
    · exact (hi.table ht he hs).imp_right htodo
    · exact Or.inr hs
  · intro ht g d₃ d₄ s hs
    rw [hr.summaries] at hs
    exact hi.table_sound ht hs
  · intro hgc p hp
    rw [hr.candidates hgc]
    rcases live_push hr.workList hr.jobs hr.callWL (hk hgc) hp with h | rfl
    · exact Or.inr (hi.candidate hgc h)
    · exact Or.inl rfl
  · intro hgc f
    rw [hr.refCount hgc, hr.workList, List.filter_append, List.length_append, ← hi.refCount hgc f]
    by_cases h : f = G.getFunctionOf k.target
    · subst h
      simp [hi.refCount hgc]
    · simp [h, Ne.symm h]

/-- **Storing a reached path edge keeps the invariant.** -/
theorem Inv.store {A : PathEdge N D → Prop} {H₀ : PathEdge N D → Option E} {k : PathEdge N D} {x : E}
    (hi : Inv P G O J S (hist H₀ S)) (hP : Setting P)
    (hS : S' = storeResultsAndPropagate P G (G.getFunctionOf k.target) S (k, x))
    (hx : dropped P x ∨ x ∈ Reached (rules P G) (dropped P) k) (hA : A k)
    (hk : ¬ Has P S.stored k x → Wakes G O J S (pairOf G k)) :
    (Inv P G O J S' (hist H₀ S') ∧ Le A H₀ S S') ∧ Has P (hist H₀ S') k x := by
  rcases store_cases hP (G := G) (G.getFunctionOf k.target) S k x with
    ⟨heq, hhas⟩ | ⟨y, hxd, hne, hy, hr, hval⟩
  · rw [hS, heq]
    refine ⟨⟨hi, .refl S⟩, hhas.imp_right ?_⟩
    rintro ⟨f, hf, hle⟩
    exact ⟨f, hist_of_stored hf, hle⟩
  · rw [← hS] at hr hval
    have hx' := hx.resolve_left hxd
    have hyR : y ∈ Reached (rules P G) (dropped P) k := by
      cases hs : S.stored k with
      | none => simpa [hy, hs] using hx'
      | some f =>
        rw [hy, hs]
        exact reached_sup (hi.sound k f (hist_of_stored hs)) hx'
    have hge : ∀ f, hist H₀ S k = some f → f ≤ y := by
      intro f hf
      cases hs : S.stored k with
      | some f' =>
        rw [hist_of_stored hs, Option.some.injEq] at hf
        rw [hy, hs, ← hf]
        exact le_sup_left
      | none =>
        -- a jump function that was removed is found again with its only value
        rcases hP.gc with hoff | ⟨-, hE, -⟩
        · rw [← hi.kept (Or.inl hoff), hs] at hf
          exact absurd hf (by simp)
        · exact le_of_eq (hE f y)
    have hxy : x ≤ y := by
      cases hs : S.stored k with
      | none => simp [hy, hs]
      | some f => simp [hy, hs]
    have hnew : ¬ Has P S.stored k x := by
      rintro (hd | ⟨f, hf, hle⟩)
      · exact hxd hd
      · exact hne (by rw [hf, hy, hf, Option.elim_some, sup_of_le_left hle])
    have hH := hr.hist H₀
    refine ⟨⟨hi.register hr hval hyR hge fun _ => hk hnew, ?_⟩, Or.inr ⟨y, by simp [hH], hxy⟩⟩
    refine ⟨⟨fun {k' f} hf => ?_, fun {k' f} hf => ?_, fun heq => ?_⟩, fun {k' f} hf => ?_,
      fun i hm => ?_, fun j hj => hr.jobs ▸ hj, fun j d g hj => hr.lists ▸ hj, hr.callWL,
      hr.summaries⟩
    · rw [hr.stored]
      split_ifs with h
      · exact covers_some.2 (hge f (h ▸ hist_of_stored hf))
      · exact ⟨f, hf, le_rfl⟩
    · rw [hH]
      split_ifs with h
      · exact covers_some.2 (hge f (h ▸ hf))
      · exact ⟨f, hf, le_rfl⟩
    · refine absurd ?_ hne
      rw [← heq, hr.stored]
      simp
    · rw [hr.stored] at hf
      split_ifs at hf with h
      · subst h
        refine Or.inr ⟨?_, hA⟩
        rw [hr.workList, ← Option.some.inj hf]
        simp
      · exact Or.inl hf
    · rw [hr.workList]
      exact List.mem_append_left _ hm

@[simp] theorem allInterPropagations_store (funId : F) (S : IterativeIDESolver N F D E)
    (item : PathEdge N D × E) :
    (storeResultsAndPropagate P G funId S item).allInterPropagations = S.allInterPropagations := by
  have hreg : ∀ (edge : PathEdge N D) (f : E),
      (register P S edge funId f).allInterPropagations = S.allInterPropagations := by
    intro edge f
    unfold register
    split_ifs <;> rfl
  unfold storeResultsAndPropagate
  split_ifs
  · rfl
  · dsimp only
    split
    · unfold set
      split_ifs <;> exact hreg _ _
    · split_ifs
      · exact hreg _ _
      · rfl

@[simp] theorem allInterPropagations_storeAll (funId : F) (S : IterativeIDESolver N F D E)
    (items : List (PathEdge N D × E)) :
    (storeAll P G funId S items).allInterPropagations = S.allInterPropagations := by
  unfold storeAll
  induction items generalizing S with
  | nil => rfl
  | cons i t ih => rw [List.foldl_cons, ih, allInterPropagations_store]

/-- **Storing reached path edges one after another keeps the invariant.** -/
theorem Inv.storeAll {A : PathEdge N D → Prop} {H₀ : PathEdge N D → Option E}
    {items : List (PathEdge N D × E)} {funId : F} (hi : Inv P G O J S (hist H₀ S)) (hP : Setting P)
    (hS : S' = IterativeIDESolver.storeAll P G funId S items)
    (hitems : ∀ i ∈ items, G.getFunctionOf i.1.target = funId ∧ A i.1 ∧
      (dropped P i.2 ∨ i.2 ∈ Reached (rules P G) (dropped P) i.1))
    (hk : ∀ i ∈ items, ∀ s : IterativeIDESolver N F D E,
      s.allInterPropagations = S.allInterPropagations → Wakes G O J s (pairOf G i.1)) :
    (Inv P G O J S' (hist H₀ S') ∧ Le A H₀ S S') ∧ ∀ i ∈ items, Has P (hist H₀ S') i.1 i.2 := by
  have hstep : ∀ i ∈ items, ∀ s : IterativeIDESolver N F D E,
      (Inv P G O J s (hist H₀ s) ∧ Le A H₀ S s) ∧
        s.allInterPropagations = S.allInterPropagations →
      (Inv P G O J (storeResultsAndPropagate P G funId s i)
        (hist H₀ (storeResultsAndPropagate P G funId s i)) ∧
        Le A H₀ s (storeResultsAndPropagate P G funId s i)) ∧
      Has P (hist H₀ (storeResultsAndPropagate P G funId s i)) i.1 i.2 := by
    rintro ⟨k, x⟩ hm s ⟨⟨hs, -⟩, hjobs⟩
    obtain ⟨hf, hA, hx⟩ := hitems _ hm
    exact hs.store hP (by rw [← hf]) hx hA fun _ => hk _ hm s hjobs
  have h := LoopRule.foldl_establish (f := storeResultsAndPropagate P G funId)
    (I := fun s => (Inv P G O J s (hist H₀ s) ∧ Le A H₀ S s) ∧
      s.allInterPropagations = S.allInterPropagations)
    (Q := fun i s => Has P (hist H₀ s) i.1 i.2) items
    (fun i hm s hs => by
      obtain ⟨⟨hi', hle⟩, hhas⟩ := hstep i hm s hs
      exact ⟨⟨⟨hi', hs.1.2.trans hle⟩, by rw [allInterPropagations_store, hs.2]⟩, hhas⟩)
    (fun i hm i' _ s hs hhas => (hstep i hm s hs).1.2.has hhas) (s := S) ⟨⟨hi, .refl S⟩, rfl⟩
  subst hS
  exact ⟨h.1.1, h.2⟩

end IterativeIDESolver

end Phasar
