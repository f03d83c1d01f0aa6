import Phasar.IfdsIde.IterativeInvariant

/-!
# Normal flow and returns keep the invariant

The parts of the iterative solver that stay inside a function, and the application of summaries to
registered calls.

* `Inv.transfer`: the invariant when path edges are taken or done with;
* `Inv.normalFlow`: a path edge at an instruction that is no call;
* `Inv.applySummaries`, `Inv.applyAtExits`: returns to registered calls.
-/

set_option linter.unusedSectionVars false

namespace Phasar

namespace IterativeIDESolver

open Deduction

variable {N F D E L : Type*} [DecidableEq N] [DecidableEq F] [DecidableEq D] [DecidableEq E]
  [SemilatticeSup E] {P : IterativeProblem N F D E L} {G : ICFG N F} {O O' : Open N F D E}
  {J : Starting N F D E} {S S' : IterativeIDESolver N F D E} {H H₀ : PathEdge N D → Option E}

/-! ### The rules in a setting -/

theorem Setting.dropped_le (hP : Setting P) : ∀ x, dropped P x → ∀ y, x ≤ y := by
  intro x hx y
  rw [← sup_eq_right, ← hP.sup]
  exact hP.law.allTop_combine x y hx

theorem Setting.distributive (hP : Setting P) : Distributive (rules P G) := by
  refine distributive_tabulationRules_of_sup hP.law hP.sup fun c g _ d₂ r d₃ a b => ?_
  cases P.getSummaryEdgeFunction c d₂ r d₃ with
  | none => rfl
  | some x =>
    show P.extend (a ⊔ b) x = P.extend a x ⊔ P.extend b x
    rw [← hP.sup, ← hP.sup]
    exact hP.law.combine_extend a b x

/-- What a summary at an exit becomes at a return site is reached. -/
theorem Setting.returnEF_reached (hP : Setting P) {j : InterPropagationJob N F D E} {d₂ d₄ d₅ : D}
    {e r : N} {f s : E} (hen : Enters P.cachedFlows G j.callSite d₂ j.callee j.factInCallee)
    (hj : j.sourceEF = P.extend f (P.getCallEdgeFunction j.callSite d₂ j.callee j.factInCallee))
    (hf : f ∈ Reached (rules P G) (dropped P) ⟨j.sourceFact, j.callSite, d₂⟩)
    (he : e ∈ G.getExitPointsOf j.callee)
    (hs : s ∈ supClosure {w | ∃ e' ∈ G.getExitPointsOf j.callee, mixedExits P e' e ∧
      Deriv (rules P G) (dropped P) ⟨j.factInCallee, e', d₄⟩ w})
    (hr : r ∈ G.getReturnSitesOfCallAt j.callSite)
    (hd₅ : d₅ ∈ P.cachedFlows.getRetFlowFunction j.callSite j.callee e r d₄) :
    dropped P (returnEF P j e d₄ r d₅ s) ∨
      returnEF P j e d₄ r d₅ s ∈ Reached (rules P G) (dropped P) ⟨j.sourceFact, r, d₅⟩ := by
  have hform : ∀ s, returnEF P j e d₄ r d₅ s = P.extend f (P.extend
      (P.extend (P.getCallEdgeFunction j.callSite d₂ j.callee j.factInCallee) s)
      (P.getReturnEdgeFunction j.callSite j.callee e d₄ r d₅)) := by
    intro s
    simp only [returnEF, hj, hP.law.extend_assoc]
  have hret : ∀ e' ∈ G.getExitPointsOf j.callee, mixedExits P e' e →
      ReturnEdge P.cachedFlows P.toEdgeFunctions G (mixedExits P) ⟨j.sourceFact, j.callSite, d₂⟩
        ⟨j.factInCallee, e', d₄⟩ ⟨j.sourceFact, r, d₅⟩ _ :=
    fun e' he' hmix => .mk hen he' he hmix hr hd₅
  refine reached_of_supClosure hP.dropped_le (f := returnEF P j e d₄ r d₅) (fun a b => ?_) ?_ hs
  · simp only [hform, ← hP.sup, hP.law.extend_combine, hP.law.combine_extend]
  · rintro w ⟨e', he', hmix, hw⟩
    rw [hform]
    exact reached_bin hP.dropped_le hP.distributive (hret e' he' hmix) hf (reached_of_deriv hw)

/-! ### Taking up and finishing work -/

/-- The tables of the states are the same. -/
structure SameTables (S S' : IterativeIDESolver N F D E) : Prop where
  jumpFunctions : S'.jumpFunctions = S.jumpFunctions
  valTab : S'.valTab = S.valTab
  jobs : S'.allInterPropagations = S.allInterPropagations
  lists : S'.sourceFactAndFuncToInterJob = S.sourceFactAndFuncToInterJob
  summaries : S'.endSummaryTab = S.endSummaryTab
  candidates : S'.candidateFunctionsForGC = S.candidateFunctionsForGC

/-- The returns at the exit `e` for the job `j` have been applied, up to what is yet to be
processed. -/
def Answered (P : IterativeProblem N F D E L) (G : ICFG N F) (O : Open N F D E)
    (S : IterativeIDESolver N F D E) (H : PathEdge N D → Option E) (j : InterPropagationJob N F D E)
    (e : N) : Prop :=
  ∀ d₄ s, summaryOf P S H j.callee j.factInCallee e d₄ = some s → Returned P G H j e d₄ s ∨
    (P.config.useEndSummaryTab = false ∧ ToDo O S ⟨j.factInCallee, e, d₄⟩ s)

/-- All that a path edge with a jump function leads to has been done, up to deferred returns. -/
structure Processed (P : IterativeProblem N F D E L) (G : ICFG N F)
    (S : IterativeIDESolver N F D E) (H : PathEdge N D → Option E) (k : PathEdge N D) (f : E) :
    Prop where
  un : ∀ {k' φ}, (rules P G).un k k' φ → Has P H k' (φ f)
  registered : ∀ {g d₃}, Enters P.cachedFlows G k.target k.dTarget g d₃ →
    ⟨P.extend f (P.getCallEdgeFunction k.target k.dTarget g d₃), k.dSource, g, k.target, d₃⟩ ∈
      S.allInterPropagations
  returned : ∀ {g}, k.target ∈ G.getExitPointsOf g → (k.dSource, g) ∈ S.callWL
  table : P.config.useEndSummaryTab = true → ∀ {g}, k.target ∈ G.getExitPointsOf g →
    Covers ((S.endSummaryTab g k.dSource).get? k.dTarget) f

/-- The invariant when work is taken up or finished and the tables stay as they are. -/
theorem Inv.transfer (hi : Inv P G O J S H) (hT : SameTables S S')
    (hpend : ∀ k f, ToDo O' S' k f → ToDo O S k f)
    (hdone : ∀ k f, ToDo O S k f → ToDo O' S' k f ∨ Processed P G S' H k f)
    (hlive : ∀ p, Live G O' S' p → Live G O S p)
    (hcall : ∀ j ∈ S.allInterPropagations, entered j ∈ S.callWL ∨ O.call (entered j) →
      (entered j ∈ S'.callWL ∨ O'.call (entered j)) ∨
        ∀ e ∈ G.getExitPointsOf j.callee, Answered P G O' S' H j e)
    (hcount : P.config.enableJumpFunctionGC ≠ .disabled → ∀ f, S'.refCountPerFunction f =
      (S'.workList.filter fun i => G.getFunctionOf i.1.target = f).length) :
    Inv P G O' J S' H := by
  have hst : ∀ k, S'.stored k = S.stored k := fun k => by simp only [stored, hT.jumpFunctions]
  have hsum : ∀ g d e d₄, summaryOf P S' H g d e d₄ = summaryOf P S H g d e d₄ := fun g d e d₄ => by
    simp only [summaryOf, hT.summaries]
  refine ⟨?_, ?_, ?_, hi.sound, ?_, ?_, ?_, ?_, ?_, ?_, ?_, ?_, ?_, ?_, ?_, hcount⟩
  · intro k f hf
    rw [hst] at hf
    exact hi.stored_eq hf
  · intro k hk
    rw [hst]
    exact hi.kept hk
  · intro n d
    rw [hT.valTab]
    exact hi.val
  · intro k f hf
    exact hi.pending (hpend k f hf)
  · intro k k' f φ hf hun
    -- what was to be done is so still, or has been processed
    rcases hi.un hf hun with h | h
    · exact Or.inl h
    · exact (hdone k f h).symm.imp_left fun h => h.un hun
  · intro d₁ c d₂ f g d₃ hf hen
    rw [hT.jobs]
    rcases hi.registered hf hen with h | h
    · exact Or.inl h
    · rcases hdone _ f h with h | h
      · exact Or.inr h
      · exact Or.inl (hT.jobs ▸ h.registered hen)
  · intro j hj
    exact hi.job (hT.jobs ▸ hj)
  · intro j hj
    rw [hT.lists]
    exact hi.start (hT.jobs ▸ hj)
  · intro j hj
    rw [hT.lists]
    refine (hi.linked (hT.jobs ▸ hj)).imp_right (Or.imp_right fun h => ⟨h.1, fun hl => ?_⟩)
    exact h.2 (hlive _ hl)
  · intro j d g hj
    rw [hT.jobs]
    rw [hT.lists] at hj
    exact hi.listed hj
  · intro j e d₄ s hj he hs
    rw [hT.jobs] at hj
    rw [hsum] at hs
    -- an answer may wait for the summary, for the call, or for the exclusion of its job
    rcases hi.returned hj he hs with h | ⟨ht, h⟩ | h | h
    · exact Or.inl h
    · rcases hdone _ s h with h | h
      · exact Or.inr (Or.inl ⟨ht, h⟩)
      · exact Or.inr (Or.inr (Or.inl (Or.inl (h.returned he))))
    · rcases hcall j hj h with h | h
      · exact Or.inr (Or.inr (Or.inl h))
      · exact (h e he d₄ s (by rwa [hsum])).imp_right Or.inl
    · exact Or.inr (Or.inr (Or.inr h))
  · intro ht g e d₃ d₄ s he hs
    rcases hi.table ht he hs with h | h
    · exact Or.inl (by rwa [hT.summaries])
    · exact (hdone _ s h).symm.imp_left fun h => h.table ht he
  · intro ht g d₃ d₄ s hs
    rw [hT.summaries] at hs
    exact hi.table_sound ht hs
  · intro hgc p hp
    rw [hT.candidates]
    exact hi.candidate hgc (hlive p hp)

/-- Taking a path edge from the work list keeps the invariant. -/
theorem Inv.pop {l r : List (PathEdge N D × E)} {k : PathEdge N D} {f : E}
    (hi : Inv P G .nothing J S H) (hw : S.workList = l ++ (k, f) :: r) (hT : SameTables S S')
    (hw' : S'.workList = l ++ r) (hc : S'.callWL = S.callWL)
    (hcount : P.config.enableJumpFunctionGC ≠ .disabled → S'.refCountPerFunction =
      Function.update S.refCountPerFunction (G.getFunctionOf k.target)
        (S.refCountPerFunction (G.getFunctionOf k.target) - 1)) :
    Inv P G (.taking k f) J S' H := by
  have htodo : ∀ k' f', ToDo (.taking k f) S' k' f' ↔ ToDo .nothing S k' f' := by
    intro k' f'
    simp only [ToDo, hw, hw', Open.taking, Open.nothing, List.mem_append, List.mem_cons,
      Prod.mk.injEq]
    tauto
  refine hi.transfer hT (fun k' f' h => (htodo k' f').1 h) (fun k' f' h => Or.inl ((htodo k' f').2 h))
    (fun p hp => ?_) (fun j _ h => Or.inl (by rwa [hc])) (fun hgc g => ?_)
  · induction hp with
    | @pending k' f' hm =>
      refine .pending (f := f') ?_
      rw [hw', List.mem_append] at hm
      rw [hw, List.mem_append, List.mem_cons]
      tauto
    | callWL hm => exact .callWL (hc ▸ hm)
    | key h =>
      obtain ⟨rfl, rfl⟩ := h
      exact .pending (hw ▸ List.mem_append_right l List.mem_cons_self)
    | call h => exact h.elim
    | caller hj _ ih => exact .caller (hT.jobs ▸ hj) ih
  · have hold := hi.refCount hgc g
    rw [hw, List.filter_append, List.length_append, List.filter_cons] at hold
    rw [hcount hgc, hw', List.filter_append, List.length_append]
    by_cases h : G.getFunctionOf k.target = g
    · subst h
      simp only [decide_true, if_true, List.length_cons] at hold
      rw [Function.update_self, hold]
      omega
    · simp only [h, decide_false, Bool.false_eq_true, if_false] at hold
      rw [Function.update_of_ne (Ne.symm h), hold]

/-- Finishing the path edge that is being processed keeps the invariant. -/
theorem Inv.finish {k : PathEdge N D} {f : E} (hi : Inv P G (.taking k f) J S H)
    (hk : Processed P G S H k f) : Inv P G .nothing J S H := by
  refine hi.transfer ⟨rfl, rfl, rfl, rfl, rfl, rfl⟩ (fun k' f' h => ?_) (fun k' f' h => ?_)
    (fun p hp => ?_) (fun j _ h => Or.inl h) (fun hgc => hi.refCount hgc)
  · exact Or.inl (h.resolve_right fun h => h)
  · rcases h with h | ⟨rfl, rfl⟩
    · exact Or.inl (Or.inl h)
    · exact Or.inr hk
  · exact hp.of_nothing

/-! ### Normal flow -/

theorem get?_storeSummary (hP : Setting P) (m : VecMap D E) (d : D) (f : E) (d' : D) :
    (storeSummary P m d f).get? d' = if d = d' then some (joinInto (m.get? d) f) else m.get? d' := by
  unfold storeSummary
  cases hm : m.get? d with
  | none => rw [VecMap.get?_set, joinInto]
  | some e =>
    simp only [joinInto, hP.sup]
    split_ifs with hne hd hd
    · simp [hd]
    · rw [VecMap.get?_set, if_neg hd]
    · rw [not_ne_iff.1 hne, ← hd, hm]
    · rfl

/-- Updating the summary table at an exit of a rescheduled call keeps the invariant. -/
theorem Inv.summarize (hP : Setting P) {g : F} {d₃ d₄ : D} {e : N} {f : E}
    (hi : Inv P G O J S H) (he : e ∈ G.getExitPointsOf g)
    (hf : f ∈ Reached (rules P G) (dropped P) ⟨d₃, e, d₄⟩) (hcall : (d₃, g) ∈ S.callWL)
    (hS : S' = { S with
      endSummaryTab := S.endSummaryTab.modify g d₃ fun tab => storeSummary P tab d₄ f }) :
    Inv P G O J S' H ∧ Covers ((S'.endSummaryTab g d₃).get? d₄) f := by
  have hget : ∀ g' d' x, (S'.endSummaryTab g' d').get? x =
      if (g' = g ∧ d' = d₃) ∧ d₄ = x then some (joinInto ((S.endSummaryTab g d₃).get? d₄) f)
      else (S.endSummaryTab g' d').get? x := by
    intro g' d' x
    rw [hS]
    simp only [Table.modify]
    by_cases h : g' = g ∧ d' = d₃
    · obtain ⟨rfl, rfl⟩ := h
      simp [get?_storeSummary hP]
    · simp [h]
  have hlive : ∀ p, Live G O S' p → Live G O S p := by
    intro p hp
    subst hS
    exact hp.congr (by rfl) (by rfl) (by rfl)
  refine ⟨?_, _, by rw [hget, if_pos ⟨⟨rfl, rfl⟩, rfl⟩], le_joinInto _ f⟩
  subst hS
  refine { hi with
    stored_eq := hi.stored_eq
    kept := hi.kept
    val := hi.val
    linked := fun hj => (hi.linked hj).imp_right (Or.imp_right fun h => ⟨h.1, fun hl => ?_⟩)
    returned := fun {j e' x s} hj he' hs => ?_
    table := fun ht {g' e' d' x s} he' hs => ?_
    table_sound := fun ht {g' d' x s} hs => ?_
    candidate := fun hgc p hp => hi.candidate hgc (hlive p hp)
    refCount := hi.refCount }
  · exact h.2 (hlive _ hl)
  · by_cases hold : summaryOf P S H j.callee j.factInCallee e' x = some s
    · exact hi.returned hj he' hold
    · -- only the summaries of the rescheduled call have changed
      refine Or.inr (Or.inr (Or.inl (Or.inl ?_)))
      unfold summaryOf at hs hold
      split_ifs at hs hold with ht
      · rw [hget] at hs
        split_ifs at hs with h
        · show entered j ∈ S.callWL
          rw [entered, h.1.1, h.1.2]
          exact hcall
        · exact absurd hs hold
      · exact absurd hs hold
  · rcases hi.table ht he' hs with ⟨v, hv, hle⟩ | h
    · left
      rw [hget]
      split_ifs with h
      · obtain ⟨⟨rfl, rfl⟩, rfl⟩ := h
        exact covers_some.2 (hle.trans (some_le_joinInto hv f))
      · exact ⟨v, hv, hle⟩
    · exact Or.inr h
  · rw [hget] at hs
    split_ifs at hs with h
    · obtain ⟨⟨rfl, rfl⟩, rfl⟩ := h
      have hf' : f ∈ supClosure {w | ∃ e ∈ G.getExitPointsOf g',
          Deriv (rules P G) (dropped P) ⟨d', e, d₄⟩ w} :=
        supClosure_mono (by exact fun w hw => ⟨e, he, hw⟩) hf
      rw [← Option.some.inj hs]
      cases hv : (S.endSummaryTab g' d').get? d₄ with
      | none => exact hf'
      | some v => exact supClosed_supClosure (hi.table_sound ht hv) hf'
    · exact hi.table_sound ht hs

/-- Rescheduling the calls of the pair of a path edge that is being processed. -/
theorem Inv.reschedule {k : PathEdge N D} {f : E} (hi : Inv P G (.taking k f) J S H) :
    Inv P G (.taking k f) J { S with callWL := S.callWL.insert (pairOf G k) } H := by
  have hlive : ∀ p, Live G (.taking k f) { S with callWL := S.callWL.insert (pairOf G k) } p →
      Live G (.taking k f) S p := by
    intro p hp
    induction hp with
    | pending hm => exact .pending hm
    | callWL hm =>
      rcases List.mem_insert_iff.1 hm with rfl | hm
      · exact .key ⟨rfl, rfl⟩
      · exact .callWL hm
    | key h => exact .key h
    | call h => exact .call h
    | caller hj _ ih => exact .caller hj ih
  refine hi.transfer ⟨rfl, rfl, rfl, rfl, rfl, rfl⟩ (fun k' f' h => h) (fun k' f' h => Or.inl h) hlive
    (fun j _ h => Or.inl ?_) (fun hgc => hi.refCount hgc)
  exact h.imp_left fun h => List.mem_insert_iff.2 (Or.inr h)

/-- The edges along the normal flow are reached. -/
theorem normalEdges_reached (hP : Setting P) {k : PathEdge N D} {f : E}
    (hc : G.isCallSite k.target = false) (hf : f ∈ Reached (rules P G) (dropped P) k) :
    ∀ i ∈ normalEdges P G k f, pairOf G i.1 = pairOf G k ∧
      (dropped P i.2 ∨ i.2 ∈ Reached (rules P G) (dropped P) i.1) := by
  intro i hm
  simp only [normalEdges, List.mem_flatMap, List.mem_map] at hm
  obtain ⟨m, hm, d, hd, rfl⟩ := hm
  have hflow : FlowEdge P.cachedFlows P.toEdgeFunctions P.extendSummary G k ⟨k.dSource, m, d⟩ _ :=
    .normal hc hm hd
  refine ⟨by rw [pairOf, pairOf, G.getFunctionOf_succ _ _ hm], ?_⟩
  exact reached_un hP.dropped_le hP.distributive hflow hf

/-- **Processing a path edge at an instruction that is no call keeps the invariant.** -/
theorem Inv.normalFlow (hP : Setting P) {k : PathEdge N D} {f : E}
    (hi : Inv P G (.taking k f) .nothing S (hist H₀ S)) (hc : G.isCallSite k.target = false)
    (hS : S' = applyNormalFlow P G S k f) :
    Inv P G .nothing .nothing S' (hist H₀ S') ∧ Grows H₀ S S' := by
  have hf : f ∈ Reached (rules P G) (dropped P) k := hi.pending (Or.inr ⟨rfl, rfl⟩)
  have hedges := normalEdges_reached hP hc hf
  unfold applyNormalFlow at hS
  dsimp only at hS
  generalize hS₁ : IterativeIDESolver.storeAll P G (G.getFunctionOf k.target) S
    (normalEdges P G k f) = S₁ at hS
  obtain ⟨⟨hi₁, hle⟩, hhas⟩ := hi.storeAll hP (A := fun _ => True) hS₁.symm
    (fun i hm => ⟨congrArg Prod.snd (hedges i hm).1, trivial, (hedges i hm).2⟩)
    (fun i hm s _ => Or.inl ((hedges i hm).1 ▸ .key ⟨rfl, rfl⟩))
  have hun : ∀ {k' φ}, (rules P G).un k k' φ → Has P (hist H₀ S₁) k' (φ f) := by
    intro k' φ hr
    cases hr with
    | @normal d₁ n d₂ m d₃ _ hm hd =>
      exact hhas (⟨d₁, m, d₃⟩, _) (List.mem_flatMap.2 ⟨m, hm, List.mem_map.2 ⟨d₃, hd, rfl⟩⟩)
    | callToRet hc' => simp [hc] at hc'
    | summary hc' => simp [hc] at hc'
    | callStart hc' => simp [hc] at hc'
  have hexits : ∀ {g}, k.target ∈ G.getExitPointsOf g →
      G.isExitInst k.target = true ∧ G.getFunctionOf k.target = g :=
    fun h => (G.mem_getExitPointsOf _ _).1 h
  split_ifs at hS with he ht
  · -- an exit, with the summary table
    have hmem := (G.mem_getExitPointsOf k.target _).2 ⟨he, rfl⟩
    obtain ⟨hi₂, hcov⟩ := hi₁.reschedule.summarize hP hmem hf (List.mem_insert_self) hS
    subst hS
    refine ⟨hi₂.finish ⟨hun, fun h => absurd h.1 (by simp [hc]), fun h => ?_, fun _ g h => ?_⟩,
      hle.raised, hle.hist, hle.quiet⟩
    · rw [← (hexits h).2]
      exact List.mem_insert_self
    · rw [← (hexits h).2]
      exact hcov
  · -- an exit, without
    subst hS
    refine ⟨hi₁.reschedule.finish ⟨hun, fun h => absurd h.1 (by simp [hc]), fun h => ?_,
      fun h => absurd h ht⟩, hle.raised, hle.hist, hle.quiet⟩
    rw [← (hexits h).2]
    exact List.mem_insert_self
  · subst hS
    exact ⟨hi₁.finish ⟨hun, fun h => absurd h.1 (by simp [hc]), fun h => absurd (hexits h).1 he,
      fun _ _ h => absurd (hexits h).1 he⟩, hle.toGrows⟩

/-! ### Returns -/

/-- Exits are kept. -/
theorem kept_exit {e : N} {g : F} (he : e ∈ G.getExitPointsOf g) : Kept P G e :=
  Or.inr (by simp [keepAnalysisInformationAt, ((G.mem_getExitPointsOf e g).1 he).1])

/-- What is read at an exit is the summary of the history. -/
theorem mem_summaries (hi : Inv P G O J S H) {g : F} {d₃ d₄ : D} {e : N} {s : E}
    (he : e ∈ G.getExitPointsOf g) :
    (d₄, s) ∈ summaries P S g d₃ e ↔ summaryOf P S H g d₃ e d₄ = some s := by
  unfold summaries summaryOf
  split_ifs
  · rw [VecMap.mem_entries_iff]
  · rw [← hi.kept (k := ⟨d₃, e, d₄⟩) (kept_exit he)]
    simp only [List.mem_map, List.mem_filter, decide_eq_true_eq, Prod.mk.injEq, Prod.exists, stored]
    constructor
    · rintro ⟨d₃', d₄', s', ⟨hm, rfl⟩, rfl, rfl⟩
      exact (VecMap.mem_entries_iff _ _ _).1 hm
    · exact fun h => ⟨d₃, d₄, s, ⟨(VecMap.mem_entries_iff _ _ _).2 h, rfl⟩, rfl, rfl⟩

/-- A summary is a join of weights at the exits whose facts it may come from. -/
theorem summary_reached (hi : Inv P G O J S H) {g : F} {d₃ d₄ : D} {e : N} {s : E}
    (he : e ∈ G.getExitPointsOf g) (hs : summaryOf P S H g d₃ e d₄ = some s) :
    s ∈ supClosure {w | ∃ e' ∈ G.getExitPointsOf g, mixedExits P e' e ∧
      Deriv (rules P G) (dropped P) ⟨d₃, e', d₄⟩ w} := by
  unfold summaryOf at hs
  split_ifs at hs with ht
  · exact supClosure_mono (by exact fun w hw => ⟨hw.choose, hw.choose_spec.1, Or.inl ht,
      hw.choose_spec.2⟩) (hi.table_sound ht hs)
  · exact supClosure_mono (by exact fun w hw => ⟨e, he, Or.inr rfl, hw⟩) (hi.sound _ _ hs)

/-- A summary that is not an old one is yet to be processed. -/
theorem summaryOf_of_le {A : PathEdge N D → Prop} (hi : Inv P G O J S (hist H₀ S))
    (hi' : Inv P G O J S' (hist H₀ S')) (hle : Le A H₀ S S') {g : F} {d₃ d₄ : D} {e : N} {s : E}
    (he : e ∈ G.getExitPointsOf g) (hs : summaryOf P S' (hist H₀ S') g d₃ e d₄ = some s) :
    summaryOf P S (hist H₀ S) g d₃ e d₄ = some s ∨
      P.config.useEndSummaryTab = false ∧ ToDo O S' ⟨d₃, e, d₄⟩ s := by
  unfold summaryOf at hs ⊢
  split_ifs at hs ⊢ with ht
  · exact Or.inl (hle.summaries ▸ hs)
  · rw [← hi.kept (k := ⟨d₃, e, d₄⟩) (kept_exit he)]
    rw [← hi'.kept (k := ⟨d₃, e, d₄⟩) (kept_exit he)] at hs
    exact (hle.changed hs).imp_right fun h => ⟨by simpa using ht, Or.inl h.1⟩

theorem Returned.mono {A : PathEdge N D → Prop} {j : InterPropagationJob N F D E} {e : N} {d₄ : D}
    {s : E} (hle : Le A H₀ S S') (h : Returned P G (hist H₀ S) j e d₄ s) :
    Returned P G (hist H₀ S') j e d₄ s :=
  fun r hr d₅ hd₅ => hle.has (h r hr d₅ hd₅)

/-- What has been answered stays so. -/
theorem Answered.mono {A : PathEdge N D → Prop} {j : InterPropagationJob N F D E} {e : N}
    (hi : Inv P G O J S (hist H₀ S)) (hi' : Inv P G O J S' (hist H₀ S')) (hle : Le A H₀ S S')
    (he : e ∈ G.getExitPointsOf j.callee) (h : Answered P G O S (hist H₀ S) j e) :
    Answered P G O S' (hist H₀ S') j e := by
  intro d₄ s hs
  rcases summaryOf_of_le hi hi' hle he hs with hold | hnew
  · rcases h d₄ s hold with h | ⟨ht, h⟩
    · exact Or.inl (h.mono hle)
    · exact Or.inr ⟨ht, h.imp_left (hle.workList _)⟩
  · exact Or.inr hnew

/-- The target is an instruction whose jump functions are kept. -/
def KeptEdge (P : IterativeProblem N F D E L) (G : ICFG N F) (k : PathEdge N D) : Prop :=
  Kept P G k.target

/-- Return sites of calls are kept. -/
theorem kept_returnSite {c r : N} (hc : G.isCallSite c = true)
    (hr : r ∈ G.getReturnSitesOfCallAt c) : Kept P G r := by
  have hpred : c ∈ G.getPredsOf r := (G.mem_getPredsOf c r).2 (G.returnSite_succ c r hr)
  have hany : (G.getPredsOf r).any G.isCallSite = true := List.any_eq_true.2 ⟨c, hpred, hc⟩
  exact Or.inr (by simp [keepAnalysisInformationAt, hany])

/-- **Applying reached summaries at one exit to a registered call keeps the invariant.** -/
theorem Inv.applySummaries {j : InterPropagationJob N F D E} {e : N} {sums : List (D × E)}
    (hi : Inv P G O J S (hist H₀ S)) (hP : Setting P)
    (hS : S' = propagateProcedureSummaries P G S sums j.callSite j.callee e j.sourceFact j.sourceEF)
    (hj : j ∈ S.allInterPropagations) (he : e ∈ G.getExitPointsOf j.callee)
    (hlive : ∀ s : IterativeIDESolver N F D E,
      s.allInterPropagations = S.allInterPropagations → Live G O s (caller G j))
    (hsums : ∀ p ∈ sums, p.2 ∈ supClosure {w | ∃ e' ∈ G.getExitPointsOf j.callee,
      mixedExits P e' e ∧ Deriv (rules P G) (dropped P) ⟨j.factInCallee, e', p.1⟩ w}) :
    (Inv P G O J S' (hist H₀ S') ∧ Le (KeptEdge P G) H₀ S S') ∧
      ∀ p ∈ sums, Returned P G (hist H₀ S') j e p.1 p.2 := by
  obtain ⟨d₂, f, hen, hef, hf⟩ := hi.job hj
  have hitems : ∀ i ∈ procedureSummaryEdges P G sums j.callSite j.callee e j.sourceFact j.sourceEF,
      pairOf G i.1 = caller G j ∧ KeptEdge P G i.1 ∧
        (dropped P i.2 ∨ i.2 ∈ Reached (rules P G) (dropped P) i.1) := by
    intro i hm
    simp only [procedureSummaryEdges, List.mem_flatMap, List.mem_map] at hm
    obtain ⟨r, hr, p, hp, d₅, hd₅, rfl⟩ := hm
    refine ⟨by rw [pairOf, caller, G.getFunctionOf_returnSite hr], kept_returnSite hen.1 hr, ?_⟩
    exact hP.returnEF_reached hen hef hf he (hsums p hp) hr hd₅
  obtain ⟨hinv, hhas⟩ := hi.storeAll hP (A := KeptEdge P G) hS
    (fun i hm => ⟨congrArg Prod.snd (hitems i hm).1, (hitems i hm).2⟩)
    (fun i hm s hs => Or.inl ((hitems i hm).1 ▸ hlive s hs))
  refine ⟨hinv, fun p hp r hr d₅ hd₅ => ?_⟩
  exact hhas (⟨j.sourceFact, r, d₅⟩, returnEF P j e p.1 r d₅ p.2) (List.mem_flatMap.2
    ⟨r, hr, List.mem_flatMap.2 ⟨p, hp, List.mem_map.2 ⟨d₅, hd₅, rfl⟩⟩⟩)

@[simp] theorem allInterPropagations_propagateProcedureSummaries
    (S : IterativeIDESolver N F D E) (sums : List (D × E)) (c : N) (g : F) (e : N) (d₁ : D) (f : E) :
    (propagateProcedureSummaries P G S sums c g e d₁ f).allInterPropagations =
      S.allInterPropagations :=
  allInterPropagations_storeAll _ _ _

/-- **Applying the summaries of one exit to registered calls answers them.** -/
theorem Inv.applyAtExit {jobs : List (InterPropagationJob N F D E)} {g : F} {d : D} {e : N}
    {sums : List (D × E)} (hi : Inv P G O J S (hist H₀ S)) (hP : Setting P)
    (hS : S' = jobs.foldl (fun S job => propagateProcedureSummaries P G S sums job.callSite g e
      job.sourceFact job.sourceEF) S) (he : e ∈ G.getExitPointsOf g)
    (hsums : sums = summaries P S g d e)
    (hjobs : ∀ j ∈ jobs, j ∈ S.allInterPropagations ∧ entered j = (d, g) ∧
      ∀ s : IterativeIDESolver N F D E, s.allInterPropagations = S.allInterPropagations →
        Live G O s (caller G j)) :
    ((Inv P G O J S' (hist H₀ S') ∧ Le (KeptEdge P G) H₀ S S') ∧
      S'.allInterPropagations = S.allInterPropagations) ∧
      ∀ j ∈ jobs, Answered P G O S' (hist H₀ S') j e := by
  have hreach : ∀ p ∈ sums, p.2 ∈ supClosure {w | ∃ e' ∈ G.getExitPointsOf g,
      mixedExits P e' e ∧ Deriv (rules P G) (dropped P) ⟨d, e', p.1⟩ w} := by
    rintro ⟨d₄, s⟩ hm
    exact summary_reached hi he ((mem_summaries hi he).1 (hsums ▸ hm))
  have hstep : ∀ j ∈ jobs, ∀ s s' : IterativeIDESolver N F D E,
      (Inv P G O J s (hist H₀ s) ∧ Le (KeptEdge P G) H₀ S s) ∧
        s.allInterPropagations = S.allInterPropagations →
      s' = propagateProcedureSummaries P G s sums j.callSite g e j.sourceFact j.sourceEF →
      (Inv P G O J s' (hist H₀ s') ∧ Le (KeptEdge P G) H₀ s s') ∧
        ∀ p ∈ sums, Returned P G (hist H₀ s') j e p.1 p.2 := by
    intro j hj s s' hs hs'
    obtain ⟨hmem, hent, hlive⟩ := hjobs j hj
    obtain ⟨rfl, rfl⟩ := Prod.mk.inj hent
    exact hs.1.1.applySummaries hP hs' (hs.2 ▸ hmem) he (fun s'' hs'' => hlive s'' (hs''.trans hs.2))
      hreach
  obtain ⟨⟨⟨hi', hle⟩, hall⟩, hret⟩ := LoopRule.foldl_establish
    (I := fun s => (Inv P G O J s (hist H₀ s) ∧ Le (KeptEdge P G) H₀ S s) ∧
      s.allInterPropagations = S.allInterPropagations)
    (Q := fun j s => ∀ p ∈ sums, Returned P G (hist H₀ s) j e p.1 p.2) jobs
    (fun j hj s hs => by
      obtain ⟨⟨hi', hle⟩, hret⟩ := hstep j hj s _ hs rfl
      exact ⟨⟨⟨hi', hs.1.2.trans hle⟩, by simp [hs.2]⟩, hret⟩)
    (fun j hj j' _ s hs hret p hp => (hret p hp).mono (hstep j hj s _ hs rfl).1.2)
    (s := S) ⟨⟨hi, .refl S⟩, rfl⟩
  subst hS
  refine ⟨⟨⟨hi', hle⟩, hall⟩, fun j hj d₄ s hs => ?_⟩
  obtain ⟨-, hent, -⟩ := hjobs j hj
  obtain ⟨rfl, rfl⟩ := Prod.mk.inj hent
  rcases summaryOf_of_le hi hi' hle he hs with hold | hnew
  · exact Or.inl (hret j hj (d₄, s) (hsums ▸ (mem_summaries hi he).2 hold))
  · exact Or.inr hnew

/-- **Applying the summaries of all exits to registered calls answers them.** -/
theorem Inv.applyAtExits
    (jobs : IterativeIDESolver N F D E → List (InterPropagationJob N F D E)) {g : F} {d : D}
    (hi : Inv P G O J S (hist H₀ S)) (hP : Setting P)
    (hS : S' = (G.getExitPointsOf g).foldl (fun S e => (jobs S).foldl
      (fun S' job => propagateProcedureSummaries P G S' (summaries P S g d e) job.callSite g e
        job.sourceFact job.sourceEF) S) S)
    (hjobs : ∀ s, Inv P G O J s (hist H₀ s) → s.allInterPropagations = S.allInterPropagations →
      ∀ j ∈ jobs s, j ∈ s.allInterPropagations ∧ entered j = (d, g) ∧
        ∀ s' : IterativeIDESolver N F D E, s'.allInterPropagations = S.allInterPropagations →
          Live G O s' (caller G j))
    (hmono : ∀ s, Le (KeptEdge P G) H₀ S s → ∀ j ∈ jobs S, j ∈ jobs s) :
    ((Inv P G O J S' (hist H₀ S') ∧ Le (KeptEdge P G) H₀ S S') ∧
      S'.allInterPropagations = S.allInterPropagations) ∧
      ∀ e ∈ G.getExitPointsOf g, ∀ j ∈ jobs S, Answered P G O S' (hist H₀ S') j e := by
  have hstep : ∀ e ∈ G.getExitPointsOf g, ∀ s s' : IterativeIDESolver N F D E,
      (Inv P G O J s (hist H₀ s) ∧ Le (KeptEdge P G) H₀ S s) ∧
        s.allInterPropagations = S.allInterPropagations →
      s' = (jobs s).foldl (fun s' job => propagateProcedureSummaries P G s' (summaries P s g d e)
        job.callSite g e job.sourceFact job.sourceEF) s →
      ((Inv P G O J s' (hist H₀ s') ∧ Le (KeptEdge P G) H₀ s s') ∧
        s'.allInterPropagations = s.allInterPropagations) ∧
        ∀ j ∈ jobs s, Answered P G O s' (hist H₀ s') j e := by
    intro e he s s' hs hs'
    refine hs.1.1.applyAtExit hP hs' he rfl fun j hj => ?_
    obtain ⟨hmem, hent, hlive⟩ := hjobs s hs.1.1 hs.2 j hj
    exact ⟨hmem, hent, fun s'' hs'' => hlive s'' (hs''.trans hs.2)⟩
  subst hS
  refine LoopRule.foldl_establish
    (I := fun s => (Inv P G O J s (hist H₀ s) ∧ Le (KeptEdge P G) H₀ S s) ∧
      s.allInterPropagations = S.allInterPropagations)
    (Q := fun e s => ∀ j ∈ jobs S, Answered P G O s (hist H₀ s) j e) (G.getExitPointsOf g)
    (fun e he s hs => ?_) (fun e he e' he' s hs hans j hj => ?_) ⟨⟨hi, .refl S⟩, rfl⟩
  · obtain ⟨⟨⟨hi', hle⟩, hall⟩, hans⟩ := hstep e he s _ hs rfl
    exact ⟨⟨⟨hi', hs.1.2.trans hle⟩, hall.trans hs.2⟩,
      fun j hj => hans j (hmono s hs.1.2 j hj)⟩
  · obtain ⟨⟨⟨hi', hle⟩, -⟩, -⟩ := hstep e he s _ hs rfl
    obtain ⟨-, hent, -⟩ := hjobs S hi rfl j hj
    obtain ⟨rfl, rfl⟩ := Prod.mk.inj hent
    exact (hans j hj).mono hs.1.1 hi' hle he'

end IterativeIDESolver

end Phasar
