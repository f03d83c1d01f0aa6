import Phasar.IfdsIde.SparseIDESolver
import Phasar.IfdsIde.Tabulation

/-!
# Phase I refines the tabulation rules

Each step of `IDESolver` on its work list and tables is a step of the chaotic iteration of the
tabulation rules, whose edges go to next users where the graph knows them. The tables that connect
calls and exits are determined by the jump functions:

* `Effect`: what processing an edge adds to the work list and to `IncomingTab`;
* `Inv`: `EndsummaryTab` holds the jump functions at exits, `IncomingTab` the call facts that enter
  a callee;
* `SparseIDESolver.propagates_of_step`: a step preserves `Inv` and refines `Deduction.Propagates`;
* `SparseIDESolver.pending_of_reachable`, `SparseIDESolver.exact_of_empty`: with an empty work list
  the jump functions are closed under the rules, and each of them is a finite join of derivation
  weights;
* `propagates_of_step`, `pending_of_reachable`, `exact_of_empty`: the same without next users.
-/

namespace Phasar

namespace IDESolver

variable {N F D E L : Type*} [DecidableEq N]

/-- `IncomingTab` has the call fact `d₂` at `c` for the fact `d₃` at `sp`. -/
def Incoming (S : IDESolver N D E) (sp : N) (d₃ : D) (c : N) (d₂ : D) : Prop :=
  ∃ ds, (S.incoming d₃ sp).get? c = some ds ∧ d₂ ∈ ds

/-! ### Effects -/

/-- `S'` is `S` with more items on the work list and more incoming edges. -/
structure Effect (S S' : IDESolver N D E) (pushed : PathEdge N D × E → Prop)
    (entered : N → D → N → D → Prop) : Prop where
  jumpFn : S'.jumpFn = S.jumpFn
  endsummaryTab : S'.endsummaryTab = S.endsummaryTab
  mem_workList : ∀ p, p ∈ S'.workList ↔ p ∈ S.workList ∨ pushed p
  incoming : ∀ sp d₃ c d₂, S'.Incoming sp d₃ c d₂ ↔ S.Incoming sp d₃ c d₂ ∨ entered sp d₃ c d₂

theorem Effect.refl (S : IDESolver N D E) :
    Effect S S (fun _ => False) (fun _ _ _ _ => False) where
  jumpFn := rfl
  endsummaryTab := rfl
  mem_workList := by simp
  incoming := by simp

theorem Effect.trans {S₁ S₂ S₃ : IDESolver N D E} {p q : PathEdge N D × E → Prop}
    {a b : N → D → N → D → Prop} (h : Effect S₁ S₂ p a) (h' : Effect S₂ S₃ q b) :
    Effect S₁ S₃ (fun x => p x ∨ q x) (fun sp d₃ c d₂ => a sp d₃ c d₂ ∨ b sp d₃ c d₂) where
  jumpFn := h'.jumpFn.trans h.jumpFn
  endsummaryTab := h'.endsummaryTab.trans h.endsummaryTab
  mem_workList x := by rw [h'.mem_workList, h.mem_workList, or_assoc]
  incoming sp d₃ c d₂ := by rw [h'.incoming, h.incoming, or_assoc]

theorem Effect.congr {S S' : IDESolver N D E} {p q : PathEdge N D × E → Prop}
    {a b : N → D → N → D → Prop} (h : Effect S S' p a) (hp : ∀ x, p x ↔ q x)
    (ha : ∀ sp d₃ c d₂, a sp d₃ c d₂ ↔ b sp d₃ c d₂) : Effect S S' q b where
  jumpFn := h.jumpFn
  endsummaryTab := h.endsummaryTab
  mem_workList x := by rw [h.mem_workList, hp]
  incoming sp d₃ c d₂ := by rw [h.incoming, ha]

/-- Effects of a loop add up; each of them may depend on `EndsummaryTab`, which none of them
changes. -/
theorem Effect.foldl {α : Type*} {T : Table N D (VecMap (N × D) E)}
    {step : IDESolver N D E → α → IDESolver N D E} {p : α → PathEdge N D × E → Prop}
    {a : α → N → D → N → D → Prop} (l : List α)
    (h : ∀ x ∈ l, ∀ S : IDESolver N D E, S.endsummaryTab = T → Effect S (step S x) (p x) (a x))
    (S : IDESolver N D E) (hS : S.endsummaryTab = T) :
    Effect S (l.foldl step S) (fun i => ∃ x ∈ l, p x i)
      (fun sp d₃ c d₂ => ∃ x ∈ l, a x sp d₃ c d₂) := by
  induction l generalizing S with
  | nil => exact (Effect.refl S).congr (by simp) (by simp)
  | cons x t ih =>
    have hx := h x List.mem_cons_self S hS
    have ht := ih (fun y hy => h y (List.mem_cons_of_mem x hy)) (step S x)
      (hx.endsummaryTab.trans hS)
    exact (hx.trans ht).congr (by simp) (by simp)

theorem push_effect (S : IDESolver N D E) (items : List (PathEdge N D × E)) :
    Effect S (S.push items) (· ∈ items) (fun _ _ _ _ => False) where
  jumpFn := rfl
  endsummaryTab := rfl
  mem_workList p := by simp [push]
  incoming sp d₃ c d₂ := by simp [push, Incoming, IDESolver.incoming]

/-- The fact `d₄` at the call site `c` is among the incoming calls of the fact `d₁`. -/
theorem mem_incomingCalls {S : IDESolver N D E} {d₁ : D} {sps : List N}
    (hsame : ∀ sp ∈ sps, ∀ sp' ∈ sps, ∀ c d₂, S.Incoming sp d₁ c d₂ → S.Incoming sp' d₁ c d₂)
    (c : N) (d₄ : D) :
    (∃ ds, (S.incomingCalls d₁ sps).get? c = some ds ∧ d₄ ∈ ds) ↔
      ∃ sp ∈ sps, S.Incoming sp d₁ c d₄ := by
  have key : ∀ (l : List N) (m : VecMap N (List D)), (∀ sp ∈ l, sp ∈ sps) →
      (∀ ds, m.get? c = some ds → ∃ sp ∈ sps, (S.incoming d₁ sp).get? c = some ds) →
      ((∃ ds, (l.foldl (fun inc sp => inc.insertAll (S.incoming d₁ sp)) m).get? c = some ds ∧
        d₄ ∈ ds) ↔ (∃ sp ∈ l, S.Incoming sp d₁ c d₄) ∨ ∃ ds, m.get? c = some ds ∧ d₄ ∈ ds) := by
    intro l
    induction l with
    | nil => simp
    | cons sp t ih =>
      intro m hl hm
      have hsp : sp ∈ sps := hl sp List.mem_cons_self
      rw [List.foldl_cons, ih _ (fun x hx => hl x (List.mem_cons_of_mem sp hx))]
      · rw [VecMap.get?_insertAll]
        cases hsub : (S.incoming d₁ sp).get? c with
        | none => simp [Incoming, hsub]
        | some ds' =>
          have hd : (∃ ds, m.get? c = some ds ∧ d₄ ∈ ds) → d₄ ∈ ds' := by
            rintro ⟨ds, hds, hmem⟩
            obtain ⟨sp', hsp', h'⟩ := hm ds hds
            obtain ⟨ds'', h'', hmem''⟩ := hsame sp' hsp' sp hsp c d₄ ⟨ds, h', hmem⟩
            rw [hsub] at h''
            rwa [Option.some.inj h'']
          have hi : S.Incoming sp d₁ c d₄ ↔ d₄ ∈ ds' := by simp [Incoming, hsub]
          simp only [Option.some_or, Option.some.injEq, exists_eq_left', List.exists_mem_cons_iff,
            hi]
          constructor
          · rintro (h | h)
            · exact Or.inl (Or.inr h)
            · exact Or.inl (Or.inl h)
          · rintro ((h | h) | h)
            · exact Or.inr h
            · exact Or.inl h
            · exact Or.inr (hd h)
      · intro ds hds
        rw [VecMap.get?_insertAll] at hds
        cases hsub : (S.incoming d₁ sp).get? c with
        | none => exact hm ds (by simpa [hsub] using hds)
        | some ds' => exact ⟨sp, hsp, by simpa [hsub] using hds⟩
  simpa [incomingCalls] using key sps .empty (fun _ h => h) (by simp)

variable [DecidableEq D] {P : IDETabulationProblem N F D E L} {G : ICFG N F}

theorem addIncoming_effect (S : IDESolver N D E) (sp : N) (d₃ : D) (n : N) (d₂ : D) :
    Effect S (S.addIncoming sp d₃ n d₂) (fun _ => False)
      (fun sp' d₃' c d₂' => sp' = sp ∧ d₃' = d₃ ∧ c = n ∧ d₂' = d₂) where
  jumpFn := rfl
  endsummaryTab := rfl
  mem_workList p := by simp [addIncoming]
  incoming sp' d₃' c d₂' := by
    simp only [Incoming, IDESolver.incoming, addIncoming]
    by_cases h : sp' = sp ∧ d₃' = d₃
    · obtain ⟨rfl, rfl⟩ := h
      rw [Table.modify_self, VecMap.alter, VecMap.get?_set]
      by_cases hc : n = c
      · subst hc
        cases hd : (S.incomingTab sp' d₃').get? n <;> simp [or_comm]
      · simp [hc, Ne.symm hc]
    · have hn : ¬ (sp' = sp ∧ d₃' = d₃ ∧ c = n ∧ d₂' = d₂) := fun hn => h ⟨hn.1, hn.2.1⟩
      rw [Table.modify_of_ne _ _ h]
      simp only [hn, or_false]

/-- Registering an end summary at every start point. -/
theorem addEndSummary_foldl (sps : List N) (S : IDESolver N D E) (d₁ : D) (e : N) (d₂ : D) (f : E) :
    ∃ T, sps.foldl (fun S sp => S.addEndSummary sp d₁ e d₂ f) S = { S with endsummaryTab := T } ∧
      ∀ sp d₁' x, (T sp d₁').get? x =
        if (sp ∈ sps ∧ d₁' = d₁) ∧ x = (e, d₂) then some f else (S.endsummaryTab sp d₁').get? x := by
  induction sps generalizing S with
  | nil => exact ⟨S.endsummaryTab, rfl, by simp⟩
  | cons sp₀ t ih =>
    obtain ⟨T, hT, hget⟩ := ih (S.addEndSummary sp₀ d₁ e d₂ f)
    refine ⟨T, hT, fun sp d₁' x => ?_⟩
    rw [hget]
    simp only [addEndSummary, Table.modify, List.mem_cons]
    by_cases h : sp = sp₀ ∧ d₁' = d₁
    · obtain ⟨rfl, rfl⟩ := h
      simp only [and_self, if_true, VecMap.get?_set, eq_comm (a := (e, d₂)), and_true, true_or,
        true_and]
      split_ifs <;> tauto
    · simp only [if_neg h]
      congr 1
      simp only [eq_iff_iff]
      tauto

/-! ### The invariant and its preservation -/

/-- `EndsummaryTab` holds the jump functions at exits, and `IncomingTab` the call facts, with a jump
function, that enter a callee; both for the jump functions `J`. -/
structure Links (P : IDETabulationProblem N F D E L) (G : ICFG N F) (J : PathEdge N D → Option E)
    (S : IDESolver N D E) : Prop where
  endSummary : ∀ sp d₁ e d₂ f, (S.endsummaryTab sp d₁).get? (e, d₂) = some f ↔
    (G.isExitInst e = true ∧ sp ∈ G.getStartPointsOf (G.getFunctionOf e)) ∧ J ⟨d₁, e, d₂⟩ = some f
  incoming : ∀ sp d₃ c d₂, S.Incoming sp d₃ c d₂ ↔
    (∃ g, sp ∈ G.getStartPointsOf g ∧ Enters P.cachedFlows G c d₂ g d₃) ∧
      ∃ d₁ f, J ⟨d₁, c, d₂⟩ = some f

/-- The rules that the solver saturates. -/
abbrev rules (P : IDETabulationProblem N F D E L) (G : ICFG N F) :
    Deduction.Rules (PathEdge N D) E :=
  tabulationRules P.cachedFlows P.toEdgeFunctions P.extendSummary G Eq P.IsSeed

open Deduction

/-- The incoming calls do not change with a jump function elsewhere than at a call site. -/
theorem Links.incoming_congr {S : IDESolver N D E} {k : PathEdge N D}
    {J J' : PathEdge N D → Option E} (hl : Links P G J S) (hJ : ∀ k' ≠ k, J' k' = J k')
    (hc : G.isCallSite k.target = false) (sp : N) (d₃ : D) (c : N) (d₂ : D) :
    S.Incoming sp d₃ c d₂ ↔ (∃ g, sp ∈ G.getStartPointsOf g ∧ Enters P.cachedFlows G c d₂ g d₃) ∧
      ∃ d₁ f, J' ⟨d₁, c, d₂⟩ = some f := by
  rw [hl.incoming]
  refine and_congr_right ?_
  rintro ⟨g, -, hen⟩
  have hne : ∀ d₁, (⟨d₁, c, d₂⟩ : PathEdge N D) ≠ k := by
    rintro d₁ rfl
    simp [hen.1] at hc
  simp only [hJ _ (hne _)]

/-- What holds in every reachable state. -/
structure Inv (P : IDETabulationProblem N F D E L) (G : ICFG N F) (S : IDESolver N D E) :
    Prop where
  synced : S.jumpFn.Synced P.isAllTop
  links : Links P G S.jumpFn.stored S

theorem Inv.init : Inv P G (init P) where
  synced := .empty
  links := ⟨fun _ _ _ _ _ => by simp [IDESolver.init],
    fun _ _ _ _ => by simp [IDESolver.init, Incoming, incoming]⟩

/-- The weights that are not stored. -/
abbrev dropped (P : IDETabulationProblem N F D E L) (e : E) : Prop := P.isAllTop e = true

/-- The weights of special summaries distribute, where there are any. -/
def SummariesDistribute (P : IDETabulationProblem N F D E L) : Prop :=
  ∀ c g, P.cachedFlows.getSummaryFlowFunction c g ≠ none → ∀ d₂ r d₃ a b,
    P.extendSummary (P.combine a b) (P.getSummaryEdgeFunction c d₂ r d₃) =
      P.combine (P.extendSummary a (P.getSummaryEdgeFunction c d₂ r d₃))
        (P.extendSummary b (P.getSummaryEdgeFunction c d₂ r d₃))

end IDESolver

namespace SparseIDESolver

open IDESolver Deduction

variable {N F D E L : Type*} [DecidableEq D]
  {P : IDETabulationProblem N F D E L} {G : ICFG N F} {nextUser : N → D → Option N}

/-! ### The rules with next users -/

/-- `FlowEdge` with its edges moved to next users; the self-loop of a callee stays. -/
inductive FlowEdge (P : IDETabulationProblem N F D E L) (G : ICFG N F)
    (nextUser : N → D → Option N) : PathEdge N D → PathEdge N D → (E → E) → Prop
  | normal {d₁ n d₂ m d₃} : G.isCallSite n = false → m ∈ G.getSuccsOf n →
      d₃ ∈ P.cachedFlows.getNormalFlowFunction n m d₂ →
      FlowEdge P G nextUser ⟨d₁, n, d₂⟩ ⟨d₁, destN nextUser n m d₃, d₃⟩
        (fun f => P.extend f (P.getNormalEdgeFunction n d₂ m d₃))
  | callToRet {d₁ c d₂ r d₃} : G.isCallSite c = true → r ∈ G.getReturnSitesOfCallAt c →
      d₃ ∈ P.cachedFlows.getCallToRetFlowFunction c r (G.getCalleesOfCallAt c) d₂ →
      FlowEdge P G nextUser ⟨d₁, c, d₂⟩ ⟨d₁, destN nextUser c r d₃, d₃⟩
        (fun f => P.extend f (P.getCallToRetEdgeFunction c d₂ r d₃ (G.getCalleesOfCallAt c)))
  | summary {d₁ c d₂ g h r d₃} : G.isCallSite c = true → g ∈ G.getCalleesOfCallAt c →
      P.cachedFlows.getSummaryFlowFunction c g = some h → r ∈ G.getReturnSitesOfCallAt c →
      d₃ ∈ h d₂ →
      FlowEdge P G nextUser ⟨d₁, c, d₂⟩ ⟨d₁, destN nextUser c r d₃, d₃⟩
        (fun f => P.extendSummary f (P.getSummaryEdgeFunction c d₂ r d₃))
  | callStart {d₁ c d₂ g sp d₃} : G.isCallSite c = true → g ∈ G.getCalleesOfCallAt c →
      P.cachedFlows.getSummaryFlowFunction c g = none → sp ∈ G.getStartPointsOf g →
      d₃ ∈ P.cachedFlows.getCallFlowFunction c g d₂ →
      FlowEdge P G nextUser ⟨d₁, c, d₂⟩ ⟨d₃, sp, d₃⟩ (fun _ => P.identity)

/-- `ReturnEdge` with its edges moved to next users. -/
inductive ReturnEdge (P : IDETabulationProblem N F D E L) (G : ICFG N F)
    (nextUser : N → D → Option N) :
    PathEdge N D → PathEdge N D → PathEdge N D → (E → E → E) → Prop
  | mk {d₁ c d₂ g d₃ e d₄ r d₅} : Enters P.cachedFlows G c d₂ g d₃ → e ∈ G.getExitPointsOf g →
      r ∈ G.getReturnSitesOfCallAt c → d₅ ∈ P.cachedFlows.getRetFlowFunction c g e r d₄ →
      ReturnEdge P G nextUser ⟨d₁, c, d₂⟩ ⟨d₃, e, d₄⟩ ⟨d₁, destN nextUser c r d₅, d₅⟩
        (fun f fCalleeSummary => P.extend f (P.extend
          (P.extend (P.getCallEdgeFunction c d₂ g d₃) fCalleeSummary)
          (P.getReturnEdgeFunction c g e d₄ r d₅)))

/-- The rules that the solver saturates. -/
def rules (P : IDETabulationProblem N F D E L) (G : ICFG N F) (nextUser : N → D → Option N) :
    Deduction.Rules (PathEdge N D) E where
  ax k e := P.IsSeed k.target k.dSource ∧ k.dTarget = k.dSource ∧ e = P.identity
  un := FlowEdge P G nextUser
  bin := ReturnEdge P G nextUser

/-- The same rule without next users. -/
theorem FlowEdge.dense {k k' : PathEdge N D} {φ : E → E} (h : FlowEdge P G nextUser k k' φ) :
    ∃ k₀, Phasar.FlowEdge P.cachedFlows P.toEdgeFunctions P.extendSummary G k k₀ φ := by
  cases h with
  | normal hc hm hd => exact ⟨_, .normal hc hm hd⟩
  | callToRet hc hr hd => exact ⟨_, .callToRet hc hr hd⟩
  | summary hc hg hs hr hd => exact ⟨_, .summary hc hg hs hr hd⟩
  | callStart hc hg hs hsp hd => exact ⟨_, .callStart hc hg hs hsp hd⟩

theorem ReturnEdge.dense {k₁ k₂ k₃ : PathEdge N D} {φ : E → E → E}
    (h : ReturnEdge P G nextUser k₁ k₂ k₃ φ) :
    ∃ k₀, Phasar.ReturnEdge P.cachedFlows P.toEdgeFunctions G Eq k₁ k₂ k₀ φ := by
  cases h with
  | mk hen he hr hd => exact ⟨_, .mk hen he he rfl hr hd⟩

theorem distributive_rules (law : LawfulEdgeFunctions P.toEdgeFunctions)
    (hsum : SummariesDistribute P) :
    letI := law.semilattice
    Distributive (rules P G nextUser) := by
  let _ := law.semilattice
  have h : Distributive (IDESolver.rules P G) := distributive_tabulationRules law hsum
  constructor
  · intro k k' φ hr
    obtain ⟨k₀, hr⟩ := FlowEdge.dense hr
    exact h.un hr
  · intro k₁ k₂ k₃ φ hr
    obtain ⟨k₀, hr⟩ := ReturnEdge.dense hr
    exact h.bin_left hr
  · intro k₁ k₂ k₃ φ hr
    obtain ⟨k₀, hr⟩ := ReturnEdge.dense hr
    exact h.bin_right hr

/-- Without next users these are the tabulation rules. -/
theorem rules_none : rules P G (fun _ _ => none) = IDESolver.rules P G := by
  have hun : FlowEdge P G (fun _ _ => none) =
      Phasar.FlowEdge P.cachedFlows P.toEdgeFunctions P.extendSummary G := by
    funext k k' φ
    refine propext ⟨fun h => ?_, fun h => ?_⟩
    · cases h with
      | normal hc hm hd => exact .normal hc hm hd
      | callToRet hc hr hd => exact .callToRet hc hr hd
      | summary hc hg hs hr hd => exact .summary hc hg hs hr hd
      | callStart hc hg hs hsp hd => exact .callStart hc hg hs hsp hd
    · cases h with
      | normal hc hm hd => exact .normal hc hm hd
      | callToRet hc hr hd => exact .callToRet hc hr hd
      | summary hc hg hs hr hd => exact .summary hc hg hs hr hd
      | callStart hc hg hs hsp hd => exact .callStart hc hg hs hsp hd
  have hbin : ReturnEdge P G (fun _ _ => none) =
      Phasar.ReturnEdge P.cachedFlows P.toEdgeFunctions G Eq := by
    funext k₁ k₂ k₃ φ
    refine propext ⟨fun h => ?_, fun h => ?_⟩
    · cases h with
      | mk hen he hr hd => exact .mk hen he he rfl hr hd
    · cases h with
      | mk hen he _ hee hr hd =>
        subst hee
        exact .mk hen he hr hd
  rw [rules, hun, hbin]
  rfl

variable [DecidableEq N]

/-! ### The effect of processing an edge -/

/-- The edges pushed for a fact `d₃` that enters `g` at `sp`. -/
def EnterPushes (P : IDETabulationProblem N F D E L) (G : ICFG N F)
    (nextUser : N → D → Option N) (T : Table N D (VecMap (N × D) E)) (edge : PathEdge N D) (f : E)
      (g : F) (sp : N) (d₃ : D)
    (p : PathEdge N D × E) : Prop :=
  p = (⟨d₃, sp, d₃⟩, P.identity) ∨
    ∃ eP d₄ fSum, (T sp d₃).get? (eP, d₄) = some fSum ∧
      ∃ r ∈ G.getReturnSitesOfCallAt edge.target,
        ∃ d₅ ∈ P.cachedFlows.getRetFlowFunction edge.target g eP r d₄,
          p = (⟨edge.dSource, destN nextUser edge.target r d₅, d₅⟩, P.extend f (P.extend
            (P.extend (P.getCallEdgeFunction edge.target edge.dTarget g d₃) fSum)
            (P.getReturnEdgeFunction edge.target g eP d₄ r d₅)))

theorem enterCallee_effect (edge : PathEdge N D) (f : E) (g : F) (sp : N) (d₃ : D)
    {T : Table N D (VecMap (N × D) E)} (S : IDESolver N D E) (hT : S.endsummaryTab = T) :
    Effect S (enterCallee P G nextUser edge f g sp S d₃) (EnterPushes P G nextUser T edge f g sp d₃)
      (fun sp' d₃' c d₂ => sp' = sp ∧ d₃' = d₃ ∧ c = edge.target ∧ d₂ = edge.dTarget) := by
  refine (((push_effect S _).trans (addIncoming_effect _ _ _ _ _)).trans (push_effect _ _)).congr
    (fun p => ?_) (by simp)
  subst hT
  simp only [EnterPushes, List.mem_singleton, or_false, endSummaryEdges, endSummary, addIncoming,
    push, advance_flatMap, advance_map, List.mem_flatMap, List.mem_map, Prod.exists,
      VecMap.mem_entries_iff, eq_comm (a := p)]

/-- The edges pushed for one callee of a call. -/
def CalleePushes (P : IDETabulationProblem N F D E L) (G : ICFG N F)
    (nextUser : N → D → Option N) (T : Table N D (VecMap (N × D) E)) (edge : PathEdge N D)
    (f : E) (g : F)
    (p : PathEdge N D × E) : Prop :=
  match P.cachedFlows.getSummaryFlowFunction edge.target g with
  | some specialSum => p ∈ advance nextUser edge.target (specialSummaryEdges P G edge f specialSum)
  | none => ∃ sp ∈ G.getStartPointsOf g,
      ∃ d₃ ∈ P.cachedFlows.getCallFlowFunction edge.target g edge.dTarget,
        EnterPushes P G nextUser T edge f g sp d₃ p

theorem processCallee_effect (edge : PathEdge N D) (f : E) (g : F)
    {T : Table N D (VecMap (N × D) E)} (S : IDESolver N D E) (hT : S.endsummaryTab = T) :
    Effect S (processCallee P G nextUser edge f S g) (CalleePushes P G nextUser T edge f g)
      (fun sp d₃ c d₂ => P.cachedFlows.getSummaryFlowFunction edge.target g = none ∧
        sp ∈ G.getStartPointsOf g ∧
        d₃ ∈ P.cachedFlows.getCallFlowFunction edge.target g edge.dTarget ∧
        c = edge.target ∧ d₂ = edge.dTarget) := by
  unfold processCallee CalleePushes
  cases hs : P.cachedFlows.getSummaryFlowFunction edge.target g with
  | some h => exact (push_effect S _).congr (by simp) (by simp)
  | none =>
    refine (Effect.foldl (T := T) (G.getStartPointsOf g) (fun sp _ S' hS' =>
      Effect.foldl _ (fun d₃ _ S'' hS'' => enterCallee_effect edge f g sp d₃ S'' hS'') S' hS')
      S hT).congr (by simp) (fun sp d₃ c d₂ => ?_)
    constructor
    · rintro ⟨sp', hsp, d₃', hd₃, rfl, rfl, rfl, rfl⟩
      exact ⟨rfl, hsp, hd₃, rfl, rfl⟩
    · rintro ⟨-, hsp, hd₃, rfl, rfl⟩
      exact ⟨sp, hsp, d₃, hd₃, rfl, rfl, rfl, rfl⟩

variable (P G nextUser) in
theorem processCall_effect (S : IDESolver N D E) (edge : PathEdge N D) :
    Effect S (processCall P G nextUser S edge)
      (fun p => (∃ g ∈ G.getCalleesOfCallAt edge.target,
          CalleePushes P G nextUser S.endsummaryTab edge (jumpFunction P S edge) g p) ∨
        p ∈ advance nextUser edge.target (callToReturnEdges P G edge (jumpFunction P S edge)))
      (fun sp d₃ c d₂ => ∃ g ∈ G.getCalleesOfCallAt edge.target,
        P.cachedFlows.getSummaryFlowFunction edge.target g = none ∧
        sp ∈ G.getStartPointsOf g ∧
        d₃ ∈ P.cachedFlows.getCallFlowFunction edge.target g edge.dTarget ∧
        c = edge.target ∧ d₂ = edge.dTarget) :=
  ((Effect.foldl (T := S.endsummaryTab) _
    (fun g _ S' hS' => processCallee_effect edge _ g S' hS') S rfl).trans (push_effect _ _)).congr
      (fun _ => Iff.rfl) (by simp)

/-- A callee pushes the rule applications that go through it. -/
theorem calleePushes_iff {T : Table N D (VecMap (N × D) E)} {J : PathEdge N D → Option E}
    (hT : ∀ sp d₁ e d₂ f, (T sp d₁).get? (e, d₂) = some f ↔
      (G.isExitInst e = true ∧ sp ∈ G.getStartPointsOf (G.getFunctionOf e)) ∧
        J ⟨d₁, e, d₂⟩ = some f)
    {d₁ d₂ : D} {c : N} {v : E} (hk : J ⟨d₁, c, d₂⟩ = some v) (hc : G.isCallSite c = true)
    (p : PathEdge N D × E) :
    ((∃ g ∈ G.getCalleesOfCallAt c, CalleePushes P G nextUser T ⟨d₁, c, d₂⟩ v g p) ∨
      p ∈ advance nextUser c (callToReturnEdges P G ⟨d₁, c, d₂⟩ v)) ↔
        Applies (rules P G nextUser) J ⟨d₁, c, d₂⟩ p := by
  constructor
  · rintro (⟨g, hg, hp⟩ | hp)
    · unfold CalleePushes at hp
      cases hs : P.cachedFlows.getSummaryFlowFunction c g with
      | some h =>
        simp only [hs, specialSummaryEdges, advance_flatMap, advance_map, List.mem_flatMap,
          List.mem_map] at hp
        obtain ⟨r, hr, d₃, hd₃, rfl⟩ := hp
        exact .un (R := rules P G nextUser) (.summary hc hg hs hr hd₃) hk
      | none =>
        simp only [hs] at hp
        obtain ⟨sp, hsp, d₃, hd₃, rfl | ⟨e, d₄, fSum, hget, r, hr, d₅, hd₅, rfl⟩⟩ := hp
        · exact .un (R := rules P G nextUser) (.callStart hc hg hs hsp hd₃) hk
        -- an end summary that is stored for the start point is one of this callee
        · obtain ⟨⟨he, hsp'⟩, hJ⟩ := (hT _ _ _ _ _).1 hget
          have hfun : G.getFunctionOf e = g :=
            (G.getFunctionOf_startPoint hsp').symm.trans (G.getFunctionOf_startPoint hsp)
          have hexit : e ∈ G.getExitPointsOf g := (G.mem_getExitPointsOf e g).2 ⟨he, hfun⟩
          have hret : ReturnEdge P G nextUser ⟨d₁, c, d₂⟩ ⟨d₃, e, d₄⟩
              ⟨d₁, destN nextUser c r d₅, d₅⟩ _ := .mk ⟨hc, hg, hs, ⟨sp, hsp⟩, hd₃⟩ hexit hr hd₅
          have happ := Applies.left (R := rules P G nextUser) hret hk hJ
          exact happ
    · simp only [callToReturnEdges, advance_flatMap, advance_map, List.mem_flatMap,
        List.mem_map] at hp
      obtain ⟨r, hr, d₃, hd₃, rfl⟩ := hp
      have hflow : FlowEdge P G nextUser ⟨d₁, c, d₂⟩ ⟨d₁, destN nextUser c r d₃, d₃⟩ _ :=
        .callToRet hc hr hd₃
      have happ := Applies.un (R := rules P G nextUser) hflow hk
      exact happ
  · rintro (⟨hr, hv⟩ | ⟨hr, hv, hJ⟩ | ⟨hr, -, -⟩)
    · obtain rfl := Option.some.inj (hk.symm.trans hv)
      cases hr with
      | normal hc' => simp [hc] at hc'
      | callToRet _ hr hd₃ =>
        refine Or.inr ?_
        simp only [callToReturnEdges, advance_flatMap, advance_map, List.mem_flatMap, List.mem_map]
        exact ⟨_, hr, _, hd₃, rfl⟩
      | @summary _ _ _ g h r d₃ _ hg hs hr hd₃ =>
        refine Or.inl ⟨g, hg, ?_⟩
        simp only [CalleePushes, hs, specialSummaryEdges, advance_flatMap, advance_map,
          List.mem_flatMap, List.mem_map]
        exact ⟨_, hr, _, hd₃, rfl⟩
      | @callStart _ _ _ g sp d₃ _ hg hs hsp hd₃ =>
        refine Or.inl ⟨g, hg, ?_⟩
        simp only [CalleePushes, hs]
        exact ⟨sp, hsp, d₃, hd₃, Or.inl rfl⟩
    · obtain rfl := Option.some.inj (hk.symm.trans hv)
      cases hr with
      | @mk _ _ _ g d₃ e d₄ r d₅ hen he hr hd₅ =>
        obtain ⟨_, hg, hs, ⟨sp, hsp⟩, hd₃⟩ := hen
        obtain ⟨hexit, hfun⟩ := (G.mem_getExitPointsOf e g).1 he
        refine Or.inl ⟨g, hg, ?_⟩
        simp only [CalleePushes, hs]
        exact ⟨sp, hsp, d₃, hd₃, Or.inr ⟨e, d₄, _,
          (hT _ _ _ _ _).2 ⟨⟨hexit, hfun ▸ hsp⟩, hJ⟩, r, hr, d₅, hd₅, rfl⟩⟩
    -- an exit is no call site
    · cases hr with
      | mk _ he _ _ =>
        have hnc := G.exit_not_callSite c ((G.mem_getExitPointsOf c _).1 he).1
        simp [hnc] at hc

/-- Processing a call site pushes the rule applications with its path edge. -/
theorem processCall_links {S : IDESolver N D E} {k : PathEdge N D} {J : PathEdge N D → Option E}
    {v : E} (hl : Links P G J S) (hsync : S.jumpFn.Synced P.isAllTop)
    (hk : S.jumpFn.stored k = some v) (hJ : ∀ k' ≠ k, S.jumpFn.stored k' = J k')
    (hc : G.isCallSite k.target = true) :
    Links P G S.jumpFn.stored (processCall P G nextUser S k) ∧
      ∀ p, p ∈ (processCall P G nextUser S k).workList ↔
        p ∈ S.workList ∨ Applies (rules P G nextUser) S.jumpFn.stored k p := by
  obtain ⟨d₁, c, d₂⟩ := k
  have heff := processCall_effect P G nextUser S ⟨d₁, c, d₂⟩
  have hf : jumpFunction P S ⟨d₁, c, d₂⟩ = v := by
    simp [jumpFunction, hsync.forward ⟨d₁, c, d₂⟩, hk]
  rw [hf] at heff
  have hT : ∀ sp d₁ e d₂ f, (S.endsummaryTab sp d₁).get? (e, d₂) = some f ↔
      (G.isExitInst e = true ∧ sp ∈ G.getStartPointsOf (G.getFunctionOf e)) ∧
        S.jumpFn.stored ⟨d₁, e, d₂⟩ = some f := by
    intro sp d₁' e d₂' f
    rw [hl.endSummary]
    refine and_congr_right fun he => ?_
    rw [hJ]
    rintro ⟨rfl, rfl, rfl⟩
    simp [G.exit_not_callSite _ he.1] at hc
  refine ⟨⟨fun sp d₁ e d₂ f => ?_, fun sp d₃ c' d₂' => ?_⟩, fun p => ?_⟩
  · rw [heff.endsummaryTab, hT]
  · rw [heff.incoming, hl.incoming]
    constructor
    · rintro (⟨hen, d, f, hf⟩ | ⟨g, hg, hs, hsp, hd₃, rfl, rfl⟩)
      · by_cases hkk : (⟨d, c', d₂'⟩ : PathEdge N D) = ⟨d₁, c, d₂⟩
        · exact ⟨hen, d, v, by rw [hkk, hk]⟩
        · exact ⟨hen, d, f, by rw [hJ _ hkk, hf]⟩
      · exact ⟨⟨g, hsp, hc, hg, hs, ⟨sp, hsp⟩, hd₃⟩, d₁, v, hk⟩
    · rintro ⟨⟨g, hsp, hen⟩, d, f, hf⟩
      by_cases hkk : (⟨d, c', d₂'⟩ : PathEdge N D) = ⟨d₁, c, d₂⟩
      · obtain ⟨rfl, rfl, rfl⟩ := hkk
        obtain ⟨_, hg, hs, _, hd₃⟩ := hen
        exact Or.inr ⟨g, hg, hs, hsp, hd₃, rfl, rfl⟩
      · exact Or.inl ⟨⟨g, hsp, hen⟩, d, f, by rw [← hJ _ hkk, hf]⟩
  · rw [heff.mem_workList, calleePushes_iff hT hk hc]

variable [DecidableEq E]

/-- Processing an exit pushes the rule applications that return from it. -/
theorem processExit_links (hf : P.solverConfig.followReturnsPastSeeds = false)
    {S : IDESolver N D E} {k : PathEdge N D} {J : PathEdge N D → Option E} {v : E}
    (hl : Links P G J S) (hsync : S.jumpFn.Synced P.isAllTop)
    (hk : S.jumpFn.stored k = some v) (hJ : ∀ k' ≠ k, S.jumpFn.stored k' = J k')
    (hc : G.isCallSite k.target = false) (he : G.isExitInst k.target = true) :
    (processExit P G nextUser S k).jumpFn = S.jumpFn ∧
    Links P G S.jumpFn.stored (processExit P G nextUser S k) ∧
      ∀ p, p ∈ (processExit P G nextUser S k).workList ↔ p ∈ S.workList ∨
        ∃ k₁ k₃ f e₁, ReturnEdge P G nextUser k₁ k k₃ f ∧
          S.jumpFn.stored k₁ = some e₁ ∧ p = (k₃, f e₁ v) := by
  obtain ⟨d₁, e, d₂⟩ := k
  obtain ⟨T, hT, hget⟩ := addEndSummary_foldl
    (G.getStartPointsOf (G.getFunctionOf e)) S d₁ e d₂ v
  have hv : jumpFunction P S ⟨d₁, e, d₂⟩ = v := by
    simp [jumpFunction, hsync.forward ⟨d₁, e, d₂⟩, hk]
  set sps := G.getStartPointsOf (G.getFunctionOf e) with hsps
  set S₁ : IDESolver N D E := { S with endsummaryTab := T } with hS₁
  set inc := S₁.incomingCalls d₁ sps with hinc
  have hproc : processExit P G nextUser S ⟨d₁, e, d₂⟩ =
      S₁.push (inc.entries.flatMap fun en =>
        advance nextUser en.1 (returnEdges P G S₁ ⟨d₁, e, d₂⟩ v en.1 en.2)) := by
    simp only [processExit, hv, ← hsps, hT, hf, Bool.false_and, Bool.false_eq_true, if_false]
    rfl
  have hin := hl.incoming_congr hJ hc
  rw [hproc]
  refine ⟨rfl, ⟨fun sp d₁' e' d₂' f => ?_, hin⟩, fun p => ?_⟩
  · show (T sp d₁').get? (e', d₂') = some f ↔ _
    rw [hget]
    -- the summary of `k` is the only one that is written
    by_cases hx : (sp ∈ sps ∧ d₁' = d₁) ∧ (e', d₂') = (e, d₂)
    · obtain ⟨⟨hsp, rfl⟩, hx⟩ := hx
      obtain ⟨rfl, rfl⟩ := Prod.mk.inj hx
      simp [hsp, he, hk, ← hsps]
    · rw [if_neg hx, hl.endSummary]
      refine and_congr_right fun hex => ?_
      rw [hJ]
      rintro ⟨rfl, rfl, rfl⟩
      exact hx ⟨⟨hex.2, rfl⟩, rfl⟩
  · have hmem : p ∈ (S₁.push (inc.entries.flatMap fun en =>
        advance nextUser en.1 (returnEdges P G S₁ ⟨d₁, e, d₂⟩ v en.1 en.2))).workList ↔
        p ∈ S.workList ∨ ∃ c ds, inc.get? c = some ds ∧
          p ∈ advance nextUser c (returnEdges P G S₁ ⟨d₁, e, d₂⟩ v c ds) := by
      simp [push, hS₁, VecMap.mem_entries_iff]
    rw [hmem]
    refine or_congr_right ?_
    have hcalls := @mem_incomingCalls _ _ _ _ S₁ d₁ sps (by
      intro sp hsp sp' hsp' c d₄ h
      obtain ⟨⟨g, hg, hen⟩, hst⟩ := (hin sp d₁ c d₄).1 h
      refine (hin sp' d₁ c d₄).2 ⟨⟨g, ?_, hen⟩, hst⟩
      rwa [← G.getFunctionOf_startPoint hg, G.getFunctionOf_startPoint hsp])
    constructor
    · rintro ⟨c, ds, hds, hp⟩
      simp only [returnEdges, advance_flatMap, advance_map, List.mem_flatMap, List.mem_map,
        List.mem_filter, Prod.exists, JumpFunctions.mem_reverseLookup] at hp
      obtain ⟨r, hr, d₄, hd₄, d₅, hd₅, d₃, f₃, ⟨hf₃, -⟩, rfl⟩ := hp
      -- the call entered the function of the exit, since a start point belongs to one function only
      obtain ⟨sp, hsp, hi⟩ := (hcalls c d₄).1 ⟨ds, hds, hd₄⟩
      obtain ⟨⟨g, hg, hen⟩, -⟩ := (hin sp d₁ c d₄).1 hi
      have hfun : G.getFunctionOf e = g :=
        (G.getFunctionOf_startPoint hsp).symm.trans (G.getFunctionOf_startPoint hg)
      subst hfun
      have hexit := (G.mem_getExitPointsOf e (G.getFunctionOf e)).2 ⟨he, rfl⟩
      exact ⟨_, _, _, f₃, .mk hen hexit hr hd₅, hf₃, rfl⟩
    · rintro ⟨k₁, k₃, f, f₃, hret, hf₃, rfl⟩
      cases hret with
      | @mk d₃ c d₄ g _ _ _ r d₅ hen hex hr hd₅ =>
        obtain rfl := ((G.mem_getExitPointsOf e g).1 hex).2
        obtain ⟨sp, hsp⟩ := hen.2.2.2.1
        obtain ⟨ds, hds, hd₄⟩ := (hcalls c d₄).2 ⟨sp, hsp,
          (hin sp d₁ c d₄).2 ⟨⟨_, hsp, hen⟩, d₃, f₃, hf₃⟩⟩
        refine ⟨c, ds, hds, ?_⟩
        simp only [returnEdges, advance_flatMap, advance_map, List.mem_flatMap, List.mem_map,
          List.mem_filter, Prod.exists, JumpFunctions.mem_reverseLookup]
        have hnt : f₃ ≠ P.allTopFunction := fun h => by
          simpa [(P.isAllTop_iff f₃).2 h] using hsync.not_allTop hf₃
        exact ⟨r, hr, d₄, hd₄, d₅, hd₅, d₃, f₃, ⟨hf₃, by simpa using hnt⟩, rfl⟩

/-- **Processing a path edge pushes the rule applications with it.** -/
theorem pathEdgeProcessingTask_links (hf : P.solverConfig.followReturnsPastSeeds = false)
    {S : IDESolver N D E} {k : PathEdge N D} {J : PathEdge N D → Option E} {v : E}
    (hl : Links P G J S) (hsync : S.jumpFn.Synced P.isAllTop)
    (hk : S.jumpFn.stored k = some v) (hJ : ∀ k' ≠ k, S.jumpFn.stored k' = J k') :
    (pathEdgeProcessingTask P G nextUser S k).jumpFn = S.jumpFn ∧
    Links P G S.jumpFn.stored (pathEdgeProcessingTask P G nextUser S k) ∧
      ∀ p, p ∈ (pathEdgeProcessingTask P G nextUser S k).workList ↔
        p ∈ S.workList ∨ Applies (rules P G nextUser) S.jumpFn.stored k p := by
  cases hc : G.isCallSite k.target with
  | true =>
    simp only [pathEdgeProcessingTask, hc, Bool.not_true, Bool.false_eq_true, if_false]
    exact ⟨(processCall_effect P G nextUser S k).jumpFn, processCall_links hl hsync hk hJ hc⟩
  | false =>
    simp only [pathEdgeProcessingTask, hc, Bool.not_false, if_true]
    -- the exit part
    have hexit : ∃ S₁ : IDESolver N D E,
        (if G.isExitInst k.target then processExit P G nextUser S k else S) = S₁ ∧
        S₁.jumpFn = S.jumpFn ∧ Links P G S.jumpFn.stored S₁ ∧
        ∀ p, p ∈ S₁.workList ↔ p ∈ S.workList ∨
          ∃ k₁ k₃ f e₁, ReturnEdge P G nextUser k₁ k k₃ f ∧
            S.jumpFn.stored k₁ = some e₁ ∧ p = (k₃, f e₁ v) := by
      cases he : G.isExitInst k.target with
      | true => exact ⟨_, by simp, processExit_links hf hl hsync hk hJ hc he⟩
      | false =>
        refine ⟨S, by simp, rfl, ⟨fun sp d₁ e d₂ f => ?_, hl.incoming_congr hJ hc⟩, fun p => ?_⟩
        · rw [hl.endSummary]
          refine and_congr_right fun hex => ?_
          rw [hJ]
          rintro rfl
          simp [he] at hex
        · refine (or_iff_left ?_).symm
          rintro ⟨k₁, k₃, f, e₁, ⟨-, hex, -, -⟩, -, -⟩
          simp [((G.mem_getExitPointsOf _ _).1 hex).1] at he
    obtain ⟨S₁, hS₁, hjf, hl₁, hmem₁⟩ := hexit
    rw [hS₁]
    have hv : jumpFunction P S₁ k = v := by
      rw [jumpFunction, hjf, hsync.forward k, hk, Option.getD_some]
    -- without successors `processNormalFlow` pushes nothing
    have hnormal : (if !(G.getSuccsOf k.target).isEmpty
          then processNormalFlow P G nextUser S₁ k else S₁) =
        processNormalFlow P G nextUser S₁ k := by
      by_cases h : G.getSuccsOf k.target = []
      · simp [h, processNormalFlow, push]
      · simp [h]
    rw [hnormal]
    refine ⟨hjf, ⟨hl₁.endSummary, hl₁.incoming⟩, fun p => ?_⟩
    simp only [processNormalFlow, hv, push, List.mem_append, List.mem_flatMap, List.mem_map, hmem₁]
    obtain ⟨d₁, n, d₂⟩ := k
    constructor
    · rintro ((hp | ⟨k₁, k₃, f, e₁, hret, he₁, rfl⟩) | ⟨m, hm, d₃, hd₃, rfl⟩)
      · exact Or.inl hp
      · exact Or.inr (.right (R := rules P G nextUser) hret he₁ hk)
      · have hflow : FlowEdge P G nextUser ⟨d₁, n, d₂⟩ ⟨d₁, destN nextUser n m d₃, d₃⟩ _ :=
          .normal hc hm hd₃
        have happ := Applies.un (R := rules P G nextUser) hflow hk
        exact Or.inr happ
    · rintro (hp | ⟨hr, hv'⟩ | ⟨hr, -, -⟩ | ⟨hr, he₁, hv'⟩)
      · exact Or.inl (Or.inl hp)
      · obtain rfl := Option.some.inj (hk.symm.trans hv')
        cases hr with
        | normal _ hm hd₃ => exact Or.inr ⟨_, hm, _, hd₃, rfl⟩
        | callToRet hc' => simp [hc] at hc'
        | summary hc' => simp [hc] at hc'
        | callStart hc' => simp [hc] at hc'
      · cases hr with
        | mk hen => exact absurd hen.1 (by simp [hc])
      · obtain rfl := Option.some.inj (hk.symm.trans hv')
        exact Or.inl (Or.inr ⟨_, _, _, _, hr, he₁, rfl⟩)

section Lawful

variable (law : LawfulEdgeFunctions P.toEdgeFunctions)

include law in
/-- `propagate` finds its edge function dropped or covered, or raises the jump function. -/
theorem propagate_cases {S : IDESolver N D E} (hsync : S.jumpFn.Synced P.isAllTop)
    (k : PathEdge N D) (x : E) :
    let _ := law.semilattice
    (propagate P G nextUser S k x = S ∧ (dropped P x ∨ Covers (S.jumpFn.stored k) x)) ∨
      ∃ v, v = joinInto (S.jumpFn.stored k) x ∧ ¬ dropped P x ∧ P.isAllTop v = false ∧
        ¬ Covers (S.jumpFn.stored k) x ∧
        propagate P G nextUser S k x = pathEdgeProcessingTask P G nextUser
          { S with jumpFn := S.jumpFn.addFunction P.isAllTop k.dSource k.target k.dTarget v } k := by
  intro _
  have htop : P.isAllTop P.allTopFunction = true := (P.isAllTop_iff _).2 rfl
  cases hk : S.jumpFn.stored k with
  | none =>
    have hcomb : P.combine P.allTopFunction x = x := law.allTop_combine _ x htop
    cases hx : P.isAllTop x with
    | true =>
      refine Or.inl ⟨?_, Or.inl hx⟩
      have hxt : x = P.allTopFunction := (P.isAllTop_iff x).1 hx
      subst hxt
      simp [propagate, hk, hcomb]
    | false =>
      have hne : x ≠ P.allTopFunction := fun h => by simp [h, htop] at hx
      refine Or.inr ⟨x, rfl, by simp [hx], hx, by simp, ?_⟩
      simp [propagate, hk, hcomb, hne]
  | some e =>
    have he : P.isAllTop e = false := hsync.not_allTop hk
    by_cases hle : P.combine e x = e
    · refine Or.inl ⟨?_, Or.inr (covers_some.2 ?_)⟩
      · simp [propagate, hk, hle]
      · exact (law.combine_comm x e).trans hle
    · refine Or.inr ⟨P.combine e x, rfl, fun hx => hle ?_, ?_, fun hc => hle ?_, ?_⟩
      · rw [law.combine_comm]
        exact law.allTop_combine x e hx
      · refine Bool.eq_false_iff.2 fun htop' => hle ?_
        calc P.combine e x
            = P.combine (P.combine e e) x := by rw [law.combine_idem]
          _ = P.combine e (P.combine e x) := law.combine_assoc e e x
          _ = P.combine (P.combine e x) e := law.combine_comm _ _
          _ = e := law.allTop_combine _ e htop'
      · exact (law.combine_comm e x).trans (covers_some.1 hc)
      · simp [propagate, hk, hle]

include law in
/-- **A step preserves the invariant and refines the chaotic iteration of the rules.** It shortens
the work list or raises a jump function. -/
theorem propagates_of_step (hf : P.solverConfig.followReturnsPastSeeds = false)
    {S S' : IDESolver N D E} (hi : Inv P G S) (hs : Step P G nextUser S S') :
    let _ := law.semilattice
    Inv P G S' ∧ Propagates (rules P G nextUser) (dropped P) S.jumpFn.stored S.workList
      S'.jumpFn.stored S'.workList ∧
      ((S'.jumpFn.stored = S.jumpFn.stored ∧ S'.workList.length < S.workList.length) ∨
        ∃ k x, ¬ Covers (S.jumpFn.stored k) x ∧ Raise S.jumpFn.stored S'.jumpFn.stored k x) := by
  intro _
  obtain ⟨l, r, k, x, hW⟩ := hs
  have hrest : ∀ p ∈ S.workList, p = (k, x) ∨ p ∈ l ++ r := by
    intro p hp
    rw [hW] at hp
    simp only [List.mem_append, List.mem_cons] at hp ⊢
    tauto
  have hback : ∀ p ∈ l ++ r, p ∈ S.workList := by
    intro p hp
    rw [hW]
    simp only [List.mem_append, List.mem_cons] at hp ⊢
    tauto
  rcases propagate_cases law (G := G) (S := { S with workList := l ++ r }) hi.synced k x with
    ⟨heq, hx⟩ | ⟨v, hv, hz, hvt, hcov, heq⟩
  · rw [heq]
    refine ⟨⟨hi.synced, hi.links.endSummary, hi.links.incoming⟩, .skip k x hx rfl hrest hback,
      Or.inl ⟨rfl, ?_⟩⟩
    simp [hW]
  · rw [heq]
    set S₁ : IDESolver N D E := { S with
      workList := l ++ r
      jumpFn := S.jumpFn.addFunction P.isAllTop k.dSource k.target k.dTarget v } with hS₁
    have hst : ∀ k', S₁.jumpFn.stored k' = if k' = k then some v else S.jumpFn.stored k' :=
      JumpFunctions.stored_addFunction hvt
    have hsync : S₁.jumpFn.Synced P.isAllTop := hi.synced.addFunction k v
    obtain ⟨hjf, hlinks, hmem⟩ := pathEdgeProcessingTask_links (G := G) hf (S := S₁) (k := k)
      (v := v) ⟨hi.links.endSummary, hi.links.incoming⟩ hsync (by simp [hst])
      (fun k' hk' => by simp [hst, hk'])
    have hraise : Raise S.jumpFn.stored S₁.jumpFn.stored k x :=
      ⟨by simp [hst, hv], fun hk' => by simp [hst, hk']⟩
    refine ⟨⟨by rw [hjf]; exact hsync, by rw [hjf]; exact hlinks⟩, ?_⟩
    rw [hjf]
    refine ⟨.raise k x (by simp [hW]) hz hraise ?_ ?_ ?_, Or.inr ⟨k, x, hcov, hraise⟩⟩
    · intro p hp
      exact (hrest p hp).imp_right fun h => (hmem p).2 (Or.inl h)
    · intro p hp
      rcases (hmem p).1 hp with h | h
      · exact Or.inl (hback p h)
      · exact Or.inr h.conclusion
    · exact fun p hp => (hmem p).2 (Or.inr hp)

include law in
/-- Every reachable state is closed and sound up to its work list. -/
theorem pending_of_reachable (hf : P.solverConfig.followReturnsPastSeeds = false)
    (hsum : SummariesDistribute P) {S : IDESolver N D E} (hS : Reachable P G nextUser S) :
    let _ := law.semilattice
    Inv P G S ∧ Pending (rules P G nextUser) (dropped P) S.jumpFn.stored S.workList := by
  intro _
  induction hS with
  | init =>
    refine ⟨Inv.init, Pending.init ?_ ?_⟩
    · rintro ⟨d₁, n, d₂⟩ e ⟨⟨facts, hfacts, hd⟩, hd₂, rfl⟩
      obtain rfl : d₂ = d₁ := hd₂
      obtain ⟨⟨d, l⟩, hmem, rfl⟩ := List.mem_map.1 hd
      exact List.mem_flatMap.2 ⟨_, hfacts, List.mem_map.2 ⟨_, hmem, rfl⟩⟩
    · intro k e hmem
      obtain ⟨⟨n, facts⟩, hfacts, hp⟩ := List.mem_flatMap.1 hmem
      obtain ⟨⟨d, l⟩, hd, heq⟩ := List.mem_map.1 hp
      obtain ⟨rfl, rfl⟩ := Prod.mk.inj heq
      exact ⟨⟨facts, hfacts, List.mem_map.2 ⟨_, hd, rfl⟩⟩, rfl, rfl⟩
  | step _ hs ih =>
    obtain ⟨hi, hp, -⟩ := propagates_of_step law hf ih.1 hs
    exact ⟨hi, ih.2.step (fun x hx y => law.allTop_le hx y)
      (distributive_rules law hsum) hp⟩

include law in
/-- **With an empty work list the jump functions are closed under the rules and sound.** -/
theorem exact_of_empty (hf : P.solverConfig.followReturnsPastSeeds = false)
    (hsum : SummariesDistribute P) {S : IDESolver N D E} (hS : Reachable P G nextUser S)
    (hW : S.workList = []) :
    let _ := law.semilattice
    Closed (rules P G nextUser) (dropped P) S.jumpFn.stored ∧
      Sound (rules P G nextUser) (dropped P) S.jumpFn.stored := by
  intro _
  have hp := (pending_of_reachable law hf hsum hS).2
  rw [hW] at hp
  exact ⟨hp.closed, hp.sound⟩

end Lawful

end SparseIDESolver

namespace IDESolver

open Deduction

variable {N F D E L : Type*} [DecidableEq N] [DecidableEq D] [DecidableEq E]
  {P : IDETabulationProblem N F D E L} {G : ICFG N F}

/-- **A step preserves the invariant and refines the chaotic iteration of the rules.** It shortens
the work list or raises a jump function. -/
theorem propagates_of_step (law : LawfulEdgeFunctions P.toEdgeFunctions)
    (hf : P.solverConfig.followReturnsPastSeeds = false)
    {S S' : IDESolver N D E} (hi : Inv P G S) (hs : Step P G S S') :
    let _ := law.semilattice
    Inv P G S' ∧ Propagates (rules P G) (dropped P) S.jumpFn.stored S.workList
      S'.jumpFn.stored S'.workList ∧
      ((S'.jumpFn.stored = S.jumpFn.stored ∧ S'.workList.length < S.workList.length) ∨
        ∃ k x, ¬ Covers (S.jumpFn.stored k) x ∧ Raise S.jumpFn.stored S'.jumpFn.stored k x) := by
  obtain ⟨l, r, k, x, hW⟩ := hs
  rw [← SparseIDESolver.propagate_none, ← SparseIDESolver.rules_none]
  exact SparseIDESolver.propagates_of_step law hf hi (.take l r k x hW)

/-- Every reachable state is closed and sound up to its work list. -/
theorem pending_of_reachable (law : LawfulEdgeFunctions P.toEdgeFunctions)
    (hf : P.solverConfig.followReturnsPastSeeds = false)
    (hsum : SummariesDistribute P) {S : IDESolver N D E} (hS : Reachable P G S) :
    let _ := law.semilattice
    Inv P G S ∧ Pending (rules P G) (dropped P) S.jumpFn.stored S.workList := by
  rw [← SparseIDESolver.rules_none]
  exact SparseIDESolver.pending_of_reachable law hf hsum (SparseIDESolver.reachable_none hS)

/-- **With an empty work list the jump functions are closed under the rules and sound.** -/
theorem exact_of_empty (law : LawfulEdgeFunctions P.toEdgeFunctions)
    (hf : P.solverConfig.followReturnsPastSeeds = false)
    (hsum : SummariesDistribute P) {S : IDESolver N D E} (hS : Reachable P G S)
    (hW : S.workList = []) :
    let _ := law.semilattice
    Closed (rules P G) (dropped P) S.jumpFn.stored ∧
      Sound (rules P G) (dropped P) S.jumpFn.stored := by
  rw [← SparseIDESolver.rules_none]
  exact SparseIDESolver.exact_of_empty law hf hsum (SparseIDESolver.reachable_none hS) hW

end IDESolver

end Phasar
