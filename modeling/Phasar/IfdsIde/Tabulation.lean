import Phasar.IfdsIde.JumpFunctions
import Phasar.Lib.Propagation

/-!
# The tabulation rules

The deduction system that both IDE solvers saturate: path edges are the items, edge functions the
weights, the seeds' self-loops the axioms. A flow edge extends one path edge, a return edge joins a
path edge at a call site with a path edge of a callee.

* `FlowEdge`, `ReturnEdge`, `tabulationRules`;
* `ReturnEdge` takes the relation between the exit a callee fact reaches and the exit whose return
  flow is applied to it: `Eq` where each exit is treated on its own;
* `deriv_transport`: other edge functions derive the same path edges, if none is dropped;
* `distributive_tabulationRules`: for lawful edge functions the rules distribute over `combine`.
-/

namespace Phasar

variable {N F D E : Type*}

/-- Path edges that extend a path edge by one edge of the exploded supergraph, or that enter a
callee. -/
inductive FlowEdge (FF : IFDSTabulationProblem N F D) (EF : EdgeFunctions N F D E)
    (extendSummary : E → Option E → E) (G : ICFG N F) :
    PathEdge N D → PathEdge N D → (E → E) → Prop
  | normal {d₁ n d₂ m d₃} : G.isCallSite n = false → m ∈ G.getSuccsOf n →
      d₃ ∈ FF.getNormalFlowFunction n m d₂ →
      FlowEdge FF EF extendSummary G ⟨d₁, n, d₂⟩ ⟨d₁, m, d₃⟩
        (fun f => EF.extend f (EF.getNormalEdgeFunction n d₂ m d₃))
  | callToRet {d₁ c d₂ r d₃} : G.isCallSite c = true → r ∈ G.getReturnSitesOfCallAt c →
      d₃ ∈ FF.getCallToRetFlowFunction c r (G.getCalleesOfCallAt c) d₂ →
      FlowEdge FF EF extendSummary G ⟨d₁, c, d₂⟩ ⟨d₁, r, d₃⟩
        (fun f => EF.extend f (EF.getCallToRetEdgeFunction c d₂ r d₃ (G.getCalleesOfCallAt c)))
  | summary {d₁ c d₂ g h r d₃} : G.isCallSite c = true → g ∈ G.getCalleesOfCallAt c →
      FF.getSummaryFlowFunction c g = some h → r ∈ G.getReturnSitesOfCallAt c → d₃ ∈ h d₂ →
      FlowEdge FF EF extendSummary G ⟨d₁, c, d₂⟩ ⟨d₁, r, d₃⟩
        (fun f => extendSummary f (EF.getSummaryEdgeFunction c d₂ r d₃))
  | callStart {d₁ c d₂ g sp d₃} : G.isCallSite c = true → g ∈ G.getCalleesOfCallAt c →
      FF.getSummaryFlowFunction c g = none → sp ∈ G.getStartPointsOf g →
      d₃ ∈ FF.getCallFlowFunction c g d₂ →
      FlowEdge FF EF extendSummary G ⟨d₁, c, d₂⟩ ⟨d₃, sp, d₃⟩ (fun _ => EF.identity)

/-- The fact `d₂` at the call site `c` enters `g` as `d₃`, without a special summary. -/
def Enters (FF : IFDSTabulationProblem N F D) (G : ICFG N F) (c : N) (d₂ : D) (g : F) (d₃ : D) :
    Prop :=
  G.isCallSite c = true ∧ g ∈ G.getCalleesOfCallAt c ∧ FF.getSummaryFlowFunction c g = none ∧
    (∃ sp, sp ∈ G.getStartPointsOf g) ∧ d₃ ∈ FF.getCallFlowFunction c g d₂

/-- Path edges made of a path edge at a call site and a path edge at an exit of a callee. The fact
holds at the exit `e`, and the return flow of the exit `e'` is applied. -/
inductive ReturnEdge (FF : IFDSTabulationProblem N F D) (EF : EdgeFunctions N F D E) (G : ICFG N F)
    (exits : N → N → Prop) :
    PathEdge N D → PathEdge N D → PathEdge N D → (E → E → E) → Prop
  | mk {d₁ c d₂ g d₃ e e' d₄ r d₅} : Enters FF G c d₂ g d₃ → e ∈ G.getExitPointsOf g →
      e' ∈ G.getExitPointsOf g → exits e e' → r ∈ G.getReturnSitesOfCallAt c →
      d₅ ∈ FF.getRetFlowFunction c g e' r d₄ →
      ReturnEdge FF EF G exits ⟨d₁, c, d₂⟩ ⟨d₃, e, d₄⟩ ⟨d₁, r, d₅⟩
        (fun f fCalleeSummary => EF.extend f (EF.extend
          (EF.extend (EF.getCallEdgeFunction c d₂ g d₃) fCalleeSummary)
          (EF.getReturnEdgeFunction c g e' d₄ r d₅)))

/-- The tabulation rules for the given seeds. -/
def tabulationRules (FF : IFDSTabulationProblem N F D) (EF : EdgeFunctions N F D E)
    (extendSummary : E → Option E → E) (G : ICFG N F) (exits : N → N → Prop)
    (seed : N → D → Prop) : Deduction.Rules (PathEdge N D) E where
  ax k e := seed k.target k.dSource ∧ k.dTarget = k.dSource ∧ e = EF.identity
  un := FlowEdge FF EF extendSummary G
  bin := ReturnEdge FF EF G exits

variable {FF : IFDSTabulationProblem N F D} {EF : EdgeFunctions N F D E}
  {extendSummary : E → Option E → E} {G : ICFG N F} {exits exits' : N → N → Prop}
  {seed : N → D → Prop}

/-- More pairs of exits give more rules. -/
theorem tabulationRules_le (h : ∀ e e', exits e e' → exits' e e') :
    (tabulationRules FF EF extendSummary G exits seed).Le
      (tabulationRules FF EF extendSummary G exits' seed) where
  ax h := h
  un h := h
  bin := by
    rintro _ _ _ _ ⟨hc, he, he', hx, hr, hd⟩
    exact .mk hc he he' (h _ _ hx) hr hd

/-! ### Other edge functions -/

variable {E' : Type*} {EF' : EdgeFunctions N F D E'} {extendSummary' : E' → Option E' → E'}

/-- The rules make weights with `A` from weights with `A`. -/
structure EdgeClosed (EF' : EdgeFunctions N F D E') (extendSummary' : E' → Option E' → E')
    (A : E' → Prop) : Prop where
  identity : A EF'.identity
  normal : ∀ f n d m d', A f → A (EF'.extend f (EF'.getNormalEdgeFunction n d m d'))
  callToRet : ∀ f c d r d' gs, A f → A (EF'.extend f (EF'.getCallToRetEdgeFunction c d r d' gs))
  summary : ∀ f c d r d', A f → A (extendSummary' f (EF'.getSummaryEdgeFunction c d r d'))
  ret : ∀ f s c d g d' e d₄ r d₅, A f → A s → A (EF'.extend f (EF'.extend
    (EF'.extend (EF'.getCallEdgeFunction c d g d') s) (EF'.getReturnEdgeFunction c g e d₄ r d₅)))

theorem FlowEdge.transport {A : E' → Prop} (hA : EdgeClosed EF' extendSummary' A)
    {k k' : PathEdge N D} {φ : E → E} (h : FlowEdge FF EF extendSummary G k k' φ) :
    ∃ φ', FlowEdge FF EF' extendSummary' G k k' φ' ∧ ∀ f, A f → A (φ' f) := by
  cases h with
  | normal hc hm hd => exact ⟨_, .normal hc hm hd, fun f hf => hA.normal f _ _ _ _ hf⟩
  | callToRet hc hr hd => exact ⟨_, .callToRet hc hr hd, fun f hf => hA.callToRet f _ _ _ _ _ hf⟩
  | summary hc hg hs hr hd => exact ⟨_, .summary hc hg hs hr hd, fun f hf => hA.summary f _ _ _ _ hf⟩
  | callStart hc hg hs hsp hd => exact ⟨_, .callStart hc hg hs hsp hd, fun _ _ => hA.identity⟩

/-- **Derivability does not depend on the edge functions**, if none of them is dropped. -/
theorem deriv_transport {A : E' → Prop} {Z : E → Prop} {Z' : E' → Prop} {seed' : N → D → Prop}
    (hA : EdgeClosed EF' extendSummary' A) (hZ : ∀ f, A f → ¬ Z' f)
    (hseed : ∀ n d, seed n d → seed' n d) {k : PathEdge N D} {e : E}
    (h : Deduction.Deriv (tabulationRules FF EF extendSummary G exits seed) Z k e) :
    ∃ e', Deduction.Deriv (tabulationRules FF EF' extendSummary' G exits seed') Z' k e' ∧ A e' := by
  refine h.transport hZ ?_ (fun hr => FlowEdge.transport hA hr) ?_
  · rintro k e ⟨hs, hd, -⟩
    exact ⟨EF'.identity, ⟨hseed _ _ hs, hd, rfl⟩, hA.identity⟩
  · rintro _ _ _ f ⟨hen, he, he', hx, hr, hd⟩
    exact ⟨_, .mk hen he he' hx hr hd, fun f s hf hs => hA.ret f s _ _ _ _ _ _ _ _ hf hs⟩

section Lawful

variable (law : LawfulEdgeFunctions EF)

include law in
/-- All-top is below every edge function. -/
theorem LawfulEdgeFunctions.allTop_le {x : E} (hx : EF.isAllTop x = true) (y : E) :
    letI := law.semilattice
    x ≤ y :=
  law.allTop_combine x y hx

include law in
/-- **The tabulation rules distribute over `combine`**, the join of the given lattice. -/
theorem distributive_tabulationRules_of_sup [SemilatticeSup E]
    (hsup : ∀ a b, EF.combine a b = a ⊔ b)
    (hsum : ∀ c g, FF.getSummaryFlowFunction c g ≠ none → ∀ d₂ r d₃ a b,
      extendSummary (a ⊔ b) (EF.getSummaryEdgeFunction c d₂ r d₃) =
        extendSummary a (EF.getSummaryEdgeFunction c d₂ r d₃) ⊔
          extendSummary b (EF.getSummaryEdgeFunction c d₂ r d₃)) :
    Deduction.Distributive (tabulationRules FF EF extendSummary G exits seed) := by
  have hleft : ∀ a b c, EF.extend a (b ⊔ c) = EF.extend a b ⊔ EF.extend a c := by
    intro a b c
    rw [← hsup, ← hsup, law.extend_combine]
  have hright : ∀ a b c, EF.extend (a ⊔ b) c = EF.extend a c ⊔ EF.extend b c := by
    intro a b c
    rw [← hsup, ← hsup, law.combine_extend]
  refine ⟨?_, ?_, ?_⟩
  · intro k k' f hr a b
    cases hr with
    | normal => exact hright a b _
    | callToRet => exact hright a b _
    | @summary _ c _ g h _ _ _ _ hs => exact hsum c g (by simp [hs]) _ _ _ a b
    | callStart => exact (sup_idem _).symm
  · rintro _ _ _ _ ⟨⟩ a b s
    exact hright a b _
  · rintro _ _ _ _ ⟨⟩ f a b
    show EF.extend f (EF.extend (EF.extend _ (a ⊔ b)) _) = _ ⊔ _
    rw [hleft, hright, hleft]

include law in
/-- The tabulation rules distribute over `combine`, the join of its own lattice. -/
theorem distributive_tabulationRules
    (hsum : ∀ c g, FF.getSummaryFlowFunction c g ≠ none → ∀ d₂ r d₃ a b,
      extendSummary (EF.combine a b) (EF.getSummaryEdgeFunction c d₂ r d₃) =
        EF.combine (extendSummary a (EF.getSummaryEdgeFunction c d₂ r d₃))
          (extendSummary b (EF.getSummaryEdgeFunction c d₂ r d₃))) :
    letI := law.semilattice
    Deduction.Distributive (tabulationRules FF EF extendSummary G exits seed) :=
  letI := law.semilattice
  distributive_tabulationRules_of_sup law (fun _ _ => rfl) hsum

end Lawful

end Phasar
