import Phasar.IfdsIde.PhaseOne

/-!
# Phase I on IFDS problems

An IFDS problem is an IDE problem whose edge functions are all the identity, so the solver handles
two edge functions only. Its jump functions then say which path edges are derivable.

* `IFDSEdgeFunction`, `IFDSTabulationProblem.toIDE`;
* `Tabulated`: the tabulation rules on path edges, without weights;
* `stored_iff_tabulated`: with an empty work list exactly the derivable path edges have a jump
  function.
-/

namespace Phasar

/-- The value lattice of IFDS problems. -/
inductive BinaryDomain
  | bottom
  | top
  deriving DecidableEq

/-- `JoinLatticeTraits<BinaryDomain>::join`. -/
def BinaryDomain.join (lhs rhs : BinaryDomain) : BinaryDomain := if lhs = rhs then lhs else bottom

/-- The edge functions an IFDS problem gives rise to. -/
inductive IFDSEdgeFunction
  | allTop
  | edgeIdentity
  deriving DecidableEq

namespace IFDSEdgeFunction

/-- `composeWith`: all-top followed by the identity or by all-top is all-top. -/
def compose : IFDSEdgeFunction → IFDSEdgeFunction → IFDSEdgeFunction
  | allTop, _ => allTop
  | edgeIdentity, second => second

/-- `joinWith`: all-top is neutral. -/
def join : IFDSEdgeFunction → IFDSEdgeFunction → IFDSEdgeFunction
  | allTop, other => other
  | edgeIdentity, _ => edgeIdentity

/-- `computeTarget`. -/
def computeTarget : IFDSEdgeFunction → BinaryDomain → BinaryDomain
  | allTop, _ => .top
  | edgeIdentity, source => source

end IFDSEdgeFunction

variable {N F D : Type*}

/-- The edge functions of IFDS problems: every edge carries the identity. -/
def ifdsEdgeFunctions (N F D : Type*) : EdgeFunctions N F D IFDSEdgeFunction where
  getNormalEdgeFunction _ _ _ _ := .edgeIdentity
  getCallEdgeFunction _ _ _ _ := .edgeIdentity
  getReturnEdgeFunction _ _ _ _ _ _ := .edgeIdentity
  getCallToRetEdgeFunction _ _ _ _ _ := .edgeIdentity
  getSummaryEdgeFunction _ _ _ _ := some .edgeIdentity
  extend := IFDSEdgeFunction.compose
  combine := IFDSEdgeFunction.join
  identity := .edgeIdentity
  isAllTop f := f = .allTop

/-- The IDE problem of an IFDS problem. -/
def IFDSTabulationProblem.toIDE (P : IFDSTabulationProblem N F D)
    (initialSeeds : VecMap N (VecMap D BinaryDomain)) (solverConfig : IFDSIDESolverConfig) :
    IDETabulationProblem N F D IFDSEdgeFunction BinaryDomain where
  toIFDSTabulationProblem := P
  toEdgeFunctions := ifdsEdgeFunctions N F D
  allTopFunction := .allTop
  extendNull := id
  topElement := .top
  bottomElement := .bottom
  join := BinaryDomain.join
  computeTarget := IFDSEdgeFunction.computeTarget
  initialSeeds := initialSeeds
  solverConfig := solverConfig
  isAllTop_iff f := by simp [ifdsEdgeFunctions]

theorem lawful_ifdsEdgeFunctions : LawfulEdgeFunctions (ifdsEdgeFunctions N F D) where
  combine_assoc a b c := by cases a <;> cases b <;> rfl
  combine_comm a b := by cases a <;> cases b <;> rfl
  combine_idem a := by cases a <;> rfl
  allTop_combine a b h := by cases a <;> simp_all [ifdsEdgeFunctions, IFDSEdgeFunction.join]
  extend_assoc a b c := by cases a <;> rfl
  extend_combine a b c := by cases a <;> cases b <;> rfl
  combine_extend a b c := by cases a <;> cases b <;> cases c <;> rfl

/-- The tabulation rules: `Tabulated d₁ n d₂` says that the fact `d₁` at the start of the function
of `n` gives the fact `d₂` at `n`. Flow functions are read with the zero value generating itself. -/
inductive Tabulated [DecidableEq N] [DecidableEq D] (P : IFDSTabulationProblem N F D)
    (G : ICFG N F) (seeds : VecMap N (VecMap D BinaryDomain)) : D → N → D → Prop
  | seed {n facts d} : seeds.get? n = some facts → d ∈ facts.keys → Tabulated P G seeds d n d
  | seedZero {n} : n ∈ seeds.keys → Tabulated P G seeds P.getZeroValue n P.getZeroValue
  | normal {d₁ n d₂ m d₃} : Tabulated P G seeds d₁ n d₂ → G.isCallSite n = false →
      m ∈ G.getSuccsOf n → d₃ ∈ zeroed P.getZeroValue (P.getNormalFlowFunction n m) d₂ →
      Tabulated P G seeds d₁ m d₃
  | callToRet {d₁ c d₂ r d₃} : Tabulated P G seeds d₁ c d₂ → G.isCallSite c = true →
      r ∈ G.getReturnSitesOfCallAt c →
      d₃ ∈ zeroed P.getZeroValue (P.getCallToRetFlowFunction c r (G.getCalleesOfCallAt c)) d₂ →
      Tabulated P G seeds d₁ r d₃
  | callStart {d₁ c d₂ g sp d₃} : Tabulated P G seeds d₁ c d₂ → G.isCallSite c = true →
      g ∈ G.getCalleesOfCallAt c → sp ∈ G.getStartPointsOf g →
      d₃ ∈ zeroed P.getZeroValue (P.getCallFlowFunction c g) d₂ → Tabulated P G seeds d₃ sp d₃
  | summary {d₁ c d₂ g sp d₃ e d₄ r d₅} : Tabulated P G seeds d₁ c d₂ → G.isCallSite c = true →
      g ∈ G.getCalleesOfCallAt c → sp ∈ G.getStartPointsOf g →
      d₃ ∈ zeroed P.getZeroValue (P.getCallFlowFunction c g) d₂ → Tabulated P G seeds d₃ e d₄ →
      e ∈ G.getExitPointsOf g → r ∈ G.getReturnSitesOfCallAt c →
      d₅ ∈ zeroed P.getZeroValue (P.getRetFlowFunction c g e r) d₄ → Tabulated P G seeds d₁ r d₅

variable [DecidableEq D] {P : IFDSTabulationProblem N F D} {G : ICFG N F}
  {seeds : VecMap N (VecMap D BinaryDomain)} {cfg : IFDSIDESolverConfig}

theorem cachedFlows_toIDE (hauto : cfg.autoAddZero = true) :
    (P.toIDE seeds cfg).cachedFlows = P.cached true := by
  simp [IDETabulationProblem.cachedFlows, IFDSTabulationProblem.toIDE, hauto]

variable [DecidableEq N]

/-- The seeds of the solver are the given ones and the zero value at each of their nodes. -/
theorem isSeed_toIDE (n : N) (d : D) : (P.toIDE seeds cfg).IsSeed n d ↔
      (∃ facts, seeds.get? n = some facts ∧ d ∈ facts.keys) ∨
        (n ∈ seeds.keys ∧ d = P.getZeroValue) := by
  have hzero : ∀ facts : VecMap D BinaryDomain,
      d ∈ ((P.toIDE seeds cfg).seedZeroAt facts).keys ↔ d ∈ facts.keys ∨ d = P.getZeroValue := by
    intro facts
    simp only [VecMap.mem_keys_iff, IDETabulationProblem.seedZeroAt]
    cases hz : facts.get? (P.toIDE seeds cfg).getZeroValue with
    | none =>
      rw [VecMap.get?_set]
      split_ifs with h
      · exact iff_of_true (by simp) (Or.inr h.symm)
      · exact (or_iff_left fun hd => h hd.symm).symm
    | some v =>
      refine (or_iff_left_of_imp fun hd => ?_).symm
      rw [hd]
      exact fun hnone => by simp [hnone, IFDSTabulationProblem.toIDE] at hz
  have hseeds : (P.toIDE seeds cfg).seeds.entries =
      seeds.entries.map fun e => (e.1, (P.toIDE seeds cfg).seedZeroAt e.2) := rfl
  simp only [IDETabulationProblem.IsSeed, hseeds, List.mem_map, Prod.exists, Prod.mk.injEq]
  constructor
  · rintro ⟨_, ⟨_, facts, hmem, rfl, rfl⟩, hd⟩
    rcases (hzero facts).1 hd with h | h
    · exact Or.inl ⟨facts, (VecMap.mem_entries_iff _ _ _).1 hmem, h⟩
    · exact Or.inr ⟨List.mem_map.2 ⟨_, hmem, rfl⟩, h⟩
  · rintro (⟨facts, hget, hd⟩ | ⟨hn, hd⟩)
    · exact ⟨_, ⟨n, facts, (VecMap.mem_entries_iff _ _ _).2 hget, rfl, rfl⟩,
        (hzero facts).2 (Or.inl hd)⟩
    · obtain ⟨⟨n', facts⟩, hmem, rfl⟩ := List.mem_map.1 hn
      exact ⟨_, ⟨n', facts, hmem, rfl, rfl⟩, (hzero facts).2 (Or.inr hd)⟩

open Deduction IDESolver

/-- A derivation of a path edge tabulates it. -/
theorem tabulated_of_deriv (hauto : cfg.autoAddZero = true)
    (hsum : ∀ c g, P.getSummaryFlowFunction c g = none) {k : PathEdge N D} {w : IFDSEdgeFunction}
    (h : Deriv (rules (P.toIDE seeds cfg) G) (dropped (P.toIDE seeds cfg)) k w) :
    Tabulated P G seeds k.dSource k.target k.dTarget := by
  have hflows : (P.toIDE seeds cfg).cachedFlows = P.cached true := cachedFlows_toIDE hauto
  induction h with
  | @ax k e ha _ =>
    obtain ⟨hseed, heq, -⟩ := ha
    rw [heq]
    rcases (isSeed_toIDE _ _).1 hseed with ⟨facts, hget, hd⟩ | ⟨hn, hz⟩
    · exact .seed hget hd
    · rw [hz]
      exact .seedZero hn
  | un hu _ _ ih =>
    rw [rules, hflows] at hu
    cases hu with
    | normal hc hm hd => exact .normal ih hc hm hd
    | callToRet hc hr hd => exact .callToRet ih hc hr hd
    | @summary _ c _ g _ _ _ _ _ hs =>
      rw [IFDSTabulationProblem.cached_getSummaryFlowFunction, hsum] at hs
      simp at hs
    | callStart hc hg _ hsp hd => exact .callStart ih hc hg hsp hd
  | bin hb _ _ _ ih₁ ih₂ =>
    rw [rules, hflows] at hb
    cases hb with
    | mk hen he _ hee hr hd =>
      subst hee
      obtain ⟨hc, hg, -, ⟨sp, hsp⟩, hd₃⟩ := hen
      exact .summary ih₁ hc hg hsp hd₃ ih₂ he hr hd

/-- A tabulated path edge is derived with the identity. -/
theorem deriv_of_tabulated (hauto : cfg.autoAddZero = true)
    (hsum : ∀ c g, P.getSummaryFlowFunction c g = none) {d₁ d₂ : D} {n : N}
    (h : Tabulated P G seeds d₁ n d₂) :
    Deriv (rules (P.toIDE seeds cfg) G) (dropped (P.toIDE seeds cfg)) ⟨d₁, n, d₂⟩
      .edgeIdentity := by
  have hflows : (P.toIDE seeds cfg).cachedFlows = P.cached true := cachedFlows_toIDE hauto
  have hnz : ¬ dropped (P.toIDE seeds cfg) .edgeIdentity := by
    simp [IFDSTabulationProblem.toIDE, ifdsEdgeFunctions]
  have hs : ∀ c g, (P.toIDE seeds cfg).cachedFlows.getSummaryFlowFunction c g = none := by
    simp [hflows, hsum]
  induction h with
  | seed hget hd => exact .ax ⟨(isSeed_toIDE _ _).2 (Or.inl ⟨_, hget, hd⟩), rfl, rfl⟩ hnz
  | seedZero hn => exact .ax ⟨(isSeed_toIDE _ _).2 (Or.inr ⟨hn, rfl⟩), rfl, rfl⟩ hnz
  | normal _ hc hm hd ih =>
    exact .un (R := rules (P.toIDE seeds cfg) G) (.normal hc hm (by rw [hflows]; exact hd)) ih hnz
  | callToRet _ hc hr hd ih =>
    exact .un (R := rules (P.toIDE seeds cfg) G)
      (.callToRet hc hr (by rw [hflows]; exact hd)) ih hnz
  | callStart _ hc hg hsp hd ih =>
    exact .un (R := rules (P.toIDE seeds cfg) G)
      (.callStart hc hg (hs _ _) hsp (by rw [hflows]; exact hd)) ih hnz
  | @summary _ _ _ _ sp _ _ _ _ _ _ hc hg hsp hd₃ _ he hr hd₅ ih₁ ih₂ =>
    exact .bin (R := rules (P.toIDE seeds cfg) G)
      (.mk ⟨hc, hg, hs _ _, ⟨sp, hsp⟩, by rw [hflows]; exact hd₃⟩ he he rfl hr
        (by rw [hflows]; exact hd₅)) ih₁ ih₂ hnz

/-- **Phase I is exact for IFDS.** When the work list has become empty, in whatever order its
elements were taken, a jump function is stored exactly for the derivable path edges. -/
theorem stored_iff_tabulated (hauto : cfg.autoAddZero = true)
    (hret : cfg.followReturnsPastSeeds = false)
    (hsum : ∀ c g, P.getSummaryFlowFunction c g = none)
    {S : IDESolver N D IFDSEdgeFunction} (hS : Reachable (P.toIDE seeds cfg) G S)
    (hW : S.workList = []) (d₁ : D) (n : N) (d₂ : D) :
    S.jumpFn.stored ⟨d₁, n, d₂⟩ ≠ none ↔ Tabulated P G seeds d₁ n d₂ := by
  have hflows : (P.toIDE seeds cfg).cachedFlows = P.cached true := cachedFlows_toIDE hauto
  have hdist : SummariesDistribute (P.toIDE seeds cfg) := by
    intro c g h
    rw [hflows, IFDSTabulationProblem.cached_getSummaryFlowFunction, hsum] at h
    exact absurd rfl h
  have law : LawfulEdgeFunctions (P.toIDE seeds cfg).toEdgeFunctions := lawful_ifdsEdgeFunctions
  let _ := law.semilattice
  obtain ⟨hC, hSound⟩ := exact_of_empty law hret hdist hS hW
  rw [Ne, eq_none_iff (fun x hx y => law.allTop_le hx y)
    (distributive_tabulationRules law hdist) hC hSound]
  constructor
  · intro h
    obtain ⟨w, hw⟩ := not_forall_not.1 h
    exact tabulated_of_deriv hauto hsum hw
  · exact fun h hn => hn _ (deriv_of_tabulated hauto hsum h)

/-! ### A recursive program -/

/-- `main` (nodes `0`, `1`) calls `g` (nodes `2`, `3`) at `0`; `g` calls itself at `2`. -/
def recursiveProgram : ICFG (Fin 4) (Fin 2) :=
  .ofNodes (List.finRange 4) List.mem_finRange ![0, 0, 1, 1] ![[1], [], [3], []] ![true, false, true, false]
    ![false, true, false, true] ![true, false, true, false] ![[1], [], [1], []]
    (by decide) (by decide)

/-- Facts `0` (zero) and `1`; the call in `g` generates `1`, every other flow keeps its fact. -/
def recursiveProblem : IFDSTabulationProblem (Fin 4) (Fin 2) (Fin 2) where
  getZeroValue := 0
  getNormalFlowFunction _ _ d := [d]
  getCallFlowFunction _ _ d := [d]
  getRetFlowFunction _ _ _ _ d := [d]
  getCallToRetFlowFunction c _ _ d := if c = 2 ∧ d = 0 then [1] else []
  getSummaryFlowFunction _ _ := none

/-- The empty set of facts is seeded at the first node of `main`. -/
def mainSeeds : VecMap (Fin 4) (VecMap (Fin 2) BinaryDomain) := VecMap.empty.set 0 .empty

/-- The zero value is seeded at the first node of `main`. -/
def mainZeroSeeds : VecMap (Fin 4) (VecMap (Fin 2) BinaryDomain) :=
  VecMap.empty.set 0 (VecMap.empty.set 0 .bottom)

/-- The fact generated in the recursion comes back to the exit of `main`. -/
theorem stored_iff_tabulated_recursive :
    Tabulated recursiveProblem recursiveProgram mainSeeds 0 1 1 :=
  (stored_iff_tabulated rfl rfl (fun _ _ => rfl)
    (reachable_run (recursiveProblem.toIDE mainSeeds ⟨false, true⟩) recursiveProgram 40 .init)
    (by decide +kernel) 0 1 1).1 (by decide +kernel)

end Phasar
