import Phasar.IfdsIde.BasicEdgeFunctions
import Phasar.IfdsIde.PhaseOne

/-!
# Jump functions are joins over same-level paths

The paths of the exploded supergraph that stay, up to matched calls and returns, inside one function,
and the composition of the edge functions along them.

* `SameLevelPath live`: the same-level realizable paths all of whose prefixes, those inside callees
  included, have a weight with `live`;
* `Entered`: the nodes at which the solver starts to look at a function;
* `jumpFunction_isCombineOf`: the work list is emptied after finitely many steps, and then each jump
  function is the join of the weights of the paths that are nowhere all-top;
* `allTop_path_not_stored`: a path whose weight is not all-top but whose prefix is has no jump
  function.
-/

namespace Phasar

namespace IDESolver

variable {N F D E L : Type*} (P : IDETabulationProblem N F D E L) (G : ICFG N F)

/-- `e` is the join of the edge functions in `A`; of no edge functions, all-top. -/
def IsCombineOf (A : Set E) (e : E) : Prop :=
  (∀ w ∈ A, P.combine w e = e) ∧ ∀ u, (∀ w ∈ A, P.combine w u = u) → P.combine e u = u

/-- A join is unique, so the order of the work list does not matter. -/
theorem IsCombineOf.unique {P : IDETabulationProblem N F D E L}
    (law : LawfulEdgeFunctions P.toEdgeFunctions) {A : Set E} {e e' : E}
    (h : IsCombineOf P A e) (h' : IsCombineOf P A e') : e = e' := by
  rw [← h.2 e' h'.1, law.combine_comm, h'.2 e h.1]

/-! ### Same-level paths -/

variable [DecidableEq D]

/-- A node at which a callee path with the fact `d₃` may start: the start points of `g`, and the
seeds inside `g`, which are treated as such. -/
def CalleeStart (g : F) (d₃ : D) (s : N) : Prop :=
  s ∈ G.getStartPointsOf g ∨ (P.IsSeed s d₃ ∧ G.getFunctionOf s = g)

/-- The same-level realizable paths from `(s, d₁)` to `(n, d₂)` with the composition of their edge
functions; every prefix has a weight with `live`. -/
inductive SameLevelPath (live : E → Prop) : N → D → N → D → E → Prop
  | nil {s d₁} : live P.identity → SameLevelPath live s d₁ s d₁ P.identity
  | normal {s d₁ n d₂ w m d₃} : SameLevelPath live s d₁ n d₂ w → G.isCallSite n = false →
      m ∈ G.getSuccsOf n → d₃ ∈ P.cachedFlows.getNormalFlowFunction n m d₂ →
      live (P.extend w (P.getNormalEdgeFunction n d₂ m d₃)) →
      SameLevelPath live s d₁ m d₃ (P.extend w (P.getNormalEdgeFunction n d₂ m d₃))
  | callToRet {s d₁ c d₂ w r d₃} : SameLevelPath live s d₁ c d₂ w → G.isCallSite c = true →
      r ∈ G.getReturnSitesOfCallAt c →
      d₃ ∈ P.cachedFlows.getCallToRetFlowFunction c r (G.getCalleesOfCallAt c) d₂ →
      live (P.extend w (P.getCallToRetEdgeFunction c d₂ r d₃ (G.getCalleesOfCallAt c))) →
      SameLevelPath live s d₁ r d₃
        (P.extend w (P.getCallToRetEdgeFunction c d₂ r d₃ (G.getCalleesOfCallAt c)))
  | call {s d₁ c d₂ w g d₃ s' e d₄ v r d₅} : SameLevelPath live s d₁ c d₂ w →
      Enters P.cachedFlows G c d₂ g d₃ → CalleeStart P G g d₃ s' →
      SameLevelPath live s' d₃ e d₄ v → e ∈ G.getExitPointsOf g →
      r ∈ G.getReturnSitesOfCallAt c → d₅ ∈ P.cachedFlows.getRetFlowFunction c g e r d₄ →
      live (P.extend w (P.extend (P.extend (P.getCallEdgeFunction c d₂ g d₃) v)
        (P.getReturnEdgeFunction c g e d₄ r d₅))) →
      SameLevelPath live s d₁ r d₅ (P.extend w (P.extend
        (P.extend (P.getCallEdgeFunction c d₂ g d₃) v) (P.getReturnEdgeFunction c g e d₄ r d₅)))

/-- The seeds, and the callee starts that a path from such a node enters. -/
inductive Entered (live : E → Prop) : N → D → Prop
  | seed {n d} : P.IsSeed n d → Entered live n d
  | call {s d₁ c d₂ w g sp d₃} : Entered live s d₁ → SameLevelPath P G live s d₁ c d₂ w →
      Enters P.cachedFlows G c d₂ g d₃ → sp ∈ G.getStartPointsOf g → Entered live sp d₃

/-- The weights of the paths to `(n, d₂)` from an entered node with the fact `d₁`. -/
def pathWeights (live : E → Prop) (d₁ : D) (n : N) (d₂ : D) : Set E :=
  {w | ∃ s, Entered P G live s d₁ ∧ SameLevelPath P G live s d₁ n d₂ w}

variable {P G}

/-- A same-level path stays in one function. -/
theorem SameLevelPath.getFunctionOf_eq {live : E → Prop} {s n : N} {d₁ d₂ : D} {w : E}
    (h : SameLevelPath P G live s d₁ n d₂ w) : G.getFunctionOf s = G.getFunctionOf n := by
  induction h with
  | nil => rfl
  | normal _ _ hm _ _ ih => rw [ih, G.getFunctionOf_succ _ _ hm]
  | callToRet _ _ hr _ _ ih => rw [ih, G.getFunctionOf_returnSite hr]
  | call _ _ _ _ _ hr _ _ ih _ => rw [ih, G.getFunctionOf_returnSite hr]

theorem SameLevelPath.live_identity {live : E → Prop} {s n : N} {d₁ d₂ : D} {w : E}
    (h : SameLevelPath P G live s d₁ n d₂ w) : live P.identity := by
  induction h with
  | nil h => exact h
  | normal _ _ _ _ _ ih => exact ih
  | callToRet _ _ _ _ _ ih => exact ih
  | call _ _ _ _ _ _ _ _ ih _ => exact ih

/-! ### Paths and derivations -/

open Deduction

/-- The prefixes that are not all-top. -/
abbrev notAllTop (P : IDETabulationProblem N F D E L) (e : E) : Prop := ¬ dropped P e

/-- A path whose first node is derived is derived. -/
theorem SameLevelPath.deriv {s n : N} {d₁ d₂ : D} {w : E}
    (h : SameLevelPath P G (notAllTop P) s d₁ n d₂ w)
    (hs : Deriv (rules P G) (dropped P) ⟨d₁, s, d₁⟩ P.identity) :
    Deriv (rules P G) (dropped P) ⟨d₁, n, d₂⟩ w := by
  induction h with
  | nil => exact hs
  | normal _ hc hm hd hw ih =>
    exact .un_eq (R := rules P G) (FlowEdge.normal hc hm hd) (ih hs) rfl hw
  | callToRet _ hc hr hd hw ih =>
    exact .un_eq (R := rules P G) (FlowEdge.callToRet hc hr hd) (ih hs) rfl hw
  | @call s d₁ c d₂ w g d₃ s' e d₄ v r d₅ _ hen hst _ he hr hd hw ih₁ ih₂ =>
    have hc := ih₁ hs
    have hid : ¬ dropped P P.identity := hs.not_zero
    have hstart : Deriv (rules P G) (dropped P) ⟨d₃, s', d₃⟩ P.identity := by
      rcases hst with hsp | ⟨hseed, -⟩
      · exact .un (R := rules P G)
          (FlowEdge.callStart hen.1 hen.2.1 hen.2.2.1 hsp hen.2.2.2.2) hc hid
      · exact .ax ⟨hseed, rfl, rfl⟩ hid
    exact .bin_eq (R := rules P G) (ReturnEdge.mk hen he he rfl hr hd) hc (ih₂ hstart) rfl hw

theorem Entered.deriv {s : N} {d₁ : D} (h : Entered P G (notAllTop P) s d₁)
    (hid : ¬ dropped P P.identity) :
    Deriv (rules P G) (dropped P) ⟨d₁, s, d₁⟩ P.identity := by
  induction h with
  | seed hseed => exact .ax ⟨hseed, rfl, rfl⟩ hid
  | call _ hp hen hsp ih =>
    exact .un (R := rules P G)
      (FlowEdge.callStart hen.1 hen.2.1 hen.2.2.1 hsp hen.2.2.2.2) (hp.deriv ih) hid

/-- **The derivations of a path edge are the paths to it.** -/
theorem deriv_iff_mem_pathWeights (hsum : ∀ c g, P.getSummaryFlowFunction c g = none) {d₁ d₂ : D}
    {n : N} {w : E} : Deriv (rules P G) (dropped P) ⟨d₁, n, d₂⟩ w ↔
      w ∈ pathWeights P G (notAllTop P) d₁ n d₂ := by
  constructor
  · intro h
    have key : ∀ k w, Deriv (rules P G) (dropped P) k w →
        w ∈ pathWeights P G (notAllTop P) k.dSource k.target k.dTarget := by
      intro k w h
      induction h with
      | @ax k e ha hz =>
        obtain ⟨hseed, heq, rfl⟩ := ha
        rw [heq]
        exact ⟨_, .seed hseed, .nil hz⟩
      | un hu _ hz ih =>
        obtain ⟨s, hs, hp⟩ := ih
        cases hu with
        | normal hc hm hd => exact ⟨s, hs, .normal hp hc hm hd hz⟩
        | callToRet hc hr hd => exact ⟨s, hs, .callToRet hp hc hr hd hz⟩
        | @summary _ c _ g _ _ _ _ _ hs' =>
          simp [IDETabulationProblem.cachedFlows, hsum] at hs'
        | @callStart _ _ _ g sp d₃ hc hg hs' hsp hd =>
          exact ⟨sp, .call hs hp ⟨hc, hg, hs', ⟨sp, hsp⟩, hd⟩ hsp, .nil hz⟩
      | bin hb _ _ hz ih₁ ih₂ =>
        obtain ⟨s, hs, hp⟩ := ih₁
        obtain ⟨s', hs', hp'⟩ := ih₂
        cases hb with
        | @mk _ _ _ g d₃ e _ _ _ _ hen he _ hee hr hd =>
          subst hee
          have hfun : G.getFunctionOf s' = g := by
            rw [hp'.getFunctionOf_eq, ((G.mem_getExitPointsOf e g).1 he).2]
          have hst : CalleeStart P G g d₃ s' := by
            cases hs' with
            | seed hseed => exact Or.inr ⟨hseed, hfun⟩
            | call _ _ _ hsp =>
              rw [G.getFunctionOf_startPoint hsp] at hfun
              exact Or.inl (hfun ▸ hsp)
          exact ⟨s, hs, .call hp hen hst hp' he hr hd hz⟩
    exact key _ _ h
  · rintro ⟨s, hs, hp⟩
    have hid : ¬ dropped P P.identity := by
      cases hs with
      | seed _ => exact hp.live_identity
      | call _ hp' => exact hp'.live_identity
    exact hp.deriv (hs.deriv hid)

/-! ### Exactness and termination -/

variable [DecidableEq N] [DecidableEq E]

omit [DecidableEq N] [DecidableEq E] in
theorem summariesDistribute_of_none (hsum : ∀ c g, P.getSummaryFlowFunction c g = none) :
    SummariesDistribute P := by
  intro c g h
  simp [IDETabulationProblem.cachedFlows, hsum] at h

/-- With an empty work list each jump function is the join over the paths. -/
theorem isCombineOf_of_empty (law : LawfulEdgeFunctions P.toEdgeFunctions)
    (hf : P.solverConfig.followReturnsPastSeeds = false)
    (hsum : ∀ c g, P.getSummaryFlowFunction c g = none) {S : IDESolver N D E}
    (hS : Reachable P G S) (hW : S.workList = []) (d₁ : D) (n : N) (d₂ : D) :
    IsCombineOf P (pathWeights P G (notAllTop P) d₁ n d₂) (jumpFunction P S ⟨d₁, n, d₂⟩) := by
  let _ := law.semilattice
  have hdist := summariesDistribute_of_none hsum
  have hZ : ∀ x, dropped P x → ∀ y, x ≤ y := fun x hx y => law.allTop_le hx y
  have hD : Distributive (rules P G) := distributive_tabulationRules law hdist
  obtain ⟨hC, hSound⟩ := exact_of_empty law hf hdist hS hW
  have hsync := (pending_of_reachable law hf hdist hS).1.synced
  rw [jumpFunction, hsync.forward ⟨d₁, n, d₂⟩]
  cases hst : S.jumpFn.stored ⟨d₁, n, d₂⟩ with
  | none =>
    have hempty := (eq_none_iff hZ hD hC hSound _).1 hst
    refine ⟨fun w hw => ?_, fun u _ => ?_⟩
    · exact absurd ((deriv_iff_mem_pathWeights hsum).2 hw) (hempty w)
    · exact law.allTop_combine _ u ((P.isAllTop_iff _).2 rfl)
  | some e =>
    have hlub := isLUB_of_closed hZ hD hC hSound hst
    refine ⟨fun w hw => hlub.1 ((deriv_iff_mem_pathWeights hsum).2 hw), fun u hu => ?_⟩
    exact hlub.2 fun w hw => hu w ((deriv_iff_mem_pathWeights hsum).1 hw)

/-- No run is infinite. -/
theorem wellFounded_step [Finite N] [Finite D] (law : LawfulEdgeFunctions P.toEdgeFunctions)
    (hf : P.solverConfig.followReturnsPastSeeds = false) (hsum : SummariesDistribute P)
    (hchain : WellFounded fun a b : E => P.combine b a = a ∧ a ≠ b) :
    WellFounded fun S' S : IDESolver N D E => Reachable P G S ∧ Step P G S S' := by
  let _ := law.semilattice
  have hgt : WellFoundedGT E := ⟨Subrelation.wf (fun h => ⟨h.le, h.ne'⟩) hchain⟩
  refine wellFounded_of_progress (r := fun S S' => Reachable P G S ∧ Step P G S S')
    (fun S => withBot S.jumpFn.stored) (fun S => S.workList.length) ?_
  rintro S S' ⟨hS, hs⟩
  obtain ⟨-, -, hprog⟩ := propagates_of_step law hf (pending_of_reachable law hf hsum hS).1 hs
  rcases hprog with ⟨heq, hlt⟩ | ⟨k, x, hx, hr⟩
  · exact Or.inr ⟨by rw [heq], hlt⟩
  · exact Or.inl (hr.lt hx)

/-- The loop of `solve` empties the work list. -/
theorem exists_run_empty (hwf : WellFounded fun S' S : IDESolver N D E =>
    Reachable P G S ∧ Step P G S S') {S : IDESolver N D E} (hS : Reachable P G S) :
    ∃ fuel, (run P G fuel S).workList = [] := by
  induction S using hwf.induction with
  | _ S ih =>
    cases hn : doNext P G S with
    | none =>
      refine ⟨0, List.getLast?_eq_none_iff.1 ?_⟩
      unfold doNext at hn
      cases hl : S.workList.getLast? with
      | none => exact hl
      | some p => simp [hl] at hn
    | some S' =>
      have hs := doNext_step P G hn
      obtain ⟨fuel, hfuel⟩ := ih S' ⟨hS, hs⟩ (hS.step hs)
      exact ⟨fuel + 1, by simpa [run, hn] using hfuel⟩

/-- **Phase I computes joins over same-level paths.** Taken in any order, the work list is emptied
after finitely many steps, and then the jump function of `(d₁, n, d₂)` is the join of the edge
functions of the same-level realizable paths to `(n, d₂)` that start at an entered node with `d₁`
and have no all-top prefix. -/
theorem jumpFunction_isCombineOf [Finite N] [Finite D]
    (law : LawfulEdgeFunctions P.toEdgeFunctions)
    (hchain : WellFounded fun a b : E => P.combine b a = a ∧ a ≠ b)
    (hf : P.solverConfig.followReturnsPastSeeds = false)
    (hsum : ∀ c g, P.getSummaryFlowFunction c g = none) :
    WellFounded (fun S' S : IDESolver N D E => Reachable P G S ∧ Step P G S S') ∧
      (∃ fuel, (run P G fuel (init P)).workList = []) ∧
      ∀ S, Reachable P G S → S.workList = [] → ∀ d₁ n d₂,
        IsCombineOf P (pathWeights P G (notAllTop P) d₁ n d₂) (jumpFunction P S ⟨d₁, n, d₂⟩) := by
  have hwf : WellFounded fun S' S : IDESolver N D E => Reachable P G S ∧ Step P G S S' :=
    wellFounded_step law hf (summariesDistribute_of_none hsum) hchain
  exact ⟨hwf, exists_run_empty hwf .init,
    fun S hS hW d₁ n d₂ => isCombineOf_of_empty law hf hsum hS hW d₁ n d₂⟩

/-! ### A path through all-top -/

/-- Three nodes in a row. -/
def straightLine : ICFG (Fin 3) (Fin 1) :=
  .ofNodes (List.finRange 3) List.mem_finRange (fun _ => 0) ![[1], [2], []] ![true, false, false]
    ![false, false, true] (fun _ => false) (fun _ => []) (by decide) (by decide)

/-- The edge `0 → 1` carries all-top, the edge `1 → 2` all-bottom; the only fact is zero. -/
def allTopProblem : IDETabulationProblem (Fin 3) (Fin 1) (Fin 1) BasicEdgeFunction Bool where
  getZeroValue := 0
  getNormalFlowFunction _ _ d := [d]
  getCallFlowFunction _ _ d := [d]
  getRetFlowFunction _ _ _ _ d := [d]
  getCallToRetFlowFunction _ _ _ d := [d]
  getSummaryFlowFunction _ _ := none
  getNormalEdgeFunction n _ _ _ := if n = 0 then .allTop else .allBottom
  getCallEdgeFunction _ _ _ _ := .edgeIdentity
  getReturnEdgeFunction _ _ _ _ _ _ := .edgeIdentity
  getCallToRetEdgeFunction _ _ _ _ _ := .edgeIdentity
  getSummaryEdgeFunction _ _ _ _ := none
  extend := BasicEdgeFunction.compose
  combine := BasicEdgeFunction.join
  identity := .edgeIdentity
  isAllTop f := f = .allTop
  allTopFunction := .allTop
  extendNull := id
  topElement := true
  bottomElement := false
  join := and
  computeTarget := BasicEdgeFunction.computeTarget
  initialSeeds := VecMap.empty.set 0 .empty
  solverConfig := ⟨false, true⟩
  isAllTop_iff := BasicEdgeFunction.isAllTop_iff

theorem uses_allTopProblem : BasicEdgeFunction.Uses allTopProblem.toEdgeFunctions :=
  ⟨rfl, rfl, fun _ => by simp [allTopProblem]⟩

/-- On the straight line only the seed has a jump function. -/
theorem jumpFunction_isCombineOf_straightLine :
    IsCombineOf allTopProblem
      (pathWeights allTopProblem straightLine (notAllTop allTopProblem) 0 0 0) .edgeIdentity ∧
    IsCombineOf allTopProblem
      (pathWeights allTopProblem straightLine (notAllTop allTopProblem) 0 2 0) .allTop := by
  have h := (jumpFunction_isCombineOf (G := straightLine) uses_allTopProblem.lawful
    BasicEdgeFunction.wellFounded_chain rfl (fun _ _ => rfl)).2.2 _ (reachable_run _ _ 10 .init)
    (by decide +kernel)
  have h₀ := h 0 0 0
  have h₂ := h 0 2 0
  rw [show jumpFunction _ _ _ = BasicEdgeFunction.edgeIdentity by decide +kernel] at h₀
  rw [show jumpFunction _ _ _ = BasicEdgeFunction.allTop by decide +kernel] at h₂
  exact ⟨h₀, h₂⟩

/-- Without the condition on prefixes the path `0 → 1 → 2` counts, with the weight all-bottom; but
nothing is stored for it, since nothing is propagated beyond the all-top jump function of `1`. -/
theorem allTop_path_not_stored : ∃ S, Reachable allTopProblem straightLine S ∧ S.workList = [] ∧
    LawfulEdgeFunctions allTopProblem.toEdgeFunctions ∧
    .allBottom ∈ pathWeights allTopProblem straightLine (fun _ => True) 0 2 0 ∧
    jumpFunction allTopProblem S ⟨0, 2, 0⟩ = .allTop ∧
    ¬ IsCombineOf allTopProblem (pathWeights allTopProblem straightLine (fun _ => True) 0 2 0)
      (jumpFunction allTopProblem S ⟨0, 2, 0⟩) := by
  have hseed : allTopProblem.IsSeed 0 0 := ⟨_, List.mem_singleton.2 rfl, by decide⟩
  have h₀ : SameLevelPath allTopProblem straightLine (fun _ => True) 0 0 0 0 .edgeIdentity :=
    .nil trivial
  have h₁ : SameLevelPath allTopProblem straightLine (fun _ => True) 0 0 1 0 .allTop :=
    .normal h₀ rfl (by decide) (by decide) trivial
  have h₂ : SameLevelPath allTopProblem straightLine (fun _ => True) 0 0 2 0 .allBottom :=
    .normal h₁ rfl (by decide) (by decide) trivial
  have hpath : BasicEdgeFunction.allBottom ∈
      pathWeights allTopProblem straightLine (fun _ => True) 0 2 0 := ⟨0, .seed hseed, h₂⟩
  refine ⟨_, reachable_run _ _ 10 .init, by decide +kernel, uses_allTopProblem.lawful, hpath,
    by decide +kernel, fun h => ?_⟩
  have hle := h.1 _ hpath
  revert hle
  decide +kernel

end IDESolver

end Phasar
