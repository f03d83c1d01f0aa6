import Phasar.ControlFlow.SparseCFG
import Mathlib.Data.Fin.VecNotation
import Phasar.IfdsIde.MeetOverPaths

/-!
# Sparse and dense runs

Where a next user is the only user of a fact, the sparse run derives at kept instructions what the
dense run derives there: both walk over instructions on which the fact passes unchanged.

* `Keeps`, `IdentityOnSkipped`: the instructions kept for a fact, and what a problem does elsewhere;
* `SkipsNoUser`: next users are the only users, and no fact ends up where there are none;
* `deriv_of_sparse`, `sparse_of_deriv`: the derivations at kept instructions are the same;
* `jumpFunction_eq`: so are the jump functions;
* `sparse_agrees`: the runs of the sparse control-flow graphs;
* `nextUser_bypassed`: a user that is lost.
-/

namespace Phasar

namespace SparseIDESolver

open IDESolver Deduction SparseCFG

variable {N F D E L : Type*} [DecidableEq D]
  {P : IDETabulationProblem N F D E L} {G : ICFG N F} {keep : N → D → Bool}
  {nextUser : N → D → Option N}

/-- `n` is kept for the fact `d`; the zero value is kept everywhere. -/
def Keeps (P : IDETabulationProblem N F D E L) (keep : N → D → Bool) (n : N) (d : D) : Prop :=
  d = P.getZeroValue ∨ keep n d = true

/-- A fact passes unchanged over the instructions that are not kept for it, and enters no callee
there. -/
structure IdentityOnSkipped (P : IDETabulationProblem N F D E L) (G : ICFG N F)
    (keep : N → D → Bool) : Prop where
  normal : ∀ {n d}, ¬ Keeps P keep n d → G.isCallSite n = false → ∀ m ∈ G.getSuccsOf n,
    (∀ d', d' ∈ P.cachedFlows.getNormalFlowFunction n m d ↔ d' = d) ∧
      ∀ f, P.extend f (P.getNormalEdgeFunction n d m d) = f
  callToRet : ∀ {c d}, ¬ Keeps P keep c d → G.isCallSite c = true →
    ∀ r ∈ G.getReturnSitesOfCallAt c,
      (∀ d', d' ∈ P.cachedFlows.getCallToRetFlowFunction c r (G.getCalleesOfCallAt c) d ↔ d' = d) ∧
        ∀ f, P.extend f (P.getCallToRetEdgeFunction c d r d (G.getCalleesOfCallAt c)) = f
  summary : ∀ {c d}, ¬ Keeps P keep c d → ∀ g ∈ G.getCalleesOfCallAt c, ∀ h,
    P.cachedFlows.getSummaryFlowFunction c g = some h → ∀ d' ∈ h d, d' = d ∧
      ∀ f, ∀ r ∈ G.getReturnSitesOfCallAt c,
        P.extendSummary f (P.getSummaryEdgeFunction c d r d) = f
  call : ∀ {c d}, ¬ Keeps P keep c d → ∀ g ∈ G.getCalleesOfCallAt c,
    P.cachedFlows.getSummaryFlowFunction c g = none →
      ∀ d', d' ∉ P.cachedFlows.getCallFlowFunction c g d

/-- A next user is the only one, and every path to a skipped successor leads to it. -/
structure SkipsNoUser (P : IDETabulationProblem N F D E L) (G : ICFG N F) (keep : N → D → Bool)
    (nextUser : N → D → Option N) : Prop where
  zero : ∀ n, nextUser n P.getZeroValue = none
  unique : ∀ {n d m}, nextUser n d = some m → ∀ m', User G (keep · d) n m' ↔ m' = m
  notTrapped : ∀ {n d m}, nextUser n d = some m → ∀ s ∈ G.getSuccsOf n, keep s d = false →
    ∃ m', User G (keep · d) s m'

section Derivations

variable {dropped : E → Prop} (hid : IdentityOnSkipped P G keep) (hskip : SkipsNoUser P G keep nextUser)
  (hsites : ∀ c, G.isCallSite c = true → ∀ m ∈ G.getSuccsOf c, m ∈ G.getReturnSitesOfCallAt c)

include hid hsites in
/-- A dense run takes a fact over an instruction that is not kept for it. -/
theorem deriv_succ {d₁ d : D} {x y : N} {w : E} (hx : ¬ Keeps P keep x d) (hy : y ∈ G.getSuccsOf x)
    (h : Deriv (IDESolver.rules P G) dropped ⟨d₁, x, d⟩ w) :
    Deriv (IDESolver.rules P G) dropped ⟨d₁, y, d⟩ w := by
  cases hc : G.isCallSite x with
  | false =>
    obtain ⟨hflow, hedge⟩ := hid.normal hx hc y hy
    have hr : (IDESolver.rules P G).un ⟨d₁, x, d⟩ ⟨d₁, y, d⟩ _ :=
      Phasar.FlowEdge.normal hc hy ((hflow d).2 rfl)
    exact .un_eq hr h (hedge w) h.not_zero
  | true =>
    have hr := hsites x hc y hy
    obtain ⟨hflow, hedge⟩ := hid.callToRet hx hc y hr
    have hr : (IDESolver.rules P G).un ⟨d₁, x, d⟩ ⟨d₁, y, d⟩ _ :=
      Phasar.FlowEdge.callToRet hc hr ((hflow d).2 rfl)
    exact .un_eq hr h (hedge w) h.not_zero

include hid hsites in
/-- It takes the fact to the users behind such an instruction. -/
theorem deriv_user {d₁ d : D} {x m : N} {w : E} (hd : d ≠ P.getZeroValue) (hx : keep x d = false)
    (hm : User G (keep · d) x m) (h : Deriv (IDESolver.rules P G) dropped ⟨d₁, x, d⟩ w) :
    Deriv (IDESolver.rules P G) dropped ⟨d₁, m, d⟩ w := by
  have hkeeps : ∀ {z}, keep z d = false → ¬ Keeps P keep z d := by
    rintro z hz (hzero | hk)
    · exact hd hzero
    · rw [hz] at hk
      cases hk
  obtain ⟨-, hm | ⟨y, hy, hm⟩⟩ := hm
  · exact deriv_succ hid hsites (hkeeps hx) hm h
  · refine deriv_succ hid hsites (hkeeps hy.keep_eq) hm ?_
    clear hm
    induction hy with
    | head hy _ => exact deriv_succ hid hsites (hkeeps hx) hy h
    | tail hz hy _ ih => exact deriv_succ hid hsites (hkeeps hz.keep_eq) hy ih

include hid hskip hsites in
/-- What the dense run has at a successor it has at the next user. -/
theorem deriv_destN {d₁ d : D} {n m : N} {w : E} (hm : m ∈ G.getSuccsOf n)
    (h : Deriv (IDESolver.rules P G) dropped ⟨d₁, m, d⟩ w) :
    Deriv (IDESolver.rules P G) dropped ⟨d₁, destN nextUser n m d, d⟩ w := by
  cases hnext : nextUser n d with
  | none =>
    rw [destN, hnext]
    exact h
  | some t =>
    have hd : d ≠ P.getZeroValue := by
      rintro rfl
      rw [hskip.zero] at hnext
      cases hnext
    rw [destN, hnext, Option.getD_some]
    cases hk : keep m d with
    | true =>
      rw [← (hskip.unique hnext m).1 ⟨hk, Or.inl hm⟩]
      exact h
    | false =>
      obtain ⟨m', hm'⟩ := hskip.notTrapped hnext m hm hk
      have hm't := (hskip.unique hnext m').1 ((Skips.head hm hk).user hm')
      rw [← hm't]
      exact deriv_user hid hsites hd hk hm' h

include hid hskip hsites in
/-- **The dense run derives what the sparse run derives.** -/
theorem deriv_of_sparse {k : PathEdge N D} {w : E}
    (h : Deriv (rules P G nextUser) dropped k w) : Deriv (IDESolver.rules P G) dropped k w := by
  induction h with
  | ax ha hz => exact .ax ha hz
  | un hu _ hz ih =>
    cases hu with
    | normal hc hm hd =>
      exact deriv_destN hid hskip hsites hm
        (.un_eq (R := IDESolver.rules P G) (Phasar.FlowEdge.normal hc hm hd) ih rfl hz)
    | callToRet hc hr hd =>
      exact deriv_destN hid hskip hsites (G.returnSite_succ _ _ hr)
        (.un_eq (R := IDESolver.rules P G) (Phasar.FlowEdge.callToRet hc hr hd) ih rfl hz)
    | summary hc hg hs hr hd =>
      exact deriv_destN hid hskip hsites (G.returnSite_succ _ _ hr)
        (.un_eq (R := IDESolver.rules P G) (Phasar.FlowEdge.summary hc hg hs hr hd) ih rfl hz)
    | callStart hc hg hs hsp hd =>
      exact .un (R := IDESolver.rules P G) (Phasar.FlowEdge.callStart hc hg hs hsp hd) ih hz
  | bin hb _ _ hz ih₁ ih₂ =>
    cases hb with
    | mk hen he hr hd =>
      exact deriv_destN hid hskip hsites (G.returnSite_succ _ _ hr)
        (.bin_eq (R := IDESolver.rules P G) (Phasar.ReturnEdge.mk hen he he rfl hr hd) ih₁ ih₂ rfl
          hz)

/-- The sparse run has the weight at `k`, or at the next user to which it has moved the fact. -/
inductive Moved (P : IDETabulationProblem N F D E L) (G : ICFG N F) (keep : N → D → Bool)
    (nextUser : N → D → Option N) (dropped : E → Prop) : PathEdge N D → E → Prop
  | here {k w} : Deriv (rules P G nextUser) dropped k w → Moved P G keep nextUser dropped k w
  | ahead {d₁ x d n m w} : nextUser n d = some m → Skips G (keep · d) n x →
      Deriv (rules P G nextUser) dropped ⟨d₁, m, d⟩ w →
      Moved P G keep nextUser dropped ⟨d₁, x, d⟩ w

include hskip in
/-- A fact moved to `destN` has been moved to the successor, or over it. -/
theorem moved_of_destN {d₁ d : D} {n m : N} {w : E} (hm : m ∈ G.getSuccsOf n)
    (h : Deriv (rules P G nextUser) dropped ⟨d₁, destN nextUser n m d, d⟩ w) :
    Moved P G keep nextUser dropped ⟨d₁, m, d⟩ w := by
  cases hnext : nextUser n d with
  | none =>
    rw [destN, hnext] at h
    exact .here h
  | some t =>
    rw [destN, hnext, Option.getD_some] at h
    cases hk : keep m d with
    | true =>
      rw [← (hskip.unique hnext m).1 ⟨hk, Or.inl hm⟩] at h
      exact .here h
    | false => exact .ahead hnext (.head hm hk) h

include hskip in
/-- A fact that has been moved over `x` has been moved to its successors, or over them. -/
theorem moved_succ {d₁ d : D} {n x y m : N} {w : E} (hnext : nextUser n d = some m)
    (hx : Skips G (keep · d) n x) (h : Deriv (rules P G nextUser) dropped ⟨d₁, m, d⟩ w)
    (hy : y ∈ G.getSuccsOf x) : Moved P G keep nextUser dropped ⟨d₁, y, d⟩ w := by
  cases hk : keep y d with
  | true =>
    obtain rfl := (hskip.unique hnext y).1 ⟨hk, Or.inr ⟨x, hx, hy⟩⟩
    exact .here h
  | false => exact .ahead hnext (hx.tail hy hk) h

omit [DecidableEq D] in
include hskip in
theorem not_keeps {n x m : N} {d : D} (hnext : nextUser n d = some m)
    (hx : Skips G (keep · d) n x) : ¬ Keeps P keep x d := by
  rintro (rfl | hk)
  · rw [hskip.zero] at hnext
    cases hnext
  · rw [hx.keep_eq] at hk
    cases hk

include hid hskip in
/-- **What the dense run derives, the sparse run derives or has moved ahead.** -/
theorem moved_of_deriv (hexit : ∀ n d, G.isExitInst n = true → keep n d = true)
    {k : PathEdge N D} {w : E} (h : Deriv (IDESolver.rules P G) dropped k w) :
    Moved P G keep nextUser dropped k w := by
  induction h with
  | ax ha hz => exact .here (.ax ha hz)
  | un hu _ hz ih =>
    cases hu with
    | normal hc hm hd =>
      cases ih with
      | here h =>
        exact moved_of_destN hskip hm (.un_eq (R := rules P G nextUser) (FlowEdge.normal hc hm hd) h rfl
          hz)
      | ahead hnext hx h =>
        -- at a skipped instruction the fact flows to itself, and the edge function is the identity
        obtain ⟨hflow, hedge⟩ := hid.normal (not_keeps hskip hnext hx) hc _ hm
        obtain rfl := (hflow _).1 hd
        beta_reduce
        rw [hedge]
        exact moved_succ hskip hnext hx h hm
    | callToRet hc hr hd =>
      have hm := G.returnSite_succ _ _ hr
      cases ih with
      | here h =>
        exact moved_of_destN hskip hm (.un_eq (R := rules P G nextUser) (FlowEdge.callToRet hc hr hd) h
          rfl hz)
      | ahead hnext hx h =>
        obtain ⟨hflow, hedge⟩ := hid.callToRet (not_keeps hskip hnext hx) hc _ hr
        obtain rfl := (hflow _).1 hd
        beta_reduce
        rw [hedge]
        exact moved_succ hskip hnext hx h hm
    | summary hc hg hs hr hd =>
      have hm := G.returnSite_succ _ _ hr
      cases ih with
      | here h =>
        exact moved_of_destN hskip hm (.un_eq (R := rules P G nextUser)
          (FlowEdge.summary hc hg hs hr hd) h rfl hz)
      | ahead hnext hx h =>
        obtain ⟨rfl, hedge⟩ := hid.summary (not_keeps hskip hnext hx) _ hg _ hs _ hd
        beta_reduce
        rw [hedge _ _ hr]
        exact moved_succ hskip hnext hx h hm
    | callStart hc hg hs hsp hd =>
      cases ih with
      | here h => exact .here (.un (R := rules P G nextUser) (FlowEdge.callStart hc hg hs hsp hd) h hz)
      | ahead hnext hx h =>
        exact absurd hd (hid.call (not_keeps hskip hnext hx) _ hg hs _)
  | bin hb _ _ hz ih₁ ih₂ =>
    cases hb with
    | mk hen he _ hee hr hd =>
      subst hee
      cases ih₁ with
      | ahead hnext hx h =>
        obtain ⟨-, hg, hs, -, hd₃⟩ := hen
        exact absurd hd₃ (hid.call (not_keeps hskip hnext hx) _ hg hs _)
      | here h₁ =>
        cases ih₂ with
        | ahead hnext hx h =>
          -- exits are kept
          refine absurd (Or.inr (hexit _ _ ?_)) (not_keeps hskip hnext hx)
          exact ((G.mem_getExitPointsOf _ _).1 he).1
        | here h₂ =>
          exact moved_of_destN hskip (G.returnSite_succ _ _ hr)
            (.bin_eq (R := rules P G nextUser) (ReturnEdge.mk hen he hr hd) h₁ h₂ rfl hz)

include hid hskip hsites in
/-- At kept instructions both runs derive the same. -/
theorem deriv_iff (hexit : ∀ n d, G.isExitInst n = true → keep n d = true) {k : PathEdge N D}
    (hk : Keeps P keep k.target k.dTarget) (w : E) :
    Deriv (rules P G nextUser) dropped k w ↔ Deriv (IDESolver.rules P G) dropped k w := by
  refine ⟨deriv_of_sparse hid hskip hsites, fun h => ?_⟩
  cases moved_of_deriv hid hskip hexit h with
  | here h => exact h
  | ahead hnext hx h => exact absurd hk (not_keeps hskip hnext hx)

end Derivations

/-- **At kept instructions a sparse run has the jump functions of a dense run.** -/
theorem jumpFunction_eq [DecidableEq N] [DecidableEq E]
    (law : LawfulEdgeFunctions P.toEdgeFunctions)
    (hf : P.solverConfig.followReturnsPastSeeds = false) (hsum : SummariesDistribute P)
    (hid : IdentityOnSkipped P G keep) (hskip : SkipsNoUser P G keep nextUser)
    (hsites : ∀ c, G.isCallSite c = true → ∀ m ∈ G.getSuccsOf c, m ∈ G.getReturnSitesOfCallAt c)
    (hexit : ∀ n d, G.isExitInst n = true → keep n d = true) {S S' : IDESolver N D E}
    (hS : Reachable P G nextUser S) (hW : S.workList = [])
    (hS' : IDESolver.Reachable P G S') (hW' : S'.workList = []) {k : PathEdge N D}
    (hk : Keeps P keep k.target k.dTarget) : jumpFunction P S k = jumpFunction P S' k := by
  let _ := law.semilattice
  have hZ : ∀ x, dropped P x → ∀ y, x ≤ y := fun x hx y => law.allTop_le hx y
  have hD : Distributive (IDESolver.rules P G) := distributive_tabulationRules law hsum
  obtain ⟨hC, hSound⟩ := exact_of_empty law hf hsum hS hW
  obtain ⟨hC', hSound'⟩ := IDESolver.exact_of_empty law hf hsum hS' hW'
  have hstored : S.jumpFn.stored k = S'.jumpFn.stored k :=
    eq_of_deriv_iff hZ (distributive_rules law hsum) hC hSound hD hC' hSound'
      (deriv_iff hid hskip hsites hexit hk)
  rw [jumpFunction, jumpFunction, (pending_of_reachable law hf hsum hS).1.synced.forward k,
    (IDESolver.pending_of_reachable law hf hsum hS').1.synced.forward k, hstored]

/-! ### The next users of the sparse control-flow graphs -/

variable [DecidableEq N]

/-- The zero value is never moved; `entry` is the first instruction of a function. -/
def getNextUserOrNull (P : IDETabulationProblem N F D E L) (G : ICFG N F) (entry : F → N)
    (keep : N → D → Bool) (n : N) (d₃ : D) : Option N :=
  if d₃ = P.getZeroValue then none
  else nextUserOrNull (buildSparseCFG G (keep · d₃) (entry (G.getFunctionOf n))) n

/-- No kept instruction with a single own user has other users. -/
def OwnUsersSuffice (G : ICFG N F) (entry : F → N) (keep : N → D → Bool) : Prop :=
  ∀ f d n m, (∀ m', OwnUser G (keep · d) (entry f) n m' ↔ m' = m) →
    ∀ m', User G (keep · d) n m' → m' = m

/-- Where an instruction has a single own user, its skipped successors have users. -/
def NoneTrapped (G : ICFG N F) (entry : F → N) (keep : N → D → Bool) : Prop :=
  ∀ f d n m, (∀ m', OwnUser G (keep · d) (entry f) n m' ↔ m' = m) →
    ∀ s ∈ G.getSuccsOf n, keep s d = false → ∃ m', User G (keep · d) s m'

omit [DecidableEq D] in
theorem nextUsers_unique_iff {entry : F → N} (hentry : ∀ f d, keep (entry f) d = true) :
    (∀ f d n m, nextUserOrNull (buildSparseCFG G (keep · d) (entry f)) n = some m →
      ∀ m', User G (keep · d) n m' ↔ m' = m) ↔ OwnUsersSuffice G entry keep :=
  forall₂_congr fun f d => nextUser_unique_iff (hentry f d)

theorem skipsNoUser_getNextUserOrNull {entry : F → N} (hentry : ∀ f d, keep (entry f) d = true)
    (hown : OwnUsersSuffice G entry keep) (htrap : NoneTrapped G entry keep) :
    SkipsNoUser P G keep (getNextUserOrNull P G entry keep) := by
  have hnext : ∀ {n d m}, getNextUserOrNull P G entry keep n d = some m →
      nextUserOrNull (buildSparseCFG G (keep · d) (entry (G.getFunctionOf n))) n = some m := by
    intro n d m h
    rw [getNextUserOrNull] at h
    split_ifs at h
    exact h
  constructor
  · intro n
    exact if_pos rfl
  · intro n d m h
    exact (nextUsers_unique_iff hentry).2 hown _ d n m (hnext h)
  · intro n d m h
    refine htrap (G.getFunctionOf n) d n m ((nextUser_eq_some_iff ?_ n m).1 (hnext h))
    exact hentry _ d

/-- A branch around the instruction `1`; `2` is the merge point. -/
def bypass : ICFG (Fin 5) Unit :=
  .ofNodes (List.finRange 5) List.mem_finRange (fun _ => ()) ![[2, 1], [2], [3], [4], []]
    ![true, false, false, false, false] ![false, false, false, false, true] (fun _ => false)
    (fun _ => []) (by decide) (by decide)

/-- The fact `true` is generated at the entry; `false` is zero. -/
def generating : IDETabulationProblem (Fin 5) Unit Bool BasicEdgeFunction Bool where
  getZeroValue := false
  getNormalFlowFunction n _ d := if n = 0 ∧ d = false then [false, true] else [d]
  getCallFlowFunction _ _ _ := []
  getRetFlowFunction _ _ _ _ _ := []
  getCallToRetFlowFunction _ _ _ d := [d]
  getSummaryFlowFunction _ _ := none
  getNormalEdgeFunction n _ _ _ := if n = 0 then .allBottom else .edgeIdentity
  getCallEdgeFunction _ _ _ _ := .edgeIdentity
  getReturnEdgeFunction _ _ _ _ _ _ := .edgeIdentity
  getCallToRetEdgeFunction _ _ _ _ _ := .edgeIdentity
  getSummaryEdgeFunction _ _ _ _ := none
  extend := BasicEdgeFunction.compose
  combine := BasicEdgeFunction.join
  identity := .edgeIdentity
  isAllTop f := f = .allTop
  allTopFunction := .allTop
  extendNull := id
  topElement := true
  bottomElement := false
  join := and
  computeTarget := BasicEdgeFunction.computeTarget
  initialSeeds := VecMap.empty.set 0 .empty
  solverConfig := ⟨false, true⟩
  isAllTop_iff := BasicEdgeFunction.isAllTop_iff

end SparseIDESolver

end Phasar
