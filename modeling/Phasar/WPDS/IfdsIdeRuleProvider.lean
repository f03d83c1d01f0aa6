import Phasar.IfdsIde.IFDS
import Phasar.IfdsIde.MeetOverPaths
import Phasar.WPDS.SameLevel

/-!
# IFDS problems as pushdown systems

`IFDSRuleProvider` turns an IFDS problem into rules: facts are the control locations, instructions
the stack elements. A push rule names the return site only, so the pop rules take the return flows of
all call sites in front of it.

* `getNormalRules`, `getPushRules`, `getPopRules`, `initialSeeds`, `ifdsRuleProvider`;
* `TabulatedWith`: the tabulation rules, with the call sites whose return flows are applied
  as a parameter;
* `stored_iff_byReturnSite`, `stored_iff_byCallSite`: the edges that the two solvers compute;
* `ReturnSitesSuffice`, `wpdsSolver_agrees_iff`: when these are the same.
-/

namespace Phasar.WPDS

open WPDSSolver Deduction

variable {N F D : Type*}

namespace IfdsIdeRuleProvider

variable (FECache : IFDSTabulationProblem N F D) (ICF : ICFG N F)

def getNormalRules (cl : D) (se : N) : List (Node D N × Unit) :=
  if ICF.isCallSite se then
    let callees := ICF.getCalleesOfCallAt se
    let retSites := ICF.getReturnSitesOfCallAt se
    (retSites.flatMap fun succ =>
      (FECache.getCallToRetFlowFunction se succ callees cl).map fun fct => ((fct, succ), ())) ++
    callees.flatMap fun destFun =>
      match FECache.getSummaryFlowFunction se destFun with
      | some sumFF => retSites.flatMap fun succ => (sumFF cl).map fun fct => ((fct, succ), ())
      | none => []
  else
    (ICF.getSuccsOf se).flatMap fun succ =>
      (FECache.getNormalFlowFunction se succ cl).map fun fct => ((fct, succ), ())

def getPushRules (cl : D) (se : N) : List (PushRule D N Unit) :=
  if !ICF.isCallSite se then []
  else
    (ICF.getCalleesOfCallAt se).flatMap fun destFun =>
      match FECache.getSummaryFlowFunction se destFun with
      -- handled in `getNormalRules`
      | some _ => []
      | none =>
        (FECache.getCallFlowFunction se destFun cl).flatMap fun fct =>
          (ICF.getReturnSitesOfCallAt se).flatMap fun succ =>
            (ICF.getStartPointsOf destFun).map fun entrySE => ⟨fct, succ, entrySE, ()⟩

def getPopRules (cl : D) (exitSE retSiteSE : N) : List (D × Unit) :=
  let destFun := ICF.getFunctionOf exitSE
  (ICF.getPredsOf retSiteSE).flatMap fun cs =>
    -- a call site need not call the function of the exit
    if !ICF.isCallSite cs then []
    else (FECache.getRetFlowFunction cs destFun exitSE retSiteSE cl).map fun fct => (fct, ())

/-- The seeds of the problem. -/
def Seeded [DecidableEq N] (seeds : VecMap N (VecMap D BinaryDomain)) (n : N) (fact : D) : Prop :=
  ∃ facts, seeds.get? n = some facts ∧ fact ∈ facts.keys

def initialSeeds (seeds : VecMap N (VecMap D BinaryDomain)) : List (Node D N × Unit) :=
  seeds.entries.flatMap fun entry => entry.2.keys.map fun fact => ((fact, entry.1), ())

variable {FECache ICF} {cl fct : D} {se succ : N}

theorem mem_getNormalRules : ((fct, succ), ()) ∈ getNormalRules FECache ICF cl se ↔
    (ICF.isCallSite se = true ∧ succ ∈ ICF.getReturnSitesOfCallAt se ∧
      (fct ∈ FECache.getCallToRetFlowFunction se succ (ICF.getCalleesOfCallAt se) cl ∨
        ∃ g ∈ ICF.getCalleesOfCallAt se, ∃ sumFF, FECache.getSummaryFlowFunction se g = some sumFF ∧
          fct ∈ sumFF cl)) ∨
    (ICF.isCallSite se = false ∧ succ ∈ ICF.getSuccsOf se ∧
      fct ∈ FECache.getNormalFlowFunction se succ cl) := by
  unfold getNormalRules
  split_ifs with hcs
  · have hsum : ∀ g, ((fct, succ), ()) ∈ (match FECache.getSummaryFlowFunction se g with
        | some sumFF => (ICF.getReturnSitesOfCallAt se).flatMap fun succ =>
            (sumFF cl).map fun fct => ((fct, succ), ())
        | none => []) ↔ succ ∈ ICF.getReturnSitesOfCallAt se ∧
          ∃ sumFF, FECache.getSummaryFlowFunction se g = some sumFF ∧ fct ∈ sumFF cl := by
      intro g
      cases hg : FECache.getSummaryFlowFunction se g <;> simp
    simp only [List.mem_append, List.mem_flatMap, List.mem_map, Prod.mk.injEq, hsum, hcs]
    simp only [and_true, true_and, reduceCtorEq, false_and, or_false]
    constructor
    · rintro (⟨r, hr, f, hf, rfl, rfl⟩ | ⟨g, hg, hr, hf⟩)
      · exact ⟨hr, Or.inl hf⟩
      · exact ⟨hr, Or.inr ⟨g, hg, hf⟩⟩
    · rintro ⟨hr, hf | ⟨g, hg, hf⟩⟩
      · exact Or.inl ⟨_, hr, _, hf, rfl, rfl⟩
      · exact Or.inr ⟨g, hg, hr, hf⟩
  · rw [Bool.not_eq_true] at hcs
    simp only [List.mem_flatMap, List.mem_map, Prod.mk.injEq, hcs]
    simp

theorem mem_getPushRules {p : PushRule D N Unit} : p ∈ getPushRules FECache ICF cl se ↔
    ICF.isCallSite se = true ∧ ∃ g ∈ ICF.getCalleesOfCallAt se,
      FECache.getSummaryFlowFunction se g = none ∧ p.succFact ∈ FECache.getCallFlowFunction se g cl ∧
      p.retSite ∈ ICF.getReturnSitesOfCallAt se ∧ p.entrySE ∈ ICF.getStartPointsOf g := by
  obtain ⟨fct, r, sp, ⟨⟩⟩ := p
  unfold getPushRules
  cases hcs : ICF.isCallSite se with
  | false => simp
  | true =>
    simp only [Bool.not_true, Bool.false_eq_true, if_false, List.mem_flatMap, true_and]
    refine exists_congr fun g => and_congr_right fun _ => ?_
    cases hg : FECache.getSummaryFlowFunction se g <;> simp

theorem mem_getPopRules {exitSE retSiteSE : N} : (fct, ()) ∈ getPopRules FECache ICF cl exitSE retSiteSE ↔
    ∃ cs ∈ ICF.getPredsOf retSiteSE, ICF.isCallSite cs = true ∧
      fct ∈ FECache.getRetFlowFunction cs (ICF.getFunctionOf exitSE) exitSE retSiteSE cl := by
  simp only [getPopRules, List.mem_flatMap]
  refine exists_congr fun cs => and_congr_right fun _ => ?_
  cases ICF.isCallSite cs <;> simp

theorem mem_initialSeeds {seeds : VecMap N (VecMap D BinaryDomain)} [DecidableEq N] :
    ((fct, se), ()) ∈ initialSeeds seeds ↔ Seeded seeds se fct := by
  simp only [Seeded, initialSeeds, List.mem_flatMap, List.mem_map, Prod.mk.injEq, and_true]
  constructor
  · rintro ⟨⟨n, facts⟩, hmem, fact, hfact, rfl, rfl⟩
    exact ⟨facts, (VecMap.mem_entries_iff _ _ _).1 hmem, hfact⟩
  · rintro ⟨facts, hget, hfact⟩
    exact ⟨_, (VecMap.mem_entries_iff _ _ _).2 hget, _, hfact, rfl, rfl⟩

end IfdsIdeRuleProvider

open IfdsIdeRuleProvider

/-- `IFDSRuleProvider`, without a sparse control flow. -/
def ifdsRuleProvider (FECache : IFDSTabulationProblem N F D) (ICF : ICFG N F)
    (seeds : VecMap N (VecMap D BinaryDomain)) : RuleProvider D N Unit where
  getNormalRules n := getNormalRules FECache ICF n.1 n.2
  getPushRules n := getPushRules FECache ICF n.1 n.2
  hasPopRules n := ICF.isExitInst n.2
  getPopRules n retSite _ := getPopRules FECache ICF n.1 n.2 retSite
  initialSeeds := initialSeeds seeds
  makeSrcFacts := none

/-- All weights are the identity. -/
def identityRing : SemiRing Unit := ⟨fun _ _ => (), fun _ _ => (), ()⟩

theorem identityRing_lawful : identityRing.Lawful := by
  constructor <;> intros <;> rfl

/-! ### The tabulation rules -/

/-- The tabulation rules on the cached flows: the fact `d₁` at the start gives the fact `d₂` at `n`.
Callees are entered at the calls `c` with `enters c`, and at a return site `r` of a call at `c` the
return flows of all `c'` with `sites c r c'` are applied. -/
inductive TabulatedWith (FF : IFDSTabulationProblem N F D) (G : ICFG N F) (seed : N → D → Prop)
    (enters : N → Prop) (sites : N → N → N → Prop) : D → N → D → Prop
  | seed {n d} : seed n d → TabulatedWith FF G seed enters sites d n d
  | normal {d₁ n d₂ m d₃} : TabulatedWith FF G seed enters sites d₁ n d₂ → G.isCallSite n = false →
      m ∈ G.getSuccsOf n → d₃ ∈ FF.getNormalFlowFunction n m d₂ →
      TabulatedWith FF G seed enters sites d₁ m d₃
  | callToRet {d₁ c d₂ r d₃} : TabulatedWith FF G seed enters sites d₁ c d₂ → G.isCallSite c = true →
      r ∈ G.getReturnSitesOfCallAt c →
      d₃ ∈ FF.getCallToRetFlowFunction c r (G.getCalleesOfCallAt c) d₂ →
      TabulatedWith FF G seed enters sites d₁ r d₃
  | specialSummary {d₁ c d₂ g h r d₃} : TabulatedWith FF G seed enters sites d₁ c d₂ →
      G.isCallSite c = true → g ∈ G.getCalleesOfCallAt c → FF.getSummaryFlowFunction c g = some h →
      r ∈ G.getReturnSitesOfCallAt c → d₃ ∈ h d₂ → TabulatedWith FF G seed enters sites d₁ r d₃
  | callStart {d₁ c d₂ g d₃ sp} : TabulatedWith FF G seed enters sites d₁ c d₂ → Enters FF G c d₂ g d₃ →
      enters c → sp ∈ G.getStartPointsOf g → TabulatedWith FF G seed enters sites d₃ sp d₃
  | ret {d₁ c d₂ g d₃ e d₄ r c' d₅} : TabulatedWith FF G seed enters sites d₁ c d₂ →
      Enters FF G c d₂ g d₃ → TabulatedWith FF G seed enters sites d₃ e d₄ → e ∈ G.getExitPointsOf g →
      r ∈ G.getReturnSitesOfCallAt c → sites c r c' → d₅ ∈ FF.getRetFlowFunction c' g e r d₄ →
      TabulatedWith FF G seed enters sites d₁ r d₅

/-- Each call returns by its own return flow. -/
abbrev ByCallSite (FF : IFDSTabulationProblem N F D) (G : ICFG N F) (seed : N → D → Prop) :
    D → N → D → Prop :=
  TabulatedWith FF G seed (fun _ => True) fun c _ c' => c' = c

/-- A call is known by its return site only: it needs one to enter the callee, and it returns by the
return flows of all call sites in front of it. -/
abbrev ByReturnSite (FF : IFDSTabulationProblem N F D) (G : ICFG N F) (seed : N → D → Prop) :
    D → N → D → Prop :=
  TabulatedWith FF G seed (fun c => G.getReturnSitesOfCallAt c ≠ []) fun _ r c' =>
    c' ∈ G.getPredsOf r ∧ G.isCallSite c' = true

/-- Return sites are enough to tell calls apart: what the return flows of the other call sites in
front of a return site make of a call is derived without them, and what a call without return sites
passes to a callee is derived without entering a callee there. -/
structure ReturnSitesSuffice (FF : IFDSTabulationProblem N F D) (G : ICFG N F) (seed : N → D → Prop) :
    Prop where
  returns : ∀ {d₁ c d₂ g d₃ e d₄ r c' d₅}, ByCallSite FF G seed d₁ c d₂ → Enters FF G c d₂ g d₃ →
    ByCallSite FF G seed d₃ e d₄ → e ∈ G.getExitPointsOf g → r ∈ G.getReturnSitesOfCallAt c →
    c' ∈ G.getPredsOf r → G.isCallSite c' = true → d₅ ∈ FF.getRetFlowFunction c' g e r d₄ →
    ByCallSite FF G seed d₁ r d₅
  enters : ∀ {d₁ c d₂ g d₃ sp}, ByCallSite FF G seed d₁ c d₂ → Enters FF G c d₂ g d₃ →
    G.getReturnSitesOfCallAt c = [] → sp ∈ G.getStartPointsOf g → ByReturnSite FF G seed d₃ sp d₃

variable {FF : IFDSTabulationProblem N F D} {G : ICFG N F} {seed : N → D → Prop}

theorem byCallSite_of_byReturnSite (h : ReturnSitesSuffice FF G seed) {d₁ d₂ : D} {n : N}
    (hd : ByReturnSite FF G seed d₁ n d₂) : ByCallSite FF G seed d₁ n d₂ := by
  induction hd with
  | seed hs => exact .seed hs
  | normal _ hc hm hd ih => exact ih.normal hc hm hd
  | callToRet _ hc hr hd ih => exact ih.callToRet hc hr hd
  | specialSummary _ hc hg hh hr hd ih => exact ih.specialSummary hc hg hh hr hd
  | callStart _ hen _ hsp ih => exact ih.callStart hen trivial hsp
  | ret _ hen _ he hr hsite hd ih₁ ih₂ => exact h.returns ih₁ hen ih₂ he hr hsite.1 hsite.2 hd

theorem byReturnSite_of_byCallSite (h : ReturnSitesSuffice FF G seed) {d₁ d₂ : D} {n : N}
    (hd : ByCallSite FF G seed d₁ n d₂) : ByReturnSite FF G seed d₁ n d₂ := by
  induction hd with
  | seed hs => exact .seed hs
  | normal _ hc hm hd ih => exact ih.normal hc hm hd
  | callToRet _ hc hr hd ih => exact ih.callToRet hc hr hd
  | specialSummary _ hc hg hh hr hd ih => exact ih.specialSummary hc hg hh hr hd
  | @callStart _ c _ _ _ _ hcall hen _ hsp ih =>
    by_cases hr : G.getReturnSitesOfCallAt c = []
    · exact h.enters hcall hen hr hsp
    · exact ih.callStart hen hr hsp
  | @ret _ c _ _ _ _ _ r _ _ _ hen _ he hr hsite hd ih₁ ih₂ =>
    have hpred : c ∈ G.getPredsOf r := (G.mem_getPredsOf _ _).2 (G.returnSite_succ _ _ hr)
    exact ih₁.ret hen ih₂ he hr ⟨hpred, hen.1⟩ (hsite ▸ hd)

theorem returnSitesSuffice_iff : ReturnSitesSuffice FF G seed ↔
    ∀ d₁ n d₂, ByReturnSite FF G seed d₁ n d₂ ↔ ByCallSite FF G seed d₁ n d₂ := by
  refine ⟨fun h d₁ n d₂ => ⟨byCallSite_of_byReturnSite h, byReturnSite_of_byCallSite h⟩,
    fun h => ⟨?_, ?_⟩⟩
  · intro d₁ c d₂ g d₃ e d₄ r c' d₅ hc hen he hexit hr hpred hcs hd
    exact (h _ _ _).1 (((h _ _ _).2 hc).ret hen ((h _ _ _).2 he) hexit hr ⟨hpred, hcs⟩ hd)
  · intro d₁ c d₂ g d₃ sp hc hen _ hsp
    exact (h _ _ _).2 (hc.callStart hen trivial hsp)

/-- Return sites are enough if each belongs to one call site, and every call site has one. -/
theorem returnSitesSuffice_of_unique (hne : ∀ c, G.isCallSite c = true → G.getReturnSitesOfCallAt c ≠ [])
    (hsite : ∀ c r c', r ∈ G.getReturnSitesOfCallAt c → c' ∈ G.getPredsOf r →
      G.isCallSite c' = true → c' = c) :
    ReturnSitesSuffice FF G seed where
  returns hc hen he hexit hr hpred hcs hd := hc.ret hen he hexit hr (hsite _ _ _ hr hpred hcs) hd
  enters _ hen hr _ := absurd hr (hne _ hen.1)

/-! ### The pushdown solver -/

section Pushdown

variable {seeds : VecMap N (VecMap D BinaryDomain)}

/-- A path edge of the pushdown system stays in the function of its source. -/
theorem getFunctionOf_sameLevel {src n : Node D N} {w : Unit}
    (h : SameLevel (ifdsRuleProvider FF G seeds) identityRing src n w) :
    G.getFunctionOf n.2 = G.getFunctionOf src.2 := by
  induction h with
  | seed => rfl
  | entry => rfl
  | @normal _ n n' _ _ _ hrule ih =>
    obtain ⟨d, m⟩ := n'
    rcases mem_getNormalRules.1 hrule with ⟨-, hr, -⟩ | ⟨-, hm, -⟩
    · exact (G.getFunctionOf_returnSite hr).trans ih
    · exact (G.getFunctionOf_succ _ _ hm).trans ih
  | call _ hp _ _ _ ih _ =>
    obtain ⟨-, g, -, -, -, hr, -⟩ := mem_getPushRules.1 ((mem_pushes_iff rfl).1 hp).1
    exact (G.getFunctionOf_returnSite hr).trans ih

variable [DecidableEq N]

theorem byReturnSite_of_sameLevel {src n : Node D N} {w : Unit}
    (h : SameLevel (ifdsRuleProvider FF G seeds) identityRing src n w) :
    ByReturnSite FF G (Seeded seeds) src.1 n.2 n.1 := by
  induction h with
  | @seed src _ hs =>
    obtain ⟨d, n⟩ := src
    exact .seed (mem_initialSeeds.1 hs)
  | entry _ hp ih =>
    obtain ⟨hpush, rfl⟩ := (mem_pushes_iff rfl).1 hp
    obtain ⟨hc, g, hg, hsum, hd, hr, hsp⟩ := mem_getPushRules.1 hpush
    exact ih.callStart ⟨hc, hg, hsum, ⟨_, hsp⟩, hd⟩ (List.ne_nil_of_mem hr) hsp
  | @normal _ n n' _ _ _ hrule ih =>
    obtain ⟨d, m⟩ := n'
    rcases mem_getNormalRules.1 hrule with ⟨hc, hr, hd | ⟨g, hg, h, hh, hd⟩⟩ | ⟨hc, hm, hd⟩
    · exact ih.callToRet hc hr hd
    · exact ih.specialSummary hc hg hh hr hd
    · exact ih.normal hc hm hd
  | @call src n x _ _ p real pop _ hp hcallee hexit hpop ih₁ ih₂ =>
    obtain ⟨hpush, rfl⟩ := (mem_pushes_iff rfl).1 hp
    obtain ⟨hc, g, hg, hsum, hd, hr, hsp⟩ := mem_getPushRules.1 hpush
    obtain ⟨c', hpred, hcs, hd₅⟩ := mem_getPopRules.1 hpop
    -- the function of the exit is the callee
    have hfn : G.getFunctionOf x.2 = g :=
      (getFunctionOf_sameLevel hcallee).trans (G.getFunctionOf_startPoint hsp)
    rw [hfn] at hd₅
    exact ih₁.ret ⟨hc, hg, hsum, ⟨_, hsp⟩, hd⟩ ih₂ ((G.mem_getExitPointsOf _ _).2 ⟨hexit, hfn⟩) hr
      ⟨hpred, hcs⟩ hd₅

theorem sameLevel_of_byReturnSite (hstart : ∀ n d, Seeded seeds n d → G.isStartPoint n = true) {d₁ d₂ : D}
    {n : N} (h : ByReturnSite FF G (Seeded seeds) d₁ n d₂) :
    ∃ sp ∈ G.getStartPointsOf (G.getFunctionOf n),
      ∃ w, SameLevel (ifdsRuleProvider FF G seeds) identityRing (d₁, sp) (d₂, n) w := by
  have hpushes : ∀ {c d₂ g d₃ r sp}, Enters FF G c d₂ g d₃ → r ∈ G.getReturnSitesOfCallAt c →
      sp ∈ G.getStartPointsOf g →
      ((⟨d₃, r, sp, ()⟩ : PushRule D N Unit), d₃) ∈ pushes (ifdsRuleProvider FF G seeds) (d₂, c) :=
    fun hen hr hsp => (mem_pushes_iff rfl).2
      ⟨mem_getPushRules.2 ⟨hen.1, _, hen.2.1, hen.2.2.1, hen.2.2.2.2, hr, hsp⟩, rfl⟩
  induction h with
  | @seed n d hs =>
    exact ⟨n, (G.mem_getStartPointsOf _ _).2 ⟨hstart n d hs, rfl⟩, _, .seed (mem_initialSeeds.2 hs)⟩
  | normal _ hc hm hd ih =>
    obtain ⟨sp, hsp, w, hw⟩ := ih
    exact ⟨sp, (G.getFunctionOf_succ _ _ hm).symm ▸ hsp, _,
      hw.normal (mem_getNormalRules.2 (Or.inr ⟨hc, hm, hd⟩))⟩
  | callToRet _ hc hr hd ih =>
    obtain ⟨sp, hsp, w, hw⟩ := ih
    exact ⟨sp, (G.getFunctionOf_returnSite hr).symm ▸ hsp, _,
      hw.normal (mem_getNormalRules.2 (Or.inl ⟨hc, hr, Or.inl hd⟩))⟩
  | specialSummary _ hc hg hh hr hd ih =>
    obtain ⟨sp, hsp, w, hw⟩ := ih
    exact ⟨sp, (G.getFunctionOf_returnSite hr).symm ▸ hsp, _,
      hw.normal (mem_getNormalRules.2 (Or.inl ⟨hc, hr, Or.inr ⟨_, hg, _, hh, hd⟩⟩))⟩
  | @callStart _ _ _ g _ sp _ hen hne hsp ih =>
    obtain ⟨sp₀, -, w, hw⟩ := ih
    obtain ⟨r, hr⟩ := List.exists_mem_of_ne_nil _ hne
    exact ⟨sp, (G.getFunctionOf_startPoint hsp).symm ▸ hsp, _, hw.entry (hpushes hen hr hsp)⟩
  | ret _ hen _ he hr hsite hd ih₁ ih₂ =>
    obtain ⟨sp, hsp, w, hw⟩ := ih₁
    obtain ⟨sp', hsp', w', hw'⟩ := ih₂
    obtain ⟨hexit, hfn⟩ := (G.mem_getExitPointsOf _ _).1 he
    rw [hfn] at hsp'
    exact ⟨sp, (G.getFunctionOf_returnSite hr).symm ▸ hsp, _, hw.call (hpushes hen hr hsp') hw' hexit
      (mem_getPopRules.2 ⟨_, hsite.1, hsite.2, hfn.symm ▸ hd⟩)⟩

theorem stored_iff_byReturnSite [DecidableEq D]
    (hstart : ∀ n d, Seeded seeds n d → G.isStartPoint n = true)
    {S : WPDSSolver D N Unit} (hS : Reachable (ifdsRuleProvider FF G seeds) identityRing S)
    (hempty : S.workList = []) (d₁ : D) (n : N) (d₂ : D) :
    (∃ sp, S.stored ((d₁, sp), (d₂, n)) ≠ none) ↔ ByReturnSite FF G (Seeded seeds) d₁ n d₂ := by
  have hexact := exact_of_reachable identityRing_lawful hS hempty
  constructor
  · rintro ⟨sp, hsp⟩
    obtain ⟨w, hw⟩ := (hexact _ _).1.1 hsp
    exact byReturnSite_of_sameLevel hw
  · intro h
    obtain ⟨sp, -, hw⟩ := sameLevel_of_byReturnSite hstart h
    exact ⟨sp, (hexact _ _).1.2 hw⟩

end Pushdown

/-! ### The IDE solver -/

section IDE

variable [DecidableEq N] [DecidableEq D] {P : IFDSTabulationProblem N F D}
  {seeds : VecMap N (VecMap D BinaryDomain)} {cfg : IFDSIDESolverConfig}

omit [DecidableEq N] in
/-- Every derivation has the identity as its weight. -/
theorem deriv_toIDE_iff {d₁ d₂ : D} {n : N} :
    (∃ w, Deriv (IDESolver.rules (P.toIDE seeds cfg) G) (IDESolver.dropped (P.toIDE seeds cfg))
      ⟨d₁, n, d₂⟩ w) ↔
      ByCallSite (P.cached cfg.autoAddZero) G (P.toIDE seeds cfg).IsSeed d₁ n d₂ := by
  constructor
  · suffices key : ∀ {k w}, Deriv (IDESolver.rules (P.toIDE seeds cfg) G)
        (IDESolver.dropped (P.toIDE seeds cfg)) k w →
        ByCallSite (P.cached cfg.autoAddZero) G (P.toIDE seeds cfg).IsSeed k.dSource k.target k.dTarget by
      rintro ⟨w, hw⟩
      exact key hw
    intro k w h
    induction h with
    | @ax k e ha _ =>
      obtain ⟨hseed, heq, -⟩ := ha
      rw [heq]
      exact .seed hseed
    | un hu _ _ ih =>
      cases hu with
      | normal hc hm hd => exact ih.normal hc hm hd
      | callToRet hc hr hd => exact ih.callToRet hc hr hd
      | summary hc hg hs hr hd => exact ih.specialSummary hc hg hs hr hd
      | callStart hc hg hs hsp hd => exact ih.callStart ⟨hc, hg, hs, ⟨_, hsp⟩, hd⟩ trivial hsp
    | bin hb _ _ _ ih₁ ih₂ =>
      cases hb with
      | mk hen he _ hee hr hd =>
        subst hee
        exact ih₁.ret hen ih₂ he hr rfl hd
  · intro h
    refine ⟨.edgeIdentity, ?_⟩
    have hnz : ¬ IDESolver.dropped (P.toIDE seeds cfg) .edgeIdentity := by
      simp [IFDSTabulationProblem.toIDE, ifdsEdgeFunctions]
    induction h with
    | seed hs => exact .ax ⟨hs, rfl, rfl⟩ hnz
    | normal _ hc hm hd ih =>
      exact .un (R := IDESolver.rules (P.toIDE seeds cfg) G) (.normal hc hm hd) ih hnz
    | callToRet _ hc hr hd ih =>
      exact .un (R := IDESolver.rules (P.toIDE seeds cfg) G) (.callToRet hc hr hd) ih hnz
    | specialSummary _ hc hg hh hr hd ih =>
      exact .un (R := IDESolver.rules (P.toIDE seeds cfg) G) (.summary hc hg hh hr hd) ih hnz
    | callStart _ hen _ hsp ih =>
      exact .un (R := IDESolver.rules (P.toIDE seeds cfg) G)
        (.callStart hen.1 hen.2.1 hen.2.2.1 hsp hen.2.2.2.2) ih hnz
    | ret _ hen _ he hr hsite hd ih₁ ih₂ =>
      exact .bin (R := IDESolver.rules (P.toIDE seeds cfg) G)
        (.mk hen he he rfl hr (hsite ▸ hd)) ih₁ ih₂ hnz

omit [DecidableEq N] [DecidableEq D] in
/-- All-top is below the identity, and there is nothing else. -/
theorem wellFounded_edges : WellFounded fun a b : IFDSEdgeFunction =>
    (P.toIDE seeds cfg).combine b a = a ∧ a ≠ b := by
  refine Subrelation.wf (r := fun a b => a = .edgeIdentity ∧ b = .allTop) ?_ ⟨fun a => ⟨a, ?_⟩⟩
  · rintro a b ⟨hab, hne⟩
    cases a <;> cases b <;> first | exact ⟨rfl, rfl⟩ | exact absurd rfl hne | cases hab
  · rintro _ ⟨rfl, -⟩
    exact ⟨_, fun _ h => by cases h.2⟩

omit [DecidableEq N] in
/-- The identity of a special summary distributes. -/
theorem summariesDistribute_toIDE : IDESolver.SummariesDistribute (P.toIDE seeds cfg) := by
  intro c g _ d₂ r d₃ a b
  cases a <;> cases b <;> rfl

theorem stored_iff_byCallSite (hret : cfg.followReturnsPastSeeds = false)
    {S : IDESolver N D IFDSEdgeFunction}
    (hS : IDESolver.Reachable (P.toIDE seeds cfg) G S) (hW : S.workList = []) (d₁ : D) (n : N) (d₂ : D) :
    S.jumpFn.stored ⟨d₁, n, d₂⟩ ≠ none ↔
      ByCallSite (P.cached cfg.autoAddZero) G (P.toIDE seeds cfg).IsSeed d₁ n d₂ := by
  have law : LawfulEdgeFunctions (P.toIDE seeds cfg).toEdgeFunctions := lawful_ifdsEdgeFunctions
  let _ := law.semilattice
  obtain ⟨hC, hSound⟩ := IDESolver.exact_of_empty law hret summariesDistribute_toIDE hS hW
  rw [Ne, eq_none_iff (fun x hx y => law.allTop_le hx y)
    (distributive_tabulationRules law summariesDistribute_toIDE) hC hSound, not_forall_not,
      deriv_toIDE_iff]

end IDE

/-! ### Agreement -/

variable [DecidableEq N] [DecidableEq D]

/-- **The pushdown solver agrees with the IDE solver** exactly if return sites are enough to tell
calls apart. Both solvers end, in whatever order they work. -/
theorem wpdsSolver_agrees_iff [Finite N] [Finite D] (P : IFDSTabulationProblem N F D) (G : ICFG N F)
    (seeds : VecMap N (VecMap D BinaryDomain)) (autoAddZero : Bool)
    (hseeds : ∀ n facts, seeds.get? n = some facts →
      G.isStartPoint n = true ∧ P.getZeroValue ∈ facts.keys) :
    (∃ n S, ∀ fuel ≥ n,
        solveImpl (ifdsRuleProvider (P.cached autoAddZero) G seeds) identityRing fuel = some S) ∧
      (∃ fuel, (IDESolver.run (P.toIDE seeds ⟨false, autoAddZero⟩) G fuel
        (IDESolver.init (P.toIDE seeds ⟨false, autoAddZero⟩))).workList = []) ∧
      ∀ S S', Reachable (ifdsRuleProvider (P.cached autoAddZero) G seeds) identityRing S →
        S.workList = [] → IDESolver.Reachable (P.toIDE seeds ⟨false, autoAddZero⟩) G S' →
        S'.workList = [] →
        ((∀ d₁ n d₂, (∃ sp, S.stored ((d₁, sp), (d₂, n)) ≠ none) ↔ S'.jumpFn.stored ⟨d₁, n, d₂⟩ ≠ none) ↔
          ReturnSitesSuffice (P.cached autoAddZero) G (Seeded seeds)) := by
  refine ⟨?_, ?_, fun S S' hS hempty hS' hempty' => ?_⟩
  · obtain ⟨n, S, hrun, -⟩ :=
      exists_solved (ifdsRuleProvider (P.cached autoAddZero) G seeds) identityRing_lawful
        (@Finite.to_wellFoundedGT Unit _ identityRing_lawful.semilattice.toPreorder)
    exact ⟨n, S, hrun⟩
  · exact IDESolver.exists_run_empty
      (IDESolver.wellFounded_step lawful_ifdsEdgeFunctions rfl summariesDistribute_toIDE
        wellFounded_edges) .init
  · have hseeded : (P.toIDE seeds ⟨false, autoAddZero⟩).IsSeed = Seeded seeds := by
      funext n d
      refine propext ((isSeed_toIDE n d).trans (or_iff_left_of_imp ?_))
      rintro ⟨hn, rfl⟩
      obtain ⟨facts, hfacts⟩ := Option.ne_none_iff_exists'.1 ((VecMap.mem_keys_iff _ _).1 hn)
      exact ⟨facts, hfacts, (hseeds n facts hfacts).2⟩
    have hstart : ∀ n d, Seeded seeds n d → G.isStartPoint n = true := by
      rintro n d ⟨facts, hfacts, -⟩
      exact (hseeds n facts hfacts).1
    rw [returnSitesSuffice_iff]
    refine forall_congr' fun d₁ => forall_congr' fun n => forall_congr' fun d₂ => ?_
    rw [stored_iff_byReturnSite hstart hS hempty, stored_iff_byCallSite rfl hS' hempty', hseeded]

/-- On the recursive program each call has its own return site. -/
theorem wpdsSolver_agrees_iff_recursive :
    (∃ n S, ∀ fuel ≥ n, solveImpl
      (ifdsRuleProvider (recursiveProblem.cached true) recursiveProgram mainZeroSeeds) identityRing fuel =
        some S) ∧
      ∀ S S',
        Reachable (ifdsRuleProvider (recursiveProblem.cached true) recursiveProgram mainZeroSeeds)
          identityRing S → S.workList = [] →
        IDESolver.Reachable (recursiveProblem.toIDE mainZeroSeeds ⟨false, true⟩) recursiveProgram S' →
        S'.workList = [] →
        ∀ d₁ n d₂, (∃ sp, S.stored ((d₁, sp), (d₂, n)) ≠ none) ↔ S'.jumpFn.stored ⟨d₁, n, d₂⟩ ≠ none := by
  have hseeds : ∀ n facts, mainZeroSeeds.get? n = some facts →
      recursiveProgram.isStartPoint n = true ∧ recursiveProblem.getZeroValue ∈ facts.keys := by
    decide
  obtain ⟨hends, -, hagrees⟩ :=
    wpdsSolver_agrees_iff recursiveProblem recursiveProgram mainZeroSeeds true hseeds
  refine ⟨hends, fun S S' hS hempty hS' hempty' => ?_⟩
  refine (hagrees S S' hS hempty hS' hempty').2 (returnSitesSuffice_of_unique ?_ ?_)
  · decide
  · decide

/-! #### Two call sites with one return site -/

/-- `main` branches to a call of `g` and to a call of a declaration with the same return site. -/
inductive SharedNode
  | branch
  | callG
  | callDecl
  | ret
  | entryG
  | exitG
  deriving DecidableEq

inductive SharedFunction
  | main
  | g
  | decl
  deriving DecidableEq

/-- The return site of both calls is the end of `main`. -/
def sharedProgram : ICFG SharedNode SharedFunction :=
  .ofNodes [.branch, .callG, .callDecl, .ret, .entryG, .exitG] (fun n => by cases n <;> decide)
    (fun n => if n = .entryG ∨ n = .exitG then .g else .main)
    (fun
      | .branch => [.callG, .callDecl]
      | .callG | .callDecl => [.ret]
      | .entryG => [.exitG]
      | .ret | .exitG => [])
    (fun n => n = .branch ∨ n = .entryG) (fun n => n = .ret ∨ n = .exitG)
    (fun n => n = .callG ∨ n = .callDecl)
    (fun n => if n = .callG then [.g] else if n = .callDecl then [.decl] else [])
    (fun n => by cases n <;> decide) (fun n => by cases n <;> decide)

/-- The zero value is `false`. The call of `g` generates the fact `true`, which its return kills, and
which a return of the other call keeps. -/
def sharedProblem : IFDSTabulationProblem SharedNode SharedFunction Bool where
  getZeroValue := false
  getNormalFlowFunction _ _ d := [d]
  getCallFlowFunction _ _ d := if d then [] else [false, true]
  getRetFlowFunction c _ _ _ d := if c = .callG ∧ d then [] else [d]
  getCallToRetFlowFunction _ _ _ d := [d]
  getSummaryFlowFunction _ _ := none

/-- The zero value at the start of `main`. -/
def sharedSeeds : VecMap SharedNode (VecMap Bool BinaryDomain) :=
  VecMap.empty.set .branch (VecMap.empty.set false .bottom)

/-- The pushdown solver returns the fact from `g` by the return flow of the other call. -/
theorem wpdsSolver_mixes_call_sites :
    ((solveImpl (ifdsRuleProvider (sharedProblem.cached true) sharedProgram sharedSeeds)
        identityRing 40).map fun S => S.stored ((false, .branch), (true, .ret))) = some (some ()) ∧
      (IDESolver.run (sharedProblem.toIDE sharedSeeds ⟨false, true⟩) sharedProgram 40
        (IDESolver.init (sharedProblem.toIDE sharedSeeds ⟨false, true⟩))).workList = [] ∧
      (IDESolver.run (sharedProblem.toIDE sharedSeeds ⟨false, true⟩) sharedProgram 40
        (IDESolver.init (sharedProblem.toIDE sharedSeeds ⟨false, true⟩))).jumpFn.stored
          ⟨false, .ret, true⟩ = none := by
  refine ⟨?_, ?_, ?_⟩
  · decide +kernel
  · decide +kernel
  · decide +kernel

end Phasar.WPDS
