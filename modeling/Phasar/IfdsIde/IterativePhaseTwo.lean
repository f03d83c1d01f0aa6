import Phasar.IfdsIde.IterativeRun
import Phasar.IfdsIde.IterativeValueComputation
import Phasar.IfdsIde.PhaseTwo
import Phasar.Lib.DeltaPropagation

/-!
# Phase II of the iterative solver solves the value equations

Phase II propagates along the calls that phase I has registered. Some of them are for jump functions that
have changed since, but they are covered by those for the final ones. So the values at start points
satisfy constraints along the final jump functions and call edges, and are the least ones that do.

* `ForValues`: what phase II needs of phase I;
* `propagateValue_eq`: phase II propagates contributions, as in `DeltaPropagation`;
* `StartSolution`: the constraints at start points; `reachedValues`: the values of other instructions;
* `iterativeValues_least`: termination and the final values, for every order of jobs and start points.
-/

set_option linter.unusedSectionVars false

namespace Phasar

open Deduction

variable {N F D E L : Type*}

/-- Top is the least value. -/
@[reducible] def LawfulValues.orderBot {P : IDETabulationProblem N F D E L} (law : LawfulValues P) :
    let _ := law.semilattice
    OrderBot L :=
  let _ := law.semilattice
  { bot := P.topElement, bot_le := law.top_join }

variable [DecidableEq N] [DecidableEq F] [DecidableEq D] [DecidableEq E]

/-! ### What phase I leaves -/

namespace IterativeIDESolver

/-- What phase II needs of phase I. -/
structure ForValues (P : IterativeProblem N F D E L) (G : ICFG N F) (S : IterativeIDESolver N F D E) :
    Prop where
  entry : ∀ n d, S.valTab n d = true ↔ ∃ d₁, S.stored ⟨d₁, n, d⟩ ≠ none
  source : ∀ {k}, S.stored k ≠ none → ∃ sp, G.getFunctionOf sp = G.getFunctionOf k.target ∧
    (G.isStartPoint sp = true ∨ P.IsSeed sp k.dSource) ∧ S.stored ⟨k.dSource, sp, k.dSource⟩ ≠ none
  seed : ∀ {n d}, P.IsSeed n d → S.stored ⟨d, n, d⟩ ≠ none
  registered : ∀ {d₁ c d₂ f g d₃}, S.stored ⟨d₁, c, d₂⟩ = some f → Enters P.cachedFlows G c d₂ g d₃ →
    ⟨P.extend f (P.getCallEdgeFunction c d₂ g d₃), d₁, g, c, d₃⟩ ∈ S.allInterPropagations
  job : ∀ {j}, j ∈ S.allInterPropagations → ∃ d₂ f f',
    Enters P.cachedFlows G j.callSite d₂ j.callee j.factInCallee ∧
      j.sourceEF = P.extend f (P.getCallEdgeFunction j.callSite d₂ j.callee j.factInCallee) ∧
      S.stored ⟨j.sourceFact, j.callSite, d₂⟩ = some f' ∧ P.combine f f' = f'
  start : ∀ {j}, j ∈ S.allInterPropagations → ∀ sp ∈ G.getStartPointsOf j.callee,
    S.stored ⟨j.factInCallee, sp, j.factInCallee⟩ ≠ none

variable [SemilatticeSup E] {P : IterativeProblem N F D E L} {G : ICFG N F}
  {S : IterativeIDESolver N F D E}

/-- The invariant when `doNext` has returned false. -/
theorem inv_of_finished (hP : Setting P) (hS : Finished P G S) :
    ∃ H, Inv P G .nothing .nothing S H ∧ Seeded P G H ∧ S.workList = [] ∧ S.callWL = [] := by
  obtain ⟨S₀, hS₀, hw₀, calls, hperm, hS, hw⟩ := hS
  obtain ⟨H₀, hi₀, hseed₀⟩ := inv_of_reachable hP hS₀
  obtain ⟨H, hi, hc, hcov, -⟩ := hi₀.drained hP hS hperm hw₀
  exact ⟨H, hi, hseed₀.mono hcov, hw, hc⟩

/-- A path edge starts at a start point or a seed of its function. -/
theorem deriv_source {k : PathEdge N D} {e : E} (h : Deriv (rules P G) (dropped P) k e) :
    ∃ sp, G.getFunctionOf sp = G.getFunctionOf k.target ∧
      (G.isStartPoint sp = true ∨ P.IsSeed sp k.dSource) ∧
      ∃ e, Deriv (rules P G) (dropped P) ⟨k.dSource, sp, k.dSource⟩ e := by
  induction h with
  | @ax k e hax hz =>
    obtain ⟨hseed, hd, rfl⟩ := id hax
    refine ⟨k.target, rfl, Or.inr hseed, P.identity, .ax ⟨hseed, rfl, rfl⟩ hz⟩
  | un hu hd hz ih =>
    obtain ⟨sp, hfun, hsp, hsource⟩ := ih
    cases hu with
    | normal _ hm _ => exact ⟨sp, hfun.trans (G.getFunctionOf_succ _ _ hm).symm, hsp, hsource⟩
    | callToRet _ hr _ => exact ⟨sp, hfun.trans (G.getFunctionOf_returnSite hr).symm, hsp, hsource⟩
    | summary _ _ _ hr _ => exact ⟨sp, hfun.trans (G.getFunctionOf_returnSite hr).symm, hsp, hsource⟩
    | callStart hc hg hs hsp' hd' =>
      exact ⟨_, rfl, Or.inl (G.isStartPoint_of_mem hsp'), _, .un (.callStart hc hg hs hsp' hd') hd hz⟩
  | bin hb hd₁ hd₂ hz ih₁ ih₂ =>
    obtain ⟨sp, hfun, hsp, hsource⟩ := ih₁
    obtain ⟨hen, he, he', hx, hr, hd⟩ := hb
    exact ⟨sp, hfun.trans (G.getFunctionOf_returnSite hr).symm, hsp, hsource⟩

theorem forValues_of_finished (hP : Setting P) (hgc : P.config.enableJumpFunctionGC = .disabled)
    (hid : P.isAllTop P.identity = false) (hS : Finished P G S) : ForValues P G S := by
  obtain ⟨H, hi, hseed, hw, hc⟩ := inv_of_finished hP hS
  have hclosed := closed_of_inv hP hi hseed hw hc
  have hstored : S.stored = H := funext fun k => hi.kept (Or.inl hgc)
  have htodo : ∀ {k f}, ¬ ToDo .nothing S k f := by
    rintro k f (h | h)
    · simp [hw] at h
    · exact h
  have hderiv : ∀ {k e}, Deriv (rules P G) (dropped P) k e → S.stored k ≠ none := by
    intro k e hd h
    have hcov := hclosed.covers hP.dropped_le hP.distributive hd
    rw [← hstored, h] at hcov
    exact not_covers_none hcov
  have hdropped : ¬ dropped P P.identity := fun h => by rw [dropped, hid] at h; cases h
  refine ⟨fun n d => by rw [hstored]; exact hi.val, fun {k} hk => ?_, fun {n d} hs => ?_,
    fun {d₁ c d₂ f g d₃} hf hen => ?_, fun {j} hj => ?_, fun {j} hj sp hsp => ?_⟩
  · obtain ⟨f, hf⟩ := Option.ne_none_iff_exists'.1 hk
    obtain ⟨w, hw'⟩ := exists_deriv_of_reached (hi.sound k f (hstored ▸ hf))
    obtain ⟨sp, hfun, hsp, e, he⟩ := deriv_source hw'
    exact ⟨sp, hfun, hsp, hderiv he⟩
  · exact hderiv (k := ⟨d, n, d⟩) (.ax ⟨hs, rfl, rfl⟩ hdropped)
  · exact (hi.registered (hstored ▸ hf) hen).resolve_right htodo
  · obtain ⟨d₂, f, hen, hEF, hf⟩ := hi.job hj
    obtain ⟨w, hw'⟩ := exists_deriv_of_reached hf
    obtain ⟨f', hf'⟩ := Option.ne_none_iff_exists'.1 (hderiv hw')
    refine ⟨d₂, f, f', hen, hEF, hf', ?_⟩
    have hlub := isLUB_of_closed hP.dropped_le hP.distributive hclosed hi.sound (hstored ▸ hf')
    rw [hP.sup, sup_eq_right]
    exact reached_induction (p := (· ≤ f')) (fun e he => hlub.1 he) (fun a b => sup_le) hf
  · rcases hi.start hj with hstart | ⟨h, -⟩
    · rcases hstart sp hsp with h | h
      · exact absurd h hdropped
      · intro hnone
        rw [hstored] at hnone
        rw [hnone] at h
        exact not_covers_none h
    · exact h.elim

end IterativeIDESolver

namespace IterativeValueState

open DeltaPropagation (State process)
open IterativeIDESolver (ForValues)

variable [DecidableEq L]
variable (P : IDETabulationProblem N F D E L) (G : ICFG N F) (S : IterativeIDESolver N F D E)

/-! ### Values and edges -/

/-- The values; top where there is no entry. -/
def vals (V : IterativeValueState N D L) (k : N × D) : L := (V.valTab k.1 k.2).getD P.topElement

/-- Where a contribution is passed on to. -/
def targets (k : N × D) : List ((N × D) × (L → L)) :=
  (G.getCallsFromWithin (G.getFunctionOf k.1)).flatMap fun callSite =>
    (interJobs S k.2 callSite).flatMap fun job =>
      (G.getStartPointsOf job.callee).map fun sp => ((sp, job.factInCallee), P.computeTarget job.sourceEF)

/-- The state as `DeltaPropagation` sees it. -/
def toDelta (V : IterativeValueState N D L) : State (N × D) L := ⟨vals P V, V.wlProp⟩

/-- Put contributions on `WLProp`. -/
def push (V : IterativeValueState N D L) (jobs : List ((N × D) × L)) : IterativeValueState N D L :=
  { V with wlProp := V.wlProp ++ jobs }

/-- The entries are those of phase I, and contributions go to entries. -/
structure Entries (V : IterativeValueState N D L) : Prop where
  tab : ∀ n d, V.valTab n d ≠ none ↔ S.valTab n d = true
  jobs : ∀ job ∈ V.wlProp, S.valTab job.1.1 job.1.2 = true

variable {P G S} {config : StaticSolverConfig N} {absent : L} {V V' : IterativeValueState N D L}

theorem foldl_push {α : Type*} (f : α → List ((N × D) × L)) (l : List α) (V : IterativeValueState N D L) :
    l.foldl (fun V a => V.push (f a)) V = V.push (l.flatMap f) := by
  induction l generalizing V with
  | nil => simp [push]
  | cons a l ih =>
    rw [List.foldl_cons, ih]
    simp [push]

theorem emplace_eq (val : L) (V : IterativeValueState N D L) (job : InterPropagationJob N F D E) :
    emplace P G val V job = V.push ((G.getStartPointsOf job.callee).map fun sp =>
      ((sp, job.factInCallee), P.computeTarget job.sourceEF val)) := by
  rw [List.map_eq_flatMap, ← foldl_push]
  rfl

/-- The loops over calls, jobs, and start points as one. -/
theorem foldl_emplace (k : N × D) (val : L) (V : IterativeValueState N D L) :
    (G.getCallsFromWithin (G.getFunctionOf k.1)).foldl (fun V callSite =>
      (interJobs S k.2 callSite).foldl (emplace P G val) V) V =
      V.push ((targets P G S k).map fun t => (t.1, t.2 val)) := by
  have hjobs : ∀ (l : List (InterPropagationJob N F D E)) (V : IterativeValueState N D L),
      l.foldl (emplace P G val) V = V.push (l.flatMap fun job => (G.getStartPointsOf job.callee).map fun sp =>
        ((sp, job.factInCallee), P.computeTarget job.sourceEF val)) := fun l V => by
    rw [← foldl_push]
    exact congrArg (fun f => l.foldl f V) (funext fun V => funext fun job => emplace_eq val V job)
  simp only [hjobs, foldl_push, targets, List.map_flatMap, List.map_map]
  rfl

/-- An entry is read. -/
theorem get_eq {inst : N} {fact : D} (h : V.valTab inst fact ≠ none) :
    V.get absent inst fact = (vals P V (inst, fact), V) := by
  obtain ⟨v, hv⟩ := Option.ne_none_iff_exists'.1 h
  have htab : V.valTab.modify inst fact (fun val => some (val.getD absent)) = V.valTab := by
    funext n d
    by_cases hk : n = inst ∧ d = fact
    · obtain ⟨rfl, rfl⟩ := hk
      rw [Table.modify_self, hv]
      rfl
    · rw [Table.modify_of_ne _ _ hk]
  rw [get, htab, vals, hv]
  rfl

/-- An entry is written. -/
theorem vals_modify (V : IterativeValueState N D L) (inst : N) (fact : D) (val : L) :
    vals P { V with valTab := V.valTab.modify inst fact fun _ => some val } =
      Function.update (vals P V) (inst, fact) val := by
  funext ⟨n, d⟩
  by_cases hk : n = inst ∧ d = fact
  · obtain ⟨rfl, rfl⟩ := hk
    rw [Function.update_self]
    show (V.valTab.modify n d (fun _ => some val) n d).getD _ = _
    rw [Table.modify_self]
    rfl
  · rw [Function.update_of_ne fun h => hk (Prod.mk.inj h)]
    show (V.valTab.modify inst fact (fun _ => some val) n d).getD _ = _
    rw [Table.modify_of_ne _ _ hk]
    rfl

theorem tab_modify {inst : N} {fact : D} (val : L) (h : ∀ n d, V.valTab n d ≠ none ↔ S.valTab n d = true)
    (hentry : S.valTab inst fact = true) (n : N) (d : D) :
    (V.valTab.modify inst fact fun _ => some val) n d ≠ none ↔ S.valTab n d = true := by
  by_cases hk : n = inst ∧ d = fact
  · obtain ⟨rfl, rfl⟩ := hk
    rw [Table.modify_self]
    exact ⟨fun _ => hentry, fun _ => nofun⟩
  · rw [Table.modify_of_ne _ _ hk]
    exact h n d

section

variable (hgc : config.enableJumpFunctionGC = .disabled) (hS : ForValues (P.forIterative config) G S)

include hgc

theorem set_eq (V : IterativeValueState N D L) (inst : N) (fact : D) (val : L) :
    V.set P config G inst fact val = { V with valTab := V.valTab.modify inst fact fun _ => some val } := by
  rw [set, if_neg]
  rw [hgc]
  exact fun h => nomatch h.1

omit hgc in
include hS in
theorem entry_of_mem_targets {k : N × D} {t : (N × D) × (L → L)} (ht : t ∈ targets P G S k) :
    S.valTab t.1.1 t.1.2 = true := by
  simp only [targets, List.mem_flatMap, List.mem_map] at ht
  obtain ⟨c, -, job, hjob, sp, hsp, rfl⟩ := ht
  exact (hS.entry _ _).2 ⟨_, hS.start (List.mem_of_mem_filter hjob) sp hsp⟩

omit hgc in
/-- A contribution that changes nothing. -/
theorem propagateValue_of_eq (hV : Entries S V) {sp : N} {fact : D} (hentry : S.valTab sp fact = true)
    {val : L} (heq : P.join (vals P V (sp, fact)) val = vals P V (sp, fact)) :
    propagateValue P config G S absent V sp fact val = V := by
  rw [propagateValue, get_eq (P := P) ((hV.tab sp fact).2 hentry)]
  exact if_pos heq

/-- A contribution that changes the value. -/
theorem propagateValue_of_ne (hV : Entries S V) {sp : N} {fact : D} (hentry : S.valTab sp fact = true)
    {val : L} (hne : P.join (vals P V (sp, fact)) val ≠ vals P V (sp, fact)) :
    propagateValue P config G S absent V sp fact val =
      push { V with
        valTab := V.valTab.modify sp fact fun _ => some (P.join (vals P V (sp, fact)) val)
        wlComp := V.wlComp.insert sp } ((targets P G S (sp, fact)).map fun t => (t.1, t.2 val)) := by
  rw [propagateValue, get_eq (P := P) ((hV.tab sp fact).2 hentry)]
  dsimp only
  rw [if_neg hne, foldl_emplace (sp, fact) val, set_eq hgc]

include hS in
theorem Entries.propagateValue (hV : Entries S V) {sp : N} {fact : D} (hentry : S.valTab sp fact = true)
    (val : L) : Entries S (propagateValue P config G S absent V sp fact val) := by
  by_cases heq : P.join (vals P V (sp, fact)) val = vals P V (sp, fact)
  · rwa [propagateValue_of_eq hV hentry heq]
  · rw [propagateValue_of_ne hgc hV hentry heq]
    refine ⟨tab_modify _ hV.tab hentry, fun job hjob => ?_⟩
    rcases List.mem_append.1 hjob with hjob | hjob
    · exact hV.jobs job hjob
    · obtain ⟨t, ht, rfl⟩ := List.mem_map.1 hjob
      exact entry_of_mem_targets hS ht

/-! ### The loop over the jobs -/

variable (law : LawfulValues P)

/-- **A job propagates a contribution.** -/
theorem toDelta_propagateValue (hV : Entries S V) {sp : N} {fact : D} (hentry : S.valTab sp fact = true)
    (val : L) :
    let _ := law.semilattice
    toDelta P (propagateValue P config G S absent V sp fact val) =
      process (targets P G S) (toDelta P V) (sp, fact) val := by
  intro _
  by_cases heq : P.join (vals P V (sp, fact)) val = vals P V (sp, fact)
  · rw [propagateValue_of_eq hV hentry heq]
    exact (if_pos heq).symm
  · rw [propagateValue_of_ne hgc hV hentry heq]
    refine Eq.trans ?_ (if_neg heq).symm
    rw [toDelta, push, State.mk.injEq]
    exact ⟨vals_modify V sp fact _, rfl⟩

/-- The seeds as contributions. -/
def seedList (P : IDETabulationProblem N F D E L) : List ((N × D) × L) :=
  P.initialSeeds.entries.flatMap fun entry => entry.2.entries.map fun seed => ((entry.1, seed.1), seed.2)

omit hgc in
theorem submitInitialValues_eq : submitInitialValues P S = push (initial P S) (seedList P) := by
  have hinner : ∀ (entry : N × VecMap D L) (V : IterativeValueState N D L),
      entry.2.entries.foldl (fun V seed => { V with wlProp := V.wlProp ++ [((entry.1, seed.1), seed.2)] }) V =
        V.push (entry.2.entries.map fun seed => ((entry.1, seed.1), seed.2)) := fun entry V => by
    rw [List.map_eq_flatMap, ← foldl_push]
    rfl
  simp only [submitInitialValues, hinner, foldl_push, seedList]

omit hgc [DecidableEq N] [DecidableEq F] [DecidableEq D] [DecidableEq E] [DecidableEq L] in
theorem mem_seedList {n : N} {d : D} {l : L} : ((n, d), l) ∈ seedList P ↔
    ∃ facts, (n, facts) ∈ P.initialSeeds.entries ∧ (d, l) ∈ facts.entries := by
  simp only [seedList, List.mem_flatMap, List.mem_map, Prod.exists, Prod.mk.injEq]
  constructor
  · rintro ⟨n, facts, hf, d, l, hd, ⟨rfl, rfl⟩, rfl⟩
    exact ⟨facts, hf, hd⟩
  · rintro ⟨facts, hf, hd⟩
    exact ⟨n, facts, hf, d, l, hd, ⟨rfl, rfl⟩, rfl⟩

/-- Values change at start points, which `WLComp` records. -/
structure Recorded (P : IDETabulationProblem N F D E L) (G : ICFG N F) (S : IterativeIDESolver N F D E)
    (V : IterativeValueState N D L) : Prop where
  entries : Entries S V
  starts : ∀ job ∈ V.wlProp, G.isStartPoint job.1.1 = true
  comp : ∀ n, n ∈ V.wlComp ↔ ∃ d, vals P V (n, d) ≠ P.topElement
  comp_start : ∀ n ∈ V.wlComp, G.isStartPoint n = true

omit hgc in
theorem isStartPoint_of_mem_targets {k : N × D} {t : (N × D) × (L → L)} (ht : t ∈ targets P G S k) :
    G.isStartPoint t.1.1 = true := by
  simp only [targets, List.mem_flatMap, List.mem_map] at ht
  obtain ⟨c, -, job, -, sp, hsp, rfl⟩ := ht
  exact G.isStartPoint_of_mem hsp

omit hgc in
/-- A value that has changed is not top. -/
theorem join_ne_top (law : LawfulValues P) {v x : L} (hne : P.join v x ≠ v) : P.join v x ≠ P.topElement := by
  intro htop
  have hv : P.join v P.topElement = P.topElement := by rw [← htop, ← law.join_assoc, law.join_idem]
  rw [law.join_comm, law.top_join] at hv
  exact hne (htop.trans hv.symm)

include hS law in
theorem Recorded.propagateValue (h : Recorded P G S V) {sp : N} {fact : D} (hentry : S.valTab sp fact = true)
    (hsp : G.isStartPoint sp = true) (val : L) :
    Recorded P G S (propagateValue P config G S absent V sp fact val) := by
  have hentries : Entries S (IterativeValueState.propagateValue P config G S absent V sp fact val) :=
    h.entries.propagateValue hgc hS hentry val
  by_cases heq : P.join (vals P V (sp, fact)) val = vals P V (sp, fact)
  · rwa [propagateValue_of_eq h.entries hentry heq]
  · rw [propagateValue_of_ne hgc h.entries hentry heq] at hentries ⊢
    refine ⟨hentries, fun job hjob => ?_, fun n => ?_, fun n hn => ?_⟩
    · rcases List.mem_append.1 hjob with hjob | hjob
      · exact h.starts job hjob
      · obtain ⟨t, ht, rfl⟩ := List.mem_map.1 hjob
        exact isStartPoint_of_mem_targets ht
    · show n ∈ V.wlComp.insert sp ↔ ∃ d, vals P { V with
        valTab := V.valTab.modify sp fact fun _ => some (P.join (vals P V (sp, fact)) val) } (n, d) ≠ _
      rw [vals_modify, List.mem_insert_iff, h.comp]
      constructor
      · rintro (rfl | ⟨d, hd⟩)
        · exact ⟨fact, by rw [Function.update_self]; exact join_ne_top law heq⟩
        · by_cases hk : (n, d) = (sp, fact)
          · exact ⟨d, by rw [hk, Function.update_self]; exact join_ne_top law heq⟩
          · exact ⟨d, by rwa [Function.update_of_ne hk]⟩
      · rintro ⟨d, hd⟩
        by_cases hk : (n, d) = (sp, fact)
        · exact Or.inl (Prod.mk.inj hk).1
        · rw [Function.update_of_ne hk] at hd
          exact Or.inr ⟨d, hd⟩
    · rcases List.mem_insert_iff.1 hn with rfl | hn
      · exact hsp
      · exact h.comp_start n hn

/-- What holds in the loop over the jobs. -/
structure Inv (G : ICFG N F) (S : IterativeIDESolver N F D E) (law : LawfulValues P)
    (V : IterativeValueState N D L) : Prop extends Recorded P G S V where
  steps : let _ := law.semilattice
    Relation.ReflTransGen (DeltaPropagation.Step (targets P G S)) ⟨fun _ => P.topElement, seedList P⟩
      (toDelta P V)

variable (hseeds : ∀ n facts, (n, facts) ∈ P.initialSeeds.entries → G.isStartPoint n = true)

omit hgc in
include hseeds hS in
theorem inv_submitInitialValues : Inv G S law (submitInitialValues P S) := by
  have hvals : ∀ k, vals P (initial P S) k = P.topElement := by
    intro k
    rw [vals, initial]
    dsimp only
    split_ifs <;> rfl
  rw [submitInitialValues_eq]
  refine ⟨⟨⟨fun n d => ?_, ?_⟩, ?_, fun n => ?_, fun n hn => absurd hn List.not_mem_nil⟩, ?_⟩
  · show (if S.valTab n d then some P.topElement else none) ≠ none ↔ S.valTab n d = true
    split_ifs with h <;> simp [h]
  · rintro ⟨⟨n, d⟩, l⟩ hjob
    obtain ⟨facts, hf, hd⟩ := mem_seedList.1 ((List.mem_append.1 hjob).resolve_left List.not_mem_nil)
    exact (hS.entry n d).2 ⟨d, hS.seed ⟨facts, hf, List.mem_map.2 ⟨_, hd, rfl⟩⟩⟩
  · rintro ⟨⟨n, d⟩, l⟩ hjob
    obtain ⟨facts, hf, -⟩ := mem_seedList.1 ((List.mem_append.1 hjob).resolve_left List.not_mem_nil)
    exact hseeds n facts hf
  · exact ⟨fun hn => absurd hn List.not_mem_nil, fun ⟨d, hd⟩ => absurd (hvals (n, d)) hd⟩
  · intro _
    have heq : toDelta P (push (initial P S) (seedList P)) = ⟨fun _ => P.topElement, seedList P⟩ := by
      rw [toDelta, State.mk.injEq]
      exact ⟨funext hvals, List.nil_append _⟩
    rw [heq]

include hS in
theorem Inv.step (h : Inv G S law V) (hs : Step P config G S absent V V') :
    Inv G S law V' ∧
      let _ := law.semilattice
      DeltaPropagation.Step (targets P G S) (toDelta P V) (toDelta P V') := by
  obtain ⟨l, r, sp, fact, val, hjobs⟩ := hs
  have hmem : ((sp, fact), val) ∈ V.wlProp := by simp [hjobs]
  have hrest : ∀ job ∈ l ++ r, job ∈ V.wlProp := fun job hjob => by
    rw [hjobs, List.mem_append, List.mem_cons]
    exact (List.mem_append.1 hjob).imp_right Or.inr
  have hentry : S.valTab sp fact = true := h.entries.jobs _ hmem
  have h₀ : Recorded P G S { V with wlProp := l ++ r } :=
    ⟨⟨h.entries.tab, fun job hjob => h.entries.jobs job (hrest job hjob)⟩,
      fun job hjob => h.starts job (hrest job hjob), h.comp, h.comp_start⟩
  have hdelta : let _ := law.semilattice
      DeltaPropagation.Step (targets P G S) (toDelta P V)
        (toDelta P (propagateValue P config G S absent { V with wlProp := l ++ r } sp fact val)) := by
    intro _
    rw [toDelta_propagateValue hgc law h₀.entries hentry]
    exact .take l r (sp, fact) val hjobs
  exact ⟨⟨h₀.propagateValue hgc hS law hentry (h.starts _ hmem) val, h.steps.tail hdelta⟩, hdelta⟩

include hS hseeds in
theorem inv_of_reachable (hV : Reachable P config G S absent V) : Inv G S law V := by
  induction hV with
  | init => exact inv_submitInitialValues hS law hseeds
  | step _ hs ih => exact (ih.step hgc hS law hs).1

/-! ### The constraints at start points -/

/-- How edge functions act: `extend` composes them, `combine` joins their values. -/
structure ActsOnValues (P : IDETabulationProblem N F D E L) : Prop where
  extend : ∀ f g l, P.computeTarget (P.extend f g) l = P.computeTarget g (P.computeTarget f l)
  combine : ∀ f g l, P.computeTarget (P.combine f g) l = P.join (P.computeTarget f l) (P.computeTarget g l)
  distributes : ∀ f, DistributesOverJoin P f

/-- Values at start points that satisfy the constraints of the seeds and of the calls in functions that
start with a value that is not top. -/
structure StartSolution (P : IDETabulationProblem N F D E L) (G : ICFG N F) (S : IterativeIDESolver N F D E)
    (u : N × D → L) : Prop where
  seed : ∀ n facts d l, (n, facts) ∈ P.initialSeeds.entries → (d, l) ∈ facts.entries →
    P.join l (u (n, d)) = u (n, d)
  call : ∀ {sp d c d₂ f g d₃ sp'}, G.isStartPoint sp = true → G.getFunctionOf c = G.getFunctionOf sp →
    S.stored ⟨d, c, d₂⟩ = some f → Enters P.cachedFlows G c d₂ g d₃ → sp' ∈ G.getStartPointsOf g →
    u (sp, d) ≠ P.topElement →
    P.join (P.computeTarget (P.getCallEdgeFunction c d₂ g d₃) (P.computeTarget f (u (sp, d)))) (u (sp', d₃)) =
      u (sp', d₃)

variable (acts : ActsOnValues P)

omit hgc in
include hS in
/-- Solutions along the registered calls are solutions along the jump functions. -/
theorem startSolution_of_solution (acts : ActsOnValues P) {u : N × D → L}
    (hu : let _ := law.semilattice
      let _ := law.orderBot
      DeltaPropagation.Solution (targets P G S) (seedList P) u) : StartSolution P G S u := by
  let _ := law.semilattice
  let _ := law.orderBot
  constructor
  · exact fun n facts d l hf hd => hu.seed (n, d) l (mem_seedList.2 ⟨facts, hf, hd⟩)
  · intro sp d c d₂ f g d₃ sp' _ hfun hf hen hsp' hne
    have hjob := hS.registered hf hen
    have hmem : ((sp', d₃), P.computeTarget (P.extend f (P.getCallEdgeFunction c d₂ g d₃))) ∈
        targets P G S (sp, d) := by
      simp only [targets, List.mem_flatMap, List.mem_map]
      exact ⟨c, (G.mem_getCallsFromWithin _ _).2 ⟨hen.1, hfun⟩, _,
        List.mem_filter.2 ⟨hjob, decide_eq_true ⟨rfl, rfl⟩⟩, sp', hsp', rfl⟩
    have hedge : P.computeTarget (P.extend f (P.getCallEdgeFunction c d₂ g d₃)) (u (sp, d)) ≤ u (sp', d₃) :=
      hu.edge (sp, d) hne _ hmem
    rwa [acts.extend] at hedge

omit hgc in
include hS acts in
/-- A solution along the jump functions is one along the registered calls, where it is made top at all
other instructions. -/
theorem solution_of_startSolution
    (hseeds : ∀ n facts, (n, facts) ∈ P.initialSeeds.entries → G.isStartPoint n = true)
    {u : N × D → L} (hu : StartSolution P G S u) :
    let _ := law.semilattice
    let _ := law.orderBot
    DeltaPropagation.Solution (targets P G S) (seedList P) fun k =>
      if G.isStartPoint k.1 then u k else P.topElement := by
  intro _ _
  refine ⟨?_, fun k hk t ht => ?_⟩
  · rintro ⟨n, d⟩ l hl
    obtain ⟨facts, hf, hd⟩ := mem_seedList.1 hl
    rw [if_pos (hseeds n facts hf)]
    exact hu.seed n facts d l hf hd
  · have hsp : G.isStartPoint k.1 = true := by
      by_contra hsp
      rw [if_neg hsp] at hk
      exact hk rfl
    rw [if_pos hsp] at hk ⊢
    rw [if_pos (isStartPoint_of_mem_targets ht)]
    simp only [targets, List.mem_flatMap, List.mem_map] at ht
    obtain ⟨c, hc, job, hjob, sp', hsp', rfl⟩ := ht
    obtain ⟨hregistered, hkey⟩ := List.mem_filter.1 hjob
    obtain ⟨hfact, rfl⟩ := of_decide_eq_true hkey
    obtain ⟨d₂, f, f', hen, hEF, hf', hle⟩ := hS.job hregistered
    obtain ⟨-, hfun⟩ := (G.mem_getCallsFromWithin _ _).1 hc
    -- the job may be for an older jump function `f`
    have hcovered : P.join (P.computeTarget f (u k)) (P.computeTarget f' (u k)) = P.computeTarget f' (u k) := by
      rw [← acts.combine]
      exact congrArg (P.computeTarget · (u k)) hle
    show P.computeTarget job.sourceEF (u k) ≤ u (sp', job.factInCallee)
    rw [hEF]
    show P.computeTarget (P.extend f _) (u k) ≤ _
    rw [acts.extend]
    refine le_trans (monotone_of_distrib (acts.distributes _) hcovered) ?_
    exact hu.call hsp hfun (hfact ▸ hf') hen hsp' hk

/-! ### The final pass -/

/-- The contributions of the loop over `WLComp`. -/
def contributions (G : ICFG N F) (S : IterativeIDESolver N F D E) (order : List N) :
    List (ValueState.Contribution N D E) :=
  order.flatMap fun sp => (G.getAllInstructionsOf (G.getFunctionOf sp)).flatMap fun inst =>
    if inst = sp then []
    else (S.jumpFunctions inst).entries.map fun cell => ⟨inst, sp, cell.1.1, cell.1.2, cell.2⟩

omit hgc in
theorem mem_contributions {order : List N} {c : ValueState.Contribution N D E} :
    c ∈ contributions G S order ↔ c.sp ∈ order ∧ G.getFunctionOf c.n = G.getFunctionOf c.sp ∧ c.n ≠ c.sp ∧
      S.stored ⟨c.d', c.n, c.d⟩ = some c.e := by
  obtain ⟨n, sp, d', d, e⟩ := c
  simp only [contributions, List.mem_flatMap, G.mem_getAllInstructionsOf]
  constructor
  · rintro ⟨sp', hsp', inst, hinst, hc⟩
    split_ifs at hc with heq
    · cases hc
    · obtain ⟨cell, hcell, hc⟩ := List.mem_map.1 hc
      obtain ⟨rfl, rfl, rfl, rfl, rfl⟩ := ValueState.Contribution.mk.inj hc
      exact ⟨hsp', hinst, heq, (VecMap.mem_entries_iff _ _ _).1 hcell⟩
  · rintro ⟨hsp, hfun, hne, hst⟩
    refine ⟨sp, hsp, n, hfun, ?_⟩
    rw [if_neg hne]
    exact List.mem_map.2 ⟨((d', d), e), (VecMap.mem_entries_iff _ _ _).2 hst, rfl⟩

/-- The values of a state. -/
def toValues (V : IterativeValueState N D L) : ValueState N D L := ⟨V.valTab, []⟩

/-- The contributions go from entries to entries. -/
def BetweenEntries (S : IterativeIDESolver N F D E) (cs : List (ValueState.Contribution N D E)) : Prop :=
  ∀ c ∈ cs, S.valTab c.sp c.d' = true ∧ S.valTab c.n c.d = true

variable (absent) in
/-- One jump function. -/
theorem computeCell_eq (hV : Entries S V) (c : ValueState.Contribution N D E)
    (hsp : S.valTab c.sp c.d' = true) (hn : S.valTab c.n c.d = true) :
    computeCell P config G absent c.sp c.n V ((c.d', c.d), c.e) =
        { V with valTab := ((toValues V).contribute P c).valTab } ∧
      Entries S { V with valTab := ((toValues V).contribute P c).valTab } := by
  refine ⟨?_, tab_modify _ hV.tab hn, hV.jobs⟩
  rw [computeCell, get_eq (P := P) ((hV.tab _ _).2 hsp)]
  dsimp only
  rw [get_eq (P := P) ((hV.tab _ _).2 hn)]
  dsimp only
  split_ifs with hne
  · rw [set_eq hgc]
    rfl
  · -- the value is the one that is stored
    have hsame : P.join (vals P V (c.n, c.d)) (P.computeTarget c.e (vals P V (c.sp, c.d'))) =
        vals P V (c.n, c.d) := not_not.1 hne
    have htab : V.valTab.modify c.n c.d (fun _ => some (P.join (vals P V (c.n, c.d))
        (P.computeTarget c.e (vals P V (c.sp, c.d'))))) = V.valTab := by
      obtain ⟨v, hv⟩ := Option.ne_none_iff_exists'.1 ((hV.tab _ _).2 hn)
      funext n d
      by_cases hk : n = c.n ∧ d = c.d
      · obtain ⟨rfl, rfl⟩ := hk
        rw [Table.modify_self, hsame, vals, hv]
        rfl
      · rw [Table.modify_of_ne _ _ hk]
    exact congrArg (fun t => { V with valTab := t }) htab.symm

variable (absent) in
theorem foldl_computeCell_eq (cs : List (ValueState.Contribution N D E)) (hV : Entries S V)
    (hcs : BetweenEntries S cs) :
    cs.foldl (fun V c => computeCell P config G absent c.sp c.n V ((c.d', c.d), c.e)) V =
        { V with valTab := (cs.foldl (ValueState.contribute P) (toValues V)).valTab } ∧
      Entries S { V with valTab := (cs.foldl (ValueState.contribute P) (toValues V)).valTab } := by
  induction cs generalizing V with
  | nil => exact ⟨rfl, hV⟩
  | cons c cs ih =>
    obtain ⟨hsp, hn⟩ := hcs c List.mem_cons_self
    obtain ⟨hcell, hentries⟩ := computeCell_eq (P := P) (G := G) absent hgc hV c hsp hn
    rw [List.foldl_cons, hcell]
    exact ih hentries fun c' hc' => hcs c' (List.mem_cons_of_mem c hc')

variable (absent) in
/-- The final pass joins contributions. -/
theorem finish_eq (order : List N) (hV : Entries S V) (hcs : BetweenEntries S (contributions G S order)) :
    (V.finish P config G S absent order).valTab =
        ((contributions G S order).foldl (ValueState.contribute P) (toValues V)).valTab ∧
      Entries S (V.finish P config G S absent order) := by
  have hloop : order.foldl (computeValues P config G S absent) V = (contributions G S order).foldl
      (fun V c => computeCell P config G absent c.sp c.n V ((c.d', c.d), c.e)) V := by
    simp only [contributions, List.foldl_flatMap]
    congr 1
    funext V sp
    rw [computeValues]
    congr 1
    funext V inst
    by_cases heq : inst = sp
    · rw [if_pos heq, if_pos heq, List.foldl_nil]
    · rw [if_neg heq, if_neg heq, if_neg (by rw [hgc]; exact fun h => nomatch h.1), List.foldl_map]
  obtain ⟨hfold, hentries⟩ := foldl_computeCell_eq (P := P) (G := G) absent hgc _ hV hcs
  have htab : (V.finish P config G S absent order).valTab =
      ((contributions G S order).foldl (ValueState.contribute P) (toValues V)).valTab := by
    rw [finish, hloop, hfold]
  exact ⟨htab, fun n d => by rw [htab]; exact hentries.tab n d, fun job hjob => absurd hjob List.not_mem_nil⟩

/-- The values that jump functions carry to `(n, d)` from a start point with a value that is not top. -/
def reachedValues (P : IDETabulationProblem N F D E L) (G : ICFG N F) (S : IterativeIDESolver N F D E)
    (u : N × D → L) (n : N) (d : D) : Set L :=
  {l | ∃ sp d₀ d' e, G.isStartPoint sp = true ∧ G.getFunctionOf sp = G.getFunctionOf n ∧
    u (sp, d₀) ≠ P.topElement ∧ S.stored ⟨d', n, d⟩ = some e ∧ l = P.computeTarget e (u (sp, d'))}

variable (hone : ∀ sp sp', G.isStartPoint sp = true → G.isStartPoint sp' = true →
  G.getFunctionOf sp = G.getFunctionOf sp' → sp = sp')

omit hgc in
include hS hseeds hone in
theorem betweenEntries_contributions {order : List N} (horder : ∀ sp ∈ order, G.isStartPoint sp = true) :
    BetweenEntries S (contributions G S order) := by
  intro c hc
  obtain ⟨hsp, hfun, -, hst⟩ := mem_contributions.1 hc
  have hne : S.stored ⟨c.d', c.n, c.d⟩ ≠ none := by
    rw [hst]
    nofun
  refine ⟨(hS.entry _ _).2 ⟨c.d', ?_⟩, (hS.entry _ _).2 ⟨c.d', hne⟩⟩
  -- the jump function starts at the only start point of the function
  obtain ⟨sp', hfun', hstart, hsource⟩ := hS.source hne
  have hstart' : G.isStartPoint sp' = true := by
    rcases hstart with hstart | ⟨facts, hf, -⟩
    · exact hstart
    · exact hseeds sp' facts hf
  rwa [hone c.sp sp' (horder _ hsp) hstart' (hfun.symm.trans hfun'.symm)]

omit hgc in
include hone in
theorem isStartPoint_contributions {order : List N} (horder : ∀ sp ∈ order, G.isStartPoint sp = true)
    {c : ValueState.Contribution N D E} (hc : c ∈ contributions G S order) :
    G.isStartPoint c.n = false ∧ G.isStartPoint c.sp = true := by
  obtain ⟨hsp, hfun, hne, -⟩ := mem_contributions.1 hc
  refine ⟨Bool.eq_false_iff.2 fun hn => hne ?_, horder _ hsp⟩
  exact hone c.n c.sp hn (horder _ hsp) hfun

variable (absent) in
include hS law hseeds hone in
/-- The final pass keeps the values at start points, and joins at every other instruction what is carried
there. -/
theorem finish_spec (h : Recorded P G S V) {order : List N} (horder : order.Perm V.wlComp) :
    Entries S (V.finish P config G S absent order) ∧
    (∀ sp d, G.isStartPoint sp = true →
      vals P (V.finish P config G S absent order) (sp, d) = vals P V (sp, d)) ∧
    ∀ n d, G.isStartPoint n = false →
      IsJoinOf P (reachedValues P G S (vals P (V.finish P config G S absent order)) n d)
        (vals P (V.finish P config G S absent order) (n, d)) := by
  let _ := law.semilattice
  have hstart : ∀ sp ∈ order, G.isStartPoint sp = true := fun sp hsp => h.comp_start sp (horder.mem_iff.1 hsp)
  obtain ⟨htab, hentries⟩ := finish_eq (P := P) absent hgc order h.entries
    (betweenEntries_contributions hS hseeds hone hstart)
  obtain ⟨hother, -, hcov, hbound⟩ := ValueState.contribute_spec (G := G) law (contributions G S order)
    (fun c hc => isStartPoint_contributions hone hstart hc) (toValues V)
  have hvals : ∀ k, vals P (V.finish P config G S absent order) k =
      ValueState.vals P ((contributions G S order).foldl (ValueState.contribute P) (toValues V)) k := by
    intro k
    rw [vals, htab]
    rfl
  have hkeep : ∀ sp d, G.isStartPoint sp = true →
      vals P (V.finish P config G S absent order) (sp, d) = vals P V (sp, d) := by
    intro sp d hsp
    rw [hvals]
    refine hother (sp, d) fun c hc heq => ?_
    obtain rfl : c.n = sp := heq
    rw [(isStartPoint_contributions hone hstart hc).1] at hsp
    cases hsp
  refine ⟨hentries, hkeep, fun n d hn => ⟨?_, fun u hu => ?_⟩⟩
  · rintro l ⟨sp, d₀, d', e, hsp, hfun, hne, hst, rfl⟩
    have hc : (⟨n, sp, d', d, e⟩ : ValueState.Contribution N D E) ∈ contributions G S order := by
      refine mem_contributions.2 ⟨horder.mem_iff.2 ((h.comp sp).2 ⟨d₀, ?_⟩), hfun.symm, ?_, hst⟩
      · rwa [← hkeep sp d₀ hsp]
      · intro heq
        obtain rfl : n = sp := heq
        rw [hsp] at hn
        cases hn
    rw [hkeep sp d' hsp, hvals (n, d)]
    exact hcov _ hc
  · rw [hvals]
    refine hbound (n, d) u ?_ fun c hc heq => ?_
    · -- before the final pass the value is top
      have htop : vals P V (n, d) = P.topElement := by
        by_contra hne
        rw [h.comp_start n ((h.comp n).2 ⟨d, hne⟩)] at hn
        cases hn
      show P.join (vals P V (n, d)) u = u
      rw [htop, law.top_join]
    · obtain ⟨hsp, hfun, -, hst⟩ := mem_contributions.1 hc
      obtain ⟨rfl, rfl⟩ := Prod.mk.inj heq
      obtain ⟨d₀, hd₀⟩ := (h.comp c.sp).1 (horder.mem_iff.1 hsp)
      refine hu _ ⟨c.sp, d₀, c.d', c.e, hstart _ hsp, hfun.symm, ?_, hst, ?_⟩
      · rwa [hkeep c.sp d₀ (hstart _ hsp)]
      · rw [hkeep c.sp c.d' (hstart _ hsp)]
        rfl

/-! ### The result -/

omit hgc in
/-- Termination of the loop over the jobs. -/
theorem exists_loop_empty
    (hwf : WellFounded fun V' V : IterativeValueState N D L =>
      Reachable P config G S absent V ∧ Step P config G S absent V V')
    {V : IterativeValueState N D L} (hV : Reachable P config G S absent V) :
    ∃ fuel, (loop P config G S absent fuel V).wlProp = [] := by
  induction V using hwf.induction with
  | _ V ih =>
    cases hl : V.wlProp.getLast? with
    | none => exact ⟨0, List.getLast?_eq_none_iff.1 hl⟩
    | some job =>
      obtain ⟨ys, hys⟩ := List.getLast?_eq_some_iff.1 hl
      have hs : Step P config G S absent V (propagateValue P config G S absent
          { V with wlProp := V.wlProp.dropLast } job.1.1 job.1.2 job.2) := by
        simpa [hys] using Step.take ys [] job.1.1 job.1.2 job.2 hys
      obtain ⟨fuel, hfuel⟩ := ih _ ⟨hV, hs⟩ (hV.step hs)
      exact ⟨fuel + 1, by simpa [loop, hl] using hfuel⟩

variable (absent) in
include hS law hseeds in
theorem wellFounded_step [Finite N] [Finite D]
    (hheight : WellFounded fun a b : L => P.join b a = a ∧ a ≠ b) :
    WellFounded fun V' V : IterativeValueState N D L =>
      Reachable P config G S absent V ∧ Step P config G S absent V V' := by
  let _ := law.semilattice
  let _ := law.orderBot
  have hgt : WellFoundedGT L := ⟨Subrelation.wf (fun h => ⟨h.le, h.ne'⟩) hheight⟩
  refine Subrelation.wf ?_ (InvImage.wf (toDelta P) (DeltaPropagation.wellFounded_step (targets P G S)))
  rintro V' V ⟨hV, hs⟩
  exact ((inv_of_reachable hgc hS law hseeds hV).step hgc hS law hs).2

/-- What phase II computes: entries are those of phase I, the values at start points are the least that
satisfy the constraints, and every other instruction has the join of the values that jump functions carry
to it. -/
structure Computed (P : IDETabulationProblem N F D E L) (G : ICFG N F) (S : IterativeIDESolver N F D E)
    (V : IterativeValueState N D L) : Prop where
  entries : ∀ n d, V.valTab n d ≠ none ↔ S.valTab n d = true
  start : StartSolution P G S (vals P V)
  least : ∀ u, StartSolution P G S u → ∀ sp d, G.isStartPoint sp = true →
    P.join (vals P V (sp, d)) (u (sp, d)) = u (sp, d)
  others : ∀ n d, G.isStartPoint n = false →
    IsJoinOf P (reachedValues P G S (vals P V) n d) (vals P V (n, d))

include hS law hseeds hone acts hgc in
theorem computed_of_reachable (hV : Reachable P config G S absent V) (hempty : V.wlProp = []) {order : List N}
    (horder : order.Perm V.wlComp) : Computed P G S (V.finish P config G S absent order) := by
  have hinv := inv_of_reachable hgc hS law hseeds hV
  obtain ⟨hentries, hkeep, hjoin⟩ := finish_spec absent hgc hS law hseeds hone hinv.toRecorded horder
  let _ := law.semilattice
  let _ := law.orderBot
  obtain ⟨hsol, hleast⟩ := DeltaPropagation.solution_of_steps
    (fun k t ht x y => by
      simp only [targets, List.mem_flatMap, List.mem_map] at ht
      obtain ⟨-, -, job, -, -, -, rfl⟩ := ht
      exact acts.distributes job.sourceEF x y) hinv.steps hempty
  have hstart := startSolution_of_solution hS law acts hsol
  refine ⟨hentries.tab, ⟨fun n facts d l hf hd => ?_, ?_⟩, fun u hu sp d hsp => ?_, hjoin⟩
  · rw [hkeep n d (hseeds n facts hf)]
    exact hstart.seed n facts d l hf hd
  · intro sp d c d₂ f g d₃ sp' hsp hfun hf hen hsp' hne
    rw [hkeep sp d hsp] at hne ⊢
    rw [hkeep sp' d₃ (G.isStartPoint_of_mem hsp')]
    exact hstart.call hsp hfun hf hen hsp' hne
  · rw [hkeep sp d hsp]
    have hle := hleast _ (solution_of_startSolution hS law acts hseeds hu) (sp, d)
    rwa [if_pos hsp] at hle

omit hgc in
theorem forValues_of_lawful (lawE : LawfulEdgeFunctions P.toEdgeFunctions)
    (hgc : config.enableJumpFunctionGC = .disabled) (hid : P.isAllTop P.identity = false)
    (hS : IterativeIDESolver.Finished (P.forIterative config) G S) :
    ForValues (P.forIterative config) G S :=
  let _ := lawE.semilattice
  IterativeIDESolver.forValues_of_finished ⟨lawE, fun _ _ => rfl, Or.inl hgc⟩ hgc hid hS

end

/-- The call problem, with the zero value seeded. -/
def zeroProblem : IDETabulationProblem ValueState.CallNode ValueState.CallFun Bool BasicEdgeFunction Bool :=
  { ValueState.callProblem with
    initialSeeds := VecMap.empty.set .entry (VecMap.empty.set false false) }

def zeroConfig : StaticSolverConfig ValueState.CallNode := ⟨true, true, false, .disabled, fun _ => false⟩

/-- Phase I on the call problem. -/
def zeroRun : Option (IterativeIDESolver ValueState.CallNode ValueState.CallFun Bool BasicEdgeFunction) :=
  IterativeIDESolver.run (zeroProblem.forIterative zeroConfig) ValueState.callProgram 40
    (IterativeIDESolver.init (zeroProblem.forIterative zeroConfig) ValueState.callProgram)

theorem actsOnValues_zeroProblem : ActsOnValues zeroProblem where
  extend f g l := by cases f <;> cases g <;> rfl
  combine f g l := by cases f <;> cases g <;> cases l <;> rfl
  distributes f a b := by cases f <;> rfl

theorem lawfulValues_zeroProblem : LawfulValues zeroProblem :=
  ⟨Bool.and_assoc, Bool.and_comm, Bool.and_self, Bool.true_and⟩

theorem zeroProblem_seeds : ∀ n facts, (n, facts) ∈ zeroProblem.initialSeeds.entries →
    ValueState.callProgram.isStartPoint n = true := by
  intro n facts h
  obtain rfl : n = .entry := (Prod.mk.inj (List.mem_singleton.1 h)).1
  rfl

theorem callProgram_start_unique : ∀ sp sp', ValueState.callProgram.isStartPoint sp = true →
    ValueState.callProgram.isStartPoint sp' = true →
    ValueState.callProgram.getFunctionOf sp = ValueState.callProgram.getFunctionOf sp' → sp = sp' := by
  decide

end IterativeValueState

end Phasar
