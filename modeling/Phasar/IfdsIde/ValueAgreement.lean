import Phasar.IfdsIde.IterativePhaseTwo

/-!
# The iterative solver computes the values of the IDE solver

`IDESolver` and `IterativeIDESolver` store the same jump functions. In phase II the one propagates values
from start points to call sites and on to callees, the other from start points to start points, by the edge
functions of the registered calls; only the former propagates a seed that is top, and only the latter
propagates through a call site whose value is top. Where every fact that is reached has a value that is not
top, both compute the same values.

* `Comparable`: the problems and programs the solvers are compared on;
* `stored_eq`: the jump functions are the same;
* `Comparable.ne_top_of_stored`: a reached fact has a value that is not top;
* `startSolution_of_solution`, `solution_of_computed`: what one solver computes solves the equations of the
  other;
* `values_agree`: the values are the same, for every order in which either solver works.
-/

set_option linter.unusedSectionVars false

namespace Phasar

open Deduction

variable {N F D E L : Type*} [DecidableEq N] [DecidableEq F] [DecidableEq D] [DecidableEq E] [DecidableEq L]

/-- The problems and programs on which the solvers are compared: edge functions and values are lawful, and
an edge function that is not all-top keeps values from becoming top; there are no special summaries and no
unbalanced returns; the zero value is seeded, all seeds are at start points and are not top; a function has
one start point, which no instruction precedes. -/
structure Comparable (P : IDETabulationProblem N F D E L) (G : ICFG N F) : Prop where
  edgeFunctions : LawfulEdgeFunctions P.toEdgeFunctions
  values : LawfulValues P
  acts : IterativeValueState.ActsOnValues P
  identity : ∀ l, P.computeTarget P.identity l = l
  identity_kept : P.isAllTop P.identity = false
  call_kept : ∀ c d₂ g d₃, P.isAllTop (P.getCallEdgeFunction c d₂ g d₃) = false
  keeps : ∀ {e l}, P.isAllTop e = false → l ≠ P.topElement → P.computeTarget e l ≠ P.topElement
  balanced : P.solverConfig.followReturnsPastSeeds = false
  noSummary : ∀ c g, P.getSummaryFlowFunction c g = none
  zero : ∀ {n facts}, (n, facts) ∈ P.initialSeeds.entries → P.getZeroValue ∈ facts.keys
  seed_start : ∀ n facts, (n, facts) ∈ P.initialSeeds.entries → G.isStartPoint n = true
  seed_value : ∀ {n facts d l}, (n, facts) ∈ P.initialSeeds.entries → (d, l) ∈ facts.entries →
    l ≠ P.topElement
  start_unique : ∀ sp sp', G.isStartPoint sp = true → G.isStartPoint sp' = true →
    G.getFunctionOf sp = G.getFunctionOf sp' → sp = sp'
  start_entry : ∀ {n m}, m ∈ G.getSuccsOf n → G.isStartPoint m = false

theorem IsJoinOf.isLUB {P : IDETabulationProblem N F D E L} (law : LawfulValues P) {A : Set L} {l : L}
    (h : IsJoinOf P A l) :
    let _ := law.semilattice
    IsLUB A l :=
  ⟨fun a ha => h.1 a ha, fun u hu => h.2 u fun _ ha => hu ha⟩

/-- A function that distributes over joins is bounded at the join of finitely many values, if it is so at
each of them. -/
theorem le_of_isLUB_of_finite {α β : Type*} [SemilatticeSup α] [SemilatticeSup β] {f : α → β}
    (hf : ∀ a b, f (a ⊔ b) = f a ⊔ f b) {A : Set α} {x : α} (hx : IsLUB A x) (hfin : A.Finite)
    (hne : A.Nonempty) {y : β} (hy : ∀ a ∈ A, f a ≤ y) : f x ≤ y := by
  lift A to Finset α using hfin
  have hne' : A.Nonempty := hne
  obtain rfl : x = A.sup' hne' id := hx.unique (Finset.isLUB_sup' hne')
  rw [Finset.apply_sup'_eq_sup'_comp hne' f hf]
  exact Finset.sup'_le hne' _ hy

namespace Comparable

variable {P : IDETabulationProblem N F D E L} {G : ICFG N F} (h : Comparable P G)

include h

/-- The zero value need not be added to the seeds. -/
theorem seeds_eq : P.seeds = P.initialSeeds := by
  have hadd : ∀ entry ∈ P.initialSeeds.entries, P.seedZeroAt entry.2 = entry.2 := by
    rintro ⟨n, facts⟩ hf
    obtain ⟨l, hl⟩ := Option.ne_none_iff_exists'.1 ((VecMap.mem_keys_iff _ _).1 (h.zero hf))
    rw [IDETabulationProblem.seedZeroAt, hl]
  have hmap : P.initialSeeds.entries.map (fun e => (e.1, P.seedZeroAt e.2)) = P.initialSeeds.entries := by
    calc
      _ = P.initialSeeds.entries.map id := List.map_congr_left fun e he => by rw [hadd e he, id]
      _ = P.initialSeeds.entries := List.map_id _
  unfold IDETabulationProblem.seeds
  generalize_proofs hnodup
  revert hnodup
  rw [hmap]
  exact fun _ => rfl

/-! ### Jump functions -/

variable (config : StaticSolverConfig N)

/-- The solvers apply the same rules. -/
theorem deriv_iff (htab : config.useEndSummaryTab = false) (k : PathEdge N D) (w : E) :
    Deriv (IterativeIDESolver.rules (P.forIterative config) G)
        (IterativeIDESolver.dropped (P.forIterative config)) k w ↔
      Deriv (IDESolver.rules P G) (IDESolver.dropped P) k w := by
  have hseed : ∀ n d, (P.forIterative config).IsSeed n d ↔ P.IsSeed n d := fun n d => by
    rw [IDETabulationProblem.IsSeed, h.seeds_eq]
    rfl
  have hflow : ∀ {x x' : E → Option E → E} {k k' : PathEdge N D} {f : E → E},
      FlowEdge P.cachedFlows P.toEdgeFunctions x G k k' f →
      FlowEdge P.cachedFlows P.toEdgeFunctions x' G k k' f := by
    intro x x' k k' f hf
    cases hf with
    | normal hc hm hd => exact .normal hc hm hd
    | callToRet hc hr hd => exact .callToRet hc hr hd
    | summary _ _ hs => simp [IDETabulationProblem.cachedFlows, h.noSummary] at hs
    | callStart hc hg hs hsp hd => exact .callStart hc hg hs hsp hd
  have hexits : ∀ e e', IterativeIDESolver.mixedExits (P.forIterative config) e e' ↔ e = e' := fun e e' =>
    or_iff_right fun ht => by rw [show config.useEndSummaryTab = true from ht] at htab; cases htab
  have hle : (IterativeIDESolver.rules (P.forIterative config) G).Le (IDESolver.rules P G) := by
    refine ⟨fun hax => ⟨(hseed _ _).1 hax.1, hax.2⟩, hflow, ?_⟩
    rintro _ _ _ _ ⟨hen, he, he', hx, hr, hd⟩
    exact .mk hen he he' ((hexits _ _).1 hx) hr hd
  have hge : (IDESolver.rules P G).Le (IterativeIDESolver.rules (P.forIterative config) G) := by
    refine ⟨fun hax => ⟨(hseed _ _).2 hax.1, hax.2⟩, hflow, ?_⟩
    rintro _ _ _ _ ⟨hen, he, he', hx, hr, hd⟩
    exact .mk hen he he' ((hexits _ _).2 hx) hr hd
  exact ⟨Deriv.mono hle, Deriv.mono hge⟩

variable {config} (htab : config.useEndSummaryTab = false) (hgc : config.enableJumpFunctionGC = .disabled)
  {S : IterativeIDESolver N F D E} (hS : IterativeIDESolver.Finished (P.forIterative config) G S)
  {S' : IDESolver N D E} (hS' : IDESolver.Reachable P G S') (hW : S'.workList = [])

include htab hgc hS hS' hW in
/-- **The solvers store the same jump functions.** -/
theorem stored_eq (k : PathEdge N D) : S.stored k = S'.jumpFn.stored k := by
  let _ := h.edgeFunctions.semilattice
  have hP : IterativeIDESolver.Setting (P.forIterative config) :=
    ⟨h.edgeFunctions, fun _ _ => rfl, Or.inl hgc⟩
  have hdist := IDESolver.summariesDistribute_of_none h.noSummary
  obtain ⟨H, hsat⟩ := IterativeIDESolver.saturated_of_finished hP hS
  obtain ⟨hclosed, hsound⟩ := IDESolver.exact_of_empty h.edgeFunctions h.balanced hdist hS' hW
  rw [hsat.kept k (Or.inl hgc)]
  exact eq_of_deriv_iff hP.dropped_le hP.distributive hsat.closed hsat.sound
    (distributive_tabulationRules h.edgeFunctions hdist) hclosed hsound (h.deriv_iff config htab k)

include hS' in
theorem synced : S'.jumpFn.Synced P.isAllTop :=
  (IDESolver.pending_of_reachable h.edgeFunctions h.balanced
    (IDESolver.summariesDistribute_of_none h.noSummary) hS').1.synced

omit h in
/-- No path edge but a self-loop with the identity leads to a start point. -/
theorem deriv_start (h : Comparable P G) {k : PathEdge N D} {w : E}
    (hd : Deriv (IDESolver.rules P G) (IDESolver.dropped P) k w) (hsp : G.isStartPoint k.target = true) :
    k.dTarget = k.dSource ∧ w = P.identity := by
  have hreturn : ∀ {c r}, r ∈ G.getReturnSitesOfCallAt c → G.isStartPoint r = false := fun hr =>
    h.start_entry (G.returnSite_succ _ _ hr)
  cases hd with
  | ax hax => exact ⟨hax.2.1, hax.2.2⟩
  | un hu =>
    cases hu with
    | normal _ hm => rw [h.start_entry hm] at hsp; cases hsp
    | callToRet _ hr => rw [hreturn hr] at hsp; cases hsp
    | summary _ _ _ hr => rw [hreturn hr] at hsp; cases hsp
    | callStart => exact ⟨rfl, rfl⟩
  | bin hb =>
    obtain ⟨-, -, -, -, hr, -⟩ := hb
    rw [hreturn hr] at hsp
    cases hsp

include hS' hW in
theorem stored_start {k : PathEdge N D} {e : E} (hst : S'.jumpFn.stored k = some e)
    (hsp : G.isStartPoint k.target = true) : k.dTarget = k.dSource ∧ e = P.identity := by
  let _ := h.edgeFunctions.semilattice
  obtain ⟨-, hsound⟩ := IDESolver.exact_of_empty h.edgeFunctions h.balanced
    (IDESolver.summariesDistribute_of_none h.noSummary) hS' hW
  have hreached := hsound k e hst
  obtain ⟨w, hw⟩ := exists_deriv_of_reached hreached
  refine ⟨(h.deriv_start hw hsp).1, ?_⟩
  refine reached_induction (p := (· = P.identity)) (fun w hw => (h.deriv_start hw hsp).2) ?_ hreached
  rintro _ _ rfl rfl
  exact sup_idem _

/-! ### Values that are not top -/

open IterativeValueState (StartSolution Computed reachedValues vals)

include htab hgc hS hS' hW

/-- A path edge comes from a start point of its function. -/
theorem exists_start {k : PathEdge N D} (hst : S'.jumpFn.stored k ≠ none) :
    ∃ sp, G.isStartPoint sp = true ∧ G.getFunctionOf sp = G.getFunctionOf k.target := by
  have hfor := IterativeValueState.forValues_of_lawful h.edgeFunctions hgc h.identity_kept hS
  rw [← h.stored_eq htab hgc hS hS' hW] at hst
  obtain ⟨sp, hfun, hsp | ⟨facts, hf, -⟩, -⟩ := hfor.source hst
  · exact ⟨sp, hsp, hfun⟩
  · exact ⟨sp, h.seed_start sp facts hf, hfun⟩

theorem ne_top_of_deriv {u : N × D → L} (hu : StartSolution P G S u) {k : PathEdge N D} {w : E}
    (hd : Deriv (IDESolver.rules P G) (IDESolver.dropped P) k w) {sp : N} (hsp : G.isStartPoint sp = true)
    (hfun : G.getFunctionOf sp = G.getFunctionOf k.target) : u (sp, k.dSource) ≠ P.topElement := by
  induction hd generalizing sp with
  | @ax k e hax =>
    obtain ⟨⟨facts, hf, hkey⟩, -, -⟩ := hax
    rw [h.seeds_eq] at hf
    obtain ⟨⟨d, l⟩, hd, rfl⟩ := List.mem_map.1 hkey
    obtain rfl := h.start_unique sp k.target hsp (h.seed_start _ _ hf) hfun
    exact h.values.ne_top_of_le (h.seed_value hf hd) (hu.seed _ facts _ l hf hd)
  | @un k k' f e hu' hd hz ih =>
    cases hu' with
    | normal _ hm _ => exact ih hsp (hfun.trans (G.getFunctionOf_succ _ _ hm))
    | callToRet _ hr _ => exact ih hsp (hfun.trans (G.getFunctionOf_returnSite hr))
    | summary _ _ _ hr _ => exact ih hsp (hfun.trans (G.getFunctionOf_returnSite hr))
    | @callStart d₁ c d₂ g sp' d₃ hc hg hs hsp' hd' =>
      let _ := h.edgeFunctions.semilattice
      have hdist := IDESolver.summariesDistribute_of_none h.noSummary
      obtain ⟨hclosed, -⟩ := IDESolver.exact_of_empty h.edgeFunctions h.balanced hdist hS' hW
      obtain ⟨f, hf, -⟩ := hclosed.covers (fun x hx y => h.edgeFunctions.allTop_le hx y)
        (distributive_tabulationRules h.edgeFunctions hdist) hd
      obtain ⟨sp₀, hsp₀, hfun₀⟩ := h.exists_start htab hgc hS hS' hW (by rw [hf]; exact Option.some_ne_none f)
      obtain rfl := h.start_unique sp sp' hsp (G.isStartPoint_of_mem hsp') hfun
      have hst : S.stored ⟨d₁, c, d₂⟩ = some f := by rw [h.stored_eq htab hgc hS hS' hW, hf]
      have hne : u (sp₀, d₁) ≠ P.topElement := ih hsp₀ hfun₀
      refine h.values.ne_top_of_le (h.keeps (h.call_kept c d₂ g d₃) (h.keeps ?_ hne))
        (hu.call hsp₀ hfun₀.symm hst ⟨hc, hg, hs, ⟨sp, hsp'⟩, hd'⟩ hsp' hne)
      exact (h.synced hS').not_allTop hf
  | bin hb hd₁ hd₂ hz ih₁ ih₂ =>
    obtain ⟨-, -, -, -, hr, -⟩ := hb
    exact ih₁ hsp (hfun.trans (G.getFunctionOf_returnSite hr))

/-- **A fact that is reached has a value that is not top.** -/
theorem ne_top_of_stored {u : N × D → L} (hu : StartSolution P G S u) {k : PathEdge N D}
    (hst : S'.jumpFn.stored k ≠ none) {sp : N} (hsp : G.isStartPoint sp = true)
    (hfun : G.getFunctionOf sp = G.getFunctionOf k.target) : u (sp, k.dSource) ≠ P.topElement := by
  let _ := h.edgeFunctions.semilattice
  obtain ⟨-, hsound⟩ := IDESolver.exact_of_empty h.edgeFunctions h.balanced
    (IDESolver.summariesDistribute_of_none h.noSummary) hS' hW
  obtain ⟨e, he⟩ := Option.ne_none_iff_exists'.1 hst
  obtain ⟨w, hw⟩ := exists_deriv_of_reached (hsound k e he)
  exact h.ne_top_of_deriv htab hgc hS hS' hW hu hw hsp hfun

/-! ### Each solver solves the equations of the other -/

open ValueState (Solution Propagated ValueEdge SeedValue)

/-- **The values of the IDE solver are a solution for the iterative solver.** -/
theorem startSolution_of_solution {w : N × D → L}
    (hw : Solution P G ⟨S'.jumpFn, []⟩ (Propagated P ⟨S'.jumpFn, []⟩) w) : StartSolution P G S w := by
  let _ := h.values.semilattice
  constructor
  · intro n facts d l hf hd
    rw [← h.seeds_eq] at hf
    exact hw.seed (n, d) l ⟨facts, hf, hd⟩
  · intro sp d c d₂ f g d₃ sp' hsp hfun hf hen hsp' hne
    obtain ⟨hc, hg, -, -, hd₃⟩ := hen
    rw [h.stored_eq htab hgc hS hS' hW] at hf
    have hcall : P.computeTarget f (w (sp, d)) ≤ w (c, d₂) :=
      hw.edge (sp, d) (c, d₂) f (.toCall hsp hc hfun hf) (Or.inr hne)
    have hne' : w (c, d₂) ≠ P.topElement :=
      h.values.ne_top_of_le (h.keeps ((h.synced hS').not_allTop hf) hne) hcall
    have hstart : P.computeTarget (P.getCallEdgeFunction c d₂ g d₃) (w (c, d₂)) ≤ w (sp', d₃) :=
      hw.edge (c, d₂) (sp', d₃) _ (.toStart hc hg hsp' hd₃) (Or.inr hne')
    exact (monotone_of_distrib (h.acts.distributes _) hcall).trans hstart

/-- The values carried to an instruction are finitely many. -/
theorem finite_reachedValues (u : N × D → L) (n : N) (d : D) : (reachedValues P G S u n d).Finite := by
  refine Set.Finite.subset (List.finite_toSet ((G.getStartPointsOf (G.getFunctionOf n)).flatMap fun sp =>
    (S.jumpFunctions n).entries.map fun cell => P.computeTarget cell.2 (u (sp, cell.1.1)))) ?_
  rintro l ⟨sp, -, d', e, hsp, hfun, -, hst, rfl⟩
  simp only [Set.mem_ofPred_eq, List.mem_flatMap, List.mem_map]
  exact ⟨sp, (G.mem_getStartPointsOf _ _).2 ⟨hsp, hfun⟩, ((d', d), e),
    (VecMap.mem_entries_iff _ _ _).2 hst, rfl⟩

variable {V : IterativeValueState N D L} (hV : Computed P G S V)

include hV in
/-- A fact at a call site enters a callee with its value there. -/
theorem call_le_of_computed {c : N} {d₂ : D} {g : F} {sp' : N} {d₃ : D} (hc : G.isCallSite c = true)
    (hg : g ∈ G.getCalleesOfCallAt c) (hsp' : sp' ∈ G.getStartPointsOf g)
    (hd₃ : d₃ ∈ P.cachedFlows.getCallFlowFunction c g d₂)
    (hactive : (∃ l, SeedValue P ⟨S'.jumpFn, []⟩ (c, d₂) l) ∨ vals P V (c, d₂) ≠ P.topElement) :
    P.join (P.computeTarget (P.getCallEdgeFunction c d₂ g d₃) (vals P V (c, d₂))) (vals P V (sp', d₃)) =
      vals P V (sp', d₃) := by
  let _ := h.values.semilattice
  have hen : Enters P.cachedFlows G c d₂ g d₃ :=
    ⟨hc, hg, by simp [IDETabulationProblem.cachedFlows, h.noSummary], ⟨sp', hsp'⟩, hd₃⟩
  have hfor := IterativeValueState.forValues_of_lawful h.edgeFunctions hgc h.identity_kept hS
  have hcall : ∀ {sp d f}, G.isStartPoint sp = true → G.getFunctionOf sp = G.getFunctionOf c →
      S.stored ⟨d, c, d₂⟩ = some f → P.computeTarget (P.getCallEdgeFunction c d₂ g d₃)
        (P.computeTarget f (vals P V (sp, d))) ≤ vals P V (sp', d₃) := by
    intro sp d f hsp hfun hf
    refine hV.start.call hsp hfun.symm hf hen hsp' ?_
    refine h.ne_top_of_stored htab hgc hS hS' hW hV.start (k := ⟨d, c, d₂⟩) ?_ hsp hfun
    rw [← h.stored_eq htab hgc hS hS' hW, hf]
    exact Option.some_ne_none f
  have hstored : ∃ d, S.stored ⟨d, c, d₂⟩ ≠ none := by
    rcases hactive with ⟨l, facts, hf, hd⟩ | hne
    · rw [show ValueState.allSeeds P ⟨S'.jumpFn, []⟩ = P.initialSeeds from h.seeds_eq] at hf
      exact ⟨d₂, hfor.seed ⟨facts, hf, List.mem_map.2 ⟨_, hd, rfl⟩⟩⟩
    · refine (hfor.entry c d₂).1 ((hV.entries c d₂).1 fun hnone => hne ?_)
      rw [vals, hnone]
      rfl
  obtain ⟨d, hd⟩ := hstored
  obtain ⟨f, hf⟩ := Option.ne_none_iff_exists'.1 hd
  cases hstart : G.isStartPoint c with
  | true =>
    have hf' := h.stored_eq htab hgc hS hS' hW ⟨d, c, d₂⟩ ▸ hf
    obtain ⟨heq, rfl⟩ := h.stored_start hS' hW hf' hstart
    obtain rfl : d₂ = d := heq
    have hle := hcall hstart rfl hf
    rwa [h.identity] at hle
  | false =>
    have hjoin := IsJoinOf.isLUB h.values (hV.others c d₂ hstart)
    obtain ⟨sp, hsp, hfun⟩ := h.exists_start htab hgc hS hS' hW (k := ⟨d, c, d₂⟩)
      (by rw [← h.stored_eq htab hgc hS hS' hW]; exact hd)
    refine le_of_isLUB_of_finite (h.acts.distributes _) hjoin
      (h.finite_reachedValues htab hgc hS hS' hW (vals P V) c d₂) ⟨_, sp, d, d, f, hsp, hfun, ?_, hf, rfl⟩ ?_
    · exact h.ne_top_of_stored htab hgc hS hS' hW hV.start (k := ⟨d, c, d₂⟩)
        (by rw [← h.stored_eq htab hgc hS hS' hW]; exact hd) hsp hfun
    · rintro a ⟨sp, d₀, d, f, hsp, hfun, -, hf, rfl⟩
      exact hcall hsp hfun hf

include hV in
/-- **The values of the iterative solver are a solution for the IDE solver.** -/
theorem solution_of_computed :
    Solution P G ⟨S'.jumpFn, []⟩ (Propagated P ⟨S'.jumpFn, []⟩) (vals P V) := by
  let _ := h.values.semilattice
  constructor
  · rintro ⟨n, d⟩ l ⟨facts, hf, hd⟩
    rw [show ValueState.allSeeds P ⟨S'.jumpFn, []⟩ = P.initialSeeds from h.seeds_eq] at hf
    exact hV.start.seed n facts d l hf hd
  · rintro _ _ f (@⟨sp, c, d, d', _, hsp, hc, hfun, hf⟩ | ⟨hc, hg, hsp, hd₃⟩) hactive
    · cases hstart : G.isStartPoint c with
      | true =>
        obtain rfl := h.start_unique c sp hstart hsp hfun
        obtain ⟨heq, rfl⟩ := h.stored_start hS' hW hf hstart
        obtain rfl : d' = d := heq
        rw [h.identity]
        exact h.values.join_idem _
      | false =>
        refine (hV.others c d' hstart).1 _ ⟨sp, d, d, f, hsp, hfun.symm, ?_, ?_, rfl⟩
        · exact h.ne_top_of_stored htab hgc hS hS' hW hV.start (k := ⟨d, c, d'⟩) (by rw [hf]; exact Option.some_ne_none f) hsp
            hfun.symm
        · rw [h.stored_eq htab hgc hS hS' hW, hf]
    · exact h.call_le_of_computed htab hgc hS hS' hW hV hc hg hsp hd₃ hactive

/-! ### The result -/

variable {V' : ValueState N D L} (hV' : ValueState.ValueReachable P G ⟨S'.jumpFn, []⟩ V')
  (hempty' : V'.valuePropWL = [])

include hV hV' hempty' in
theorem vals_eq_of_computed (n : N) (d : D) :
    vals P V (n, d) = ValueState.vals P (V'.finish P G ⟨S'.jumpFn, []⟩) (n, d) := by
  let _ := h.values.semilattice
  have hsync := h.synced hS'
  have hstored := h.stored_eq htab hgc hS hS' hW
  set R : PhaseOneResult N D E := ⟨S'.jumpFn, []⟩ with hR
  have hinv := ValueState.valueInv_of_reachable (G := G) (R := R) h.values hsync
    (fun n hn => ?_) (fun _ e _ => h.acts.distributes e) (fun _ _ _ _ => h.acts.distributes _) hV'
  · have hsol := hinv.solution h.values hempty'
    have hstart' := h.startSolution_of_solution htab hgc hS hS' hW hsol
    -- the values of the IDE solver are below those of the iterative solver
    have hle : ∀ k, ValueState.vals P V' k ≤ vals P V k :=
      hinv.below _ (h.solution_of_computed htab hgc hS hS' hW hV)
    have hstart : ∀ sp d, G.isStartPoint sp = true → vals P V (sp, d) = ValueState.vals P V' (sp, d) :=
      fun sp d hsp => le_antisymm (hV.least _ hstart' sp d hsp) (hle _)
    have hne : ∀ {sp d' e}, G.isStartPoint sp = true → G.getFunctionOf sp = G.getFunctionOf n →
        S'.jumpFn.stored ⟨d', n, d⟩ = some e → vals P V (sp, d') ≠ P.topElement := by
      intro sp d' e hsp hfun hst
      refine h.ne_top_of_stored htab hgc hS hS' hW hV.start (k := ⟨d', n, d⟩) ?_ hsp hfun
      rw [hst]
      exact Option.some_ne_none e
    cases hn : G.isStartPoint n with
    | true => rw [ValueState.finish_of_startOrCall h.values hsync V' d (Or.inr hn), hstart n d hn]
    | false =>
      have hjoin := hV.others n d hn
      cases hc : G.isCallSite n with
      | true =>
        rw [ValueState.finish_of_startOrCall h.values hsync V' d (Or.inl hc)]
        refine le_antisymm (hjoin.2 _ ?_) (hle _)
        rintro l ⟨sp, d₀, d', e, hsp, hfun, -, hst, rfl⟩
        rw [hstored] at hst
        have hne' := hne hsp hfun hst
        rw [hstart sp d' hsp] at hne' ⊢
        exact hsol.edge (sp, d') (n, d) e (.toCall hsp hc hfun.symm hst) (Or.inr hne')
      | false =>
        have hjoin' := ValueState.finish_isJoinOf (G := G) (R := R) h.values hsync d hc hn
          (hinv.others n d hc hn)
        have heq : reachedValues P G S (vals P V) n d =
            ValueState.contributedValues P G R (ValueState.vals P V') n d := by
          ext l
          constructor
          · rintro ⟨sp, d₀, d', e, hsp, hfun, -, hst, rfl⟩
            exact ⟨sp, (G.mem_getStartPointsOf _ _).2 ⟨hsp, hfun⟩, d', e, hstored _ ▸ hst,
              by rw [hstart sp d' hsp]⟩
          · rintro ⟨sp, hsp, d', e, hst, rfl⟩
            obtain ⟨hsp, hfun⟩ := (G.mem_getStartPointsOf _ _).1 hsp
            exact ⟨sp, d', d', e, hsp, hfun, hne hsp hfun hst, (hstored _).trans hst, by rw [hstart sp d' hsp]⟩
        rw [heq] at hjoin
        exact (hjoin.isLUB h.values).unique (hjoin'.isLUB h.values)
  · rcases hn with hn | hn
    · rw [h.seeds_eq] at hn
      obtain ⟨⟨n, facts⟩, hf, rfl⟩ := List.mem_map.1 hn
      exact h.seed_start n facts hf
    · exact absurd hn List.not_mem_nil

end Comparable

open IterativeValueState (zeroProblem zeroConfig zeroRun)

theorem comparable_zeroProblem : Comparable zeroProblem ValueState.callProgram where
  edgeFunctions := BasicEdgeFunction.Uses.lawful ⟨rfl, rfl, BasicEdgeFunction.isAllTop_iff⟩
  values := IterativeValueState.lawfulValues_zeroProblem
  acts := IterativeValueState.actsOnValues_zeroProblem
  identity _ := rfl
  identity_kept := rfl
  call_kept _ d _ _ := by cases d <;> rfl
  keeps {e l} he hl := by cases e <;> cases l <;> simp_all [zeroProblem, ValueState.callProblem,
    BasicEdgeFunction.computeTarget]
  balanced := rfl
  noSummary _ _ := rfl
  zero {n facts} hf := by
    obtain ⟨rfl, rfl⟩ := Prod.mk.inj (List.mem_singleton.1 hf)
    exact List.mem_singleton.2 rfl
  seed_start := IterativeValueState.zeroProblem_seeds
  seed_value {n facts d l} hf hd := by
    obtain ⟨rfl, rfl⟩ := Prod.mk.inj (List.mem_singleton.1 hf)
    obtain ⟨rfl, rfl⟩ := Prod.mk.inj (List.mem_singleton.1 hd)
    exact Bool.false_ne_true
  start_unique := IterativeValueState.callProgram_start_unique
  start_entry {n m} hm := by
    cases n <;> cases m <;> first | rfl | simp [ValueState.callProgram, ICFG.ofNodes] at hm

/-- The IDE solver on the call problem. -/
def zeroJumpFunctions : IDESolver ValueState.CallNode Bool BasicEdgeFunction :=
  IDESolver.run zeroProblem ValueState.callProgram 40 (IDESolver.init zeroProblem)

def zeroValues : ValueState ValueState.CallNode Bool Bool :=
  ValueState.valueLoop zeroProblem ValueState.callProgram ⟨zeroJumpFunctions.jumpFn, []⟩ 20
    (ValueState.submitInitialValues zeroProblem ValueState.callProgram ⟨zeroJumpFunctions.jumpFn, []⟩
      ValueState.empty)

/-- The loop over the jobs on the call problem. -/
def zeroLoop (S : IterativeIDESolver ValueState.CallNode ValueState.CallFun Bool BasicEdgeFunction) :
    IterativeValueState ValueState.CallNode Bool Bool :=
  IterativeValueState.loop zeroProblem zeroConfig ValueState.callProgram S false 20
    (IterativeValueState.submitInitialValues zeroProblem S)

end Phasar
