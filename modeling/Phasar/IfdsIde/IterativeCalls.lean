import Phasar.IfdsIde.IterativeFlow

/-!
# Processing a path edge keeps the invariant

What `propagate` does with a path edge that is taken from the work list. A callee is entered one
start point after another; in between, its calls are `Starting`.

* `Inv.enterCallee`, `Inv.deferCallFlow`: a callee is started and the call is registered;
* `Inv.intraCallFlow`: a path edge at a call site;
* `Inv.propagate`: any path edge.
-/

set_option linter.unusedSectionVars false

namespace Phasar

namespace IterativeIDESolver

open Deduction

variable {N F D E L : Type*} [DecidableEq N] [DecidableEq F] [DecidableEq D] [DecidableEq E]
  [SemilatticeSup E] {P : IterativeProblem N F D E L} {G : ICFG N F} {O : Open N F D E}
  {J : Starting N F D E} {S S' : IterativeIDESolver N F D E} {H H₀ : PathEdge N D → Option E}

/-! ### Registering a call -/

/-- The callee `g` is being entered from the path edge `k`. -/
def starting (P : IterativeProblem N F D E L) (G : ICFG N F) (k : PathEdge N D) (g : F) :
    Starting N F D E where
  unlinked _ := False
  entering j := caller G j = pairOf G k ∧ j.callee = g ∧
    j.factInCallee ∈ P.cachedFlows.getCallFlowFunction k.target g k.dTarget

/-- The job of a call. -/
def jobOf (P : IterativeProblem N F D E L) (k : PathEdge N D) (f : E) (g : F) (d₃ : D) :
    InterPropagationJob N F D E :=
  ⟨P.extend f (P.getCallEdgeFunction k.target k.dTarget g d₃), k.dSource, g, k.target, d₃⟩

/-- Adding the job of a path edge that is being processed keeps the invariant. -/
theorem Inv.addJob {k : PathEdge N D} {f : E} {g : F} {d₃ : D}
    (hi : Inv P G (.taking k f) (starting P G k g) S H)
    (hen : Enters P.cachedFlows G k.target k.dTarget g d₃) :
    Inv P G (.taking k f) ⟨(· = jobOf P k f g d₃), (starting P G k g).entering⟩
      { S with allInterPropagations := jobOf P k f g d₃ :: S.allInterPropagations } H := by
  -- the pair of the path edge is live already
  have hlive : ∀ p, Live G (.taking k f)
      { S with allInterPropagations := jobOf P k f g d₃ :: S.allInterPropagations } p →
      Live G (.taking k f) S p := by
    intro p hp
    induction hp with
    | pending hm => exact .pending hm
    | callWL hm => exact .callWL hm
    | key h => exact .key h
    | call h => exact .call h
    | caller hj _ ih =>
      rcases List.mem_cons.1 hj with rfl | hj
      · exact .key (k := k) ⟨rfl, rfl⟩
      · exact .caller hj ih
  exact
    { stored_eq := hi.stored_eq
      kept := hi.kept
      val := hi.val
      sound := hi.sound
      pending := hi.pending
      un := hi.un
      registered := fun hf hen => (hi.registered hf hen).imp_left (List.mem_cons_of_mem _)
      job := fun hj => by
        rcases List.mem_cons.1 hj with rfl | hj
        · exact ⟨k.dTarget, f, hen, rfl, hi.pending (Or.inr ⟨rfl, rfl⟩)⟩
        · exact hi.job hj
      start := fun hj => by
        rcases List.mem_cons.1 hj with rfl | hj
        · exact Or.inr ⟨⟨rfl, rfl, hen.2.2.2.2⟩, Or.inr rfl⟩
        · exact (hi.start hj).imp_right fun h => ⟨h.1, Or.inl (h.2.resolve_right fun h => h)⟩
      linked := fun hj => by
        rcases List.mem_cons.1 hj with rfl | hj
        · exact Or.inr (Or.inl rfl)
        · rcases hi.linked hj with h | h | h
          · exact Or.inl h
          · exact h.elim
          · exact Or.inr (Or.inr ⟨h.1, fun hl => h.2 (hlive _ hl)⟩)
      listed := fun hj => ⟨List.mem_cons_of_mem _ (hi.listed hj).1, (hi.listed hj).2⟩
      returned := fun hj he hs => by
        rcases List.mem_cons.1 hj with rfl | hj
        · exact Or.inr (Or.inr (Or.inr rfl))
        · rcases hi.returned hj he hs with h | h | h | h
          · exact Or.inl h
          · exact Or.inr (Or.inl h)
          · exact Or.inr (Or.inr (Or.inl h))
          · exact h.elim
      table := hi.table
      table_sound := hi.table_sound
      candidate := fun hgc p hp => hi.candidate hgc (hlive p hp)
      refCount := hi.refCount }

/-- Linking a job whose returns have been applied keeps the invariant. -/
theorem Inv.link {j₀ : InterPropagationJob N F D E} {en : InterPropagationJob N F D E → Prop}
    (hi : Inv P G O ⟨(· = j₀), en⟩ S H) (hj₀ : j₀ ∈ S.allInterPropagations)
    (hans : ∀ e ∈ G.getExitPointsOf j₀.callee, Answered P G O S H j₀ e)
    (hS : S' = { S with sourceFactAndFuncToInterJob :=
      S.sourceFactAndFuncToInterJob.modify j₀.factInCallee j₀.callee (j₀ :: ·) }) :
    Inv P G O ⟨fun _ => False, en⟩ S' H := by
  have hmem : ∀ j d g, j ∈ S'.sourceFactAndFuncToInterJob d g ↔
      j ∈ S.sourceFactAndFuncToInterJob d g ∨ j = j₀ ∧ entered j = (d, g) := by
    intro j d g
    subst hS
    simp only [Table.modify]
    by_cases h : d = j₀.factInCallee ∧ g = j₀.callee
    · obtain ⟨rfl, rfl⟩ := h
      simp only [and_self, if_true, List.mem_cons]
      constructor
      · rintro (rfl | h)
        · exact Or.inr ⟨rfl, rfl⟩
        · exact Or.inl h
      · rintro (h | ⟨rfl, -⟩)
        · exact Or.inr h
        · exact Or.inl rfl
    · rw [if_neg h]
      refine (or_iff_left ?_).symm
      rintro ⟨rfl, heq⟩
      obtain ⟨rfl, rfl⟩ := Prod.mk.inj heq
      exact h ⟨rfl, rfl⟩
  have hlive : ∀ p, Live G O S' p → Live G O S p := by
    intro p hp
    subst hS
    exact hp.congr (by rfl) (by rfl) (by rfl)
  have hlink : ∀ {j}, j ∈ S.sourceFactAndFuncToInterJob j.factInCallee j.callee ∨ j = j₀ →
      j ∈ S'.sourceFactAndFuncToInterJob j.factInCallee j.callee := by
    intro j h
    exact (hmem _ _ _).2 (h.imp_right fun h => ⟨h, rfl⟩)
  subst hS
  -- only the lists have changed, and only by the new job
  exact
    { stored_eq := hi.stored_eq
      kept := hi.kept
      val := hi.val
      sound := hi.sound
      pending := hi.pending
      un := hi.un
      registered := hi.registered
      job := hi.job
      start := fun hj => (hi.start hj).imp_right fun h => ⟨h.1, Or.inl (hlink h.2)⟩
      linked := fun hj => by
        rcases hi.linked hj with h | h | h
        · exact Or.inl (hlink (Or.inl h))
        · exact Or.inl (hlink (Or.inr h))
        · exact Or.inr (Or.inr ⟨h.1, fun hl => h.2 (hlive _ hl)⟩)
      listed := fun hj => by
        rcases (hmem _ _ _).1 hj with h | ⟨rfl, h⟩
        · exact hi.listed h
        · exact ⟨hj₀, h⟩
      returned := fun {j e d₄ s} hj he hs => by
        rcases hi.returned hj he hs with h | h | h | rfl
        · exact Or.inl h
        · exact Or.inr (Or.inl h)
        · exact Or.inr (Or.inr (Or.inl h))
        · exact (hans e he d₄ s hs).imp_right Or.inl
      table := hi.table
      table_sound := hi.table_sound
      candidate := fun hgc p hp => hi.candidate hgc (hlive p hp)
      refCount := hi.refCount }

/-! ### Entering a callee -/

/-- Storing the start of a callee that is being entered keeps the invariant. -/
theorem Inv.storeStart {k : PathEdge N D} {f : E} {g : F} {sp : N} {d₃ : D}
    (hi : Inv P G (.taking k f) (starting P G k g) S (hist H₀ S)) (hP : Setting P)
    (hS : S' = storeResultsAndPropagate P G g S (⟨d₃, sp, d₃⟩, P.identity))
    (hen : Enters P.cachedFlows G k.target k.dTarget g d₃) (hsp : sp ∈ G.getStartPointsOf g) :
    (Inv P G (.taking k f) (starting P G k g) S' (hist H₀ S') ∧ Le (fun _ => True) H₀ S S') ∧
      Has P (hist H₀ S') ⟨d₃, sp, d₃⟩ P.identity := by
  have hfun : G.getFunctionOf sp = g := G.getFunctionOf_startPoint hsp
  have hkept : Kept P G sp :=
    Or.inr (by simp [keepAnalysisInformationAt, G.isStartPoint_of_mem hsp])
  have hflow : FlowEdge P.cachedFlows P.toEdgeFunctions P.extendSummary G k ⟨d₃, sp, d₃⟩ _ :=
    .callStart hen.1 hen.2.1 hen.2.2.1 hsp hen.2.2.2.2
  have hid := reached_un hP.dropped_le hP.distributive (R := rules P G) hflow
    (hi.pending (Or.inr ⟨rfl, rfl⟩))
  refine hi.store hP (by rw [hS, hfun]) hid trivial fun hnew => Or.inr fun j hj hent => ?_
  -- a call of the pair is entered here already, or it is one of those being started
  rw [pairOf, hfun] at hent
  obtain ⟨hd, hg⟩ := Prod.mk.inj hent
  rcases hi.start hj with h | ⟨⟨hcaller, -, -⟩, hlink⟩
  · refine absurd ((h sp (hg ▸ hsp)).imp_right fun h => ?_) hnew
    rw [hi.kept (k := ⟨d₃, sp, d₃⟩) hkept]
    rwa [hd] at h
  · exact ⟨hcaller ▸ .key (k := k) ⟨rfl, rfl⟩, hlink⟩

/-- **Entering a callee keeps the invariant and registers the call.** -/
theorem Inv.enterCallee {k : PathEdge N D} {f : E} {g : F} {sp : N} {d₃ : D}
    (hi : Inv P G (.taking k f) (starting P G k g) S (hist H₀ S)) (hP : Setting P)
    (hS : S' = IterativeIDESolver.enterCallee P G k f g sp S d₃)
    (hen : Enters P.cachedFlows G k.target k.dTarget g d₃) (hsp : sp ∈ G.getStartPointsOf g) :
    (Inv P G (.taking k f) (starting P G k g) S' (hist H₀ S') ∧ Le (fun _ => True) H₀ S S') ∧
      Has P (hist H₀ S') ⟨d₃, sp, d₃⟩ P.identity ∧ jobOf P k f g d₃ ∈ S'.allInterPropagations := by
  unfold IterativeIDESolver.enterCallee at hS
  dsimp only at hS
  generalize hS₁ : storeResultsAndPropagate P G g S (⟨d₃, sp, d₃⟩, P.identity) = S₁ at hS
  obtain ⟨⟨hi₁, hle₁⟩, hhas₁⟩ := hi.storeStart hP hS₁.symm hen hsp
  split_ifs at hS with hmem
  · subst hS
    exact ⟨⟨hi₁, hle₁⟩, hhas₁, hmem⟩
  -- the job is new: it is recorded, answered early, and linked
  · obtain ⟨S₂, hS₂⟩ : ∃ S₂, S₂ = { S₁ with
      allInterPropagations := jobOf P k f g d₃ :: S₁.allInterPropagations } := ⟨_, rfl⟩
    have hi₂ : Inv P G (.taking k f) ⟨(· = jobOf P k f g d₃), (starting P G k g).entering⟩ S₂
        (hist H₀ S₂) := by
      subst hS₂
      exact hi₁.addJob hen
    have hle₂ : Le (fun _ => True) H₀ S₁ S₂ := by
      subst hS₂
      exact { Le.refl S₁ with jobs := fun j hj => List.mem_cons_of_mem _ hj }
    have hjob : jobOf P k f g d₃ ∈ S₂.allInterPropagations := by
      rw [hS₂]
      exact List.mem_cons_self
    generalize hS₃ : applyEarlySummariesAtCall P G S₂ (jobOf P k f g d₃) = S₃
    have hS' : S' = { S₃ with sourceFactAndFuncToInterJob :=
        S₃.sourceFactAndFuncToInterJob.modify d₃ g (jobOf P k f g d₃ :: ·) } := by
      rw [hS, ← hS₃, hS₂]
      rfl
    have hlive : ∀ s : IterativeIDESolver N F D E,
        Live G (.taking k f) s (caller G (jobOf P k f g d₃)) := fun _ => .key (k := k) ⟨rfl, rfl⟩
    obtain ⟨⟨⟨hi₃, hle₃⟩, hall⟩, hans⟩ := hi₂.applyAtExits (fun _ => [jobOf P k f g d₃]) (d := d₃)
      (g := g) hP hS₃.symm
      (fun s hs hall j hj => by
        rw [List.mem_singleton] at hj
        subst hj
        exact ⟨hall ▸ hjob, rfl, fun s' _ => hlive s'⟩)
      (fun _ _ j hj => hj)
    rw [← hall] at hjob
    have hi₄ := hi₃.link hjob (fun e he => hans e he _ (List.mem_singleton.2 rfl)) hS'
    have hle₄ : Le (fun _ => True) H₀ S₃ S' := by
      subst hS'
      refine { Le.refl S₃ with lists := fun j d g' hj => ?_ }
      simp only [Table.modify]
      split_ifs
      · exact List.mem_cons_of_mem _ (by simp_all)
      · exact hj
    have hle := hle₂.trans ((hle₃.weaken fun _ _ => trivial).trans hle₄)
    refine ⟨⟨by subst hS'; exact hi₄, hle₁.trans hle⟩, hle.has hhas₁, hle₄.jobs _ hjob⟩

/-- The call is registered and the start point is entered. -/
def Entered (P : IterativeProblem N F D E L) (k : PathEdge N D) (f : E) (g : F) (sp : N) (d₃ : D)
    (H : PathEdge N D → Option E) (S : IterativeIDESolver N F D E) : Prop :=
  Has P H ⟨d₃, sp, d₃⟩ P.identity ∧ jobOf P k f g d₃ ∈ S.allInterPropagations

theorem Entered.mono {A : PathEdge N D → Prop} {k : PathEdge N D} {f : E} {g : F} {sp : N} {d₃ : D}
    (hle : Le A H₀ S S') (h : Entered P k f g sp d₃ (hist H₀ S) S) :
    Entered P k f g sp d₃ (hist H₀ S') S' :=
  ⟨hle.has h.1, hle.jobs _ h.2⟩

/-- **Starting a callee keeps the invariant.** -/
theorem Inv.deferCallFlow {k : PathEdge N D} {f : E} {g : F}
    (hi : Inv P G (.taking k f) .nothing S (hist H₀ S)) (hP : Setting P)
    (hS : S' = IterativeIDESolver.deferCallFlow P G S k f g) (hc : G.isCallSite k.target = true)
    (hg : g ∈ G.getCalleesOfCallAt k.target)
    (hs : P.cachedFlows.getSummaryFlowFunction k.target g = none) :
    (Inv P G (.taking k f) .nothing S' (hist H₀ S') ∧ Le (fun _ => True) H₀ S S') ∧
      ∀ sp ∈ G.getStartPointsOf g,
        ∀ d₃ ∈ P.cachedFlows.getCallFlowFunction k.target g k.dTarget,
          Entered P k f g sp d₃ (hist H₀ S') S' := by
  have hopen : Inv P G (.taking k f) (starting P G k g) S (hist H₀ S) :=
    { hi with
      start := fun hj => Or.inl ((hi.start hj).resolve_right fun h => h.1)
      linked := fun hj => hi.linked hj
      returned := fun hj he hs => hi.returned hj he hs }
  -- one start point: the loop over the facts enters the callee with each of them
  have hinner : ∀ sp ∈ G.getStartPointsOf g, ∀ s : IterativeIDESolver N F D E,
      Inv P G (.taking k f) (starting P G k g) s (hist H₀ s) → ∀ s' : IterativeIDESolver N F D E,
      s' = (P.cachedFlows.getCallFlowFunction k.target g k.dTarget).foldl
        (IterativeIDESolver.enterCallee P G k f g sp) s →
      (Inv P G (.taking k f) (starting P G k g) s' (hist H₀ s') ∧ Le (fun _ => True) H₀ s s') ∧
        ∀ d₃ ∈ P.cachedFlows.getCallFlowFunction k.target g k.dTarget,
          Entered P k f g sp d₃ (hist H₀ s') s' := by
    rintro sp hsp s hs₀ _ rfl
    have hstep : ∀ d₃ ∈ P.cachedFlows.getCallFlowFunction k.target g k.dTarget,
        ∀ t : IterativeIDESolver N F D E, Inv P G (.taking k f) (starting P G k g) t (hist H₀ t) →
          _ := fun d₃ hd t ht =>
      ht.enterCallee hP (show _ = IterativeIDESolver.enterCallee P G k f g sp t d₃ from rfl)
        ⟨hc, hg, hs, ⟨sp, hsp⟩, hd⟩ hsp
    exact LoopRule.foldl_establish
      (I := fun t => Inv P G (.taking k f) (starting P G k g) t (hist H₀ t) ∧
        Le (fun _ => True) H₀ s t)
      (Q := fun d₃ t => Entered P k f g sp d₃ (hist H₀ t) t) _
      (fun d₃ hd t ht =>
        ⟨⟨(hstep d₃ hd t ht.1).1.1, ht.2.trans (hstep d₃ hd t ht.1).1.2⟩, (hstep d₃ hd t ht.1).2⟩)
      (fun d₃ hd d₃' _ t ht hent => hent.mono (hstep d₃ hd t ht.1).1.2) ⟨hs₀, .refl s⟩
  obtain ⟨⟨hi', hle⟩, hent⟩ := LoopRule.foldl_establish
    (I := fun t => Inv P G (.taking k f) (starting P G k g) t (hist H₀ t) ∧
      Le (fun _ => True) H₀ S t)
    (Q := fun sp t => ∀ d₃ ∈ P.cachedFlows.getCallFlowFunction k.target g k.dTarget,
      Entered P k f g sp d₃ (hist H₀ t) t) (G.getStartPointsOf g)
    (fun sp hsp t ht => by
      obtain ⟨⟨hi', hle⟩, hent⟩ := hinner sp hsp t ht.1 _ rfl
      exact ⟨⟨hi', ht.2.trans hle⟩, hent⟩)
    (fun sp hsp sp' _ t ht hent d₃ hd => (hent d₃ hd).mono (hinner sp hsp t ht.1 _ rfl).1.2)
    ⟨hopen, .refl S⟩
  subst hS
  refine ⟨⟨{ hi' with
    start := fun {j} hj => Or.inl ?_
    linked := fun hj => hi'.linked hj
    returned := fun hj he hs => hi'.returned hj he hs }, hle⟩, hent⟩
  rcases hi'.start hj with h | ⟨⟨-, hg', hd⟩, -⟩
  · exact h
  · subst hg'
    exact fun sp hsp => (hent sp hsp _ hd).1

/-! ### Call sites -/

/-- A callee of a call has been started, or its special summary has been applied. -/
structure CalleeDone (P : IterativeProblem N F D E L) (G : ICFG N F) (k : PathEdge N D) (f : E)
    (g : F) (H : PathEdge N D → Option E) (S : IterativeIDESolver N F D E) : Prop where
  summary : ∀ {h}, P.cachedFlows.getSummaryFlowFunction k.target g = some h →
    ∀ r ∈ G.getReturnSitesOfCallAt k.target, ∀ d ∈ h k.dTarget,
      Has P H ⟨k.dSource, r, d⟩
        (P.extendSummary f (P.getSummaryEdgeFunction k.target k.dTarget r d))
  entered : P.cachedFlows.getSummaryFlowFunction k.target g = none →
    ∀ sp ∈ G.getStartPointsOf g, ∀ d₃ ∈ P.cachedFlows.getCallFlowFunction k.target g k.dTarget,
      Entered P k f g sp d₃ H S

theorem CalleeDone.mono {A : PathEdge N D → Prop} {k : PathEdge N D} {f : E} {g : F}
    (hle : Le A H₀ S S') (h : CalleeDone P G k f g (hist H₀ S) S) :
    CalleeDone P G k f g (hist H₀ S') S' where
  summary hs r hr d hd := hle.has (h.summary hs r hr d hd)
  entered hs sp hsp d₃ hd := (h.entered hs sp hsp d₃ hd).mono hle

/-- **Processing one callee of a call keeps the invariant.** -/
theorem Inv.handleCallee {k : PathEdge N D} {f : E} {g : F} {b : Bool}
    (hi : Inv P G (.taking k f) .nothing S (hist H₀ S)) (hP : Setting P)
    (hS : S' = (IterativeIDESolver.handleCallee P G k f (S, b) g).1)
    (hc : G.isCallSite k.target = true) (hg : g ∈ G.getCalleesOfCallAt k.target) :
    (Inv P G (.taking k f) .nothing S' (hist H₀ S') ∧ Le (fun _ => True) H₀ S S') ∧
      CalleeDone P G k f g (hist H₀ S') S' := by
  unfold IterativeIDESolver.handleCallee at hS
  cases hs : P.cachedFlows.getSummaryFlowFunction k.target g with
  | none =>
    rw [hs] at hS
    obtain ⟨hinv, hent⟩ := hi.deferCallFlow hP hS hc hg hs
    exact ⟨hinv, fun h => by simp [hs] at h, fun _ => hent⟩
  | some h =>
    rw [hs] at hS
    have hedges : ∀ i ∈ summaryEdges P G k f h, pairOf G i.1 = pairOf G k ∧
        (dropped P i.2 ∨ i.2 ∈ Reached (rules P G) (dropped P) i.1) := by
      intro i hm
      simp only [summaryEdges, List.mem_flatMap, List.mem_map] at hm
      obtain ⟨r, hr, d, hd, rfl⟩ := hm
      have hflow : FlowEdge P.cachedFlows P.toEdgeFunctions P.extendSummary G k
          ⟨k.dSource, r, d⟩ _ := .summary hc hg hs hr hd
      refine ⟨by rw [pairOf, pairOf, G.getFunctionOf_returnSite hr], ?_⟩
      exact reached_un hP.dropped_le hP.distributive hflow (hi.pending (Or.inr ⟨rfl, rfl⟩))
    obtain ⟨hinv, hhas⟩ := hi.storeAll hP (A := fun _ => True) hS
      (fun i hm => ⟨congrArg Prod.snd (hedges i hm).1, trivial, (hedges i hm).2⟩)
      (fun i hm s _ => Or.inl ((hedges i hm).1 ▸ .key ⟨rfl, rfl⟩))
    refine ⟨hinv, fun h' r hr d hd => ?_, fun h' => by simp [hs] at h'⟩
    rw [hs, Option.some.injEq] at h'
    subst h'
    exact hhas (⟨k.dSource, r, d⟩, _) (List.mem_flatMap.2 ⟨r, hr, List.mem_map.2 ⟨d, hd, rfl⟩⟩)

/-- **Processing a path edge at a call site keeps the invariant.** -/
theorem Inv.intraCallFlow {k : PathEdge N D} {f : E}
    (hi : Inv P G (.taking k f) .nothing S (hist H₀ S)) (hP : Setting P)
    (hS : S' = applyIntraCallFlow P G S k f) (hc : G.isCallSite k.target = true) :
    Inv P G .nothing .nothing S' (hist H₀ S') ∧ Grows H₀ S S' := by
  unfold applyIntraCallFlow handleOrDeferCallFlow at hS
  dsimp only at hS
  -- all callees
  obtain ⟨⟨hi₁, hle₁⟩, hdone⟩ := LoopRule.foldl_establish
    (f := IterativeIDESolver.handleCallee P G k f)
    (I := fun s => Inv P G (.taking k f) .nothing s.1 (hist H₀ s.1) ∧
      Le (fun _ => True) H₀ S s.1)
    (Q := fun g s => CalleeDone P G k f g (hist H₀ s.1) s.1) (G.getCalleesOfCallAt k.target)
    (fun g hg s hs => by
      obtain ⟨⟨hi', hle⟩, hdone⟩ := hs.1.handleCallee (b := s.2) hP rfl hc hg
      exact ⟨⟨hi', hs.2.trans hle⟩, hdone⟩)
    (fun g hg g' _ s hs hdone =>
      hdone.mono (hs.1.handleCallee (b := s.2) hP rfl hc hg).1.2) (s := (S, true)) ⟨hi, .refl S⟩
  generalize (G.getCalleesOfCallAt k.target).foldl
    (IterativeIDESolver.handleCallee P G k f) (S, true) = s₁ at hS hi₁ hle₁ hdone
  -- call-to-return flow
  have hedges : ∀ i ∈ callToReturnEdges P G k f, pairOf G i.1 = pairOf G k ∧
      (dropped P i.2 ∨ i.2 ∈ Reached (rules P G) (dropped P) i.1) := by
    intro i hm
    simp only [callToReturnEdges, List.mem_flatMap, List.mem_map] at hm
    obtain ⟨r, hr, d, hd, rfl⟩ := hm
    have hflow : FlowEdge P.cachedFlows P.toEdgeFunctions P.extendSummary G k ⟨k.dSource, r, d⟩ _ :=
      .callToRet hc hr hd
    refine ⟨by rw [pairOf, pairOf, G.getFunctionOf_returnSite hr], ?_⟩
    exact reached_un hP.dropped_le hP.distributive hflow (hi.pending (Or.inr ⟨rfl, rfl⟩))
  obtain ⟨⟨hi₂, hle₂⟩, hhas⟩ := hi₁.storeAll hP (A := fun _ => True) hS
    (fun i hm => ⟨congrArg Prod.snd (hedges i hm).1, trivial, (hedges i hm).2⟩)
    (fun i hm s _ => Or.inl ((hedges i hm).1 ▸ .key ⟨rfl, rfl⟩))
  have hexit : ∀ {g}, k.target ∉ G.getExitPointsOf g := fun h => by
    simp [G.exit_not_callSite _ ((G.mem_getExitPointsOf _ _).1 h).1] at hc
  refine ⟨hi₂.finish ⟨?_, ?_, fun h => absurd h hexit, fun _ _ h => absurd h hexit⟩,
    (hle₁.trans hle₂).toGrows⟩
  · intro k' φ hr
    cases hr with
    | normal hc' => simp [hc] at hc'
    | @callToRet d₁ c d₂ r d₃ _ hr hd =>
      exact hhas (⟨d₁, r, d₃⟩, _) (List.mem_flatMap.2 ⟨r, hr, List.mem_map.2 ⟨d₃, hd, rfl⟩⟩)
    | @summary d₁ c d₂ g h r d₃ _ hg hs hr hd =>
      exact hle₂.has ((hdone g hg).summary hs r hr d₃ hd)
    | @callStart d₁ c d₂ g sp d₃ _ hg hs hsp hd =>
      exact hle₂.has ((hdone g hg).entered hs sp hsp d₃ hd).1
  · rintro g d₃ ⟨-, hg, hs, ⟨sp, hsp⟩, hd⟩
    exact hle₂.jobs _ ((hdone g hg).entered hs sp hsp d₃ hd).2

/-- **Processing a path edge from the work list keeps the invariant.** -/
theorem Inv.propagate {l r : List (PathEdge N D × E)} {k : PathEdge N D} {f : E}
    (hi : Inv P G .nothing .nothing S (hist H₀ S)) (hP : Setting P)
    (hw : S.workList = l ++ (k, f) :: r)
    (hS : S' = IterativeIDESolver.propagate P G { S with workList := l ++ r } k f) :
    Inv P G .nothing .nothing S' (hist H₀ S') ∧ Grows H₀ { S with workList := l ++ r } S' := by
  unfold IterativeIDESolver.propagate at hS
  dsimp only at hS
  obtain ⟨S₁, hS₁, hT, hw₁, hc₁, hcount⟩ : ∃ S₁ : IterativeIDESolver N F D E,
      (if P.config.enableJumpFunctionGC = .disabled then { S with workList := l ++ r }
        else { S with
          workList := l ++ r
          refCountPerFunction := Function.update S.refCountPerFunction (G.getFunctionOf k.target)
            (S.refCountPerFunction (G.getFunctionOf k.target) - 1) }) = S₁ ∧
      SameTables S S₁ ∧ S₁.workList = l ++ r ∧ S₁.callWL = S.callWL ∧
      (P.config.enableJumpFunctionGC ≠ .disabled → S₁.refCountPerFunction =
        Function.update S.refCountPerFunction (G.getFunctionOf k.target)
          (S.refCountPerFunction (G.getFunctionOf k.target) - 1)) := by
    split_ifs with h
    · exact ⟨_, rfl, ⟨rfl, rfl, rfl, rfl, rfl, rfl⟩, rfl, rfl, fun hn => absurd h hn⟩
    · exact ⟨_, rfl, ⟨rfl, rfl, rfl, rfl, rfl, rfl⟩, rfl, rfl, fun _ => rfl⟩
  rw [hS₁] at hS
  have hst : S₁.stored = S.stored := by
    funext k'
    simp only [stored, hT.jumpFunctions]
  have hhist : hist H₀ S₁ = hist H₀ S := by
    funext k'
    simp only [hist, hst]
  have hi₁ : Inv P G (.taking k f) .nothing S₁ (hist H₀ S₁) := by
    rw [hhist]
    exact hi.pop hw hT hw₁ hc₁ hcount
  have hgrows : Inv P G .nothing .nothing S' (hist H₀ S') ∧ Grows H₀ S₁ S' := by
    cases hc : G.isCallSite k.target with
    | false => exact hi₁.normalFlow hP hc (by simpa [hc] using hS)
    | true => exact hi₁.intraCallFlow hP (by simpa [hc] using hS) hc
  refine ⟨hgrows.1, fun {k' f'} hf => hgrows.2.raised (by rw [hst]; exact hf), fun {k' f'} hf => ?_,
    fun h => ?_⟩
  · exact hgrows.2.hist (by rw [hhist]; exact hf)
  · rw [hgrows.2.quiet (by rw [hst]; exact h), hw₁]

end IterativeIDESolver

end Phasar
