import Phasar.IfdsIde.IterativeCalls

/-!
# Draining keeps the invariant

What `doNext` does when the work list is empty: deferred returns, and garbage collection. Returns go
to return sites, where jump functions are kept, so whatever is put on the work list was unknown
before. A function is collected only if none of its pairs is live: the candidates that are not
collectable are closed under calling.

* `Inv.processInterJobs`: deferred returns;
* `not_live_of_collectable`, `Inv.runGC`: garbage collection;
* `Inv.drained`: both.
-/

set_option linter.unusedSectionVars false

namespace Phasar

namespace IterativeIDESolver

open Deduction

variable {N F D E L : Type*} [DecidableEq N] [DecidableEq F] [DecidableEq D] [DecidableEq E]
  [SemilatticeSup E] {P : IterativeProblem N F D E L} {G : ICFG N F}
  {S S' : IterativeIDESolver N F D E} {H H₀ : PathEdge N D → Option E}

/-! ### Deferred returns -/

/-- The pairs taken from `CallWL` are being processed. -/
def Open.calls (C : D × F → Prop) : Open N F D E := ⟨fun _ _ => False, C⟩

/-- **Processing one rescheduled pair answers all its calls.** -/
theorem Inv.processRelevantCall {C : D × F → Prop} {call : D × F}
    (hi : Inv P G (.calls C) .nothing S (hist H₀ S)) (hP : Setting P)
    (hS : S' = IterativeIDESolver.processRelevantCall P G S call) (hcall : C call) :
    ((Inv P G (.calls C) .nothing S' (hist H₀ S') ∧ Le (KeptEdge P G) H₀ S S') ∧
      S'.allInterPropagations = S.allInterPropagations) ∧
      ∀ j ∈ S.allInterPropagations, entered j = call → ∀ e ∈ G.getExitPointsOf j.callee,
        Answered P G (.calls C) S' (hist H₀ S') j e := by
  obtain ⟨d, g⟩ := call
  have hlive : ∀ s : IterativeIDESolver N F D E, Live G (.calls C) s (d, g) := fun _ => .call hcall
  obtain ⟨hinv, hans⟩ := hi.applyAtExits (fun s => s.sourceFactAndFuncToInterJob d g) hP hS
    (fun s hs hall j hj => by
      obtain ⟨hmem, hent⟩ := hs.listed hj
      refine ⟨hmem, hent, fun s' hs' => .caller ?_ (hent ▸ hlive s')⟩
      rwa [hs', ← hall])
    (fun s hle j hj => hle.lists j d g hj)
  refine ⟨hinv, fun j hj hent e he => ?_⟩
  obtain ⟨rfl, rfl⟩ := Prod.mk.inj hent
  rcases hi.linked hj with h | h | ⟨-, h⟩
  · exact hans e he j h
  · exact h.elim
  · exact absurd (hlive S) h

/-- **Processing the deferred returns keeps the invariant.** -/
theorem Inv.processInterJobs {calls : List (D × F)}
    (hi : Inv P G .nothing .nothing S (hist H₀ S)) (hP : Setting P)
    (hS : S' = IterativeIDESolver.processInterJobs P G S calls) (hperm : calls.Perm S.callWL) :
    Inv P G .nothing .nothing S' (hist H₀ S') ∧ Le (KeptEdge P G) H₀ { S with callWL := [] } S' := by
  have hopen : Inv P G (.calls (· ∈ calls)) .nothing { S with callWL := [] } (hist H₀ S) := by
    refine hi.transfer ⟨rfl, rfl, rfl, rfl, rfl, rfl⟩ (fun k f h => h) (fun k f h => Or.inl h)
      (fun p hp => ?_) (fun j _ h => Or.inl (Or.inr ?_)) (fun hgc => hi.refCount hgc)
    · induction hp with
      | pending hm => exact .pending hm
      | callWL hm => simp at hm
      | key h => exact h.elim
      | call h => exact .callWL (hperm.mem_iff.1 h)
      | caller hj _ ih => exact .caller hj ih
    · exact hperm.mem_iff.2 (h.resolve_right fun h => h)
  obtain ⟨⟨⟨hi', hle⟩, hall⟩, hans⟩ := LoopRule.foldl_establish
    (f := IterativeIDESolver.processRelevantCall P G)
    (I := fun s => (Inv P G (.calls (· ∈ calls)) .nothing s (hist H₀ s) ∧
      Le (KeptEdge P G) H₀ { S with callWL := [] } s) ∧
      s.allInterPropagations = S.allInterPropagations)
    (Q := fun call s => ∀ j ∈ S.allInterPropagations, entered j = call →
      ∀ e ∈ G.getExitPointsOf j.callee, Answered P G (.calls (· ∈ calls)) s (hist H₀ s) j e) calls
    (fun call hc s hs => by
      obtain ⟨⟨⟨hi', hle⟩, hall⟩, hans⟩ := hs.1.1.processRelevantCall hP rfl hc
      exact ⟨⟨⟨hi', hs.1.2.trans hle⟩, hall.trans hs.2⟩, fun j hj => hans j (hs.2 ▸ hj)⟩)
    (fun call hc call' _ s hs hans j hj hent e he => by
      obtain ⟨⟨⟨hi', hle⟩, -⟩, -⟩ := hs.1.1.processRelevantCall hP rfl hc
      exact (hans j hj hent e he).mono hs.1.1 hi' hle he)
    (s := { S with callWL := [] }) ⟨⟨hopen, .refl _⟩, rfl⟩
  rw [← IterativeIDESolver.processInterJobs, ← hS] at hi' hle hall hans
  refine ⟨?_, hle⟩
  refine hi'.transfer ⟨rfl, rfl, rfl, rfl, rfl, rfl⟩ (fun k f h => h) (fun k f h => Or.inl h)
    (fun p hp => ?_) (fun j hj h => ?_) (fun hgc => hi'.refCount hgc)
  · exact hp.of_nothing
  · rcases h with h | h
    · exact Or.inl (Or.inl h)
    · exact Or.inr fun e he => hans _ h j (hall ▸ hj) rfl e he

/-! ### Garbage collection -/

theorem dropWaiting_subset (funWorkList finalCandidates : List F) :
    ∀ f ∈ dropWaiting G funWorkList finalCandidates, f ∈ finalCandidates := by
  induction funWorkList, finalCandidates using dropWaiting.induct G with
  | case1 fc => simp [dropWaiting]
  | case2 f wl fc hf ih =>
    rw [dropWaiting, if_pos hf]
    exact fun g hg => (mem_reset.1 (ih g hg)).1
  | case3 f wl fc hf ih =>
    rw [dropWaiting, if_neg hf]
    exact ih

/-- What is on the list is not collected. -/
theorem not_mem_dropWaiting (funWorkList finalCandidates : List F) :
    ∀ f ∈ funWorkList, f ∉ dropWaiting G funWorkList finalCandidates := by
  induction funWorkList, finalCandidates using dropWaiting.induct G with
  | case1 fc => simp
  | case2 f wl fc hf ih =>
    rw [dropWaiting, if_pos hf]
    intro g hg
    rcases List.mem_cons.1 hg with rfl | hg
    · exact fun hmem => (mem_reset.1 (dropWaiting_subset _ _ _ hmem)).2 rfl
    · exact ih g (List.mem_append_right _ hg)
  | case3 f wl fc hf ih =>
    rw [dropWaiting, if_neg hf]
    intro g hg
    rcases List.mem_cons.1 hg with rfl | hg
    · exact fun hmem => hf (dropWaiting_subset _ _ _ hmem)
    · exact ih g hg

/-- The callers of a dropped candidate are not collected. -/
theorem caller_not_mem_dropWaiting (funWorkList finalCandidates : List F) :
    ∀ f ∈ finalCandidates, f ∉ dropWaiting G funWorkList finalCandidates →
      ∀ c ∈ callerFunctions G f, c ∉ dropWaiting G funWorkList finalCandidates := by
  induction funWorkList, finalCandidates using dropWaiting.induct G with
  | case1 fc =>
    intro f hf hn
    rw [dropWaiting] at hn
    exact absurd hf hn
  | case2 f wl fc hf ih =>
    rw [dropWaiting, if_pos hf]
    intro g hg hn c hc
    by_cases h : g = f
    · subst h
      exact not_mem_dropWaiting _ _ c (List.mem_append_left _ (List.mem_reverse.2 hc))
    · exact ih g (mem_reset.2 ⟨hg, h⟩) hn c hc
  | case3 f wl fc hf ih =>
    rw [dropWaiting, if_neg hf]
    exact ih

/-- **A function with a live pair is not collected.** -/
theorem not_live_of_collectable (hi : Inv P G .nothing .nothing S H)
    (hgc : P.config.enableJumpFunctionGC ≠ .disabled) (hc : S.callWL = []) {p : D × F}
    (hp : Live G .nothing S p) : p.2 ∉ getCollectableFunctions G S := by
  unfold getCollectableFunctions
  induction hp with
  | @pending k f hm =>
    intro hmem
    have hcount := (List.mem_filter.1 (dropWaiting_subset _ _ _ hmem)).2
    rw [decide_eq_true_eq, hi.refCount hgc, List.length_eq_zero_iff, List.filter_eq_nil_iff] at hcount
    exact hcount _ hm (by simp [pairOf])
  | callWL hm => simp [hc] at hm
  | key h => exact h.elim
  | call h => exact h.elim
  | @caller j hj hl ih =>
    obtain ⟨d₂, f, hen, -, -⟩ := hi.job hj
    have hcaller : (caller G j).2 ∈ callerFunctions G (entered j).2 :=
      List.mem_map.2 ⟨j.callSite, (G.mem_getCallersOf _ _).2 ⟨hen.1, hen.2.1⟩, rfl⟩
    by_cases hcount : S.refCountPerFunction (entered j).2 = 0
    · refine caller_not_mem_dropWaiting _ _ _ (List.mem_filter.2 ⟨hi.candidate hgc hl, ?_⟩) ih _
        hcaller
      simpa using hcount
    · refine not_mem_dropWaiting _ _ _ (List.mem_reverse.2 (List.mem_flatMap.2 ⟨_, ?_, hcaller⟩))
      exact List.mem_filter.2 ⟨hi.candidate hgc hl, by simpa using hcount⟩

theorem removeJumpFunctionsFor_eq (S : IterativeIDESolver N F D E) (inst : N) :
    ∃ T, removeJumpFunctionsFor P G S inst = { S with jumpFunctions := T } ∧
      ∀ n, T n = if n = inst ∧ keepAnalysisInformationAt P G false inst = false then .empty
        else S.jumpFunctions n := by
  unfold removeJumpFunctionsFor
  split_ifs with h
  · exact ⟨S.jumpFunctions, rfl, fun n => by simp [h]⟩
  · refine ⟨_, rfl, fun n => ?_⟩
    by_cases hn : n = inst
    · subst hn
      simp [h]
    · simp [hn]

theorem foldl_removeJumpFunctionsFor (l : List N) (S : IterativeIDESolver N F D E) :
    ∃ T, l.foldl (removeJumpFunctionsFor P G) S = { S with jumpFunctions := T } ∧
      ∀ n, T n = if n ∈ l ∧ keepAnalysisInformationAt P G false n = false then .empty
        else S.jumpFunctions n := by
  induction l generalizing S with
  | nil => exact ⟨S.jumpFunctions, rfl, by simp⟩
  | cons inst t ih =>
    obtain ⟨T, hT, hget⟩ := removeJumpFunctionsFor_eq (P := P) (G := G) S inst
    obtain ⟨T', hT', hget'⟩ := ih { S with jumpFunctions := T }
    refine ⟨T', by rw [List.foldl_cons, hT, hT'], fun n => ?_⟩
    simp only [hget', hget]
    by_cases hn : n = inst
    · subst hn
      by_cases hk : keepAnalysisInformationAt P G false n = false <;> simp [hk]
    · simp [hn]

/-- The jump functions that collecting a function leaves. -/
theorem stored_collectFunction (S : IterativeIDESolver N F D E) (g : F) (k : PathEdge N D) :
    (collectFunction P G S g).stored k =
      if G.getFunctionOf k.target = g ∧ keepAnalysisInformationAt P G false k.target = false then none
      else S.stored k := by
  obtain ⟨T, hT, hget⟩ := foldl_removeJumpFunctionsFor (P := P) (G := G)
    (G.getAllInstructionsOf g) S
  have hfun : k.target ∈ G.getAllInstructionsOf g ↔ G.getFunctionOf k.target = g :=
    G.mem_getAllInstructionsOf _ _
  unfold collectFunction
  simp only [hT, stored, hget, hfun]
  split_ifs <;> rfl

/-- What collecting a function leaves alone. -/
theorem collectFunction_eq (S : IterativeIDESolver N F D E) (g : F) :
    ∃ T, collectFunction P G S g = { S with
      jumpFunctions := T
      sourceFactAndFuncToInterJob := fun fact callee =>
        if callee = g then [] else S.sourceFactAndFuncToInterJob fact callee
      candidateFunctionsForGC := reset S.candidateFunctionsForGC g } := by
  obtain ⟨T, hT, -⟩ := foldl_removeJumpFunctionsFor (P := P) (G := G) (G.getAllInstructionsOf g) S
  exact ⟨T, by rw [collectFunction, hT]⟩

/-- **Collecting a function without live pairs keeps the invariant**, with the history as it is. -/
theorem Inv.collectFunction {g : F} (hi : Inv P G .nothing .nothing S H)
    (hgc : P.config.enableJumpFunctionGC ≠ .disabled) (hg : ∀ p, Live G .nothing S p → p.2 ≠ g)
    (hS : S' = IterativeIDESolver.collectFunction P G S g) :
    Inv P G .nothing .nothing S' H ∧ (∀ p, Live G .nothing S' p → Live G .nothing S p) := by
  have hst := stored_collectFunction (P := P) (G := G) S g
  rw [← hS] at hst
  obtain ⟨T, hT⟩ := collectFunction_eq (P := P) (G := G) S g
  rw [hT] at hS
  have hlive : ∀ p, Live G .nothing S' p → Live G .nothing S p := by
    intro p hp
    subst hS
    exact hp.congr (by rfl) (by rfl) (by rfl)
  subst hS
  refine ⟨?_, hlive⟩
  exact
    { stored_eq := fun {k f} hf => by
        rw [hst] at hf
        split_ifs at hf
        exact hi.stored_eq hf
      kept := fun {k} hk => by
        rw [hst, if_neg, hi.kept hk]
        rintro ⟨-, hn⟩
        rcases hk with h | h
        · exact hgc h
        · simp [h] at hn
      val := hi.val
      sound := hi.sound
      pending := hi.pending
      un := hi.un
      registered := hi.registered
      job := hi.job
      start := fun hj => (hi.start hj).imp_right fun h => h.1.elim
      linked := fun {j} hj => by
        rcases hi.linked hj with h | h | h
        -- the jobs of `g` are dropped, and no live call enters it
        · by_cases hcallee : j.callee = g
          · exact Or.inr (Or.inr ⟨hgc, fun hl => hg _ (hlive _ hl) hcallee⟩)
          · exact Or.inl (by simpa [hcallee] using h)
        · exact h.elim
        · exact Or.inr (Or.inr ⟨h.1, fun hl => h.2 (hlive _ hl)⟩)
      listed := fun {j d callee} hj => by
        by_cases hcallee : callee = g
        · simp [hcallee] at hj
        · exact hi.listed (by simpa [hcallee] using hj)
      returned := hi.returned
      table := hi.table
      table_sound := hi.table_sound
      candidate := fun hgc p hp =>
        mem_reset.2 ⟨hi.candidate hgc (hlive p hp), hg p (hlive p hp)⟩
      refCount := hi.refCount }

/-- **Garbage collection keeps the invariant**, with the history as it is. -/
theorem Inv.runGC (hi : Inv P G .nothing .nothing S H)
    (hgc : P.config.enableJumpFunctionGC ≠ .disabled) (hc : S.callWL = [])
    (hS : S' = IterativeIDESolver.runGC P G S) :
    Inv P G .nothing .nothing S' H ∧ S'.workList = S.workList ∧ S'.callWL = S.callWL := by
  have hall := fun p hp => not_live_of_collectable hi hgc hc (p := p) hp
  have h := LoopRule.foldl_preserve (f := IterativeIDESolver.collectFunction P G)
    (I := fun s => (Inv P G .nothing .nothing s H ∧ ∀ p, Live G .nothing s p → Live G .nothing S p) ∧
      s.workList = S.workList ∧ s.callWL = S.callWL) (getCollectableFunctions G S)
    (fun g hg s hs => by
      obtain ⟨hi', hlive⟩ := hs.1.1.collectFunction hgc
        (fun p hp heq => hall p (hs.1.2 p hp) (heq ▸ hg)) rfl
      obtain ⟨T, hT⟩ := collectFunction_eq (P := P) (G := G) s g
      refine ⟨⟨hi', fun p hp => hs.1.2 p (hlive p hp)⟩, ?_⟩
      rw [hT]
      exact hs.2)
    (s := S) ⟨⟨hi, fun _ h => h⟩, rfl, rfl⟩
  subst hS
  exact ⟨h.1.1, h.2⟩

/-- **Draining keeps the invariant**; a new job on the work list comes with a new path edge. -/
theorem Inv.drained {calls : List (D × F)} (hi : Inv P G .nothing .nothing S H) (hP : Setting P)
    (hS : S' = IterativeIDESolver.drained P G S calls) (hperm : calls.Perm S.callWL)
    (hw : S.workList = []) :
    ∃ H', Inv P G .nothing .nothing S' H' ∧ S'.callWL = [] ∧
      (∀ k f, H k = some f → Covers (H' k) f) ∧ (S'.workList ≠ [] → H ≠ H') := by
  have hhist : hist H S = H := by
    funext k
    cases hk : S.stored k with
    | none => simp [hist, hk]
    | some f => simp [hist, hk, hi.stored_eq hk]
  rw [← hhist] at hi
  obtain ⟨hi₁, hle⟩ := hi.processInterJobs hP rfl hperm
  generalize hS₁ : IterativeIDESolver.processInterJobs P G S calls = S₁ at hi₁ hle
  have hgrow : ∀ k f, H k = some f → Covers (hist H S₁ k) f := fun k f hf =>
    hle.hist (by rw [← hhist] at hf; exact hf)
  have hnew : S₁.workList ≠ [] → H ≠ hist H S₁ := by
    intro hne heq
    refine hne ((hle.quiet ?_).trans hw)
    -- a jump function that has changed is one that is kept
    funext k
    by_contra hk
    cases hs : S₁.stored k with
    | none =>
      cases hs' : S.stored k with
      | none => exact hk (hs.trans hs'.symm)
      | some f => simpa [hs] using hle.raised (k := k) hs'
    | some f =>
      rcases hle.changed hs with h | ⟨-, hkept⟩
      · exact hk (hs.trans h.symm)
      · exact hk ((hi₁.kept hkept).trans ((congrFun (heq.symm.trans hhist.symm) k).trans
          (hi.kept hkept).symm))
  have hdrain : S' = if P.config.enableJumpFunctionGC = .disabled then S₁
      else IterativeIDESolver.runGC P G S₁ := by
    rw [hS, IterativeIDESolver.drained, hS₁]
  split_ifs at hdrain with hgc
  · subst hdrain
    exact ⟨_, hi₁, hle.callWL, hgrow, hnew⟩
  · obtain ⟨hi₂, hw₂, hc₂⟩ := hi₁.runGC hgc hle.callWL hdrain
    refine ⟨_, hi₂, hc₂.trans hle.callWL, hgrow, ?_⟩
    rwa [hw₂]

end IterativeIDESolver

end Phasar
