import Phasar.IfdsIde.IterativeDrain

/-!
# Runs of the iterative solver

The invariant over whole runs. The history of a run grows with each batch of deferred returns that
puts anything on the work list; between two batches the stored jump functions grow or the work list
shrinks. So a run ends, and at its end the history is closed under the tabulation rules.

* `inv_of_reachable`: the invariant in every reachable state;
* `acc_of_inv`, `exists_finished`: every run ends, with `doNext` returning false;
* `finished_of_run`: the executable loop is such a run;
* `Saturated`, `saturated_of_finished`: what holds at the end.
-/

set_option linter.unusedSectionVars false

namespace Phasar

namespace IterativeIDESolver

open Deduction

variable {N F D E L : Type*} [DecidableEq N] [DecidableEq F] [DecidableEq D] [DecidableEq E]
  [SemilatticeSup E] {P : IterativeProblem N F D E L} {G : ICFG N F}
  {S S' : IterativeIDESolver N F D E} {H H' : PathEdge N D → Option E}

/-! ### The initial state -/

/-- The state without any path edge. -/
theorem inv_of_empty {S : IterativeIDESolver N F D E} (hw : S.workList = [])
    (hj : S.allInterPropagations = []) (hc : S.callWL = [])
    (hl : ∀ d g, S.sourceFactAndFuncToInterJob d g = []) (hs : ∀ k, S.stored k = none)
    (hv : ∀ n d, S.valTab n d = false) (ht : ∀ g d, S.endSummaryTab g d = .empty)
    (hr : ∀ f, S.refCountPerFunction f = 0) :
    Inv P G .nothing .nothing S (hist (fun _ => none) S) := by
  have hH : ∀ k, hist (fun _ => none) S k = none := fun k => by simp [hist, hs]
  have htodo : ∀ k f, ¬ ToDo .nothing S k f := by
    rintro k f (h | h)
    · simp [hw] at h
    · exact h
  have hlive : ∀ p, ¬ Live G .nothing S p := by
    intro p hp
    induction hp with
    | pending h => simp [hw] at h
    | callWL h => simp [hc] at h
    | key h => exact h
    | call h => exact h
    | caller _ _ ih => exact ih
  exact
    { stored_eq := fun h => by simp [hs] at h
      kept := fun _ => by rw [hs, hH]
      val := by simp [hv, hH]
      sound := fun k e h => by simp [hH] at h
      pending := fun h => absurd h (htodo _ _)
      un := fun h => by simp [hH] at h
      registered := fun h => by simp [hH] at h
      job := fun h => by simp [hj] at h
      start := fun h => by simp [hj] at h
      linked := fun h => by simp [hj] at h
      listed := fun h => by simp [hl] at h
      returned := fun h => by simp [hj] at h
      table := fun _ _ _ _ _ _ _ h => by simp [hH] at h
      table_sound := fun _ _ _ _ _ h => by simp [ht] at h
      candidate := fun _ p h => absurd h (hlive p)
      refCount := fun _ f => by simp [hr, hw] }

/-- The seeds are in the history. -/
def Seeded (P : IterativeProblem N F D E L) (G : ICFG N F) (H : PathEdge N D → Option E) : Prop :=
  ∀ k e, (rules P G).ax k e → Has P H k e

/-- The initial state. -/
theorem inv_init (hP : Setting P) :
    ∃ H, Inv P G .nothing .nothing (init P G) H ∧ Seeded P G H := by
  unfold init
  generalize hS₀ : ({
    workList := [], allInterPropagations := [], callWL := [],
    sourceFactAndFuncToInterJob := fun _ _ => [], jumpFunctions := fun _ => .empty,
    endSummaryTab := fun _ _ => .empty, valTab := fun _ _ => false,
    refCountPerFunction := fun _ => 0, candidateFunctionsForGC := [] } :
      IterativeIDESolver N F D E) = S₀
  have hi₀ : Inv P G .nothing .nothing S₀ (hist (fun _ => none) S₀) := by
    subst hS₀
    exact inv_of_empty rfl rfl rfl (fun _ _ => rfl) (fun _ => rfl) (fun _ _ => rfl) (fun _ _ => rfl)
      (fun _ => rfl)
  have hj₀ : S₀.allInterPropagations = [] := by
    subst hS₀
    rfl
  -- seeds make no jobs
  have hstep : ∀ entry ∈ P.initialSeeds.entries, ∀ s s' : IterativeIDESolver N F D E,
      Inv P G .nothing .nothing s (hist (fun _ => none) s) ∧ s.allInterPropagations = [] →
      s' = storeAll P G (G.getFunctionOf entry.1) s
        (entry.2.entries.map fun fact => (⟨fact.1, entry.1, fact.1⟩, P.identity)) →
      (Inv P G .nothing .nothing s' (hist (fun _ => none) s') ∧
        Le (fun _ => True) (fun _ => none) s s') ∧
        ∀ d ∈ entry.2.keys, Has P (hist (fun _ => none) s') ⟨d, entry.1, d⟩ P.identity := by
    intro entry hentry s s' hs hs'
    have hseed : ∀ i ∈ entry.2.entries.map fun fact =>
        ((⟨fact.1, entry.1, fact.1⟩, P.identity) : PathEdge N D × E),
        G.getFunctionOf i.1.target = G.getFunctionOf entry.1 ∧ True ∧
          (dropped P i.2 ∨ i.2 ∈ Reached (rules P G) (dropped P) i.1) := by
      intro i hm
      obtain ⟨fact, hfact, rfl⟩ := List.mem_map.1 hm
      refine ⟨rfl, trivial, or_iff_not_imp_left.2 fun hz => reached_of_deriv (.ax ?_ hz)⟩
      exact ⟨⟨entry.2, hentry, List.mem_map.2 ⟨fact, hfact, rfl⟩⟩, rfl, rfl⟩
    obtain ⟨hinv, hhas⟩ := hs.1.storeAll hP (A := fun _ => True) hs' hseed fun i hm t ht => Or.inr fun j hj => by
      simp [ht, hs.2] at hj
    refine ⟨hinv, fun d hd => ?_⟩
    obtain ⟨fact, hfact, rfl⟩ := List.mem_map.1 hd
    exact hhas (⟨fact.1, entry.1, fact.1⟩, P.identity) (List.mem_map.2 ⟨fact, hfact, rfl⟩)
  obtain ⟨⟨hi, -⟩, hhas⟩ := LoopRule.foldl_establish
    (I := fun s => Inv P G .nothing .nothing s (hist (fun _ => none) s) ∧
      s.allInterPropagations = [])
    (Q := fun entry s => ∀ d ∈ entry.2.keys,
      Has P (hist (fun _ => none) s) ⟨d, entry.1, d⟩ P.identity) P.initialSeeds.entries
    (fun entry hentry s hs => by
      obtain ⟨⟨hi, -⟩, hhas⟩ := hstep entry hentry s _ hs rfl
      exact ⟨⟨hi, by rw [allInterPropagations_storeAll, hs.2]⟩, hhas⟩)
    (fun entry hentry entry' _ s hs hhas d hd => by
      exact (hstep entry hentry s _ hs rfl).1.2.has (hhas d hd)) ⟨hi₀, hj₀⟩
  refine ⟨_, hi, ?_⟩
  rintro ⟨d₁, n, d₂⟩ e ⟨⟨facts, hfacts, hd⟩, hd₂, rfl⟩
  obtain rfl : d₂ = d₁ := hd₂
  exact hhas (n, facts) hfacts d₂ hd

/-! ### Steps -/

theorem hist_of_inv {O : Open N F D E} {J : Starting N F D E} (hi : Inv P G O J S H) :
    hist H S = H := by
  funext k
  cases hk : S.stored k with
  | none => simp [hist, hk]
  | some f => simp [hist, hk, hi.stored_eq hk]

/-- What a step keeps, and in which sense it is progress. -/
structure Advances (P : IterativeProblem N F D E L) (G : ICFG N F) (S : IterativeIDESolver N F D E)
    (H : PathEdge N D → Option E) (S' : IterativeIDESolver N F D E) (H' : PathEdge N D → Option E) :
    Prop where
  inv : Inv P G .nothing .nothing S' H'
  covers : ∀ k f, H k = some f → Covers (H' k) f
  progress : H ≠ H' ∨ (withBot S.stored < withBot S'.stored ∨
    S.stored = S'.stored ∧ S'.workList.length < S.workList.length)

theorem advances_take {l r : List (PathEdge N D × E)} {k : PathEdge N D} {f : E}
    (hi : Inv P G .nothing .nothing S H) (hP : Setting P) (hw : S.workList = l ++ (k, f) :: r)
    (hS : S' = propagate P G { S with workList := l ++ r } k f) : ∃ H', Advances P G S H S' H' := by
  have hhist := hist_of_inv hi
  rw [← hhist] at hi
  obtain ⟨hi', hg⟩ := hi.propagate hP hw hS
  refine ⟨_, hi', fun k f hf => hg.hist ?_, Or.inr ?_⟩
  · rw [← hhist] at hf
    exact hf
  · by_cases heq : S'.stored = S.stored
    · refine Or.inr ⟨heq.symm, ?_⟩
      rw [hg.quiet heq, hw]
      simp
    · exact Or.inl (withBot_lt (fun k e he => hg.raised he) (Ne.symm heq))

/-- **A step keeps the invariant and makes progress.** -/
theorem advances_of_step (hi : Inv P G .nothing .nothing S H) (hP : Setting P)
    (hs : Step P G S S') : ∃ H', Advances P G S H S' H' := by
  cases hs with
  | take l r k f hw => exact advances_take hi hP hw rfl
  | drain calls l r k f hw hperm hd =>
    obtain ⟨H₁, hi₁, -, hcov₁, hne⟩ := hi.drained hP rfl hperm hw
    obtain ⟨H₂, hi₂, hcov₂, -⟩ := advances_take hi₁ hP hd rfl
    have hne₁ := hne (by simp [hd])
    refine ⟨H₂, hi₂, fun k f hf => ?_, Or.inl fun heq => hne₁ ?_⟩
    · obtain ⟨f₁, hf₁, hle⟩ := hcov₁ k f hf
      exact (hcov₂ k f₁ hf₁).mono hle
    · -- the history only grows
      have hle := withBot_lt hcov₁ hne₁
      by_cases h : H₁ = H₂
      · exact heq.trans h.symm
      · exact absurd (heq ▸ hle.trans (withBot_lt hcov₂ h)) (lt_irrefl _)

theorem Seeded.mono (h : Seeded P G H) (hcov : ∀ k f, H k = some f → Covers (H' k) f) :
    Seeded P G H' := by
  intro k e hax
  rcases h k e hax with hd | ⟨f, hf, hle⟩
  · exact Or.inl hd
  · exact Or.inr ((hcov k f hf).mono hle)

/-- **The invariant holds in every reachable state.** -/
theorem inv_of_reachable (hP : Setting P) (hS : Reachable P G S) :
    ∃ H, Inv P G .nothing .nothing S H ∧ Seeded P G H := by
  induction hS with
  | init => exact inv_init hP
  | step _ hs ih =>
    obtain ⟨H, hi, hseed⟩ := ih
    obtain ⟨H', ha⟩ := advances_of_step hi hP hs
    exact ⟨H', ha.inv, hseed.mono ha.covers⟩

/-! ### Termination -/

/-- **Every run from a state with the invariant ends.** -/
theorem acc_of_inv [Finite N] [Finite D] [WellFoundedGT E] (hP : Setting P)
    (hi : Inv P G .nothing .nothing S H) : Acc (fun S' S => Step P G S S') S := by
  have hwf := wellFounded_of_rounds
    (r := fun p q : IterativeIDESolver N F D E × (PathEdge N D → Option E) =>
      Advances P G p.1 p.2 q.1 q.2)
    (fun p => withBot p.2) (fun p => withBot p.1.stored) (fun p => p.1.workList.length)
    (fun p q ha => by
      by_cases heq : p.2 = q.2
      · refine Or.inr ⟨by rw [heq], ?_⟩
        exact (ha.progress.resolve_left (not_not_intro heq)).imp_right fun h => ⟨by rw [h.1], h.2⟩
      · exact Or.inl (withBot_lt ha.covers heq))
  have key : ∀ p : IterativeIDESolver N F D E × (PathEdge N D → Option E),
      Inv P G .nothing .nothing p.1 p.2 → Acc (fun S' S => Step P G S S') p.1 := by
    intro p
    induction p using hwf.induction with
    | _ p ih =>
      intro hp
      refine Acc.intro _ fun S' hs => ?_
      obtain ⟨H', ha⟩ := advances_of_step hp hP hs
      exact ih (S', H') ha ha.inv
  exact key (S, H) hi

/-- A run goes on, or `doNext` returns false. -/
theorem step_or_finishes (S : IterativeIDESolver N F D E) :
    (∃ S', Step P G S S') ∨ ∃ S', Finishes P G S S' := by
  cases hw : S.workList with
  | cons i t => exact Or.inl ⟨_, .take [] t i.1 i.2 hw⟩
  | nil =>
    cases hd : (drained P G S S.callWL).workList with
    | cons i t => exact Or.inl ⟨_, .drain S.callWL [] t i.1 i.2 hw (.refl _) hd⟩
    | nil => exact Or.inr ⟨_, hw, S.callWL, .refl _, rfl, hd⟩

/-- **Every run can be carried on to its end.** -/
theorem exists_finished [Finite N] [Finite D] [WellFoundedGT E] (hP : Setting P)
    (hS : Reachable P G S) : ∃ S', Finished P G S' := by
  obtain ⟨H, hi, -⟩ := inv_of_reachable hP hS
  induction acc_of_inv hP hi generalizing H with
  | intro S _ ih =>
    rcases step_or_finishes (P := P) (G := G) S with ⟨S', hs⟩ | ⟨S', hf⟩
    · obtain ⟨H', ha⟩ := advances_of_step hi hP hs
      exact ih S' hs (hS.step hs) H' ha.inv
    · exact ⟨S', S, hS, hf⟩

theorem popNext_eq_none {S : IterativeIDESolver N F D E} (h : popNext P G S = none) :
    S.workList = [] := by
  simpa [popNext] using h

theorem popNext_eq_some {S S' : IterativeIDESolver N F D E} (h : popNext P G S = some S') :
    ∃ l i, S.workList = l ++ [i] ∧ S' = propagate P G { S with workList := l } i.1 i.2 := by
  obtain ⟨i, hi, rfl⟩ := Option.map_eq_some_iff.1 h
  obtain ⟨l, hl⟩ := List.getLast?_eq_some_iff.1 hi
  exact ⟨l, i, hl, by simp [hl]⟩

/-- `doNext` is a step, or finishes. -/
theorem doNext_cases (S : IterativeIDESolver N F D E) :
    ((doNext P G S).2 = true ∧ Step P G S (doNext P G S).1) ∨
      ((doNext P G S).2 = false ∧ Finishes P G S (doNext P G S).1) := by
  unfold doNext
  cases hp : popNext P G S with
  | some S' =>
    obtain ⟨l, i, hw, rfl⟩ := popNext_eq_some hp
    have hs := Step.take (P := P) (G := G) l [] i.1 i.2 hw
    exact Or.inl ⟨rfl, by simpa using hs⟩
  | none =>
    have hw := popNext_eq_none hp
    cases hd : popNext P G (drained P G S S.callWL) with
    | some S' =>
      obtain ⟨l, i, hwd, rfl⟩ := popNext_eq_some hd
      have hs := Step.drain (P := P) (G := G) S.callWL l [] i.1 i.2 hw (.refl _) hwd
      refine Or.inl ⟨by simp [hd], ?_⟩
      simpa [hd] using hs
    | none =>
      refine Or.inr ⟨by simp [hd], ?_⟩
      simp only [hd]
      exact ⟨hw, S.callWL, .refl _, rfl, popNext_eq_none hd⟩

/-- What `run` returns is the end of a run. -/
theorem finished_of_run {fuel : ℕ} (hS : Reachable P G S) (h : run P G fuel S = some S') :
    Finished P G S' := by
  induction fuel generalizing S with
  | zero => simp [run] at h
  | succ fuel ih =>
    simp only [run] at h
    rcases doNext_cases (P := P) (G := G) S with ⟨hb, hs⟩ | ⟨hb, hf⟩
    · rw [if_pos hb] at h
      exact ih (hS.step hs) h
    · rw [if_neg (by simp [hb])] at h
      exact ⟨S, hS, Option.some.inj h ▸ hf⟩

/-! ### The end of a run -/

/-- What holds when the solver is done: the history is closed under the rules and sound, and the
tables hold what they should. -/
structure Saturated (P : IterativeProblem N F D E L) (G : ICFG N F) (S : IterativeIDESolver N F D E)
    (H : PathEdge N D → Option E) : Prop where
  closed : Closed (rules P G) (dropped P) H
  sound : Sound (rules P G) (dropped P) H
  kept : ∀ k : PathEdge N D, Kept P G k.target → S.stored k = H k
  val : ∀ n d, S.valTab n d = true ↔ ∃ d₁, H ⟨d₁, n, d⟩ ≠ none

theorem closed_of_inv (hP : Setting P) (hi : Inv P G .nothing .nothing S H) (hseed : Seeded P G H)
    (hw : S.workList = []) (hc : S.callWL = []) : Closed (rules P G) (dropped P) H := by
  have htodo : ∀ {k f}, ¬ ToDo .nothing S k f := by
    rintro k f (h | h)
    · simp [hw] at h
    · exact h
  refine ⟨fun hax hz => (hseed _ _ hax).resolve_left hz,
    fun hr hk hz => ((hi.un hk hr).resolve_right htodo).resolve_left hz, ?_⟩
  rintro _ _ _ _ f s ⟨hen, he, he', hmix, hr, hd⟩ hf hs hz
  rename_i d₁ c d₂ g d₃ e e' d₄ r d₅
  have hj := (hi.registered hf hen).resolve_right htodo
  -- the summary that the return flow of `e'` has been applied to
  obtain ⟨s', hs', hle⟩ : ∃ s', summaryOf P S H g d₃ e' d₄ = some s' ∧ s ≤ s' := by
    cases ht : P.config.useEndSummaryTab with
    | true =>
      obtain ⟨s', hs', hle⟩ := (hi.table ht he hs).resolve_right htodo
      exact ⟨s', by simpa [summaryOf, ht] using hs', hle⟩
    | false =>
      obtain rfl : e = e' := hmix.resolve_left (by simp [ht])
      exact ⟨s, by simpa [summaryOf, ht] using hs, le_rfl⟩
  have hret := (hi.returned hj he' hs').resolve_right (by
    rintro (h | h | h)
    · exact htodo h.2
    · exact h.elim (by simp [hc]) id
    · exact h)
  have hform : ∀ x, returnEF P ⟨P.extend f (P.getCallEdgeFunction c d₂ g d₃), d₁, g, c, d₃⟩ e' d₄ r d₅ x
      = P.extend f (P.extend (P.extend (P.getCallEdgeFunction c d₂ g d₃) x)
        (P.getReturnEdgeFunction c g e' d₄ r d₅)) := by
    intro x
    simp only [returnEF, hP.law.extend_assoc]
  have hret' : ReturnEdge P.cachedFlows P.toEdgeFunctions G (mixedExits P) ⟨d₁, c, d₂⟩ ⟨d₃, e, d₄⟩
      ⟨d₁, r, d₅⟩ _ := .mk hen he he' hmix hr hd
  have hmono := monotone_of_distrib (f := fun x => P.extend f (P.extend
    (P.extend (P.getCallEdgeFunction c d₂ g d₃) x) (P.getReturnEdgeFunction c g e' d₄ r d₅)))
    (hP.distributive.bin_right hret' f) hle
  have hhas := hret r hr d₅ hd
  rw [hform] at hhas
  rcases hhas with hd' | hcov
  · exact absurd (zero_of_le hP.dropped_le hd' hmono) hz
  · exact hcov.mono hmono

/-- **When `doNext` has returned false, the history is closed under the rules.** -/
theorem saturated_of_finished (hP : Setting P) (hS : Finished P G S) :
    ∃ H, Saturated P G S H := by
  obtain ⟨S₀, hS₀, hw₀, calls, hperm, hS, hw⟩ := hS
  obtain ⟨H₀, hi₀, hseed₀⟩ := inv_of_reachable hP hS₀
  obtain ⟨H, hi, hc, hcov, -⟩ := hi₀.drained hP hS hperm hw₀
  exact ⟨H, closed_of_inv hP hi (hseed₀.mono hcov) hw hc, hi.sound, fun k hk => hi.kept hk,
    fun n d => hi.val⟩

end IterativeIDESolver

end Phasar
