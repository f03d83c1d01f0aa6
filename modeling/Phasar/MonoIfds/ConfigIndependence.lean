import Phasar.MonoIfds.MonoIFDSSolver

/-!
# Configurations of the `MonoIFDSSolver`

The results may not depend on the configuration, and an item that is pushed to a `TopoFixpointDriver` has to
be in its order. But the order that `computeFixpointForSCC` computes is never handed to the driver: the first
start point that is pushed to it is not in its order.

* `Agrees`, `ConfigIndependent`;
* `Quiet`, `Idle`, `solveFrom_quiet`: without start points nothing is pushed;
* `startPoints_of_solveFrom`: a run with the topological driver that ends has pushed nothing;
* `configIndependent_iff`.
-/

set_option linter.unusedSectionVars false

namespace Phasar.MonoIfds

/-- Loops that may fail, when their invariant says that they do not. -/
theorem foldlM_ok {ε σ α : Type} {f : σ → α → Except ε σ} {I : σ → Prop} (xs : List α)
    (step : ∀ x ∈ xs, ∀ s, I s → ∃ s', f s x = .ok s' ∧ I s') {s : σ} (h : I s) :
    ∃ s', xs.foldlM f s = .ok s' ∧ I s' := by
  induction xs generalizing s with
  | nil => exact ⟨s, rfl, h⟩
  | cons x xs ih =>
    obtain ⟨s₁, hs₁, h₁⟩ := step x List.mem_cons_self s h
    obtain ⟨s₂, hs₂, h₂⟩ := ih (fun y hy => step y (List.mem_cons_of_mem x hy)) h₁
    refine ⟨s₂, ?_, h₂⟩
    rw [List.foldlM_cons, hs₁]
    exact hs₂

theorem bind_eq_ok {ε α β : Type} {x : Except ε α} {f : α → Except ε β} {b : β} :
    (x >>= f) = .ok b ↔ ∃ a, x = .ok a ∧ f a = .ok b := by
  cases x with
  | error e => simp [bind, Except.bind]
  | ok a => simp [bind, Except.bind]

/-- The solvers have the same summaries and leaks, and reported the same results. -/
structure MonoIFDSSolver.Agrees {n : ℕ} {N D : Type} [DecidableEq N] [DecidableEq D]
    (S S' : MonoIFDSSolver n N D) : Prop where
  endSummary : ∀ id d, (S.summaries id).endSummary.get? d = (S'.summaries id).endSummary.get? d
  leakIf : ∀ id leak, (S.summaries id).leakIf.get? leak = (S'.summaries id).leakIf.get? leak
  results : ∀ leak, leak ∈ S.results ↔ leak ∈ S'.results

namespace Setup

variable {N F D : Type} [DecidableEq N] [DecidableEq F] [DecidableEq D]

/-- With every configuration `solve` ends with the same results, and no push misses its precondition. -/
def ConfigIndependent (A : Setup N F D) : Prop :=
  ∃ R : MonoIFDSSolver A.functions.size N D, ∀ config,
    (∃ fuel S, A.solve config fuel = .ok S ∧ S.Agrees R) ∧ ∀ fuel, A.solve config fuel ≠ .error .notInOrder

variable {A : Setup N F D} {config : MonoIfdsConfig} {fuel currSCC : ℕ}

/-! ### Without start points -/

/-- Nothing has been found. -/
structure Quiet (S : MonoIFDSSolver A.functions.size N D) : Prop where
  endSummary : ∀ id, (S.summaries id).endSummary = .empty
  leakIf : ∀ id, (S.summaries id).leakIf = .empty
  results : S.results = []

theorem quiet_new : Quiet (A := A) {} where
  endSummary _ := rfl
  leakIf _ := rfl
  results := rfl

theorem Quiet.agrees {S S' : MonoIFDSSolver A.functions.size N D} (h : Quiet S) (h' : Quiet S') : S.Agrees S' where
  endSummary id d := by rw [h.endSummary, h'.endSummary]
  leakIf id leak := by rw [h.leakIf, h'.leakIf]
  results leak := by rw [h.results, h'.results]

/-- Nothing has been found, and nothing is to be done. -/
structure Idle (acc : A.State × Drivers N) : Prop where
  quiet : Quiet acc.1.toMonoIFDSSolver
  hasNewLeaks : acc.1.hasNewLeaks = []
  hasNewSummary : acc.1.hasNewSummary = []
  vecs : ∀ i, acc.2.defaultDriver.vecs i = []
  max : acc.2.topoDriver.max = ⊥

variable {acc : A.State × Drivers N}

theorem Idle.empty (h : Idle acc) (topo : Bool) : acc.2.empty topo = true := by
  cases topo with
  | true => simp [Drivers.empty, OrderedDriver.empty, h.max]
  | false => simp [Drivers.empty, ArraySet.empty, h.vecs]

/-- The work list is left at once. -/
theorem Idle.run (h : Idle acc) (topo : Bool) (fuel : ℕ)
    (handler : N → A.State × Drivers N → Except Abort (A.State × Drivers N)) :
    ∃ acc', Drivers.run topo handler (fuel + 1) acc = .ok acc' ∧ Idle acc' := by
  obtain ⟨S, drivers⟩ := acc
  unfold Drivers.run
  cases topo with
  | true =>
    have hpop : drivers.topoDriver.pop = .ok (none, drivers.topoDriver) := by
      unfold OrderedDriver.pop
      rw [h.max]
    refine ⟨(S, drivers), ?_, h⟩
    simp only [if_true, hpop]
    rfl
  | false =>
    have hnone : (drivers.defaultDriver.vecs !drivers.defaultDriver.insertIndex)[drivers.defaultDriver.iterIdx]? =
        none := by
      rw [h.vecs]
      rfl
    have hswap : ∀ i, drivers.defaultDriver.swap.vecs i = [] := by
      intro i
      show Function.update drivers.defaultDriver.vecs (!drivers.defaultDriver.insertIndex) [] i = []
      by_cases hi : i = !drivers.defaultDriver.insertIndex
      · rw [hi, Function.update_self]
      · rw [Function.update_of_ne hi, h.vecs]
    refine ⟨(S, { drivers with defaultDriver := drivers.defaultDriver.swap }), ?_, { h with vecs := hswap }⟩
    simp only [hnone, hswap, Bool.false_eq_true, if_false, List.isEmpty_nil, if_true]
    rfl

theorem Idle.rescheduleCalls (h : Idle acc) (config : MonoIfdsConfig) (topo : Bool) :
    ∃ acc', A.rescheduleCalls config topo acc = .ok acc' ∧ Idle acc' := by
  unfold Setup.rescheduleCalls
  rw [h.hasNewSummary]
  split_ifs with hrec
  · exact ⟨acc, rfl, h⟩
  · exact ⟨_, rfl, { h with hasNewSummary := rfl }⟩

theorem Idle.repropagate (h : Idle acc) (topo : Bool) (fuel : ℕ) :
    A.repropagate config currSCC topo (fuel + 1) acc = .ok acc := by
  unfold Setup.repropagate
  rw [if_pos (h.empty topo)]

theorem Idle.repropagateInRecursion (h : Idle acc) (config : MonoIfdsConfig) (currSCC fuel : ℕ) :
    ∃ acc', A.repropagateInRecursion config currSCC (fuel + 1) acc = .ok acc' ∧ Idle acc' := by
  unfold Setup.repropagateInRecursion
  split_ifs with heager
  · exact ⟨acc, rfl, h⟩
  · obtain ⟨acc', hresched, h'⟩ := h.rescheduleCalls config (config.iterStrategy = .topoPrioQueue)
    exact ⟨acc', bind_eq_ok.2 ⟨acc', hresched, h'.repropagate _ fuel⟩, h'⟩

theorem Idle.repropagateLeaks (h : Idle acc) (fuel : ℕ) :
    A.repropagateLeaks currSCC (fuel + 1) acc.1 = .ok acc.1 := by
  unfold Setup.repropagateLeaks
  simp [h.hasNewLeaks]

/-- The seeds of a function without start points: the zero fact gets an id. -/
theorem Idle.submitInitialSeeds (h : Idle acc) (topo : Bool) {funId : Fin A.functions.size}
    (hsp : A.icf.getStartPointsOf (A.functions.fn funId) = []) :
    ∃ acc', A.submitInitialSeeds currSCC topo acc funId = .ok acc' ∧ Idle acc' := by
  unfold Setup.submitInitialSeeds
  simp only [hsp, List.foldlM_nil]
  refine ⟨_, rfl, { h with quiet := ⟨fun id => ?_, fun id => ?_, h.quiet.results⟩ }⟩
  · simp only [IntermediateState.setSummary, Function.update_apply]
    split_ifs
    · exact h.quiet.endSummary funId
    · exact h.quiet.endSummary id
  · simp only [IntermediateState.setSummary, Function.update_apply]
    split_ifs
    · exact h.quiet.leakIf funId
    · exact h.quiet.leakIf id

/-- The seeds of a component without start points. -/
theorem exists_submitInitialSeeds {solver : MonoIFDSSolver A.functions.size N D} (h : Quiet solver) (currSCC : ℕ)
    {currFuns : List (Fin A.functions.size)}
    (hsp : ∀ id ∈ currFuns, A.icf.getStartPointsOf (A.functions.fn id) = []) (topo : Bool) (inRecursion : Bool) :
    ∃ acc, currFuns.reverse.foldlM (A.submitInitialSeeds currSCC topo)
      (({ solver with inRecursion } : A.State), ({} : Drivers N)) = .ok acc ∧ Idle acc := by
  have hstep : ∀ funId ∈ currFuns.reverse, ∀ acc, Idle acc →
      ∃ acc', A.submitInitialSeeds currSCC topo acc funId = .ok acc' ∧ Idle acc' :=
    fun funId hmem acc hacc => hacc.submitInitialSeeds topo (hsp funId (List.mem_reverse.1 hmem))
  exact foldlM_ok _ hstep
    { quiet := h, hasNewLeaks := rfl, hasNewSummary := rfl, vecs := fun _ => rfl, max := rfl }

/-- A component without start points. -/
theorem computeFixpointForSCC_quiet (config : MonoIfdsConfig) (currSCC fuel : ℕ)
    {solver : MonoIFDSSolver A.functions.size N D} (h : Quiet solver) {currFuns : List (Fin A.functions.size)}
    (hsp : ∀ id ∈ currFuns, A.icf.getStartPointsOf (A.functions.fn id) = []) :
    ∃ solver', A.computeFixpointForSCC config currSCC (fuel + 1) solver currFuns = .ok solver' ∧ Quiet solver' := by
  unfold computeFixpointForSCC
  obtain ⟨acc, hacc, hi⟩ := exists_submitInitialSeeds h currSCC hsp
    (useTopoFixpointDriver config currFuns.length) (decide (1 < currFuns.length))
  obtain ⟨acc₁, hrun, hi₁⟩ := hi.run (useTopoFixpointDriver config currFuns.length) fuel
    (A.analyzeBlock config currSCC (useTopoFixpointDriver config currFuns.length) (fuel + 1))
  obtain ⟨acc₂, hrep, hi₂⟩ := hi₁.repropagateInRecursion config currSCC fuel
  refine ⟨acc₂.1.toMonoIFDSSolver, ?_, hi₂.quiet⟩
  refine bind_eq_ok.2 ⟨acc, hacc, bind_eq_ok.2 ⟨acc₁, hrun, bind_eq_ok.2 ⟨acc₂, hrep, ?_⟩⟩⟩
  rw [hi₂.repropagateLeaks]
  rfl

/-- Without start points the results are empty, if there is any fuel for the loops. -/
theorem solveFrom_quiet (config : MonoIfdsConfig) (fuel : ℕ) (sccs : List (List (Fin A.functions.size)))
    (hsp : ∀ scc ∈ sccs, ∀ id ∈ scc, A.icf.getStartPointsOf (A.functions.fn id) = []) (currSCC : ℕ)
    {solver : MonoIFDSSolver A.functions.size N D} (h : Quiet solver) :
    ∃ solver', A.solveFrom config (fuel + 1) currSCC sccs solver = .ok solver' ∧ Quiet solver' := by
  induction sccs generalizing currSCC solver with
  | nil => exact ⟨solver, rfl, h⟩
  | cons scc sccs ih =>
    obtain ⟨solver₁, hs₁, h₁⟩ := computeFixpointForSCC_quiet config currSCC fuel h (hsp scc List.mem_cons_self)
    obtain ⟨solver₂, hs₂, h₂⟩ := ih (fun c hc => hsp c (List.mem_cons_of_mem scc hc)) (currSCC + 1) h₁
    exact ⟨solver₂, bind_eq_ok.2 ⟨solver₁, hs₁, hs₂⟩, h₂⟩

/-- Without fuel the first component is given up, after its seeds. -/
theorem solveFrom_zero (sccs : List (List (Fin A.functions.size)))
    (hsp : ∀ scc ∈ sccs, ∀ id ∈ scc, A.icf.getStartPointsOf (A.functions.fn id) = []) :
    A.solveFrom config 0 0 sccs {} ≠ .error .notInOrder := by
  cases sccs with
  | nil => exact fun h => nomatch h
  | cons scc sccs =>
    obtain ⟨acc, hacc, -⟩ := exists_submitInitialSeeds quiet_new 0 (hsp scc List.mem_cons_self)
      (useTopoFixpointDriver config scc.length) (decide (1 < scc.length))
    have hfixpoint : A.computeFixpointForSCC config 0 0 {} scc = .error .outOfFuel := by
      unfold computeFixpointForSCC
      simp only [hacc]
      rfl
    rw [solveFrom, hfixpoint]
    exact fun h => nomatch h

/-! ### With the topological driver -/

/-- A default-constructed driver takes no item. -/
theorem push_error {drivers : Drivers N} (h : drivers.topoDriver = {}) (item : N) :
    drivers.push true item = .error .notInOrder := by
  unfold Drivers.push
  rw [h]
  rfl

/-- The seeds of a function can only be submitted if there is nothing to push. -/
theorem startPoints_of_submitInitialSeeds {acc acc' : A.State × Drivers N} {funId : Fin A.functions.size}
    (htopo : acc.2.topoDriver = {}) (h : A.submitInitialSeeds currSCC true acc funId = .ok acc') :
    A.icf.getStartPointsOf (A.functions.fn funId) = [] ∧ acc'.2.topoDriver = {} := by
  unfold Setup.submitInitialSeeds at h
  cases hsp : A.icf.getStartPointsOf (A.functions.fn funId) with
  | nil =>
    simp only [hsp, List.foldlM_nil] at h
    cases h
    exact ⟨rfl, htopo⟩
  | cons sp sps =>
    -- the first start point
    simp only [hsp, List.foldlM_cons] at h
    rw [push_error htopo] at h
    cases h

theorem startPoints_of_foldlM {acc acc' : A.State × Drivers N} {funs : List (Fin A.functions.size)}
    (htopo : acc.2.topoDriver = {}) (h : funs.foldlM (A.submitInitialSeeds currSCC true) acc = .ok acc') :
    ∀ id ∈ funs, A.icf.getStartPointsOf (A.functions.fn id) = [] := by
  induction funs generalizing acc with
  | nil => exact fun id hid => absurd hid List.not_mem_nil
  | cons id funs ih =>
    rw [List.foldlM_cons, bind_eq_ok] at h
    obtain ⟨acc₁, hacc₁, h⟩ := h
    obtain ⟨hsp, htopo₁⟩ := startPoints_of_submitInitialSeeds htopo hacc₁
    intro id' hid'
    rcases List.mem_cons.1 hid' with rfl | hid'
    · exact hsp
    · exact ih htopo₁ h id' hid'

/-- **With `TopoPrioQueue` only components without start points are analysed to the end.** -/
theorem startPoints_of_solveFrom (hconfig : config.iterStrategy = .topoPrioQueue)
    {sccs : List (List (Fin A.functions.size))} {solver solver' : MonoIFDSSolver A.functions.size N D}
    (h : A.solveFrom config fuel currSCC sccs solver = .ok solver') :
    ∀ scc ∈ sccs, ∀ id ∈ scc, A.icf.getStartPointsOf (A.functions.fn id) = [] := by
  induction sccs generalizing currSCC solver with
  | nil => exact fun scc hscc => absurd hscc List.not_mem_nil
  | cons scc sccs ih =>
    rw [solveFrom, bind_eq_ok] at h
    obtain ⟨solver₁, h₁, h⟩ := h
    intro scc' hscc' id hid
    rcases List.mem_cons.1 hscc' with rfl | hscc'
    · unfold computeFixpointForSCC at h₁
      rw [useTopoFixpointDriver, hconfig] at h₁
      obtain ⟨acc, hacc, -⟩ := bind_eq_ok.1 h₁
      exact startPoints_of_foldlM rfl hacc id (List.mem_reverse.2 hid)
    · exact ih h scc' hscc' id hid

/-- **The results do not depend on the configuration, and all pushes are in order, exactly if there is nothing
to push.** -/
theorem configIndependent_iff (A : Setup N F D) : A.ConfigIndependent ↔
    ∀ scc ∈ A.sccs.nodesInSCC, ∀ id ∈ scc, A.icf.getStartPointsOf (A.functions.fn id) = [] := by
  constructor
  · rintro ⟨R, h⟩
    obtain ⟨⟨fuel, S, hS, -⟩, -⟩ := h { iterStrategy := .topoPrioQueue }
    exact startPoints_of_solveFrom rfl hS
  · intro hsp
    refine ⟨{}, fun config => ⟨?_, fun fuel => ?_⟩⟩
    · obtain ⟨S, hS, hquiet⟩ := solveFrom_quiet config 0 _ hsp 0 quiet_new
      exact ⟨1, S, hS, hquiet.agrees quiet_new⟩
    · cases fuel with
      | zero => exact solveFrom_zero _ hsp
      | succ fuel =>
        obtain ⟨S, hS, -⟩ := solveFrom_quiet config fuel _ hsp 0 quiet_new
        rw [solve, hS]
        exact fun h => nomatch h

/-- A function that returns at once. -/
def returning : Setup Unit Unit Unit where
  icf := ICFG.ofNodes [()] (by decide) id (fun _ => []) (fun _ => true) (fun _ => true) (fun _ => false)
    (fun _ => []) (by decide) (by decide)
  blocks := none
  functions := ⟨1, fun _ => (), fun _ => some ⟨0, Nat.one_pos⟩, by decide⟩
  sccs := ⟨fun _ => 0, [[⟨0, Nat.one_pos⟩]]⟩
  problem := { localAnalysis := fun _ =>
    { getZeroValue := ()
      normalFlow := fun facts _ => facts
      callToRetFlow := fun facts _ => facts
      returnFlow := fun _ d => [d]
      invCallFlow := fun _ d => [d]
      summaryFlow := fun _ collected _ _ => (false, collected)
      initialSeeds := fun facts seeds _ => (facts, seeds)
      generateFactsAtCall := fun _ _ => []
      generateFacts := fun _ => []
      requestResultCallbackAtCallSite := fun _ _ => []
      requestResultCallback := fun _ => [] } }

/-- Its flow functions leave all facts as they are, but its start point is not in the order of the driver. -/
theorem not_configIndependent :
    ¬ ∀ A : Setup Unit Unit Unit, A.problem.Distributive → A.ConfigIndependent := by
  intro h
  have hdist : returning.problem.Distributive := by
    have hself : FactByFact fun facts : FactMap Unit => facts := ⟨Eq, fun _ _ _ => exists_eq_right.symm⟩
    exact fun _ => ⟨fun _ => hself, fun _ => hself, fun _ _ => ⟨false, fun _ _ => False, by simp [returning]⟩⟩
  obtain ⟨R, hR⟩ := h returning hdist
  exact (hR { iterStrategy := .topoPrioQueue }).2 1 rfl

end Setup

end Phasar.MonoIfds
