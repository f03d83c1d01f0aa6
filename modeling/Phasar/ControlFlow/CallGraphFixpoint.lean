import Mathlib.Data.Fintype.Card
import Mathlib.Data.Fintype.Prod
import Mathlib.Data.Finset.BooleanAlgebra
import Phasar.ControlFlow.LLVMBasedCallGraphBuilder

/-!
# The fixpoint of the call graph

The loops of the builder come to an end, since each round without a fixpoint visits a function or adds an
edge. In the last round all indirect calls are resolved without a new callee.

* `processFunctionWL_inv`, `constructDynamicCalls_inv`, `buildLoop_inv`: the loops;
* `buildCallGraph_spec`: the graph at the end, for a resolver whose results only grow.
-/

namespace Phasar.LLVMBasedCallGraphBuilder

section Fixpoint

variable {σ I F : Type*} [DecidableEq I] [DecidableEq F] {m : Module I F} {r : Resolver σ I F}

/-! ### Runs -/

section Runs

variable {b : Builder σ I F}

/-- The calls of the visited functions have vertices. -/
def Complete (m : Module I F) (b : Builder σ I F) : Prop :=
  ∀ f ∈ b.visitedFunctions, ∀ i ∈ m.instructions f, m.calledOperand i ≠ none → b.cg.calleesAt i ≠ none

omit [DecidableEq I] [DecidableEq F] in
theorem Complete.grows {b' : Builder σ I F} (h : Complete m b)
    (hvis : b'.visitedFunctions = b.visitedFunctions) (hgrows : Grows m b b') : Complete m b' := by
  intro f hf i hi hop
  obtain ⟨l, hl⟩ := Option.ne_none_iff_exists'.1 (h f (hvis ▸ hf) i hi hop)
  obtain ⟨l', hl', -⟩ := hgrows.edges i l hl
  simp [hl']

theorem processFunction_inv (hr : r.Monotone) (hb : Inv m r b) (hc : Complete m b) {f : F} {wl : List F}
    (hwl : b.functionWL = f :: wl) {p : Builder σ I F × Bool}
    (hp : p = processFunction m r f { b with functionWL := wl }) :
    Inv m r p.1 ∧ Complete m p.1 ∧ Grows m b p.1 ∧
      ((p.1.visitedFunctions = b.visitedFunctions ∧ p.1.functionWL = wl ∧ p.2 = true) ∨
        b.visitedFunctions ⊂ p.1.visitedFunctions) := by
  by_cases hskip : m.isDeclaration f ∨ f ∈ b.visitedFunctions
  · have heq : p = ({ b with functionWL := wl }, true) := by
      rw [hp, processFunction, if_pos (by simpa using hskip)]
    have hpending : ∀ g, Pending m b g → Pending m { b with functionWL := wl } g := by
      intro g hg
      simp only [Pending, hwl, List.mem_cons] at hg ⊢
      rcases hg with hg | hg | rfl | hg
      · exact Or.inl hg
      · exact Or.inr (Or.inl hg)
      · exact hskip.imp_right Or.inl
      · exact Or.inr (Or.inr hg)
    rw [heq]
    exact ⟨{ hb with pending := fun cs l hl g hg => hpending g (hb.pending cs l hl g hg) }, hc,
      ⟨fun _ h => h, fun _ l h => ⟨l, h, fun _ hg => hg⟩, hpending⟩, Or.inl ⟨rfl, rfl, rfl⟩⟩
  · set b₁ : Builder σ I F :=
      { b with functionWL := wl, visitedFunctions := insert f b.visitedFunctions,
               cg := b.cg.addFunctionVertex f } with hb₁
    have hp : p = processInstructions m r (m.instructions f) b₁ := by
      rw [hp, processFunction, if_neg (by simpa using hskip)]
    obtain ⟨-, hnew⟩ := not_or.1 hskip
    have hpending : ∀ g, Pending m b g → Pending m b₁ g := by
      intro g hg
      simp only [Pending, hwl, hb₁, List.mem_cons, Finset.mem_insert] at hg ⊢
      tauto
    have hinv₁ : Inv m r b₁ :=
      { hb with
        pending := fun cs l hl g hg => hpending g (hb.pending cs l hl g hg)
        located := fun cs l hl => (hb.located cs l hl).imp fun g hg => ⟨Finset.mem_insert_of_mem hg.1, hg.2⟩
        agree := hb.agree.addFunctionVertex f }
    have hgrows₁ : Grows m b b₁ :=
      ⟨Finset.subset_insert f _, fun _ l h => ⟨l, h, fun _ hg => hg⟩, hpending⟩
    -- an instruction of `f` with a vertex would be one of a visited function
    have hfresh : ∀ i ∈ m.instructions f, i ∈ m.instructions f ∧ b₁.cg.calleesAt i = none := by
      refine fun i hi => ⟨hi, Option.eq_none_iff_forall_ne_some.2 fun l hl => ?_⟩
      obtain ⟨g, hg, hgi⟩ := hb.located i l hl
      exact hnew (m.function_unique f g i hi hgi ▸ hg)
    obtain ⟨hinv, hgrows, hvis, hvertices⟩ := processInstructions_inv hr (m.instructions f) hinv₁
      (Finset.mem_insert_self f _) hfresh (m.nodup_instructions f)
    rw [← hp] at hinv hgrows hvis hvertices
    refine ⟨hinv, ?_, hgrows₁.trans hgrows, Or.inr ?_⟩
    · intro g hg i hi hop
      rcases Finset.mem_insert.1 (hvis ▸ hg) with rfl | hg
      · exact hvertices i hi hop
      · obtain ⟨l, hl⟩ := Option.ne_none_iff_exists'.1 (hc g hg i hi hop)
        obtain ⟨l', hl', -⟩ := hgrows.edges i l hl
        simp [hl']
    · rw [hvis]
      exact Finset.ssubset_insert hnew

theorem processFunctionWL_inv [Fintype F] (hr : r.Monotone) (hb : Inv m r b) (hc : Complete m b) :
    ∃ n b' fixpointReached, (∀ fuel ≥ n, processFunctionWL m r fuel b = some (b', fixpointReached)) ∧
      Inv m r b' ∧ Complete m b' ∧ Grows m b b' ∧ b'.functionWL = [] ∧
      (fixpointReached = false → b.visitedFunctions ⊂ b'.visitedFunctions) := by
  -- each function is either visited now, or the work list gets shorter
  induction hk : b.visitedFunctionsᶜ.card using Nat.strong_induction_on generalizing b with
  | _ k ih =>
    induction hwl : b.functionWL generalizing b with
    | nil =>
      refine ⟨1, b, true, fun fuel hfuel => ?_, hb, hc, Grows.refl b, hwl, by simp⟩
      obtain ⟨fuel, rfl⟩ := Nat.exists_eq_add_of_le' hfuel
      simp [processFunctionWL, hwl]
    | cons f wl ihwl =>
      obtain ⟨hinv, hcomplete, hgrows, hcase⟩ := processFunction_inv hr hb hc hwl rfl
      set p := processFunction m r f { b with functionWL := wl } with hp
      obtain ⟨n, b', fix, hrun, hinv', hcomplete', hgrows', hempty, hfix⟩ :
          ∃ n b' fix, (∀ fuel ≥ n, processFunctionWL m r fuel p.1 = some (b', fix)) ∧ Inv m r b' ∧
            Complete m b' ∧ Grows m p.1 b' ∧ b'.functionWL = [] ∧
            (fix = false → p.1.visitedFunctions ⊂ b'.visitedFunctions) := by
        rcases hcase with ⟨hvis, hrest, -⟩ | hvis
        · exact ihwl hinv hcomplete (by rw [hvis, hk]) hrest
        · exact ih _ (hk ▸ Finset.card_lt_card (Finset.compl_ssubset_compl.2 hvis)) hinv hcomplete rfl
      refine ⟨n + 1, b', p.2 && fix, fun fuel hfuel => ?_, hinv', hcomplete', hgrows.trans hgrows',
        hempty, fun h => ?_⟩
      · obtain ⟨fuel, rfl⟩ := Nat.exists_eq_add_of_le' (Nat.le_of_add_left_le hfuel)
        rw [processFunctionWL, hwl]
        simp only [← hp]
        rw [hrun fuel (Nat.le_of_succ_le_succ hfuel), Option.map_some]
      · rcases hcase with ⟨hvis, -, htrue⟩ | hvis
        · rw [htrue, Bool.true_and] at h
          exact hvis ▸ hfix h
        · exact hvis.trans_subset hgrows'.visited

/-- A pass over indirect calls. -/
theorem constructDynamicCalls_inv (hr : r.Monotone) (css : List I) (hb : Inv m r b) (hc : Complete m b)
    (hcss : ∀ cs ∈ css, m.calledOperand cs = some .value ∧ b.cg.calleesAt cs ≠ none) :
    ∃ b' changed, ChangePass.runAny (constructDynamicCall m r) css b = some (b', changed) ∧ Inv m r b' ∧
      Complete m b' ∧ Grows m b b' ∧
      (changed = true → ∃ cs, ∃ f ∈ b'.cg.callees cs, f ∉ b.cg.callees cs) ∧
      (changed = false → b' = { b with res := b'.res } ∧
        (∀ cs' f, f ∈ resolved r b'.res cs' ↔ f ∈ resolved r b.res cs') ∧
        ∀ cs ∈ css, ∀ f ∈ resolved r b.res cs, f ∈ b.cg.callees cs) := by
  induction css generalizing b with
  | nil => exact ⟨b, false, rfl, hb, hc, Grows.refl b, by simp, fun _ => ⟨rfl, fun _ _ => Iff.rfl, by simp⟩⟩
  | cons cs css ih =>
    obtain ⟨⟨hop, hcs⟩, hcss⟩ := List.forall_mem_cons.1 hcss
    obtain ⟨l, hl⟩ := Option.ne_none_iff_exists'.1 hcs
    obtain ⟨b₁, changed₁, hstep, hinv₁, hgrows₁, hvis₁, hnew₁, hquiet₁⟩ :=
      constructDynamicCall_spec hr hb hop hl
    obtain ⟨b₂, changed₂, hrun, hinv₂, hcomplete₂, hgrows₂, hnew₂, hquiet₂⟩ :=
      ih hinv₁ (hc.grows hvis₁ hgrows₁)
      (fun cs' hcs' => ⟨(hcss cs' hcs').1, fun h => by
        obtain ⟨l', hl'⟩ := Option.ne_none_iff_exists'.1 (hcss cs' hcs').2
        obtain ⟨l'', hl'', -⟩ := hgrows₁.edges cs' l' hl'
        rw [hl''] at h
        cases h⟩)
    refine ⟨b₂, changed₁ || changed₂, ?_, hinv₂, hcomplete₂, hgrows₁.trans hgrows₂, fun h => ?_,
      fun h => ?_⟩
    · simp only [ChangePass.runAny, hstep, hrun, Option.bind_some, Option.map_some]
    · rcases Bool.or_eq_true_iff.1 h with h | h
      · obtain ⟨f, hf, hfl⟩ := hnew₁ h
        exact ⟨cs, f, hgrows₂.callees cs hf, by rwa [CallGraph.callees_of_some hl]⟩
      · obtain ⟨cs', f, hf, hfl⟩ := hnew₂ h
        exact ⟨cs', f, hf, fun h => hfl (hgrows₁.callees cs' h)⟩
    · obtain ⟨h₁, h₂⟩ := Bool.or_eq_false_iff.1 h
      obtain ⟨heq₁, hsame₁, hmem₁⟩ := hquiet₁ h₁
      obtain ⟨heq₂, hsame₂, hmem₂⟩ := hquiet₂ h₂
      have hcg : b₁.cg = b.cg := by rw [heq₁]
      refine ⟨by rw [heq₂, heq₁], fun cs' f => (hsame₂ cs' f).trans (hsame₁ cs' f),
        List.forall_mem_cons.2 ⟨?_, fun cs' hcs' f hf => ?_⟩⟩
      · rwa [CallGraph.callees_of_some hl]
      · exact hcg ▸ hmem₂ cs' hcs' f ((hsame₁ cs' f).2 hf)

variable [Fintype I] [Fintype F]

/-- The functions not visited, and the edges not added. -/
def missing (b : Builder σ I F) : ℕ :=
  b.visitedFunctionsᶜ.card + (Finset.univ.filter fun e : I × F => e.2 ∉ b.cg.callees e.1).card

omit [DecidableEq I] in
theorem missing_lt {b' : Builder σ I F} (hgrows : Grows m b b')
    (h : b.visitedFunctions ⊂ b'.visitedFunctions ∨ ∃ cs, ∃ f ∈ b'.cg.callees cs, f ∉ b.cg.callees cs) :
    missing b' < missing b := by
  have hedges : (Finset.univ.filter fun e : I × F => e.2 ∉ b'.cg.callees e.1) ⊆
      Finset.univ.filter fun e : I × F => e.2 ∉ b.cg.callees e.1 := by
    intro e he
    simp only [Finset.mem_filter, Finset.mem_univ, true_and] at he ⊢
    exact fun h => he (hgrows.callees e.1 h)
  rcases h with h | ⟨cs, f, hf, hfl⟩
  · exact Nat.add_lt_add_of_lt_of_le (Finset.card_lt_card (Finset.compl_ssubset_compl.2 h))
      (Finset.card_le_card hedges)
  · refine Nat.add_lt_add_of_le_of_lt (Finset.card_le_card (Finset.compl_subset_compl.2 hgrows.visited))
      (Finset.card_lt_card (Finset.ssubset_iff_subset_ne.2 ⟨hedges, fun heq => ?_⟩))
    have hmem : (cs, f) ∈ Finset.univ.filter fun e : I × F => e.2 ∉ b.cg.callees e.1 := by simpa using hfl
    rw [← heq] at hmem
    simp [hf] at hmem

theorem buildLoop_inv (hr : r.Monotone) (order : IterationOrder I) (hb : Inv m r b) (hc : Complete m b) :
    ∃ n b', (∀ fuel ≥ n, buildLoop m r order true fuel b = some b') ∧ Inv m r b' ∧ Complete m b' ∧
      Grows m b b' ∧ b'.functionWL = [] ∧
      ∀ cs, b'.indirectCalls.get? cs ≠ none → ∀ f ∈ resolved r b'.res cs, f ∈ b'.cg.callees cs := by
  induction hk : missing b using Nat.strong_induction_on generalizing b with
  | _ k ih =>
    obtain ⟨n₁, b₁, fix, hrun₁, hinv₁, hcomplete₁, hgrows₁, hempty₁, hfix⟩ := processFunctionWL_inv hr hb hc
    have hkeys : ∀ cs ∈ order.order b₁.indirectCalls.keys,
        m.calledOperand cs = some .value ∧ b₁.cg.calleesAt cs ≠ none := by
      intro cs hcs
      obtain ⟨count, hcount⟩ := Option.ne_none_iff_exists'.1
        ((VecMap.mem_keys_iff _ cs).1 ((order.perm _).mem_iff.1 hcs))
      exact hinv₁.indirect cs count hcount
    obtain ⟨b₂, changed, hrun₂, hinv₂, hcomplete₂, hgrows₂, hnew, hquiet⟩ :=
      constructDynamicCalls_inv hr _ hinv₁ hcomplete₁ hkeys
    by_cases hdone : (fix && !changed) = true
    · refine ⟨n₁ + 1, b₂, fun fuel hfuel => ?_, hinv₂, hcomplete₂, hgrows₁.trans hgrows₂, ?_⟩
      · obtain ⟨fuel, rfl⟩ := Nat.exists_eq_add_of_le' (Nat.le_of_add_left_le hfuel)
        simp only [buildLoop, hrun₁ (fuel + 1) (Nat.le_of_succ_le hfuel), hrun₂, Option.bind_some,
          if_true, hdone]
      · obtain ⟨heq, hsame, hmem⟩ := hquiet (by simpa using (Bool.and_eq_true_iff.1 hdone).2)
        refine ⟨by rw [heq]; exact hempty₁, fun cs hcs f hf => ?_⟩
        rw [heq]
        refine hmem cs ((order.perm _).mem_iff.2 ((VecMap.mem_keys_iff _ cs).2 ?_)) f ((hsame cs f).1 hf)
        rwa [heq] at hcs
    · have hlt : missing b₂ < missing b := by
        refine missing_lt (hgrows₁.trans hgrows₂) ?_
        cases hf : fix with
        | false => exact Or.inl ((hfix hf).trans_subset hgrows₂.visited)
        | true =>
          have hch : changed = true := by simpa [hf] using hdone
          obtain ⟨cs, f, hf, hfl⟩ := hnew hch
          exact Or.inr ⟨cs, f, hf, fun h => hfl (hgrows₁.callees cs h)⟩
      obtain ⟨n₂, b', hrun, hinv', hcomplete', hgrows', hend⟩ := ih _ (hk ▸ hlt) hinv₂ hcomplete₂ rfl
      refine ⟨max n₁ n₂ + 1, b', fun fuel hfuel => ?_, hinv', hcomplete',
        (hgrows₁.trans hgrows₂).trans hgrows', hend⟩
      obtain ⟨fuel, rfl⟩ := Nat.exists_eq_add_of_le' (Nat.le_of_add_left_le hfuel)
      have hle : max n₁ n₂ ≤ fuel := Nat.le_of_succ_le_succ hfuel
      simp only [buildLoop, hrun₁ (fuel + 1) ((le_max_left n₁ n₂).trans (hle.trans (Nat.le_succ _))), hrun₂,
        Option.bind_some, if_true, hdone, Bool.false_eq_true, if_false]
      exact hrun fuel ((le_max_right n₁ n₂).trans hle)

end Runs

/-! ### The call graph -/

/-- Reachability from the entry points over the edges of the graph. -/
inductive Reachable (m : Module I F) (cg : CallGraph I F) (entryPoints : List F) : F → Prop
  | entry {f : F} (h : f ∈ entryPoints) : Reachable m cg entryPoints f
  | call {f g : F} {cs : I} (h : Reachable m cg entryPoints f) (hcs : cs ∈ m.instructions f)
      (hg : g ∈ cg.callees cs) : Reachable m cg entryPoints g

/-- The callees of a call: one edge each, known to the resolver, and all that it returns in the end. -/
structure CallSpec (m : Module I F) (r : Resolver σ I F) (b : Builder σ I F) (cs : I) : Prop where
  static : ∀ f, m.calledOperand cs = some (.function f) → b.cg.calleesAt cs = some [f]
  dynamic : m.calledOperand cs = some .value → ∃ l, b.cg.calleesAt cs = some l ∧ l.Nodup ∧
    (∀ f, f ∈ l ↔ f ∈ (r.resolveIndirectCall b.res cs).1.1) ∧
    ∀ f ∈ l, ∃ targets, (cs, targets) ∈ b.handled ∧ f ∈ targets.1

theorem callSpec_of_inv {b : Builder σ I F} (hb : Inv m r b) (hc : Complete m b)
    (hend : ∀ cs, b.indirectCalls.get? cs ≠ none → ∀ f ∈ resolved r b.res cs, f ∈ b.cg.callees cs) {f : F}
    (hf : f ∈ b.visitedFunctions) {cs : I} (hcs : cs ∈ m.instructions f) : CallSpec m r b cs where
  static g hg := by
    obtain ⟨l, hl⟩ := Option.ne_none_iff_exists'.1 (hc f hf cs hcs (by simp [hg]))
    rw [hl, hb.static cs l hl g hg]
  dynamic hop := by
    obtain ⟨l, hl⟩ := Option.ne_none_iff_exists'.1 (hc f hf cs hcs (by simp [hop]))
    obtain ⟨hcount, hnodup, hmem⟩ := hb.dynamic cs l hl hop
    refine ⟨l, hl, hnodup, fun g => ⟨hmem g, fun hg => ?_⟩, hb.handled cs l hl⟩
    rw [← CallGraph.callees_of_some hl]
    exact hend cs (by simp [hcount]) g hg

theorem inv_initWorkList (entryPointFns : List F) (s : σ) :
    Inv m r (initWorkList (I := I) entryPointFns s) ∧
      Complete m (initWorkList (I := I) entryPointFns s) := by
  refine ⟨⟨?_, ?_, ?_, ?_, ?_, ?_, ?_⟩, ?_⟩
  all_goals simp [initWorkList, CallGraph.empty, Complete, CallGraph.EdgesAgree, CallGraph.callers,
    CallGraph.callees]

variable [Fintype I] [Fintype F]

theorem buildCallGraph_spec (m : Module I F) (order : IterationOrder I) (r : Resolver σ I F)
    (hr : r.Monotone) (hmut : r.mutatesHelperAnalysisInformation = true) (soundness : Soundness)
    (hsound : soundness ≠ .unsound) (entryPoints : List F) (s : σ) :
    ∃ b, (∃ n, ∀ fuel ≥ n, buildCallGraph m r order soundness fuel (initWorkList entryPoints s) = some b) ∧
      (∀ f, Reachable m b.cg entryPoints f → m.isDeclaration f = false → f ∈ b.visitedFunctions) ∧
      (∀ f ∈ b.visitedFunctions, ∀ cs ∈ m.instructions f, CallSpec m r b cs) ∧
      ∀ cs f, (b.cg.callers f).count cs = (b.cg.callees cs).count f := by
  obtain ⟨hinv₀, hcomplete₀⟩ := inv_initWorkList (m := m) (r := r) entryPoints s
  obtain ⟨n, b, hrun, hinv, hcomplete, hgrows, hempty, hend⟩ := buildLoop_inv hr order hinv₀ hcomplete₀
  refine ⟨b, ⟨n, fun fuel hfuel => ?_⟩, fun f hf hbody => ?_,
    fun f hf cs hcs => callSpec_of_inv hinv hcomplete hend hf hcs, hinv.agree⟩
  · have hreq : (decide (soundness ≠ .unsound) && r.mutatesHelperAnalysisInformation) = true := by
      simp [hsound, hmut]
    rw [buildCallGraph, hreq]
    exact hrun fuel hfuel
  · have hpending : Pending m b f := by
      induction hf with
      | entry h => exact hgrows.pending _ (Or.inr (Or.inr (by simpa [initWorkList] using h)))
      | @call f g cs h hcs hg ih =>
        obtain ⟨l, hl, hmem⟩ := CallGraph.exists_calleesAt hg
        exact hinv.pending cs l hl _ hmem
    rcases hpending with h | h | h
    · simp [hbody] at h
    · exact h
    · simp [hempty] at h

end Fixpoint

/-! #### A target found late -/

inductive LateCall
  | indirect
  | direct
  deriving DecidableEq

instance : Fintype LateCall := ⟨{.indirect, .direct}, fun i => by cases i <;> decide⟩

inductive LateFunction
  | main
  | early
  | late
  deriving DecidableEq

instance : Fintype LateFunction := ⟨{.main, .early, .late}, fun f => by cases f <;> decide⟩

/-- `main` with a direct call of `early` after an indirect call; the other functions are empty. -/
def lateModule : Module LateCall LateFunction where
  isDeclaration _ := false
  instructions f := if f = .main then [.indirect, .direct] else []
  calledOperand i := some (if i = .indirect then .value else .function .early)
  nodup_instructions := by decide
  function_unique := by decide

/-- The indirect call may also call `late` once a callee was reported. -/
def lateResolver : Resolver Bool LateCall LateFunction where
  mutatesHelperAnalysisInformation := true
  resolveIndirectCall s _ := (if s then ⟨[.early, .late], by decide⟩ else ⟨[.early], by decide⟩, s)
  handlePossibleTargets _ _ _ := true

def insertionOrder (K : Type*) : IterationOrder K := ⟨id, fun l => List.Perm.refl l⟩

theorem lateResolver_monotone : lateResolver.Monotone where
  resolve _ _ _ _ := Iff.rfl
  handle s _ _ _ f hf := by
    cases s
    · simp only [resolved, lateResolver, Bool.false_eq_true, if_false, if_true] at hf ⊢
      exact List.mem_cons.2 (Or.inl (List.mem_singleton.1 hf))
    · exact hf

theorem buildCallGraph_spec_late :
    ∃ b, (∃ n, ∀ fuel ≥ n, buildCallGraph lateModule lateResolver (insertionOrder _) .soundy fuel
        (initWorkList [.main] false) = some b) ∧
      (∀ f, Reachable lateModule b.cg [.main] f → lateModule.isDeclaration f = false → f ∈ b.visitedFunctions) ∧
      (∀ f ∈ b.visitedFunctions, ∀ cs ∈ lateModule.instructions f, CallSpec lateModule lateResolver b cs) ∧
      ∀ cs f, (b.cg.callers f).count cs = (b.cg.callees cs).count f :=
  buildCallGraph_spec lateModule (insertionOrder _) lateResolver lateResolver_monotone rfl .soundy (by decide) [.main] false

example : ((buildCallGraph lateModule lateResolver (insertionOrder _) .soundy 5 (initWorkList [.main] false)).map
    fun b => (b.cg.calleesAt .indirect, b.cg.callersOf .early)) =
      some (some [.early, .late], some [.indirect, .direct]) := by decide

end Phasar.LLVMBasedCallGraphBuilder
