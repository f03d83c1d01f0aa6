import Phasar.CFLFieldSens.AccessPath

/-!
# Depth limiting of access paths

A depth limit `K` truncates the stores of a path at the bottom and stops the recording of loads. The
same steps are run with the limit (path `P`) and without one (path `Q`).

* `StepOk`: the limited step is not one of those after which stale kills can hit the wrong base;
* `Sim`: `Q` is `P` with hidden stores below, and every kill pending in `P` is justified in `Q`;
* `survives_of_runOk`: a path that survives without a limit survives with one if all steps are `StepOk`;
* `limited_load_keeps_kills`: without this condition it may be lost.
-/

namespace Phasar.CFLFieldSens

/-- Both paths have the same pending kills and offset. -/
def SameBase (P Q : AccessPath) : Prop := P.kills = Q.kills ∧ P.offset = Q.offset

instance (P Q : AccessPath) : Decidable (SameBase P Q) := inferInstanceAs (Decidable (_ ∧ _))

/-- Truncation has separated the paths: they differ in stores, kills or offset. -/
def Diverged (P Q : AccessPath) : Prop := ¬ (P.stores = Q.stores ∧ SameBase P Q)

instance (P Q : AccessPath) : Decidable (Diverged P Q) := inferInstanceAs (Decidable (¬ _))

/-- The store `b` that truncation drops lies at a known offset that is not killed. -/
def Droppable (P : AccessPath) (b : ℤ) : Prop :=
  Concrete b ∧ Concrete (P.offset + b) ∧ P.offset + b ∉ P.kills

instance (P : AccessPath) (b : ℤ) : Decidable (Droppable P b) := inferInstanceAs (Decidable (_ ∧ _))

/-- The condition on a step with limit `K`. A load that is not recorded must find no pending kills. A
truncated store must not be among the cells killed. Once the paths have diverged, their pending
offsets must be known. -/
def StepOk (K : ℕ) (P Q : AccessPath) : Step → Prop
  | .load _ => P.stores = [] → P.loads.length = K → P.kills = .empty
  | .store _ => P.stores.length = K → ∀ b ∈ P.stores.getLast?, Droppable P b
  | .gep field => P.stores = [] → Diverged P Q → Fits P field ∧ Fits Q field
  | .kill field => Q.stores = [] → Diverged P Q → field ≠ topOffset → Fits Q field

instance (K : ℕ) (P Q : AccessPath) (s : Step) : Decidable (StepOk K P Q s) := by
  cases s <;> unfold StepOk <;> infer_instance

/-- All steps of the two runs are `StepOk`. -/
def RunOk (K : ℕ) (P Q : AccessPath) : List Step → Prop
  | [] => True
  | s :: steps => StepOk K P Q s ∧
      ∀ P' ∈ applyStep (some K) P s, ∀ Q' ∈ applyStep none Q s, RunOk K P' Q' steps

instance decidableRunOk (K : ℕ) : ∀ P Q steps, Decidable (RunOk K P Q steps)
  | _, _, [] => inferInstanceAs (Decidable True)
  | P, Q, s :: steps =>
    have := fun P' Q' => decidableRunOk K P' Q' steps
    inferInstanceAs (Decidable (StepOk K P Q s ∧
      ∀ P' ∈ applyStep (some K) P s, ∀ Q' ∈ applyStep none Q s, RunOk K P' Q' steps))

/-! ### The simulation -/

/-- What the kills of `P` may contain, `rest` being the stores that only `Q` has. The hidden store on
top is not killed in `P`; without hidden stores the kills of `P` are those of `Q`, relative to the
pending offsets. -/
def Covers (P Q : AccessPath) : List ℤ → Prop
  | [] => SameBase P Q ∨ ∀ x ∈ P.kills, x - P.offset + Q.offset ∈ Q.kills
  | a :: _ => Concrete (P.offset + a) ∧ P.offset + a ∉ P.kills

/-- `Q` is `P` with the stores `rest` below those of `P`. -/
structure Sim (P Q : AccessPath) (rest : List ℤ) : Prop where
  stores : Q.stores = P.stores ++ rest
  concrete : ∀ a ∈ rest, Concrete a
  kills : ∀ x ∈ Q.kills, Concrete x
  covers : Covers P Q rest

theorem sim_epsilon : Sim .epsilon .epsilon [] where
  stores := rfl
  concrete := by simp
  kills := fun _ hx => absurd hx (KillSet.not_mem_empty _)
  covers := Or.inl ⟨rfl, rfl⟩

theorem int32_eq_of_concrete {y z : ℤ} (hy : Concrete y) (h : int32 z = int32 y) : int32 z = y :=
  h.trans (int32_of_concrete hy)

theorem int32_add_congr {a b c : ℤ} (h : int32 a = int32 b) : int32 (a + c) = int32 (b + c) := by
  unfold int32 at h ⊢
  rw [← Int.bmod_add_bmod, h, Int.bmod_add_bmod]

/-! ### One step -/

section Step

variable {K : ℕ} {P Q Q' : AccessPath} {rest : List ℤ} {field : ℤ}

theorem sim_gep (h : Sim P Q rest) (ok : StepOk K P Q (.gep field)) :
    ∃ rest', Sim (applyOneGep P field) (applyOneGep Q field) rest' := by
  rcases hP : P.stores with _ | ⟨head, next⟩
  -- no store is left in `P`: the offset of the path moves
  · rcases rest with _ | ⟨a, rest⟩
    · have hQ : Q.stores = [] := by simpa [hP] using h.stores
      refine ⟨[], ?_⟩
      rw [applyOneGep_nil hP, applyOneGep_nil hQ]
      refine ⟨by simpa using h.stores, by simp, h.kills, ?_⟩
      by_cases hD : Diverged P Q
      · obtain ⟨hfP, hfQ⟩ := ok hP hD
        simp only [Fits, hP] at hfP
        simp only [Fits, hQ] at hfQ
        have hcov : ∀ x ∈ P.kills, x - P.offset + Q.offset ∈ Q.kills := by
          rcases h.covers with hb | hc
          · exact absurd ⟨hP.trans hQ.symm, hb⟩ hD
          · exact hc
        refine Or.inr fun x hx => ?_
        show x - addOffsets P.offset field + addOffsets Q.offset field ∈ Q.kills
        rw [addOffsets_of_concrete hfP.1 hfP.2.1 hfP.2.2,
          addOffsets_of_concrete hfQ.1 hfQ.2.1 hfQ.2.2]
        have hx' := hcov x hx
        have hmove : x - (P.offset + field) + (Q.offset + field) = x - P.offset + Q.offset := by omega
        rwa [hmove]
      · obtain ⟨-, hk, ho⟩ := not_not.1 hD
        exact Or.inl ⟨hk, congrArg (addOffsets · field) ho⟩
    -- the store on top of `Q`, which `P` has lost, moves against it
    · have hQ : Q.stores = a :: rest := by simpa [hP] using h.stores
      have hD : Diverged P Q := fun hD => by simp [hP, hQ] at hD
      obtain ⟨hfP, hfQ⟩ := ok hP hD
      simp only [Fits, hP] at hfP
      simp only [Fits, hQ] at hfQ
      have hhead : addOffsets a (int32 (-field)) = a - field := by
        rw [int32_of_concrete hfQ.2.1, addOffsets_of_concrete hfQ.1 hfQ.2.1.ne_top hfQ.2.2]
        rfl
      refine ⟨(a - field) :: rest, ?_⟩
      rw [applyOneGep_nil hP, applyOneGep_cons hQ, hhead]
      obtain ⟨hc₁, hc₂⟩ := h.covers
      have hsum : P.offset + field + (a - field) = P.offset + a := by omega
      refine ⟨by simp [hP], ?_, h.kills, ?_⟩
      · intro b hb
        rcases List.mem_cons.1 hb with rfl | hb
        · exact hfQ.2.2
        · exact h.concrete b (List.mem_cons_of_mem a hb)
      · show Concrete (addOffsets P.offset field + (a - field)) ∧
          addOffsets P.offset field + (a - field) ∉ P.kills
        rw [addOffsets_of_concrete hfP.1 hfP.2.1 hfP.2.2, hsum]
        exact ⟨hc₁, hc₂⟩
  · have hQ : Q.stores = head :: (next ++ rest) := by simpa [hP] using h.stores
    refine ⟨rest, ?_⟩
    rw [applyOneGep_cons hP, applyOneGep_cons hQ]
    exact ⟨rfl, h.concrete, h.kills, by cases rest <;> exact h.covers⟩

theorem sim_load (h : Sim P Q rest) (ok : StepOk K P Q (.load field))
    (hQ' : applyOneGepAndLoad none Q field = some Q') :
    ∃ P' rest', applyOneGepAndLoad (some K) P field = some P' ∧ Sim P' Q' rest' := by
  rcases hP : P.stores with _ | ⟨head, next⟩
  · -- what the limited load leaves behind if it is not killed
    have hload : ¬ P.kills.isKilledBy (int32 (P.offset + field)) →
        ∃ P', applyOneGepAndLoad (some K) P field = some P' ∧ P'.stores = [] ∧ P'.offset = 0 ∧
          P'.kills = .empty := by
      intro hk
      rw [applyOneGepAndLoad_nil hP, if_neg hk]
      split_ifs with hlen
      · exact ⟨_, rfl, hP, rfl, ok hP (Option.some.inj hlen).symm⟩
      · exact ⟨_, rfl, hP, rfl, rfl⟩
    rcases rest with _ | ⟨a, rest⟩
    · have hQ : Q.stores = [] := by simpa [hP] using h.stores
      rw [applyOneGepAndLoad_nil hQ] at hQ'
      simp only [reduceCtorEq, if_false] at hQ'
      split_ifs at hQ' with hk
      obtain rfl := Option.some.inj hQ'
      have hkP : ¬ P.kills.isKilledBy (int32 (P.offset + field)) := by
        intro hkP
        apply hk
        rcases h.covers with ⟨hk', ho⟩ | hc
        · rwa [← hk', ← ho]
        · obtain ⟨hne, hmem⟩ : int32 (P.offset + field) ≠ topOffset ∧
              int32 (P.offset + field) ∈ P.kills := by simpa [KillSet.isKilledBy] using hkP
          have hx := hc _ hmem
          have hcon := h.kills _ hx
          have heq : int32 (Q.offset + field) =
              int32 (P.offset + field) - P.offset + Q.offset := by
            apply int32_eq_of_concrete hcon
            have hbase : int32 (P.offset + field) = int32 (int32 (P.offset + field)) := by
              simp [int32]
            have hshift := int32_add_congr (c := Q.offset - P.offset) hbase
            rw [show P.offset + field + (Q.offset - P.offset) = Q.offset + field by omega] at hshift
            rw [hshift]
            congr 1
            omega
          rw [heq, KillSet.isKilledBy_iff hcon.ne_top]
          exact hx
      obtain ⟨P', hP', hs, ho, hk'⟩ := hload hkP
      refine ⟨P', [], hP', ?_, by simp, fun _ hx => absurd hx (KillSet.not_mem_empty _),
        Or.inl ⟨hk', ho⟩⟩
      simpa [hs] using hQ
    · have hQ : Q.stores = a :: rest := by simpa [hP] using h.stores
      have ha := h.concrete a List.mem_cons_self
      obtain ⟨hc₁, hc₂⟩ := h.covers
      rw [applyOneGepAndLoad_cons hQ] at hQ'
      split_ifs at hQ' with hne
      obtain rfl := Option.some.inj hQ'
      obtain rfl : a = field := by
        by_contra hf
        exact hne ⟨hf, ha.ne_top⟩
      have hkP : ¬ P.kills.isKilledBy (int32 (P.offset + a)) := by
        rw [int32_of_concrete hc₁, KillSet.isKilledBy_iff hc₁.ne_top]
        exact hc₂
      obtain ⟨P', hP', hs, ho, hk'⟩ := hload hkP
      refine ⟨P', rest, hP', by simp [hs], fun b hb => h.concrete b (List.mem_cons_of_mem a hb),
        h.kills, ?_⟩
      rcases rest with _ | ⟨b, rest⟩
      · refine Or.inr fun x hx => ?_
        rw [hk'] at hx
        exact absurd hx (KillSet.not_mem_empty _)
      · refine ⟨?_, ?_⟩
        · rw [ho, zero_add]
          exact h.concrete b (by simp)
        · rw [hk']
          exact KillSet.not_mem_empty _
  · have hQ : Q.stores = head :: (next ++ rest) := by simpa [hP] using h.stores
    rw [applyOneGepAndLoad_cons hQ] at hQ'
    rw [applyOneGepAndLoad_cons hP]
    split_ifs at hQ' ⊢ with hne
    obtain rfl := Option.some.inj hQ'
    exact ⟨_, rest, rfl, rfl, h.concrete, h.kills, by cases rest <;> exact h.covers⟩

theorem sim_kill (h : Sim P Q rest) (ok : StepOk K P Q (.kill field))
    (hQ' : applyOneGepAndKill Q field = some Q') :
    ∃ P' rest', applyOneGepAndKill P field = some P' ∧ Sim P' Q' rest' := by
  by_cases htop : field = topOffset
  · have hid : ∀ F, applyOneGepAndKill F field = some F := fun F => by
      unfold applyOneGepAndKill
      rw [if_pos htop]
    rw [hid, Option.some.injEq] at hQ'
    subst hQ'
    exact ⟨P, rest, hid P, h⟩
  rcases hP : P.stores with _ | ⟨head, next⟩
  · rw [applyOneGepAndKill_nil hP, if_neg htop]
    rcases rest with _ | ⟨a, rest⟩
    · have hQ : Q.stores = [] := by simpa [hP] using h.stores
      rw [applyOneGepAndKill_nil hQ, if_neg htop, Option.some.injEq] at hQ'
      subst hQ'
      refine ⟨_, [], rfl, by simpa using h.stores, by simp, ?_, ?_⟩
      · intro x hx
        rcases KillSet.mem_addKill.1 hx with ⟨hne, rfl⟩ | hx
        · exact concrete_addOffsets hne
        · exact h.kills x hx
      · by_cases hD : Diverged P Q
        · have hfQ := ok hQ hD htop
          simp only [Fits, hQ] at hfQ
          have hcov : ∀ x ∈ P.kills, x - P.offset + Q.offset ∈ Q.kills := by
            rcases h.covers with hb | hc
            · exact absurd ⟨hP.trans hQ.symm, hb⟩ hD
            · exact hc
          refine Or.inr fun x hx => KillSet.mem_addKill.2 ?_
          rcases KillSet.mem_addKill.1 hx with ⟨hne, rfl⟩ | hx
          · have hsum := addOffsets_of_ne_top hne
            show (_ ∧ addOffsets P.offset field - P.offset + Q.offset = _) ∨ _
            rw [hsum, addOffsets_of_concrete hfQ.1 htop hfQ.2.2]
            exact Or.inl ⟨hfQ.2.2.ne_top, by omega⟩
          · exact Or.inr (hcov x hx)
        · obtain ⟨-, hk, ho⟩ := not_not.1 hD
          exact Or.inl ⟨by simp only [hk, ho], ho⟩
    · have hQ : Q.stores = a :: rest := by simpa [hP] using h.stores
      rw [applyOneGepAndKill_cons hQ] at hQ'
      split_ifs at hQ' with hk
      obtain rfl := Option.some.inj hQ'
      obtain ⟨hc₁, hc₂⟩ := h.covers
      refine ⟨_, a :: rest, rfl, by simpa using h.stores, h.concrete, h.kills, hc₁, fun hx => ?_⟩
      -- a kill of the hidden store on top would have ended the unlimited run
      rcases KillSet.mem_addKill.1 hx with ⟨hne, heq⟩ | hx
      · have hsum := addOffsets_of_ne_top hne
        have heq' : P.offset + a = addOffsets P.offset field := heq
        exact hk ⟨htop, by omega⟩
      · exact hc₂ hx
  · have hQ : Q.stores = head :: (next ++ rest) := by simpa [hP] using h.stores
    rw [applyOneGepAndKill_cons hQ] at hQ'
    rw [applyOneGepAndKill_cons hP]
    split_ifs at hQ' ⊢ with hk
    obtain rfl := Option.some.inj hQ'
    exact ⟨P, rest, rfl, h⟩

theorem sim_store (hK : 1 ≤ K) (h : Sim P Q rest) (ok : StepOk K P Q (.store field)) :
    ∃ rest', Sim (applyOneGepAndStore (some K) P field) (applyOneGepAndStore none Q field) rest' := by
  by_cases hlen : P.stores.length = K
  · have hne : P.stores ≠ [] := by
      intro hnil
      rw [hnil, List.length_nil] at hlen
      omega
    obtain ⟨hb, hb₁, hb₂⟩ := ok hlen _ (List.getLast?_eq_getLast_of_ne_nil hne)
    refine ⟨P.stores.getLast hne :: rest, ?_, ?_, h.kills, hb₁, hb₂⟩
    · have hsplit := List.dropLast_append_getLast hne
      show field :: (if (none : Option ℕ) = _ then _ else Q.stores) = _
      simp only [applyOneGepAndStore, hlen, reduceCtorEq, if_false, if_true, List.cons_append]
      rw [h.stores, List.append_cons, hsplit]
    · intro a ha
      rcases List.mem_cons.1 ha with rfl | ha
      · exact hb
      · exact h.concrete a ha
  · refine ⟨rest, ?_, h.concrete, h.kills, by cases rest <;> exact h.covers⟩
    have hlen' : ¬ some K = some P.stores.length := fun he => hlen (Option.some.inj he).symm
    simp [applyOneGepAndStore, hlen', h.stores]

theorem sim_step (hK : 1 ≤ K) {s : Step} (h : Sim P Q rest) (ok : StepOk K P Q s)
    (hQ' : applyStep none Q s = some Q') :
    ∃ P' rest', applyStep (some K) P s = some P' ∧ Sim P' Q' rest' := by
  cases s with
  | gep field =>
    obtain rfl := Option.some.inj hQ'
    obtain ⟨rest', h'⟩ := sim_gep h ok
    exact ⟨_, rest', rfl, h'⟩
  | load field => exact sim_load h ok hQ'
  | kill field => exact sim_kill h ok hQ'
  | store field =>
    obtain rfl := Option.some.inj hQ'
    obtain ⟨rest', h'⟩ := sim_store hK h ok
    exact ⟨_, rest', rfl, h'⟩

end Step

/-! ### Runs -/

theorem sim_run {K : ℕ} (hK : 1 ≤ K) {P Q Q' : AccessPath} {rest : List ℤ} {steps : List Step}
    (h : Sim P Q rest) (ok : RunOk K P Q steps) (hQ' : run none Q steps = some Q') :
    ∃ P' rest', run (some K) P steps = some P' ∧ Sim P' Q' rest' := by
  induction steps generalizing P Q rest with
  | nil =>
    obtain rfl := Option.some.inj hQ'
    exact ⟨P, rest, rfl, h⟩
  | cons s steps ih =>
    rw [run_cons] at hQ'
    obtain ⟨Q₁, hQ₁, hQ'⟩ := Option.bind_eq_some_iff.1 hQ'
    obtain ⟨P₁, rest₁, hP₁, h₁⟩ := sim_step hK h ok.1 hQ₁
    obtain ⟨P', rest', hP', h'⟩ := ih h₁ (ok.2 P₁ hP₁ Q₁ hQ₁) hQ'
    refine ⟨P', rest', ?_, h'⟩
    rw [run_cons, hP₁]
    exact hP'

/-- A path that survives without a limit survives with limit `K`, in runs whose steps are all
`StepOk`. -/
theorem survives_of_runOk {K : ℕ} (hK : 1 ≤ K) {steps : List Step}
    (ok : RunOk K .epsilon .epsilon steps) (h : (run none .epsilon steps).isSome) :
    (run (some K) .epsilon steps).isSome := by
  obtain ⟨Q', hQ'⟩ := Option.isSome_iff_exists.1 h
  obtain ⟨P', -, hP', -⟩ := sim_run hK sim_epsilon ok hQ'
  exact Option.isSome_iff_exists.2 ⟨P', hP'⟩

/-- A store forgotten by truncation is loaded through. -/
theorem survives_of_runOk_truncated :
    (run (some 1) .epsilon [.store 4, .store 0, .load 0, .load 4, .load 16, .kill 8]).isSome :=
  survives_of_runOk le_rfl
    (by decide) (by decide)

/-- The load of `8` is not recorded and leaves the kill of `4` behind, which hits the load of `4` from
the new base. -/
theorem limited_load_keeps_kills :
    ¬ ∀ (K : ℕ) (steps : List Step), 1 ≤ K → (run none .epsilon steps).isSome →
      (run (some K) .epsilon steps).isSome := by
  intro h
  have := h 1 [.load 0, .kill 4, .load 8, .load 4] le_rfl (by decide)
  exact absurd this (by decide)

end Phasar.CFLFieldSens
