import Phasar.CFLFieldSens.AccessPath

/-!
# Unknown offsets

A step with an unknown offset should do whatever the step does for some known offset, and a sum should
be unknown if one of its operands is or if it does not fit. A load adds offsets without these checks,
and it drops a path whose pending store is at a known offset when its own offset is unknown.

* `Replaces`: the same step, perhaps with its offset forgotten;
* `Exact`: a step computes no 32-bit value that overflows, and treats unknown operands as unknown;
* `SumFits`, `OffsetOk`: the conditions on a step;
* `Forgets`, `forgets_applyStep`: the path of the known offsets and the path of the unknown ones;
* `unknown_offsets_iff`: unknown offsets only over-approximate, with exact sums, precisely in the runs
  whose steps are all `OffsetOk`.
-/

namespace Phasar.CFLFieldSens

/-! ### Steps and their offsets -/

/-- `z` is a 32-bit signed integer. -/
def Int32 (z : ℤ) : Prop := -2 ^ 31 ≤ z ∧ z < 2 ^ 31

instance (z : ℤ) : Decidable (Int32 z) := inferInstanceAs (Decidable (_ ∧ _))

theorem int32_of_int32 {z : ℤ} (h : Int32 z) : int32 z = z := by
  obtain ⟨h₁, h₂⟩ := h
  unfold int32
  rw [Int.bmod_def]
  split_ifs <;> omega

theorem addOffsets_of_int32 {l r : ℤ} (hl : l ≠ topOffset) (hr : r ≠ topOffset)
    (h : Int32 (l + r)) : addOffsets l r = l + r := by
  rw [addOffsets, if_neg (by tauto)]
  exact if_pos h

theorem Concrete.int32 {z : ℤ} (h : Concrete z) : Int32 z := ⟨h.1.le, h.2⟩

/-- The offset of a step. -/
def Step.field : Step → ℤ
  | .gep field | .load field | .kill field | .store field => field

/-- The step with an unknown offset. -/
def Step.forget : Step → Step
  | .gep _ => .gep topOffset
  | .load _ => .load topOffset
  | .kill _ => .kill topOffset
  | .store _ => .store topOffset

/-- The step `s'` is `s`, perhaps with its offset replaced by `topOffset`. -/
def Replaces (s s' : Step) : Prop := s' = s ∨ s' = s.forget

instance (s s' : Step) : Decidable (Replaces s s') := inferInstanceAs (Decidable (_ ∨ _))

/-- All steps that a run executes satisfy `p`. -/
def AllSteps (p : AccessPath → Step → Prop) (limit : Option ℕ) : AccessPath → List Step → Prop
  | _, [] => True
  | F, s :: steps => p F s ∧ ∀ F' ∈ applyStep limit F s, AllSteps p limit F' steps

instance decidableAllSteps (p : AccessPath → Step → Prop) [∀ F s, Decidable (p F s)]
    (limit : Option ℕ) : ∀ F steps, Decidable (AllSteps p limit F steps)
  | _, [] => inferInstanceAs (Decidable True)
  | F, s :: steps =>
    have := fun F' => decidableAllSteps p limit F' steps
    inferInstanceAs (Decidable (p F s ∧ ∀ F' ∈ applyStep limit F s, AllSteps p limit F' steps))

/-- The step executes no overflowing 32-bit operation, and a sum with an unknown operand, or one that
does not fit, is unknown. Only the negation of a gep and the sum of a load are not checked. -/
def Exact (F : AccessPath) : Step → Prop
  | .gep field => F.stores ≠ [] → Int32 (-field)
  | .load field => F.stores = [] →
      Int32 (F.offset + field) ∧ int32 (F.offset + field) = addOffsets F.offset field
  | .kill _ => True
  | .store _ => True

instance decidableExact (F : AccessPath) : ∀ s, Decidable (Exact F s)
  | .gep field => inferInstanceAs (Decidable (F.stores ≠ [] → Int32 (-field)))
  | .load field => inferInstanceAs (Decidable (F.stores = [] →
      Int32 (F.offset + field) ∧ int32 (F.offset + field) = addOffsets F.offset field))
  | .kill _ => inferInstanceAs (Decidable True)
  | .store _ => inferInstanceAs (Decidable True)

/-- A gep on a path with a pending store has a known offset. A load on a path without one adds offsets
whose sum fits; to an unknown one it adds zero. -/
def SumFits (F : AccessPath) : Step → Prop
  | .gep field => F.stores = [] ∨ field ≠ topOffset
  | .load field => F.stores = [] →
      if F.offset = topOffset then field = 0
      else if field = topOffset then F.offset = 0
      else Int32 (F.offset + field)
  | .kill _ => True
  | .store _ => True

instance decidableSumFits (F : AccessPath) : ∀ s, Decidable (SumFits F s)
  | .gep field => inferInstanceAs (Decidable (F.stores = [] ∨ field ≠ topOffset))
  | .load field => inferInstanceAs (Decidable (F.stores = [] →
      if F.offset = topOffset then field = 0
      else if field = topOffset then F.offset = 0
      else Int32 (F.offset + field)))
  | .kill _ => inferInstanceAs (Decidable True)
  | .store _ => inferInstanceAs (Decidable True)

/-- The condition on a step. Besides `SumFits`, a load with an unknown offset finds no pending store at
a known one. -/
def OffsetOk (F : AccessPath) (s : Step) : Prop :=
  SumFits F s ∧ (s = .load topOffset → ∀ head ∈ F.stores.head?, head = topOffset)

instance (F : AccessPath) (s : Step) : Decidable (OffsetOk F s) :=
  inferInstanceAs (Decidable (_ ∧ _))

/-! ### Exact sums -/

theorem int32_topOffset_add (z : ℤ) : Int32 (topOffset + z) ∧ int32 (topOffset + z) = topOffset ↔
    z = 0 := by
  constructor
  · rintro ⟨h, heq⟩
    rw [int32_of_int32 h] at heq
    omega
  · rintro rfl
    decide

/-- A step is exact precisely when its sums fit. -/
theorem exact_iff_sumFits {F : AccessPath} {s : Step} (hs : Int32 s.field) :
    Exact F s ↔ SumFits F s := by
  cases s with
  | gep field =>
    obtain ⟨h₁, h₂⟩ := hs
    simp only [Step.field] at h₁ h₂
    simp only [Exact, SumFits, Int32, topOffset]
    rw [or_iff_not_imp_left]
    refine imp_congr_right fun _ => ?_
    omega
  | load field =>
    simp only [Exact, SumFits]
    refine imp_congr_right fun _ => ?_
    split_ifs with htop hfield
    · rw [htop, addOffsets, if_pos (Or.inl rfl)]
      exact int32_topOffset_add field
    · rw [hfield, addOffsets, if_pos (Or.inr rfl), add_comm]
      exact int32_topOffset_add F.offset
    · refine and_iff_left_of_imp fun h => ?_
      rw [int32_of_int32 h, addOffsets_of_int32 htop hfield h]
  | kill field => simp [Exact, SumFits]
  | store field => simp [Exact, SumFits]

theorem AllSteps.imp {p q : AccessPath → Step → Prop} {limit : Option ℕ} {F : AccessPath}
    {steps : List Step} (h : ∀ F, ∀ s ∈ steps, p F s → q F s) (hp : AllSteps p limit F steps) :
    AllSteps q limit F steps := by
  induction steps generalizing F with
  | nil => trivial
  | cons s steps ih =>
    refine ⟨h F s List.mem_cons_self hp.1, fun F' hF' => ?_⟩
    exact ih (fun F t ht => h F t (List.mem_cons_of_mem s ht)) (hp.2 F' hF')

/-! ### Known and unknown offsets side by side -/

/-- The offset `b` is `a`, or unknown. -/
def Forgotten (a b : ℤ) : Prop := b = a ∨ b = topOffset

/-- `F'` is `F` with some offsets forgotten, and with no further kills. -/
structure Forgets (F F' : AccessPath) : Prop where
  stores : List.Forall₂ Forgotten F.stores F'.stores
  offset : Forgotten F.offset F'.offset
  kills : ∀ x ∈ F'.kills, x ∈ F.kills
  loads : F'.loads.length = F.loads.length

theorem Forgets.refl (F : AccessPath) : Forgets F F where
  stores := List.forall₂_same.2 fun _ _ => Or.inl rfl
  offset := Or.inl rfl
  kills _ h := h
  loads := rfl

theorem forgotten_field {s s' : Step} (h : Replaces s s') : Forgotten s.field s'.field := by
  rcases h with rfl | rfl
  · exact Or.inl rfl
  · cases s <;> exact Or.inr rfl

/-- A sum with forgotten operands is the sum, or unknown. -/
theorem forgotten_addOffsets {a b x y : ℤ} (h : Forgotten a b) (h' : Forgotten x y) :
    Forgotten (addOffsets a x) (addOffsets b y) := by
  rcases h with rfl | rfl
  · rcases h' with rfl | rfl
    · exact Or.inl rfl
    · exact Or.inr (by simp [addOffsets])
  · exact Or.inr (by simp [addOffsets])

theorem forgotten_neg {x y : ℤ} (h : Forgotten x y) : Forgotten (int32 (-x)) (int32 (-y)) := by
  rcases h with rfl | rfl
  · exact Or.inl rfl
  · exact Or.inr (by decide)

/-- A load that fits adds its offsets as `addOffsets` does. -/
theorem int32_add_of_sumFits {F : AccessPath} {field : ℤ} (hnil : F.stores = [])
    (hfit : SumFits F (.load field)) : int32 (F.offset + field) = addOffsets F.offset field := by
  have h := hfit hnil
  split_ifs at h with htop hfield
  · rw [htop, h]
    decide
  · rw [h, hfield]
    decide
  · rw [int32_of_int32 h, addOffsets_of_int32 htop hfield h]

/-! ### One step -/

section Step

variable {F F' G : AccessPath} {limit : Option ℕ} {x y : ℤ}

theorem forgets_gep (h : Forgets F F') (hxy : Forgotten x y) :
    Forgets (applyOneGep F x) (applyOneGep F' y) := by
  have hst := h.stores
  cases hF : F.stores with
  | nil =>
    rw [hF, List.forall₂_nil_left_iff] at hst
    rw [applyOneGep_nil hF, applyOneGep_nil hst]
    exact ⟨h.stores, forgotten_addOffsets h.offset hxy, h.kills, h.loads⟩
  | cons a next =>
    rw [hF] at hst
    obtain ⟨b, next', hab, hnext, hF'⟩ := List.forall₂_cons_left_iff.1 hst
    rw [applyOneGep_cons hF, applyOneGep_cons hF']
    exact ⟨.cons (forgotten_addOffsets hab (forgotten_neg hxy)) hnext, h.offset, h.kills, h.loads⟩

theorem forgets_store (h : Forgets F F') (hxy : Forgotten x y) :
    Forgets (applyOneGepAndStore limit F x) (applyOneGepAndStore limit F' y) := by
  have hlen := h.stores.length_eq
  refine ⟨.cons hxy ?_, h.offset, h.kills, h.loads⟩
  rw [← hlen]
  split_ifs
  · rw [List.dropLast_eq_take, List.dropLast_eq_take, ← hlen]
    exact List.forall₂_take _ h.stores
  · exact h.stores

/-- The offset of a kill is known in the path of the known offsets. -/
theorem forgets_kill (h : Forgets F F') (hx : x ≠ topOffset) (hxy : Forgotten x y)
    (hG : applyOneGepAndKill F x = some G) :
    ∃ G', applyOneGepAndKill F' y = some G' ∧ Forgets G G' := by
  have hst := h.stores
  cases hF : F.stores with
  | nil =>
    rw [hF, List.forall₂_nil_left_iff] at hst
    rw [applyOneGepAndKill_nil hF, if_neg hx, Option.some.injEq] at hG
    rw [applyOneGepAndKill_nil hst]
    refine ⟨_, rfl, ?_⟩
    subst hG
    split_ifs with hy
    · exact ⟨h.stores, h.offset, fun z hz => KillSet.mem_addKill.2 (Or.inr (h.kills z hz)), h.loads⟩
    · refine ⟨h.stores, h.offset, fun z hz => ?_, h.loads⟩
      -- a kill at a known offset is one of the path of the known offsets
      rcases KillSet.mem_addKill.1 hz with ⟨hne, rfl⟩ | hz
      · rcases forgotten_addOffsets h.offset hxy with heq | heq
        · exact KillSet.mem_addKill.2 (Or.inl ⟨heq ▸ hne, heq⟩)
        · exact absurd heq hne
      · exact KillSet.mem_addKill.2 (Or.inr (h.kills z hz))
  | cons a next =>
    rw [hF] at hst
    obtain ⟨b, next', hab, hnext, hF'⟩ := List.forall₂_cons_left_iff.1 hst
    rw [applyOneGepAndKill_cons hF] at hG
    split_ifs at hG with hax
    obtain rfl := Option.some.inj hG
    refine ⟨F', ?_, h⟩
    rw [applyOneGepAndKill_cons hF', if_neg]
    rintro ⟨hy, rfl⟩
    have hbx : b = x := hxy.resolve_right hy
    have hba : b = a := hab.resolve_right hy
    exact hax ⟨hx, hba.symm.trans hbx⟩

theorem forgets_load (h : Forgets F F') (hxy : Forgotten x y) (hok : OffsetOk F' (.load y))
    (hG : applyOneGepAndLoad limit F x = some G) :
    ∃ G', applyOneGepAndLoad limit F' y = some G' ∧ Forgets G G' := by
  have hst := h.stores
  cases hF : F.stores with
  | nil =>
    rw [hF, List.forall₂_nil_left_iff] at hst
    have hsum := int32_add_of_sumFits hst hok.1
    rw [applyOneGepAndLoad_nil hF] at hG
    split_ifs at hG with hkill hlim
    all_goals
      obtain rfl := Option.some.inj hG
      have hkill' : F'.kills.isKilledBy (int32 (F'.offset + y)) = false := by
        by_cases htop : int32 (F'.offset + y) = topOffset
        · simp [KillSet.isKilledBy, htop]
        · -- a sum that is known is the sum of the known offsets
          have hne : addOffsets F'.offset y ≠ topOffset := hsum ▸ htop
          have hoff : F'.offset = F.offset := h.offset.resolve_right fun hc => hne (by
            simp [addOffsets, hc])
          have hy : y = x := hxy.resolve_right fun hc => hne (by simp [addOffsets, hc])
          rw [Bool.eq_false_iff, Ne, KillSet.isKilledBy_iff htop]
          intro hmem
          rw [hoff, hy] at hmem htop
          exact hkill ((KillSet.isKilledBy_iff htop).2 (h.kills _ hmem))
      rw [applyOneGepAndLoad_nil hst, hkill', h.loads]
    · exact ⟨_, if_pos hlim, h.stores, Or.inl rfl, h.kills, h.loads⟩
    · exact ⟨_, if_neg hlim, h.stores, Or.inl rfl, fun z hz => hz, by simp [h.loads]⟩
  | cons a next =>
    rw [hF] at hst
    obtain ⟨b, next', hab, hnext, hF'⟩ := List.forall₂_cons_left_iff.1 hst
    rw [applyOneGepAndLoad_cons hF] at hG
    split_ifs at hG with hax
    obtain rfl := Option.some.inj hG
    refine ⟨{ F' with stores := next' }, ?_, hnext, h.offset, h.kills, h.loads⟩
    rw [applyOneGepAndLoad_cons hF', if_neg]
    rintro ⟨hby, hb⟩
    have hba : b = a := hab.resolve_right hb
    rcases hxy with rfl | rfl
    · exact hax ⟨hba ▸ hby, hba ▸ hb⟩
    · exact hb (hok.2 rfl b (by simp [hF']))

/-- **A step that keeps the path keeps it when offsets are forgotten**, under the condition. -/
theorem forgets_applyStep {s s' : Step} (h : Forgets F F') (hs : s.field ≠ topOffset)
    (hrep : Replaces s s') (hok : OffsetOk F' s') (hG : applyStep limit F s = some G) :
    ∃ G', applyStep limit F' s' = some G' ∧ Forgets G G' := by
  have hxy := forgotten_field hrep
  cases s with
  | gep x =>
    obtain ⟨y, rfl⟩ : ∃ y, s' = .gep y := by rcases hrep with rfl | rfl <;> exact ⟨_, rfl⟩
    obtain rfl := Option.some.inj hG
    exact ⟨_, rfl, forgets_gep h hxy⟩
  | load x =>
    obtain ⟨y, rfl⟩ : ∃ y, s' = .load y := by rcases hrep with rfl | rfl <;> exact ⟨_, rfl⟩
    exact forgets_load h hxy hok hG
  | kill x =>
    obtain ⟨y, rfl⟩ : ∃ y, s' = .kill y := by rcases hrep with rfl | rfl <;> exact ⟨_, rfl⟩
    exact forgets_kill h hs hxy hG
  | store x =>
    obtain ⟨y, rfl⟩ : ∃ y, s' = .store y := by rcases hrep with rfl | rfl <;> exact ⟨_, rfl⟩
    obtain rfl := Option.some.inj hG
    exact ⟨_, rfl, forgets_store h hxy⟩

end Step

/-! ### Runs -/

/-- **A run that keeps the path keeps it when offsets are forgotten**, if every step meets the
condition. -/
theorem isSome_run_of_offsetOk {limit : Option ℕ} {F F' : AccessPath} {steps steps' : List Step}
    (h : Forgets F F') (hs : ∀ s ∈ steps, s.field ≠ topOffset)
    (hrep : List.Forall₂ Replaces steps steps') (hok : AllSteps OffsetOk limit F' steps')
    (hrun : (run limit F steps).isSome = true) : (run limit F' steps').isSome = true := by
  induction hrep generalizing F F' with
  | nil => rfl
  | @cons s s' steps steps' hss _ ih =>
    rw [run_cons] at hrun ⊢
    cases hG : applyStep limit F s with
    | none => simp [hG] at hrun
    | some G =>
      obtain ⟨G', hG', hforget⟩ := forgets_applyStep h (hs s List.mem_cons_self) hss hok.1 hG
      rw [hG, Option.bind_some] at hrun
      rw [hG', Option.bind_some]
      exact ih hforget (fun t ht => hs t (List.mem_cons_of_mem s ht)) (hok.2 G' hG') hrun

/-- A load with an unknown offset on a path that it keeps meets the condition. -/
theorem offsetOk_of_sumFits {limit : Option ℕ} {F : AccessPath} {s : Step} (hfit : SumFits F s)
    (hkeep : (applyStep limit F s).isSome = true) : OffsetOk F s := by
  refine ⟨hfit, ?_⟩
  rintro rfl head hhead
  obtain ⟨next, hF⟩ : ∃ next, F.stores = head :: next := by
    cases hF : F.stores with
    | nil => simp [hF] at hhead
    | cons a next => exact ⟨next, by simp_all⟩
  simp only [applyStep, applyOneGepAndLoad_cons hF] at hkeep
  split_ifs at hkeep with hne
  · simp at hkeep
  · tauto

/-- In a run that keeps the path, sums that fit are all that the condition asks. -/
theorem offsetOk_of_run {limit : Option ℕ} {F : AccessPath} {steps : List Step}
    (hfit : AllSteps SumFits limit F steps) (hrun : (run limit F steps).isSome = true) :
    AllSteps OffsetOk limit F steps := by
  induction steps generalizing F with
  | nil => trivial
  | cons s steps ih =>
    rw [run_cons] at hrun
    cases hG : applyStep limit F s with
    | none => simp [hG] at hrun
    | some G =>
      rw [hG, Option.bind_some] at hrun
      refine ⟨offsetOk_of_sumFits hfit.1 (by rw [hG]; rfl), fun F' hF' => ?_⟩
      obtain rfl : G = F' := Option.some.inj (hG.symm.trans hF')
      exact ih (hfit.2 G hG) hrun

theorem int32_field_of_replaces {s s' : Step} (hs : Concrete s.field) (h : Replaces s s') :
    Int32 s'.field := by
  rcases forgotten_field h with heq | heq
  · rw [heq]
    exact hs.int32
  · rw [heq]
    decide

/-- **Unknown offsets only over-approximate exactly under the condition.** For steps with known
offsets that keep the empty path, and the same steps with some offsets forgotten: the path is kept,
and all sums are exact, if and only if every step of the run is `OffsetOk`. In any run the sums are
exact if and only if every step is `SumFits`. -/
theorem unknown_offsets_iff (limit : Option ℕ) :
    (∀ steps steps', (∀ s ∈ steps, Concrete s.field) → List.Forall₂ Replaces steps steps' →
      (run limit .epsilon steps).isSome = true →
      ((run limit .epsilon steps').isSome = true ∧ AllSteps Exact limit .epsilon steps' ↔
        AllSteps OffsetOk limit .epsilon steps')) ∧
    ∀ steps, (∀ s ∈ steps, Int32 s.field) →
      (AllSteps Exact limit .epsilon steps ↔ AllSteps SumFits limit .epsilon steps) := by
  have hexact : ∀ steps, (∀ s ∈ steps, Int32 s.field) →
      (AllSteps Exact limit .epsilon steps ↔ AllSteps SumFits limit .epsilon steps) :=
    fun steps h32 => ⟨AllSteps.imp fun F s hs => (exact_iff_sumFits (h32 s hs)).1,
      AllSteps.imp fun F s hs => (exact_iff_sumFits (h32 s hs)).2⟩
  refine ⟨fun steps steps' hs hrep hrun => ?_, hexact⟩
  have h32 : ∀ s' ∈ steps', Int32 s'.field := by
    intro s' hs'
    obtain ⟨i, hi, rfl⟩ := List.mem_iff_getElem.1 hs'
    have hlen := hrep.length_eq
    exact int32_field_of_replaces (hs _ (List.getElem_mem (hlen ▸ hi)))
      (List.Forall₂.get hrep (hlen ▸ hi) hi)
  constructor
  · rintro ⟨hsome, hex⟩
    exact offsetOk_of_run ((hexact steps' h32).1 hex) hsome
  · intro hok
    refine ⟨isSome_run_of_offsetOk (.refl _) (fun s hm => (hs s hm).ne_top) hrep hok hrun, ?_⟩
    exact (hexact steps' h32).2 (hok.imp fun F s _ h => h.1)

/-- A store at a known offset and a load at an unknown one from a pointer moved there and back. -/
theorem unknown_offsets_iff_gep :
    (run none .epsilon [.gep topOffset, .store topOffset, .load 4]).isSome = true ∧
      AllSteps Exact none .epsilon [.gep topOffset, .store topOffset, .load 4] :=
  ((unknown_offsets_iff none).1 [.gep 8, .store 4, .load 4]
    [.gep topOffset, .store topOffset, .load 4] (by decide)
    (.cons (Or.inr rfl) (.cons (Or.inr rfl) (.cons (Or.inl rfl) .nil))) (by decide)).2 (by decide)

/-- A path with a pending store is lost when the offset of its load is forgotten. The sum of a load
overflows next to an unknown offset, and so does the negation of an unknown offset. -/
theorem forgotten_load_lost :
    ((run none .epsilon [.store 4, .load 4]).isSome = true ∧
      List.Forall₂ Replaces [.store 4, .load 4] [.store 4, .load topOffset] ∧
      run none .epsilon [.store 4, .load topOffset] = none) ∧
    ¬ AllSteps Exact none .epsilon [.gep topOffset, .load (-1)] ∧
    ¬ AllSteps Exact none .epsilon [.gep topOffset, .load 8] ∧
    ¬ AllSteps Exact none .epsilon [.store 4, .gep topOffset] :=
  ⟨⟨by decide, .cons (Or.inl rfl) (.cons (Or.inr rfl) .nil), by decide⟩, by decide, by decide,
    by decide⟩

end Phasar.CFLFieldSens
