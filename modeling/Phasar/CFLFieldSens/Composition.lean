import Phasar.CFLFieldSens.PathAlgebra

/-!
# Composing field-sensitive edge functions

Applying `L` and then `R` to a set of paths, against applying what `R` makes of `L`.

* `Plain`: replaying the path keeps its meaning; it has no offset pending after loads or kills;
* `Composable`: replaying the composition of two paths has the effect of replaying both;
* `applyTransforms_comp`: the composition law holds for sets of composable paths, and for single
  paths only for those;
* `comp_load_gep`: a load followed by pointer arithmetic does not compose.
-/

namespace Phasar.CFLFieldSens

/-! ### Plain paths -/

/-- No offset is pending after loads or kills. -/
def Plain (t : AccessPath) : Prop := t.offset = 0 ∨ t.loads = [] ∧ t.kills = .empty

instance (t : AccessPath) : Decidable (Plain t) := inferInstanceAs (Decidable (_ ∨ _))

theorem replayed_stores (t : AccessPath) : (replayed t).stores = t.stores := by
  unfold replayed
  split <;> rfl

theorem replayed_nil (stores : List ℤ) (kills : KillSet) (offset : ℤ) :
    replayed ⟨[], stores, kills, offset⟩ = ⟨[], stores, kills.shift offset, offset⟩ := rfl

theorem replayed_concat (loads stores : List ℤ) (load : ℤ) (kills : KillSet) (offset : ℤ) :
    replayed ⟨loads ++ [load], stores, kills, offset⟩ =
      ⟨loads ++ [offset + load], stores, kills, 0⟩ := by
  simp [replayed]

theorem replayed_of_offset {t : AccessPath} (h : t.offset = 0) : replayed t = t := by
  obtain ⟨loads, stores, kills, offset⟩ := t
  obtain rfl : offset = 0 := h
  rcases List.eq_nil_or_concat' loads with rfl | ⟨loads, load, rfl⟩
  · rw [replayed_nil, KillSet.shift_zero]
  · rw [replayed_concat, zero_add]

theorem KillSet.shift_eq_self_iff {K : KillSet} {o : ℤ} : K.shift o = K ↔ o = 0 ∨ K = .empty := by
  constructor
  · intro h
    obtain ⟨offsets, hs⟩ := K
    rcases offsets with _ | ⟨x, offsets⟩
    · exact Or.inr rfl
    · have hx := (List.cons.inj (congrArg KillSet.offsets h)).1
      exact Or.inl (by simpa using hx)
  · rintro (rfl | rfl)
    · exact K.shift_zero
    · exact shift_empty o

theorem replayed_eq_self_iff {t : AccessPath} : replayed t = t ↔ Plain t := by
  obtain ⟨loads, stores, kills, offset⟩ := t
  rcases List.eq_nil_or_concat' loads with rfl | ⟨loads, load, rfl⟩
  · rw [replayed_nil]
    simp [Plain, KillSet.shift_eq_self_iff]
  · constructor
    · intro h
      rw [replayed_concat] at h
      exact Or.inl (congrArg AccessPath.offset h).symm
    · rintro (h | ⟨h, -⟩)
      · exact replayed_of_offset h
      · simp at h

theorem replayed_offset {t : AccessPath} (h : (replayed t).loads ≠ []) : (replayed t).offset = 0 := by
  obtain ⟨loads, stores, kills, offset⟩ := t
  rcases List.eq_nil_or_concat' loads with rfl | ⟨loads, load, rfl⟩
  · exact absurd rfl h
  · rw [replayed_concat]

theorem epsilon_compose (p : AccessPath) : compose .epsilon p = some p := by
  rw [← exactRun_eq_compose (exactRun_steps p), exactRun_steps]

/-! ### Composable paths -/

/-- Replaying `r` after `l` moves the offsets of both. Whether this agrees with replaying what `r` makes
of `l` depends on how far the loads of `r` get into the stores of `l`. -/
def Composable (l r : AccessPath) : Prop :=
  match consume (replayed r).loads.reverse l.stores with
  | .mismatch => True
  | .inside _ _ => True
  | .exact =>
    if l.loads = [] then
      l.kills ∪ (replayed r).kills =
        (l.kills ∪ (replayed r).kills.shift l.offset).shift (replayed r).offset
    else (replayed r).offset = 0 ∧
      l.kills ∪ (replayed r).kills = l.kills ∪ (replayed r).kills.shift l.offset
  | .beyond load _ =>
    if l.loads = [] then (load ∈ l.kills ↔ l.offset + load ∈ l.kills)
    else l.offset = 0 ∨ load ∈ l.kills ∧ l.offset + load ∈ l.kills

instance (l r : AccessPath) : Decidable (Composable l r) := by
  unfold Composable
  split <;> infer_instance

theorem composable_exact {ls S S' : List ℤ} {K K' : KillSet} {o o' : ℤ} :
    (if ls = [] then K ∪ K' = (K ∪ K'.shift o).shift o'
      else o' = 0 ∧ K ∪ K' = K ∪ K'.shift o) ↔
    { replayed ⟨ls, S, K, o⟩ with
      kills := (replayed ⟨ls, S, K, o⟩).kills ∪ K'.shift (replayed ⟨ls, S, K, o⟩).offset
      offset := (replayed ⟨ls, S, K, o⟩).offset + o'
      stores := S' } = replayed ⟨ls, S', K ∪ K'.shift o, o + o'⟩ := by
  rcases List.eq_nil_or_concat' ls with rfl | ⟨loads, load, rfl⟩
  · have hsum : (K ∪ K'.shift o).shift (o + o') = ((K ∪ K'.shift o).shift o').shift o :=
      KillSet.ext fun x => by simp [sub_sub]
    have hunion : K.shift o ∪ K'.shift o = (K ∪ K').shift o := KillSet.ext fun x => by simp
    simp only [replayed_nil, AccessPath.mk.injEq, true_and, and_true, hsum, hunion, if_true]
    exact ⟨fun h => by rw [h], KillSet.shift_injective o⟩
  · have hne : loads ++ [load] ≠ [] := by simp
    simp only [replayed_concat, if_neg hne, AccessPath.mk.injEq, KillSet.shift_zero, zero_add,
      List.append_cancel_left_eq, List.cons.injEq, and_true, true_and]
    constructor
    · rintro ⟨rfl, hk⟩
      exact ⟨by omega, hk, rfl⟩
    · rintro ⟨-, hk, h⟩
      exact ⟨h, hk⟩

theorem composable_beyond {ls S : List ℤ} {K : KillSet} {o load : ℤ} {loads : List ℤ}
    {r : AccessPath} (hr : r.offset = 0) :
    (if ls = [] then (load ∈ K ↔ o + load ∈ K)
      else o = 0 ∨ load ∈ K ∧ o + load ∈ K) ↔
    (if (replayed ⟨ls, S, K, o⟩).offset + load ∈ (replayed ⟨ls, S, K, o⟩).kills then none
      else some { r with
        loads := loads.reverse ++
          ((replayed ⟨ls, S, K, o⟩).offset + load) :: (replayed ⟨ls, S, K, o⟩).loads }) =
    (if o + load ∈ K then none
      else some { r with loads := loads.reverse ++ (o + load) :: ls }).map replayed := by
  -- the composition is plain
  have hmap : (if o + load ∈ K then none
      else some { r with loads := loads.reverse ++ (o + load) :: ls }).map replayed =
      if o + load ∈ K then none else some { r with loads := loads.reverse ++ (o + load) :: ls } := by
    split_ifs
    · rfl
    · exact congrArg some (replayed_of_offset hr)
  rw [hmap]
  rcases List.eq_nil_or_concat' ls with rfl | ⟨ls, first, rfl⟩
  · simp only [replayed_nil, KillSet.mem_shift, add_sub_cancel_left, if_true]
    by_cases h₁ : load ∈ K <;> by_cases h₂ : o + load ∈ K <;> simp [h₁, h₂]
  · have hne : ls ++ [first] ≠ [] := by simp
    simp only [replayed_concat, if_neg hne, zero_add]
    by_cases h₁ : load ∈ K <;> by_cases h₂ : o + load ∈ K
    · simp [h₁, h₂]
    · have ho : o ≠ 0 := by
        rintro rfl
        rw [zero_add] at h₂
        exact h₂ h₁
      simp [h₁, h₂, ho]
    · have ho : o ≠ 0 := by
        rintro rfl
        rw [zero_add] at h₂
        exact h₁ h₂
      simp [h₁, h₂, ho]
    · simp [h₁, h₂]

/-- Two paths are composable just when replaying both is replaying their composition. -/
theorem composable_iff {l r : AccessPath} :
    Composable l r ↔
      compose (replayed l) (replayed r) = (compose l (replayed r)).map replayed := by
  have hr := @replayed_offset r
  unfold Composable compose
  rw [replayed_stores]
  generalize replayed r = r' at hr ⊢
  rcases hc : consume r'.loads.reverse l.stores with _ | ⟨head, next⟩ | _ | ⟨load, loads⟩
  · simp
  · obtain ⟨ls, S, K, o⟩ := l
    by_cases hk : head ∈ r'.kills
    · simp [hk]
    · rcases List.eq_nil_or_concat' ls with rfl | ⟨loads, load, rfl⟩
      · simp [hk, replayed_nil]
      · simp [hk, replayed_concat]
  · exact composable_exact.trans Option.some_inj.symm
  · apply composable_beyond
    apply hr
    rintro hnil
    rw [hnil] at hc
    rcases hS : l.stores with _ | ⟨head, next⟩ <;> simp [hS, consume] at hc

/-! ### Sets of paths -/

/-- Applying `txns` to `EV` stays below the limit and within the offsets. Nothing is replayed on `ε`. -/
def SafeTransforms (limit : Option ℕ) (EV txns : Paths) : Prop :=
  EV ≠ {.epsilon} → ∀ F ∈ EV, ∀ txn ∈ txns, SafeRun limit F (replay txn)

theorem applyTransforms_epsilon (limit : Option ℕ) (txns : Paths) :
    applyTransforms limit {.epsilon} txns = txns := by
  have h : ∀ txn, applyTransform limit {.epsilon} txn = {txn} := by
    intro txn
    by_cases htxn : txn = .epsilon <;>
      simp [applyTransform, isEpsilon, AccessPath.empty, htxn]
  ext y
  simp [applyTransforms, h]

theorem epsilon_applyTransforms (limit : Option ℕ) (EV : Paths) :
    applyTransforms limit EV {.epsilon} = EV := by
  simp [applyTransforms, applyTransform, AccessPath.empty]

theorem mem_applyTransforms {limit : Option ℕ} {EV txns : Paths} {y : AccessPath}
    (hs : SafeTransforms limit EV txns) (hEV : EV ≠ {.epsilon}) :
    y ∈ applyTransforms limit EV txns ↔
      ∃ x ∈ EV, ∃ txn ∈ txns, compose x (replayed txn) = some y := by
  have h : ∀ txn ∈ txns, (y ∈ applyTransform limit EV txn ↔
      ∃ x ∈ EV, compose x (replayed txn) = some y) := by
    intro txn htxn
    unfold applyTransform
    split_ifs with h₁ h₂
    · rcases h₁ with rfl | h₁
      · simp
      · obtain rfl : txn = .epsilon := by simpa [AccessPath.empty] using h₁
        have hε : replayed .epsilon = .epsilon := replayed_of_offset rfl
        simp [hε]
    · exact absurd (by simpa [isEpsilon] using h₂) hEV
    · simp only [Finset.mem_biUnion, Option.mem_toFinset, Option.mem_def]
      exact exists_congr fun x => and_congr_right fun hx => by
        rw [applyTransformImpl_eq_compose (hs hEV x hx txn htxn)]
  simp only [applyTransforms, Finset.mem_biUnion]
  constructor
  · rintro ⟨txn, htxn, hy⟩
    obtain ⟨x, hx, hy⟩ := (h txn htxn).1 hy
    exact ⟨x, hx, txn, htxn, hy⟩
  · rintro ⟨x, hx, txn, htxn, hy⟩
    exact ⟨txn, htxn, (h txn htxn).2 ⟨x, hx, hy⟩⟩

instance (limit : Option ℕ) (EV txns : Paths) : Decidable (SafeTransforms limit EV txns) :=
  inferInstanceAs (Decidable (_ → ∀ F ∈ EV, ∀ txn ∈ txns, SafeRun limit F (replay txn)))

/-- No computation on either side of the composition law reaches the limit or overflows. -/
structure SafeComp (limit : Option ℕ) (X L R : Paths) : Prop where
  left : SafeTransforms limit X L
  leftRight : SafeTransforms limit (applyTransforms limit X L) R
  comp : SafeTransforms limit L R
  right : SafeTransforms limit X (applyTransforms limit L R)

/-- The composition law. -/
def CompLaw (limit : Option ℕ) (X L R : Paths) : Prop :=
  applyTransforms limit (applyTransforms limit X L) R =
    applyTransforms limit X (applyTransforms limit L R)

/-- `L` and `R` compose: path by path, and where `L` may turn a path into `ε`, on which `R` is taken
verbatim, replaying does not change `R`. -/
def Composes (L R : Paths) : Prop :=
  L = {.epsilon} ∨ (∀ l ∈ L, ∀ r ∈ R, Composable l r) ∧
    ((∃ l ∈ L, l ≠ .epsilon ∧ l.kills = .empty ∧ l.stores = []) → ∀ r ∈ R, Plain r)

instance (L R : Paths) : Decidable (Composes L R) := inferInstanceAs (Decidable (_ ∨ _ ∧ (_ → _)))

section Law

variable {limit : Option ℕ} {X L R : Paths} (hs : SafeComp limit X L R) (hX : X ≠ {.epsilon})
  (hL : L ≠ {.epsilon})

include hs hX

theorem mem_comp_left (hXL : applyTransforms limit X L ≠ {.epsilon}) {y : AccessPath} :
    y ∈ applyTransforms limit (applyTransforms limit X L) R ↔
      ∃ x ∈ X, ∃ l ∈ L, ∃ r ∈ R,
        (compose (replayed l) (replayed r)).bind (compose x) = some y := by
  rw [mem_applyTransforms hs.leftRight hXL]
  simp only [mem_applyTransforms hs.left hX, ← compose_assoc, Option.bind_eq_some_iff]
  constructor
  · rintro ⟨z, ⟨x, hx, l, hl, hz⟩, r, hr, hy⟩
    exact ⟨x, hx, l, hl, r, hr, z, hz, hy⟩
  · rintro ⟨x, hx, l, hl, r, hr, z, hz, hy⟩
    exact ⟨z, ⟨x, hx, l, hl, hz⟩, r, hr, hy⟩

include hL

theorem mem_comp_right {y : AccessPath} :
    y ∈ applyTransforms limit X (applyTransforms limit L R) ↔
      ∃ x ∈ X, ∃ l ∈ L, ∃ r ∈ R,
        ((compose l (replayed r)).map replayed).bind (compose x) = some y := by
  rw [mem_applyTransforms hs.right hX]
  simp only [mem_applyTransforms hs.comp hL, Option.bind_eq_some_iff, Option.map_eq_some_iff]
  constructor
  · rintro ⟨x, hx, m, ⟨l, hl, r, hr, hm⟩, hy⟩
    exact ⟨x, hx, l, hl, r, hr, replayed m, ⟨m, hm, rfl⟩, hy⟩
  · rintro ⟨x, hx, l, hl, r, hr, _, ⟨m, hm, rfl⟩, hy⟩
    exact ⟨x, hx, m, ⟨l, hl, r, hr, hm⟩, hy⟩

end Law

/-- A composition that yields `ε` has no kills or stores in its second path. -/
theorem of_compose_eq_epsilon {x p : AccessPath} (h : compose x p = some .epsilon) :
    p.kills = .empty ∧ p.stores = [] := by
  unfold compose at h
  generalize consume p.loads.reverse x.stores = c at h
  rcases c with _ | ⟨head, next⟩ | _ | ⟨load, loads⟩
  · simp at h
  · dsimp only at h
    split_ifs at h
    simp [AccessPath.epsilon] at h
  · simp only [AccessPath.epsilon, Option.some.injEq, AccessPath.mk.injEq] at h
    obtain ⟨-, hS, hK, -⟩ := h
    refine ⟨KillSet.ext fun y => ⟨fun hy => ?_, fun hy => absurd hy (KillSet.not_mem_empty y)⟩, hS⟩
    have hmem : y + x.offset ∈ x.kills ∪ p.kills.shift x.offset := by simp [hy]
    rw [hK] at hmem
    exact absurd hmem (KillSet.not_mem_empty _)
  · dsimp only at h
    split_ifs at h
    simp [AccessPath.epsilon] at h

theorem kills_of_replayed {t : AccessPath} (h : (replayed t).kills = .empty) : t.kills = .empty := by
  obtain ⟨loads, stores, kills, offset⟩ := t
  rcases List.eq_nil_or_concat' loads with rfl | ⟨loads, load, rfl⟩
  · rw [replayed_nil] at h
    exact KillSet.shift_injective offset (h.trans (KillSet.shift_empty offset).symm)
  · rwa [replayed_concat] at h

/-- The law for composable sets. -/
theorem compLaw_of_composes {limit : Option ℕ} {X L R : Paths} (hs : SafeComp limit X L R)
    (h : Composes L R) : CompLaw limit X L R := by
  unfold CompLaw
  by_cases hX : X = {.epsilon}
  · rw [hX, applyTransforms_epsilon, applyTransforms_epsilon]
  by_cases hL : L = {.epsilon}
  · rw [hL, epsilon_applyTransforms, applyTransforms_epsilon]
  obtain ⟨hpair, hplain⟩ := h.resolve_left hL
  have hright : ∀ y, y ∈ applyTransforms limit X (applyTransforms limit L R) ↔
      ∃ x ∈ X, ∃ l ∈ L, ∃ r ∈ R,
        (compose (replayed l) (replayed r)).bind (compose x) = some y := by
    intro y
    rw [mem_comp_right hs hX hL]
    exact exists_congr fun x => and_congr_right fun _ => exists_congr fun l =>
      and_congr_right fun hl => exists_congr fun r => and_congr_right fun hr => by
        rw [composable_iff.1 (hpair l hl r hr)]
  ext y
  by_cases hXL : applyTransforms limit X L = {.epsilon}
  · -- `R` is taken verbatim
    have hmem : ∀ z, z = .epsilon ↔ ∃ x ∈ X, ∃ l ∈ L, compose x (replayed l) = some z := by
      intro z
      rw [← mem_applyTransforms hs.left hX, hXL, Finset.mem_singleton]
    obtain ⟨x₀, hx₀, l₀, hl₀, h₀⟩ := (hmem .epsilon).1 rfl
    have hl₀ε : l₀ ≠ .epsilon := by
      rintro rfl
      apply hX
      refine Finset.eq_singleton_iff_unique_mem.2 ⟨?_, fun x hx => (hmem x).2 ⟨x, hx, _, hl₀, ?_⟩⟩
      · rw [replayed_of_offset rfl, compose_epsilon] at h₀
        rwa [← Option.some.inj h₀]
      · rw [replayed_of_offset rfl, compose_epsilon]
    obtain ⟨hk, hS⟩ := of_compose_eq_epsilon h₀
    have hR : ∀ r ∈ R, replayed r = r := fun r hr => replayed_eq_self_iff.2
      (hplain ⟨l₀, hl₀, hl₀ε, kills_of_replayed hk, (replayed_stores l₀).symm.trans hS⟩ r hr)
    rw [hXL, applyTransforms_epsilon, hright]
    simp only [← compose_assoc, Option.bind_eq_some_iff]
    constructor
    · intro hy
      exact ⟨x₀, hx₀, l₀, hl₀, y, hy, _, h₀, by rw [hR y hy, epsilon_compose]⟩
    · rintro ⟨x, hx, l, hl, r, hr, z, hz, hy⟩
      obtain rfl := (hmem z).2 ⟨x, hx, l, hl, hz⟩
      rw [hR r hr, epsilon_compose, Option.some.injEq] at hy
      rwa [← hy]
  · rw [mem_comp_left hs hX hXL, hright]

/-! ### Single paths that do not compose -/

/-- A single gep. -/
def gepPath (field : ℤ) : AccessPath := ⟨[], [], .empty, field⟩

theorem compose_gepPath_nil (c : ℤ) (stores : List ℤ) (kills : KillSet) (offset : ℤ) :
    compose (gepPath c) ⟨[], stores, kills, offset⟩ =
      some ⟨[], stores, kills.shift c, c + offset⟩ := by
  simp [compose, consume, gepPath]

theorem compose_gepPath_concat (c : ℤ) (loads stores : List ℤ) (load : ℤ) (kills : KillSet)
    (offset : ℤ) : compose (gepPath c) ⟨loads ++ [load], stores, kills, offset⟩ =
      some ⟨loads ++ [c + load], stores, kills, offset⟩ := by
  simp [compose, consume, gepPath]

/-- Composing with a gep determines the path. -/
theorem compose_gepPath_injective (c : ℤ) {a b : AccessPath}
    (h : compose (gepPath c) a = compose (gepPath c) b) : a = b := by
  obtain ⟨la, Sa, Ka, oa⟩ := a
  obtain ⟨lb, Sb, Kb, ob⟩ := b
  rcases List.eq_nil_or_concat' la with rfl | ⟨la, a, rfl⟩ <;>
    rcases List.eq_nil_or_concat' lb with rfl | ⟨lb, b, rfl⟩ <;>
    simp only [compose_gepPath_nil, compose_gepPath_concat, Option.some.injEq,
      AccessPath.mk.injEq] at h
  · obtain ⟨-, rfl, hk, ho⟩ := h
    rw [KillSet.shift_injective c hk, add_left_cancel ho]
  · simp at h
  · simp at h
  · obtain ⟨hl, rfl, rfl, rfl⟩ := h
    obtain ⟨rfl, hl⟩ := List.append_inj' hl rfl
    simp at hl
    rw [hl]

theorem compose_gepPath_isSome (c : ℤ) (a : AccessPath) : ∃ b, compose (gepPath c) a = some b := by
  obtain ⟨loads, stores, kills, offset⟩ := a
  rcases List.eq_nil_or_concat' loads with rfl | ⟨loads, load, rfl⟩
  · exact ⟨_, compose_gepPath_nil ..⟩
  · exact ⟨_, compose_gepPath_concat ..⟩

/-- The path on which `l`, if it has no kills or stores, leaves `ε`. -/
def canceller (l : AccessPath) : AccessPath :=
  ⟨[], (replayed l).loads.reverse, .empty, -(replayed l).offset⟩

theorem consume_self (loads : List ℤ) : consume loads loads = .exact := by
  induction loads with
  | nil => rfl
  | cons load loads ih => rwa [consume, if_pos rfl]

theorem compose_canceller {l : AccessPath} (hk : l.kills = .empty) (hS : l.stores = []) :
    compose (canceller l) (replayed l) = some .epsilon := by
  have hk' : (replayed l).kills = .empty := by
    obtain ⟨loads, stores, kills, offset⟩ := l
    obtain rfl : kills = .empty := hk
    rcases List.eq_nil_or_concat' loads with rfl | ⟨loads, load, rfl⟩
    · exact KillSet.shift_empty offset
    · rw [replayed_concat]
  simp [compose, canceller, consume_self, hk', replayed_stores, hS, AccessPath.epsilon]

theorem canceller_ne_epsilon {l : AccessPath} (hl : l ≠ .epsilon) (hk : l.kills = .empty)
    (hS : l.stores = []) : canceller l ≠ .epsilon := by
  intro h
  apply hl
  have hc := compose_canceller hk hS
  rw [h, epsilon_compose, Option.some.injEq] at hc
  obtain ⟨loads, stores, kills, offset⟩ := l
  rcases List.eq_nil_or_concat' loads with rfl | ⟨loads, load, rfl⟩
  · rw [replayed_nil] at hc
    simp only [AccessPath.epsilon, AccessPath.mk.injEq] at hc ⊢
    exact ⟨trivial, hc.2.1, hk, hc.2.2.2⟩
  · rw [replayed_concat] at hc
    simp [AccessPath.epsilon] at hc

section Single

variable {limit : Option ℕ} {l r : AccessPath} (hl : l ≠ .epsilon)

include hl

/-- On a gep, the law for `l` and `r` holds only if they are composable. -/
theorem composable_of_compLaw {c : ℤ} (hc : c ≠ 0) (hcl : c + l.offset ≠ 0)
    (hs : SafeComp limit {gepPath c} {l} {r}) (hlaw : CompLaw limit {gepPath c} {l} {r}) :
    Composable l r := by
  have hX : ({gepPath c} : Paths) ≠ {.epsilon} := by
    simp [gepPath, AccessPath.epsilon, hc]
  have hL : ({l} : Paths) ≠ {.epsilon} := by simpa using hl
  have hXL : applyTransforms limit {gepPath c} {l} ≠ {.epsilon} := by
    intro h
    have hε : AccessPath.epsilon ∈ applyTransforms limit {gepPath c} {l} := by simp [h]
    obtain ⟨x, hx, l', hl', hε⟩ := (mem_applyTransforms hs.left hX).1 hε
    rw [Finset.mem_singleton.1 hx, Finset.mem_singleton.1 hl'] at hε
    obtain ⟨loads, stores, kills, offset⟩ := l
    rcases List.eq_nil_or_concat' loads with rfl | ⟨loads, load, rfl⟩
    · rw [replayed_nil, compose_gepPath_nil, AccessPath.epsilon, Option.some.injEq,
        AccessPath.mk.injEq] at hε
      exact hcl hε.2.2.2
    · rw [replayed_concat, compose_gepPath_concat] at hε
      simp [AccessPath.epsilon] at hε
  have hbind : (compose (replayed l) (replayed r)).bind (compose (gepPath c)) =
      ((compose l (replayed r)).map replayed).bind (compose (gepPath c)) := by
    refine Option.ext fun y => ?_
    have hy : y ∈ applyTransforms limit (applyTransforms limit {gepPath c} {l}) {r} ↔
        y ∈ applyTransforms limit {gepPath c} (applyTransforms limit {l} {r}) := by rw [hlaw]
    rw [mem_comp_left hs hX hXL, mem_comp_right hs hX hL] at hy
    simpa only [Finset.mem_singleton, exists_eq_left, Option.mem_def] using hy
  rw [composable_iff]
  generalize compose (replayed l) (replayed r) = A at hbind ⊢
  generalize (compose l (replayed r)).map replayed = B at hbind ⊢
  cases A with
  | none =>
    cases B with
    | none => rfl
    | some b =>
      obtain ⟨y, hy⟩ := compose_gepPath_isSome c b
      simp [hy] at hbind
  | some a =>
    cases B with
    | none =>
      obtain ⟨y, hy⟩ := compose_gepPath_isSome c a
      simp [hy] at hbind
    | some b => rw [compose_gepPath_injective c hbind]

/-- Where `l` turns its canceller into `ε`, the law holds only if replaying does not change `r`. -/
theorem plain_of_compLaw (hk : l.kills = .empty) (hS : l.stores = []) (hlr : Composable l r)
    (hs : SafeComp limit {canceller l} {l} {r}) (hlaw : CompLaw limit {canceller l} {l} {r}) :
    Plain r := by
  have hX : ({canceller l} : Paths) ≠ {.epsilon} := by
    simpa using canceller_ne_epsilon hl hk hS
  have hL : ({l} : Paths) ≠ {.epsilon} := by simpa using hl
  have hXL : applyTransforms limit {canceller l} {l} = {.epsilon} := by
    ext y
    rw [mem_applyTransforms hs.left hX]
    simp [compose_canceller hk hS, eq_comm]
  have hr : r ∈ applyTransforms limit {canceller l} (applyTransforms limit {l} {r}) := by
    rw [← hlaw, hXL, applyTransforms_epsilon]
    exact Finset.mem_singleton_self r
  rw [mem_comp_right hs hX hL] at hr
  simp only [Finset.mem_singleton, exists_eq_left] at hr
  rw [← composable_iff.1 hlr, ← compose_assoc, compose_canceller hk hS, Option.bind_some,
    epsilon_compose, Option.some.injEq] at hr
  exact replayed_eq_self_iff.1 hr

end Single

theorem composes_singleton_iff {limit : Option ℕ} {l r : AccessPath} {c : ℤ} (hc : c ≠ 0)
    (hcl : c + l.offset ≠ 0) (hgep : SafeComp limit {gepPath c} {l} {r})
    (hcancel : SafeComp limit {canceller l} {l} {r}) :
    (∀ X, SafeComp limit X {l} {r} → CompLaw limit X {l} {r}) ↔ Composes {l} {r} := by
  refine ⟨fun h => ?_, fun h X hs => compLaw_of_composes hs h⟩
  by_cases hl : l = .epsilon
  · exact Or.inl (congrArg _ hl)
  · have hlr := composable_of_compLaw hl hc hcl hgep (h _ hgep)
    refine Or.inr ⟨by simpa using hlr, ?_⟩
    rintro ⟨l', hl', -, hk, hS⟩ r' hr'
    rw [Finset.mem_singleton.1 hl'] at hk hS
    rw [Finset.mem_singleton.1 hr']
    exact plain_of_compLaw hl hk hS hlr hcancel (h _ hcancel)

/-- The composition law holds for all sets of paths that compose; two single paths satisfy it on all
sets, or only on the two test sets, just when they compose. -/
theorem applyTransforms_comp (limit : Option ℕ) :
    (∀ X L R, SafeComp limit X L R → Composes L R → CompLaw limit X L R) ∧
    ∀ (l r : AccessPath) (c : ℤ), c ≠ 0 → c + l.offset ≠ 0 →
      SafeComp limit {gepPath c} {l} {r} → SafeComp limit {canceller l} {l} {r} →
      ((∀ X, SafeComp limit X {l} {r} → CompLaw limit X {l} {r}) ↔ Composes {l} {r}) :=
  ⟨fun _ _ _ hs h => compLaw_of_composes hs h,
    fun _ _ _ hc hcl hgep hcancel => composes_singleton_iff hc hcl hgep hcancel⟩

theorem applyTransforms_comp_loads :
    CompLaw none {⟨[], [0], .empty, 0⟩} {⟨[0], [8], .empty, 0⟩} {⟨[8], [], .empty, 0⟩} ∧
    ((∀ X, SafeComp none X {⟨[0], [], .empty, 0⟩} {⟨[4], [], .empty, 0⟩} →
      CompLaw none X {⟨[0], [], .empty, 0⟩} {⟨[4], [], .empty, 0⟩}) ↔
      Composes {⟨[0], [], .empty, 0⟩} {⟨[4], [], .empty, 0⟩}) :=
  ⟨(applyTransforms_comp none).1 _ _ _ ⟨by decide, by decide, by decide, by decide⟩ (by decide),
    (applyTransforms_comp none).2 _ _ 1 (by decide) (by decide)
      ⟨by decide, by decide, by decide, by decide⟩ ⟨by decide, by decide, by decide, by decide⟩⟩

/-- The sets built from single transforms. -/
inductive Built (limit : Option ℕ) : Paths → Prop
  | gep (field : ℤ) (h : Concrete field) : Built limit {gepPath field}
  | load (field : ℤ) (h : Concrete field) : Built limit {⟨[field], [], .empty, 0⟩}
  | kill (field : ℤ) (h : Concrete field) : Built limit {⟨[], [], KillSet.empty.insert field, 0⟩}
  | store (field : ℤ) (h : Concrete field) : Built limit {⟨[], [field], .empty, 0⟩}
  | apply {EV txns : Paths} : Built limit EV → Built limit txns →
      Built limit (applyTransforms limit EV txns)

/-- After a store at `0`, loading and then moving the pointer is replayed as moving it first, and the
path is lost. -/
theorem comp_load_gep :
    ¬ ∀ (limit : Option ℕ) (X L R : Paths), Built limit X → Built limit L → Built limit R →
      SafeComp limit X L R → CompLaw limit X L R := by
  intro h
  have hlaw := h none {⟨[], [0], .empty, 0⟩} {⟨[0], [], .empty, 0⟩} {gepPath 4}
    (.store 0 (by decide)) (.load 0 (by decide)) (.gep 4 (by decide))
    ⟨by decide, by decide, by decide, by decide⟩
  exact absurd hlaw (by unfold CompLaw; decide)

end Phasar.CFLFieldSens
