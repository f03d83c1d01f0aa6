import Mathlib.Order.SupClosed
import Mathlib.Tactic

/-!
# Weighted deduction

Items `K` are derived by axioms, by rules with one premise and by rules with two premises, and every
derivation carries a weight in a join semilattice `E`. A predicate `Z` marks the weights that count
as "not derived"; a derivation of such a weight is dropped at once. The value of an item is the join
of the weights of its derivations.

* `Rules`, `Deriv`: the rules and their derivations;
* `Conclusion`, `Applies`: the rule applications to the values of a table;
* `Closed`, `Sound`: a table of values is closed under the rules, and each of its values is a finite
  join of derivation weights;
* `isLUB_of_closed`: a closed and sound table holds exactly the joins of the derivation weights, so
  two such tables are equal (`eq_of_closed`);
* `Rules.le`, `eq_iff_closed`: the tables of a larger and of a smaller set of rules agree exactly
  when the table of the smaller one is already closed under the larger.
-/

namespace Deduction

variable {K E : Type*}

/-- Axioms, one-premise rules and two-premise rules, each with its action on weights. -/
structure Rules (K E : Type*) where
  ax : K → E → Prop
  un : K → K → (E → E) → Prop
  bin : K → K → K → (E → E → E) → Prop

/-- The derivations; a weight with `Z` is never derived. -/
inductive Deriv (R : Rules K E) (Z : E → Prop) : K → E → Prop
  | ax {k e} : R.ax k e → ¬ Z e → Deriv R Z k e
  | un {k k' f e} : R.un k k' f → Deriv R Z k e → ¬ Z (f e) → Deriv R Z k' (f e)
  | bin {k₁ k₂ k₃ f e₁ e₂} : R.bin k₁ k₂ k₃ f → Deriv R Z k₁ e₁ → Deriv R Z k₂ e₂ →
      ¬ Z (f e₁ e₂) → Deriv R Z k₃ (f e₁ e₂)

/-- Inclusion of rules. -/
structure Rules.Le (R S : Rules K E) : Prop where
  ax : ∀ {k e}, R.ax k e → S.ax k e
  un : ∀ {k k' f}, R.un k k' f → S.un k k' f
  bin : ∀ {k₁ k₂ k₃ f}, R.bin k₁ k₂ k₃ f → S.bin k₁ k₂ k₃ f

theorem Deriv.mono {R S : Rules K E} {Z : E → Prop} (h : R.Le S) {k : K} {e : E}
    (hd : Deriv R Z k e) : Deriv S Z k e := by
  induction hd with
  | ax ha hz => exact .ax (h.ax ha) hz
  | un hu _ hz ih => exact .un (h.un hu) ih hz
  | bin hb _ _ hz ih₁ ih₂ => exact .bin (h.bin hb) ih₁ ih₂ hz

theorem Deriv.un_eq {R : Rules K E} {Z : E → Prop} {k k' : K} {f : E → E} {e e' : E}
    (hr : R.un k k' f) (hd : Deriv R Z k e) (he : f e = e') (hz : ¬ Z e') : Deriv R Z k' e' := by
  subst he
  exact .un hr hd hz

theorem Deriv.bin_eq {R : Rules K E} {Z : E → Prop} {k₁ k₂ k₃ : K} {f : E → E → E} {e₁ e₂ e : E}
    (hr : R.bin k₁ k₂ k₃ f) (h₁ : Deriv R Z k₁ e₁) (h₂ : Deriv R Z k₂ e₂) (he : f e₁ e₂ = e)
    (hz : ¬ Z e) : Deriv R Z k₃ e := by
  subst he
  exact .bin hr h₁ h₂ hz

/-- A derivation is one under other rules for the same items, if each of its rules has a counterpart;
`A` holds of the weights of the new derivation. -/
theorem Deriv.transport {E' : Type*} {R : Rules K E} {R' : Rules K E'} {Z : E → Prop}
    {Z' A : E' → Prop} (hA : ∀ e, A e → ¬ Z' e) (ax : ∀ {k e}, R.ax k e → ∃ e', R'.ax k e' ∧ A e')
    (un : ∀ {k k' f}, R.un k k' f → ∃ f', R'.un k k' f' ∧ ∀ e, A e → A (f' e))
    (bin : ∀ {k₁ k₂ k₃ f}, R.bin k₁ k₂ k₃ f →
      ∃ f', R'.bin k₁ k₂ k₃ f' ∧ ∀ e₁ e₂, A e₁ → A e₂ → A (f' e₁ e₂)) {k : K} {e : E}
    (h : Deriv R Z k e) : ∃ e', Deriv R' Z' k e' ∧ A e' := by
  induction h with
  | ax ha _ =>
    obtain ⟨e', ha', hAe⟩ := ax ha
    exact ⟨e', .ax ha' (hA _ hAe), hAe⟩
  | un hu _ _ ih =>
    obtain ⟨e', hd, hAe⟩ := ih
    obtain ⟨f', hu', hf⟩ := un hu
    exact ⟨f' e', .un hu' hd (hA _ (hf _ hAe)), hf _ hAe⟩
  | bin hb _ _ _ ih₁ ih₂ =>
    obtain ⟨e₁, hd₁, hA₁⟩ := ih₁
    obtain ⟨e₂, hd₂, hA₂⟩ := ih₂
    obtain ⟨f', hb', hf⟩ := bin hb
    exact ⟨f' e₁ e₂, .bin hb' hd₁ hd₂ (hA _ (hf _ _ hA₁ hA₂)), hf _ _ hA₁ hA₂⟩

/-- No derived weight has `Z`. -/
theorem Deriv.not_zero {R : Rules K E} {Z : E → Prop} {k : K} {e : E} (hd : Deriv R Z k e) :
    ¬ Z e := by
  cases hd <;> assumption

/-- `p` is the conclusion of a rule applied to values of the table. -/
inductive Conclusion (R : Rules K E) (J : K → Option E) : K × E → Prop
  | un {k k' f e} : R.un k k' f → J k = some e → Conclusion R J (k', f e)
  | bin {k₁ k₂ k₃ f e₁ e₂} : R.bin k₁ k₂ k₃ f → J k₁ = some e₁ → J k₂ = some e₂ →
      Conclusion R J (k₃, f e₁ e₂)

/-- `p` is the conclusion of a rule with the value of `k` among its premises. -/
inductive Applies (R : Rules K E) (J : K → Option E) (k : K) : K × E → Prop
  | un {k' f e} : R.un k k' f → J k = some e → Applies R J k (k', f e)
  | left {k₂ k₃ f e₁ e₂} : R.bin k k₂ k₃ f → J k = some e₁ → J k₂ = some e₂ →
      Applies R J k (k₃, f e₁ e₂)
  | right {k₁ k₃ f e₁ e₂} : R.bin k₁ k k₃ f → J k₁ = some e₁ → J k = some e₂ →
      Applies R J k (k₃, f e₁ e₂)

theorem Applies.conclusion {R : Rules K E} {J : K → Option E} {k : K} {p : K × E}
    (h : Applies R J k p) : Conclusion R J p := by
  cases h with
  | un hr he => exact .un hr he
  | left hr h₁ h₂ => exact .bin hr h₁ h₂
  | right hr h₁ h₂ => exact .bin hr h₁ h₂

variable [SemilatticeSup E]

/-- The stored value, if any, is above `e`. -/
def Covers (o : Option E) (e : E) : Prop := ∃ e', o = some e' ∧ e ≤ e'

theorem Covers.mono {o : Option E} {e e' : E} (h : Covers o e) (hle : e' ≤ e) : Covers o e' := by
  obtain ⟨e₀, ho, h₀⟩ := h
  exact ⟨e₀, ho, hle.trans h₀⟩

@[simp] theorem covers_some {e' e : E} : Covers (some e') e ↔ e ≤ e' := by
  simp [Covers]

@[simp] theorem not_covers_none {e : E} : ¬ Covers none e := by
  simp [Covers]

/-- The actions of the rules are join homomorphisms in each premise. -/
structure Distributive (R : Rules K E) : Prop where
  un : ∀ {k k' f}, R.un k k' f → ∀ a b, f (a ⊔ b) = f a ⊔ f b
  bin_left : ∀ {k₁ k₂ k₃ f}, R.bin k₁ k₂ k₃ f → ∀ a b c, f (a ⊔ b) c = f a c ⊔ f b c
  bin_right : ∀ {k₁ k₂ k₃ f}, R.bin k₁ k₂ k₃ f → ∀ a b c, f a (b ⊔ c) = f a b ⊔ f a c

/-- A table of values is closed under the rules. -/
structure Closed (R : Rules K E) (Z : E → Prop) (J : K → Option E) : Prop where
  ax : ∀ {k e}, R.ax k e → ¬ Z e → Covers (J k) e
  un : ∀ {k k' f e}, R.un k k' f → J k = some e → ¬ Z (f e) → Covers (J k') (f e)
  bin : ∀ {k₁ k₂ k₃ f e₁ e₂}, R.bin k₁ k₂ k₃ f → J k₁ = some e₁ → J k₂ = some e₂ →
      ¬ Z (f e₁ e₂) → Covers (J k₃) (f e₁ e₂)

/-- The finite joins of derivation weights of an item. -/
def Reached (R : Rules K E) (Z : E → Prop) (k : K) : Set E := supClosure {e | Deriv R Z k e}

/-- Each value of a table is a finite join of derivation weights. -/
def Sound (R : Rules K E) (Z : E → Prop) (J : K → Option E) : Prop :=
  ∀ k e, J k = some e → e ∈ Reached R Z k

section Reached

variable {R : Rules K E} {Z : E → Prop}

theorem reached_sup {k : K} {a b : E} (ha : a ∈ Reached R Z k) (hb : b ∈ Reached R Z k) :
    a ⊔ b ∈ Reached R Z k :=
  supClosed_supClosure ha hb

theorem reached_of_deriv {k : K} {e : E} (h : Deriv R Z k e) : e ∈ Reached R Z k :=
  subset_supClosure h

/-- The induction rule of finite joins. -/
theorem reached_induction {k : K} {p : E → Prop} (base : ∀ e, Deriv R Z k e → p e)
    (sup : ∀ a b, p a → p b → p (a ⊔ b)) {e : E} (h : e ∈ Reached R Z k) : p e :=
  supClosure_min (t := {e | p e}) (fun e he => base e he) (fun a ha b hb => sup a b ha hb) h

/-- An item with a finite join of derivation weights is derivable. -/
theorem exists_deriv_of_reached {k : K} {e : E} (h : e ∈ Reached R Z k) : ∃ w, Deriv R Z k w :=
  reached_induction (p := fun _ => ∃ w, Deriv R Z k w) (fun e he => ⟨e, he⟩)
    (fun _ _ ha _ => ha) h

theorem reached_mono {S : Rules K E} (hle : R.Le S) {k : K} {e : E} (h : e ∈ Reached R Z k) :
    e ∈ Reached S Z k :=
  supClosure_mono (fun _ hd => Deriv.mono hle hd) h

variable (hZ : ∀ x, Z x → ∀ y, x ≤ y)

include hZ in
/-- A weight below one with `Z` has `Z`. -/
theorem zero_of_le {x y : E} (hx : Z x) (h : y ≤ x) : Z y := by
  rwa [le_antisymm h (hZ x hx y)]

include hZ in
/-- A join homomorphism that carries the weights of a set to finite joins of weights of `k'`, or to
`Z`, does so with their finite joins. -/
theorem reached_of_supClosure {k' : K} {f : E → E} (hf : ∀ a b, f (a ⊔ b) = f a ⊔ f b) {A : Set E}
    (hd : ∀ e ∈ A, Z (f e) ∨ f e ∈ Reached R Z k') {e : E} (h : e ∈ supClosure A) :
    Z (f e) ∨ f e ∈ Reached R Z k' := by
  refine supClosure_min (t := {e | Z (f e) ∨ f e ∈ Reached R Z k'}) hd ?_ h
  rintro a (ha | ha) b (hb | hb)
  · exact Or.inl (by rw [hf, sup_of_le_right (hZ _ ha _)]; exact hb)
  · exact Or.inr (by rw [hf, sup_of_le_right (hZ _ ha _)]; exact hb)
  · exact Or.inr (by rw [hf, sup_of_le_left (hZ _ hb _)]; exact ha)
  · exact Or.inr (by rw [hf]; exact reached_sup ha hb)

include hZ in
/-- A join homomorphism that carries the weights of a set below a value, or to `Z`, does so with
their finite joins. -/
theorem covers_of_supClosure {o : Option E} {f : E → E} (hf : ∀ a b, f (a ⊔ b) = f a ⊔ f b)
    {A : Set E} (hd : ∀ e ∈ A, Z (f e) ∨ Covers o (f e)) {e : E} (h : e ∈ supClosure A) :
    Z (f e) ∨ Covers o (f e) := by
  refine supClosure_min (t := {e | Z (f e) ∨ Covers o (f e)}) hd ?_ h
  rintro a (ha | ha) b (hb | hb)
  · exact Or.inl (by rw [hf, sup_of_le_right (hZ _ ha _)]; exact hb)
  · exact Or.inr (by rw [hf, sup_of_le_right (hZ _ ha _)]; exact hb)
  · exact Or.inr (by rw [hf, sup_of_le_left (hZ _ hb _)]; exact ha)
  · obtain ⟨v, hv, hav⟩ := ha
    rw [hv, covers_some] at hb
    exact Or.inr ⟨v, hv, by rw [hf]; exact sup_le hav hb⟩

include hZ in
/-- A join homomorphism that carries derivation weights of `k` to finite joins of weights of `k'`, or
to `Z`, does so with finite joins. -/
theorem reached_map {k k' : K} {f : E → E} (hf : ∀ a b, f (a ⊔ b) = f a ⊔ f b)
    (hd : ∀ e, Deriv R Z k e → Z (f e) ∨ f e ∈ Reached R Z k') {e : E} (h : e ∈ Reached R Z k) :
    Z (f e) ∨ f e ∈ Reached R Z k' :=
  reached_of_supClosure hZ hf hd h

include hZ in
/-- A one-premise rule carries finite joins of weights to finite joins of weights. -/
theorem reached_un (hD : Distributive R) {k k' : K} {f : E → E} (hr : R.un k k' f) {e : E}
    (h : e ∈ Reached R Z k) : Z (f e) ∨ f e ∈ Reached R Z k' := by
  refine reached_map hZ (hD.un hr) (fun w hw => ?_) h
  by_cases hz : Z (f w)
  · exact Or.inl hz
  · exact Or.inr (reached_of_deriv (.un hr hw hz))

include hZ in
/-- A two-premise rule carries finite joins of weights to finite joins of weights. -/
theorem reached_bin (hD : Distributive R) {k₁ k₂ k₃ : K} {f : E → E → E} (hr : R.bin k₁ k₂ k₃ f)
    {e₁ e₂ : E} (h₁ : e₁ ∈ Reached R Z k₁) (h₂ : e₂ ∈ Reached R Z k₂) :
    Z (f e₁ e₂) ∨ f e₁ e₂ ∈ Reached R Z k₃ := by
  refine reached_map (f := fun a => f a e₂) hZ (fun a b => hD.bin_left hr a b e₂) (fun w hw => ?_) h₁
  refine reached_map hZ (hD.bin_right hr w) (fun w' hw' => ?_) h₂
  by_cases hz : Z (f w w')
  · exact Or.inl hz
  · exact Or.inr (reached_of_deriv (.bin hr hw hw' hz))

end Reached

section Closed

variable {R S : Rules K E} {Z : E → Prop} {J J' : K → Option E}

theorem monotone_of_distrib {f : E → E} (hf : ∀ a b, f (a ⊔ b) = f a ⊔ f b) {a b : E}
    (h : a ≤ b) : f a ≤ f b := by
  rw [← sup_of_le_right h, hf]
  exact le_sup_left

/-- A closed table is above every derivation weight. -/
theorem Closed.covers (hZ : ∀ x, Z x → ∀ y, x ≤ y) (hD : Distributive R) (hC : Closed R Z J)
    {k : K} {e : E} (hd : Deriv R Z k e) : Covers (J k) e := by
  induction hd with
  | ax ha hz => exact hC.ax ha hz
  | @un k k' f e hu hd hz ih =>
    obtain ⟨v, hv, hle⟩ := ih
    have hfle : f e ≤ f v := monotone_of_distrib (hD.un hu) hle
    have hnz : ¬ Z (f v) := fun hzv => hz (zero_of_le hZ hzv hfle)
    exact (hC.un hu hv hnz).mono hfle
  | @bin k₁ k₂ k₃ f e₁ e₂ hb hd₁ hd₂ hz ih₁ ih₂ =>
    obtain ⟨v₁, hv₁, hle₁⟩ := ih₁
    obtain ⟨v₂, hv₂, hle₂⟩ := ih₂
    have hfle : f e₁ e₂ ≤ f v₁ v₂ :=
      (monotone_of_distrib (f := fun a => f a e₂) (fun a b => hD.bin_left hb a b e₂) hle₁).trans
        (monotone_of_distrib (hD.bin_right hb v₁) hle₂)
    have hnz : ¬ Z (f v₁ v₂) := fun hzv => hz (zero_of_le hZ hzv hfle)
    exact (hC.bin hb hv₁ hv₂ hnz).mono hfle

/-- **A closed and sound table holds the joins of the derivation weights.** -/
theorem isLUB_of_closed (hZ : ∀ x, Z x → ∀ y, x ≤ y) (hD : Distributive R) (hC : Closed R Z J)
    (hS : Sound R Z J) {k : K} {e : E} (h : J k = some e) : IsLUB {w | Deriv R Z k w} e := by
  refine ⟨fun w hw => ?_, fun u hu => ?_⟩
  · simpa [h] using hC.covers hZ hD hw
  · rw [← upperBounds_supClosure] at hu
    exact hu (hS k e h)

/-- A closed and sound table has no value exactly at the items without a derivation. -/
theorem eq_none_iff (hZ : ∀ x, Z x → ∀ y, x ≤ y) (hD : Distributive R) (hC : Closed R Z J)
    (hS : Sound R Z J) (k : K) : J k = none ↔ ∀ w, ¬ Deriv R Z k w := by
  constructor
  · intro h w hw
    simpa [h] using hC.covers hZ hD hw
  · intro h
    refine Option.eq_none_iff_forall_ne_some.2 fun e he => ?_
    obtain ⟨w, hw⟩ := exists_deriv_of_reached (hS k e he)
    exact h w hw

/-- Closed and sound tables, also for different rules, have the same value at an item with the same
derivations. -/
theorem eq_of_deriv_iff (hZ : ∀ x, Z x → ∀ y, x ≤ y) (hD : Distributive R) (hC : Closed R Z J)
    (hS : Sound R Z J) (hD' : Distributive S) (hC' : Closed S Z J') (hS' : Sound S Z J') {k : K}
    (hk : ∀ w, Deriv R Z k w ↔ Deriv S Z k w) : J k = J' k := by
  cases h : J k with
  | none =>
    refine ((eq_none_iff hZ hD' hC' hS' k).2 fun w hw => ?_).symm
    exact (eq_none_iff hZ hD hC hS k).1 h w ((hk w).2 hw)
  | some e =>
    cases h' : J' k with
    | none =>
      obtain ⟨w, hw⟩ := exists_deriv_of_reached (hS k e h)
      exact absurd ((hk w).1 hw) ((eq_none_iff hZ hD' hC' hS' k).1 h' w)
    | some e' =>
      have hlub := isLUB_of_closed hZ hD' hC' hS' h'
      simp only [← hk] at hlub
      rw [(isLUB_of_closed hZ hD hC hS h).unique hlub]

/-- Two closed and sound tables are equal. -/
theorem eq_of_closed (hZ : ∀ x, Z x → ∀ y, x ≤ y) (hD : Distributive R) (hC : Closed R Z J)
    (hS : Sound R Z J) (hC' : Closed R Z J') (hS' : Sound R Z J') : J = J' := by
  funext k
  exact eq_of_deriv_iff hZ hD hC hS hD hC' hS' fun _ => Iff.rfl

/-- **A larger set of rules gives the same table exactly when it derives nothing new.** -/
theorem eq_iff_closed (hZ : ∀ x, Z x → ∀ y, x ≤ y) (hle : R.Le S) (hD : Distributive S)
    (hS : Sound R Z J) (hC' : Closed S Z J') (hS' : Sound S Z J') :
    J' = J ↔ Closed S Z J := by
  constructor
  · rintro rfl
    exact hC'
  · intro hC
    exact eq_of_closed hZ hD hC' hS' hC (fun k e h => reached_mono hle (hS k e h))

end Closed

end Deduction
