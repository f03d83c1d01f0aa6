import Phasar.Lib.Deduction
import Mathlib.Data.DFinsupp.WellFounded
import Mathlib.Order.WithBot

/-!
# Chaotic iteration of weighted rules

A work list of weights that are still to be joined into a table. One step takes any pending weight;
if the table already covers it nothing happens, otherwise the value of its item is raised and every
rule application with this item among its premises is put on the work list.

* `Raise`, `Propagates`: one step of the iteration;
* `Pending`: closed and sound up to what is on the work list (`Pending.step`, `Pending.closed`);
* `wellFounded_of_rounds`, `wellFounded_of_progress`: raising values of finitely many items in a semilattice without infinite
  ascending chains, or else shortening a list, ends after finitely many steps.
-/

namespace Deduction

variable {K E : Type*} [SemilatticeSup E]

/-- Join a weight into an optional value. -/
def joinInto : Option E → E → E
  | none, x => x
  | some e, x => e ⊔ x

theorem le_joinInto (o : Option E) (x : E) : x ≤ joinInto o x := by
  cases o with
  | none => exact le_rfl
  | some e => exact le_sup_right

theorem some_le_joinInto {o : Option E} {e : E} (h : o = some e) (x : E) : e ≤ joinInto o x := by
  subst h
  exact le_sup_left

/-- The table `J'` is `J` with the value of `k` raised by `x`. -/
structure Raise (J J' : K → Option E) (k : K) (x : E) : Prop where
  self : J' k = some (joinInto (J k) x)
  other : ∀ {k'}, k' ≠ k → J' k' = J k'

theorem Raise.covers {J J' : K → Option E} {k : K} {x : E} (h : Raise J J' k x) {k' : K} {e : E}
    (hc : Covers (J k') e) : Covers (J' k') e := by
  by_cases hk : k' = k
  · subst hk
    obtain ⟨v, hv, hle⟩ := hc
    exact ⟨_, h.self, hle.trans (some_le_joinInto hv x)⟩
  · rwa [h.other hk]

/-- The table with a least element in place of missing values. -/
def withBot (J : K → Option E) (k : K) : WithBot E := (J k).elim ⊥ (↑)

/-- A table that covers another one and differs from it is larger. -/
theorem withBot_lt {J J' : K → Option E} (h : ∀ k e, J k = some e → Covers (J' k) e)
    (hne : J ≠ J') : withBot J < withBot J' := by
  have hle : withBot J ≤ withBot J' := by
    intro k
    cases hJ : J k with
    | none => simp [withBot, hJ]
    | some e =>
      obtain ⟨e', he', hle⟩ := h k e hJ
      simpa [withBot, hJ, he'] using hle
  refine lt_of_le_of_ne hle fun heq => hne ?_
  funext k
  have hk := congrFun heq k
  cases hJ : J k with
  | none => cases hJ' : J' k with
    | none => rfl
    | some e => simp [withBot, hJ, hJ'] at hk
  | some e => cases hJ' : J' k with
    | none => simp [withBot, hJ, hJ'] at hk
    | some e' => simpa [withBot, hJ, hJ'] using hk

/-- Raising a value by a weight that it does not cover makes the table larger. -/
theorem Raise.lt {J J' : K → Option E} {k : K} {x : E} (h : Raise J J' k x)
    (hx : ¬ Covers (J k) x) : withBot J < withBot J' := by
  refine withBot_lt (fun k' e he => h.covers ⟨e, he, le_rfl⟩) fun heq => hx ?_
  rw [heq, h.self]
  exact covers_some.2 (le_joinInto _ x)

/-- One step of the iteration: the pending weight `x` of `k` is taken from `W`. -/
inductive Propagates (R : Rules K E) (Z : E → Prop) (J : K → Option E) (W : List (K × E))
    (J' : K → Option E) (W' : List (K × E)) : Prop
  | skip (k : K) (x : E) : (Z x ∨ Covers (J k) x) → J' = J →
      (∀ p ∈ W, p = (k, x) ∨ p ∈ W') → (∀ p ∈ W', p ∈ W) → Propagates R Z J W J' W'
  | raise (k : K) (x : E) : (k, x) ∈ W → ¬ Z x → Raise J J' k x →
      (∀ p ∈ W, p = (k, x) ∨ p ∈ W') → (∀ p ∈ W', p ∈ W ∨ Conclusion R J' p) →
      (∀ p, Applies R J' k p → p ∈ W') → Propagates R Z J W J' W'

/-- A weight is dropped, covered by the table or still pending. -/
def Settled (Z : E → Prop) (J : K → Option E) (W : List (K × E)) (k : K) (e : E) : Prop :=
  Z e ∨ Covers (J k) e ∨ (k, e) ∈ W

/-- Closed and sound up to the pending weights. -/
structure Pending (R : Rules K E) (Z : E → Prop) (J : K → Option E) (W : List (K × E)) : Prop where
  ax : ∀ {k e}, R.ax k e → Settled Z J W k e
  un : ∀ {k k' f e}, R.un k k' f → J k = some e → Settled Z J W k' (f e)
  bin : ∀ {k₁ k₂ k₃ f e₁ e₂}, R.bin k₁ k₂ k₃ f → J k₁ = some e₁ → J k₂ = some e₂ →
      Settled Z J W k₃ (f e₁ e₂)
  sound : Sound R Z J
  pending : ∀ {k x}, (k, x) ∈ W → Z x ∨ x ∈ Reached R Z k

variable {R : Rules K E} {Z : E → Prop} {J J' : K → Option E} {W W' : List (K × E)}

/-- The initial state: an empty table and the axioms pending. -/
theorem Pending.init (hax : ∀ {k e}, R.ax k e → (k, e) ∈ W) (hW : ∀ {k e}, (k, e) ∈ W → R.ax k e) :
    Pending R Z (fun _ => none) W where
  ax h := Or.inr (Or.inr (hax h))
  un _ h := absurd h (by simp)
  bin _ h := absurd h (by simp)
  sound k e h := absurd h (by simp)
  pending {k x} h := by
    by_cases hz : Z x
    · exact Or.inl hz
    · exact Or.inr (reached_of_deriv (.ax (hW h) hz))

theorem Settled.skip {k₀ : K} {x : E} (hx : Z x ∨ Covers (J k₀) x)
    (hW : ∀ p ∈ W, p = (k₀, x) ∨ p ∈ W') {k : K} {e : E} (h : Settled Z J W k e) :
    Settled Z J W' k e := by
  rcases h with hz | hc | hm
  · exact Or.inl hz
  · exact Or.inr (Or.inl hc)
  · rcases hW _ hm with heq | hm'
    · obtain ⟨rfl, rfl⟩ := Prod.mk.inj heq
      exact hx.imp_right Or.inl
    · exact Or.inr (Or.inr hm')

theorem Settled.raise {k₀ : K} {x : E} (hr : Raise J J' k₀ x)
    (hW : ∀ p ∈ W, p = (k₀, x) ∨ p ∈ W') {k : K} {e : E} (h : Settled Z J W k e) :
    Settled Z J' W' k e := by
  rcases h with hz | hc | hm
  · exact Or.inl hz
  · exact Or.inr (Or.inl (hr.covers hc))
  · rcases hW _ hm with heq | hm'
    · obtain ⟨rfl, rfl⟩ := Prod.mk.inj heq
      exact Or.inr (Or.inl ⟨_, hr.self, le_joinInto _ _⟩)
    · exact Or.inr (Or.inr hm')

/-- Raising a value by a reached weight keeps the table sound. -/
theorem Sound.raise (hS : Sound R Z J) {k : K} {x : E} (hx : x ∈ Reached R Z k)
    (hr : Raise J J' k x) : Sound R Z J' := by
  intro k' e he
  by_cases hk : k' = k
  · subst hk
    rw [hr.self] at he
    obtain rfl := Option.some.inj he
    cases h : J k' with
    | none => exact hx
    | some v => exact reached_sup (hS k' v h) hx
  · rw [hr.other hk] at he
    exact hS k' e he

/-- The conclusion of a rule on a sound table is dropped or reached. -/
theorem Sound.conclusion (hZ : ∀ x, Z x → ∀ y, x ≤ y) (hD : Distributive R) (hS : Sound R Z J)
    {k : K} {x : E} (h : Conclusion R J (k, x)) : Z x ∨ x ∈ Reached R Z k := by
  cases h with
  | un hu h => exact reached_un hZ hD hu (hS _ _ h)
  | bin hb h₁ h₂ => exact reached_bin hZ hD hb (hS _ _ h₁) (hS _ _ h₂)

/-- **One step preserves `Pending`.** -/
theorem Pending.step (hZ : ∀ x, Z x → ∀ y, x ≤ y) (hD : Distributive R) (hP : Pending R Z J W)
    (hs : Propagates R Z J W J' W') : Pending R Z J' W' := by
  cases hs with
  | skip k x hx hJ hW hW' =>
    subst hJ
    exact
      { ax := fun h => (hP.ax h).skip hx hW
        un := fun h h₁ => (hP.un h h₁).skip hx hW
        bin := fun h h₁ h₂ => (hP.bin h h₁ h₂).skip hx hW
        sound := hP.sound
        pending := fun h => hP.pending (hW' _ h) }
  | raise k x hmem hz hr hW hW' happ =>
    have hx : x ∈ Reached R Z k := (hP.pending hmem).resolve_left hz
    have hS : Sound R Z J' := hP.sound.raise hx hr
    refine ⟨fun h => (hP.ax h).raise hr hW, ?_, ?_, hS, fun h => ?_⟩
    · intro k₁ k' f e hu he
      by_cases hk : k₁ = k
      · subst hk
        exact Or.inr (Or.inr (happ _ (.un hu he)))
      · rw [hr.other hk] at he
        exact (hP.un hu he).raise hr hW
    · intro k₁ k₂ k₃ f e₁ e₂ hb h₁ h₂
      by_cases hk₁ : k₁ = k
      · subst hk₁
        exact Or.inr (Or.inr (happ _ (.left hb h₁ h₂)))
      by_cases hk₂ : k₂ = k
      · subst hk₂
        exact Or.inr (Or.inr (happ _ (.right hb h₁ h₂)))
      rw [hr.other hk₁] at h₁
      rw [hr.other hk₂] at h₂
      exact (hP.bin hb h₁ h₂).raise hr hW
    · rcases hW' _ h with hold | hnew
      · exact hP.pending hold
      · exact hS.conclusion hZ hD hnew

/-- With nothing pending the table is closed. -/
theorem Pending.closed (hP : Pending R Z J []) : Closed R Z J where
  ax h hz := by simpa [Settled, hz] using hP.ax h
  un h h₁ hz := by simpa [Settled, hz] using hP.un h h₁
  bin h h₁ h₂ hz := by simpa [Settled, hz] using hP.bin h h₁ h₂

end Deduction

/-! ### Termination -/

/-- A step relation that raises a first table over finitely many items, or else keeps it and raises a
second one, or else keeps both and shortens a list, admits no infinite run. -/
theorem wellFounded_of_rounds {σ K E : Type*} [Finite K] [PartialOrder E] [WellFoundedGT E]
    {r : σ → σ → Prop} (rounds table : σ → K → E) (size : σ → ℕ)
    (h : ∀ s s', r s s' → rounds s < rounds s' ∨ rounds s = rounds s' ∧
      (table s < table s' ∨ table s = table s' ∧ size s' < size s)) :
    WellFounded fun s' s => r s s' := by
  have hwf : WellFounded (Prod.Lex (fun a b : K → Eᵒᵈ => a < b)
      (Prod.Lex (fun a b : K → Eᵒᵈ => a < b) (fun a b : ℕ => a < b))) :=
    WellFounded.prod_lex wellFounded_lt (WellFounded.prod_lex wellFounded_lt wellFounded_lt)
  refine Subrelation.wf (r := InvImage _ fun s => ((fun k => OrderDual.toDual (rounds s k)),
    (fun k => OrderDual.toDual (table s k)), size s)) ?_ (InvImage.wf _ hwf)
  intro s' s hs
  show Prod.Lex _ _
    ((fun k => OrderDual.toDual (rounds s' k)), (fun k => OrderDual.toDual (table s' k)), size s')
    ((fun k => OrderDual.toDual (rounds s k)), (fun k => OrderDual.toDual (table s k)), size s)
  rcases h s s' hs with hlt | ⟨heq, hlt⟩
  · exact Prod.Lex.left _ _ hlt
  · rw [heq]
    refine Prod.Lex.right _ ?_
    rcases hlt with hlt | ⟨heq, hlt⟩
    · exact Prod.Lex.left _ _ hlt
    · rw [heq]
      exact Prod.Lex.right _ hlt

/-- A step relation that raises a table over finitely many items, or else keeps the table and
shortens a list, admits no infinite run. -/
theorem wellFounded_of_progress {σ K E : Type*} [Finite K] [PartialOrder E] [WellFoundedGT E]
    {r : σ → σ → Prop} (table : σ → K → E) (size : σ → ℕ)
    (h : ∀ s s', r s s' → table s < table s' ∨ (table s = table s' ∧ size s' < size s)) :
    WellFounded fun s' s => r s s' :=
  wellFounded_of_rounds table table size fun s s' hs =>
    (h s s' hs).imp_right fun h => ⟨h.1, Or.inr h⟩
