import Mathlib.Order.SupClosed
import Mathlib.Data.Set.NAry

/-!
# Finite joins

The join of a set that may be infinite, when finitely many of its elements already have it. Unlike a
least upper bound it is kept by every operation that distributes over binary joins.

* `IsFiniteJoin`: the join as a finite join of elements;
* `IsFiniteJoin.image2`: operations that distribute in both arguments;
* `IsFiniteJoin.union`: joins of joins.
-/

variable {α β γ : Type*} [SemilatticeSup α] [SemilatticeSup β] [SemilatticeSup γ]

/-- `x` is above all elements of `A` and a join of finitely many of them. -/
structure IsFiniteJoin (A : Set α) (x : α) : Prop where
  mem : x ∈ supClosure A
  le : ∀ a ∈ A, a ≤ x

namespace IsFiniteJoin

variable {A A' : Set α} {B : Set β} {x x' : α} {y : β}

theorem singleton (x : α) : IsFiniteJoin {x} x :=
  ⟨subset_supClosure rfl, fun _ ha => le_of_eq ha⟩

theorem isLUB (h : IsFiniteJoin A x) : IsLUB A x := by
  refine ⟨h.le, fun u hu => ?_⟩
  rw [← upperBounds_supClosure] at hu
  exact hu h.mem

theorem unique (h : IsFiniteJoin A x) (h' : IsFiniteJoin A x') : x = x' := h.isLUB.unique h'.isLUB

theorem congr (h : IsFiniteJoin A x) (hA : ∀ a, a ∈ A ↔ a ∈ A') : IsFiniteJoin A' x :=
  Set.ext hA ▸ h

theorem nonempty (h : IsFiniteJoin A x) : A.Nonempty := by
  by_contra hempty
  rw [Set.not_nonempty_iff_eq_empty] at hempty
  simpa [hempty] using h.mem

theorem union (h : IsFiniteJoin A x) (h' : IsFiniteJoin A' x') : IsFiniteJoin (A ∪ A') (x ⊔ x') where
  mem := supClosed_supClosure (supClosure_mono Set.subset_union_left h.mem)
    (supClosure_mono Set.subset_union_right h'.mem)
  le a ha := ha.elim (fun ha => (h.le a ha).trans le_sup_left) fun ha => (h'.le a ha).trans le_sup_right

/-- Operations that distribute over joins in both arguments. -/
theorem image2 {f : α → β → γ} (hl : ∀ a a' b, f (a ⊔ a') b = f a b ⊔ f a' b)
    (hr : ∀ a b b', f a (b ⊔ b') = f a b ⊔ f a b') (h : IsFiniteJoin A x) (h' : IsFiniteJoin B y) :
    IsFiniteJoin (Set.image2 f A B) (f x y) where
  mem := by
    refine supClosure_min (t := {a | f a y ∈ supClosure (Set.image2 f A B)}) (fun a ha => ?_)
      (fun a ha a' ha' => ?_)
      h.mem
    · refine supClosure_min (t := {b | f a b ∈ supClosure (Set.image2 f A B)})
        (fun b hb => subset_supClosure ⟨a, ha, b, hb, rfl⟩) (fun b hb b' hb' => ?_) h'.mem
      show f a (b ⊔ b') ∈ supClosure (Set.image2 f A B)
      rw [hr]
      exact supClosed_supClosure hb hb'
    · show f (a ⊔ a') y ∈ supClosure (Set.image2 f A B)
      rw [hl]
      exact supClosed_supClosure ha ha'
  le := by
    rintro _ ⟨a, ha, b, hb, rfl⟩
    have hle : f a b ≤ f x b := by
      rw [← sup_of_le_right (h.le a ha), hl]
      exact le_sup_left
    refine hle.trans ?_
    rw [← sup_of_le_right (h'.le b hb), hr]
    exact le_sup_left

end IsFiniteJoin
