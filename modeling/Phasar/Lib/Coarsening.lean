import Mathlib.Logic.Relation

/-!
# The finest common coarsening of two partitions

A partition of some elements is a symmetric and transitive relation: the elements are those that are related
to themselves.

* `Coarsening R S`: the classes of `R` and `S`, connected where they meet;
* `Coarsening.of_left`: where no class of `S` meets two classes of `R`, none of these are connected;
* `Coarsening.of_right`: a class of `S` that meets no class of `R` stays as it is.
-/

variable {α : Type*} {R S : α → α → Prop} {x y z : α}

/-- The finest partition that contains both. -/
def Coarsening (R S : α → α → Prop) : α → α → Prop := Relation.TransGen fun x y => R x y ∨ S x y

namespace Coarsening

theorem left (h : R x y) : Coarsening R S x y := .single (Or.inl h)

theorem right (h : S x y) : Coarsening R S x y := .single (Or.inr h)

theorem trans (hxy : Coarsening R S x y) (hyz : Coarsening R S y z) : Coarsening R S x z :=
  Relation.TransGen.trans hxy hyz

theorem symm (hR : ∀ {x y}, R x y → R y x) (hS : ∀ {x y}, S x y → S y x) (h : Coarsening R S x y) :
    Coarsening R S y x := by
  induction h with
  | single h => exact .single (h.imp hR hS)
  | tail _ h ih => exact Relation.TransGen.head (h.imp hR hS) ih

variable (hR : ∀ {x y}, R x y → R y x) (hR' : ∀ {x y z}, R x y → R y z → R x z)
  (hS : ∀ {x y}, S x y → S y x) (hS' : ∀ {x y z}, S x y → S y z → S x z)
include hR hR' hS hS'

/-- What is connected is an element of one of the partitions. -/
theorem self_right (h : Coarsening R S x y) : R y y ∨ S y y := by
  cases h with
  | single h => exact h.imp (fun h => hR' (hR h) h) fun h => hS' (hS h) h
  | tail _ h => exact h.imp (fun h => hR' (hR h) h) fun h => hS' (hS h) h

omit hS in
theorem of_left (hmeet : ∀ x y, S x y → R x x → R y y → R x y) (hx : R x x) (hy : R y y)
    (h : Coarsening R S x y) : R x y := by
  -- a way from `x` leads to the class of `x`, or to a class of `S` that meets it
  have hway : R x y ∨ ∃ z, R x z ∧ S z y := by
    clear hy
    induction h with
    | single h => exact h.imp id fun h => ⟨x, hx, h⟩
    | @tail y z _ h ih =>
      rcases h with h | h
      · left
        rcases ih with hxy | ⟨w, hxw, hwy⟩
        · exact hR' hxy h
        · have hwy' := hmeet w y hwy (hR' (hR hxw) hxw) (hR' h (hR h))
          exact hR' (hR' hxw hwy') h
      · right
        rcases ih with hxy | ⟨w, hxw, hwy⟩
        · exact ⟨y, hxy, h⟩
        · exact ⟨w, hxw, hS' hwy h⟩
  rcases hway with h | ⟨z, hxz, hzy⟩
  · exact h
  · exact hR' hxz (hmeet z y hzy (hR' (hR hxz) hxz) hy)

omit hS in
theorem of_right (hmeet : ∀ y, S x y → ¬R y y) (hx : S x x) (h : Coarsening R S x y) : S x y := by
  have hstep : ∀ {y z}, S x y → R y z ∨ S y z → S x z := by
    rintro y z hxy (h | h)
    · exact absurd (hR' h (hR h)) (hmeet y hxy)
    · exact hS' hxy h
  induction h with
  | single h => exact hstep hx h
  | tail _ h ih => exact hstep ih h

end Coarsening
