import Mathlib.Order.Lattice

/-!
# Join lattices

The value lattices of IDE problems. Values grow from top, the unit of `join`, to bottom, which
absorbs. `LatticeDomain T` puts a top and a bottom around incomparable values.

* `JoinLatticeTraits`, `JoinLatticeTraits.semilattice`;
* `NonTopBotValue`: what a constant edge function stores in place of a lattice value;
* `LatticeDomain`.
-/

namespace Phasar

/-- `JoinLatticeTraits`, with the laws of a join lattice. -/
class JoinLatticeTraits (L : Type*) where
  top : L
  bottom : L
  join : L → L → L
  join_assoc : ∀ a b c, join (join a b) c = join a (join b c)
  join_comm : ∀ a b, join a b = join b a
  join_idem : ∀ a, join a a = a
  top_join : ∀ a, join top a = a
  bottom_join : ∀ a, join bottom a = bottom

namespace JoinLatticeTraits

attribute [simp] join_idem top_join bottom_join

variable {L : Type*} [JoinLatticeTraits L]

@[simp] theorem join_top (a : L) : join a top = a := by rw [join_comm, top_join]

@[simp] theorem join_bottom (a : L) : join a bottom = bottom := by rw [join_comm, bottom_join]

/-- The order of the lattice: `a ≤ b` when `b` absorbs `a`. -/
@[reducible] def semilattice : SemilatticeSup L :=
  letI : Max L := ⟨join⟩
  SemilatticeSup.mk' join_comm join_assoc join_idem

/-- Only top lies below top. -/
theorem eq_top_of_join_eq_top {a b : L} (h : join a b = top) : a = top := by
  have hab : join a (join a b) = join a b := by rw [← join_assoc, join_idem]
  rwa [h, join_top] at hab

end JoinLatticeTraits

/-- `NonTopBotValue`: the type `V` of values that are neither top nor bottom, as constant edge
functions store them. `unwrap` is `none` where `std::get` throws; a lattice without a type of its
own for these values stores any value. -/
class NonTopBotValue (L : Type*) [JoinLatticeTraits L] (V : outParam Type*) where
  ofValue : V → L
  unwrap : L → Option V
  unwrap_ofValue : ∀ v, unwrap (ofValue v) = some v
  ofValue_unwrap : ∀ x v, unwrap x = some v → ofValue v = x
  unwrap_ne_none : ∀ x, x ≠ JoinLatticeTraits.top → x ≠ JoinLatticeTraits.bottom → unwrap x ≠ none

attribute [simp] NonTopBotValue.unwrap_ofValue

/-- The unspecialized `NonTopBotValue`, which stores lattice values as they are. -/
@[reducible] def NonTopBotValue.plain (L : Type*) [JoinLatticeTraits L] : NonTopBotValue L L where
  ofValue v := v
  unwrap x := some x
  unwrap_ofValue _ := rfl
  ofValue_unwrap _ _ h := (Option.some.inj h).symm
  unwrap_ne_none _ _ _ := Option.some_ne_none _

/-- `LatticeDomain<T>`: a variant of top, a value and bottom. -/
inductive LatticeDomain (T : Type*)
  | top
  | value (v : T)
  | bottom
  deriving DecidableEq

namespace LatticeDomain

variable {T : Type*} [DecidableEq T]

/-- `JoinLatticeTraits<LatticeDomain<T>>::join` for a `T` without a join of its own. -/
def join (lhs rhs : LatticeDomain T) : LatticeDomain T :=
  if lhs = top ∨ lhs = rhs then rhs else if rhs = top then lhs else bottom

instance : JoinLatticeTraits (LatticeDomain T) where
  top := top
  bottom := bottom
  join := join
  join_assoc a b c := by cases a <;> cases b <;> cases c <;> simp [join] <;> split_ifs <;> simp_all
  join_comm a b := by cases a <;> cases b <;> simp [join, eq_comm]; split_ifs <;> simp_all
  join_idem a := by cases a <;> simp [join]
  top_join a := by simp [join]
  bottom_join a := by cases a <;> simp [join]

instance : NonTopBotValue (LatticeDomain T) T where
  ofValue := value
  unwrap
    | value v => some v
    | _ => none
  unwrap_ofValue _ := rfl
  ofValue_unwrap x v h := by cases x <;> simp_all
  unwrap_ne_none x htop hbottom := by
    cases x with
    | top => exact absurd rfl htop
    | value v => simp
    | bottom => exact absurd rfl hbottom

end LatticeDomain

end Phasar
