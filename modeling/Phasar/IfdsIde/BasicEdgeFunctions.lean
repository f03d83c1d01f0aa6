import Phasar.IfdsIde.Problem
import Mathlib.Order.WellFounded

/-!
# The edge functions every problem has

All-top, the identity and all-bottom over the two-element value lattice, composed and joined as the
edge functions themselves do it. A constant second function wins over whatever comes before it, so
all-top followed by all-bottom is all-bottom.

* `BasicEdgeFunction`, `BasicEdgeFunction.Uses`: a problem with these edge functions;
* `BasicEdgeFunction.Uses.lawful`, `BasicEdgeFunction.wellFounded_chain`.
-/

namespace Phasar

/-- The edge functions `AllTop`, `EdgeIdentity` and `AllBottom`. -/
inductive BasicEdgeFunction
  | allTop
  | edgeIdentity
  | allBottom
  deriving DecidableEq

namespace BasicEdgeFunction

/-- `composeWith`: a constant second function wins. -/
def compose : BasicEdgeFunction → BasicEdgeFunction → BasicEdgeFunction
  | f, edgeIdentity => f
  | _, second => second

/-- `joinWith`: all-top is neutral, all-bottom absorbs. -/
def join : BasicEdgeFunction → BasicEdgeFunction → BasicEdgeFunction
  | allTop, g => g
  | f, allTop => f
  | edgeIdentity, edgeIdentity => edgeIdentity
  | _, _ => allBottom

/-- `computeTarget`, with `true` for top. -/
def computeTarget : BasicEdgeFunction → Bool → Bool
  | allTop, _ => true
  | edgeIdentity, source => source
  | allBottom, _ => false

/-- A problem composes and joins its edge functions as they do. -/
structure Uses {N F D : Type*} (EF : EdgeFunctions N F D BasicEdgeFunction) : Prop where
  extend : EF.extend = compose
  combine : EF.combine = join
  isAllTop : ∀ f, EF.isAllTop f = true ↔ f = allTop

theorem Uses.lawful {N F D : Type*} {EF : EdgeFunctions N F D BasicEdgeFunction} (h : Uses EF) :
    LawfulEdgeFunctions EF where
  combine_assoc a b c := by rw [h.combine]; cases a <;> cases b <;> cases c <;> rfl
  combine_comm a b := by rw [h.combine]; cases a <;> cases b <;> rfl
  combine_idem a := by rw [h.combine]; cases a <;> rfl
  allTop_combine a b ha := by rw [h.combine, (h.isAllTop a).1 ha]; rfl
  extend_assoc a b c := by rw [h.extend]; cases a <;> cases b <;> cases c <;> rfl
  extend_combine a b c := by rw [h.extend, h.combine]; cases a <;> cases b <;> cases c <;> rfl
  combine_extend a b c := by rw [h.extend, h.combine]; cases a <;> cases b <;> cases c <;> rfl

/-- The number of steps left in a chain of joins. -/
def height : BasicEdgeFunction → ℕ
  | allTop => 2
  | edgeIdentity => 1
  | allBottom => 0

theorem isAllTop_iff (f : BasicEdgeFunction) : decide (f = allTop) = true ↔ f = allTop :=
  decide_eq_true_iff

theorem wellFounded_chain : WellFounded fun a b => join b a = a ∧ a ≠ b := by
  refine Subrelation.wf (r := InvImage (· < ·) height) ?_
    (InvImage.wf _ (wellFounded_lt (α := ℕ)))
  rintro a b ⟨h, hne⟩
  cases a <;> cases b <;> simp_all [join, height, InvImage]

end BasicEdgeFunction

end Phasar
