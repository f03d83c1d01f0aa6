import Phasar.Domain.LatticeDomain
import Phasar.IfdsIde.LabelEdgeFunctions
import Phasar.Utils.BitVectorSet
import Mathlib.Data.Finset.Lattice.Basic
import Mathlib.Order.WithBot

/-!
# The edge functions of the inst-interaction analysis

`IDEInstInteractionAnalysisT` computes sets of labels: edge functions add labels, or replace the labels by
others.

* `IIAEdgeFunction`, `joinImpl`, `extend`, `combine`: the edge functions;
* `refines`: they add and replace label sets.
-/

namespace Phasar

/-- The classes `IIAAKillOrReplaceEF` and `IIAAAddLabelsEF`. -/
inductive IIAEdgeFunction
  | iiaaKillOrReplaceEF (Replacement : LatticeDomain BitVectorSet)
  | iiaaAddLabelsEF (Data : LatticeDomain BitVectorSet)

namespace IDEInstInteractionAnalysis

open IIAEdgeFunction LabelEdgeFunction

def joinImpl (Lhs Rhs : LatticeDomain BitVectorSet) : LatticeDomain BitVectorSet :=
  match Lhs, Rhs with
  | .top, _ => Rhs
  | _, .bottom => Rhs
  | _, .top => Lhs
  | .bottom, _ => Lhs
  | .value LhsSet, .value RhsSet => .value (LhsSet.setUnion RhsSet)

/-- `LatticeDomain::operator==`. -/
def valueEq : LatticeDomain BitVectorSet → LatticeDomain BitVectorSet → Bool
  | .top, .top => true
  | .value Lhs, .value Rhs => Lhs.eq Rhs
  | .bottom, .bottom => true
  | _, _ => false

def eqOwn : IIAEdgeFunction → IIAEdgeFunction → Bool
  | iiaaKillOrReplaceEF Lhs, iiaaKillOrReplaceEF Rhs => valueEq Lhs Rhs
  | iiaaAddLabelsEF Lhs, iiaaAddLabelsEF Rhs => valueEq Lhs Rhs
  | _, _ => false

/-- The labels of a value, in the order of the lattice: nothing below the empty set, everything above. -/
def labels : LatticeDomain BitVectorSet → WithBot (WithTop (Finset ℕ))
  | .top => ⊥
  | .value Set => ((Set.elems : WithTop (Finset ℕ)) : WithBot (WithTop (Finset ℕ)))
  | .bottom => ⊤

def domain : LabelDomain IIAEdgeFunction BitVectorSet (LatticeDomain BitVectorSet)
    (WithBot (WithTop (Finset ℕ))) where
  top := .top
  bottom := .bottom
  eq := valueEq
  ofValue := .value
  unwrap
    | .value Set => some Set
    | _ => none
  labels := labels
  computeOwn
    | iiaaKillOrReplaceEF Replacement, _ => Replacement
    | iiaaAddLabelsEF Data, Src => joinImpl Src Data
  isConstantOwn
    | iiaaKillOrReplaceEF _ => true
    | iiaaAddLabelsEF _ => false

abbrev EdgeFunctionType := LabelEdgeFunction IIAEdgeFunction BitVectorSet

/-- `none`: an edge function without labels, which is a fatal error. -/
def getData : EdgeFunctionType → Option (LatticeDomain BitVectorSet)
  | own (iiaaAddLabelsEF Data) => some Data
  | own (iiaaKillOrReplaceEF Replacement) => some Replacement
  | _ => none

/-- `extend`, where no default decides. -/
def extendOwn (FirstFunction SecondFunction : EdgeFunctionType) : Option EdgeFunctionType :=
  (getData FirstFunction).bind fun ThisData =>
    match SecondFunction with
    | own (iiaaAddLabelsEF Data) =>
      let Union := joinImpl ThisData Data
      match FirstFunction with
      | own (iiaaAddLabelsEF _) => some (own (iiaaAddLabelsEF Union))
      | _ => some (own (iiaaKillOrReplaceEF Union))
    | _ => none

/-- `combine`, where no default decides. -/
def combineOwn (FirstFunction OtherFunction : EdgeFunctionType) : Option EdgeFunctionType :=
  (getData FirstFunction).bind fun ThisData => (getData OtherFunction).bind fun OtherData =>
    let Union := joinImpl ThisData OtherData
    match FirstFunction, OtherFunction with
    | own (iiaaKillOrReplaceEF _), own (iiaaKillOrReplaceEF _) => some (own (iiaaKillOrReplaceEF Union))
    | _, _ => some (own (iiaaAddLabelsEF Union))

/-- The functions with a set of labels, the map of each of them. -/
def toMap : IIAEdgeFunction → Option (JoinMap (WithBot (WithTop (Finset ℕ))))
  | iiaaKillOrReplaceEF (.value Replacement) => some (.const (labels (.value Replacement)))
  | iiaaAddLabelsEF (.value Data) => some (.add (labels (.value Data)))
  | _ => none

/-- The analysis; it starts from functions that add a set of labels, or replace by one. -/
def problem : LabelProblem IIAEdgeFunction BitVectorSet (LatticeDomain BitVectorSet)
    (WithBot (WithTop (Finset ℕ))) where
  toLabelDomain := domain
  isBasic EF := (toMap EF).isSome
  isSame := LabelEdgeFunction.eq eqOwn BitVectorSet.eq
  extendOwn := extendOwn
  combineOwn := combineOwn

def extend : EdgeFunctionType → EdgeFunctionType → Option EdgeFunctionType := problem.extend

def combine : EdgeFunctionType → EdgeFunctionType → Option EdgeFunctionType := problem.combine

theorem labels_joinImpl (Lhs Rhs : LatticeDomain BitVectorSet) :
    labels (joinImpl Lhs Rhs) = labels Lhs ⊔ labels Rhs := by
  cases Lhs with
  | top => exact (bot_sup_eq _).symm
  | bottom => cases Rhs <;> simp [joinImpl, labels]
  | value A =>
    cases Rhs with
    | top => exact (sup_bot_eq _).symm
    | bottom => exact (sup_top_eq _).symm
    | value B =>
      rw [joinImpl, labels, labels, labels, BitVectorSet.elems_setUnion, ← WithBot.coe_sup, ← WithTop.coe_sup]
      rfl

theorem labels_of_valueEq {Lhs Rhs : LatticeDomain BitVectorSet} (h : valueEq Lhs Rhs = true) :
    labels Lhs = labels Rhs := by
  cases Lhs <;> cases Rhs <;> first | rfl | cases h | rw [labels, labels, BitVectorSet.eq_iff.1 h]

theorem toMap_killOrReplace_congr {Lhs Rhs : LatticeDomain BitVectorSet} (h : valueEq Lhs Rhs = true) :
    toMap (iiaaKillOrReplaceEF Lhs) = toMap (iiaaKillOrReplaceEF Rhs) := by
  have hlabels := labels_of_valueEq h
  cases Lhs <;> cases Rhs <;> first | rfl | cases h | rw [toMap, toMap, hlabels]

theorem toMap_addLabels_congr {Lhs Rhs : LatticeDomain BitVectorSet} (h : valueEq Lhs Rhs = true) :
    toMap (iiaaAddLabelsEF Lhs) = toMap (iiaaAddLabelsEF Rhs) := by
  have hlabels := labels_of_valueEq h
  cases Lhs <;> cases Rhs <;> first | rfl | cases h | rw [toMap, toMap, hlabels]

/-- The functions with a map replace by a set of labels, or add one. -/
theorem cases_toMap {EF : IIAEdgeFunction} {a : JoinMap (WithBot (WithTop (Finset ℕ)))}
    (h : toMap EF = some a) :
    (∃ Set, EF = iiaaKillOrReplaceEF (.value Set) ∧ a = .const (labels (.value Set))) ∨
      ∃ Set, EF = iiaaAddLabelsEF (.value Set) ∧ a = .add (labels (.value Set)) := by
  rcases EF with (_ | Set | _) | (_ | Set | _) <;> cases h
  · exact .inl ⟨Set, rfl, rfl⟩
  · exact .inr ⟨Set, rfl, rfl⟩

theorem labels_setUnion (A B : BitVectorSet) :
    labels (.value (A.setUnion B)) = labels (.value A) ⊔ labels (.value B) :=
  labels_joinImpl (.value A) (.value B)

theorem labels_surjective : Function.Surjective labels := by
  intro c
  induction c using WithBot.recBotCoe with
  | bot => exact ⟨.top, rfl⟩
  | coe c =>
    induction c using WithTop.recTopCoe with
    | top => exact ⟨.bottom, rfl⟩
    | coe S =>
      obtain ⟨bits, rfl⟩ := BitVector.exists_elems_eq S
      exact ⟨.value ⟨bits⟩, rfl⟩

theorem not_isTop_labels (Set : BitVectorSet) : ¬IsTop (labels (.value Set)) := by
  intro htop
  have hle : (⊤ : WithTop (Finset ℕ)) ≤ Set.elems := WithBot.coe_le_coe.1 (htop ⊤)
  exact WithTop.coe_ne_top (top_le_iff.1 hle)

/-- The edge functions add and replace label sets. -/
theorem refines : problem.Refines toMap where
  basic h := Option.isSome_iff_exists.1 h
  ne_ident h := by
    rcases cases_toMap h with ⟨_, -, rfl⟩ | ⟨_, -, rfl⟩ <;> simp
  computeOwn x h := by
    rcases cases_toMap h with ⟨Set, rfl, rfl⟩ | ⟨Set, rfl, rfl⟩
    · rfl
    · exact labels_joinImpl x (.value Set)
  isConstantOwn h := by
    rcases cases_toMap h with ⟨_, rfl, rfl⟩ | ⟨_, rfl, rfl⟩
    · exact iff_of_true rfl ⟨_, rfl⟩
    · exact iff_of_false Bool.false_ne_true (by simp)
  isSame {EF EF'} h := by
    rcases EF with Lhs | Lhs <;> rcases EF' with Rhs | Rhs
    · exact toMap_killOrReplace_congr h
    · cases h
    · cases h
    · exact toMap_addLabels_congr h
  extendOwn h h' := by
    rcases cases_toMap h' with ⟨_, -, heq⟩ | ⟨B, rfl, heq⟩
    · cases heq
    · cases heq
      rcases cases_toMap h with ⟨A, rfl, rfl⟩ | ⟨A, rfl, rfl⟩
      · exact ⟨iiaaKillOrReplaceEF (.value (A.setUnion B)), rfl, by rw [toMap, labels_setUnion]; rfl⟩
      · exact ⟨iiaaAddLabelsEF (.value (A.setUnion B)), rfl, by rw [toMap, labels_setUnion]; rfl⟩
  combineOwn h h' := by
    rcases cases_toMap h with ⟨A, rfl, rfl⟩ | ⟨A, rfl, rfl⟩ <;>
      rcases cases_toMap h' with ⟨B, rfl, rfl⟩ | ⟨B, rfl, rfl⟩
    · exact ⟨iiaaKillOrReplaceEF (.value (A.setUnion B)), rfl, by rw [toMap, labels_setUnion]; rfl⟩
    all_goals exact ⟨iiaaAddLabelsEF (.value (A.setUnion B)), rfl, by rw [toMap, labels_setUnion]; rfl⟩
  surjective := labels_surjective
  not_isTop {EF c} h := by
    rcases h with h | h <;> rcases cases_toMap h with ⟨Set, -, heq⟩ | ⟨Set, -, heq⟩ <;> cases heq
    · exact not_isTop_labels Set
    · exact not_isTop_labels Set

end IDEInstInteractionAnalysis

end Phasar
