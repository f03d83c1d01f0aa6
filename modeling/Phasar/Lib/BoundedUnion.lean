import Mathlib.Data.Finset.Card

/-!
# Unions up to a size

The union of finite sets, with sets of more than `n` elements replaced by `{t}` for an element `t`
that stands for any element at all. It is commutative and associative, the empty set is neutral and
`{t}` absorbs; its order is inclusion, with `{t}` on top.

* `join`, `join_assoc`, `card_join_le`;
* `Proper`: `t` occurs alone only;
* `join_eq_right_iff`: the order of the join.
-/

namespace Phasar.BoundedUnion

variable {α : Type*} {t : α} {n : ℕ} {a b c : Finset α}

variable (t) in
/-- `t` occurs alone, if at all. -/
def Proper (a : Finset α) : Prop := t ∈ a → a = {t}

theorem proper_singleton : Proper t {t} := fun _ => rfl

theorem proper_of_notMem (h : t ∉ a) : Proper t a := fun ht => absurd ht h

variable [DecidableEq α]

variable (t n) in
def join (a b : Finset α) : Finset α :=
  if a = {t} ∨ b = {t} ∨ n < (a ∪ b).card then {t} else a ∪ b

/-- A union of sets is `{t}` only if one of them is. -/
theorem eq_singleton_of_union (h : a ∪ b = {t}) : a = {t} ∨ b = {t} := by
  have ha : a ⊆ {t} := h ▸ Finset.subset_union_left
  rcases Finset.subset_singleton_iff.1 ha with rfl | rfl
  · exact Or.inr (by simpa using h)
  · exact Or.inl rfl

theorem join_comm (a b : Finset α) : join t n a b = join t n b a := by
  unfold join
  rw [Finset.union_comm b a]
  refine if_congr ?_ rfl rfl
  tauto

theorem join_self (h : a.card ≤ n) : join t n a a = a := by
  unfold join
  rw [Finset.union_self]
  split_ifs with ht
  · rcases ht with ht | ht | ht
    · exact ht.symm
    · exact ht.symm
    · omega
  · rfl

theorem join_empty (h : a.card ≤ n) : join t n a ∅ = a := by
  unfold join
  rw [Finset.union_empty]
  split_ifs with ht
  · rcases ht with ht | ht | ht
    · exact ht.symm
    · exact absurd ht.symm (Finset.singleton_ne_empty t)
    · omega
  · rfl

theorem join_singleton (a : Finset α) : join t n a {t} = {t} := if_pos (Or.inr (Or.inl rfl))

theorem singleton_join (a : Finset α) : join t n {t} a = {t} := if_pos (Or.inl rfl)

/-- When a join of three sets collapses. -/
theorem join_join_eq (a b c : Finset α) : join t n (join t n a b) c =
    if a = {t} ∨ b = {t} ∨ c = {t} ∨ n < (a ∪ b ∪ c).card then {t} else a ∪ b ∪ c := by
  by_cases h : a = {t} ∨ b = {t} ∨ n < (a ∪ b).card
  · have hcard : n < (a ∪ b).card → n < (a ∪ b ∪ c).card := fun hlt =>
      hlt.trans_le (Finset.card_le_card Finset.subset_union_left)
    rw [show join t n a b = {t} from if_pos h, singleton_join, if_pos (by tauto)]
  · rw [show join t n a b = a ∪ b from if_neg h]
    have hne : a ∪ b ≠ {t} := fun hu => by
      rcases eq_singleton_of_union hu with h' | h'
      · exact h (Or.inl h')
      · exact h (Or.inr (Or.inl h'))
    unfold join
    refine if_congr ?_ rfl rfl
    tauto

theorem join_assoc (a b c : Finset α) :
    join t n (join t n a b) c = join t n a (join t n b c) := by
  rw [join_join_eq, join_comm a (join t n b c), join_join_eq, Finset.union_comm (b ∪ c),
    ← Finset.union_assoc]
  refine if_congr ?_ rfl rfl
  tauto

theorem Proper.join (ha : Proper t a) (hb : Proper t b) : Proper t (join t n a b) := by
  unfold BoundedUnion.join
  split_ifs with h
  · exact proper_singleton
  · refine proper_of_notMem fun ht => ?_
    rcases Finset.mem_union.1 ht with ht | ht
    · exact h (Or.inl (ha ht))
    · exact h (Or.inr (Or.inl (hb ht)))

theorem card_join_le (hn : 1 ≤ n) (a b : Finset α) : (join t n a b).card ≤ n := by
  unfold join
  split_ifs with h
  · simpa using hn
  · exact not_lt.1 fun hlt => h (Or.inr (Or.inr hlt))

/-- The order of the join: inclusion, below `{t}`. -/
theorem join_eq_right_iff (hb : Proper t b) (hcard : b.card ≤ n) :
    join t n a b = b ↔ b = {t} ∨ a ⊆ b := by
  unfold join
  constructor
  · intro h
    split_ifs at h with ht
    · exact Or.inl h.symm
    · exact Or.inr (Finset.union_eq_right.1 h)
  · intro h
    split_ifs with ht
    · rcases h with h | h
      · exact h.symm
      · rcases ht with rfl | ht | ht
        · exact (hb (h (Finset.mem_singleton_self t))).symm
        · exact ht.symm
        · rw [Finset.union_eq_right.2 h] at ht
          omega
    · exact Finset.union_eq_right.2 (h.resolve_left fun hbt => ht (Or.inr (Or.inl hbt)))

end Phasar.BoundedUnion
