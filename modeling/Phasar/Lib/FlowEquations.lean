import Mathlib.Order.Bounds.Basic
import Mathlib.Order.Lattice
import Mathlib.Order.BoundedOrder.Basic
import Mathlib.Tactic.Common

/-!
# Flow equations

Equations for values at the nodes of a graph: the value of a start node is given, that of another node
is the least upper bound of what flows in from its predecessors. An algorithm that recomputes one node
after the other, and recomputes a node again after a predecessor changed, ends with the least solution.

* `System`, `Solution`, `Least`;
* `Approx`: values on the way to the least solution, with the nodes still to be recomputed;
* `Approx.recompute`, `Approx.least`.
-/

namespace FlowEquations

/-- A graph with functions on its nodes and values at the start nodes. -/
structure System (N L : Type*) where
  node : N → Prop
  start : N → Prop
  pred : N → N → Prop
  flow : N → L → L
  init : N → L

variable {N L : Type*} [SemilatticeSup L] {S : System N L} {A : N → L}

/-- What flows into a node. -/
def Incoming (S : System N L) (A : N → L) (n : N) : Set L := {x | ∃ p, S.pred p n ∧ x = S.flow p (A p)}

structure Solution (S : System N L) (A : N → L) : Prop where
  start : ∀ n, S.start n → A n = S.init n
  merge : ∀ n, S.node n → ¬S.start n → IsLUB (Incoming S A n) (A n)

/-- A solution that is below every solution. -/
def Least (S : System N L) (A : N → L) : Prop :=
  Solution S A ∧ ∀ B, Solution S B → ∀ n, S.node n → A n ≤ B n

/-- Monotone functions, and nodes with predecessors that are nodes. Start nodes have none. -/
structure System.Regular (S : System N L) : Prop where
  flow : ∀ n, Monotone (S.flow n)
  node : ∀ p n, S.pred p n → S.node p ∧ S.node n
  start : ∀ p n, S.pred p n → ¬S.start n

/-- Values below every solution, each at most what its node would get, and exactly that unless the
node is still to be recomputed. -/
structure Approx (S : System N L) (A : N → L) (todo : N → Prop) : Prop where
  start : ∀ n, S.start n → A n = S.init n
  below : ∀ B, Solution S B → ∀ n, S.node n → A n ≤ B n
  rising : ∀ n, S.node n → ¬S.start n → ∀ x ∈ upperBounds (Incoming S A n), A n ≤ x
  done : ∀ n, S.node n → ¬S.start n → todo n ∨ A n ∈ upperBounds (Incoming S A n)

theorem Approx.init [OrderBot L] {todo : N → Prop} (hstart : ∀ n, S.start n → A n = S.init n)
    (hbot : ∀ n, ¬S.start n → A n = ⊥) (htodo : ∀ p n, S.pred p n → todo n) : Approx S A todo where
  start := hstart
  below B hB n _ := by
    by_cases hn : S.start n
    · rw [hstart n hn, hB.start n hn]
    · exact (hbot n hn).trans_le bot_le
  rising n _ hn x _ := (hbot n hn).trans_le bot_le
  done n _ _ := by
    by_cases hpred : ∃ p, S.pred p n
    · obtain ⟨p, hp⟩ := hpred
      exact Or.inl (htodo p n hp)
    · refine Or.inr ?_
      rintro x ⟨p, hp, -⟩
      exact absurd ⟨p, hp⟩ hpred

/-- When nothing is left to be recomputed, the values are the least solution. -/
theorem Approx.least (h : Approx S A fun _ => False) : Least S A :=
  ⟨⟨h.start, fun n hn hs => ⟨(h.done n hn hs).resolve_left id, h.rising n hn hs⟩⟩, h.below⟩

variable {todo todo' : N → Prop} {n : N} {x : L}

/-- A recomputed value rises. -/
theorem Approx.le (h : Approx S A todo) (hn : S.node n) (hs : ¬S.start n)
    (hx : IsLUB (Incoming S A n) x) : A n ≤ x :=
  h.rising n hn hs x hx.1

/-- The value of a node is recomputed; its successors are to be recomputed next. -/
theorem Approx.recompute [DecidableEq N] (h : Approx S A todo) (hmono : S.Regular) (hn : S.node n)
    (hs : ¬S.start n) (hx : IsLUB (Incoming S A n) x)
    (htodo : ∀ m, todo m → m ≠ n → todo' m) (hsucc : ∀ m, S.pred n m → todo' m) :
    Approx S (Function.update A n x) todo' := by
  have hle : ∀ m, A m ≤ Function.update A n x m := by
    intro m
    by_cases hm : m = n
    · rw [hm, Function.update_self]
      exact h.le hn hs hx
    · rw [Function.update_of_ne hm]
  have hup : ∀ m y, y ∈ upperBounds (Incoming S (Function.update A n x) m) →
      y ∈ upperBounds (Incoming S A m) := by
    rintro m y hy z ⟨p, hp, rfl⟩
    exact (hmono.flow p (hle p)).trans (hy ⟨p, hp, rfl⟩)
  refine ⟨fun m hm => ?_, fun B hB m hm => ?_, fun m hm hms y hy => ?_, fun m hm hms => ?_⟩
  · rw [Function.update_of_ne fun heq : m = n => hs (heq ▸ hm)]
    exact h.start m hm
  · by_cases hmn : m = n
    · rw [hmn, Function.update_self]
      -- what flows in is below what flows in at any solution
      refine hx.2 ?_
      rintro z ⟨p, hp, rfl⟩
      exact (hmono.flow p (h.below B hB p (hmono.node p n hp).1)).trans
        ((hB.merge n hn hs).1 ⟨p, hp, rfl⟩)
    · rw [Function.update_of_ne hmn]
      exact h.below B hB m hm
  · by_cases hmn : m = n
    · subst hmn
      rw [Function.update_self]
      exact hx.2 (hup m y hy)
    · rw [Function.update_of_ne hmn]
      exact h.rising m hm hms y (hup m y hy)
  · by_cases hpred : S.pred n m
    · exact Or.inl (hsucc m hpred)
    · have hsame : Incoming S (Function.update A n x) m = Incoming S A m := by
        ext z
        refine exists_congr fun p => and_congr_right fun hp => ?_
        rw [Function.update_of_ne fun heq : p = n => hpred (heq ▸ hp)]
      rw [hsame]
      by_cases hmn : m = n
      · subst hmn
        rw [Function.update_self]
        exact Or.inr hx.1
      · rw [Function.update_of_ne hmn]
        exact (h.done m hm hms).imp_left fun ht => htodo m ht hmn

/-- A node whose value is right does not have to be recomputed. -/
theorem Approx.skip (h : Approx S A todo) (hx : IsLUB (Incoming S A n) (A n))
    (htodo : ∀ m, todo m → m ≠ n → todo' m) : Approx S A todo' where
  start := h.start
  below := h.below
  rising := h.rising
  done m hm hms := by
    by_cases hmn : m = n
    · exact Or.inr (hmn ▸ hx.1)
    · exact (h.done m hm hms).imp_left fun ht => htodo m ht hmn

end FlowEquations
