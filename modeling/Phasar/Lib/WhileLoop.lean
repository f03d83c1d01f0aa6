import Mathlib.Data.Nat.Notation
import Mathlib.Tactic.TypeStar

/-!
# Loops that fail, or do not end

A loop whose step goes on with a state, is left with a result, or fails. It is run for a number of steps;
when these are used up it fails with `timeout`.

* `of_ok`: what an invariant says of the result, if there is one;
* `exists_ok`: a measure that decreases gives a result.
-/

namespace WhileLoop

variable {ε σ β : Type*}

/-- The result of a loop, within a number of steps. -/
def run (timeout : ε) (step : σ → Except ε (σ ⊕ β)) : ℕ → σ → Except ε β
  | 0, _ => .error timeout
  | n + 1, s =>
    match step s with
    | .error e => .error e
    | .ok (.inl s') => run timeout step n s'
    | .ok (.inr b) => .ok b

variable {timeout : ε} {step : σ → Except ε (σ ⊕ β)} {n : ℕ} {s s' : σ} {b : β}

theorem run_of_inl (h : step s = .ok (.inl s')) :
    run timeout step (n + 1) s = run timeout step n s' := by
  rw [run, h]

theorem run_of_inr (h : step s = .ok (.inr b)) : run timeout step (n + 1) s = .ok b := by
  rw [run, h]

theorem of_ok (I : σ → Prop) (Q : β → Prop)
    (goesOn : ∀ {s s'}, I s → step s = .ok (.inl s') → I s')
    (left : ∀ {s b}, I s → step s = .ok (.inr b) → Q b)
    (hs : I s) (h : run timeout step n s = .ok b) : Q b := by
  induction n generalizing s with
  | zero => cases h
  | succ n ih =>
    cases hstep : step s with
    | error e =>
      rw [run, hstep] at h
      cases h
    | ok next =>
      cases next with
      | inl s' =>
        rw [run_of_inl hstep] at h
        exact ih (goesOn hs hstep) h
      | inr b' =>
        rw [run_of_inr hstep] at h
        cases h
        exact left hs hstep

theorem exists_ok (timeout : ε) (step : σ → Except ε (σ ⊕ β)) (I : σ → Prop) (Q : β → Prop) (measure : σ → ℕ)
    (hstep : ∀ s, I s → (∃ b, step s = .ok (.inr b) ∧ Q b) ∨
      ∃ s', step s = .ok (.inl s') ∧ I s' ∧ measure s' < measure s)
    (hs : I s) (hn : measure s < n) : ∃ b, run timeout step n s = .ok b ∧ Q b := by
  induction n generalizing s with
  | zero => exact absurd hn (Nat.not_lt_zero _)
  | succ n ih =>
    rcases hstep s hs with ⟨b, hb, hQ⟩ | ⟨s', hs', hI, hlt⟩
    · exact ⟨b, run_of_inr hb, hQ⟩
    · obtain ⟨b, hb, hQ⟩ := ih hI (Nat.lt_of_lt_of_le hlt (Nat.le_of_lt_succ hn))
      exact ⟨b, (run_of_inl hs').trans hb, hQ⟩

end WhileLoop
