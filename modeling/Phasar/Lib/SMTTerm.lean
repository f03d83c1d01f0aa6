import Mathlib.Data.Int.Notation

/-!
# Terms over integers and truth values

Terms of the theory of integers with division, over constants that are known by name and sort. Division
by zero may have any value, which the model chooses.

* `Term`, `Model`, `Term.eval`;
* `Expr`: a term of some sort, as an untyped interface hands it out;
* `Satisfiable`.
-/

namespace SMT

/-- The sorts. -/
inductive Srt
  | bool
  | int
  deriving DecidableEq

/-- The values of a sort. -/
abbrev Srt.Denote : Srt → Type
  | .bool => Bool
  | .int => ℤ

inductive ArithOp
  | add
  | sub
  | mul
  | div
  | mod
  | rem
  deriving DecidableEq

inductive BoolOp
  | and
  | or
  | xor
  deriving DecidableEq

inductive CmpOp
  | gt
  | ge
  | lt
  | le
  deriving DecidableEq

/-- Quotient and remainder are those with a nonnegative remainder; `rem` has the sign of the divisor.
Nothing is said of the divisor zero. -/
def ArithOp.apply : ArithOp → ℤ → ℤ → Option ℤ
  | .add, x, y => some (x + y)
  | .sub, x, y => some (x - y)
  | .mul, x, y => some (x * y)
  | .div, x, y => if y = 0 then none else some (x / y)
  | .mod, x, y => if y = 0 then none else some (x % y)
  | .rem, x, y => if y = 0 then none else some (if 0 ≤ y then x % y else -(x % y))

def BoolOp.apply : BoolOp → Bool → Bool → Bool
  | .and, x, y => x && y
  | .or, x, y => x || y
  | .xor, x, y => x != y

def CmpOp.apply : CmpOp → ℤ → ℤ → Bool
  | .gt, x, y => decide (y < x)
  | .ge, x, y => decide (y ≤ x)
  | .lt, x, y => decide (x < y)
  | .le, x, y => decide (x ≤ y)

/-- Terms over constants with names in `S`. -/
inductive Term (S : Type) : Srt → Type
  | const (s : Srt) (name : S) : Term S s
  | intVal (z : ℤ) : Term S .int
  | arith (op : ArithOp) (a b : Term S .int) : Term S .int
  | logic (op : BoolOp) (a b : Term S .bool) : Term S .bool
  | cmp (op : CmpOp) (a b : Term S .int) : Term S .bool
  | eq {s : Srt} (a b : Term S s) : Term S .bool
  | not (a : Term S .bool) : Term S .bool

/-- The values of the constants, and of the operations where they are not specified. -/
structure Model (S : Type) where
  value : (s : Srt) → S → s.Denote
  divZero : ArithOp → ℤ → ℤ

variable {S : Type}

instance instDecidableEqDenote : ∀ s : Srt, DecidableEq s.Denote
  | .bool => inferInstanceAs (DecidableEq Bool)
  | .int => inferInstanceAs (DecidableEq ℤ)

/-- The value of a term. -/
def Term.eval (M : Model S) : {s : Srt} → Term S s → s.Denote
  | _, .const s name => M.value s name
  | _, .intVal z => z
  | _, .arith op a b => (op.apply (a.eval M) (b.eval M)).getD (M.divZero op (a.eval M))
  | _, .logic op a b => op.apply (a.eval M) (b.eval M)
  | _, .cmp op a b => op.apply (a.eval M) (b.eval M)
  | _, .eq a b => decide (a.eval M = b.eval M)
  | _, .not a => !(a.eval M)

/-- A term of any sort. -/
abbrev Expr (S : Type) := (s : Srt) × Term S s

/-- An expression is true. -/
def Holds (M : Model S) (e : Expr S) : Prop := ∃ t : Term S .bool, e = ⟨.bool, t⟩ ∧ t.eval M = true

/-- Some model makes all expressions true. -/
def Satisfiable (es : List (Expr S)) : Prop := ∃ M : Model S, ∀ e ∈ es, Holds M e

theorem holds_bool {M : Model S} {t : Term S .bool} : Holds M ⟨.bool, t⟩ ↔ t.eval M = true := by
  constructor
  · rintro ⟨t', heq, ht⟩
    obtain rfl := eq_of_heq (Sigma.mk.inj heq).2
    exact ht
  · exact fun h => ⟨t, rfl, h⟩

/-- A term and its negation are never both true. -/
theorem not_holds_not {M : Model S} {t : Term S .bool} (h : Holds M ⟨.bool, t⟩) :
    ¬Holds M ⟨.bool, t.not⟩ := by
  rw [holds_bool] at h ⊢
  simp [Term.eval, h]

end SMT
