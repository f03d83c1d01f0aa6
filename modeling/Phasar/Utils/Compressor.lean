import Mathlib.Logic.Function.Basic
import Mathlib.Order.Nat
import Mathlib.Tactic.Common

/-!
# Sequential ids of values

A `Compressor` assigns sequential ids to values. A dummy takes an id, but is not found under it.

* `Compressor`: `insert`, `insertDummy`, `getOrNull`, `get`;
* `Compressor.Inv`: the values that are found, and their ids;
* `Compressor.Extends`: ids keep their values.
-/

namespace Phasar

/-- The ids of the values that are found, and the values of all ids. -/
structure Compressor (T : Type*) where
  ToInt : T → Option ℕ := fun _ => none
  FromInt : List T := []

namespace Compressor

variable {T : Type*}

def size (c : Compressor T) : ℕ := c.FromInt.length

def getOrNull (Elem : T) (c : Compressor T) : Option ℕ := c.ToInt Elem

/-- `operator[]`, where the id is in bounds. -/
def get (Idx : ℕ) (c : Compressor T) : Option T := c.FromInt[Idx]?

/-- `insertDummy`: the id, and the compressor after it. -/
def insertDummy (Elem : T) (c : Compressor T) : ℕ × Compressor T :=
  (c.size, { c with FromInt := c.FromInt ++ [Elem] })

section Insert

variable [DecidableEq T]

/-- `insert`: the id, whether the value is new, and the compressor after it. -/
def insert (Elem : T) (c : Compressor T) : ℕ × Bool × Compressor T :=
  match c.ToInt Elem with
  | some Id => (Id, false, c)
  | none => (c.size, true, ⟨Function.update c.ToInt Elem (some c.size), c.FromInt ++ [Elem]⟩)

end Insert

/-- A value is found under the ids that it has, apart from those of dummies. -/
def Inv (dummy : ℕ → Prop) (c : Compressor T) : Prop :=
  ∀ Elem Id, c.getOrNull Elem = some Id ↔ c.get Id = some Elem ∧ ¬dummy Id

/-- Ids keep their values. -/
def Extends (c c' : Compressor T) : Prop := ∀ Id Elem, c.get Id = some Elem → c'.get Id = some Elem

variable {dummy : ℕ → Prop} {c c' c'' : Compressor T} {Id : ℕ} {Elem : T}

theorem Extends.refl (c : Compressor T) : Extends c c := fun _ _ h => h

theorem Extends.trans (h : Extends c c') (h' : Extends c' c'') : Extends c c'' :=
  fun Id Elem hget => h' Id Elem (h Id Elem hget)

theorem lt_size (h : c.get Id = some Elem) : Id < c.size := (List.getElem?_eq_some_iff.1 h).1

theorem extends_concat (Elem : T) (ToInt : T → Option ℕ) : Extends c ⟨ToInt, c.FromInt ++ [Elem]⟩ :=
  fun _ _ h => (List.getElem?_append_left (lt_size h)).trans h

/-- The value of a new id. -/
theorem get_concat {ToInt : T → Option ℕ} {new : T} :
    get Id ⟨ToInt, c.FromInt ++ [new]⟩ = some Elem ↔ c.get Id = some Elem ∨ Id = c.size ∧ new = Elem := by
  rw [get, get, List.getElem?_append]
  split_ifs with hlt
  · exact (or_iff_left fun h => (Nat.ne_of_lt hlt) h.1).symm
  · rw [List.getElem?_eq_none (not_lt.1 hlt), List.getElem?_singleton, size]
    by_cases heq : Id = c.FromInt.length
    · simp [heq]
    · have hne : Id - c.FromInt.length ≠ 0 := by omega
      simp [heq, hne]

section Insert

variable [DecidableEq T]

/-- A value is found, or gets the next id. -/
theorem insert_cases (Elem : T) (c : Compressor T) :
    (∃ Id, c.getOrNull Elem = some Id ∧ c.insert Elem = (Id, false, c)) ∨
      c.getOrNull Elem = none ∧ c.insert Elem =
        (c.size, true, ⟨Function.update c.ToInt Elem (some c.size), c.FromInt ++ [Elem]⟩) := by
  rw [getOrNull, insert]
  cases c.ToInt Elem with
  | some Id => exact Or.inl ⟨Id, rfl, rfl⟩
  | none => exact Or.inr ⟨rfl, rfl⟩

theorem extends_insert : Extends c (c.insert Elem).2.2 := by
  rcases insert_cases Elem c with ⟨Id, -, heq⟩ | ⟨-, heq⟩
  · rw [heq]
    exact Extends.refl c
  · rw [heq]
    exact extends_concat Elem _

theorem Inv.insert (h : Inv dummy c) (hdummy : ∀ Id, c.size ≤ Id → ¬dummy Id) (Elem : T) :
    Inv dummy (c.insert Elem).2.2 := by
  rcases insert_cases Elem c with ⟨Id, -, heq⟩ | ⟨hnew, heq⟩
  · rw [heq]
    exact h
  · rw [heq]
    intro x Id
    rw [get_concat]
    show Function.update c.ToInt Elem (some c.size) x = some Id ↔ _
    by_cases hx : x = Elem
    · subst hx
      rw [Function.update_self, Option.some_inj]
      constructor
      · rintro rfl
        exact ⟨Or.inr ⟨rfl, rfl⟩, hdummy _ le_rfl⟩
      · rintro ⟨hget | ⟨rfl, -⟩, hId⟩
        · rw [(h x Id).2 ⟨hget, hId⟩] at hnew
          cases hnew
        · rfl
    · have hne : Elem ≠ x := fun h => hx h.symm
      rw [Function.update_of_ne hx, ← getOrNull, h]
      simp only [hne, and_false, or_false]

/-- The id that is returned has the value. -/
theorem Inv.get_insert (h : Inv dummy c) (Elem : T) :
    (c.insert Elem).2.2.get (c.insert Elem).1 = some Elem := by
  rcases insert_cases Elem c with ⟨Id, hfound, heq⟩ | ⟨-, heq⟩
  · rw [heq]
    exact ((h Elem Id).1 hfound).1
  · rw [heq]
    exact get_concat.2 (Or.inr ⟨rfl, rfl⟩)

/-- A value that has an id gets it again. -/
theorem Inv.insert_of_get (h : Inv dummy c) (hget : c.get Id = some Elem) (hId : ¬dummy Id) :
    c.insert Elem = (Id, false, c) := by
  have hfound : c.ToInt Elem = some Id := (h Elem Id).2 ⟨hget, hId⟩
  rw [Compressor.insert, hfound]

end Insert

end Compressor

end Phasar
