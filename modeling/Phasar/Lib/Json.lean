import Mathlib.Algebra.Group.Nat.Defs
import Mathlib.Data.List.Basic

/-!
# JSON values

Values as a JSON library hands them out, and lists of strings and numbers as arrays.
-/

inductive Json
  | null
  | number (n : ℕ)
  | string (s : String)
  | array (elems : List Json)
  | object (fields : List (String × Json))

namespace Json

/-- The value at a key of an object. -/
def get? (key : String) : Json → Option Json
  | object fields => fields.lookup key
  | _ => none

def getString? : Json → Option String
  | string s => some s
  | _ => none

/-- A number read with 32 bits. -/
def getUInt32? : Json → Option ℕ
  | number n => some (n % 2 ^ 32)
  | _ => none

/-- An array read by `f`. -/
def getArray? {α : Type*} (f : Json → Option α) : Json → Option (List α)
  | array elems => elems.mapM f
  | _ => none

/-- A pair read by `f` and `g`. -/
def getPair? {α β : Type*} (f : Json → Option α) (g : Json → Option β) : Json → Option (α × β)
  | array (x :: y :: _) => (f x).bind fun a => (g y).map fun b => (a, b)
  | _ => none

/-- The elements of an iteration. -/
def elems : Json → List Json
  | null => []
  | array elems => elems
  | object fields => fields.map Prod.snd
  | j => [j]

/-- What a null value becomes when elements are pushed to it. -/
def ofElems : List Json → Json
  | [] => null
  | x :: xs => array (x :: xs)

@[simp] theorem elems_ofElems (l : List Json) : (ofElems l).elems = l := by
  cases l <;> rfl

/-! ### Lists read back -/

section Option

variable {α β γ : Type*}

theorem mapM_eq_some_map {f : α → Option β} {g : α → β} {l : List α} (h : ∀ x ∈ l, f x = some (g x)) :
    l.mapM f = some (l.map g) := by
  induction l with
  | nil => rfl
  | cons x l ih =>
    obtain ⟨hx, hl⟩ := List.forall_mem_cons.mp h
    rw [List.mapM_cons, hx, ih hl]
    rfl

/-- A list read back from the encodings of its elements. -/
theorem mapM_map_eq_some_iff {f : β → Option α} {g : α → β} {l : List α} :
    (l.map g).mapM f = some l ↔ ∀ x ∈ l, f (g x) = some x := by
  induction l with
  | nil => simp
  | cons x l ih =>
    rw [List.map_cons, List.mapM_cons, List.forall_mem_cons, ← ih]
    cases f (g x) with
    | none => simp
    | some y => cases (l.map g).mapM f <;> simp

end Option

theorem getArray?_map {α : Type*} {f : Json → Option α} {g : α → Json} {l : List α}
    (h : ∀ x ∈ l, f (g x) = some x) : getArray? f (array (l.map g)) = some l :=
  mapM_map_eq_some_iff.mpr h

end Json
