import Phasar.Lib.IndexedTable
import Mathlib.Logic.Function.Basic

/-!
# Values with sequential ids

`ValueCompressor` assigns sequential ids to values. Several values can have one id, and an id need
not have a value.

* `ValueCompressor`: `insert`, `addAlias`, `addDummy`, `getOrNull`, `id2vars`;
* `ValueCompressor.Extends`: ids are never taken back.
-/

namespace Phasar

open IndexedTable

/-- Every value is listed under its id, and under no other. -/
structure ValueCompressor (T : Type) where
  id2Vars : List (List T)
  var2Id : T → Option ℕ
  var2Id_iff : ∀ var id, var2Id var = some id ↔ var ∈ id2Vars.getD id []

namespace ValueCompressor

variable {T : Type}

def empty : ValueCompressor T := ⟨[], fun _ => none, by simp⟩

def size (c : ValueCompressor T) : ℕ := c.id2Vars.length

def id2vars (id : ℕ) (c : ValueCompressor T) : List T := c.id2Vars.getD id []

def getOrNull (var : T) (c : ValueCompressor T) : Option ℕ := c.var2Id var

theorem lt_size {c : ValueCompressor T} {var : T} {id : ℕ} (h : c.getOrNull var = some id) :
    id < c.size := by
  by_contra hle
  have hmem := (c.var2Id_iff var id).1 h
  rw [List.getD_eq_default _ _ (not_lt.1 hle)] at hmem
  exact List.not_mem_nil hmem

/-- A fresh id without values. -/
def addDummy (c : ValueCompressor T) : ValueCompressor T × ℕ :=
  ({ id2Vars := c.id2Vars ++ [[]]
     var2Id := c.var2Id
     var2Id_iff := fun var id => by
       rw [c.var2Id_iff, getD_concat]
       split_ifs with h
       · rw [h, List.getD_eq_default _ _ le_rfl]
       · rfl }, c.size)

variable [DecidableEq T]

/-- A fresh id for a value without one. -/
def addFresh (var : T) (c : ValueCompressor T) (h : c.getOrNull var = none) :
    ValueCompressor T where
  id2Vars := c.id2Vars ++ [[var]]
  var2Id := Function.update c.var2Id var (some c.size)
  var2Id_iff x id := by
    have hnot : ∀ id, var ∉ c.id2Vars.getD id [] := by
      intro id hmem
      rw [getOrNull, (c.var2Id_iff var id).2 hmem] at h
      cases h
    rw [getD_concat]
    by_cases hx : x = var
    · subst hx
      rw [Function.update_self, Option.some_inj]
      split_ifs with hid
      · exact iff_of_true hid.symm (List.mem_singleton_self x)
      · exact iff_of_false (Ne.symm hid) (hnot id)
    · rw [Function.update_of_ne hx, c.var2Id_iff]
      split_ifs with hid
      · rw [hid, List.getD_eq_default _ _ le_rfl]
        simp [hx]
      · rfl

/-- The id of a value, and whether it is new. -/
def insert (var : T) (c : ValueCompressor T) : ValueCompressor T × ℕ × Bool :=
  if h : c.getOrNull var = none then (c.addFresh var h, c.size, true)
  else (c, (c.getOrNull var).get (Option.isSome_iff_ne_none.2 h), false)

/-- Another value for an id, which must exist; whether the value had no id. -/
def addAlias (var : T) (id : ℕ) (c : ValueCompressor T) : ValueCompressor T × Bool :=
  if h : c.getOrNull var = none ∧ id < c.size then
    ({ id2Vars := c.id2Vars.modify id (· ++ [var])
       var2Id := Function.update c.var2Id var (some id)
       var2Id_iff := fun x id' => by
         have hnot : var ∉ c.id2Vars.getD id' [] := by
           intro hmem
           have hnone := h.1
           rw [getOrNull, (c.var2Id_iff var id').2 hmem] at hnone
           cases hnone
         rw [getD_modify]
         by_cases hx : x = var
         · subst hx
           rw [Function.update_self, Option.some_inj]
           split_ifs with hid
           · exact iff_of_true hid.1 (by simp)
           · refine iff_of_false (fun heq => hid ⟨heq, heq ▸ h.2⟩) hnot
         · rw [Function.update_of_ne hx, c.var2Id_iff]
           split_ifs <;> simp [hx] }, true)
  else (c, false)

/-! ### Ids are never taken back -/

/-- All ids are kept. -/
structure Extends (c c' : ValueCompressor T) : Prop where
  getOrNull : ∀ var id, c.getOrNull var = some id → c'.getOrNull var = some id
  size : c.size ≤ c'.size

omit [DecidableEq T] in
theorem Extends.refl (c : ValueCompressor T) : Extends c c := ⟨fun _ _ => id, le_rfl⟩

omit [DecidableEq T] in
theorem Extends.trans {c c' c'' : ValueCompressor T} (h : Extends c c') (h' : Extends c' c'') :
    Extends c c'' :=
  ⟨fun var id hid => h'.getOrNull var id (h.getOrNull var id hid), h.size.trans h'.size⟩

theorem insert_spec (var : T) (c : ValueCompressor T) :
    Extends c (c.insert var).1 ∧ (c.insert var).1.getOrNull var = some (c.insert var).2.1 := by
  rw [insert]
  split_ifs with h
  · refine ⟨⟨fun x id hid => ?_, by simp [size, addFresh]⟩, Function.update_self _ _ _⟩
    have hx : x ≠ var := by
      rintro rfl
      rw [h] at hid
      cases hid
    exact (Function.update_of_ne hx _ _).trans hid
  · exact ⟨.refl c, (Option.some_get _).symm⟩

/-- An alias that is refused belongs to a value that has an id. -/
theorem addAlias_spec (var : T) {id : ℕ} {c : ValueCompressor T} (hid : id < c.size) :
    Extends c (c.addAlias var id).1 ∧
      if (c.addAlias var id).2 then (c.addAlias var id).1.getOrNull var = some id
      else ∃ id', (c.addAlias var id).1.getOrNull var = some id' := by
  rw [addAlias]
  split_ifs with h hfalse hfalse
  · refine ⟨⟨fun x id' hid' => ?_, by simp [size]⟩, Function.update_self _ _ _⟩
    have hx : x ≠ var := by
      rintro rfl
      rw [h.1] at hid'
      cases hid'
    exact (Function.update_of_ne hx _ _).trans hid'
  · exact absurd rfl hfalse
  · exact hfalse.elim
  · exact ⟨.refl c, Option.ne_none_iff_exists'.1 fun hnone => h ⟨hnone, hid⟩⟩

end ValueCompressor

end Phasar
