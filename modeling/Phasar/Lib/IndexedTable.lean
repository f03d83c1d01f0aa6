import Mathlib.Data.List.Basic
import Mathlib.Data.List.GetD
import Mathlib.Data.List.Sort
import Mathlib.Tactic.Common

/-!
# Tables indexed by numbers

A table is a list that is read with a default value. An ascending list is iterated until a bound is
reached.

* `getD_concat`, `getD_modify`, `getD_replicate_self`: reading a table that has changed;
* `iterateWhile`, `iterateWhile_eq_foldl`: a loop that its body stops.
-/

namespace IndexedTable

variable {α σ : Type*}

theorem getD_concat (l : List α) (x d : α) (j : ℕ) :
    (l ++ [x]).getD j d = if j = l.length then x else l.getD j d := by
  rcases lt_trichotomy j l.length with hlt | rfl | hgt
  · rw [List.getD_append _ _ _ _ hlt, if_neg hlt.ne]
  · rw [if_pos rfl, List.getD_append_right _ _ _ _ le_rfl, Nat.sub_self, List.getD_cons_zero]
  · rw [if_neg hgt.ne', List.getD_eq_default _ _ hgt.le,
      List.getD_eq_default _ _ (by simpa using Nat.succ_le_of_lt hgt)]

theorem getD_modify (l : List α) (i j : ℕ) (f : α → α) (d : α) :
    (l.modify i f).getD j d = if i = j ∧ j < l.length then f (l.getD j d) else l.getD j d := by
  simp only [List.getD_eq_getElem?_getD, List.getElem?_modify]
  by_cases hj : j < l.length
  · by_cases hij : i = j
    · simp [hij, hj]
    · simp [hij]
  · simp [hj]

theorem getD_replicate_self (n j : ℕ) (d : α) : (List.replicate n d).getD j d = d := by
  rw [List.getD_eq_getElem?_getD, List.getElem?_getD_replicate_default_eq]

/-- Iterate until the body gives `none`. -/
def iterateWhile (f : σ → α → Option σ) : List α → σ → σ
  | [], s => s
  | a :: l, s =>
    match f s a with
    | none => s
    | some s' => iterateWhile f l s'

/-- Stopping at the first element that is too large loses nothing of an ascending list. -/
theorem iterateWhile_eq_foldl [LinearOrder α] {f : σ → α → Option σ} {g : σ → α → σ} {bound : α}
    (hf : ∀ s a, f s a = if a < bound then some (g s a) else none) :
    ∀ {l : List α} {s : σ}, l.Pairwise (· ≤ ·) →
      iterateWhile f l s = (l.filter (· < bound)).foldl g s
  | [], _, _ => rfl
  | a :: l, s, hl => by
    obtain ⟨hle, hl⟩ := List.pairwise_cons.1 hl
    rw [iterateWhile, hf]
    by_cases ha : a < bound
    · rw [if_pos ha, List.filter_cons_of_pos (by simpa using ha), List.foldl_cons]
      exact iterateWhile_eq_foldl hf hl
    · have hnil : (a :: l).filter (· < bound) = [] := by
        refine List.filter_eq_nil_iff.2 fun x hx => ?_
        rcases List.mem_cons.1 hx with rfl | hx
        · simpa using ha
        · simpa using (not_lt.1 ha).trans (hle x hx)
      rw [if_neg ha, hnil, List.foldl_nil]

end IndexedTable
