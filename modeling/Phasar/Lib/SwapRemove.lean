import Mathlib.Data.List.Basic
import Mathlib.Tactic.Common

/-!
# Loops that remove elements by a swap with the last one

A loop over a list that is part of the state. What a visit says to remove is replaced by the last
element, and the loop goes on at the same index.

* `swapRemove`: a removal permutes the elements behind the index;
* `sweep`, `sweep_rule`: the loop visits every element once, in an order that the removals decide.
-/

namespace SwapRemove

variable {α σ : Type*}

/-- Replace the element at the index by the last one, which is taken away. -/
def swapRemove (l : List α) (i : ℕ) : List α :=
  match l.getLast? with
  | none => []
  | some e => (l.set i e).dropLast

theorem swapRemove_append_cons (done : List α) (e : α) (todo : List α) :
    ∃ todo' : List α, todo'.Perm todo ∧
      swapRemove (done ++ e :: todo) done.length = done ++ todo' := by
  rcases List.eq_nil_or_concat todo with rfl | ⟨init, last, rfl⟩
  · refine ⟨[], .refl _, ?_⟩
    rw [swapRemove, List.getLast?_concat]
    simp
  · refine ⟨last :: init, ?_, ?_⟩
    · rw [List.concat_eq_append]
      exact (List.perm_append_singleton last init).symm
    · have hset : (done ++ e :: init ++ [last]).set done.length last =
          done ++ (last :: init) ++ [last] := by simp
      rw [swapRemove, List.concat_eq_append, ← List.cons_append, ← List.append_assoc,
        List.getLast?_concat]
      dsimp only
      rw [hset, List.dropLast_concat]

/-- Visit the elements from the index on. A visit says whether its element is kept. -/
def sweep (get : σ → List α) (remove : ℕ → σ → σ) (visit : α → σ → Option (Bool × σ)) :
    ℕ → ℕ → σ → Option σ
  | 0, _, _ => none
  | fuel + 1, i, s =>
    match (get s)[i]? with
    | none => some s
    | some e => (visit e s).bind fun r =>
      if r.1 then sweep get remove visit fuel (i + 1) r.2
      else sweep get remove visit fuel i (remove i r.2)

/-- An invariant of the elements that are kept, of those still to visit, and of the state. It must not
depend on the order of the elements to visit. -/
theorem sweep_rule (get : σ → List α) (remove : ℕ → σ → σ) (visit : α → σ → Option (Bool × σ))
    (I : List α → List α → σ → Prop)
    (hremove : ∀ i s, get (remove i s) = swapRemove (get s) i)
    (hvisit : ∀ done e todo s, I done (e :: todo) s → get s = done ++ e :: todo →
      ∃ keep s', visit e s = some (keep, s') ∧ get s' = get s ∧
        (keep = true → I (done ++ [e]) todo s') ∧
        (keep = false → ∀ todo', todo'.Perm todo → I done todo' (remove done.length s')))
    {fuel : ℕ} {done todo : List α} {s : σ} (h : I done todo s) (hget : get s = done ++ todo)
    (hfuel : todo.length < fuel) :
    ∃ kept s', sweep get remove visit fuel done.length s = some s' ∧ get s' = kept ∧ I kept [] s' := by
  induction fuel generalizing done todo s with
  | zero => exact absurd hfuel (Nat.not_lt_zero _)
  | succ fuel ih =>
    rw [sweep, hget]
    cases todo with
    | nil =>
      rw [List.append_nil, List.getElem?_eq_none (Nat.le_refl _)]
      rw [List.append_nil] at hget
      exact ⟨done, s, rfl, hget, h⟩
    | cons e todo =>
      have hlt : todo.length < fuel := Nat.lt_of_succ_lt_succ hfuel
      obtain ⟨keep, s', hs', hget', hkeep, hdrop⟩ := hvisit done e todo s h hget
      rw [List.getElem?_append_right (Nat.le_refl _), Nat.sub_self, List.getElem?_cons_zero]
      dsimp only
      rw [hs', Option.bind_some]
      cases keep with
      | true =>
        have hrest := ih (hkeep rfl) (by rw [hget', hget, List.append_assoc, List.singleton_append]) hlt
        rwa [List.length_append, List.length_singleton] at hrest
      | false =>
        obtain ⟨todo', hperm, hswap⟩ := swapRemove_append_cons done e todo
        refine ih (hdrop rfl todo' hperm) ?_ (by rwa [hperm.length_eq])
        rw [hremove, hget', hget, hswap]

end SwapRemove
