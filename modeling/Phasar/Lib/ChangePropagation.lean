import Phasar.Lib.Propagation

/-!
# Change-driven propagation

Keys `K` carry values in a join semilattice. A constraint `edge k k' f` asks for a value of `k'` above
`f` of the value of `k`. Whenever the value of a key changes, the key is put on a work list; a key
taken from the work list raises the targets of its constraints.

* `Grows`: values rise, and every key with a new value is on the work list;
* `Served`: a key waits on the work list, or its constraints hold;
* `Served.grows`, `served_of_raised`: what keeps a key served and what serves it.
-/

namespace ChangePropagation

variable {K L : Type*} [SemilatticeSup L]

/-- The values rise from `v` to `v'`; the work list keeps its keys and gets exactly keys whose value
changed, all of them, and stays the same if no value changed. -/
structure Grows (v : K → L) (W : List K) (v' : K → L) (W' : List K) : Prop where
  le : ∀ k, v k ≤ v' k
  mem : ∀ k ∈ W, k ∈ W'
  changed : ∀ k, v' k ≠ v k → k ∈ W'
  mem_or : ∀ k ∈ W', k ∈ W ∨ v' k ≠ v k
  unchanged : v' = v → W' = W

namespace Grows

variable {v v' v'' : K → L} {W W' W'' : List K}

theorem refl (v : K → L) (W : List K) : Grows v W v W :=
  ⟨fun _ => le_rfl, fun _ h => h, fun _ h => absurd rfl h, fun _ h => Or.inl h, fun _ => rfl⟩

theorem trans (h : Grows v W v' W') (h' : Grows v' W' v'' W'') : Grows v W v'' W'' where
  le k := (h.le k).trans (h'.le k)
  mem k hk := h'.mem k (h.mem k hk)
  changed k hk := by
    by_cases hv : v' k = v k
    · exact h'.changed k (by rwa [hv])
    · exact h'.mem k (h.changed k hv)
  mem_or k hk := by
    rcases h'.mem_or k hk with hk' | hne
    · refine (h.mem_or k hk').imp_right fun hne heq => hne ?_
      exact le_antisymm ((h'.le k).trans heq.le) (h.le k)
    · refine Or.inr fun heq => hne ?_
      exact le_antisymm (heq.le.trans (h.le k)) (h'.le k)
  unchanged heq := by
    have hv : v' = v := funext fun k => le_antisymm ((h'.le k).trans (heq ▸ le_rfl)) (h.le k)
    rw [h'.unchanged (heq.trans hv.symm), h.unchanged hv]

/-- Growth either raises a value or changes nothing. -/
theorem lt_or_eq (h : Grows v W v' W') : v < v' ∨ (v = v' ∧ W' = W) := by
  rcases (show v ≤ v' from h.le).lt_or_eq with hlt | heq
  · exact Or.inl hlt
  · exact Or.inr ⟨heq, h.unchanged heq.symm⟩

end Grows

/-- `k` is on the work list, or its constraints hold. -/
def Served (edge : K → K → (L → L) → Prop) (v : K → L) (W : List K) (k : K) : Prop :=
  k ∈ W ∨ ∀ k' f, edge k k' f → f (v k) ≤ v k'

variable {edge : K → K → (L → L) → Prop} {v v' : K → L} {W W' : List K}

/-- Growth keeps a key served: its own value is unchanged, or it is on the work list again. -/
theorem Served.grows {k : K} (h : Served edge v W k) (hg : Grows v W v' W') :
    Served edge v' W' k := by
  rcases h with hk | hk
  · exact Or.inl (hg.mem k hk)
  · by_cases hv : v' k = v k
    · exact Or.inr fun k' f he => by
        rw [hv]
        exact (hk k' f he).trans (hg.le k')
    · exact Or.inl (hg.changed k hv)

/-- Raising the targets by the functions of the old value serves a key. -/
theorem served_of_raised {k : K} (hg : Grows v W v' W')
    (h : ∀ k' f, edge k k' f → f (v k) ≤ v' k') : Served edge v' W' k := by
  by_cases hv : v' k = v k
  · exact Or.inr fun k' f he => by
      rw [hv]
      exact h k' f he
  · exact Or.inl (hg.changed k hv)

end ChangePropagation
