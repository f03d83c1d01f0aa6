import Phasar.Lib.Propagation
import Mathlib.Logic.Relation

/-!
# Propagation of contributions

Keys `K` have values in a join semilattice with a least element. A work list holds contributions to the
values. A contribution that changes the value of its key is itself passed on along the edges of the key,
not the new value; since the functions on the edges distribute over joins, nothing is lost.

* `State`, `process`, `Step`: the iteration, on any element of the work list;
* `Solution`: the constraints of the seeds, and of the keys whose value is not the least one;
* `total`: the value of a key once the work list has been taken into account; `Inv`: the invariant;
* `solution_of_steps`: the values at the end are the least solution;
* `wellFounded_step`: there is an end.
-/

namespace DeltaPropagation

open Deduction (monotone_of_distrib)

variable {K L : Type*} [DecidableEq K] [DecidableEq L] [SemilatticeSup L] [OrderBot L]

structure State (K L : Type*) where
  value : K → L
  jobs : List (K × L)

/-- Join a contribution into the value of its key; if that changes it, pass it on. -/
def process (targets : K → List (K × (L → L))) (S : State K L) (k : K) (x : L) : State K L :=
  if S.value k ⊔ x = S.value k then S
  else ⟨Function.update S.value k (S.value k ⊔ x), S.jobs ++ (targets k).map fun t => (t.1, t.2 x)⟩

/-- A contribution is taken from the work list. -/
inductive Step (targets : K → List (K × (L → L))) (S : State K L) : State K L → Prop
  | take (l r : List (K × L)) (k : K) (x : L) : S.jobs = l ++ (k, x) :: r →
      Step targets S (process targets { S with jobs := l ++ r } k x)

/-- Values above the seeds that satisfy the constraints of their edges, unless they are least. -/
structure Solution (targets : K → List (K × (L → L))) (seeds : List (K × L)) (u : K → L) : Prop where
  seed : ∀ k x, (k, x) ∈ seeds → x ≤ u k
  edge : ∀ k, u k ≠ ⊥ → ∀ t ∈ targets k, t.2 (u k) ≤ u t.1

/-- The value of a key joined with the contributions on the work list. -/
def total (S : State K L) (k : K) : L :=
  S.jobs.foldl (fun y job => if job.1 = k then y ⊔ job.2 else y) (S.value k)

section

variable {S S' : State K L} {targets : K → List (K × (L → L))} {seeds : List (K × L)} {k : K} {u x : L}

omit [DecidableEq L] [OrderBot L] in
theorem total_le_iff : total S k ≤ u ↔ S.value k ≤ u ∧ ∀ y, (k, y) ∈ S.jobs → y ≤ u := by
  unfold total
  generalize S.value k = v
  induction S.jobs generalizing v with
  | nil => simp
  | cons job jobs ih =>
    obtain ⟨k', y'⟩ := job
    rw [List.foldl_cons, ih]
    simp only [List.mem_cons, Prod.mk.injEq]
    split_ifs with hk
    · subst hk
      rw [sup_le_iff]
      exact ⟨fun h => ⟨h.1.1, fun y hy => hy.elim (fun hy => hy.2 ▸ h.1.2) (h.2 y)⟩,
        fun h => ⟨⟨h.1, h.2 y' (Or.inl ⟨rfl, rfl⟩)⟩, fun y hy => h.2 y (Or.inr hy)⟩⟩
    · exact ⟨fun h => ⟨h.1, fun y hy => hy.elim (fun hy => absurd hy.1.symm hk) (h.2 y)⟩,
        fun h => ⟨h.1, fun y hy => h.2 y (Or.inr hy)⟩⟩

omit [DecidableEq L] [OrderBot L] in
theorem value_le_total (S : State K L) (k : K) : S.value k ≤ total S k := (total_le_iff.1 le_rfl).1

omit [DecidableEq L] [OrderBot L] in
theorem le_total_of_mem (h : (k, x) ∈ S.jobs) : x ≤ total S k := (total_le_iff.1 le_rfl).2 x h

omit [DecidableEq L] [OrderBot L] in
theorem total_of_empty (h : S.jobs = []) : total S = S.value := by
  funext k
  rw [total, h, List.foldl_nil]

/-- What is done to a contribution that is taken: it is in the value then, and all that it changed is
passed on. -/
structure Takes (targets : K → List (K × (L → L))) (S S' : State K L) (k : K) (x : L) : Prop where
  value : S'.value = Function.update S.value k (S.value k ⊔ x)
  kept : ∀ job ∈ S.jobs, job = (k, x) ∨ job ∈ S'.jobs
  old_or_passed : ∀ job ∈ S'.jobs, job ∈ S.jobs ∨ ∃ t ∈ targets k, job = (t.1, t.2 x) ∧ x ≠ ⊥
  passed : S.value k ⊔ x ≠ S.value k → ∀ t ∈ targets k, (t.1, t.2 x) ∈ S'.jobs
  shorter : S.value k ⊔ x = S.value k → S'.jobs.length < S.jobs.length

theorem Step.takes (h : Step targets S S') : ∃ k x, (k, x) ∈ S.jobs ∧ Takes targets S S' k x := by
  obtain ⟨l, r, k, x, hjobs⟩ := h
  refine ⟨k, x, by simp [hjobs], ?_⟩
  have hkept : ∀ job ∈ S.jobs, job = (k, x) ∨ job ∈ l ++ r := fun job hjob => by
    rw [hjobs, List.mem_append, List.mem_cons] at hjob
    rw [List.mem_append]
    tauto
  have hold : ∀ job ∈ l ++ r, job ∈ S.jobs := fun job hjob => by
    rw [List.mem_append] at hjob
    rw [hjobs, List.mem_append, List.mem_cons]
    tauto
  unfold process
  split_ifs with heq
  · have heq' : S.value k ⊔ x = S.value k := heq
    exact
      { value := by rw [heq', Function.update_eq_self]
        kept := hkept
        old_or_passed := fun job hjob => Or.inl (hold job hjob)
        passed := fun hne => absurd heq' hne
        shorter := fun _ => by simp [hjobs] }
  · have hx : x ≠ ⊥ := fun hx => heq (by rw [hx, sup_bot_eq])
    exact
      { value := rfl
        kept := fun job hjob => (hkept job hjob).imp_right fun h => List.mem_append_left _ h
        old_or_passed := fun job hjob => by
          rcases List.mem_append.1 hjob with hjob | hjob
          · exact Or.inl (hold job hjob)
          · obtain ⟨t, ht, rfl⟩ := List.mem_map.1 hjob
            exact Or.inr ⟨t, ht, rfl, hx⟩
        passed := fun _ t ht => List.mem_append_right _ (List.mem_map.2 ⟨t, ht, rfl⟩)
        shorter := fun heq' => absurd heq' heq }

omit [DecidableEq L] in
theorem Takes.value_le (h : Takes targets S S' k x) (k' : K) : S.value k' ≤ S'.value k' := by
  rw [h.value]
  by_cases hk : k' = k
  · subst hk
    rw [Function.update_self]
    exact le_sup_left
  · rw [Function.update_of_ne hk]

omit [DecidableEq L] in
theorem Takes.total_le (h : Takes targets S S' k x) (k' : K) : total S k' ≤ total S' k' := by
  refine total_le_iff.2 ⟨(h.value_le k').trans (value_le_total S' k'), fun y hy => ?_⟩
  rcases h.kept _ hy with heq | hmem
  · obtain ⟨rfl, rfl⟩ := Prod.mk.inj heq
    refine le_trans ?_ (value_le_total S' k')
    rw [h.value, Function.update_self]
    exact le_sup_right
  · exact le_total_of_mem hmem

/-! ### The invariant -/

/-- With the work list taken into account, the values satisfy the constraints; and they are below every
solution. -/
structure Inv (targets : K → List (K × (L → L))) (seeds : List (K × L)) (S : State K L) : Prop where
  seed : ∀ k x, (k, x) ∈ seeds → x ≤ total S k
  edge : ∀ k, S.value k ≠ ⊥ → ∀ t ∈ targets k, t.2 (S.value k) ≤ total S t.1
  below : ∀ u, Solution targets seeds u → total S ≤ u

omit [DecidableEq L] in
theorem inv_init : Inv targets seeds ⟨fun _ => ⊥, seeds⟩ where
  seed _ _ h := le_total_of_mem h
  edge _ h := absurd rfl h
  below _ hu _ := total_le_iff.2 ⟨bot_le, fun y hy => hu.seed _ y hy⟩

variable (hd : ∀ k, ∀ t ∈ targets k, ∀ x y, t.2 (x ⊔ y) = t.2 x ⊔ t.2 y)

include hd

theorem Inv.step (h : Inv targets seeds S) (hs : Step targets S S') : Inv targets seeds S' := by
  obtain ⟨k, x, hmem, ht⟩ := hs.takes
  refine ⟨fun k' y hy => (h.seed k' y hy).trans (ht.total_le k'), fun k' hk' t htk => ?_,
    fun u hu k' => ?_⟩
  · -- what the old value contributes is there, and so is what is passed on
    have hold : ∀ t ∈ targets k', S.value k' ≠ ⊥ → t.2 (S.value k') ≤ total S' t.1 := fun t htk hne =>
      (h.edge k' hne t htk).trans (ht.total_le t.1)
    by_cases hkk : k' = k
    · subst hkk
      have hvalue : S'.value k' = S.value k' ⊔ x := by rw [ht.value, Function.update_self]
      by_cases heq : S.value k' ⊔ x = S.value k'
      · rw [hvalue, heq] at hk' ⊢
        exact hold t htk hk'
      · have hpassed : t.2 x ≤ total S' t.1 := le_total_of_mem (ht.passed heq t htk)
        rw [hvalue]
        by_cases hbot : S.value k' = ⊥
        · rwa [hbot, bot_sup_eq]
        · rw [hd k' t htk]
          exact sup_le (hold t htk hbot) hpassed
    · have hvalue : S'.value k' = S.value k' := by rw [ht.value, Function.update_of_ne hkk]
      rw [hvalue] at hk' ⊢
      exact hold t htk hk'
  · have hbelow := fun k' => total_le_iff.1 (h.below u hu k')
    have hx : x ≤ u k := (hbelow k).2 x hmem
    refine total_le_iff.2 ⟨?_, fun y hy => ?_⟩
    · rw [ht.value]
      by_cases hkk : k' = k
      · subst hkk
        rw [Function.update_self]
        exact sup_le (hbelow k').1 hx
      · rw [Function.update_of_ne hkk]
        exact (hbelow k').1
    · rcases ht.old_or_passed _ hy with hold | ⟨t, htk, heq, hne⟩
      · exact (hbelow k').2 y hold
      · obtain ⟨rfl, rfl⟩ := Prod.mk.inj heq
        have hu_ne : u k ≠ ⊥ := fun h => hne (le_bot_iff.1 (h ▸ hx))
        exact (monotone_of_distrib (hd k t htk) hx).trans (hu.edge k hu_ne t htk)

/-- **When the work list is empty, the values are the least solution.** -/
theorem solution_of_steps (hs : Relation.ReflTransGen (Step targets) ⟨fun _ => ⊥, seeds⟩ S)
    (hjobs : S.jobs = []) :
    Solution targets seeds S.value ∧ ∀ u, Solution targets seeds u → S.value ≤ u := by
  have hinv : Inv targets seeds S := by
    clear hjobs
    induction hs with
    | refl => exact inv_init
    | tail _ hstep ih => exact ih.step hd hstep
  rw [← total_of_empty hjobs]
  refine ⟨⟨hinv.seed, fun k hk t ht => ?_⟩, hinv.below⟩
  rw [total_of_empty hjobs] at hk
  have hedge := hinv.edge k hk t ht
  rwa [← total_of_empty hjobs] at hedge

end

/-- A step raises a value or shortens the work list. -/
theorem wellFounded_step [Finite K] [WellFoundedGT L] (targets : K → List (K × (L → L))) :
    WellFounded fun S' S : State K L => Step targets S S' := by
  refine wellFounded_of_progress (r := fun S S' => Step targets S S') State.value
    (fun S => S.jobs.length) fun S S' hs => ?_
  obtain ⟨k, x, -, ht⟩ := hs.takes
  by_cases heq : S.value k ⊔ x = S.value k
  · exact Or.inr ⟨by rw [ht.value, heq, Function.update_eq_self], ht.shorter heq⟩
  · refine Or.inl (lt_of_le_of_ne ht.value_le fun hv => heq ?_)
    have hk := congrFun hv k
    rw [ht.value, Function.update_self] at hk
    exact hk.symm

end DeltaPropagation
