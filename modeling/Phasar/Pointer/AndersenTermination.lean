import Phasar.Pointer.AndersenInvariant
import Mathlib.Data.Fintype.Prod
import Mathlib.Data.Prod.Lex

/-!
# Termination of `propagate`

A destination that is visited does nothing, receives a new pointee or is merged. A round in which
nothing else happens leaves less to be sent or a shorter work list.

* `size`: the representatives, and the pointees that are missing;
* `propagate_terminates`: from every state, with any large enough bound on the rounds, with the same
  result.
-/

namespace Phasar.Andersen

namespace SolverData

variable {n : ℕ} {s s' : SolverData n}

def reps (s : SolverData n) : Finset (Fin n) := Finset.univ.filter fun v => s.rep v = v

/-- The pointees that are missing, of every node. -/
def missing (s : SolverData n) : Finset (Fin n × Fin n) :=
  Finset.univ.filter fun p => p.2 ∉ (s.nodes p.1).ptsSet

def pending (s : SolverData n) : Finset (Fin n × Fin n) :=
  Finset.univ.filter fun p => p.2 ∈ (s.nodes p.1).pendingPts

/-- What merging and new pointees make smaller. -/
def size (s : SolverData n) : ℕ ×ₗ ℕ := toLex (s.reps.card, s.missing.card)

/-- What a round makes smaller. -/
def weight (s : SolverData n) : (ℕ ×ₗ ℕ) ×ₗ ℕ ×ₗ ℕ :=
  toLex (s.size, toLex (s.pending.card, s.propWorklist.length))

theorem mem_reps {v : Fin n} : v ∈ s.reps ↔ s.rep v = v := by simp [reps]

theorem mem_missing {p : Fin n × Fin n} : p ∈ s.missing ↔ p.2 ∉ (s.nodes p.1).ptsSet := by
  simp [missing]

theorem mem_pending {p : Fin n × Fin n} : p ∈ s.pending ↔ p.2 ∈ (s.nodes p.1).pendingPts := by
  simp [pending]

/-- New pointees. -/
theorem Grown.size_lt {v : Fin n} {objs : Finset (Fin n)} (h : Grown v objs s s')
    (hnew : ¬objs ⊆ (s.nodes v).ptsSet) : s'.size < s.size := by
  have hreps : s'.reps = s.reps := by
    ext w
    rw [mem_reps, mem_reps, h.rep]
  have hsub : s'.missing ⊆ s.missing := by
    intro p hp
    rw [mem_missing] at hp ⊢
    exact fun h' => hp (h.subset _ h')
  obtain ⟨o, ho, hov⟩ := Finset.not_subset.1 hnew
  have hlt : s'.missing.card < s.missing.card := by
    refine Finset.card_lt_card ((Finset.ssubset_iff_of_subset hsub).2 ⟨(v, o), ?_, ?_⟩)
    · rwa [mem_missing]
    · rw [mem_missing, not_not, h.ptsSet, if_pos rfl]
      exact Finset.mem_union_right _ ho
  rw [size, size, hreps]
  exact Prod.Lex.toLex_lt_toLex.2 (Or.inr ⟨rfl, hlt⟩)

theorem merge_size_lt {a b : Fin n} (h : s.rep a ≠ s.rep b) : (s.merge a b).size < s.size := by
  rw [merge, if_neg h]
  obtain ⟨r, k, hrk, hunified, -⟩ := mergeReps_spec (s.rep_rep a) (s.rep_rep b) h
  have hr : s.rep r = r ∧ s.rep k = k ∧ r ≠ k := by
    rcases hrk with ⟨rfl, rfl⟩ | ⟨rfl, rfl⟩
    · exact ⟨s.rep_rep a, s.rep_rep b, h⟩
    · exact ⟨s.rep_rep b, s.rep_rep a, fun heq => h heq.symm⟩
  have hiff := hunified.rep_iff hr.1 hr.2.2
  have hlt : (s.mergeReps (s.rep a) (s.rep b)).reps ⊂ s.reps := by
    refine (Finset.ssubset_iff_of_subset fun v hv => ?_).2 ⟨k, mem_reps.2 hr.2.1, fun hk => ?_⟩
    · exact mem_reps.2 ((hiff v).1 (mem_reps.1 hv)).1
    · exact ((hiff k).1 (mem_reps.1 hk)).2 rfl
  exact Prod.Lex.toLex_lt_toLex.2 (Or.inl (Finset.card_lt_card hlt))

theorem visitDst_size (objs : Finset (Fin n)) {r : Fin n × SolverData n} (hr : r.2.rep r.1 = r.1)
    (d : Fin n) : (visitDst objs r d).2.rep (visitDst objs r d).1 = (visitDst objs r d).1 ∧
      (visitDst objs r d = r ∨ (visitDst objs r d).2.size < r.2.size) := by
  obtain ⟨u, s⟩ := r
  have hu : s.rep u = u := hr
  rcases visitDst_cases objs u s d with ⟨heq, -⟩ | ⟨-, hnew, heq⟩ | ⟨hv, -, -, heq⟩
  · rw [heq]
    exact ⟨hr, Or.inl rfl⟩
  · have hgrown : Grown (s.rep d) objs s ((s.mergeWithDiff (s.rep d) objs).1.push (s.rep d)) :=
      { (mergeWithDiff_spec (s.rep d) objs s).grown with }
    rw [heq]
    exact ⟨(hgrown.rep u).trans hr, Or.inr (hgrown.size_lt hnew)⟩
  · rw [heq]
    refine ⟨rep_rep _ _, Or.inr (merge_size_lt ?_)⟩
    rw [hu, rep_rep]
    exact hv.symm

theorem visits_size (objs : Finset (Fin n)) (dsts : List (Fin n)) {r : Fin n × SolverData n}
    (hr : r.2.rep r.1 = r.1) : dsts.foldl (visitDst objs) r = r ∨
      (dsts.foldl (visitDst objs) r).2.size < r.2.size := by
  induction dsts generalizing r with
  | nil => exact Or.inl rfl
  | cons d dsts ih =>
    obtain ⟨hr', hstep⟩ := visitDst_size objs hr d
    rw [List.foldl_cons]
    rcases hstep with heq | hlt
    · rw [heq]
      exact ih hr
    · refine Or.inr ((ih hr').elim (fun heq => ?_) fun hlt' => hlt'.trans hlt)
      rwa [heq]

theorem propagateRound_weight_lt {w : Fin n} {rest : List (Fin n)}
    (hlist : s.propWorklist = w :: rest) :
    (propagateRound w { s with propWorklist := rest }).weight < s.weight := by
  simp only [propagateRound]
  split_ifs with hempty
  · refine Prod.Lex.toLex_lt_toLex.2 (Or.inr ⟨rfl, Prod.Lex.toLex_lt_toLex.2 (Or.inr ⟨rfl, ?_⟩)⟩)
    simp [hlist]
  · obtain ⟨s₁, hs₁⟩ : ∃ s₁, s₁ = { s with propWorklist := rest }.setNode (s.rep w) fun info =>
      { info with pendingPts := ∅ } := ⟨_, rfl⟩
    have hnode : ∀ {v}, v ≠ s.rep w → s₁.nodes v = s.nodes v := by
      rw [hs₁]
      exact fun hv => setNode_of_ne hv _ _
    have hsize : s₁.size = s.size := by
      have hmissing : s₁.missing = s.missing := by
        ext p
        rw [mem_missing, mem_missing]
        by_cases hp : p.1 = s.rep w
        · rw [hs₁, hp, setNode_self]
        · rw [hnode hp]
      rw [size, size, hmissing, hs₁]
      rfl
    have hpending : s₁.pending.card < s.pending.card := by
      obtain ⟨o, ho⟩ := Finset.nonempty_iff_ne_empty.2 hempty
      refine Finset.card_lt_card ((Finset.ssubset_iff_of_subset fun p hp => ?_).2
        ⟨(s.rep w, o), mem_pending.2 ho, fun ho' => ?_⟩)
      · rw [mem_pending] at hp ⊢
        by_cases hpw : p.1 = s.rep w
        · rw [hs₁, hpw, setNode_self] at hp
          cases hp
        · rwa [hnode hpw] at hp
      · rw [mem_pending, hs₁, setNode_self] at ho'
        cases ho'
    have hrep : s₁.rep (s.rep w) = s.rep w := by
      rw [hs₁]
      exact s.rep_rep w
    have hvisits := visits_size (s.nodes (s.rep w)).pendingPts
      ((s.nodes (s.rep w)).assignDsts.map s.rep) (r := (s.rep w, s₁)) hrep
    subst hs₁
    rcases hvisits with heq | hlt
    · -- nothing happened at the destinations
      refine (congrArg (fun r => r.2.weight) heq).trans_lt (Prod.Lex.toLex_lt_toLex.2 (Or.inr ?_))
      exact ⟨hsize, Prod.Lex.toLex_lt_toLex.2 (Or.inl hpending)⟩
    · exact Prod.Lex.toLex_lt_toLex.2 (Or.inl (hlt.trans_eq hsize))

/-- A run of rounds ends, and the bound does not matter once it is large enough. -/
theorem propagate_terminates (s : SolverData n) :
    ∃ bound s', ∀ fuel, bound ≤ fuel → s.propagate fuel = some s' := by
  induction hw : s.weight using WellFoundedLT.induction generalizing s with
  | ind x ih =>
    cases hlist : s.propWorklist with
    | nil =>
      refine ⟨1, s, fun fuel hfuel => ?_⟩
      obtain ⟨fuel, rfl⟩ := Nat.exists_eq_add_of_le' hfuel
      rw [propagate, hlist]
    | cons w rest =>
      obtain ⟨bound, s', h⟩ := ih _ (hw ▸ propagateRound_weight_lt hlist) _ rfl
      refine ⟨bound + 1, s', fun fuel hfuel => ?_⟩
      obtain ⟨fuel, rfl⟩ := Nat.exists_eq_add_of_le' (Nat.le_of_add_left_le hfuel)
      rw [propagate, hlist]
      exact h fuel (by omega)

end SolverData

end Phasar.Andersen
