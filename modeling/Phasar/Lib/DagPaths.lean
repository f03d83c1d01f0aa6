import Mathlib.Data.List.Count
import Mathlib.Algebra.BigOperators.Group.List.Basic
import Mathlib.Algebra.Ring.Nat
import Mathlib.Tactic.Common

/-!
# Paths of an acyclic graph

The paths from a vertex to a sink, listed in depth-first order. A path is listed as often as there
are ways to take it, where parallel edges are different ways.

* `PathTo`: the paths as a relation;
* `paths`: the paths, down to some depth;
* `pathCount`, `rootPathCount`, `count_paths`, `count_rootPaths`: how often a path is listed.
-/

namespace DagPaths

/-- The paths from a vertex to the sink. -/
inductive PathTo {V : Type*} (children : V → List V) (leaf : V) : V → List V → Prop
  | leaf : PathTo children leaf leaf [leaf]
  | cons {v w : V} {p : List V} (h : w ∈ children v) (hp : PathTo children leaf w p) :
    PathTo children leaf v (v :: p)

theorem PathTo.exists_cons {V : Type*} {children : V → List V} {leaf v : V} {p : List V}
    (h : PathTo children leaf v p) : ∃ rest, p = v :: rest := by
  cases h with
  | leaf => exact ⟨[], rfl⟩
  | cons _ _ => exact ⟨_, rfl⟩

variable {V : Type*} [DecidableEq V] (children : V → List V) (leaf : V)

/-- The paths to `leaf`, as lists of vertices. -/
def paths : ℕ → V → List (List V)
  | 0, _ => []
  | depth + 1, v =>
    if v = leaf then [[v]] else (children v).flatMap fun w => (paths depth w).map (v :: ·)

/-- The number of ways to take a path. -/
def pathCount : List V → ℕ
  | [] => 0
  | [v] => if v = leaf then 1 else 0
  | v :: w :: rest => (children v).count w * pathCount (w :: rest)

variable {children leaf}

theorem sum_map_ite_eq_count (l : List V) (w : V) (n : ℕ) :
    (l.map fun c => if c = w then n else 0).sum = l.count w * n := by
  induction l with
  | nil => rw [List.map_nil, List.sum_nil, List.count_nil, Nat.zero_mul]
  | cons c l ih =>
    rw [List.map_cons, List.sum_cons, ih, List.count_cons]
    split_ifs with h h' h'
    · rw [Nat.add_mul, Nat.one_mul, Nat.add_comm]
    · exact absurd (beq_iff_eq.2 h) h'
    · exact absurd (beq_iff_eq.1 h') h
    · rw [Nat.zero_add, Nat.add_zero]

theorem exists_of_mem_paths {depth : ℕ} {v : V} {p : List V} (h : p ∈ paths children leaf depth v) :
    ∃ rest, p = v :: rest := by
  cases depth with
  | zero => cases h
  | succ depth =>
    rw [paths] at h
    split_ifs at h
    · exact ⟨[], List.mem_singleton.1 h⟩
    · obtain ⟨w, -, h⟩ := List.mem_flatMap.1 h
      obtain ⟨rest, -, rfl⟩ := List.mem_map.1 h
      exact ⟨rest, rfl⟩

theorem count_paths_of_ne {depth : ℕ} {v w : V} (h : w ≠ v) (rest : List V) :
    (paths children leaf depth v).count (w :: rest) = 0 := by
  refine List.count_eq_zero_of_not_mem fun hmem => ?_
  obtain ⟨rest', heq⟩ := exists_of_mem_paths hmem
  exact h (List.cons.inj heq).1

/-- Below the depth, every path is listed as often as there are ways to take it. -/
theorem count_paths {rank : V → ℕ} (hrank : ∀ v, ∀ w ∈ children v, rank w < rank v)
    (hleaf : children leaf = []) {depth : ℕ} {v : V} (hdepth : rank v < depth) (rest : List V) :
    (paths children leaf depth v).count (v :: rest) = pathCount children leaf (v :: rest) := by
  induction depth generalizing v rest with
  | zero => exact absurd hdepth (Nat.not_lt_zero _)
  | succ depth ih =>
    rw [paths]
    split_ifs with hv
    · subst hv
      cases rest with
      | nil => simp [pathCount]
      | cons w rest =>
        rw [pathCount, hleaf, List.count_nil, Nat.zero_mul]
        simp
    · have hnil : ∀ w, [] ∉ paths children leaf depth w := by
        intro w hmem
        obtain ⟨rest, heq⟩ := exists_of_mem_paths hmem
        cases heq
      cases rest with
      | nil =>
        rw [pathCount, if_neg hv]
        refine List.count_eq_zero_of_not_mem fun hmem => ?_
        obtain ⟨w, -, hmem⟩ := List.mem_flatMap.1 hmem
        obtain ⟨p, hp, heq⟩ := List.mem_map.1 hmem
        rw [(List.cons.inj heq).2] at hp
        exact hnil w hp
      | cons w rest =>
        have hone : ∀ c ∈ children v, ((paths children leaf depth c).map (v :: ·)).count
            (v :: w :: rest) = if c = w then pathCount children leaf (w :: rest) else 0 := by
          intro c hc
          rw [List.count_map_of_injective _ _ (List.cons_injective)]
          split_ifs with hcw
          · subst hcw
            exact ih (Nat.lt_of_lt_of_le (hrank v c hc) (Nat.le_of_lt_succ hdepth)) rest
          · exact count_paths_of_ne (Ne.symm hcw) rest
        rw [List.count_flatMap, pathCount, ← sum_map_ite_eq_count]
        exact congrArg List.sum (List.map_congr_left hone)

/-- The number of ways to take a path from one of the roots. -/
def rootPathCount (children : V → List V) (leaf : V) (roots : List V) : List V → ℕ
  | [] => 0
  | v :: rest => roots.count v * pathCount children leaf (v :: rest)

theorem count_rootPaths {rank : V → ℕ} (hrank : ∀ v, ∀ w ∈ children v, rank w < rank v)
    (hleaf : children leaf = []) {depth : ℕ} {roots : List V} (hdepth : ∀ r ∈ roots, rank r < depth)
    (p : List V) :
    (roots.flatMap (paths children leaf depth)).count p = rootPathCount children leaf roots p := by
  cases p with
  | nil =>
    refine List.count_eq_zero_of_not_mem fun hmem => ?_
    obtain ⟨r, -, hmem⟩ := List.mem_flatMap.1 hmem
    obtain ⟨rest, heq⟩ := exists_of_mem_paths hmem
    cases heq
  | cons v rest =>
    rw [List.count_flatMap, rootPathCount, ← sum_map_ite_eq_count]
    refine congrArg List.sum (List.map_congr_left fun r hr => ?_)
    split_ifs with hrv
    · subst hrv
      exact count_paths hrank hleaf (hdepth r hr) rest
    · exact count_paths_of_ne (Ne.symm hrv) rest

end DagPaths
