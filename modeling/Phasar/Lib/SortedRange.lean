import Mathlib.Data.List.Pairwise
import Mathlib.Data.List.Sort
import Mathlib.Data.List.Dedup
import Mathlib.Order.Basic
import Mathlib.Tactic.Common

/-!
# Algorithms on sorted ranges

The standard algorithms that read sorted ranges, as they run on any ranges, and what they compute on
sorted ones.

* `lowerBound`, `binarySearch`, `insertSorted`;
* `unique`, `sortUnique`;
* `setUnion`, `setIntersection` under a comparison; `nodup_map_setUnion_iff`: when a union under a
  comparison that is no order has each key once;
* `mem_setIntersection_iff`: what the intersection of a sorted range with one in any order has.
-/

namespace SortedRange

variable {α : Type*}

section Search

variable [LinearOrder α]

/-- The loop of `std::lower_bound`: the bound is among the `len` positions from `first` on, or behind. -/
def lowerBoundLoop (xs : List α) (v : α) : ℕ → ℕ → ℕ → ℕ
  | 0, first, _ => first
  | fuel + 1, first, len =>
    if len = 0 then first
    else
      match xs[first + len / 2]? with
      | none => first
      | some x =>
        if x < v then lowerBoundLoop xs v fuel (first + len / 2 + 1) (len - len / 2 - 1)
        else lowerBoundLoop xs v fuel first (len / 2)

/-- `std::lower_bound`. -/
def lowerBound (xs : List α) (v : α) : ℕ := lowerBoundLoop xs v xs.length 0 xs.length

/-- `std::binary_search`. -/
def binarySearch (xs : List α) (v : α) : Bool :=
  match xs[lowerBound xs v]? with
  | none => false
  | some x => !decide (v < x)

/-- Insert a value at its lower bound, unless it is there. -/
def insertSorted (v : α) (xs : List α) : List α × Bool :=
  if xs[lowerBound xs v]? = some v then (xs, false)
  else (xs.take (lowerBound xs v) ++ v :: xs.drop (lowerBound xs v), true)

/-- The values before the position are smaller, the other ones are not. -/
structure IsLowerBound (xs : List α) (v : α) (i : ℕ) : Prop where
  le : i ≤ xs.length
  before : ∀ j x, xs[j]? = some x → j < i → x < v
  after : ∀ j x, xs[j]? = some x → i ≤ j → v ≤ x

variable {xs ys : List α} {v x : α}

theorem getElem?_le (hxs : xs.Pairwise (· < ·)) {i j : ℕ} {x y : α} (hi : xs[i]? = some x)
    (hj : xs[j]? = some y) (hij : i ≤ j) : x ≤ y := by
  obtain ⟨hi', rfl⟩ := List.getElem?_eq_some_iff.1 hi
  obtain ⟨hj', rfl⟩ := List.getElem?_eq_some_iff.1 hj
  rcases hij.eq_or_lt with rfl | hlt
  · exact le_rfl
  · exact (List.pairwise_iff_getElem.1 hxs i j hi' hj' hlt).le

theorem lowerBoundLoop_spec (hxs : xs.Pairwise (· < ·)) {fuel first len : ℕ} (hfuel : len ≤ fuel)
    (hlen : first + len ≤ xs.length) (hbefore : ∀ j x, xs[j]? = some x → j < first → x < v)
    (hafter : ∀ j x, xs[j]? = some x → first + len ≤ j → v ≤ x) :
    IsLowerBound xs v (lowerBoundLoop xs v fuel first len) := by
  induction fuel generalizing first len with
  | zero =>
    obtain rfl : len = 0 := by omega
    exact ⟨hlen, hbefore, hafter⟩
  | succ fuel ih =>
    rw [lowerBoundLoop]
    split_ifs with hzero
    · subst hzero
      exact ⟨hlen, hbefore, hafter⟩
    · have hmid : first + len / 2 < xs.length := by omega
      rw [List.getElem?_eq_getElem hmid]
      have hget := List.getElem?_eq_getElem hmid
      dsimp only
      split_ifs with hlt
      -- the range is sorted, so what holds of the value in the middle holds of those on its side
      · refine ih (by omega) (by omega) (fun j x hx hj => ?_) fun j x hx hj => ?_
        · exact (getElem?_le hxs hx hget (by omega)).trans_lt hlt
        · exact hafter j x hx (by omega)
      · refine ih (by omega) (by omega) hbefore fun j x hx hj => ?_
        exact (not_lt.1 hlt).trans (getElem?_le hxs hget hx hj)

theorem lowerBound_spec (hxs : xs.Pairwise (· < ·)) (v : α) :
    IsLowerBound xs v (lowerBound xs v) := by
  refine lowerBoundLoop_spec hxs le_rfl (by omega) (fun j x _ hj => absurd hj (Nat.not_lt_zero j))
    fun j x hx hj => ?_
  obtain ⟨hj', -⟩ := List.getElem?_eq_some_iff.1 hx
  omega

/-- In a sorted range, the value at its lower bound is the value, or the value is not there. -/
theorem getElem?_lowerBound_eq_some (hxs : xs.Pairwise (· < ·)) :
    xs[lowerBound xs v]? = some v ↔ v ∈ xs := by
  refine ⟨List.mem_of_getElem?, fun hv => ?_⟩
  obtain ⟨j, hj⟩ := List.mem_iff_getElem?.1 hv
  have hspec := lowerBound_spec hxs v
  have hle : lowerBound xs v ≤ j := by
    by_contra hlt
    exact lt_irrefl v (hspec.before j v hj (not_le.1 hlt))
  obtain ⟨hj', -⟩ := List.getElem?_eq_some_iff.1 hj
  obtain ⟨x, hx⟩ : ∃ x, xs[lowerBound xs v]? = some x :=
    ⟨_, List.getElem?_eq_getElem (hle.trans_lt hj')⟩
  rw [hx, le_antisymm (getElem?_le hxs hx hj hle) (hspec.after _ x hx le_rfl)]

theorem binarySearch_iff (hxs : xs.Pairwise (· < ·)) : binarySearch xs v = true ↔ v ∈ xs := by
  rw [← getElem?_lowerBound_eq_some hxs, binarySearch]
  rcases hx : xs[lowerBound xs v]? with _ | x
  · simp
  · have hle := (lowerBound_spec hxs v).after _ x hx le_rfl
    simp only [Bool.not_eq_true', decide_eq_false_iff_not, not_lt, Option.some.injEq]
    exact ⟨fun h => le_antisymm h hle, fun h => h.le⟩

theorem insertSorted_snd (hxs : xs.Pairwise (· < ·)) : (insertSorted v xs).2 = decide (v ∉ xs) := by
  rw [insertSorted]
  split_ifs with hv
  · simpa using (getElem?_lowerBound_eq_some hxs).1 hv
  · simpa using mt (getElem?_lowerBound_eq_some hxs).2 hv

theorem mem_insertSorted (hxs : xs.Pairwise (· < ·)) :
    x ∈ (insertSorted v xs).1 ↔ x = v ∨ x ∈ xs := by
  rw [insertSorted]
  split_ifs with hv
  · refine ⟨Or.inr, ?_⟩
    rintro (rfl | hx)
    · exact (getElem?_lowerBound_eq_some hxs).1 hv
    · exact hx
  · rw [List.mem_append, List.mem_cons, or_left_comm, ← List.mem_append, List.take_append_drop]

theorem pairwise_insertSorted (hxs : xs.Pairwise (· < ·)) :
    (insertSorted v xs).1.Pairwise (· < ·) := by
  rw [insertSorted]
  split_ifs with hv
  · exact hxs
  · have hspec := lowerBound_spec hxs v
    have hnot := mt (getElem?_lowerBound_eq_some hxs).2 hv
    rw [List.pairwise_append, List.pairwise_cons]
    have htake : ∀ x ∈ xs.take (lowerBound xs v), x < v := by
      intro x hx
      obtain ⟨j, hj⟩ := List.mem_iff_getElem?.1 hx
      rw [List.getElem?_take] at hj
      split_ifs at hj with hlt
      exact hspec.before j x hj hlt
    have hdrop : ∀ x ∈ xs.drop (lowerBound xs v), v < x := by
      intro x hx
      obtain ⟨j, hj⟩ := List.mem_iff_getElem?.1 hx
      rw [List.getElem?_drop] at hj
      refine (hspec.after _ x hj (Nat.le_add_right _ j)).lt_of_ne ?_
      rintro rfl
      exact hnot (List.mem_of_getElem? hj)
    refine ⟨hxs.sublist (List.take_sublist _ _), ⟨hdrop, hxs.sublist (List.drop_sublist _ _)⟩, ?_⟩
    intro x hx y hy
    rcases List.mem_cons.1 hy with rfl | hy
    · exact htake x hx
    · exact (htake x hx).trans (hdrop y hy)

end Search

section Unique

variable [LinearOrder α]

/-- `std::unique`, behind a value that is kept. -/
def uniqueFrom (x : α) : List α → List α
  | [] => [x]
  | y :: ys => if x = y then uniqueFrom x ys else x :: uniqueFrom y ys

/-- `std::unique`: only the first of several equal neighbours is kept. -/
def unique : List α → List α
  | [] => []
  | x :: xs => uniqueFrom x xs

/-- Sort, and remove duplicates. -/
def sortUnique (xs : List α) : List α := unique (xs.insertionSort (· ≤ ·))

variable {xs : List α} {x y : α}

theorem mem_uniqueFrom : y ∈ uniqueFrom x xs ↔ y = x ∨ y ∈ xs := by
  induction xs generalizing x with
  | nil => simp [uniqueFrom]
  | cons z zs ih =>
    rw [uniqueFrom]
    split_ifs with hxz
    · subst hxz
      rw [ih, List.mem_cons, ← or_assoc, or_self]
    · rw [List.mem_cons, ih, List.mem_cons]

theorem pairwise_uniqueFrom (hxs : (x :: xs).Pairwise (· ≤ ·)) :
    (uniqueFrom x xs).Pairwise (· < ·) := by
  induction xs generalizing x with
  | nil => exact List.pairwise_singleton _ x
  | cons z zs ih =>
    obtain ⟨hx, hzs⟩ := List.pairwise_cons.1 hxs
    rw [uniqueFrom]
    split_ifs with hxz
    · subst hxz
      exact ih hzs
    · refine List.pairwise_cons.2 ⟨fun y hy => ?_, ih hzs⟩
      have hlt : x < z := (hx z List.mem_cons_self).lt_of_ne hxz
      rcases mem_uniqueFrom.1 hy with rfl | hy
      · exact hlt
      · exact hlt.trans_le ((List.pairwise_cons.1 hzs).1 y hy)

theorem mem_unique : y ∈ unique xs ↔ y ∈ xs := by
  rcases xs with _ | ⟨z, zs⟩
  · rfl
  · rw [unique, mem_uniqueFrom, List.mem_cons]

theorem pairwise_unique (hxs : xs.Pairwise (· ≤ ·)) : (unique xs).Pairwise (· < ·) := by
  rcases xs with _ | ⟨z, zs⟩
  · exact List.Pairwise.nil
  · exact pairwise_uniqueFrom hxs

theorem mem_sortUnique : y ∈ sortUnique xs ↔ y ∈ xs :=
  mem_unique.trans (List.mem_insertionSort _)

theorem pairwise_sortUnique (xs : List α) : (sortUnique xs).Pairwise (· < ·) :=
  pairwise_unique (List.pairwise_insertionSort (· ≤ ·) xs)

/-- Different values are sorted strictly. -/
theorem pairwise_insertionSort_lt (hxs : xs.Nodup) :
    (xs.insertionSort (· ≤ ·)).Pairwise (· < ·) := by
  have hle := List.pairwise_insertionSort (· ≤ ·) xs
  have hne : (xs.insertionSort (· ≤ ·)).Nodup := (List.perm_insertionSort (· ≤ ·) xs).nodup_iff.2 hxs
  exact (hle.and hne).imp fun h => lt_of_le_of_ne h.1 h.2

end Unique

section Merge

variable (lt : α → α → Prop) [DecidableRel lt]

/-- `std::set_union`. -/
def setUnion : List α → List α → List α
  | [], ys => ys
  | x :: xs, [] => x :: xs
  | x :: xs, y :: ys =>
    if lt x y then x :: setUnion xs (y :: ys)
    else if lt y x then y :: setUnion (x :: xs) ys
    else x :: setUnion xs ys
termination_by xs ys => xs.length + ys.length

/-- `std::set_intersection`. -/
def setIntersection : List α → List α → List α
  | [], _ => []
  | _ :: _, [] => []
  | x :: xs, y :: ys =>
    if lt x y then setIntersection xs (y :: ys)
    else if lt y x then setIntersection (x :: xs) ys
    else x :: setIntersection xs ys
termination_by xs ys => xs.length + ys.length

end Merge

section Keys

variable {κ : Type*} (lt : α → α → Prop) [DecidableRel lt] (key : α → κ) {xs ys : List α}

/-- An element that a merge takes alone has the key of no later element of the other range. -/
def Aligned : List α → List α → Prop
  | [], _ => True
  | _ :: _, [] => True
  | x :: xs, y :: ys =>
    if lt x y then (∀ z ∈ y :: ys, key z ≠ key x) ∧ Aligned xs (y :: ys)
    else if lt y x then (∀ z ∈ x :: xs, key z ≠ key y) ∧ Aligned (x :: xs) ys
    else Aligned xs ys
termination_by xs ys => xs.length + ys.length

theorem sublist_setUnion : xs.Sublist (setUnion lt xs ys) := by
  fun_induction setUnion lt xs ys with
  | case1 ys => exact List.nil_sublist _
  | case2 x xs => exact List.Sublist.refl _
  | case3 x xs y ys hxy ih => exact ih.cons_cons x
  | case4 x xs y ys hxy hyx ih => exact ih.cons y
  | case5 x xs y ys hxy hyx ih => exact ih.cons_cons x

variable {lt key} (htri : ∀ x y, ¬ lt x y → ¬ lt y x → key x = key y)
include htri

theorem map_sublist_setUnion : (ys.map key).Sublist ((setUnion lt xs ys).map key) := by
  fun_induction setUnion lt xs ys with
  | case1 ys => exact List.Sublist.refl _
  | case2 x xs => exact List.nil_sublist _
  | case3 x xs y ys hxy ih => exact ih.cons (key x)
  | case4 x xs y ys hxy hyx ih => exact ih.cons_cons (key y)
  | case5 x xs y ys hxy hyx ih =>
    rw [List.map_cons, List.map_cons, htri x y hxy hyx]
    exact ih.cons_cons (key y)

theorem mem_map_setUnion {k : κ} :
    k ∈ (setUnion lt xs ys).map key ↔ k ∈ xs.map key ∨ k ∈ ys.map key := by
  fun_induction setUnion lt xs ys with
  | case1 ys => simp
  | case2 x xs => simp
  | case3 x xs y ys hxy ih =>
    rw [List.map_cons, List.mem_cons, ih, List.map_cons (l := xs), List.mem_cons (l := xs.map key),
      or_assoc]
  | case4 x xs y ys hxy hyx ih =>
    rw [List.map_cons, List.mem_cons, ih, List.map_cons (l := ys), List.mem_cons, or_left_comm]
  | case5 x xs y ys hxy hyx ih =>
    rw [List.map_cons, List.mem_cons, ih, List.map_cons, List.mem_cons, List.map_cons,
      List.mem_cons, htri x y hxy hyx]
    tauto

/-- A merge has each key once exactly where its ranges are aligned. -/
theorem nodup_map_setUnion_iff (hxs : (xs.map key).Nodup) (hys : (ys.map key).Nodup) :
    ((setUnion lt xs ys).map key).Nodup ↔ Aligned lt key xs ys := by
  fun_induction setUnion lt xs ys with
  | case1 ys =>
    rw [Aligned]
    exact iff_true_intro hys
  | case2 x xs =>
    rw [Aligned]
    exact iff_true_intro hxs
  | case3 x xs y ys hxy ih =>
    obtain ⟨hx, hxs⟩ := List.nodup_cons.1 hxs
    rw [Aligned, if_pos hxy, List.map_cons, List.nodup_cons, ih hxs hys, mem_map_setUnion htri,
      or_iff_right hx]
    simp only [List.mem_map, not_exists, not_and, ne_eq]
  | case4 x xs y ys hxy hyx ih =>
    obtain ⟨hy, hys⟩ := List.nodup_cons.1 hys
    rw [Aligned, if_neg hxy, if_pos hyx, List.map_cons, List.nodup_cons, ih hxs hys,
      mem_map_setUnion htri, or_iff_left hy]
    simp only [List.mem_map, not_exists, not_and, ne_eq]
  | case5 x xs y ys hxy hyx ih =>
    obtain ⟨hx, hxs⟩ := List.nodup_cons.1 hxs
    obtain ⟨hy, hys⟩ := List.nodup_cons.1 hys
    have hnot : key x ∉ (setUnion lt xs ys).map key := by
      rw [mem_map_setUnion htri, not_or]
      exact ⟨hx, htri x y hxy hyx ▸ hy⟩
    rw [Aligned, if_neg hxy, if_neg hyx, List.map_cons, List.nodup_cons, ih hxs hys]
    exact and_iff_right hnot

/-- A merge without duplicates that adds no key has the keys of the first range. -/
theorem map_setUnion_left (hnodup : ((setUnion lt xs ys).map key).Nodup)
    (hsub : ys.map key ⊆ xs.map key) : (setUnion lt xs ys).map key = xs.map key := by
  refine (((sublist_setUnion lt).map key).eq_of_length_le ?_).symm
  refine (List.subperm_of_subset hnodup fun k hk => ?_).length_le
  exact ((mem_map_setUnion htri).1 hk).elim id fun hk => hsub hk

theorem map_setUnion_right (hnodup : ((setUnion lt xs ys).map key).Nodup)
    (hsub : xs.map key ⊆ ys.map key) : (setUnion lt xs ys).map key = ys.map key := by
  refine ((map_sublist_setUnion htri).eq_of_length_le ?_).symm
  refine (List.subperm_of_subset hnodup fun k hk => ?_).length_le
  exact ((mem_map_setUnion htri).1 hk).elim (fun hk => hsub hk) id

end Keys

section Sorted

variable [LinearOrder α] {xs ys : List α} {z : α}

theorem mem_setUnion : z ∈ setUnion (· < ·) xs ys ↔ z ∈ xs ∨ z ∈ ys := by
  fun_induction setUnion (· < ·) xs ys with
  | case1 ys => simp
  | case2 x xs => simp
  | case3 x xs y ys hlt ih => rw [List.mem_cons, ih, List.mem_cons (l := xs), or_assoc]
  | case4 x xs y ys hxy hlt ih =>
    rw [List.mem_cons, ih, List.mem_cons (l := ys), or_left_comm]
  | case5 x xs y ys hxy hyx ih =>
    obtain rfl : x = y := le_antisymm (not_lt.1 hyx) (not_lt.1 hxy)
    rw [List.mem_cons, ih, List.mem_cons, List.mem_cons]
    tauto

theorem pairwise_setUnion (hxs : xs.Pairwise (· < ·)) (hys : ys.Pairwise (· < ·)) :
    (setUnion (· < ·) xs ys).Pairwise (· < ·) := by
  fun_induction setUnion (· < ·) xs ys with
  | case1 ys => exact hys
  | case2 x xs => exact hxs
  | case3 x xs y ys hlt ih =>
    obtain ⟨hx, hxs⟩ := List.pairwise_cons.1 hxs
    refine List.pairwise_cons.2 ⟨fun z hz => ?_, ih hxs hys⟩
    rcases mem_setUnion.1 hz with hz | hz
    · exact hx z hz
    · rcases List.mem_cons.1 hz with rfl | hz
      · exact hlt
      · exact hlt.trans ((List.pairwise_cons.1 hys).1 z hz)
  | case4 x xs y ys hxy hlt ih =>
    obtain ⟨hy, hys⟩ := List.pairwise_cons.1 hys
    refine List.pairwise_cons.2 ⟨fun z hz => ?_, ih hxs hys⟩
    rcases mem_setUnion.1 hz with hz | hz
    · rcases List.mem_cons.1 hz with rfl | hz
      · exact hlt
      · exact hlt.trans ((List.pairwise_cons.1 hxs).1 z hz)
    · exact hy z hz
  | case5 x xs y ys hxy hyx ih =>
    obtain rfl : x = y := le_antisymm (not_lt.1 hyx) (not_lt.1 hxy)
    obtain ⟨hx, hxs⟩ := List.pairwise_cons.1 hxs
    obtain ⟨hy, hys⟩ := List.pairwise_cons.1 hys
    refine List.pairwise_cons.2 ⟨fun z hz => ?_, ih hxs hys⟩
    exact (mem_setUnion.1 hz).elim (hx z) (hy z)

theorem mem_setIntersection (hxs : xs.Pairwise (· < ·)) (hys : ys.Pairwise (· < ·)) :
    z ∈ setIntersection (· < ·) xs ys ↔ z ∈ xs ∧ z ∈ ys := by
  fun_induction setIntersection (· < ·) xs ys with
  | case1 ys => simp
  | case2 x xs => simp
  | case3 x xs y ys hlt ih =>
    have hnot : x ∉ y :: ys := by
      intro hmem
      rcases List.mem_cons.1 hmem with rfl | hmem
      · exact lt_irrefl x hlt
      · exact lt_asymm hlt ((List.pairwise_cons.1 hys).1 x hmem)
    rw [ih (List.pairwise_cons.1 hxs).2 hys, List.mem_cons (l := xs), or_and_right]
    refine (or_iff_right ?_).symm
    rintro ⟨rfl, hmem⟩
    exact hnot hmem
  | case4 x xs y ys hxy hlt ih =>
    have hnot : y ∉ x :: xs := by
      intro hmem
      rcases List.mem_cons.1 hmem with rfl | hmem
      · exact lt_irrefl y hlt
      · exact lt_asymm hlt ((List.pairwise_cons.1 hxs).1 y hmem)
    rw [ih hxs (List.pairwise_cons.1 hys).2, List.mem_cons (l := ys), and_or_left]
    refine (or_iff_right ?_).symm
    rintro ⟨hmem, rfl⟩
    exact hnot hmem
  | case5 x xs y ys hxy hyx ih =>
    obtain rfl : x = y := le_antisymm (not_lt.1 hyx) (not_lt.1 hxy)
    rw [List.mem_cons, ih (List.pairwise_cons.1 hxs).2 (List.pairwise_cons.1 hys).2, List.mem_cons,
      List.mem_cons, or_and_left]

theorem setIntersection_sublist : (setIntersection (· < ·) xs ys).Sublist xs := by
  fun_induction setIntersection (· < ·) xs ys with
  | case1 ys => exact List.Sublist.refl _
  | case2 x xs => exact List.nil_sublist _
  | case3 x xs y ys hlt ih => exact ih.cons x
  | case4 x xs y ys hxy hlt ih => exact ih
  | case5 x xs y ys hxy hyx ih => exact ih.cons_cons x

/-- A value comes behind a greater one. -/
def Behind (ys : List α) (z : α) : Prop := ∃ w, z < w ∧ [w, z].Sublist ys

theorem Behind.mem (h : Behind ys z) : z ∈ ys := by
  obtain ⟨w, -, hsub⟩ := h
  exact hsub.subset (List.mem_cons_of_mem w List.mem_cons_self)

theorem behind_cons {y : α} : Behind (y :: ys) z ↔ z < y ∧ z ∈ ys ∨ Behind ys z := by
  constructor
  · rintro ⟨w, hlt, hsub⟩
    cases hsub with
    | cons _ h => exact Or.inr ⟨w, hlt, h⟩
    | cons_cons _ h => exact Or.inl ⟨hlt, List.singleton_sublist.1 h⟩
  · rintro (⟨hlt, hmem⟩ | ⟨w, hlt, hsub⟩)
    · exact ⟨y, hlt, (List.singleton_sublist.2 hmem).cons_cons y⟩
    · exact ⟨w, hlt, hsub.cons y⟩

theorem not_behind_of_pairwise (hys : ys.Pairwise (· < ·)) (z : α) : ¬Behind ys z := by
  rintro ⟨w, hlt, hsub⟩
  exact lt_asymm hlt (List.rel_of_pairwise_cons (hys.sublist hsub) List.mem_cons_self)

/-- A sorted range and one in any order: the values of the second one that come behind a greater one are
passed over. -/
theorem mem_setIntersection_iff (hxs : xs.Pairwise (· < ·)) (hys : ys.Nodup) :
    z ∈ setIntersection (· < ·) xs ys ↔ z ∈ xs ∧ z ∈ ys ∧ ¬Behind ys z := by
  fun_induction setIntersection (· < ·) xs ys with
  | case1 ys => simp
  | case2 x xs => simp
  -- `x` is passed over: it is not in the other range, or comes there behind the greater `y`
  | case3 x xs y ys hlt ih =>
    rw [ih (List.pairwise_cons.1 hxs).2 hys, List.mem_cons (l := xs), or_and_right]
    refine (or_iff_right ?_).symm
    rintro ⟨rfl, hmem, hbehind⟩
    rcases List.mem_cons.1 hmem with rfl | hmem
    · exact lt_irrefl z hlt
    · exact hbehind (behind_cons.2 (Or.inl ⟨hlt, hmem⟩))
  | case4 x xs y ys hxy hlt ih =>
    rw [ih hxs (List.nodup_cons.1 hys).2, behind_cons, List.mem_cons (l := ys)]
    refine and_congr_right fun hz => ?_
    have hyz : y < z := by
      rcases List.mem_cons.1 hz with rfl | hz
      · exact hlt
      · exact hlt.trans ((List.pairwise_cons.1 hxs).1 z hz)
    simp only [hyz.ne', false_or, hyz.not_gt, false_and]
  | case5 x xs y ys hxy hyx ih =>
    obtain rfl : x = y := le_antisymm (not_lt.1 hyx) (not_lt.1 hxy)
    obtain ⟨hx, hys⟩ := List.nodup_cons.1 hys
    obtain ⟨hlt, hxs⟩ := List.pairwise_cons.1 hxs
    rw [List.mem_cons, ih hxs hys, behind_cons, List.mem_cons, List.mem_cons]
    by_cases hz : z = x
    -- the ranges have no duplicates, so `x` does not come again
    · subst hz
      simp only [true_or, lt_irrefl, false_and, false_or, true_and, true_iff]
      exact fun hbehind => hx hbehind.mem
    · simp only [hz, false_or]
      refine and_congr_right fun hz' => ?_
      simp only [(hlt z hz').not_gt, false_and, false_or]

end Sorted

end SortedRange
