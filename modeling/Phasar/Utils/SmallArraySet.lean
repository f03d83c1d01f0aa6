import Phasar.Lib.SortedRange
import Mathlib.Data.Set.Basic
import Mathlib.Order.MinMax

/-!
# Small sets in arrays

`SmallArraySet` is an unsorted vector with linear search below `LinearThreshold` elements, and a
sorted one with binary search from there on.

* the operations of `SmallArraySet`, on the vector of its elements;
* `Inv`: the elements are distinct, and sorted from the threshold on; what each operation makes of
  it;
* `Expr`, `Expr.inv_and_contains_iff`: the values of a set that is built by any sequence of
  operations, as long as `insertUnique` does not reach the threshold out of order and
  `intersectWith` does not read a small unsorted set as a sorted one (`Expr.Ok`);
* `setOperations_iff`: when union and intersection of two sets have the right elements.
-/

namespace Phasar.SmallArraySet

open SortedRange

/-- `LinearThreshold`, for elements of some size. -/
def linearThreshold (sizeofT : ℕ) : ℕ := max 1 (64 / sizeofT)

variable {T : Type*} [LinearOrder T]

section Operations

variable (threshold : ℕ)

def contains (s : List T) (v : T) : Bool :=
  if s.length < threshold then decide (v ∈ s) else binarySearch s v

/-- Insert a value, and say whether it is new. -/
def insert (s : List T) (v : T) : List T × Bool :=
  if s.length < threshold then
    if v ∈ s then (s, false)
    -- the vector is sorted once, by the insertion that reaches the threshold
    else if s.length + 1 = threshold then ((s ++ [v]).insertionSort (· ≤ ·), true)
    else (s ++ [v], true)
  else insertSorted v s

/-- Insert a value that is assumed to be new. -/
def insertUnique (s : List T) (v : T) : List T :=
  -- nothing is sorted here when the threshold is reached
  if s.length < threshold ∨ ∃ back ∈ s.getLast?, back < v then s ++ [v] else (insertSorted v s).1

/-- `insertImpl` of several values. -/
def insertImpl (s other : List T) : List T :=
  if other.length < 3 then other.foldl (fun s v => (insert threshold s v).1) s
  else sortUnique (s ++ other)

/-- The loop of the insertion of a set: the vector, and what is left of the other one. -/
def insertLoop (s : List T) : List T → List T × List T
  | [] => (s, [])
  | v :: other =>
    if v ∈ s then insertLoop s other
    else if s.length = threshold then (s, v :: other)
    else insertLoop (s ++ [v]) other

/-- Insert the values of another set. -/
def insertSet (s other : List T) : List T :=
  if other.length ≤ s.length ∧ s.length + other.length ≤ threshold then
    let r := insertLoop threshold s other
    if r.2 = [] then if r.1.length = threshold then r.1.insertionSort (· ≤ ·) else r.1
    else insertImpl threshold r.1 r.2
  else insertImpl threshold s other

/-- Insert the values of a range, which may not know its size. -/
def insertAll (s range : List T) (sized : Bool) : List T :=
  if s.length < threshold ∧ sized = true ∧ range.length < threshold then
    range.foldl (fun s v => (insert threshold s v).1) s
  else sortUnique (s ++ range)

def setUnion (s other : List T) : List T :=
  if min s.length other.length < threshold then
    if s.length < other.length then insertSet threshold other s else insertSet threshold s other
  else SortedRange.setUnion (· < ·) s other

def intersectWith (s other : List T) : List T :=
  -- the size of this set only is compared with the threshold; the merge reads both as sorted
  if s.length < threshold ∨ s.length < other.length then
    s.filter fun elem => contains threshold other elem
  else SortedRange.setIntersection (· < ·) s other

/-- What `intersectWith` returns: the size has changed. -/
def intersectWithShrinks (s other : List T) : Bool :=
  s.length != (intersectWith threshold s other).length

def setIntersection (s other : List T) : List T :=
  if min s.length other.length < threshold then
    if s.length < other.length then s.filter fun elem => contains threshold other elem
    else other.filter fun elem => contains threshold s elem
  else SortedRange.setIntersection (· < ·) s other

def sort (s : List T) : List T :=
  if threshold ≤ s.length then s else s.insertionSort (· ≤ ·)

end Operations

/-- The elements are distinct, and sorted from the threshold on. -/
structure Inv (threshold : ℕ) (s : List T) : Prop where
  nodup : s.Nodup
  sorted : threshold ≤ s.length → s.Pairwise (· < ·)

/-- The set has the invariant, and these values. -/
structure Has (threshold : ℕ) (s : List T) (A : Set T) : Prop where
  inv : Inv threshold s
  mem : ∀ v, v ∈ s ↔ v ∈ A

variable {threshold sizeofT : ℕ} {s other : List T} {A B : Set T} {v w : T}

theorem Inv.of_pairwise (hs : s.Pairwise (· < ·)) : Inv threshold s :=
  ⟨hs.imp ne_of_lt, fun _ => hs⟩

theorem Inv.contains_iff (hs : Inv threshold s) : contains threshold s v = true ↔ v ∈ s := by
  rw [contains]
  split_ifs with hlt
  · exact decide_eq_true_iff
  · exact binarySearch_iff (hs.sorted (not_lt.1 hlt))

theorem Has.contains_iff (hs : Has threshold s A) :
    contains threshold s v = true ↔ v ∈ A := hs.inv.contains_iff.trans (hs.mem v)

theorem Has.of_pairwise (hs : s.Pairwise (· < ·)) (hmem : ∀ v, v ∈ s ↔ v ∈ A) :
    Has threshold s A := ⟨.of_pairwise hs, hmem⟩

theorem has_sortUnique (s : List T) : Has threshold (sortUnique s) {v | v ∈ s} :=
  .of_pairwise (pairwise_sortUnique s) fun _ => mem_sortUnique

/-! ### What one operation keeps -/

omit [LinearOrder T] in
theorem nodup_append_singleton (hs : s.Nodup) (hv : v ∉ s) : (s ++ [v]).Nodup :=
  List.nodup_append_comm.1 (List.nodup_cons.2 ⟨hv, hs⟩)

theorem Has.mem_append (hs : Has threshold s A) (v w : T) : w ∈ s ++ [v] ↔ w ∈ Set.insert v A := by
  rw [List.mem_append, List.mem_singleton, hs.mem]
  exact or_comm

theorem Has.append (hs : Has threshold s A) (hv : v ∉ s) (hlt : s.length + 1 < threshold) :
    Has threshold (s ++ [v]) (Set.insert v A) := by
  refine ⟨⟨nodup_append_singleton hs.inv.nodup hv, fun hle => ?_⟩, hs.mem_append v⟩
  rw [List.length_append, List.length_singleton] at hle
  omega

theorem Has.insert (hs : Has threshold s A) (v : T) :
    Has threshold (SmallArraySet.insert threshold s v).1 (Set.insert v A) := by
  rw [SmallArraySet.insert]
  split_ifs with hlt hv heq
  · refine ⟨hs.inv, fun w => (hs.mem w).trans ⟨Or.inr, ?_⟩⟩
    rintro (rfl | hw)
    · exact (hs.mem w).1 hv
    · exact hw
  · have hnodup := nodup_append_singleton hs.inv.nodup hv
    exact .of_pairwise (pairwise_insertionSort_lt hnodup)
      fun w => (List.mem_insertionSort _).trans (hs.mem_append v w)
  · exact hs.append hv (by omega)
  · have hsorted := hs.inv.sorted (not_lt.1 hlt)
    refine .of_pairwise (pairwise_insertSorted hsorted) fun w => ?_
    rw [mem_insertSorted hsorted, hs.mem]
    rfl

/-- `insert` says whether the value is new. -/
theorem Has.insert_snd (hs : Has threshold s A) :
    (SmallArraySet.insert threshold s v).2 = true ↔ v ∉ A := by
  rw [← hs.mem, SmallArraySet.insert]
  split_ifs with hlt hv heq
  · simpa using hv
  · simpa using hv
  · simpa using hv
  · rw [insertSorted_snd (hs.inv.sorted (not_lt.1 hlt)), decide_eq_true_iff]

theorem Has.foldl_insert (hs : Has threshold s A) (other : List T) :
    Has threshold (other.foldl (fun s v => (SmallArraySet.insert threshold s v).1) s)
      (A ∪ {v | v ∈ other}) := by
  induction other generalizing s A with
  | nil => simpa using hs
  | cons v other ih =>
    have hunion : Set.insert v A ∪ {w | w ∈ other} = A ∪ {w | w ∈ v :: other} := by
      ext w
      simp only [Set.mem_union, Set.mem_ofPred_eq, List.mem_cons]
      show (w = v ∨ w ∈ A) ∨ w ∈ other ↔ _
      tauto
    exact hunion ▸ ih (hs.insert v)

theorem Has.sortUnique_append (hs : Has threshold s A) (other : List T) :
    Has threshold (sortUnique (s ++ other)) (A ∪ {v | v ∈ other}) := by
  refine .of_pairwise (pairwise_sortUnique _) fun v => ?_
  rw [mem_sortUnique, List.mem_append, hs.mem]
  rfl

theorem Has.insertImpl (hs : Has threshold s A) (other : List T) :
    Has threshold (SmallArraySet.insertImpl threshold s other) (A ∪ {v | v ∈ other}) := by
  rw [SmallArraySet.insertImpl]
  split_ifs
  · exact hs.foldl_insert other
  · exact hs.sortUnique_append other

/-- While there is room for all values, the loop inserts them. -/
theorem insertLoop_spec (hs : s.Nodup) (hmem : ∀ v, v ∈ s ↔ v ∈ A)
    (hlen : s.length + other.length ≤ threshold) :
    ∃ s', insertLoop threshold s other = (s', []) ∧ s'.Nodup ∧ s'.length ≤ threshold ∧
      ∀ v, v ∈ s' ↔ v ∈ A ∪ {v | v ∈ other} := by
  induction other generalizing s A with
  | nil => exact ⟨s, rfl, hs, hlen, by simpa using hmem⟩
  | cons v other ih =>
    rw [List.length_cons] at hlen
    rw [insertLoop]
    by_cases hv : v ∈ s
    · rw [if_pos hv]
      obtain ⟨s', hrun, hs', hlen', hmem'⟩ := ih hs hmem (by omega)
      refine ⟨s', hrun, hs', hlen', fun w => (hmem' w).trans ?_⟩
      simp only [Set.mem_union, Set.mem_ofPred_eq, List.mem_cons]
      refine ⟨Or.imp_right Or.inr, ?_⟩
      rintro (hw | rfl | hw)
      · exact Or.inl hw
      · exact Or.inl ((hmem w).1 hv)
      · exact Or.inr hw
    · rw [if_neg hv, if_neg (by omega)]
      have hnodup := nodup_append_singleton hs hv
      have hmem₁ : ∀ w, w ∈ s ++ [v] ↔ w ∈ A ∪ {w | w = v} := by
        intro w
        rw [List.mem_append, List.mem_singleton, hmem]
        rfl
      obtain ⟨s', hrun, hs', hlen', hmem'⟩ := ih hnodup hmem₁ (by
        rw [List.length_append, List.length_singleton]
        omega)
      refine ⟨s', hrun, hs', hlen', fun w => (hmem' w).trans ?_⟩
      simp only [Set.mem_union, Set.mem_ofPred_eq, List.mem_cons, or_assoc]

theorem Has.insertSet (hs : Has threshold s A) (hother : Has threshold other B) :
    Has threshold (SmallArraySet.insertSet threshold s other) (A ∪ B) := by
  have hvalues : {v | v ∈ other} = B := Set.ext hother.mem
  rw [SmallArraySet.insertSet, ← hvalues]
  split_ifs with hlen
  · obtain ⟨s', hrun, hs', hlen', hmem'⟩ := insertLoop_spec hs.inv.nodup hs.mem hlen.2
    rw [hrun, if_pos rfl]
    dsimp only
    split_ifs with heq
    · exact .of_pairwise (pairwise_insertionSort_lt hs')
        fun v => (List.mem_insertionSort _).trans (hmem' v)
    · exact ⟨⟨hs', fun hle => absurd (le_antisymm hlen' hle) heq⟩, hmem'⟩
  · exact hs.insertImpl other

theorem Has.insertAll (hs : Has threshold s A) (range : List T) (sized : Bool) :
    Has threshold (SmallArraySet.insertAll threshold s range sized) (A ∪ {v | v ∈ range}) := by
  rw [SmallArraySet.insertAll]
  split_ifs
  · exact hs.foldl_insert range
  · exact hs.sortUnique_append range

theorem Has.setUnion (hs : Has threshold s A) (hother : Has threshold other B) :
    Has threshold (SmallArraySet.setUnion threshold s other) (A ∪ B) := by
  rw [SmallArraySet.setUnion]
  split_ifs with hmin hlt
  · rw [Set.union_comm]
    exact hother.insertSet hs
  · exact hs.insertSet hother
  · rw [not_lt, le_min_iff] at hmin
    refine .of_pairwise (pairwise_setUnion (hs.inv.sorted hmin.1) (hother.inv.sorted hmin.2))
      fun v => ?_
    rw [mem_setUnion, hs.mem, hother.mem]
    rfl

theorem Inv.filter (hs : Inv threshold s) (p : T → Bool) : Inv threshold (s.filter p) := by
  refine ⟨hs.nodup.filter p, fun hle => ?_⟩
  exact (hs.sorted (hle.trans (List.length_filter_le p s))).filter p

theorem Has.filter_contains (hs : Has threshold s A) (hother : Has threshold other B) :
    Has threshold (s.filter fun elem => contains threshold other elem) (A ∩ B) := by
  refine ⟨hs.inv.filter _, fun v => ?_⟩
  rw [List.mem_filter, hs.mem, hother.contains_iff]
  rfl

theorem Has.setIntersection_sorted (hs : Has threshold s A) (hother : Has threshold other B)
    (hsorted : s.Pairwise (· < ·)) (hsorted' : other.Pairwise (· < ·)) :
    Has threshold (SortedRange.setIntersection (· < ·) s other) (A ∩ B) := by
  refine .of_pairwise (hsorted.sublist setIntersection_sublist) fun v => ?_
  rw [mem_setIntersection hsorted hsorted', hs.mem, hother.mem]
  rfl

theorem Has.setIntersection (hs : Has threshold s A) (hother : Has threshold other B) :
    Has threshold (SmallArraySet.setIntersection threshold s other) (A ∩ B) := by
  rw [SmallArraySet.setIntersection]
  split_ifs with hmin hlt
  · exact hs.filter_contains hother
  · rw [Set.inter_comm]
    exact hother.filter_contains hs
  · rw [not_lt, le_min_iff] at hmin
    exact hs.setIntersection_sorted hother (hs.inv.sorted hmin.1) (hother.inv.sorted hmin.2)

/-- Two large sets, or a small set, or a small sorted one. -/
theorem Has.intersectWith (hs : Has threshold s A) (hother : Has threshold other B)
    (hsmall : threshold ≤ s.length → other.length < threshold → other.Pairwise (· < ·)) :
    Has threshold (SmallArraySet.intersectWith threshold s other) (A ∩ B) := by
  rw [SmallArraySet.intersectWith]
  split_ifs with hlen
  · exact hs.filter_contains hother
  · obtain ⟨hle, -⟩ := not_or.1 hlen
    refine hs.setIntersection_sorted hother (hs.inv.sorted (not_lt.1 hle)) ?_
    by_cases hlt : other.length < threshold
    · exact hsmall (not_lt.1 hle) hlt
    · exact hother.inv.sorted (not_lt.1 hlt)

theorem intersectWith_sublist : (SmallArraySet.intersectWith threshold s other).Sublist s := by
  rw [SmallArraySet.intersectWith]
  split_ifs
  · exact List.filter_sublist
  · exact setIntersection_sublist

/-- The size changes if and only if an element is lost. -/
theorem intersectWithShrinks_iff (hs : s.Nodup) : intersectWithShrinks threshold s other = true ↔
    ∃ v ∈ s, v ∉ SmallArraySet.intersectWith threshold s other := by
  have hsub : (SmallArraySet.intersectWith threshold s other).Sublist s := intersectWith_sublist
  rw [intersectWithShrinks, bne_iff_ne]
  constructor
  -- what keeps all of its distinct elements keeps its length
  · intro hne
    by_contra hkeep
    push Not at hkeep
    exact hne (le_antisymm (List.subperm_of_subset hs hkeep).length_le hsub.length_le)
  · rintro ⟨v, hv, hlost⟩ heq
    rw [hsub.eq_of_length heq.symm] at hlost
    exact hlost hv

/-- What is asked of the union and the intersections of two sets. -/
structure SetOperations (threshold : ℕ) (s other : List T) : Prop where
  setUnion : Has threshold (setUnion threshold s other) ({v | v ∈ s} ∪ {v | v ∈ other})
  setIntersection : Has threshold (setIntersection threshold s other) ({v | v ∈ s} ∩ {v | v ∈ other})
  intersectWith : Has threshold (intersectWith threshold s other) ({v | v ∈ s} ∩ {v | v ∈ other})
  shrinks : intersectWithShrinks threshold s other = true ↔
    ∃ v ∈ s, v ∉ SmallArraySet.intersectWith threshold s other

theorem Inv.has (hs : Inv threshold s) : Has threshold s {v | v ∈ s} := ⟨hs, fun _ => Iff.rfl⟩

/-- An intersection by a merge is right if and only if the other set has no common element behind a
greater one. -/
theorem has_intersectWith_iff (hs : Inv threshold s) (hother : Inv threshold other) :
    Has threshold (SmallArraySet.intersectWith threshold s other) ({v | v ∈ s} ∩ {v | v ∈ other}) ↔
      s.length < threshold ∨ s.length < other.length ∨ ∀ v ∈ s, ¬Behind other v := by
  rw [SmallArraySet.intersectWith, ← or_assoc]
  split_ifs with hlinear
  · exact iff_of_true (hs.has.filter_contains hother.has) (Or.inl hlinear)
  · rw [or_iff_right hlinear]
    have hsorted := hs.sorted (not_lt.1 (not_or.1 hlinear).1)
    constructor
    -- the merge has passed a common element that stands behind a greater one
    · intro hhas v hv hbehind
      have hmem := (hhas.mem v).2 ⟨hv, hbehind.mem⟩
      exact ((mem_setIntersection_iff hsorted hother.nodup).1 hmem).2.2 hbehind
    · refine fun h => .of_pairwise (hsorted.sublist setIntersection_sublist) fun v => ?_
      rw [mem_setIntersection_iff hsorted hother.nodup]
      exact ⟨fun hv => ⟨hv.1, hv.2.1⟩, fun hv => ⟨hv.1, hv.2, h v hv.1⟩⟩

/-- The operations of two sets are right if and only if `intersectWith` searches the other set, or that
has no common element behind a greater one. -/
theorem setOperations_iff (hs : Inv threshold s) (hother : Inv threshold other) :
    SetOperations threshold s other ↔
      s.length < threshold ∨ s.length < other.length ∨ ∀ v ∈ s, ¬Behind other v := by
  rw [← has_intersectWith_iff hs hother]
  exact ⟨fun h => h.intersectWith, fun h => ⟨hs.has.setUnion hother.has,
    hs.has.setIntersection hother.has, h, intersectWithShrinks_iff hs.nodup⟩⟩

/-- A set of four values and a smaller one in ascending order, of 16 bytes each. -/
theorem setOperations_ascending : SetOperations (linearThreshold 16) [1, 2, 3, 4] [1, 3] :=
  (setOperations_iff (.of_pairwise (by decide)) ⟨by decide, by decide⟩).2
    (Or.inr (Or.inr fun v _ => not_behind_of_pairwise (by decide) v))

/-- With the smaller set in descending order, the value `1` is lost. -/
theorem not_setOperations_descending :
    Inv (linearThreshold 16) [1, 2, 3, 4] ∧ Inv (linearThreshold 16) [3, 1] ∧
      ¬SetOperations (linearThreshold 16) [1, 2, 3, 4] [3, 1] := by
  refine ⟨.of_pairwise (by decide), ⟨by decide, by decide⟩, fun h => ?_⟩
  have hlost := (h.intersectWith.mem 1).2 ⟨by decide, by decide⟩
  rw [SmallArraySet.intersectWith, if_neg (by decide)] at hlost
  simp [SortedRange.setIntersection] at hlost

theorem Has.sort (hs : Has threshold s A) : Has threshold (SmallArraySet.sort threshold s) A := by
  rw [SmallArraySet.sort]
  split_ifs with hle
  · exact hs
  · exact .of_pairwise (pairwise_insertionSort_lt hs.inv.nodup)
      fun v => (List.mem_insertionSort _).trans (hs.mem v)

/-- A new value that does not bring an unsorted vector to the threshold. -/
theorem Has.insertUnique (hs : Has threshold s A) (hv : v ∉ A)
    (hreach : s.length + 1 = threshold → (s ++ [v]).Pairwise (· < ·)) :
    Has threshold (SmallArraySet.insertUnique threshold s v) (Set.insert v A) := by
  have hnot : v ∉ s := mt (hs.mem v).1 hv
  rw [SmallArraySet.insertUnique]
  split_ifs with hpush
  · by_cases hlt : s.length < threshold
    · by_cases heq : s.length + 1 = threshold
      · exact .of_pairwise (hreach heq) (hs.mem_append v)
      · exact hs.append hnot (by omega)
    -- a value behind the greatest element leaves a sorted vector sorted
    · have hsorted := hs.inv.sorted (not_lt.1 hlt)
      obtain ⟨back, hback, hlt'⟩ := hpush.resolve_left hlt
      refine .of_pairwise (List.pairwise_append.2 ⟨hsorted, List.pairwise_singleton _ v,
        fun x hx y hy => ?_⟩) (hs.mem_append v)
      have hle := (hsorted.imp le_of_lt).rel_getLast hx
      rw [List.getLast?_eq_some_getLast (List.ne_nil_of_mem hx)] at hback
      rw [List.mem_singleton.1 hy]
      exact hle.trans_lt (Option.some.inj hback ▸ hlt')
  · have hsorted := hs.inv.sorted (not_lt.1 (not_or.1 hpush).1)
    refine .of_pairwise (pairwise_insertSorted hsorted) fun w => ?_
    rw [mem_insertSorted hsorted, hs.mem]
    rfl

/-! ### Sequences of operations -/

/-- A set that is built from other ones. -/
inductive Expr (T : Type*)
  | empty
  | ofElems (elems : List T)
  | fromSorted (vec : List T)
  | fromSortedUniqued (vec : List T)
  | insert (s : Expr T) (v : T)
  | insertUnique (s : Expr T) (v : T)
  | insertSet (s other : Expr T)
  | insertAll (s : Expr T) (range : List T) (sized : Bool)
  | setUnion (s other : Expr T)
  | intersectWith (s other : Expr T)
  | setIntersection (s other : Expr T)
  | sort (s : Expr T)

namespace Expr

/-- The vector of the set. -/
def eval (threshold : ℕ) : Expr T → List T
  | empty => []
  | ofElems elems => sortUnique elems
  | fromSorted vec => unique vec
  | fromSortedUniqued vec => vec
  | insert s v => (SmallArraySet.insert threshold (s.eval threshold) v).1
  | insertUnique s v => SmallArraySet.insertUnique threshold (s.eval threshold) v
  | insertSet s other => SmallArraySet.insertSet threshold (s.eval threshold) (other.eval threshold)
  | insertAll s range sized => SmallArraySet.insertAll threshold (s.eval threshold) range sized
  | setUnion s other => SmallArraySet.setUnion threshold (s.eval threshold) (other.eval threshold)
  | intersectWith s other =>
    SmallArraySet.intersectWith threshold (s.eval threshold) (other.eval threshold)
  | setIntersection s other =>
    SmallArraySet.setIntersection threshold (s.eval threshold) (other.eval threshold)
  | sort s => SmallArraySet.sort threshold (s.eval threshold)

omit [LinearOrder T] in
/-- The values that are inserted and not intersected away. -/
def values : Expr T → Set T
  | empty => ∅
  | ofElems elems => {v | v ∈ elems}
  | fromSorted vec => {v | v ∈ vec}
  | fromSortedUniqued vec => {v | v ∈ vec}
  | insert s v => Set.insert v s.values
  | insertUnique s v => Set.insert v s.values
  | insertSet s other => s.values ∪ other.values
  | insertAll s range _ => s.values ∪ {v | v ∈ range}
  | setUnion s other => s.values ∪ other.values
  | intersectWith s other => s.values ∩ other.values
  | setIntersection s other => s.values ∩ other.values
  | sort s => s.values

/-- What the assertions require: sorted vectors, and values that are new. -/
def Valid : Expr T → Prop
  | empty => True
  | ofElems _ => True
  | fromSorted vec => vec.Pairwise (· ≤ ·)
  | fromSortedUniqued vec => vec.Pairwise (· < ·)
  | insert s _ => s.Valid
  | insertUnique s v => s.Valid ∧ v ∉ s.values
  | insertSet s other => s.Valid ∧ other.Valid
  | insertAll s _ _ => s.Valid
  | setUnion s other => s.Valid ∧ other.Valid
  | intersectWith s other => s.Valid ∧ other.Valid
  | setIntersection s other => s.Valid ∧ other.Valid
  | sort s => s.Valid

/-- `insertUnique` reaches the threshold in order only, and `intersectWith` reads a small set only
if it is sorted. -/
def Ok (threshold : ℕ) : Expr T → Prop
  | empty => True
  | ofElems _ => True
  | fromSorted _ => True
  | fromSortedUniqued _ => True
  | insert s _ => s.Ok threshold
  | insertUnique s v => s.Ok threshold ∧
    ((s.eval threshold).length + 1 = threshold → (s.eval threshold ++ [v]).Pairwise (· < ·))
  | insertSet s other => s.Ok threshold ∧ other.Ok threshold
  | insertAll s _ _ => s.Ok threshold
  | setUnion s other => s.Ok threshold ∧ other.Ok threshold
  | intersectWith s other => (s.Ok threshold ∧ other.Ok threshold) ∧
    (threshold ≤ (s.eval threshold).length → (other.eval threshold).length < threshold →
      (other.eval threshold).Pairwise (· < ·))
  | setIntersection s other => s.Ok threshold ∧ other.Ok threshold
  | sort s => s.Ok threshold

theorem has {e : Expr T} (hv : e.Valid) (hok : e.Ok threshold) :
    Has threshold (e.eval threshold) e.values := by
  induction e with
  | empty => exact .of_pairwise .nil fun v => by simp [eval, values]
  | ofElems elems => exact has_sortUnique elems
  | fromSorted vec => exact .of_pairwise (pairwise_unique hv) fun _ => mem_unique
  | fromSortedUniqued vec => exact .of_pairwise hv fun _ => Iff.rfl
  | insert s v ih => exact (ih hv hok).insert v
  | insertUnique s v ih => exact (ih hv.1 hok.1).insertUnique hv.2 hok.2
  | insertSet s other ih ih' => exact (ih hv.1 hok.1).insertSet (ih' hv.2 hok.2)
  | insertAll s range sized ih => exact (ih hv hok).insertAll range sized
  | setUnion s other ih ih' => exact (ih hv.1 hok.1).setUnion (ih' hv.2 hok.2)
  | intersectWith s other ih ih' =>
    exact (ih hv.1 hok.1.1).intersectWith (ih' hv.2 hok.1.2) hok.2
  | setIntersection s other ih ih' => exact (ih hv.1 hok.1).setIntersection (ih' hv.2 hok.2)
  | sort s ih => exact (ih hv hok).sort

/-- The elements of a set that is built by the operations are distinct, and sorted from the
threshold on; and `contains` finds exactly the values that were inserted and not intersected away.
-/
theorem inv_and_contains_iff (sizeofT : ℕ) {e : Expr T} (hv : e.Valid)
    (hok : e.Ok (linearThreshold sizeofT)) :
    Inv (linearThreshold sizeofT) (e.eval (linearThreshold sizeofT)) ∧
      ∀ v, contains (linearThreshold sizeofT) (e.eval (linearThreshold sizeofT)) v = true ↔
        v ∈ e.values :=
  ⟨(has hv hok).inv, fun _ => (has hv hok).contains_iff⟩

/-- Four new values of 16 bytes each, in ascending order. -/
theorem contains_ascending :
    contains (linearThreshold 16) ((insertUnique (insertUnique (insertUnique (insertUnique empty 1) 2) 3)
      4).eval (linearThreshold 16)) 1 = true := by
  have hv : (insertUnique (insertUnique (insertUnique (insertUnique empty 1) 2) 3) 4 : Expr ℕ).Valid := by
    refine ⟨⟨⟨⟨trivial, id⟩, ?_⟩, ?_⟩, ?_⟩ <;> simp [values, Set.insert]
  have hok : (insertUnique (insertUnique (insertUnique (insertUnique empty 1) 2) 3) 4 : Expr ℕ).Ok
      (linearThreshold 16) := by
    refine ⟨⟨⟨⟨trivial, ?_⟩, ?_⟩, ?_⟩, fun _ => ?_⟩ <;> decide
  exact ((inv_and_contains_iff 16 hv hok).2 1).2 (by simp [values, Set.insert])

/-- In descending order, the first one is not found any more; and an intersection with the values
`3` and `1`, inserted in this order, loses the second one. -/
theorem not_contains :
    ((insertUnique (insertUnique (insertUnique (insertUnique empty 4) 3) 2) 1 : Expr ℕ).Valid ∧
      4 ∈ (insertUnique (insertUnique (insertUnique (insertUnique empty 4) 3) 2) 1 : Expr ℕ).values ∧
      contains (linearThreshold 16)
        ((insertUnique (insertUnique (insertUnique (insertUnique empty 4) 3) 2)
        1).eval (linearThreshold 16)) 4 = false) ∧
    ((intersectWith (ofElems [1, 2, 3, 4]) (insert (insert empty 3) 1) : Expr ℕ).Valid ∧
      1 ∈ (intersectWith (ofElems [1, 2, 3, 4]) (insert (insert empty 3) 1) : Expr ℕ).values ∧
      contains (linearThreshold 16) ((intersectWith (ofElems [1, 2, 3, 4])
        (insert (insert empty 3) 1)).eval (linearThreshold 16)) 1 = false) := by
  refine ⟨⟨?_, by simp [values, Set.insert], by decide⟩, ⟨⟨trivial, trivial⟩, ?_, ?_⟩⟩
  · refine ⟨⟨⟨⟨trivial, id⟩, ?_⟩, ?_⟩, ?_⟩ <;> simp [values, Set.insert]
  · simp [values, Set.insert]
  · have hthis : (ofElems [1, 2, 3, 4] : Expr ℕ).eval (linearThreshold 16) = [1, 2, 3, 4] := by decide
    have hother : (insert (insert empty 3) 1 : Expr ℕ).eval (linearThreshold 16) = [3, 1] := by decide
    rw [eval, hthis, hother, SmallArraySet.intersectWith, if_neg (by decide)]
    simp [SortedRange.setIntersection, contains, linearThreshold]

end Expr

end Phasar.SmallArraySet
