import Mathlib.Data.List.Pairwise
import Mathlib.Order.Nat
import Mathlib.Tactic.Common

/-!
# Removing the elements at some positions

`remove_by_index` on random-access iterators moves the parts between the removed positions to the front.
On other iterators it moves the elements one by one, and goes to the next index when an element is kept.

* `removeByIndex`, `removeByIndexForward`: the two branches;
* `keep`: the elements that are not at one of the positions;
* `take_removeByIndex`, `removeByIndex_iff`: when the branches leave these elements.
-/

namespace Phasar.Utilities

section RemoveByIndex

variable {α : Type*}

/-- `std::move(first, last, out)` inside a sequence. -/
def moveRange (xs : List α) (first last out : ℕ) : List α :=
  xs.take out ++ (xs.drop first).take (last - first) ++ xs.drop (out + (last - first))

/-- The loop over the indices behind the first one, for the last index, `In` and `Out`. -/
def removeByIndexLoop (bounds : ℕ) : ℕ → List ℕ → List α → ℕ → ℕ → List α × ℕ
  | _, [], xs, inIdx, out => (moveRange xs inIdx xs.length out, out + (xs.length - inIdx))
  | prev, idx :: idxs, xs, inIdx, out =>
    if prev + 1 = idx then removeByIndexLoop bounds idx idxs xs (inIdx + 1) out
    else if idx ≥ bounds then (moveRange xs inIdx xs.length out, out + (xs.length - inIdx))
    else removeByIndexLoop bounds idx idxs (moveRange xs inIdx idx out) (idx + 1) (out + (idx - inIdx))

/-- `remove_by_index`: the sequence and its new end. -/
def removeByIndex (xs : List α) (idxs : List ℕ) : List α × ℕ :=
  match idxs with
  | [] => (xs, xs.length)
  | idx :: idxs =>
    if xs = [] then (xs, xs.length) else removeByIndexLoop xs.length idx idxs xs (idx + 1) idx

/-- The elements that are not at one of the positions. -/
def keep (idxs : List ℕ) (xs : List α) : List α :=
  (xs.zipIdx.filter fun p => p.2 ∉ idxs).map Prod.fst

theorem mem_keep_iff {idxs : List ℕ} {xs : List α} {x : α} :
    x ∈ keep idxs xs ↔ ∃ i, xs[i]? = some x ∧ i ∉ idxs := by
  simp only [keep, List.mem_map, List.mem_filter, decide_eq_true_eq, Prod.exists, exists_and_right,
    exists_eq_right]
  exact exists_congr fun i => and_congr_left' List.mem_zipIdx_iff_getElem?

/-- The positions of a range without indices are kept. -/
theorem keep_take_add {idxs : List ℕ} {xs : List α} {m n : ℕ} (hmn : m ≤ n) (hn : n ≤ xs.length)
    (h : ∀ i ∈ idxs, m ≤ i → n ≤ i) :
    keep idxs (xs.take n) = keep idxs (xs.take m) ++ (xs.drop m).take (n - m) := by
  have hsplit : xs.take n = xs.take m ++ (xs.drop m).take (n - m) := by
    rw [← List.take_add, Nat.add_sub_cancel' hmn]
  rw [hsplit, keep, keep, List.zipIdx_append, List.filter_append, List.map_append]
  congr 1
  rw [List.filter_eq_self.mpr, List.zipIdx_map_fst]
  intro p hp
  have hlt := List.mem_zipIdx hp
  simp only [List.length_take, List.length_drop] at hlt
  simp only [decide_eq_true_eq]
  intro hmem
  have hle := h p.2 hmem
  omega

theorem keep_take_succ_of_mem {idxs : List ℕ} {xs : List α} {n : ℕ} (hmem : n ∈ idxs) :
    keep idxs (xs.take (n + 1)) = keep idxs (xs.take n) := by
  rw [List.take_add_one]
  cases hx : xs[n]? with
  | none => simp
  | some x =>
    have hlt : n < xs.length := (List.getElem?_eq_some_iff.mp hx).1
    rw [Option.toList_some, keep, List.zipIdx_append, List.filter_append, List.map_append, ← keep]
    simp [Nat.min_eq_left (Nat.le_of_lt hlt), hmem]

theorem length_moveRange {xs : List α} {first last out : ℕ} (hout : out ≤ first) (hfirst : first ≤ last)
    (hlast : last ≤ xs.length) : (moveRange xs first last out).length = xs.length := by
  simp only [moveRange, List.length_append, List.length_take, List.length_drop]
  omega

theorem take_moveRange {xs : List α} {first last out : ℕ} (hout : out ≤ first) (hfirst : first ≤ last)
    (hlast : last ≤ xs.length) : (moveRange xs first last out).take (out + (last - first)) =
      xs.take out ++ (xs.drop first).take (last - first) := by
  refine List.take_left' ?_
  simp only [List.length_append, List.length_take, List.length_drop]
  omega

theorem drop_moveRange {xs : List α} {first last out n : ℕ} (hout : out ≤ first) (hfirst : first ≤ last)
    (hn : last ≤ n) (hlast : last ≤ xs.length) : (moveRange xs first last out).drop n = xs.drop n := by
  have hlen : (xs.take out ++ (xs.drop first).take (last - first)).length = out + (last - first) := by
    simp only [List.length_append, List.length_take, List.length_drop]
    omega
  rw [moveRange, List.drop_append, List.drop_eq_nil_of_le (by omega), hlen, List.nil_append, List.drop_drop]
  congr 1
  omega

/-- The elements at the positions before `In` that stay are in front of `Out`, and those from `In` on are
untouched. -/
theorem take_removeByIndexLoop {ys : List α} {all : List ℕ} : ∀ (idxs : List ℕ) (prev : ℕ) (xs : List α)
    (inIdx out : ℕ), xs.length = ys.length → inIdx = prev + 1 → out ≤ inIdx → inIdx ≤ ys.length →
    xs.take out = keep all (ys.take inIdx) → xs.drop inIdx = ys.drop inIdx →
    (∀ i ∈ idxs, inIdx ≤ i ∧ i < ys.length) → idxs.Pairwise (· < ·) →
    (∀ i, inIdx ≤ i → (i ∈ all ↔ i ∈ idxs)) →
    (removeByIndexLoop ys.length prev idxs xs inIdx out).1.take
      (removeByIndexLoop ys.length prev idxs xs inIdx out).2 = keep all ys := by
  intro idxs
  induction idxs with
  | nil =>
    intro prev xs inIdx out hlen _ hout hin htake hdrop _ _ hall
    rw [removeByIndexLoop, take_moveRange hout (hlen ▸ hin) le_rfl, htake, hdrop, hlen,
      ← keep_take_add hin le_rfl, List.take_length]
    intro i hi hle
    exact absurd ((hall i hle).mp hi) List.not_mem_nil
  | cons idx idxs ih =>
    intro prev xs inIdx out hlen hprev hout hin htake hdrop hbounds hsorted hall
    obtain ⟨⟨hidx, hlt⟩, hrest⟩ := List.forall_mem_cons.mp hbounds
    obtain ⟨hfirst, htail⟩ := List.pairwise_cons.mp hsorted
    have hall' : ∀ i, idx + 1 ≤ i → (i ∈ all ↔ i ∈ idxs) := by
      intro i hi
      rw [hall i (by omega), List.mem_cons]
      exact or_iff_right (by omega)
    have hmem : idx ∈ all := (hall idx hidx).mpr List.mem_cons_self
    rw [removeByIndexLoop]
    by_cases hnext : prev + 1 = idx
    -- neighbouring indices: nothing lies between them
    · obtain rfl : inIdx = idx := hprev.trans hnext
      rw [if_pos hnext]
      refine ih _ _ _ _ hlen rfl (by omega) hlt ?_ ?_ (fun i hi => ⟨hfirst i hi, (hrest i hi).2⟩)
        htail hall'
      · rw [htake, keep_take_succ_of_mem hmem]
      · rw [← List.drop_drop, hdrop, List.drop_drop]
    · rw [if_neg hnext, if_neg (not_le.mpr hlt)]
      refine ih _ _ _ _ (by rw [length_moveRange hout hidx (by omega), hlen]) rfl (by omega) hlt ?_ ?_
        (fun i hi => ⟨hfirst i hi, (hrest i hi).2⟩) htail hall'
      · rw [take_moveRange hout hidx (by omega), htake, hdrop, keep_take_succ_of_mem hmem,
          ← keep_take_add hidx hlt.le]
        intro i hi hle
        obtain rfl | hi := List.mem_cons.mp ((hall i hle).mp hi)
        · exact le_rfl
        · exact (hfirst i hi).le
      · rw [drop_moveRange hout hidx (by omega) (by omega)]
        obtain ⟨k, hk⟩ := Nat.exists_eq_add_of_le (show inIdx ≤ idx + 1 by omega)
        rw [hk, ← List.drop_drop, hdrop, List.drop_drop]

/-- Exactly the elements at the listed positions are removed. -/
theorem take_removeByIndex {xs : List α} {idxs : List ℕ} (hsorted : idxs.Pairwise (· < ·))
    (hbounds : ∀ i ∈ idxs, i < xs.length) :
    (removeByIndex xs idxs).1.take (removeByIndex xs idxs).2 = keep idxs xs := by
  cases idxs with
  | nil =>
    rw [removeByIndex, List.take_length, keep, List.filter_eq_self.mpr (by simp), List.zipIdx_map_fst]
  | cons idx idxs =>
    obtain ⟨hlt, hbounds⟩ := List.forall_mem_cons.mp hbounds
    obtain ⟨hfirst, hsorted⟩ := List.pairwise_cons.mp hsorted
    have hne : xs ≠ [] := fun h => by simp [h] at hlt
    rw [removeByIndex, if_neg hne]
    refine take_removeByIndexLoop idxs idx xs _ _ rfl rfl (by omega) hlt ?_ rfl
      (fun i hi => ⟨hfirst i hi, hbounds i hi⟩) hsorted fun i hi => ?_
    · rw [keep_take_succ_of_mem List.mem_cons_self]
      have hle : ∀ i ∈ idx :: idxs, 0 ≤ i → idx ≤ i := by
        intro i hi _
        obtain rfl | hi := List.mem_cons.mp hi
        · exact le_rfl
        · exact (hfirst i hi).le
      rw [keep_take_add (Nat.zero_le idx) hlt.le hle]
      rfl
    · rw [List.mem_cons]
      exact or_iff_right (by omega)

/-! ### Other iterators -/

/-- The loop of the branch for other iterators, for the remaining rounds, the indices from `FirstIndex` on,
`I`, `CurrIdx` and `First`. -/
def removeByIndexForwardLoop : ℕ → List ℕ → List α → ℕ → ℕ → ℕ → List α × ℕ
  | 0, _, xs, _, _, first => (xs, first)
  | _ + 1, [], xs, _, _, first => (xs, first)
  | rounds + 1, idx :: idxs, xs, i, currIdx, first =>
    -- the next index is taken when an element is kept, not when one is skipped
    if currIdx ≠ idx then
      let xs := moveRange xs i (i + 1) first
      if idxs = [] then (moveRange xs (i + 1) xs.length (first + 1), first + 1 + (xs.length - (i + 1)))
      else removeByIndexForwardLoop rounds idxs xs (i + 1) (currIdx + 1) (first + 1)
    else removeByIndexForwardLoop rounds (idx :: idxs) xs (i + 1) (currIdx + 1) first

/-- `remove_by_index` on iterators without random access: the sequence and its new end. -/
def removeByIndexForward (xs : List α) (idxs : List ℕ) : List α × ℕ :=
  match idxs with
  | [] => (xs, xs.length)
  | idx :: idxs =>
    if xs = [] then (xs, xs.length)
    else if idx = xs.length then (xs, idx)
    else removeByIndexForwardLoop (xs.length - idx) (idx :: idxs) xs idx idx idx

/-- The elements that the loop keeps from a position on. -/
def keepForward : List ℕ → ℕ → List α → List α
  | [], _, rest => rest
  | _ :: _, _, [] => []
  | idx :: idxs, currIdx, x :: rest =>
    if currIdx ≠ idx then x :: keepForward idxs (currIdx + 1) rest
    else keepForward (idx :: idxs) (currIdx + 1) rest

/-- The loop moves these elements to the front. -/
theorem take_removeByIndexForwardLoop {rounds i currIdx first : ℕ} {idxs : List ℕ} {xs : List α}
    (hidxs : idxs ≠ []) (hrounds : i + rounds = xs.length) (hfirst : first ≤ i) :
    (removeByIndexForwardLoop rounds idxs xs i currIdx first).1.take
      (removeByIndexForwardLoop rounds idxs xs i currIdx first).2 =
        xs.take first ++ keepForward idxs currIdx (xs.drop i) := by
  induction rounds generalizing idxs xs i currIdx first with
  | zero =>
    obtain ⟨idx, idxs, rfl⟩ := List.exists_cons_of_ne_nil hidxs
    rw [removeByIndexForwardLoop, List.drop_eq_nil_of_le (by omega), keepForward, List.append_nil]
  | succ rounds ih =>
    obtain ⟨idx, idxs, rfl⟩ := List.exists_cons_of_ne_nil hidxs
    have hi : i < xs.length := by omega
    have hlen : (moveRange xs i (i + 1) first).length = xs.length :=
      length_moveRange hfirst i.le_succ hi
    have hrest : (moveRange xs i (i + 1) first).drop (i + 1) = xs.drop (i + 1) :=
      drop_moveRange hfirst i.le_succ le_rfl hi
    have hmoved : (moveRange xs i (i + 1) first).take (first + 1) = xs.take first ++ [xs[i]] := by
      have htake := take_moveRange hfirst i.le_succ hi
      rwa [Nat.succ_eq_add_one, Nat.add_sub_cancel_left, List.drop_eq_getElem_cons hi,
        List.take_succ_cons, List.take_zero] at htake
    rw [removeByIndexForwardLoop, List.drop_eq_getElem_cons hi, keepForward]
    split_ifs with hkept hlast
    · subst hlast
      have hall : (xs.drop (i + 1)).take (xs.length - (i + 1)) = xs.drop (i + 1) :=
        List.take_of_length_le (List.length_drop).le
      dsimp only
      rw [take_moveRange (by omega) (by omega) le_rfl, hmoved, hrest, hlen, hall, keepForward,
        List.append_assoc]
      rfl
    · rw [ih hlast (by omega) (by omega), hmoved, hrest, List.append_assoc]
      rfl
    · exact ih hidxs (by omega) (by omega)

/-- At most one element is lost for each index. -/
theorem length_le_keepForward (idxs : List ℕ) (currIdx : ℕ) (rest : List α) :
    rest.length ≤ (keepForward idxs currIdx rest).length + idxs.length ∧
      ∀ idx ∈ idxs.head?, currIdx ≠ idx →
        rest.length < (keepForward idxs currIdx rest).length + idxs.length := by
  fun_induction keepForward idxs currIdx rest with
  | case1 => simp
  | case2 => simp
  | case3 currIdx idx idxs x rest hkept ih =>
    have hle := ih.1
    simp only [List.length_cons, List.head?_cons, Option.mem_some_iff, forall_eq']
    omega
  | case4 currIdx idx idxs x rest hskipped ih =>
    rw [not_not] at hskipped
    subst hskipped
    have hlt := ih.2 _ rfl (Nat.succ_ne_self _)
    simp only [List.length_cons, List.head?_cons, Option.mem_some_iff, forall_eq'] at hlt ⊢
    exact ⟨by omega, fun h => absurd rfl h⟩

/-- An element is lost for each index only if these are two apart. -/
theorem isChain_of_length_keepForward {idxs : List ℕ} {idx : ℕ} {rest : List α}
    (h : (keepForward (idx :: idxs) idx rest).length + (idxs.length + 1) = rest.length) :
    (idx :: idxs).IsChain fun i j => j = i + 2 := by
  induction idxs generalizing idx rest with
  | nil => exact List.IsChain.singleton idx
  | cons next idxs ih =>
    rw [List.isChain_cons_cons]
    rcases rest with _ | ⟨x, rest⟩
    · simp at h
    rw [keepForward, if_neg (not_not.2 rfl)] at h
    rcases rest with _ | ⟨y, rest⟩
    · rw [keepForward, List.length_nil, List.length_cons, List.length_cons, List.length_nil] at h
      omega
    rw [keepForward, if_pos (Nat.succ_ne_self idx), Nat.add_assoc idx] at h
    simp only [List.length_cons, Nat.reduceAdd] at h
    have hnext : next = idx + 2 := by
      by_contra hne
      have hlt := (length_le_keepForward (next :: idxs) (idx + 2) rest).2 next rfl (Ne.symm hne)
      rw [List.length_cons] at hlt
      omega
    subst hnext
    have hcount : (keepForward ((idx + 2) :: idxs) (idx + 2) rest).length + (idxs.length + 1) =
        rest.length := by omega
    exact ⟨rfl, ih hcount⟩

/-- The elements that are not at one of the positions, where the positions count from a number on. -/
def keepFrom (idxs : List ℕ) (start : ℕ) (xs : List α) : List α :=
  ((xs.zipIdx start).filter fun p => p.2 ∉ idxs).map Prod.fst

theorem keepFrom_cons (idxs : List ℕ) (start : ℕ) (x : α) (xs : List α) : keepFrom idxs start (x :: xs) =
    if start ∈ idxs then keepFrom idxs (start + 1) xs else x :: keepFrom idxs (start + 1) xs := by
  rw [keepFrom, List.zipIdx_cons]
  split_ifs with hmem <;> simp [keepFrom, hmem]

/-- Indices before the start do not matter. -/
theorem keepFrom_cons_of_lt {idxs : List ℕ} {idx start : ℕ} (hlt : idx < start) (xs : List α) :
    keepFrom (idx :: idxs) start xs = keepFrom idxs start xs := by
  rw [keepFrom, keepFrom]
  congr 1
  refine List.filter_congr fun p hp => ?_
  have hle := List.le_snd_of_mem_zipIdx hp
  have hne : p.2 ≠ idx := by omega
  simp [hne]

theorem keepFrom_nil (start : ℕ) (xs : List α) : keepFrom [] start xs = xs := by
  rw [keepFrom, List.filter_eq_self.2 (by simp), List.zipIdx_map_fst]

/-- Indices that are two apart: each of them is followed by an element that stays. -/
theorem keepForward_eq_keepFrom {idxs : List ℕ} {idx : ℕ} (rest : List α)
    (h : (idx :: idxs).IsChain fun i j => j = i + 2) :
    keepForward (idx :: idxs) idx rest = keepFrom (idx :: idxs) idx rest := by
  induction idxs generalizing idx rest with
  | nil =>
    rcases rest with _ | ⟨x, _ | ⟨y, rest⟩⟩
    · rfl
    · simp [keepForward, keepFrom]
    · rw [keepForward, if_neg (not_not.2 rfl), keepForward, if_pos (Nat.succ_ne_self idx), keepForward,
        keepFrom_cons, if_pos List.mem_cons_self, keepFrom_cons_of_lt idx.lt_succ_self, keepFrom_nil]
  | cons next idxs ih =>
    obtain ⟨rfl, htail⟩ := List.isChain_cons_cons.1 h
    rcases rest with _ | ⟨x, _ | ⟨y, rest⟩⟩
    · rfl
    · simp [keepForward, keepFrom]
    · have hnot : idx + 1 ∉ (idx + 2) :: idxs := by
        intro hmem
        have hlt : ∀ j ∈ (idx + 2) :: idxs, idx + 2 ≤ j := by
          have hpair := (List.isChain_iff_pairwise (R := (· ≤ ·))).1
            (htail.imp fun i j (hij : j = i + 2) => by omega)
          exact List.forall_mem_cons.2 ⟨le_rfl, (List.pairwise_cons.1 hpair).1⟩
        have := hlt _ hmem
        omega
      rw [keepForward, if_neg (not_not.2 rfl), keepForward, if_pos (Nat.succ_ne_self idx), ih rest htail,
        keepFrom_cons, if_pos List.mem_cons_self, keepFrom_cons_of_lt idx.lt_succ_self, keepFrom_cons,
        if_neg hnot]

/-- One element is lost for each index. -/
theorem length_keep {idxs : List ℕ} {xs : List α} (hnodup : idxs.Nodup)
    (hbounds : ∀ i ∈ idxs, i < xs.length) : (keep idxs xs).length + idxs.length = xs.length := by
  have hremoved : ((List.range' 0 xs.length).filter (· ∈ idxs)).Perm idxs := by
    refine (List.perm_ext_iff_of_nodup ((List.nodup_range').filter _) hnodup).2 fun i => ?_
    rw [List.mem_filter, List.mem_range'_1, decide_eq_true_iff, and_iff_right_of_imp]
    exact fun hi => ⟨Nat.zero_le i, (Nat.zero_add xs.length).symm ▸ hbounds i hi⟩
  have hmap : (xs.zipIdx.filter fun p => p.2 ∈ idxs).length = idxs.length := by
    rw [← hremoved.length_eq, ← List.zipIdx_map_snd, List.filter_map, List.length_map]
    rfl
  have hsplit := List.length_eq_countP_add_countP (fun p : α × ℕ => decide (p.2 ∈ idxs)) (l := xs.zipIdx)
  rw [List.length_zipIdx, List.countP_eq_length_filter, List.countP_eq_length_filter, hmap] at hsplit
  rw [keep, List.length_map, hsplit, Nat.add_comm]
  simp only [decide_not, decide_eq_true_eq]

/-- The positions before the first index are kept. -/
theorem keep_eq_take_append {idxs : List ℕ} {idx : ℕ} {xs : List α} (hlt : idx ≤ xs.length)
    (hfirst : ∀ i ∈ idxs, idx ≤ i) : keep idxs xs = xs.take idx ++ keepFrom idxs idx (xs.drop idx) := by
  have hbefore : keepFrom idxs 0 (xs.take idx) = xs.take idx := by
    rw [keepFrom, List.filter_eq_self.2, List.zipIdx_map_fst]
    intro p hp
    have hp' := List.mem_zipIdx hp
    rw [List.length_take] at hp'
    rw [decide_eq_true_iff]
    intro hmem
    have hle := hfirst p.2 hmem
    omega
  have hlen : (xs.take idx).length = idx := List.length_take_of_le hlt
  calc keep idxs xs = keepFrom idxs 0 (xs.take idx ++ xs.drop idx) := by
        rw [List.take_append_drop, keep, keepFrom]
    _ = keepFrom idxs 0 (xs.take idx) ++ keepFrom idxs idx (xs.drop idx) := by
        rw [keepFrom, List.zipIdx_append, List.filter_append, List.map_append, hlen, Nat.zero_add]
        rfl
    _ = xs.take idx ++ keepFrom idxs idx (xs.drop idx) := by rw [hbefore]

/-- The branch for other iterators is right if and only if consecutive positions are two apart. -/
theorem take_removeByIndexForward_iff {xs : List α} {idxs : List ℕ} (hsorted : idxs.Pairwise (· < ·))
    (hbounds : ∀ i ∈ idxs, i < xs.length) :
    (removeByIndexForward xs idxs).1.take (removeByIndexForward xs idxs).2 = keep idxs xs ↔
      idxs.IsChain fun i j => j = i + 2 := by
  rcases idxs with _ | ⟨idx, idxs⟩
  · refine iff_of_true ?_ .nil
    rw [removeByIndexForward, List.take_length, keep, List.filter_eq_self.mpr (by simp),
      List.zipIdx_map_fst]
  · have hlt := hbounds idx List.mem_cons_self
    have hfirst : ∀ i ∈ idx :: idxs, idx ≤ i :=
      List.forall_mem_cons.2 ⟨le_rfl, fun i hi => ((List.pairwise_cons.1 hsorted).1 i hi).le⟩
    have hne : xs ≠ [] := fun h => by simp [h] at hlt
    rw [removeByIndexForward, if_neg hne, if_neg hlt.ne,
      take_removeByIndexForwardLoop (List.cons_ne_nil _ _) (by omega) le_rfl]
    constructor
    · intro h
      have hlen := length_keep (hsorted.imp ne_of_lt) hbounds
      rw [← h, List.length_append, List.length_take, Nat.min_eq_left hlt.le] at hlen
      have hcount : (keepForward (idx :: idxs) idx (xs.drop idx)).length + (idxs.length + 1) =
          (xs.drop idx).length := by
        rw [List.length_cons] at hlen
        rw [List.length_drop]
        omega
      exact isChain_of_length_keepForward hcount
    · intro h
      rw [keep_eq_take_append hlt.le hfirst, keepForward_eq_keepFrom _ h]

/-- Both branches remove exactly the elements at the listed positions if and only if consecutive positions
are two apart. -/
theorem removeByIndex_iff {xs : List α} {idxs : List ℕ} (hsorted : idxs.Pairwise (· < ·))
    (hbounds : ∀ i ∈ idxs, i < xs.length) :
    (removeByIndex xs idxs).1.take (removeByIndex xs idxs).2 = keep idxs xs ∧
        (removeByIndexForward xs idxs).1.take (removeByIndexForward xs idxs).2 = keep idxs xs ↔
      idxs.IsChain fun i j => j = i + 2 := by
  rw [take_removeByIndexForward_iff hsorted hbounds]
  exact and_iff_right (take_removeByIndex hsorted hbounds)

/-- Every second one of five elements. -/
theorem removeByIndex_iff_five :
    (removeByIndexForward [1, 2, 3, 4, 5] [0, 2, 4]).1.take
      (removeByIndexForward [1, 2, 3, 4, 5] [0, 2, 4]).2 = keep [0, 2, 4] [1, 2, 3, 4, 5] :=
  ((removeByIndex_iff (by decide) (by decide)).2 (by decide)).2

/-- The first two of three elements: the second one stays. -/
theorem removeByIndexForward_adjacent :
    ([0, 1] : List ℕ).Pairwise (· < ·) ∧ (∀ i ∈ [0, 1], i < [1, 2, 3].length) ∧
      (removeByIndexForward [1, 2, 3] [0, 1]).1.take (removeByIndexForward [1, 2, 3] [0, 1]).2 = [2, 3] ∧
      keep [0, 1] [1, 2, 3] = [3] := by
  decide

end RemoveByIndex

end Phasar.Utilities
