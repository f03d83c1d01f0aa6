import Mathlib.Data.Finset.Powerset
import Mathlib.Data.Finset.Sort
import Mathlib.Tactic.Common

/-!
# The subsets of a set

`computePowerSet` builds the subset of each bit mask, and inserts what it has so far after each bit.

* `computePowerSet`: the shifts of the `int` `1`, and the loops over masks and bits;
* `mem_computePowerSet_iff`: the subsets of a set with fewer than 31 elements are found unless it is empty.
-/

namespace Phasar.Utilities

/-- `1 << n` for an `int`, as it is converted to `std::size_t`. -/
def oneShl (n : ℕ) : BitVec 64 := (1#32 <<< n).signExtend 64

theorem oneShl_eq {n : ℕ} (h : n < 31) : oneShl n = BitVec.twoPow 64 n := by
  have hlt : 2 ^ n < 2 ^ 31 := Nat.pow_lt_pow_right (by decide) h
  have htoNat : (BitVec.twoPow 32 n).toNat = 2 ^ n := BitVec.toNat_twoPow_of_lt (by omega)
  have hmsb : (BitVec.twoPow 32 n).msb = false := by
    rw [BitVec.msb_eq_false_iff_two_mul_lt, htoNat]
    omega
  rw [oneShl, ← BitVec.twoPow, BitVec.signExtend_eq_setWidth_of_msb_false hmsb]
  refine BitVec.eq_of_toNat_eq ?_
  rw [BitVec.toNat_setWidth, htoNat, BitVec.toNat_twoPow]

theorem toNat_oneShl {n : ℕ} (h : n < 31) : (oneShl n).toNat = 2 ^ n := by
  rw [oneShl_eq h, BitVec.toNat_twoPow_of_lt (by omega)]

/-- The bit of a mask. -/
theorem and_oneShl_pos {I : BitVec 64} {J : ℕ} (hJ : J < 31) : 0#64 < I &&& oneShl J ↔ I.getLsbD J = true := by
  rw [oneShl_eq hJ, BitVec.and_twoPow]
  split_ifs with hbit
  · refine iff_of_true ?_ hbit
    rw [BitVec.lt_def, BitVec.toNat_twoPow_of_lt (by omega)]
    exact Nat.two_pow_pos J
  · exact iff_of_false (Nat.lt_irrefl 0) hbit

section PowerSet

variable {T : Type*} [DecidableEq T]

/-- The loop over the elements with their positions `J`: `Subset` and `Powerset`. -/
def subsetLoop (I : BitVec 64) : List (T × ℕ) → Finset T × Finset (Finset T) → Finset T × Finset (Finset T)
  | [], s => s
  | (x, J) :: rest, (Subset, Powerset) =>
    let Subset := if 0#64 < I &&& oneShl J then insert x Subset else Subset
    subsetLoop I rest (Subset, insert Subset Powerset)

/-- The loop over the masks. -/
def maskLoop (elems : List (T × ℕ)) : List ℕ → Finset (Finset T) → Finset (Finset T)
  | [], Powerset => Powerset
  | I :: masks, Powerset =>
    maskLoop elems masks (subsetLoop (BitVec.ofNat 64 I) elems (∅, Powerset)).2

variable {I : BitVec 64} {elems : List (T × ℕ)} {masks : List ℕ} {Subset S A : Finset T}
  {Powerset : Finset (Finset T)} {x : T}

/-- The elements of the set bits are added. -/
theorem mem_subsetLoop_fst : x ∈ (subsetLoop I elems (Subset, Powerset)).1 ↔
    x ∈ Subset ∨ ∃ J, (x, J) ∈ elems ∧ 0#64 < I &&& oneShl J := by
  induction elems generalizing Subset Powerset with
  | nil => simp [subsetLoop]
  | cons p elems ih =>
    obtain ⟨y, K⟩ := p
    rw [subsetLoop, ih]
    simp only [List.mem_cons, Prod.mk.injEq, or_and_right, exists_or]
    split_ifs with hbit
    · rw [Finset.mem_insert, or_comm (a := x = y), or_assoc]
      refine or_congr_right (or_congr_left ⟨fun h => ⟨K, ⟨h, rfl⟩, hbit⟩, ?_⟩)
      rintro ⟨J, ⟨h, -⟩, -⟩
      exact h
    · refine or_congr_right (iff_or_self.2 ?_)
      rintro ⟨J, ⟨-, rfl⟩, hbit'⟩
      exact absurd hbit' hbit

theorem subset_subsetLoop_snd : Powerset ⊆ (subsetLoop I elems (Subset, Powerset)).2 := by
  induction elems generalizing Subset Powerset with
  | nil => exact Finset.Subset.refl _
  | cons p elems ih => exact (Finset.subset_insert _ _).trans ih

/-- The subset is inserted after the last bit, if there is one. -/
theorem subsetLoop_fst_mem_snd (hne : elems ≠ []) : (subsetLoop I elems (Subset, Powerset)).1 ∈
    (subsetLoop I elems (Subset, Powerset)).2 := by
  induction elems generalizing Subset Powerset with
  | nil => exact absurd rfl hne
  | cons p elems ih =>
    rcases elems with _ | ⟨q, elems⟩
    · exact Finset.mem_insert_self _ _
    · exact ih (List.cons_ne_nil q elems)

/-- What is inserted on the way has elements of the set only. -/
theorem subsetLoop_snd_subset (hSubset : Subset ⊆ S) (helems : ∀ p ∈ elems, p.1 ∈ S)
    (hPowerset : Powerset ⊆ S.powerset) : (subsetLoop I elems (Subset, Powerset)).2 ⊆ S.powerset := by
  induction elems generalizing Subset Powerset with
  | nil => exact hPowerset
  | cons p elems ih =>
    obtain ⟨hp, helems⟩ := List.forall_mem_cons.1 helems
    have hSubset' : (if 0#64 < I &&& oneShl p.2 then insert p.1 Subset else Subset) ⊆ S := by
      split_ifs
      · exact Finset.insert_subset hp hSubset
      · exact hSubset
    exact ih hSubset' helems (Finset.insert_subset (Finset.mem_powerset.2 hSubset') hPowerset)

theorem subset_maskLoop : Powerset ⊆ maskLoop elems masks Powerset := by
  induction masks generalizing Powerset with
  | nil => exact Finset.Subset.refl _
  | cons I masks ih => exact subset_subsetLoop_snd.trans ih

theorem maskLoop_subset (helems : ∀ p ∈ elems, p.1 ∈ S) (hPowerset : Powerset ⊆ S.powerset) :
    maskLoop elems masks Powerset ⊆ S.powerset := by
  induction masks generalizing Powerset with
  | nil => exact hPowerset
  | cons I masks ih => exact ih (subsetLoop_snd_subset (Finset.empty_subset S) helems hPowerset)

/-- The subset of each mask is found. -/
theorem subsetLoop_mem_maskLoop (hne : elems ≠ []) {I : ℕ} (hI : I ∈ masks) :
    (subsetLoop (BitVec.ofNat 64 I) elems (∅, ∅)).1 ∈ maskLoop elems masks Powerset := by
  induction masks generalizing Powerset with
  | nil => exact absurd hI List.not_mem_nil
  | cons K masks ih =>
    rcases List.mem_cons.1 hI with rfl | hI
    · have hmem : (subsetLoop (BitVec.ofNat 64 I) elems (∅, Powerset)).1 ∈
          (subsetLoop (BitVec.ofNat 64 I) elems (∅, Powerset)).2 := subsetLoop_fst_mem_snd hne
      have hfst : (subsetLoop (BitVec.ofNat 64 I) elems (∅, Powerset)).1 =
          (subsetLoop (BitVec.ofNat 64 I) elems (∅, ∅)).1 := by
        ext x
        rw [mem_subsetLoop_fst, mem_subsetLoop_fst]
      rw [maskLoop, ← hfst]
      exact subset_maskLoop hmem
    · exact ih hI

end PowerSet

section Sorted

variable {T : Type*} [LinearOrder T] {S A : Finset T}

/-- The elements in their order, with their positions. -/
def positions (S : Finset T) : List (T × ℕ) := (S.sort (· ≤ ·)).zipIdx

/-- `computePowerSet`. -/
def computePowerSet (S : Finset T) : Finset (Finset T) :=
  maskLoop (positions S) (List.range (oneShl S.card).toNat) ∅

theorem lt_card_of_mem_positions {p : T × ℕ} (hp : p ∈ positions S) : p.1 ∈ S ∧ p.2 < S.card := by
  obtain ⟨hlt, hget⟩ := List.getElem?_eq_some_iff.1 (List.mem_zipIdx_iff_getElem?.1 hp)
  refine ⟨(Finset.mem_sort (· ≤ ·)).1 (hget ▸ List.getElem_mem hlt), ?_⟩
  rwa [Finset.length_sort] at hlt

theorem exists_mem_positions {x : T} (hx : x ∈ S) : ∃ J, (x, J) ∈ positions S := by
  obtain ⟨J, hJ⟩ := List.mem_iff_getElem?.1 ((Finset.mem_sort (· ≤ ·)).2 hx)
  exact ⟨J, List.mem_zipIdx_iff_getElem?.2 hJ⟩

/-- Some mask has the bits of the elements of a subset. -/
theorem exists_mask (hS : S.card < 31) (hA : A ⊆ S) :
    ∃ I < 2 ^ S.card, (subsetLoop (BitVec.ofNat 64 I) (positions S) (∅, ∅)).1 = A := by
  let bit (J : Fin S.card) : Bool := ∃ x ∈ A, (x, J.val) ∈ positions S
  refine ⟨Nat.ofBits bit, Nat.ofBits_lt_two_pow bit, ?_⟩
  have hbit : ∀ x J, (x, J) ∈ positions S →
      (0#64 < BitVec.ofNat 64 (Nat.ofBits bit) &&& oneShl J ↔ x ∈ A) := by
    intro x J hx
    have hJ := (lt_card_of_mem_positions hx).2
    rw [and_oneShl_pos (by omega), BitVec.getLsbD_ofNat, Nat.testBit_ofBits_lt bit J hJ,
      Bool.and_eq_true, decide_eq_true_iff, decide_eq_true_iff]
    constructor
    · rintro ⟨-, y, hy, hyJ⟩
      rw [positions, List.mem_zipIdx_iff_getElem?] at hx hyJ
      obtain rfl : y = x := Option.some.inj (hyJ.symm.trans hx)
      exact hy
    · exact fun hxA => ⟨by omega, x, hxA, hx⟩
  ext x
  rw [mem_subsetLoop_fst]
  constructor
  · rintro (hx | ⟨J, hJ, hpos⟩)
    · exact absurd hx (Finset.notMem_empty x)
    · exact (hbit x J hJ).1 hpos
  · intro hx
    obtain ⟨J, hJ⟩ := exists_mem_positions (hA hx)
    exact Or.inr ⟨J, hJ, (hbit x J hJ).2 hx⟩

/-- For the empty set there is one mask, and no bit after which its subset is inserted. -/
theorem computePowerSet_of_empty : computePowerSet (∅ : Finset T) = ∅ := by
  rw [computePowerSet, positions, Finset.sort_empty, Finset.card_empty, toNat_oneShl (by decide)]
  rfl

/-- The subsets of a set with fewer than 31 elements are found if and only if it is not empty. -/
theorem mem_computePowerSet_iff (hS : S.card < 31) :
    (∀ A, A ∈ computePowerSet S ↔ A ⊆ S) ↔ S.Nonempty := by
  constructor
  · intro h
    by_contra hempty
    rw [Finset.not_nonempty_iff_eq_empty] at hempty
    subst hempty
    have hmem := (h ∅).2 (Finset.Subset.refl ∅)
    rw [computePowerSet_of_empty] at hmem
    exact absurd hmem (Finset.notMem_empty _)
  · intro hne A
    constructor
    · intro hA
      exact Finset.mem_powerset.1 (maskLoop_subset (fun p hp => (lt_card_of_mem_positions hp).1)
        (Finset.empty_subset _) hA)
    · intro hA
      obtain ⟨I, hI, rfl⟩ := exists_mask hS hA
      obtain ⟨x, hx⟩ := hne
      obtain ⟨J, hJ⟩ := exists_mem_positions hx
      refine subsetLoop_mem_maskLoop (List.ne_nil_of_mem hJ) ?_
      rw [toNat_oneShl hS]
      exact List.mem_range.2 hI

/-- The subsets of two numbers. -/
theorem mem_computePowerSet_pair : {2} ∈ computePowerSet ({1, 2} : Finset ℕ) :=
  ((mem_computePowerSet_iff (by decide)).2 ⟨1, by decide⟩ {2}).2 (by decide)

/-- The empty set is its own subset, but none is found. -/
theorem computePowerSet_empty :
    (∅ : Finset ℕ).card < 31 ∧ ¬∀ A : Finset ℕ, A ∈ computePowerSet ∅ ↔ A ⊆ ∅ := by
  refine ⟨by decide, fun h => ?_⟩
  have hmem := (h ∅).2 (Finset.Subset.refl ∅)
  rw [computePowerSet_of_empty] at hmem
  exact Finset.notMem_empty _ hmem

end Sorted

end Phasar.Utilities
