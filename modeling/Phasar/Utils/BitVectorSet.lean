import Mathlib.Combinatorics.Colex
import Mathlib.Data.List.GetD
import Mathlib.Data.List.Nodup
import Mathlib.Tactic.Common

/-!
# Sets of values as bit vectors

A `BitVectorSet` keeps the bits of its elements, whose positions are shared by all sets of one
element type. The vectors of two sets may differ in length.

`operator<` is meant to compare the sets by their highest difference, which is the colexicographic
order. It overlooks an element of the longer vector right behind the end of the shorter one.

The hash code is meant to belong to the elements as well. It tells a vector of length zero from one
whose bits are all cleared.

* `isLess`, `eq`; `setUnion`, `insert`, `erase`, `clear`, `setUnionWith`, `setIntersectWith`;
* `Misordered`: the pairs of sets that are each less than the other;
* `strictTotalOrder_iff`: a family of sets is ordered if and only if it has no such pair;
* `hash_value`, and `hash_value_eq_iff`: when equal sets have equal hash codes.
-/

namespace Phasar

/-! ### Bit vectors -/

namespace BitVector

/-- `operator[]`, false behind the end. -/
def test (bits : List Bool) (i : ℕ) : Bool := bits.getD i false

/-- The first set bit from `Begin` up to `End`. -/
def findFirstIn (bits : List Bool) (Begin End : ℕ) : Option ℕ :=
  (List.range' Begin (End - Begin)).find? (test bits)

/-- The first set bit strictly after `Prev`. -/
def findNext (bits : List Bool) (Prev : ℕ) : Option ℕ := findFirstIn bits (Prev + 1) bits.length

def resize (bits : List Bool) (N : ℕ) : List Bool :=
  bits.take N ++ List.replicate (N - bits.length) false

/-- `operator|=`, which resizes. -/
def orBits (bits rhs : List Bool) : List Bool :=
  (List.range (max bits.length rhs.length)).map fun i => test bits i || test rhs i

/-- `operator&=`, which keeps the length. -/
def andBits (bits rhs : List Bool) : List Bool :=
  (List.range bits.length).map fun i => test bits i && test rhs i

/-- `none`: no bit is set. -/
def none (bits : List Bool) : Bool := bits.all (! ·)

/-- The bits of a word, false behind the end. -/
def word (bits : List Bool) (w : ℕ) : List Bool := (List.range 64).map fun j => test bits (64 * w + j)

def numWords (bits : List Bool) : ℕ := (bits.length + 63) / 64

/-- `getData`: the words of the vector, the unused bits of the last one cleared. -/
def getWords (bits : List Bool) : List (List Bool) := (List.range (numWords bits)).map (word bits)

/-- The positions of the set bits. -/
def elems (bits : List Bool) : Finset ℕ := (Finset.range bits.length).filter fun i => test bits i

variable {bits : List Bool} {i n : ℕ}

theorem lt_of_test (h : test bits i = true) : i < bits.length := by
  by_contra hlt
  rw [test, List.getD_eq_default _ _ (not_lt.1 hlt)] at h
  cases h

@[simp] theorem mem_elems : i ∈ elems bits ↔ test bits i = true := by
  rw [elems, Finset.mem_filter, Finset.mem_range]
  exact and_iff_right_of_imp lt_of_test

theorem test_map_range {f : ℕ → Bool} : test ((List.range n).map f) i = true ↔ i < n ∧ f i = true := by
  rw [test, List.getD_eq_getElem?_getD, List.getElem?_map]
  rcases lt_or_ge i n with hlt | hge
  · simp [hlt]
  · simp [hge]

theorem elems_orBits (bits rhs : List Bool) : elems (orBits bits rhs) = elems bits ∪ elems rhs := by
  ext i
  rw [mem_elems, orBits, test_map_range, Finset.mem_union, mem_elems, mem_elems, Bool.or_eq_true]
  refine and_iff_right_of_imp fun h => ?_
  rw [lt_max_iff]
  exact h.imp lt_of_test lt_of_test

/-- Every finite set of positions is that of a vector. -/
theorem exists_elems_eq (S : Finset ℕ) : ∃ bits, elems bits = S := by
  refine ⟨(List.range (S.sup id + 1)).map fun i => decide (i ∈ S), ?_⟩
  ext i
  rw [mem_elems, test_map_range, decide_eq_true_iff]
  exact and_iff_right_of_imp fun hi => Nat.lt_succ_of_le (Finset.le_sup (f := id) hi)

theorem findFirstIn_isSome {Begin End : ℕ} :
    (findFirstIn bits Begin End).isSome ↔ ∃ i ∈ elems bits, Begin ≤ i ∧ i < End := by
  rw [findFirstIn, List.find?_isSome]
  constructor
  · rintro ⟨i, hi, hbit⟩
    rw [List.mem_range'_1] at hi
    exact ⟨i, mem_elems.2 hbit, hi.1, by omega⟩
  · rintro ⟨i, hi, hbegin, hend⟩
    exact ⟨i, List.mem_range'_1.2 ⟨hbegin, by omega⟩, mem_elems.1 hi⟩

theorem findNext_isSome {Prev : ℕ} : (findNext bits Prev).isSome ↔ ∃ i ∈ elems bits, Prev < i := by
  rw [findNext, findFirstIn_isSome]
  constructor
  · rintro ⟨i, hi, hlt, -⟩
    exact ⟨i, hi, hlt⟩
  · rintro ⟨i, hi, hlt⟩
    exact ⟨i, hi, hlt, lt_of_test (mem_elems.1 hi)⟩

theorem none_iff : none bits = true ↔ elems bits = ∅ := by
  rw [none, List.all_eq_true, Finset.eq_empty_iff_forall_notMem]
  constructor
  · intro h i hi
    have hbit := mem_elems.1 hi
    have hlt := lt_of_test hbit
    rw [test, List.getD_eq_getElem _ _ hlt] at hbit
    simpa [hbit] using h _ (List.getElem_mem hlt)
  · intro h b hb
    obtain ⟨i, hlt, rfl⟩ := List.getElem_of_mem hb
    have hbit : test bits i = false := Bool.eq_false_iff.2 fun hbit => h i (mem_elems.2 hbit)
    rw [test, List.getD_eq_getElem _ _ hlt] at hbit
    rw [hbit]
    rfl

theorem test_of_word {v : List Bool} (h : word bits (i / 64) = word v (i / 64)) :
    test bits i = test v i := by
  have hbit := List.map_inj_left.1 h (i % 64) (List.mem_range.2 (Nat.mod_lt i (by decide)))
  rwa [Nat.div_add_mod] at hbit

theorem elems_eq_iff {v : List Bool} : elems bits = elems v ↔ ∀ w, word bits w = word v w := by
  constructor
  · intro h w
    refine List.map_inj_left.2 fun j _ => Bool.eq_iff_iff.2 ?_
    rw [← mem_elems, ← mem_elems, h]
  · intro h
    ext i
    rw [mem_elems, mem_elems, test_of_word (h (i / 64))]

theorem word_of_numWords_le {w : ℕ} (h : numWords bits ≤ w) : word bits w = word [] w := by
  refine List.map_inj_left.2 fun j _ => ?_
  have hlen : bits.length ≤ 64 * w + j := by
    rw [numWords] at h
    omega
  rw [test, List.getD_eq_default _ _ hlen]
  rfl

theorem word_all_iff {w : ℕ} : (word bits w).all (! ·) = true ↔ word bits w = word [] w := by
  rw [List.all_eq_true, word, word, List.map_inj_left]
  simp [test]

theorem take_getWords (h : n ≤ numWords bits) :
    (getWords bits).take n = (List.range n).map (word bits) := by
  rw [getWords, ← List.map_take, List.take_range, min_eq_left h]

theorem all_drop_getWords :
    ((getWords bits).drop n).all (fun Word => Word.all (! ·)) = true ↔
      ∀ w, n ≤ w → word bits w = word [] w := by
  rw [getWords, ← List.map_drop, List.range_eq_range', List.drop_range', List.all_eq_true]
  constructor
  · intro h w hw
    rcases lt_or_ge w (numWords bits) with hlt | hge
    · refine word_all_iff.1 (h _ (List.mem_map_of_mem (List.mem_range'_1.2 ?_)))
      omega
    · exact word_of_numWords_le hge
  · intro h x hx
    obtain ⟨w, hw, rfl⟩ := List.mem_map.1 hx
    rw [List.mem_range'_1] at hw
    exact word_all_iff.2 (h w (by omega))

end BitVector

open BitVector

/-! ### Sets -/

/-- A set by its bits. The positions of the values are kept beside. -/
structure BitVectorSet where
  Bits : List Bool := []
  deriving DecidableEq

namespace BitVectorSet

/-- The loop of `isLess` over the bits that both vectors have, from the highest one down. -/
def compareBits (Lhs Rhs : List Bool) : ℕ → Bool
  | 0 => false
  | I + 1 => if test Lhs I ≠ test Rhs I then test Rhs I else compareBits Lhs Rhs I

def isLess (Lhs Rhs : List Bool) : Bool :=
  -- `find_next` starts behind the bit it is given, `find_first_in` at it
  if Rhs.length < Lhs.length ∧ (findNext Lhs Rhs.length).isSome then false
  else if Lhs.length < Rhs.length ∧ (findFirstIn Rhs Lhs.length Rhs.length).isSome then true
  else compareBits Lhs Rhs (min Lhs.length Rhs.length)

/-- `operator<`. -/
def lt (Lhs Rhs : BitVectorSet) : Bool := isLess Lhs.Bits Rhs.Bits

/-- Two sets by their words, and whether they are empty. -/
def eqWords (LeftEmpty RightEmpty : Bool) (LhsWords RhsWords : List (List Bool)) : Bool :=
  if LeftEmpty || RightEmpty then LeftEmpty == RightEmpty
  else if LhsWords.length = RhsWords.length then LhsWords == RhsWords
  else
    let MinSize := min LhsWords.length RhsWords.length
    if LhsWords.take MinSize ≠ RhsWords.take MinSize then false
    else
      ((if LhsWords.length > RhsWords.length then LhsWords else RhsWords).drop MinSize).all
        fun Word => Word.all (! ·)

/-- `operator==`. -/
def eq (Lhs Rhs : BitVectorSet) : Bool :=
  eqWords (none Lhs.Bits) (none Rhs.Bits) (getWords Lhs.Bits) (getWords Rhs.Bits)

def setUnionWith (this Other : BitVectorSet) : BitVectorSet := ⟨orBits this.Bits Other.Bits⟩

def setIntersectWith (this Other : BitVectorSet) : BitVectorSet := ⟨andBits this.Bits Other.Bits⟩

def setUnion (this Other : BitVectorSet) : BitVectorSet :=
  let ThisSetIsSmaller := this.Bits.length < Other.Bits.length
  let Res := if ThisSetIsSmaller then Other else this
  let Smaller := if ThisSetIsSmaller then this else Other
  ⟨orBits Res.Bits Smaller.Bits⟩

section Position

variable {T : Type*} [DecidableEq T]

/-- `Compressor::getOrNull`: the position of a value among those that have one. -/
def getOrNull (Position : List T) (Data : T) : Option ℕ :=
  if Data ∈ Position then some (Position.idxOf Data) else Option.none

/-- `Compressor::getOrInsert`. -/
def getOrInsert (Position : List T) (Data : T) : ℕ × List T :=
  if Data ∈ Position then (Position.idxOf Data, Position)
  else (Position.length, Position ++ [Data])

/-- `insert`, with the positions after it. -/
def insert (s : BitVectorSet) (Data : T) (Position : List T) : BitVectorSet × List T :=
  let r := getOrInsert Position Data
  let Bits := if r.1 ≥ s.Bits.length then resize s.Bits (r.1 + 1) else s.Bits
  (⟨Bits.set r.1 true⟩, r.2)

def erase (s : BitVectorSet) (Data : T) (Position : List T) : BitVectorSet :=
  match getOrNull Position Data with
  -- the vector keeps its length
  | some Idx => if Idx < s.Bits.length then ⟨s.Bits.set Idx false⟩ else s
  | Option.none => s

def clear (_ : BitVectorSet) : BitVectorSet := ⟨resize [] 0⟩

end Position

/-- The positions of the elements. -/
def elems (s : BitVectorSet) : Finset ℕ := BitVector.elems s.Bits

variable {A B C : BitVectorSet}

/-! ### The elements -/

theorem test_set {bits : List Bool} {i k : ℕ} {b : Bool} (hi : i < bits.length) :
    test (bits.set i b) k = if k = i then b else test bits k := by
  rw [test, List.getD_eq_getElem?_getD, List.getElem?_set, test, List.getD_eq_getElem?_getD]
  by_cases hk : k = i
  · simp [hk, hi]
  · rw [if_neg (Ne.symm hk), if_neg hk]

theorem test_resize {bits : List Bool} {k N : ℕ} (hN : bits.length ≤ N) :
    test (resize bits N) k = test bits k := by
  rw [resize, List.take_of_length_le hN, test, test]
  rcases lt_or_ge k bits.length with hk | hk
  · rw [List.getD_append _ _ _ _ hk]
  · rw [List.getD_append_right _ _ _ _ hk, List.getD_eq_default _ _ hk]
    rw [List.getD_eq_getElem?_getD, List.getElem?_replicate]
    split_ifs <;> rfl

theorem elems_insert {T : Type*} [DecidableEq T] (s : BitVectorSet) (Data : T) (Position : List T) :
    (insert s Data Position).1.elems = Insert.insert (getOrInsert Position Data).1 s.elems := by
  ext k
  rw [elems, mem_elems, Finset.mem_insert, elems, mem_elems, insert]
  simp only []
  split_ifs with hge
  · have hlt : (getOrInsert Position Data).1 <
        (resize s.Bits ((getOrInsert Position Data).1 + 1)).length := by
      rw [resize, List.length_append, List.length_take, List.length_replicate]
      omega
    rw [test_set hlt, test_resize (by omega)]
    split_ifs with hk <;> simp [hk]
  · rw [test_set (not_le.1 hge)]
    split_ifs with hk <;> simp [hk]

theorem elems_erase {T : Type*} [DecidableEq T] (s : BitVectorSet) (Data : T) (Position : List T) :
    (erase s Data Position).elems =
      (getOrNull Position Data).elim s.elems fun Idx => s.elems.erase Idx := by
  rw [erase]
  cases getOrNull Position Data with
  | none => rfl
  | some Idx =>
    simp only [Option.elim_some]
    ext k
    split_ifs with hlt
    · rw [elems, mem_elems, test_set hlt, Finset.mem_erase, elems, mem_elems]
      split_ifs with hk <;> simp [hk]
    · rw [Finset.mem_erase, and_iff_right_of_imp]
      rintro hmem rfl
      exact hlt (lt_of_test (mem_elems.1 hmem))

theorem elems_setUnion (A B : BitVectorSet) : (A.setUnion B).elems = A.elems ∪ B.elems := by
  rw [setUnion, elems, elems, elems, elems_orBits]
  split_ifs
  · exact Finset.union_comm _ _
  · rfl

theorem elems_setUnionWith (A B : BitVectorSet) : (A.setUnionWith B).elems = A.elems ∪ B.elems :=
  elems_orBits A.Bits B.Bits

theorem elems_setIntersectWith (A B : BitVectorSet) :
    (A.setIntersectWith B).elems = A.elems ∩ B.elems := by
  ext i
  rw [elems, mem_elems, setIntersectWith, andBits, test_map_range, Finset.mem_inter, elems, mem_elems,
    elems, mem_elems, Bool.and_eq_true]
  exact and_iff_right_of_imp fun h => lt_of_test h.1

theorem elems_clear (s : BitVectorSet) : s.clear.elems = ∅ := rfl

/-! ### Equality -/

/-- Vectors of different lengths: the words that both have, and zeros behind. -/
theorem elems_eq_iff_words {a b : List Bool} (hle : numWords a ≤ numWords b) :
    BitVector.elems a = BitVector.elems b ↔
      (getWords a).take (numWords a) = (getWords b).take (numWords a) ∧
        ((getWords b).drop (numWords a)).all (fun Word => Word.all (! ·)) = true := by
  rw [elems_eq_iff, take_getWords le_rfl, take_getWords hle, List.map_inj_left, all_drop_getWords]
  constructor
  · intro h
    exact ⟨fun w _ => h w, fun w hw => (h w).symm.trans (word_of_numWords_le hw)⟩
  · rintro ⟨hcommon, hrest⟩ w
    rcases lt_or_ge w (numWords a) with hlt | hge
    · exact hcommon w (List.mem_range.2 hlt)
    · rw [hrest w hge, word_of_numWords_le hge]

theorem elems_eq_iff_getWords {a b : List Bool} (hlen : numWords a = numWords b) :
    BitVector.elems a = BitVector.elems b ↔ getWords a = getWords b := by
  have htake : ∀ v, (getWords v).take (numWords v) = getWords v := fun v => by
    rw [take_getWords le_rfl, getWords]
  have hdrop : ((getWords b).drop (numWords a)).all (fun Word => Word.all (! ·)) = true := by
    rw [hlen, all_drop_getWords]
    exact fun w hw => word_of_numWords_le hw
  rw [elems_eq_iff_words hlen.le, and_iff_left hdrop, htake a, hlen, htake b]

theorem eq_iff : eq A B = true ↔ A.elems = B.elems := by
  have hlength : ∀ v, (getWords v).length = numWords v := fun v => by simp [getWords]
  simp only [eq, eqWords, hlength]
  rw [elems, elems]
  split_ifs with hempty hlen htake hgt
  · -- one of the sets is empty
    rw [beq_iff_eq, Bool.eq_iff_iff, none_iff, none_iff]
    rw [Bool.or_eq_true, none_iff, none_iff] at hempty
    rcases hempty with h | h
    · simp [h, eq_comm]
    · simp [h]
  · rw [beq_iff_eq, elems_eq_iff_getWords hlen]
  · refine iff_of_false id fun h => htake ?_
    rcases le_total (numWords A.Bits) (numWords B.Bits) with hle | hle
    · rw [min_eq_left hle]
      exact ((elems_eq_iff_words hle).1 h).1
    · rw [min_eq_right hle]
      exact ((elems_eq_iff_words hle).1 h.symm).1.symm
  · rw [not_not, min_eq_right hgt.le] at htake
    rw [min_eq_right hgt.le, eq_comm (a := BitVector.elems _), elems_eq_iff_words hgt.le,
      and_iff_right htake.symm]
  · have hle := not_lt.1 hgt
    rw [not_not, min_eq_left hle] at htake
    rw [min_eq_left hle, elems_eq_iff_words hle, and_iff_right htake]

/-! ### The order -/

/-- The highest difference below `n`. -/
theorem compareBits_iff {a b : List Bool} {n : ℕ} : compareBits a b n = true ↔
    ∃ i < n, test a i = false ∧ test b i = true ∧ ∀ j, i < j → j < n → test a j = test b j := by
  induction n with
  | zero => simp [compareBits]
  | succ n ih =>
    rw [compareBits]
    split_ifs with hne
    · constructor
      · intro hb
        refine ⟨n, n.lt_succ_self, ?_, hb, fun j hj hj' => by omega⟩
        rw [hb] at hne
        exact Bool.eq_false_iff.2 hne
      · rintro ⟨i, hi, ha, hb, h⟩
        rcases Nat.lt_succ_iff_lt_or_eq.1 hi with hlt | rfl
        · exact absurd (h n hlt n.lt_succ_self) hne
        · exact hb
    -- the vectors agree at `n`, so the highest difference is below
    · rw [not_not] at hne
      rw [ih]
      constructor
      · rintro ⟨i, hi, ha, hb, h⟩
        refine ⟨i, hi.trans n.lt_succ_self, ha, hb, fun j hj hj' => ?_⟩
        rcases Nat.lt_succ_iff_lt_or_eq.1 hj' with hlt | rfl
        · exact h j hj hlt
        · exact hne
      · rintro ⟨i, hi, ha, hb, h⟩
        have hin : i ≠ n := by
          rintro rfl
          rw [ha, hb] at hne
          cases hne
        exact ⟨i, by omega, ha, hb, fun j hj hj' => h j hj (hj'.trans n.lt_succ_self)⟩

/-- The loop compares the elements below `n`. -/
theorem compareBits_iff_colex {a b : List Bool} {n : ℕ} : compareBits a b n = true ↔
    toColex ((BitVector.elems a).filter (· < n)) < toColex ((BitVector.elems b).filter (· < n)) := by
  rw [compareBits_iff, Finset.Colex.lt_iff_exists_filter_lt]
  constructor
  · rintro ⟨i, hi, ha, hb, h⟩
    refine ⟨i, by simp [ha, hb, hi], ?_⟩
    ext j
    simp only [Finset.mem_filter, mem_elems]
    constructor
    · rintro ⟨⟨hj, hjn⟩, hij⟩
      exact ⟨⟨h j hij hjn ▸ hj, hjn⟩, hij⟩
    · rintro ⟨⟨hj, hjn⟩, hij⟩
      exact ⟨⟨h j hij hjn ▸ hj, hjn⟩, hij⟩
  · rintro ⟨i, hi, h⟩
    simp only [Finset.mem_sdiff, Finset.mem_filter, mem_elems, not_and] at hi
    obtain ⟨⟨hb, hin⟩, ha⟩ := hi
    refine ⟨i, hin, Bool.eq_false_iff.2 fun hai => ha hai hin, hb, fun j hij hjn => ?_⟩
    have hj := congrArg (j ∈ ·) h
    simpa [hij, hjn, ← Bool.eq_iff_iff] using hj

theorem lt_length_of_mem {i : ℕ} (h : i ∈ A.elems) : i < A.Bits.length := lt_of_test (mem_elems.1 h)

/-- A set with an element behind all elements of another comes after it. -/
theorem colex_lt_of_mem {i : ℕ} (hi : i ∈ B.elems) (hle : A.Bits.length ≤ i) :
    toColex A.elems < toColex B.elems := by
  rw [Finset.Colex.toColex_lt_toColex_iff_exists_forall_lt]
  exact ⟨i, hi, fun h => (lt_length_of_mem h).not_ge hle, fun j hj _ => (lt_length_of_mem hj).trans_le hle⟩

theorem compareBits_of_forall_lt {n : ℕ} (ha : ∀ i ∈ A.elems, i < n) (hb : ∀ i ∈ B.elems, i < n) :
    compareBits A.Bits B.Bits n = true ↔ toColex A.elems < toColex B.elems := by
  rw [compareBits_iff_colex, ← elems, ← elems, Finset.filter_true_of_mem ha,
    Finset.filter_true_of_mem hb]

/-- The last element of `A` is right behind the end of `B`, and without it `A` comes before `B`. -/
def Misordered (A B : BitVectorSet) : Prop :=
  B.Bits.length ∈ A.elems ∧ (∀ i ∈ A.elems, i ≤ B.Bits.length) ∧
    toColex (A.elems.erase B.Bits.length) < toColex B.elems

theorem Misordered.colex_lt (h : Misordered A B) : toColex B.elems < toColex A.elems :=
  colex_lt_of_mem h.1 le_rfl

theorem lt_iff_of_length_le (hle : A.Bits.length ≤ B.Bits.length) :
    lt A B = true ↔ toColex A.elems < toColex B.elems := by
  rw [lt, isLess, if_neg (by omega), min_eq_left hle]
  split_ifs with hbehind
  · obtain ⟨i, hi, hge, -⟩ := findFirstIn_isSome.1 hbehind.2
    exact iff_of_true rfl (colex_lt_of_mem hi hge)
  -- no bit of `B` is set behind the end of `A`
  · refine compareBits_of_forall_lt (fun i hi => lt_length_of_mem hi) fun i hi => ?_
    by_contra hge
    have hlt := lt_length_of_mem hi
    exact hbehind ⟨by omega, findFirstIn_isSome.2 ⟨i, hi, not_lt.1 hge, hlt⟩⟩

theorem lt_iff_of_length_lt (hlt : B.Bits.length < A.Bits.length) :
    lt A B = true ↔ toColex A.elems < toColex B.elems ∨ Misordered A B := by
  rw [lt, isLess, min_eq_right hlt.le]
  split_ifs with hbehind hshorter
  · obtain ⟨i, hi, hgt⟩ := findNext_isSome.1 hbehind.2
    refine iff_of_false id ?_
    rintro (h | h)
    · exact lt_asymm h (colex_lt_of_mem hi hgt.le)
    · exact (h.2.1 i hi).not_gt hgt
  · exact absurd hshorter.1 hlt.not_gt
  · have hle : ∀ i ∈ A.elems, i ≤ B.Bits.length := fun i hi => by
      by_contra hgt
      exact hbehind ⟨hlt, findNext_isSome.2 ⟨i, hi, not_le.1 hgt⟩⟩
    by_cases hend : B.Bits.length ∈ A.elems
    · -- the bit right behind the end is not read
      have hbelow : A.elems.filter (· < B.Bits.length) = A.elems.erase B.Bits.length := by
        ext i
        rw [Finset.mem_filter, Finset.mem_erase, and_comm]
        exact and_congr_left fun hi => (hle i hi).lt_iff_ne
      rw [compareBits_iff_colex, ← elems, ← elems, hbelow,
        Finset.filter_true_of_mem fun i hi => lt_length_of_mem hi,
        or_iff_right (colex_lt_of_mem hend le_rfl).not_gt]
      exact ⟨fun h => ⟨hend, hle, h⟩, fun h => h.2.2⟩
    · rw [or_iff_left fun h => hend h.1]
      refine compareBits_of_forall_lt (fun i hi => (hle i hi).lt_of_ne ?_) fun i hi => lt_length_of_mem hi
      rintro rfl
      exact hend hi

/-- What `operator<` computes. -/
theorem lt_iff : lt A B = true ↔ toColex A.elems < toColex B.elems ∨ Misordered A B := by
  rcases le_or_gt A.Bits.length B.Bits.length with hle | hlt
  · rw [lt_iff_of_length_le hle, or_iff_left]
    rintro ⟨hend, -⟩
    exact (lt_length_of_mem hend).not_ge hle
  · exact lt_iff_of_length_lt hlt

/-- What a container with keys from `S` asks of `operator<`. -/
structure StrictTotalOrder (S : Set BitVectorSet) : Prop where
  irrefl : ∀ A ∈ S, lt A A = false
  asymm : ∀ A ∈ S, ∀ B ∈ S, lt A B = true → lt B A = false
  trans : ∀ A ∈ S, ∀ B ∈ S, ∀ C ∈ S, lt A B = true → lt B C = true → lt A C = true
  total : ∀ A ∈ S, ∀ B ∈ S, (lt A B = true ∨ lt B A = true) ↔ eq A B = false

/-- A family of sets is ordered by `operator<` if and only if none of them has its last element right
behind the end of another one that it comes before otherwise. -/
theorem strictTotalOrder_iff (S : Set BitVectorSet) :
    StrictTotalOrder S ↔ ∀ A ∈ S, ∀ B ∈ S, ¬Misordered A B := by
  constructor
  · intro h A hA B hB hmis
    have hBA : lt B A = true := lt_iff.2 (Or.inl hmis.colex_lt)
    rw [h.asymm A hA B hB (lt_iff.2 (Or.inr hmis))] at hBA
    cases hBA
  · intro h
    have hlt : ∀ A ∈ S, ∀ B ∈ S, lt A B = true ↔ toColex A.elems < toColex B.elems :=
      fun A hA B hB => by rw [lt_iff, or_iff_left (h A hA B hB)]
    refine ⟨fun A hA => ?_, fun A hA B hB hAB => ?_, fun A hA B hB C hC hAB hBC => ?_,
      fun A hA B hB => ?_⟩
    · rw [Bool.eq_false_iff, Ne, hlt A hA A hA]
      exact lt_irrefl _
    · rw [Bool.eq_false_iff, Ne, hlt B hB A hA]
      exact ((hlt A hA B hB).1 hAB).not_gt
    · exact (hlt A hA C hC).2 (((hlt A hA B hB).1 hAB).trans ((hlt B hB C hC).1 hBC))
    · rw [hlt A hA B hB, hlt B hB A hA, lt_or_lt_iff_ne, Bool.eq_false_iff]
      exact not_congr (toColex_inj.trans eq_iff.symm)

/-- The sets of the first and of the second of two values are each less than the other. -/
theorem not_strictTotalOrder_singletons :
    ¬StrictTotalOrder {(insert {} 'a' []).1, (insert {} 'b' (insert {} 'a' []).2).1} := by
  intro h
  have hlt := h.asymm _ (Or.inr rfl) _ (Or.inl rfl) (by decide)
  exact absurd hlt (by decide)

/-! ### Hash codes -/

/-- The loop of `hash_value`: the number of words without the zeros at the end. -/
def wordsEnd (Words : List (List Bool)) : ℕ → ℕ
  | 0 => 0
  | Idx + 1 => if (Words.getD Idx []).all (! ·) then wordsEnd Words Idx else Idx + 1

/-- `hash_value`, for some `llvm::hash_combine_range` on words. The default hash code is zero. -/
def hash_value (hash_combine_range : List (List Bool) → UInt64) (BV : BitVectorSet) : UInt64 :=
  if BV.Bits = [] then 0
  else hash_combine_range ((getWords BV.Bits).take (wordsEnd (getWords BV.Bits) (numWords BV.Bits)))

section Hash

variable {a b bits : List Bool} {n : ℕ}

theorem getD_getWords (h : n < numWords bits) : (getWords bits).getD n [] = word bits n := by
  rw [getWords, List.getD_eq_getElem?_getD, List.getElem?_map, List.getElem?_range h]
  rfl

theorem wordsEnd_le (Words : List (List Bool)) (n : ℕ) : wordsEnd Words n ≤ n := by
  induction n with
  | zero => exact le_rfl
  | succ n ih =>
    rw [wordsEnd]
    split_ifs
    · exact ih.trans n.le_succ
    · exact le_rfl

/-- The loop looks at the elements only. -/
theorem wordsEnd_congr (h : BitVector.elems a = BitVector.elems b) (ha : n ≤ numWords a)
    (hb : n ≤ numWords b) : wordsEnd (getWords a) n = wordsEnd (getWords b) n := by
  induction n with
  | zero => rfl
  | succ n ih =>
    rw [wordsEnd, wordsEnd, getD_getWords ha, getD_getWords hb, elems_eq_iff.1 h n,
      ih (n.le_succ.trans ha) (n.le_succ.trans hb)]

/-- The loop skips the words behind the end of a shorter vector. -/
theorem wordsEnd_of_le (h : BitVector.elems a = BitVector.elems b) (hle : numWords a ≤ n)
    (hb : n ≤ numWords b) : wordsEnd (getWords b) n = wordsEnd (getWords b) (numWords a) := by
  induction hle with
  | refl => rfl
  | @step m hm ih =>
    have hzero : word b m = word [] m := (elems_eq_iff.1 h m).symm.trans (word_of_numWords_le hm)
    rw [wordsEnd, getD_getWords hb, if_pos (word_all_iff.2 hzero), ih (m.le_succ.trans hb)]

/-- The words that are hashed. -/
theorem take_wordsEnd_of_le (h : BitVector.elems a = BitVector.elems b) (hle : numWords a ≤ numWords b) :
    (getWords a).take (wordsEnd (getWords a) (numWords a)) =
      (getWords b).take (wordsEnd (getWords b) (numWords b)) := by
  have hend : wordsEnd (getWords b) (numWords b) = wordsEnd (getWords a) (numWords a) :=
    (wordsEnd_of_le h hle le_rfl).trans (wordsEnd_congr h le_rfl hle).symm
  have hbound := wordsEnd_le (getWords a) (numWords a)
  rw [hend, take_getWords hbound, take_getWords (hbound.trans hle)]
  exact List.map_congr_left fun w _ => elems_eq_iff.1 h w

theorem take_wordsEnd_congr (h : BitVector.elems a = BitVector.elems b) :
    (getWords a).take (wordsEnd (getWords a) (numWords a)) =
      (getWords b).take (wordsEnd (getWords b) (numWords b)) := by
  rcases le_total (numWords a) (numWords b) with hle | hle
  · exact take_wordsEnd_of_le h hle
  · exact (take_wordsEnd_of_le h.symm hle).symm

/-- No word of an empty set is hashed. -/
theorem take_wordsEnd_of_empty (h : BitVector.elems bits = ∅) :
    (getWords bits).take (wordsEnd (getWords bits) (numWords bits)) = [] :=
  take_wordsEnd_congr (b := []) (h.trans (by rfl))

end Hash

/-- The sets of a program, and the positions that they share. -/
structure Store (ι T : Type*) where
  Position : List T := []
  sets : ι → BitVectorSet := fun _ => {}

inductive Op (ι T : Type*)
  | insert (x : ι) (Data : T)
  | erase (x : ι) (Data : T)
  | clear (x : ι)
  | setUnionWith (x y : ι)
  | setIntersectWith (x y : ι)

section Store

variable {ι T : Type*} [DecidableEq ι] [DecidableEq T]

def Op.run (s : Store ι T) : Op ι T → Store ι T
  | insert x Data =>
    let r := (s.sets x).insert Data s.Position
    ⟨r.2, Function.update s.sets x r.1⟩
  | erase x Data => { s with sets := Function.update s.sets x ((s.sets x).erase Data s.Position) }
  | clear x => { s with sets := Function.update s.sets x (s.sets x).clear }
  | setUnionWith x y => { s with sets := Function.update s.sets x ((s.sets x).setUnionWith (s.sets y)) }
  | setIntersectWith x y =>
    { s with sets := Function.update s.sets x ((s.sets x).setIntersectWith (s.sets y)) }

/-- The store after some operations. -/
def run (ops : List (Op ι T)) : Store ι T := ops.foldl Op.run {}

end Store

/-- Equal sets have equal hash codes unless only one of them has length zero. -/
theorem hash_value_congr_iff (hash_combine_range : List (List Bool) → UInt64) (h : eq A B = true) :
    hash_value hash_combine_range A = hash_value hash_combine_range B ↔
      (A.Bits = [] ↔ B.Bits = []) ∨ hash_combine_range [] = 0 := by
  have helems := eq_iff.1 h
  rw [hash_value, hash_value]
  split_ifs with hA hB hB
  · simp [hA, hB]
  -- the words of an empty vector are never hashed, those of an empty set are, though there are none
  · have hempty : BitVector.elems B.Bits = ∅ := by
      rw [← show B.elems = BitVector.elems B.Bits from rfl, ← helems, elems, hA]
      rfl
    rw [take_wordsEnd_of_empty hempty]
    simp [hA, hB, eq_comm]
  · have hempty : BitVector.elems A.Bits = ∅ := by
      rw [← show A.elems = BitVector.elems A.Bits from rfl, helems, elems, hB]
      rfl
    rw [take_wordsEnd_of_empty hempty]
    simp [hA, hB]
  · rw [take_wordsEnd_congr helems]
    simp [hA, hB]

/-- Two sets of a program that are equal have equal hash codes if and only if both or none of them have
length zero, or the hash code of no words is the default one. -/
theorem hash_value_eq_iff {ι T : Type*} [DecidableEq ι] [DecidableEq T] (ops : List (Op ι T)) (x y : ι)
    (hash_combine_range : List (List Bool) → UInt64)
    (h : eq ((run ops).sets x) ((run ops).sets y) = true) :
    hash_value hash_combine_range ((run ops).sets x) = hash_value hash_combine_range ((run ops).sets y) ↔
      (((run ops).sets x).Bits = [] ↔ ((run ops).sets y).Bits = []) ∨ hash_combine_range [] = 0 :=
  hash_value_congr_iff hash_combine_range h

/-- One value in each of two sets, in one of them with another value that is erased. -/
theorem hash_value_eq_iff_insert_erase :
    let s := run [Op.insert true 'a', Op.insert false 'a', Op.insert true 'b', Op.erase true 'b']
    hash_value (fun Words => Words.length.toUInt64) (s.sets true) =
      hash_value (fun Words => Words.length.toUInt64) (s.sets false) :=
  (hash_value_eq_iff [Op.insert true 'a', Op.insert false 'a', Op.insert true 'b', Op.erase true 'b']
    true false (fun Words => Words.length.toUInt64) (by decide)).2 (Or.inr rfl)

/-- A set from which the only value was erased equals a fresh one and has another hash code. -/
theorem not_hash_value_eq :
    ¬∀ (ops : List (Op Bool Char)) (x y : Bool) (hash_combine_range : List (List Bool) → UInt64),
      eq ((run ops).sets x) ((run ops).sets y) = true →
        hash_value hash_combine_range ((run ops).sets x) =
          hash_value hash_combine_range ((run ops).sets y) := by
  intro h
  have heq := h [.insert true 'a', .erase true 'a'] true false (fun _ => 1) (by decide)
  exact absurd heq (by decide)

end BitVectorSet

end Phasar
