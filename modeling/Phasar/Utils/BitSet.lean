import Mathlib.Data.List.GetD
import Mathlib.Data.List.Pairwise
import Mathlib.Order.Nat
import Mathlib.Tactic.Common

/-!
# Sets of sequential ids

`BitSet` is a vector of bits that grows when an id behind its end is inserted.

* `BitSet`: `contains`, `insert`, `erase`, `tryErase`, `clear`, `reserve`, `findFirst`, `findNext`,
  `toList`;
* what `contains` says after each operation, and that the ids come in ascending order.
-/

namespace Phasar

/-- The bits of `llvm::BitVector`. -/
structure BitSet where
  Bits : List Bool := []
  deriving DecidableEq

namespace BitSet

def size (s : BitSet) : ℕ := s.Bits.count true

def contains (id : ℕ) (s : BitSet) : Bool := s.Bits.getD id false

def reserve (cap : ℕ) (s : BitSet) : BitSet :=
  if s.Bits.length < cap then ⟨s.Bits ++ List.replicate (cap - s.Bits.length) false⟩ else s

def insert (id : ℕ) (s : BitSet) : BitSet := ⟨(s.reserve (id + 1)).Bits.set id true⟩

def erase (id : ℕ) (s : BitSet) : BitSet :=
  if id < s.Bits.length then ⟨s.Bits.set id false⟩ else s

/-- Erase an id, and say whether it was there. -/
def tryErase (id : ℕ) (s : BitSet) : BitSet × Bool :=
  if s.contains id then (⟨s.Bits.set id false⟩, true) else (s, false)

def clear (s : BitSet) : BitSet := ⟨s.Bits.map fun _ => false⟩

/-- `llvm::BitVector::find_first_in`, up to the end. -/
def findFirstIn (start : ℕ) (s : BitSet) : Option ℕ :=
  ((s.Bits.drop start).findIdx? fun b => b).map (start + ·)

def findFirst (s : BitSet) : Option ℕ := s.findFirstIn 0

def findNext (key : ℕ) (s : BitSet) : Option ℕ := s.findFirstIn (key + 1)

/-- The ids in the order of `foreach`. -/
def toList (s : BitSet) : List ℕ := (List.range s.Bits.length).filter s.contains

variable {s : BitSet} {k id : ℕ}

@[simp] theorem contains_empty : contains k {} = false := by simp [contains]

theorem lt_of_contains (h : s.contains k = true) : k < s.Bits.length := by
  by_contra hlt
  rw [contains, List.getD_eq_default _ _ (not_lt.1 hlt)] at h
  cases h

@[simp] theorem contains_reserve (cap : ℕ) : (s.reserve cap).contains k = s.contains k := by
  rw [reserve]
  split_ifs with hlt
  · rw [contains, contains]
    by_cases hk : k < s.Bits.length
    · rw [List.getD_append _ _ _ _ hk]
    · rw [List.getD_append_right _ _ _ _ (not_lt.1 hk), List.getD_eq_default _ _ (not_lt.1 hk)]
      by_cases hk' : k - s.Bits.length < cap - s.Bits.length
      · simp [List.getD_eq_getElem?_getD, hk']
      · rw [List.getD_eq_default]
        simpa using not_lt.1 hk'
  · rfl

theorem lt_length_reserve : id < (s.reserve (id + 1)).Bits.length := by
  rw [reserve]
  split_ifs with hlt
  · rw [List.length_append, List.length_replicate]
    omega
  · omega

theorem getD_set {bits : List Bool} {b : Bool} (hid : id < bits.length) :
    (bits.set id b).getD k false = if k = id then b else bits.getD k false := by
  rw [List.getD_eq_getElem?_getD, List.getElem?_set, List.getD_eq_getElem?_getD]
  split_ifs with h h' h'
  · rfl
  · exact absurd h.symm h'
  · exact absurd h'.symm h
  · rfl

theorem contains_insert : (s.insert id).contains k = (decide (k = id) || s.contains k) := by
  rw [insert, contains, getD_set lt_length_reserve]
  split_ifs with h
  · simp [h]
  · rw [← contains, contains_reserve]
    simp [h]

@[simp] theorem tryErase_snd : (s.tryErase id).2 = s.contains id := by
  rw [tryErase]
  split_ifs with h
  · exact h.symm
  · simpa using h

theorem contains_erase : (s.erase id).contains k = (decide (k ≠ id) && s.contains k) := by
  rw [erase]
  split_ifs with h
  · rw [contains, getD_set h]
    split_ifs with hk
    · simp [hk]
    · simp [hk, contains]
  · by_cases hk : k = id
    · rw [hk, contains, List.getD_eq_default _ _ (not_lt.1 h), Bool.and_false]
    · simp [hk]

theorem contains_tryErase : (s.tryErase id).1.contains k = (decide (k ≠ id) && s.contains k) := by
  rw [tryErase]
  split_ifs with h
  · rw [← contains_erase, erase, if_pos (lt_of_contains h)]
  · by_cases hk : k = id
    · rw [Bool.not_eq_true] at h
      simp [hk, h]
    · simp [hk]

@[simp] theorem contains_clear : s.clear.contains k = false := by
  rw [contains, clear, List.getD_eq_getElem?_getD, List.getElem?_map]
  cases s.Bits[k]? <;> rfl

/-! ### The ids in ascending order -/

theorem mem_toList : k ∈ s.toList ↔ s.contains k = true := by
  rw [toList, List.mem_filter, List.mem_range]
  exact ⟨And.right, fun h => ⟨lt_of_contains h, h⟩⟩

theorem pairwise_toList : s.toList.Pairwise (· < ·) := List.pairwise_lt_range.filter _

theorem nodup_toList : s.toList.Nodup := pairwise_toList.imp ne_of_lt

theorem findFirstIn_eq_some {start : ℕ} : s.findFirstIn start = some k ↔
    (start ≤ k ∧ s.contains k = true) ∧ ∀ j, start ≤ j → j < k → s.contains j = false := by
  have hget : ∀ j, s.contains (start + j) = true ↔ (s.Bits.drop start)[j]? = some true := by
    intro j
    rw [contains, List.getD_eq_getElem?_getD, List.getElem?_drop]
    rcases s.Bits[start + j]? with _ | b <;> simp
  rw [findFirstIn, Option.map_eq_some_iff]
  constructor
  · rintro ⟨i, hi, rfl⟩
    obtain ⟨hlt, htrue, hfirst⟩ := List.findIdx?_eq_some_iff_getElem.1 hi
    refine ⟨⟨Nat.le_add_right _ _, (hget i).2 ?_⟩, fun j hle hlt' => ?_⟩
    · rw [List.getElem?_eq_getElem hlt, htrue]
    · obtain ⟨m, rfl⟩ := Nat.exists_eq_add_of_le hle
      have hm : m < i := by omega
      rw [← Bool.not_eq_true, hget, List.getElem?_eq_getElem (hm.trans hlt)]
      exact fun h => hfirst m hm (Option.some.inj h)
  · rintro ⟨⟨hle, htrue⟩, hfirst⟩
    obtain ⟨m, rfl⟩ := Nat.exists_eq_add_of_le hle
    obtain ⟨hlt, hm⟩ := List.getElem?_eq_some_iff.1 ((hget m).1 htrue)
    refine ⟨m, List.findIdx?_eq_some_iff_getElem.2 ⟨hlt, hm, fun j hj h => ?_⟩, rfl⟩
    have hfalse := hfirst (start + j) (Nat.le_add_right _ _) (by omega)
    rw [(hget j).2 (List.getElem?_eq_some_iff.2 ⟨hj.trans hlt, h⟩)] at hfalse
    cases hfalse

theorem findFirstIn_eq_none {start : ℕ} :
    s.findFirstIn start = none ↔ ∀ j, start ≤ j → s.contains j = false := by
  rw [findFirstIn, Option.map_eq_none_iff, List.findIdx?_eq_none_iff]
  constructor
  · intro h j hle
    obtain ⟨m, rfl⟩ := Nat.exists_eq_add_of_le hle
    rw [contains, List.getD_eq_getElem?_getD, ← List.getElem?_drop]
    rcases hm : (s.Bits.drop start)[m]? with _ | b
    · rfl
    · exact h b (List.mem_of_getElem? hm)
  · intro h b hb
    obtain ⟨m, hm⟩ := List.mem_iff_getElem?.1 hb
    have hfalse := h (start + m) (Nat.le_add_right _ _)
    rwa [contains, List.getD_eq_getElem?_getD, ← List.getElem?_drop, hm] at hfalse

/-- The ids from an iterator to the end, unless more rounds are needed. -/
def ids (s : BitSet) : ℕ → Option ℕ → Option (List ℕ)
  | _, none => some []
  | 0, some _ => none
  | rounds + 1, some key => (s.ids rounds (s.findNext key)).map (key :: ·)

theorem ids_none (rounds : ℕ) : s.ids rounds none = some [] := by cases rounds <;> rfl

/-- Iteration comes to each id once, in ascending order. -/
theorem ids_spec {rounds : ℕ} (start : ℕ) (hrounds : s.Bits.length ≤ start + rounds) :
    ∃ keys, s.ids rounds (s.findFirstIn start) = some keys ∧ keys.Pairwise (· < ·) ∧
      ∀ k, k ∈ keys ↔ start ≤ k ∧ s.contains k = true := by
  induction rounds generalizing start with
  | zero =>
    have hlt : ∀ j, start ≤ j → s.contains j = false := by
      intro j hle
      rw [← Bool.not_eq_true]
      intro h
      have hj := lt_of_contains h
      omega
    rw [findFirstIn_eq_none.2 hlt]
    refine ⟨[], rfl, List.Pairwise.nil, fun k => ⟨nofun, fun ⟨hle, hk⟩ => ?_⟩⟩
    rw [hlt k hle] at hk
    cases hk
  | succ rounds ih =>
    rcases hfirst : s.findFirstIn start with _ | key
    · refine ⟨[], ids_none _, List.Pairwise.nil, fun k => ⟨nofun, fun ⟨hle, hk⟩ => ?_⟩⟩
      rw [findFirstIn_eq_none.1 hfirst k hle] at hk
      cases hk
    · obtain ⟨⟨hle, hkey⟩, hno⟩ := findFirstIn_eq_some.1 hfirst
      obtain ⟨keys, hrun, hpair, hmem⟩ := ih (key + 1) (by omega)
      refine ⟨key :: keys, ?_, List.pairwise_cons.2 ⟨fun k hk => ((hmem k).1 hk).1, hpair⟩,
        fun k => ?_⟩
      · rw [ids, findNext, hrun, Option.map_some]
      · rw [List.mem_cons, hmem]
        constructor
        · rintro (rfl | ⟨hlt, hk⟩)
          · exact ⟨hle, hkey⟩
          · exact ⟨by omega, hk⟩
        · rintro ⟨hle', hk⟩
          rcases lt_trichotomy k key with hlt | heq | hlt
          · rw [hno k hle' hlt] at hk
            cases hk
          · exact Or.inl heq
          · exact Or.inr ⟨hlt, hk⟩

end BitSet

end Phasar
