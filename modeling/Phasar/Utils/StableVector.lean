import Mathlib.Algebra.Ring.Nat
import Mathlib.Data.Nat.Log
import Mathlib.Logic.Function.Basic
import Mathlib.Tactic.Common

/-!
# Vectors with stable addresses

`StableVector` stores its elements in blocks of 32, 32, 64, 128, … slots that are never moved, and
keeps the blocks when it shrinks.

* `StableVector`: `emplaceBack`, `popBack`, `popBackN`, `clear`, `subscriptHelper`, iterators and
  the comparison, on slots that hold an element or none;
* `address`: where the elements are, in terms of their index alone;
* `Inv`: the vector holds a list; `refines_list`: it does so after any operations.
-/

namespace Phasar

/-- A pointer into a block, or the null pointer. -/
inductive Ptr
  | null
  | at (block offset : ℕ)
  deriving DecidableEq

namespace Ptr

def add : Ptr → ℕ → Ptr
  | null, _ => null
  | .at block offset, n => .at block (offset + n)

def sub : Ptr → ℕ → Ptr
  | null, _ => null
  | .at block offset, n => .at block (offset - n)

/-- The distance of two pointers into one block. -/
def diff : Ptr → Ptr → ℕ
  | .at _ offset, .at _ offset' => offset - offset'
  | _, _ => 0

end Ptr

/-- The slots of the blocks: an element, or none. -/
abbrev Slots (T : Type*) := Ptr → Option T

/-- `std::destroy_n`. -/
def Slots.destroyN {T : Type*} (p : Ptr) : ℕ → Slots T → Slots T
  | 0, slots => slots
  | n + 1, slots => destroyN p n (Function.update slots (p.add n) none)

/-- `Blocks` are the sizes of the blocks that were allocated; `Blocks[i]` is the pointer to the
`i`-th one. `bound` is the member `End`. -/
structure StableVector (T : Type*) where
  Blocks : List ℕ := []
  start : Ptr := .null
  pos : Ptr := .null
  bound : Ptr := .null
  size : ℕ := 0
  blockIdx : ℕ := 0
  slots : Slots T := fun _ => none

namespace StableVector

def initialLogCapacity : ℕ := 5

def initialCapacity : ℕ := 2 ^ initialLogCapacity

/-- The pointer `Blocks[i]`. -/
def block (i : ℕ) : Ptr := .at i 0

variable {T : Type*}

def growAndEmplace (v : T) (s : StableVector T) : StableVector T :=
  let s := if s.Blocks = [] then
      { s with Blocks := [initialCapacity], bound := (block 0).add initialCapacity }
    else if s.blockIdx < s.Blocks.length - 1 then
      { s with blockIdx := s.blockIdx + 1, bound := (block (s.blockIdx + 1)).add s.size }
    else
      { s with
        blockIdx := s.blockIdx + 1
        Blocks := s.Blocks ++ [s.size]
        bound := (block s.Blocks.length).add s.size }
  { s with
    start := block s.blockIdx
    pos := (block s.blockIdx).add 1
    size := s.size + 1
    slots := Function.update s.slots (block s.blockIdx) (some v) }

def emplaceBack (v : T) (s : StableVector T) : StableVector T :=
  if s.pos = s.bound then s.growAndEmplace v
  else
    { s with
      pos := s.pos.add 1
      size := s.size + 1
      slots := Function.update s.slots s.pos (some v) }

/-- The end of a block becomes the end of the block before it. -/
def previousBlock (s : StableVector T) : StableVector T :=
  if s.blockIdx - 1 ≠ 0 then
    let blockSize := s.bound.diff s.start
    { s with
      blockIdx := s.blockIdx - 1
      start := block (s.blockIdx - 1)
      pos := (block (s.blockIdx - 1)).add (blockSize / 2)
      bound := (block (s.blockIdx - 1)).add (blockSize / 2) }
  else
    { s with
      blockIdx := 0
      start := block 0
      pos := (block 0).add initialCapacity
      bound := (block 0).add initialCapacity }

def popBack (s : StableVector T) : StableVector T :=
  let s := { s with
    pos := s.pos.sub 1
    size := s.size - 1
    slots := Function.update s.slots (s.pos.sub 1) none }
  if s.pos ≠ s.start then s else if s.blockIdx ≠ 0 then s.previousBlock else s

/-- Remove the elements of the current block. -/
def popBlock (s : StableVector T) : StableVector T :=
  let s := { s with
    slots := s.slots.destroyN s.start (s.pos.diff s.start)
    size := s.size - s.pos.diff s.start }
  if s.blockIdx ≠ 0 then s.previousBlock
  else { s with start := block 0, pos := block 0, bound := (block 0).add initialCapacity }

/-- The loop of `pop_back_n`; each round removes an element, so `n` rounds are enough. -/
def popBackLoop : ℕ → ℕ → StableVector T → StableVector T
  | 0, _, s => s
  | fuel + 1, n, s =>
    let numElementsInCurrBlock := s.pos.diff s.start
    if n < numElementsInCurrBlock then
      { s with
        pos := s.pos.sub n
        size := s.size - n
        slots := s.slots.destroyN (s.pos.sub n) n }
    else if n - numElementsInCurrBlock = 0 then s.popBlock
    else popBackLoop fuel (n - numElementsInCurrBlock) s.popBlock

def popBackN (n : ℕ) (s : StableVector T) : StableVector T := if n = 0 then s else popBackLoop n n s

/-- The loop of `clear` over some blocks from the `i`-th one on. -/
def destroyBlocks : ℕ → ℕ → ℕ → ℕ → Slots T → Slots T
  | 0, _, _, _, slots => slots
  | count + 1, i, cap, totalSize, slots =>
    destroyBlocks count (i + 1) totalSize (totalSize + totalSize) (slots.destroyN (block i) cap)

def clear (s : StableVector T) : StableVector T :=
  let slots := destroyBlocks s.blockIdx 0 initialCapacity initialCapacity s.slots
  let s := { s with
    slots := slots.destroyN s.start (s.pos.diff s.start)
    blockIdx := 0
    size := 0 }
  if s.Blocks = [] then s
  else { s with start := block 0, pos := block 0, bound := (block 0).add initialCapacity }

/-- The address of `operator[]`. -/
def subscriptHelper (index : ℕ) : Ptr :=
  if index < initialCapacity then (block 0).add index
  else (block (Nat.log 2 index - (initialLogCapacity - 1))).add (index - 2 ^ Nat.log 2 index)

/-- `operator[]`. -/
def get (index : ℕ) (s : StableVector T) : Option T := s.slots (subscriptHelper index)

def back (s : StableVector T) : Option T := s.slots (s.pos.sub 1)

/-- `Outer` and `OuterEnd` are positions in `Blocks`. -/
structure Iterator where
  It : Ptr := .null
  ItEnd : Ptr := .null
  Outer : ℕ
  OuterEnd : ℕ
  Total : ℕ := initialCapacity
  Pos : Ptr
  deriving DecidableEq

/-- The constructor of an iterator. -/
def iterator (Outer OuterEnd : ℕ) (Pos : Ptr) : Iterator :=
  if OuterEnd = Outer then { Outer, OuterEnd, Pos }
  else
    { It := block Outer
      ItEnd := if OuterEnd - 1 = Outer then Pos else (block Outer).add initialCapacity
      Outer, OuterEnd, Pos }

/-- `operator++`. -/
def Iterator.next (i : Iterator) : Iterator :=
  if i.It.add 1 ≠ i.ItEnd then { i with It := i.It.add 1 }
  else if i.Outer = i.OuterEnd - 1 then { i with It := .null }
  else if i.Outer + 1 = i.OuterEnd - 1 then
    { i with Outer := i.Outer + 1, It := block (i.Outer + 1), ItEnd := i.Pos }
  else
    { i with
      Outer := i.Outer + 1
      It := block (i.Outer + 1)
      ItEnd := (block (i.Outer + 1)).add i.Total
      Total := i.Total * 2 }

def endIterator (s : StableVector T) : Iterator := iterator (s.blockIdx + 1) (s.blockIdx + 1) .null

def beginIterator (s : StableVector T) : Iterator :=
  if s.size = 0 then s.endIterator else iterator 0 (s.blockIdx + 1) s.pos

/-- The elements from an iterator to the end, unless more rounds are needed. -/
def elements (s : StableVector T) : ℕ → Iterator → Option (List (Option T))
  | 0, i => if i.It = s.endIterator.It then some [] else none
  | rounds + 1, i =>
    if i.It = s.endIterator.It then some []
    else (s.elements rounds i.next).map (s.slots i.It :: ·)

/-- `std::equal` on two ranges of slots. -/
def equalRange [BEq T] (slots slots' : Slots T) (p p' : Ptr) : ℕ → Bool
  | 0 => true
  | n + 1 => equalRange slots slots' p p' n && slots (p.add n) == slots' (p'.add n)

/-- The loop of `operator==` over some blocks from the `i`-th one on. -/
def equalBlocks [BEq T] (slots slots' : Slots T) : ℕ → ℕ → ℕ → ℕ → Bool
  | 0, _, _, _ => true
  | count + 1, i, cap, total =>
    equalRange slots slots' (block i) (block i) cap && equalBlocks slots slots' count
      (i + 1) total (total * 2)

/-- `operator==`. -/
def equal [BEq T] (s s' : StableVector T) : Bool :=
  if s.size ≠ s'.size then false
  else if s.size = 0 then true
  else equalBlocks s.slots s'.slots s.blockIdx 0 initialCapacity initialCapacity &&
    equalRange s.slots s'.slots s.start s'.start (s.pos.diff s.start)

/-! ### Addresses -/

/-- The number of slots of a block. -/
def blockSize : ℕ → ℕ
  | 0 => initialCapacity
  | k + 1 => 2 ^ (k + initialLogCapacity)

/-- The number of slots of the blocks before a block. -/
def blockStart : ℕ → ℕ
  | 0 => 0
  | k + 1 => 2 ^ (k + initialLogCapacity)

theorem blockSize_pos (k : ℕ) : 0 < blockSize k := by
  cases k <;> exact Nat.two_pow_pos _

theorem blockStart_succ (k : ℕ) : blockStart (k + 1) = blockStart k + blockSize k := by
  cases k with
  | zero => rfl
  | succ k => rw [blockStart, blockStart, blockSize, Nat.add_right_comm, Nat.pow_succ, Nat.mul_two]

theorem blockSize_succ (k : ℕ) : blockSize (k + 1) = blockStart (k + 1) := rfl

theorem blockSize_half (k : ℕ) : blockSize (k + 2) / 2 = blockSize (k + 1) := by
  rw [blockSize, blockSize, Nat.add_right_comm, Nat.pow_succ, Nat.mul_div_cancel _ (Nat.succ_pos 1)]

theorem blockSize_mul_two (k : ℕ) : blockSize (k + 1) * 2 = blockSize (k + 2) := by
  rw [blockSize, blockSize, Nat.add_right_comm, Nat.pow_succ]

theorem blockStart_mono {k m : ℕ} (hkm : k ≤ m) : blockStart k ≤ blockStart m := by
  induction hkm with
  | refl => exact le_rfl
  | step _ ih => exact ih.trans (blockStart_succ _ ▸ Nat.le_add_right _ _)

/-- The element at a place of a block has the index that counts the slots before it. -/
theorem subscriptHelper_add {k offset : ℕ} (h : offset < blockSize k) :
    subscriptHelper (blockStart k + offset) = .at k offset := by
  cases k with
  | zero =>
    rw [blockStart, Nat.zero_add, subscriptHelper, if_pos (by exact h)]
    simp [block, Ptr.add]
  | succ k =>
    rw [blockSize] at h
    have hlog : Nat.log 2 (2 ^ (k + initialLogCapacity) + offset) = k + initialLogCapacity := by
      refine Nat.log_eq_of_pow_le_of_lt_pow (Nat.le_add_right _ _) ?_
      rw [Nat.pow_succ]
      omega
    have hge : ¬2 ^ (k + initialLogCapacity) + offset < initialCapacity := by
      have hle : 2 ^ initialLogCapacity ≤ 2 ^ (k + initialLogCapacity) :=
        Nat.pow_le_pow_right (Nat.succ_pos 1) (Nat.le_add_left _ _)
      rw [initialCapacity]
      omega
    rw [blockStart, subscriptHelper, if_neg hge, hlog]
    simp only [block, Ptr.add, initialLogCapacity, Ptr.at.injEq]
    omega

/-- Each index is at a place of a block. -/
theorem exists_place (i : ℕ) : ∃ k offset, offset < blockSize k ∧ i = blockStart k + offset := by
  induction i with
  | zero => exact ⟨0, 0, blockSize_pos 0, rfl⟩
  | succ i ih =>
    obtain ⟨k, offset, hlt, rfl⟩ := ih
    by_cases hnext : offset + 1 < blockSize k
    · exact ⟨k, offset + 1, hnext, rfl⟩
    · exact ⟨k + 1, 0, blockSize_pos _, by rw [blockStart_succ]; omega⟩

/-- Two elements have different addresses. -/
theorem subscriptHelper_injective : Function.Injective subscriptHelper := by
  intro i j hij
  obtain ⟨k, offset, hlt, rfl⟩ := exists_place i
  obtain ⟨k', offset', hlt', rfl⟩ := exists_place j
  rw [subscriptHelper_add hlt, subscriptHelper_add hlt'] at hij
  cases hij
  rfl

theorem subscriptHelper_ne_null (i : ℕ) : subscriptHelper i ≠ .null := by
  obtain ⟨k, offset, hlt, rfl⟩ := exists_place i
  rw [subscriptHelper_add hlt]
  exact Ptr.noConfusion

/-! ### The vector holds a list -/

/-- The current block, and the next free slot in it. -/
structure Cursor (s : StableVector T) : Prop where
  lt : s.blockIdx < s.Blocks.length
  start : s.start = .at s.blockIdx 0
  pos : s.pos = .at s.blockIdx (s.size - blockStart s.blockIdx)
  bound : s.bound = .at s.blockIdx (blockSize s.blockIdx)
  le : s.size ≤ blockStart (s.blockIdx + 1)
  nonempty : s.blockIdx ≠ 0 → blockStart s.blockIdx < s.size

/-- No block has been allocated. -/
structure Fresh (s : StableVector T) : Prop where
  Blocks : s.Blocks = []
  blockIdx : s.blockIdx = 0
  start : s.start = .null
  pos : s.pos = .null
  bound : s.bound = .null
  size : s.size = 0

/-- The elements of the list are at the addresses of their indices, and no other slot of an index
holds one. -/
structure Inv (l : List T) (s : StableVector T) : Prop where
  size : s.size = l.length
  slots : ∀ i, s.slots (subscriptHelper i) = l[i]?
  Blocks : ∀ i n, s.Blocks[i]? = some n → n = blockSize i
  cursor : Fresh s ∨ Cursor s

variable {l : List T} {s : StableVector T} {v : T}

theorem Cursor.start_le (hc : Cursor s) : blockStart s.blockIdx ≤ s.size := by
  by_cases h0 : s.blockIdx = 0
  · rw [h0]
    exact Nat.zero_le _
  · exact (hc.nonempty h0).le

/-- The next element comes at the address of the size. -/
theorem Cursor.pos_eq (hc : Cursor s) (hne : s.pos ≠ s.bound) : s.pos = subscriptHelper s.size := by
  have hle := hc.start_le
  have hlt : s.size - blockStart s.blockIdx < blockSize s.blockIdx := by
    have hle' := hc.le
    rw [blockStart_succ] at hle'
    refine lt_of_le_of_ne (by omega) fun heq => hne ?_
    rw [hc.pos, hc.bound, heq]
  rw [hc.pos, ← subscriptHelper_add hlt]
  congr 1
  omega

theorem slots_append {slots : Slots T} (hsize : s.size = l.length)
    (h : ∀ i, s.slots (subscriptHelper i) = l[i]?)
    (hslots : slots = Function.update s.slots (subscriptHelper s.size) (some v)) (i : ℕ) :
    slots (subscriptHelper i) = (l ++ [v])[i]? := by
  rw [hslots]
  by_cases hi : i = s.size
  · subst hi
    rw [Function.update_self, hsize, List.getElem?_concat_length]
  · rw [Function.update_of_ne (subscriptHelper_injective.ne hi), h, List.getElem?_append]
    split_ifs with hlt
    · rfl
    · rw [List.getElem?_eq_none (not_lt.1 hlt), List.getElem?_eq_none]
      rw [List.length_singleton]
      omega

/-- At the end of a full block, the size is the number of slots up to the next block. -/
theorem Cursor.size_of_full (hc : Cursor s) (hfull : s.pos = s.bound) :
    s.size = blockStart (s.blockIdx + 1) := by
  have hle := hc.start_le
  rw [hc.pos, hc.bound, Ptr.at.injEq] at hfull
  rw [blockStart_succ]
  omega

theorem place_zero (k : ℕ) : subscriptHelper (blockStart k) = .at k 0 := by
  rw [← Nat.add_zero (blockStart k), subscriptHelper_add (blockSize_pos k)]

/-- The first element of a block. -/
theorem Inv.firstOfBlock (hs : Inv l s) {s' : StableVector T} {k : ℕ} (hsize : s.size = blockStart k)
    (hBlocks : ∀ i n, s'.Blocks[i]? = some n → n = blockSize i) (hk : k < s'.Blocks.length)
    (hidx : s'.blockIdx = k) (hstart : s'.start = .at k 0) (hpos : s'.pos = .at k 1)
    (hbound : s'.bound = .at k (blockSize k)) (hsize' : s'.size = s.size + 1)
    (hslots : s'.slots = Function.update s.slots (.at k 0) (some v)) : Inv (l ++ [v]) s' := by
  refine ⟨by rw [hsize', hs.size]; simp, ?_, hBlocks, Or.inr ⟨?_, ?_, ?_, ?_, ?_, fun _ => ?_⟩⟩
  · exact slots_append hs.size hs.slots (by rw [hslots, hsize, place_zero])
  · rwa [hidx]
  · rw [hidx, hstart]
  · rw [hidx, hpos, hsize', hsize, Nat.add_sub_cancel_left]
  · rw [hidx, hbound]
  · have hpos := blockSize_pos k
    rw [hidx, hsize', hsize, blockStart_succ]
    omega
  · rw [hidx, hsize', hsize]
    exact Nat.lt_succ_self _

theorem getElem?_blocks_append {Blocks : List ℕ} (hBlocks : ∀ i n, Blocks[i]? = some n → n = blockSize i)
    {i n : ℕ} (h : (Blocks ++ [blockSize Blocks.length])[i]? = some n) : n = blockSize i := by
  rw [List.getElem?_append] at h
  split_ifs at h with hlt
  · exact hBlocks i n h
  · obtain ⟨hlt', rfl⟩ := List.getElem?_eq_some_iff.1 h
    rw [List.length_singleton] at hlt'
    obtain rfl : i = Blocks.length := by omega
    simp

theorem Inv.emplaceBack (hs : Inv l s) (v : T) : Inv (l ++ [v]) (s.emplaceBack v) := by
  rw [StableVector.emplaceBack]
  split_ifs with hfull
  · rw [growAndEmplace]
    rcases hs.cursor with hf | hc
    · refine hs.firstOfBlock (k := 0) (by rw [hf.size]; rfl) (fun i n hi => ?_) ?_ ?_ ?_ ?_ ?_ ?_ ?_
      · simp only [hf.Blocks, if_true] at hi
        obtain ⟨hlt, rfl⟩ := List.getElem?_eq_some_iff.1 hi
        rw [List.length_singleton] at hlt
        obtain rfl : i = 0 := by omega
        rfl
      all_goals simp [hf.Blocks, hf.blockIdx, block, Ptr.add, blockSize]
    · have hsize := hc.size_of_full hfull
      have hne : s.Blocks ≠ [] := List.ne_nil_of_length_pos (Nat.zero_lt_of_lt hc.lt)
      rw [if_neg hne]
      by_cases hreuse : s.blockIdx < s.Blocks.length - 1
      · rw [if_pos hreuse]
        refine hs.firstOfBlock hsize hs.Blocks
          (show s.blockIdx + 1 < s.Blocks.length by omega) rfl rfl rfl ?_ rfl rfl
        simp [block, Ptr.add, hsize, blockSize_succ]
      · have hlast : s.blockIdx + 1 = s.Blocks.length := by
          have hlt := hc.lt
          omega
        rw [if_neg hreuse]
        refine hs.firstOfBlock hsize (fun i n hi => ?_) ?_ rfl rfl rfl ?_ rfl rfl
        · refine getElem?_blocks_append hs.Blocks ?_
          rwa [← hlast, blockSize_succ, ← hsize]
        · simp [hlast]
        · simp [block, Ptr.add, hsize, blockSize_succ, ← hlast]
  · rcases hs.cursor with hf | hc
    · exact absurd (hf.pos.trans hf.bound.symm) hfull
    · have hpos := hc.pos_eq hfull
      have hle := hc.start_le
      have hle' := hc.le
      refine ⟨by simp [hs.size], slots_append hs.size hs.slots (by rw [hpos]), hs.Blocks,
        Or.inr ⟨hc.lt, hc.start, ?_, hc.bound, ?_, fun h0 => ?_⟩⟩
      · show s.pos.add 1 = .at s.blockIdx (s.size + 1 - blockStart s.blockIdx)
        rw [hc.pos, Ptr.add]
        congr 1
        omega
      · rw [hc.pos, hc.bound, Ptr.at.injEq] at hfull
        show s.size + 1 ≤ blockStart (s.blockIdx + 1)
        rw [blockStart_succ] at hle' ⊢
        omega
      · exact (hc.nonempty h0).trans (Nat.lt_succ_self _)

/-! ### Removing elements -/

/-- The current block is full, and the cursor is behind it. -/
structure AtEnd (k : ℕ) (s : StableVector T) : Prop where
  blockIdx : s.blockIdx = k
  start : s.start = .at k 0
  pos : s.pos = .at k (blockSize k)
  bound : s.bound = .at k (blockSize k)

/-- From the start of a block, the cursor goes to the end of the block before it. -/
theorem previousBlock_spec {k : ℕ} (hidx : s.blockIdx = k + 1) (hstart : s.start = .at (k + 1) 0)
    (hbound : s.bound = .at (k + 1) (blockSize (k + 1))) :
    AtEnd k s.previousBlock ∧ s.previousBlock.Blocks = s.Blocks ∧ s.previousBlock.size = s.size ∧
      s.previousBlock.slots = s.slots := by
  rw [previousBlock]
  cases k with
  | zero =>
    rw [if_neg (by simp [hidx])]
    refine ⟨⟨rfl, rfl, ?_, ?_⟩, rfl, rfl, rfl⟩ <;> simp [block, Ptr.add, blockSize]
  | succ k =>
    rw [if_pos (by simp [hidx])]
    refine ⟨⟨?_, ?_, ?_, ?_⟩, rfl, rfl, rfl⟩ <;>
      simp [block, Ptr.add, hidx, hstart, hbound, Ptr.diff, blockSize_half]

/-- The slots of a list without its last elements. -/
theorem slots_take {slots : Slots T} {m : ℕ} (h : ∀ i, s.slots (subscriptHelper i) = l[i]?)
    (hslots : ∀ i, slots (subscriptHelper i) = if i < m then s.slots (subscriptHelper i) else none)
    (i : ℕ) : slots (subscriptHelper i) = (l.take m)[i]? := by
  rw [hslots, h, List.getElem?_take]

theorem destroyN_apply {slots : Slots T} {p q : Ptr} {n : ℕ} :
    slots.destroyN p n q = if ∃ i < n, q = p.add i then none else slots q := by
  induction n generalizing slots with
  | zero => simp [Slots.destroyN]
  | succ n ih =>
    rw [Slots.destroyN, ih]
    by_cases hq : ∃ i < n, q = p.add i
    · obtain ⟨i, hi, heq⟩ := hq
      rw [if_pos ⟨i, hi, heq⟩, if_pos ⟨i, hi.trans (Nat.lt_succ_self n), heq⟩]
    · rw [if_neg hq]
      by_cases hn : q = p.add n
      · rw [if_pos ⟨n, Nat.lt_succ_self n, hn⟩, hn, Function.update_self]
      · rw [Function.update_of_ne hn, if_neg]
        rintro ⟨i, hi, heq⟩
        rcases Nat.lt_succ_iff_lt_or_eq.1 hi with hi | rfl
        · exact hq ⟨i, hi, heq⟩
        · exact hn heq

/-- Destroying the slots of a range of indices in one block. -/
theorem destroyN_subscriptHelper {slots : Slots T} {k offset n i : ℕ} (h : offset + n ≤ blockSize k) :
    slots.destroyN (.at k offset) n (subscriptHelper i) =
      if blockStart k + offset ≤ i ∧ i < blockStart k + offset + n then none
      else slots (subscriptHelper i) := by
  rw [destroyN_apply]
  have hiff : (∃ j < n, subscriptHelper i = (Ptr.at k offset).add j) ↔
      blockStart k + offset ≤ i ∧ i < blockStart k + offset + n := by
    constructor
    · rintro ⟨j, hj, heq⟩
      rw [Ptr.add, ← subscriptHelper_add (by omega)] at heq
      have := subscriptHelper_injective heq
      omega
    · rintro ⟨hle, hlt⟩
      refine ⟨i - (blockStart k + offset), by omega, ?_⟩
      rw [Ptr.add, ← subscriptHelper_add (by omega)]
      congr 1
      omega
  simp only [hiff]

section Shrink

variable {s' : StableVector T} {k m : ℕ}

/-- The vector keeps its block. -/
theorem Inv.shrink (hs : Inv l s) (hc : Cursor s) (hm : m ≤ s.size)
    (hnonempty : s.blockIdx ≠ 0 → blockStart s.blockIdx < m) (hBlocks : s'.Blocks = s.Blocks)
    (hidx : s'.blockIdx = s.blockIdx) (hstart' : s'.start = .at s.blockIdx 0)
    (hpos : s'.pos = .at s.blockIdx (m - blockStart s.blockIdx))
    (hbound : s'.bound = .at s.blockIdx (blockSize s.blockIdx)) (hsize : s'.size = m)
    (hslots : ∀ i, s'.slots (subscriptHelper i) = if i < m then s.slots (subscriptHelper i) else none) :
    Inv (l.take m) s' := by
  have hlen := hs.size
  refine ⟨?_, slots_take hs.slots hslots, fun i n hi => hs.Blocks i n (hBlocks ▸ hi),
    Or.inr ⟨?_, ?_, ?_, ?_, ?_, ?_⟩⟩
  · rw [hsize, List.length_take]
    omega
  · rw [hidx, hBlocks]
    exact hc.lt
  · rw [hidx, hstart']
  · rw [hidx, hpos, hsize]
  · rw [hidx, hbound]
  · rw [hidx, hsize]
    exact hm.trans hc.le
  · rw [hidx, hsize]
    exact hnonempty

/-- The vector goes back to the end of the block before. -/
theorem Inv.shrink_previousBlock (hs : Inv l s) (hc : Cursor s) (hidx : s.blockIdx = k + 1)
    (hBlocks : s'.Blocks = s.Blocks) (hidx' : s'.blockIdx = s.blockIdx) (hstart : s'.start = s.start)
    (hbound : s'.bound = s.bound) (hsize : s'.size = blockStart s.blockIdx)
    (hslots : ∀ i, s'.slots (subscriptHelper i) =
      if i < blockStart s.blockIdx then s.slots (subscriptHelper i) else none) :
    Inv (l.take (blockStart s.blockIdx)) s'.previousBlock := by
  have hle := hc.start_le
  have hlen := hs.size
  obtain ⟨hend, hBlocks', hsize', hslots'⟩ := previousBlock_spec (hidx'.trans hidx)
    (by rw [hstart, hc.start, hidx]) (by rw [hbound, hc.bound, hidx])
  have hstartk := blockStart_succ k
  refine ⟨?_, slots_take hs.slots (hslots' ▸ hslots), fun i n hi => ?_, Or.inr ⟨?_, ?_, ?_, ?_, ?_, ?_⟩⟩
  · rw [hsize', hsize, List.length_take]
    omega
  · rw [hBlocks', hBlocks] at hi
    exact hs.Blocks i n hi
  · rw [hend.blockIdx, hBlocks', hBlocks]
    have hlt := hc.lt
    omega
  · rw [hend.blockIdx, hend.start]
  · rw [hend.blockIdx, hend.pos, hsize', hsize, hidx, hstartk, Nat.add_sub_cancel_left]
  · rw [hend.blockIdx, hend.bound]
  · rw [hend.blockIdx, hsize', hsize, hidx]
  · intro _
    have hpos := blockSize_pos k
    rw [hend.blockIdx, hsize', hsize, hidx, hstartk]
    omega

theorem Inv.cursor_of_nonempty (hs : Inv l s) (hne : 0 < s.size) : Cursor s :=
  hs.cursor.resolve_left fun hf => absurd hf.size hne.ne'

theorem Inv.blockIdx_eq_zero (hs : Inv l s) (hsize : s.size = 0) : s.blockIdx = 0 := by
  rcases hs.cursor with hf | hc
  · exact hf.blockIdx
  · by_contra h0
    have hlt := hc.nonempty h0
    omega

theorem Cursor.start_le_pred (hc : Cursor s) : blockStart s.blockIdx ≤ s.size - 1 := by
  by_cases h0 : s.blockIdx = 0
  · rw [h0]
    exact Nat.zero_le _
  · have hlt := hc.nonempty h0
    omega

theorem Cursor.pos_sub_one (hc : Cursor s) :
    s.pos.sub 1 = .at s.blockIdx (s.size - 1 - blockStart s.blockIdx) := by
  rw [hc.pos, Ptr.sub]
  congr 1
  omega

/-- The last element is before the cursor. -/
theorem Cursor.pos_sub_one_eq (hc : Cursor s) (hne : 0 < s.size) :
    s.pos.sub 1 = subscriptHelper (s.size - 1) := by
  have hle := hc.start_le_pred
  have hle' := hc.le
  rw [blockStart_succ] at hle'
  rw [hc.pos_sub_one, ← subscriptHelper_add (by omega)]
  congr 1
  omega

theorem Inv.popBack (hs : Inv l s) (hne : 0 < s.size) : Inv l.dropLast s.popBack := by
  have hc := hs.cursor_of_nonempty hne
  have hle := hc.start_le
  have hlt := hc.start_le_pred
  have hpos := hc.pos_sub_one
  have haddr := hc.pos_sub_one_eq hne
  have hslots : ∀ i, Function.update s.slots (s.pos.sub 1) none (subscriptHelper i) =
      if i < s.size - 1 then s.slots (subscriptHelper i) else none := by
    intro i
    rw [haddr]
    by_cases hi : i = s.size - 1
    · rw [hi, Function.update_self, if_neg (lt_irrefl _)]
    · rw [Function.update_of_ne (subscriptHelper_injective.ne hi)]
      split_ifs with hlt'
      · rfl
      · rw [hs.slots, List.getElem?_eq_none]
        rw [← hs.size]
        omega
  rw [List.dropLast_eq_take, ← hs.size, StableVector.popBack]
  dsimp only
  split_ifs with hstart h0
  · refine hs.shrink hc (Nat.sub_le _ 1) (fun _ => ?_) rfl rfl hc.start hpos hc.bound rfl hslots
    rw [hpos, hc.start, Ne, Ptr.at.injEq] at hstart
    omega
  · rw [hpos, hc.start, not_not, Ptr.at.injEq] at hstart
    have hm : s.size - 1 = blockStart s.blockIdx := by omega
    obtain ⟨k, hk⟩ := Nat.exists_eq_succ_of_ne_zero h0
    rw [hm] at hslots ⊢
    exact hs.shrink_previousBlock hc hk rfl rfl rfl rfl rfl hslots
  · exact hs.shrink hc (Nat.sub_le _ 1) (fun h => absurd h h0) rfl rfl hc.start hpos hc.bound rfl hslots

/-- Some elements fewer than in the current block. -/
theorem Inv.popBackLoop_within (hs : Inv l s) (hc : Cursor s) {n : ℕ}
    (hn : n < s.pos.diff s.start) :
    Inv (l.take (s.size - n)) { s with
      pos := s.pos.sub n
      size := s.size - n
      slots := s.slots.destroyN (s.pos.sub n) n } := by
  have hle := hc.start_le
  have hle' := hc.le
  rw [blockStart_succ] at hle'
  rw [hc.pos, hc.start, Ptr.diff] at hn
  have hpos : s.pos.sub n = .at s.blockIdx (s.size - n - blockStart s.blockIdx) := by
    rw [hc.pos, Ptr.sub]
    congr 1
    omega
  refine hs.shrink hc (Nat.sub_le _ n) (fun _ => by omega) rfl rfl hc.start hpos hc.bound rfl fun i => ?_
  dsimp only
  rw [hpos, destroyN_subscriptHelper (by omega)]
  by_cases hi : i < s.size - n
  · rw [if_pos hi, if_neg (by omega)]
  · rw [if_neg hi]
    split_ifs with hrange
    · rfl
    · rw [hs.slots, List.getElem?_eq_none]
      rw [← hs.size]
      omega

/-- All elements of the current block. -/
theorem Inv.popBlock (hs : Inv l s) (hc : Cursor s) :
    Inv (l.take (s.size - s.pos.diff s.start)) s.popBlock := by
  have hle := hc.start_le
  have hle' := hc.le
  rw [blockStart_succ] at hle'
  have hdiff : s.pos.diff s.start = s.size - blockStart s.blockIdx := by
    rw [hc.pos, hc.start, Ptr.diff, Nat.sub_zero]
  have hsize : s.size - (s.size - blockStart s.blockIdx) = blockStart s.blockIdx := by omega
  have hslots : ∀ i, s.slots.destroyN s.start (s.size - blockStart s.blockIdx) (subscriptHelper i) =
      if i < blockStart s.blockIdx then s.slots (subscriptHelper i) else none := by
    intro i
    rw [hc.start, destroyN_subscriptHelper (by omega)]
    by_cases hi : i < blockStart s.blockIdx
    · rw [if_pos hi, if_neg (by omega)]
    · rw [if_neg hi]
      split_ifs with hrange
      · rfl
      · rw [hs.slots, List.getElem?_eq_none]
        rw [← hs.size]
        omega
  rw [StableVector.popBlock]
  simp only [hdiff, hsize]
  split_ifs with h0
  · obtain ⟨k, hk⟩ := Nat.exists_eq_succ_of_ne_zero h0
    exact hs.shrink_previousBlock hc hk rfl rfl rfl rfl rfl hslots
  · rw [not_not] at h0
    refine hs.shrink hc hle (fun h => absurd h0 h) rfl rfl ?_ ?_ ?_ rfl hslots <;>
      simp [h0, block, Ptr.add, blockSize]

theorem Inv.popBlock_size (hs : Inv l s) (hc : Cursor s) :
    s.popBlock.size = s.size - s.pos.diff s.start := by
  have hlen := hs.size
  rw [(hs.popBlock hc).size, List.length_take]
  omega

/-- The current block has an element. -/
theorem Cursor.diff_pos (hc : Cursor s) (hne : 0 < s.size) : 0 < s.pos.diff s.start := by
  rw [hc.pos, hc.start, Ptr.diff, Nat.sub_zero, Nat.sub_pos_iff_lt]
  by_cases h0 : s.blockIdx = 0
  · rw [h0]
    exact hne
  · exact hc.nonempty h0

theorem Inv.popBackLoop (hs : Inv l s) {fuel n : ℕ} (hfuel : n ≤ fuel) (hpos : 0 < n)
    (hn : n ≤ s.size) : Inv (l.take (s.size - n)) (StableVector.popBackLoop fuel n s) := by
  induction fuel generalizing l s n with
  | zero => omega
  | succ fuel ih =>
    have hc := hs.cursor_of_nonempty (hpos.trans_le hn)
    rw [StableVector.popBackLoop]
    split_ifs with hlt hdone
    · exact hs.popBackLoop_within hc hlt
    · rw [show s.size - n = s.size - s.pos.diff s.start by omega]
      exact hs.popBlock hc
    · have hblock := hs.popBlock hc
      have hnum := hc.diff_pos (hpos.trans_le hn)
      have hsize := hs.popBlock_size hc
      have hrest := ih hblock (n := n - s.pos.diff s.start) (by omega) (by omega) (by omega)
      rw [hsize, List.take_take] at hrest
      rwa [show s.size - n = min (s.size - s.pos.diff s.start - (n - s.pos.diff s.start))
        (s.size - s.pos.diff s.start) by omega]

theorem Inv.popBackN (hs : Inv l s) {n : ℕ} (hn : n ≤ s.size) :
    Inv (l.take (l.length - n)) (s.popBackN n) := by
  rw [StableVector.popBackN, ← hs.size]
  split_ifs with h0
  · rw [h0, Nat.sub_zero, hs.size, List.take_length]
    exact hs
  · exact hs.popBackLoop le_rfl (Nat.pos_of_ne_zero h0) hn

/-- Destroying the elements of some blocks. -/
theorem destroyBlocks_subscriptHelper (slots : Slots T) (count k i : ℕ) :
    destroyBlocks count k (blockSize k) (blockSize (k + 1)) slots (subscriptHelper i) =
      if blockStart k ≤ i ∧ i < blockStart (k + count) then none else slots (subscriptHelper i) := by
  induction count generalizing k slots with
  | zero =>
    rw [destroyBlocks, if_neg]
    simp only [Nat.add_zero]
    omega
  | succ count ih =>
    have hdouble : blockSize (k + 1) + blockSize (k + 1) = blockSize (k + 2) := by
      rw [← Nat.mul_two, blockSize_mul_two]
    have hmono : blockStart (k + 1) ≤ blockStart (k + 1 + count) := blockStart_mono (Nat.le_add_right _ _)
    have hstart := blockStart_succ k
    rw [destroyBlocks, hdouble, ih, block, destroyN_subscriptHelper (by omega), Nat.add_zero,
      Nat.add_right_comm k 1 count, ← Nat.add_assoc k count 1]
    rw [Nat.add_right_comm k 1 count] at hmono
    split_ifs <;> first | rfl | omega

theorem Inv.clear (hs : Inv l s) : Inv [] s.clear := by
  rcases hs.cursor with hf | hc
  · have hnil : l = [] := List.eq_nil_of_length_eq_zero (hs.size.symm.trans hf.size)
    have hclear : s.clear = s := by
      obtain ⟨hBlocks, hidx, hstart, hpos, -, hsize⟩ := hf
      cases s
      simp_all [StableVector.clear, destroyBlocks, Ptr.diff, Slots.destroyN]
    rw [hclear, ← hnil]
    exact hs
  · have hne : s.Blocks ≠ [] := List.ne_nil_of_length_pos (Nat.zero_lt_of_lt hc.lt)
    have hle := hc.start_le
    have hle' := hc.le
    rw [blockStart_succ] at hle'
    rw [StableVector.clear]
    dsimp only
    rw [if_neg hne]
    refine ⟨rfl, fun i => ?_, hs.Blocks, Or.inr ⟨?_, rfl, rfl, ?_, Nat.zero_le _, fun h => absurd rfl h⟩⟩
    · simp only [hc.start, hc.pos, Ptr.diff, Nat.sub_zero]
      rw [destroyN_subscriptHelper (by omega)]
      have hblocks := destroyBlocks_subscriptHelper s.slots s.blockIdx 0 i
      rw [show destroyBlocks s.blockIdx 0 initialCapacity initialCapacity s.slots =
        destroyBlocks s.blockIdx 0 (blockSize 0) (blockSize (0 + 1)) s.slots from rfl, hblocks]
      rw [Nat.zero_add, List.getElem?_nil]
      split_ifs with hlast hblock
      · rfl
      · rfl
      · rw [hs.slots, List.getElem?_eq_none]
        rw [← hs.size]
        rw [show blockStart 0 = 0 from rfl] at hblock
        omega
    · exact Nat.zero_lt_of_lt hc.lt
    · simp [block, Ptr.add, blockSize]

end Shrink

/-! ### Reading the elements -/

/-- The reference that `emplace_back` returns. -/
def emplaceBackRef (v : T) (s : StableVector T) : Ptr :=
  if s.pos = s.bound then (s.growAndEmplace v).start else s.pos

theorem Inv.emplaceBackRef_eq (hs : Inv l s) (v : T) : s.emplaceBackRef v = subscriptHelper s.size := by
  rw [emplaceBackRef]
  split_ifs with hfull
  · rcases hs.cursor with hf | hc
    · rw [hf.size, show (0 : ℕ) = blockStart 0 from rfl, place_zero]
      simp [growAndEmplace, hf.Blocks, hf.blockIdx, block]
    · rw [hc.size_of_full hfull, place_zero, growAndEmplace,
        if_neg (List.ne_nil_of_length_pos (Nat.zero_lt_of_lt hc.lt))]
      split_ifs <;> rfl
  · rcases hs.cursor with hf | hc
    · exact absurd (hf.pos.trans hf.bound.symm) hfull
    · exact hc.pos_eq hfull

theorem Inv.back_eq (hs : Inv l s) (hl : l ≠ []) : s.back = l.getLast? := by
  have hne : 0 < s.size := hs.size ▸ List.length_pos_iff.2 hl
  rw [back, (hs.cursor_of_nonempty hne).pos_sub_one_eq hne, hs.slots, hs.size, List.getLast?_eq_getElem?]

/-- The iterator is at the `i`-th element. -/
structure Iterator.IsAt (s : StableVector T) (i : ℕ) (it : Iterator) (k offset : ℕ) : Prop where
  lt : offset < blockSize k
  index : i = blockStart k + offset
  le : k ≤ s.blockIdx
  It : it.It = .at k offset
  ItEnd : it.ItEnd = if k = s.blockIdx then s.pos else .at k (blockSize k)
  Outer : it.Outer = k
  OuterEnd : it.OuterEnd = s.blockIdx + 1
  Total : k < s.blockIdx → it.Total = blockSize (k + 1)
  Pos : it.Pos = s.pos

theorem beginIterator_isAt (hne : 0 < s.size) :
    s.beginIterator.IsAt s 0 0 0 := by
  rw [StableVector.beginIterator, if_neg hne.ne', iterator, if_neg (Nat.succ_ne_zero _)]
  refine ⟨blockSize_pos 0, rfl, Nat.zero_le _, rfl, ?_, rfl, rfl, fun _ => rfl, rfl⟩
  simp only [Nat.add_sub_cancel, eq_comm (a := s.blockIdx)]
  split_ifs
  · rfl
  · simp [block, Ptr.add, blockSize]

/-- The next element of the vector, or the end. -/
theorem Iterator.IsAt.next {i k offset : ℕ} {it : Iterator} (h : it.IsAt s i k offset) (hc : Cursor s)
    (hi : i < s.size) : if i + 1 < s.size then ∃ k' offset', it.next.IsAt s (i + 1) k' offset'
      else it.next.It = .null := by
  have hstart := hc.start_le
  have hindex := h.index
  rw [Iterator.next, h.It, h.ItEnd, Ptr.add]
  by_cases hk : k = s.blockIdx
  · subst hk
    rw [if_pos rfl, hc.pos]
    simp only [ne_eq, Ptr.at.injEq, true_and]
    by_cases hlast : i + 1 < s.size
    · rw [if_pos hlast, if_pos (by omega)]
      have hle := hc.le
      rw [blockStart_succ] at hle
      exact ⟨_, offset + 1, by omega, by omega, le_rfl, rfl, by rw [if_pos rfl, hc.pos],
        h.Outer, h.OuterEnd,
        h.Total, h.Pos⟩
    · rw [if_neg hlast, if_neg (by omega), if_pos]
      rw [h.Outer, h.OuterEnd, Nat.add_sub_cancel]
  · have hlt : k < s.blockIdx := lt_of_le_of_ne h.le hk
    have hstart' := blockStart_succ k
    have hmono : blockStart (k + 1) ≤ blockStart s.blockIdx := blockStart_mono hlt
    have hne := hc.nonempty (by omega)
    have hoffset := h.lt
    rw [if_neg hk, if_pos (by omega)]
    simp only [ne_eq, Ptr.at.injEq, true_and]
    by_cases hend : offset + 1 = blockSize k
    · rw [if_neg (by omega), h.Outer, h.OuterEnd, Nat.add_sub_cancel, if_neg hk]
      by_cases htail : k + 1 = s.blockIdx
      · rw [if_pos htail]
        refine ⟨k + 1, 0, blockSize_pos _, by omega, hlt, rfl, ?_, rfl, rfl, fun h' => ?_, h.Pos⟩
        · rw [if_pos htail]
          exact h.Pos
        · omega
      · rw [if_neg htail]
        refine ⟨k + 1, 0, blockSize_pos _, by omega, hlt, rfl, ?_, rfl, rfl, fun _ => ?_, h.Pos⟩
        · rw [if_neg htail]
          simp [block, Ptr.add, h.Total hlt]
        · show it.Total * 2 = _
          rw [h.Total hlt, blockSize_mul_two]
    · rw [if_pos (by omega)]
      exact ⟨k, offset + 1, by omega, by omega, h.le, rfl, by rw [if_neg hk], h.Outer,
        h.OuterEnd, h.Total, h.Pos⟩

theorem Inv.elements_isAt (hs : Inv l s) (hc : Cursor s) {rounds i k offset : ℕ} {it : Iterator}
    (h : it.IsAt s i k offset) (hi : i < s.size) (hrounds : s.size - i ≤ rounds) :
    s.elements rounds it = some ((l.drop i).map some) := by
  induction rounds generalizing i k offset it with
  | zero => omega
  | succ rounds ih =>
    have hlen := hs.size
    have haddr : it.It = subscriptHelper i := by
      rw [h.It, h.index, subscriptHelper_add h.lt]
    have hend : s.endIterator.It = .null := by
      rw [endIterator, iterator, if_pos rfl]
    rw [elements, hend, if_neg (haddr ▸ subscriptHelper_ne_null i), haddr, hs.slots,
      List.drop_eq_getElem_cons (hlen ▸ hi), List.map_cons, List.getElem?_eq_getElem (hlen ▸ hi)]
    have hnext := h.next hc hi
    split_ifs at hnext with hlast
    · obtain ⟨k', offset', hat⟩ := hnext
      rw [ih hat hlast (by omega), Option.map_some]
    · have hdone : s.elements rounds it.next = some [] := by
        cases rounds <;> rw [elements, hend, if_pos hnext]
      rw [hdone, List.drop_eq_nil_of_le (by omega)]
      rfl

/-- Iteration from begin to end reads the elements in their order. -/
theorem Inv.elements_eq (hs : Inv l s) {rounds : ℕ} (hrounds : s.size ≤ rounds) :
    s.elements rounds s.beginIterator = some (l.map some) := by
  by_cases h0 : s.size = 0
  · have hnil : l = [] := List.eq_nil_of_length_eq_zero (hs.size.symm.trans h0)
    rw [hnil, beginIterator, if_pos h0]
    cases rounds <;> rw [elements, if_pos rfl] <;> rfl
  · have hpos := Nat.pos_of_ne_zero h0
    exact hs.elements_isAt (hs.cursor_of_nonempty hpos) (beginIterator_isAt hpos) hpos (by omega)

section Equality

variable [BEq T] {s' : StableVector T} {l' : List T} {slots slots' : Slots T}

theorem equalRange_iff {p p' : Ptr} {n : ℕ} : equalRange slots slots' p p' n = true ↔
    ∀ i < n, (slots (p.add i) == slots' (p'.add i)) = true := by
  induction n with
  | zero => simp [equalRange]
  | succ n ih => rw [equalRange, Bool.and_eq_true, ih, Nat.forall_lt_succ_right]

/-- A range in one block is a range of indices. -/
theorem equalRange_block {k n : ℕ} (hn : n ≤ blockSize k) :
    equalRange slots slots' (.at k 0) (.at k 0) n = true ↔ ∀ i, blockStart k ≤ i → i < blockStart k + n →
      (slots (subscriptHelper i) == slots' (subscriptHelper i)) = true := by
  rw [equalRange_iff]
  constructor
  · intro h i hle hlt
    have hi := h (i - blockStart k) (by omega)
    rw [Ptr.add, Nat.zero_add, ← subscriptHelper_add (by omega)] at hi
    rwa [show blockStart k + (i - blockStart k) = i by omega] at hi
  · intro h i hi
    rw [Ptr.add, Nat.zero_add, ← subscriptHelper_add (by omega)]
    exact h _ (Nat.le_add_right _ _) (by omega)

theorem equalBlocks_iff {count k : ℕ} :
    equalBlocks slots slots' count k (blockSize k) (blockSize (k + 1)) = true ↔
      ∀ i, blockStart k ≤ i → i < blockStart (k + count) →
        (slots (subscriptHelper i) == slots' (subscriptHelper i)) = true := by
  induction count generalizing k with
  | zero =>
    simp only [equalBlocks, Nat.add_zero, true_iff]
    omega
  | succ count ih =>
    have hmono : blockStart (k + 1) ≤ blockStart (k + (count + 1)) := blockStart_mono (by omega)
    rw [equalBlocks, Bool.and_eq_true, blockSize_mul_two, ih, block, equalRange_block le_rfl, ← blockStart_succ,
      show k + 1 + count = k + (count + 1) by omega]
    have hstart := blockStart_succ k
    constructor
    · rintro ⟨h, h'⟩ i hle hlt
      by_cases hi : i < blockStart (k + 1)
      · exact h i hle hi
      · exact h' i (not_lt.1 hi) hlt
    · intro h
      exact ⟨fun i hle hlt => h i hle (by omega), fun i hle hlt => h i (by omega) hlt⟩

omit [BEq T] in
/-- The current block is determined by the size. -/
theorem Cursor.blockIdx_le (hc : Cursor s) (hc' : Cursor s') (hsize : s.size = s'.size) :
    s.blockIdx ≤ s'.blockIdx := by
  by_contra hlt
  have hmono : blockStart (s'.blockIdx + 1) ≤ blockStart s.blockIdx := blockStart_mono (by omega)
  have hne := hc.nonempty (by omega)
  have hle := hc'.le
  omega

theorem beq_iff_getElem? : (l == l') = true ↔
    l.length = l'.length ∧ ∀ i < l.length, (l[i]? == l'[i]?) = true := by
  induction l generalizing l' with
  | nil => cases l' <;> simp
  | cons x l ih =>
    cases l' with
    | nil => simp
    | cons y l' =>
      rw [List.cons_beq_cons, Bool.and_eq_true, ih, List.length_cons, List.length_cons, Nat.succ_inj]
      constructor
      · rintro ⟨hxy, hlen, h⟩
        refine ⟨hlen, fun i hi => ?_⟩
        cases i with
        | zero => simpa using hxy
        | succ i => simpa using h i (by omega)
      · rintro ⟨hlen, h⟩
        exact ⟨by simpa using h 0 (Nat.succ_pos _), hlen, fun i hi => by simpa using h (i + 1) (by omega)⟩

/-- The comparison of the vectors is the comparison of the lists. -/
theorem Inv.equal_eq (hs : Inv l s) (hs' : Inv l' s') : s.equal s' = (l == l') := by
  rw [Bool.eq_iff_iff, beq_iff_getElem?, ← hs.size, ← hs'.size, equal]
  split_ifs with hsize h0
  · simp [hsize]
  · rw [not_not] at hsize
    simp [h0, ← hsize]
  · rw [not_not] at hsize
    have hc := hs.cursor_of_nonempty (Nat.pos_of_ne_zero h0)
    have hc' := hs'.cursor_of_nonempty (hsize ▸ Nat.pos_of_ne_zero h0)
    have hidx : s.blockIdx = s'.blockIdx :=
      le_antisymm (hc.blockIdx_le hc' hsize) (hc'.blockIdx_le hc hsize.symm)
    have hle := hc.start_le
    have hle' := hc.le
    rw [blockStart_succ] at hle'
    have hblocks : equalBlocks s.slots s'.slots s.blockIdx 0 initialCapacity initialCapacity = true ↔ _ :=
      equalBlocks_iff (k := 0)
    rw [Bool.and_eq_true, hblocks, hc.start, hc'.start, ← hidx, hc.pos, Ptr.diff, Nat.sub_zero,
      equalRange_block (by omega), Nat.zero_add]
    simp only [hs.slots, hs'.slots, hsize, true_and]
    rw [hsize] at hle hle'
    constructor
    · rintro ⟨h, h'⟩ i hi
      by_cases hlt : i < blockStart s.blockIdx
      · exact h i (Nat.zero_le i) hlt
      · exact h' i (not_lt.1 hlt) (by omega)
    · intro h
      exact ⟨fun i _ hlt => h i (by omega), fun i _ hlt => h i (by omega)⟩

end Equality

/-! ### Sequences of operations -/

inductive Op (T : Type*)
  | emplaceBack (v : T)
  | popBack
  | popBackN (n : ℕ)
  | clear

namespace Op

def run : Op T → StableVector T → StableVector T
  | emplaceBack v => StableVector.emplaceBack v
  | popBack => StableVector.popBack
  | popBackN n => StableVector.popBackN n
  | clear => StableVector.clear

/-- The operation on a list. -/
def onList : Op T → List T → List T
  | emplaceBack v, l => l ++ [v]
  | popBack, l => l.dropLast
  | popBackN n, l => l.take (l.length - n)
  | clear, _ => []

/-- What the assertions require: there are enough elements. -/
def Valid : Op T → List T → Prop
  | emplaceBack _, _ => True
  | popBack, l => l ≠ []
  | popBackN n, l => n ≤ l.length
  | clear, _ => True

/-- Elements that stay keep their places in the list. -/
theorem getElem?_onList (op : Op T) {i : ℕ} (hi : i < l.length) (hi' : i < (op.onList l).length) :
    (op.onList l)[i]? = l[i]? := by
  cases op with
  | emplaceBack v => exact List.getElem?_append_left hi
  | popBack =>
    rw [onList, List.length_dropLast] at hi'
    rw [onList, List.getElem?_dropLast, if_pos hi']
  | popBackN n =>
    rw [onList, List.length_take] at hi'
    rw [onList, List.getElem?_take, if_pos (by omega)]
  | clear => exact absurd hi' (Nat.not_lt_zero i)

end Op

def runOps : List (Op T) → StableVector T → StableVector T
  | [], s => s
  | op :: ops, s => runOps ops (op.run s)

def listOps : List (Op T) → List T → List T
  | [], l => l
  | op :: ops, l => listOps ops (op.onList l)

def ValidOps : List (Op T) → List T → Prop
  | [], _ => True
  | op :: ops, l => op.Valid l ∧ ValidOps ops (op.onList l)

/-- The element at the index stays in the list. -/
def Stays (i : ℕ) : List (Op T) → List T → Prop
  | [], l => i < l.length
  | op :: ops, l => i < l.length ∧ Stays i ops (op.onList l)

theorem Inv.run {op : Op T} (hs : Inv l s) (hop : op.Valid l) : Inv (op.onList l) (op.run s) := by
  cases op with
  | emplaceBack v => exact hs.emplaceBack v
  | popBack => exact hs.popBack (hs.size ▸ List.length_pos_iff.2 hop)
  | popBackN n => exact hs.popBackN (hs.size ▸ hop)
  | clear => exact hs.clear

theorem Inv.runOps {ops : List (Op T)} (hs : Inv l s) (hops : ValidOps ops l) :
    Inv (listOps ops l) (StableVector.runOps ops s) := by
  induction ops generalizing l s with
  | nil => exact hs
  | cons op ops ih => exact ih (hs.run hops.1) hops.2

theorem inv_empty : Inv [] ({} : StableVector T) :=
  ⟨rfl, fun _ => rfl, fun _ _ hi => absurd hi nofun, Or.inl ⟨rfl, rfl, rfl, rfl, rfl, rfl⟩⟩

theorem Stays.lt {ops : List (Op T)} {i : ℕ} (h : Stays i ops l) : i < l.length := by
  cases ops with
  | nil => exact h
  | cons op ops => exact h.1

/-- An element that stays is not moved. -/
theorem Inv.slots_runOps {ops : List (Op T)} {i : ℕ} (hs : Inv l s) (hops : ValidOps ops l)
    (hi : Stays i ops l) :
    (StableVector.runOps ops s).slots (subscriptHelper i) = s.slots (subscriptHelper i) := by
  induction ops generalizing l s with
  | nil => rfl
  | cons op ops ih =>
    have hrun := hs.run hops.1
    rw [StableVector.runOps, ih hrun hops.2 hi.2, hrun.slots, hs.slots,
      op.getElem?_onList hi.1 hi.2.lt]

/-- The vector is read like the list. -/
structure ReadsAs (s : StableVector T) (l : List T) : Prop where
  size : s.size = l.length
  get : ∀ i < s.size, s.get i = l[i]?
  back : l ≠ [] → s.back = l.getLast?
  elements : ∀ rounds, s.size ≤ rounds → s.elements rounds s.beginIterator = some (l.map some)
  emplaceBackRef : ∀ v, s.emplaceBackRef v = subscriptHelper s.size

/-- After any operations, the vector is read and compared like the list that the same operations give; and
the elements stay at the addresses that they got when they were added. -/
theorem refines_list [BEq T] {ops : List (Op T)} (hops : ValidOps ops []) :
    ReadsAs (runOps ops {}) (listOps ops []) ∧
    (∀ ops', ValidOps ops' [] →
      (runOps ops {}).equal (runOps ops' {}) = (listOps ops [] == listOps ops' [])) ∧
    ∀ ops', ValidOps ops' (listOps ops []) → ∀ i, Stays i ops' (listOps ops []) →
      (runOps ops' (runOps ops {})).slots (subscriptHelper i) =
        (runOps ops {}).slots (subscriptHelper i) := by
  have hs := inv_empty.runOps hops
  refine ⟨⟨hs.size, fun i _ => hs.slots i, hs.back_eq, fun _ => hs.elements_eq, hs.emplaceBackRef_eq⟩,
    fun ops' hops' => hs.equal_eq (inv_empty.runOps hops'), fun ops' hops' i hi => ?_⟩
  exact hs.slots_runOps hops' hi

/-- Three elements, two of them removed at once, and another one. -/
theorem refines_list_four :
    ReadsAs (runOps [.emplaceBack 1, .emplaceBack 2, .emplaceBack 3, .popBackN 2, .emplaceBack 4] {})
      [1, 4] := by
  have hops : ValidOps [.emplaceBack 1, .emplaceBack 2, .emplaceBack 3, .popBackN 2, .emplaceBack 4] [] :=
    ⟨trivial, trivial, trivial, Nat.le_succ 2, trivial, trivial⟩
  exact (refines_list hops).1

end StableVector

end Phasar
