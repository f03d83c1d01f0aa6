import Phasar.Utils.BlockMemory

/-!
# Vectors with stable addresses, on their memory

* `BlockVector`: the operations, with `shrinkToFit` and `destructor`;
* `Sim`: the vector is the one with numbered blocks, up to the places of the blocks;
* `Dangling`: the blocks are deallocated, but the cursor stays; `behaves_iff`: when that happens.
-/

namespace Phasar

namespace StableVectorMemory

open StableVector (Inv Cursor Fresh blockSize blockStart initialCapacity initialLogCapacity Iterator)

structure BlockVector (T : Type*) extends Memory T where
  start : Ptr := .null
  pos : Ptr := .null
  bound : Ptr := .null
  size : ℕ := 0
  blockIdx : ℕ := 0

namespace BlockVector

variable {T : Type*}

/-- The current block, of `growAndEmplace`. -/
def nextBlock (m : BlockVector T) : Option (BlockVector T) :=
  if m.Blocks = [] then
    some { m with
      toMemory := m.makeBlock initialCapacity
      bound := (Ptr.at m.next 0).add initialCapacity }
  else if m.blockIdx < m.Blocks.length - 1 then
    (m.block (m.blockIdx + 1)).map fun p =>
      { m with blockIdx := m.blockIdx + 1, bound := p.add m.size }
  else
    some { m with
      blockIdx := m.blockIdx + 1
      toMemory := m.makeBlock m.size
      bound := (Ptr.at m.next 0).add m.size }

def growAndEmplace (v : T) (m : BlockVector T) : Option (BlockVector T) :=
  m.nextBlock.bind fun m => (m.block m.blockIdx).bind fun Ret => (m.construct v Ret).map fun mem =>
    { m with toMemory := mem, start := Ret, pos := Ret.add 1, size := m.size + 1 }

def emplaceBack (v : T) (m : BlockVector T) : Option (BlockVector T) :=
  if m.pos = m.bound then m.growAndEmplace v
  else (m.construct v m.pos).map fun mem =>
    { m with toMemory := mem, pos := m.pos.add 1, size := m.size + 1 }

/-- The end of a block becomes the end of the block before it. -/
def previousBlock (m : BlockVector T) : Option (BlockVector T) :=
  if m.blockIdx - 1 ≠ 0 then
    let blockSize := m.bound.diff m.start
    (m.block (m.blockIdx - 1)).map fun p =>
      { m with
        blockIdx := m.blockIdx - 1, start := p, pos := p.add (blockSize / 2), bound := p.add (blockSize / 2) }
  else
    (m.block 0).map fun p =>
      { m with blockIdx := 0, start := p, pos := p.add initialCapacity, bound := p.add initialCapacity }

def popBack (m : BlockVector T) : Option (BlockVector T) :=
  (m.destroyAt (m.pos.sub 1)).bind fun mem =>
    let m := { m with toMemory := mem, pos := m.pos.sub 1, size := m.size - 1 }
    if m.pos ≠ m.start then some m else if m.blockIdx ≠ 0 then m.previousBlock else some m

/-- The first slot of the first block, after `clear` and at the end of `pop_back_n`. -/
def toFront (m : BlockVector T) : Option (BlockVector T) :=
  (m.block 0).map fun p => { m with start := p, pos := p, bound := p.add initialCapacity }

/-- Remove the elements of the current block. -/
def popBlock (m : BlockVector T) : Option (BlockVector T) :=
  (m.destroyN m.start (m.pos.diff m.start)).bind fun mem =>
    let m := { m with toMemory := mem, size := m.size - m.pos.diff m.start }
    if m.blockIdx ≠ 0 then m.previousBlock else m.toFront

/-- The loop of `pop_back_n`; each round removes an element, so `n` rounds are enough. -/
def popBackLoop : ℕ → ℕ → BlockVector T → Option (BlockVector T)
  | 0, _, m => some m
  | fuel + 1, n, m =>
    let numElementsInCurrBlock := m.pos.diff m.start
    if n < numElementsInCurrBlock then
      (m.destroyN (m.pos.sub n) n).map fun mem =>
        { m with toMemory := mem, pos := m.pos.sub n, size := m.size - n }
    else if n - numElementsInCurrBlock = 0 then m.popBlock
    else m.popBlock.bind (popBackLoop fuel (n - numElementsInCurrBlock))

def popBackN (n : ℕ) (m : BlockVector T) : Option (BlockVector T) :=
  if n = 0 then some m else popBackLoop n n m

def clear (m : BlockVector T) : Option (BlockVector T) :=
  (m.destroyBlocks m.blockIdx 0 initialCapacity initialCapacity).bind fun mem =>
    (mem.destroyN m.start (m.pos.diff m.start)).bind fun mem =>
      let m := { m with toMemory := mem, blockIdx := 0, size := 0 }
      if m.Blocks = [] then some m else m.toFront

def shrinkToFit (m : BlockVector T) : Option (BlockVector T) :=
  if m.Blocks = [] ∨ m.blockIdx = m.Blocks.length - 1 then some m
  else
    -- the first block of an empty vector goes as well, while `start`, `pos` and `bound` stay in it
    (if m.size = 0 then (m.block 0).bind fun p => m.deallocate p initialCapacity
      else some m.toMemory).bind fun mem =>
    (mem.deallocateSpare (m.Blocks.length - (m.blockIdx + 1)) (m.blockIdx + 1)
      (2 ^ (m.blockIdx + initialLogCapacity))).map fun mem =>
    { m with toMemory := { mem with
      Blocks := mem.Blocks.take (m.blockIdx + if m.size ≠ 0 then 1 else 0) } }

/-- The memory after the destructor. -/
def destructor (m : BlockVector T) : Option (Memory T) :=
  (m.destroyFull m.blockIdx 0 initialCapacity initialCapacity).bind fun full =>
    (full.2.2.destroyN m.start (m.pos.diff m.start)).bind fun mem =>
      (mem.deallocateRest (m.Blocks.length - m.blockIdx) m.blockIdx full.1 full.2.1).map fun mem =>
        { mem with Blocks := [] }

def back (m : BlockVector T) : Option T := m.read (m.pos.sub 1)

def endIterator (m : BlockVector T) : Option Iterator := m.iterator (m.blockIdx + 1) (m.blockIdx + 1) .null

def beginIterator (m : BlockVector T) : Option Iterator :=
  if m.size = 0 then m.endIterator else m.iterator 0 (m.blockIdx + 1) m.pos

end BlockVector

/-! ### The vector with numbered blocks -/

variable {T : Type*} {i k n offset : ℕ} {P : ℕ → Prop} {mem : Memory T} {slots : Slots T}

/-- The vector is the one with numbered blocks, up to the places of the blocks. -/
structure Sim (m : BlockVector T) (s : StableVector T) : Prop where
  holds : Holds (fun _ => True) m.toMemory s.slots
  length : m.Blocks.length = s.Blocks.length
  start : m.start = place m.Blocks s.start
  pos : m.pos = place m.Blocks s.pos
  bound : m.bound = place m.Blocks s.bound
  size : m.size = s.size
  blockIdx : m.blockIdx = s.blockIdx

variable {m m' : BlockVector T} {s s' : StableVector T} {l : List T} {v : T}

/-- The operation gives the vector, up to the places of its blocks. -/
def Simulates (s : StableVector T) (result : Option (BlockVector T)) : Prop :=
  ∃ m, result = some m ∧ Sim m s

theorem Sim.pos_eq_bound_iff (h : Sim m s) (hs : Inv l s) : m.pos = m.bound ↔ s.pos = s.bound := by
  rw [h.pos, h.bound]
  rcases hs.cursor with hf | hc
  · simp [hf.pos, hf.bound]
  · rw [hc.pos, hc.bound, place_at_inj, Ptr.at.injEq, and_iff_right rfl]

theorem Sim.blocks_eq_nil_iff (h : Sim m s) : m.Blocks = [] ↔ s.Blocks = [] := by
  rw [← List.length_eq_zero_iff, h.length, List.length_eq_zero_iff]

theorem Sim.blockIdx_lt (h : Sim m s) (hc : Cursor s) : s.blockIdx < m.Blocks.length := by
  rw [h.length]
  exact hc.lt

/-- The slots of a block behind the elements are empty. -/
theorem slots_eq_none (hs : Inv l s) (hsize : s.size ≤ blockStart k) (hoffset : offset < blockSize k) :
    s.slots (.at k offset) = none := by
  rw [← StableVector.subscriptHelper_add hoffset, hs.slots, List.getElem?_eq_none]
  rw [← hs.size]
  omega

/-- The parts of `growAndEmplace` that do not depend on the block. -/
theorem growAndEmplace_eq (v : T) (s : StableVector T) :
    (s.growAndEmplace v).start = StableVector.block (s.growAndEmplace v).blockIdx ∧
    (s.growAndEmplace v).pos = (StableVector.block (s.growAndEmplace v).blockIdx).add 1 ∧
    (s.growAndEmplace v).size = s.size + 1 ∧
    (s.growAndEmplace v).slots = Function.update s.slots (.at (s.growAndEmplace v).blockIdx 0) (some v) := by
  rw [StableVector.growAndEmplace]
  split_ifs <;> exact ⟨rfl, rfl, rfl, rfl⟩

/-- The next block, when the current one is full. -/
theorem Sim.nextBlock (h : Sim m s) (hs : Inv l s) (hfull : s.pos = s.bound) (v : T) :
    ∃ m', m.nextBlock = some m' ∧ Holds (fun _ => True) m'.toMemory s.slots ∧
      m'.Blocks.length = (s.growAndEmplace v).Blocks.length ∧
      m'.bound = place m'.Blocks (s.growAndEmplace v).bound ∧ m'.size = s.size ∧
      m'.blockIdx = (s.growAndEmplace v).blockIdx ∧ m'.blockIdx < m'.Blocks.length := by
  rw [BlockVector.nextBlock, StableVector.growAndEmplace]
  rcases hs.cursor with hf | hc
  -- the first block
  · have hnil := h.blocks_eq_nil_iff.2 hf.Blocks
    have hmake := h.holds.makeBlock fun offset hoffset =>
      slots_eq_none hs (by rw [hf.size]; exact Nat.zero_le _) hoffset
    rw [hnil] at hmake
    refine ⟨_, if_pos hnil, hmake, ?_⟩
    simp [Memory.makeBlock, hnil, hf.Blocks, h.size, h.blockIdx, hf.blockIdx, StableVector.block, Ptr.add, place]
  · have hlt := h.blockIdx_lt hc
    have hsize := hc.size_of_full hfull
    have hne : s.Blocks ≠ [] := List.ne_nil_of_length_pos (Nat.zero_lt_of_lt hc.lt)
    rw [if_neg (h.blocks_eq_nil_iff.not.2 hne), if_neg hne, h.length, h.blockIdx, h.size]
    by_cases hreuse : s.blockIdx < s.Blocks.length - 1
    -- a block that `clear` or `pop_back` has left behind
    · have hlt' : s.blockIdx + 1 < m.Blocks.length := by
        rw [h.length]
        omega
      rw [if_pos hreuse, if_pos hreuse, Memory.block_eq hlt']
      refine ⟨_, rfl, h.holds, h.length, ?_, rfl, rfl, hlt'⟩
      dsimp only
      rw [place_add]
    -- a new block, as large as all blocks before it
    · have hlast : s.blockIdx + 1 = m.Blocks.length := by
        rw [h.length]
        have hlt := hc.lt
        omega
      rw [if_neg hreuse, if_neg hreuse]
      have hmake := h.holds.makeBlock fun offset hoffset =>
        slots_eq_none hs (by rw [hsize, hlast]) hoffset
      rw [← hlast, StableVector.blockSize_succ, ← hsize] at hmake
      refine ⟨_, rfl, hmake, ?_, ?_, rfl, rfl, ?_⟩
      · simp [Memory.makeBlock, h.length]
      · show (Ptr.at m.next 0).add s.size =
          place (m.Blocks ++ [m.next]) ((StableVector.block s.Blocks.length).add s.size)
        rw [place_add, StableVector.block, ← h.length, place_concat_length]
      · show s.blockIdx + 1 < (m.Blocks ++ [m.next]).length
        rw [hlast, List.length_append, List.length_singleton]
        exact Nat.lt_succ_self _

theorem Sim.growAndEmplace (h : Sim m s) (hs : Inv l s) (hfull : s.pos = s.bound) (v : T) :
    Simulates (s.growAndEmplace v) (m.growAndEmplace v) := by
  obtain ⟨m₁, hm₁, hholds, hlength, hbound, hsize, hidx, hlt⟩ := h.nextBlock hs hfull v
  obtain ⟨hstart, hpos, hsize', hslots⟩ := growAndEmplace_eq v s
  obtain ⟨mem, hmem, hBlocks, hholds'⟩ := hholds.put hlt trivial (StableVector.blockSize_pos _) (some v)
  rw [BlockVector.growAndEmplace, hm₁, Option.bind_some, Memory.block_eq hlt, Option.bind_some,
    Memory.construct, StableVector.block, hmem]
  refine ⟨_, rfl, ?_, ?_, ?_, ?_, ?_, ?_, hidx⟩
  · rw [hslots, ← hidx]
    exact hholds'
  · exact (congrArg List.length hBlocks).trans hlength
  · rw [hBlocks, hstart, ← hidx]
    rfl
  · rw [hBlocks, hpos, ← hidx]
    rfl
  · rw [hBlocks]
    exact hbound
  · rw [hsize']
    exact congrArg Nat.succ hsize

theorem Sim.emplaceBack (h : Sim m s) (hs : Inv l s) (v : T) : Simulates (s.emplaceBack v) (m.emplaceBack v) := by
  rw [BlockVector.emplaceBack, StableVector.emplaceBack]
  by_cases hfull : s.pos = s.bound
  · rw [if_pos hfull, if_pos ((h.pos_eq_bound_iff hs).2 hfull)]
    exact h.growAndEmplace hs hfull v
  · rw [if_neg hfull, if_neg ((h.pos_eq_bound_iff hs).not.2 hfull)]
    have hc := hs.cursor.resolve_left fun hf => hfull (hf.pos.trans hf.bound.symm)
    have hlt : s.size - blockStart s.blockIdx < blockSize s.blockIdx := by
      have hle := hc.le
      have hle' := hc.start_le
      rw [hc.pos, hc.bound, Ptr.at.injEq] at hfull
      rw [StableVector.blockStart_succ] at hle
      omega
    obtain ⟨mem, hmem, hBlocks, hholds⟩ := h.holds.put (h.blockIdx_lt hc) trivial hlt (some v)
    rw [← hc.pos, ← h.pos] at hmem
    rw [← hc.pos] at hholds
    rw [Memory.construct, hmem]
    refine ⟨_, rfl, hholds, ?_, ?_, ?_, ?_, congrArg Nat.succ h.size, h.blockIdx⟩ <;> dsimp only <;>
      rw [hBlocks]
    exacts [h.length, h.start, by rw [h.pos, place_add], h.bound]

theorem Sim.previousBlock (h : Sim m s) (hlt : s.blockIdx < s.Blocks.length) :
    Simulates s.previousBlock m.previousBlock := by
  rw [BlockVector.previousBlock, StableVector.previousBlock, h.blockIdx]
  rw [← h.length] at hlt
  split_ifs with hidx
  · have hlt' : s.blockIdx - 1 < m.Blocks.length := by omega
    rw [Memory.block_eq hlt', h.bound, h.start, place_diff]
    refine ⟨_, rfl, h.holds, h.length, rfl, ?_, ?_, h.size, rfl⟩ <;> dsimp only <;> rw [place_add]
  · rw [Memory.block_eq (Nat.zero_lt_of_lt hlt)]
    refine ⟨_, rfl, h.holds, h.length, rfl, ?_, ?_, h.size, rfl⟩ <;> dsimp only <;> rw [place_add]

theorem Sim.toFront (h : Sim m s) (hlt : 0 < s.Blocks.length) :
    Simulates { s with
      start := StableVector.block 0
      pos := StableVector.block 0
      bound := (StableVector.block 0).add initialCapacity } m.toFront := by
  rw [← h.length] at hlt
  rw [BlockVector.toFront, Memory.block_eq hlt]
  refine ⟨_, rfl, h.holds, h.length, rfl, rfl, ?_, h.size, h.blockIdx⟩
  dsimp only
  rw [place_add]

/-- Other slots, and another place in the current block. -/
theorem Sim.update {slots : Slots T} (h : Sim m s) (size : ℕ) (hBlocks : mem.Blocks = m.Blocks)
    (hholds : Holds (fun _ => True) mem slots) (p : Ptr) :
    Sim { m with toMemory := mem, pos := place m.Blocks p, size } { s with pos := p, size, slots } := by
  refine ⟨hholds, ?_, ?_, ?_, ?_, rfl, h.blockIdx⟩ <;> dsimp only <;> rw [hBlocks]
  exacts [h.length, h.start, h.bound]

theorem Sim.popBack (h : Sim m s) (hs : Inv l s) (hne : 0 < s.size) : Simulates s.popBack m.popBack := by
  have hc := hs.cursor_of_nonempty hne
  have hlt : s.size - 1 - blockStart s.blockIdx < blockSize s.blockIdx := by
    have hle := hc.le
    have hle' := hc.start_le_pred
    rw [StableVector.blockStart_succ] at hle
    omega
  obtain ⟨mem, hmem, hBlocks, hholds⟩ := h.holds.put (h.blockIdx_lt hc) trivial hlt none
  rw [← hc.pos_sub_one] at hmem hholds
  have hsim := h.update (s.size - 1) hBlocks hholds (s.pos.sub 1)
  have hstart : place m.Blocks (s.pos.sub 1) = place m.Blocks s.start ↔ s.pos.sub 1 = s.start := by
    rw [hc.pos_sub_one, hc.start, place_at_inj, Ptr.at.injEq, and_iff_right rfl]
  rw [BlockVector.popBack, StableVector.popBack, Memory.destroyAt, h.pos, ← place_sub, hmem, Option.bind_some]
  dsimp only
  rw [h.start, h.size, h.blockIdx]
  rw [h.start, h.blockIdx] at hsim
  by_cases hpos : s.pos.sub 1 = s.start
  · rw [if_neg (not_not.2 hpos), if_neg (not_not.2 (hstart.2 hpos))]
    split_ifs with hidx
    · exact hsim.previousBlock hc.lt
    · exact ⟨_, rfl, hsim⟩
  · rw [if_pos hpos, if_pos (hstart.not.2 hpos)]
    exact ⟨_, rfl, hsim⟩

theorem Sim.blockIdx_le (h : Sim m s) (hs : Inv l s) : s.blockIdx ≤ m.Blocks.length := by
  rcases hs.cursor with hf | hc
  · rw [hf.blockIdx]
    exact Nat.zero_le _
  · exact (h.blockIdx_lt hc).le

/-- The elements of the current block are destroyed. -/
theorem Sim.destroyCurrent (h : Sim m s) (hs : Inv l s) (hBlocks : mem.Blocks = m.Blocks)
    (hholds : Holds P mem slots) (hP : P s.blockIdx) :
    Gives P m.Blocks (slots.destroyN s.start (s.pos.diff s.start)) (mem.destroyN m.start (m.pos.diff m.start)) := by
  rw [h.pos, h.start, place_diff]
  rcases hs.cursor with hf | hc
  · rw [hf.pos, hf.start]
    exact ⟨mem, rfl, hBlocks, hholds⟩
  · have hle := hc.le
    rw [StableVector.blockStart_succ] at hle
    rw [hc.pos, hc.start, Ptr.diff, ← hBlocks]
    refine hholds.destroyN ?_ hP (by omega)
    rw [hBlocks]
    exact h.blockIdx_lt hc

theorem Sim.popBlock (h : Sim m s) (hs : Inv l s) (hc : Cursor s) : Simulates s.popBlock m.popBlock := by
  obtain ⟨mem, hmem, hBlocks, hholds⟩ := h.destroyCurrent hs rfl h.holds trivial
  have hsim := h.update (s.size - s.pos.diff s.start) hBlocks hholds s.pos
  rw [BlockVector.popBlock, StableVector.popBlock, hmem, Option.bind_some]
  dsimp only
  rw [h.pos, h.start, place_diff, h.size, h.blockIdx]
  rw [h.start, h.blockIdx] at hsim
  split_ifs with hidx
  · exact hsim.previousBlock hc.lt
  · exact hsim.toFront (Nat.zero_lt_of_lt hc.lt)

theorem Sim.popBackLoop (h : Sim m s) (hs : Inv l s) {fuel : ℕ} (hfuel : n ≤ fuel) (hpos : 0 < n)
    (hn : n ≤ s.size) : Simulates (s.popBackLoop fuel n) (m.popBackLoop fuel n) := by
  induction fuel generalizing l s m n with
  | zero => omega
  | succ fuel ih =>
    have hc := hs.cursor_of_nonempty (hpos.trans_le hn)
    have hdiff : m.pos.diff m.start = s.pos.diff s.start := by rw [h.pos, h.start, place_diff]
    rw [BlockVector.popBackLoop, StableVector.popBackLoop, hdiff]
    split_ifs with hlt hdone
    · have hle := hc.le
      have hle' := hc.start_le
      rw [StableVector.blockStart_succ] at hle
      rw [hc.pos, hc.start, Ptr.diff] at hlt
      have hsub : s.pos.sub n = .at s.blockIdx (s.size - blockStart s.blockIdx - n) := by rw [hc.pos, Ptr.sub]
      have hrange : s.size - blockStart s.blockIdx - n + n ≤ blockSize s.blockIdx := by omega
      obtain ⟨mem, hmem, hBlocks, hholds⟩ := h.holds.destroyN (h.blockIdx_lt hc) trivial hrange
      rw [← hsub] at hmem hholds
      rw [h.pos, ← place_sub, hmem, h.size]
      exact ⟨_, rfl, h.update (s.size - n) hBlocks hholds _⟩
    · exact h.popBlock hs hc
    · obtain ⟨m₁, hm₁, h₁⟩ := h.popBlock hs hc
      have hnum := hc.diff_pos (hpos.trans_le hn)
      have hsize := hs.popBlock_size hc
      rw [hm₁, Option.bind_some]
      exact ih h₁ (hs.popBlock hc) (by omega) (by omega) (by omega)

theorem Sim.popBackN (h : Sim m s) (hs : Inv l s) (hn : n ≤ s.size) :
    Simulates (s.popBackN n) (m.popBackN n) := by
  rw [BlockVector.popBackN, StableVector.popBackN]
  split_ifs with h0
  · exact ⟨m, rfl, h⟩
  · exact h.popBackLoop hs le_rfl (Nat.pos_of_ne_zero h0) hn

theorem Sim.clear (h : Sim m s) (hs : Inv l s) : Simulates s.clear m.clear := by
  have hle := h.blockIdx_le hs
  obtain ⟨mem, hmem, hBlocks, hholds⟩ := h.holds.destroyBlocks 0 s.blockIdx fun j _ hj =>
    ⟨by omega, trivial⟩
  obtain ⟨mem', hmem', hBlocks', hholds'⟩ := h.destroyCurrent hs hBlocks hholds trivial
  have hdestroy : m.destroyBlocks m.blockIdx 0 initialCapacity initialCapacity = some mem := h.blockIdx ▸ hmem
  have hsim : Sim { m with toMemory := mem', blockIdx := 0, size := 0 }
      { s with
        slots := (StableVector.destroyBlocks s.blockIdx 0 initialCapacity initialCapacity s.slots).destroyN s.start
          (s.pos.diff s.start)
        blockIdx := 0, size := 0 } := by
    refine ⟨hholds', ?_, ?_, ?_, ?_, rfl, rfl⟩ <;> dsimp only <;> rw [hBlocks']
    exacts [h.length, h.start, h.pos, h.bound]
  rw [BlockVector.clear, StableVector.clear, hdestroy, Option.bind_some, hmem', Option.bind_some]
  dsimp only
  rw [hBlocks']
  by_cases hnil : s.Blocks = []
  · rw [if_pos hnil, if_pos (h.blocks_eq_nil_iff.2 hnil)]
    exact ⟨_, rfl, hsim⟩
  · rw [if_neg hnil, if_neg (h.blocks_eq_nil_iff.not.2 hnil)]
    exact hsim.toFront (List.length_pos_iff.2 hnil)

/-! ### `shrink_to_fit` -/

/-- The vector without the blocks behind the current one. -/
def dropSpare (s : StableVector T) : StableVector T := { s with Blocks := s.Blocks.take (s.blockIdx + 1) }

theorem inv_dropSpare (hs : Inv l s) : Inv l (dropSpare s) := by
  refine ⟨hs.size, hs.slots, fun i n hi => ?_, ?_⟩
  · rw [dropSpare, List.getElem?_take] at hi
    split_ifs at hi
    exact hs.Blocks i n hi
  · refine hs.cursor.imp (fun hf => ⟨?_, hf.blockIdx, hf.start, hf.pos, hf.bound, hf.size⟩) fun hc =>
      ⟨?_, hc.start, hc.pos, hc.bound, hc.le, hc.nonempty⟩
    · rw [dropSpare, hf.Blocks, List.take_nil]
    · rw [dropSpare, List.length_take]
      exact lt_min (Nat.lt_succ_self _) hc.lt

/-- The vector is empty, and has more than the first block. -/
def SpareBlocks (m : BlockVector T) : Prop := m.size = 0 ∧ 1 < m.Blocks.length

theorem Sim.shrinkToFit (h : Sim m s) (hs : Inv l s) (hspare : ¬SpareBlocks m) :
    ∃ s', Inv l s' ∧ Simulates s' m.shrinkToFit := by
  rw [BlockVector.shrinkToFit]
  by_cases hstay : m.Blocks = [] ∨ m.blockIdx = m.Blocks.length - 1
  · rw [if_pos hstay]
    exact ⟨s, hs, m, rfl, h⟩
  · rw [if_neg hstay]
    obtain ⟨hnil, hidx⟩ := not_or.1 hstay
    have hpos := List.length_pos_iff.2 hnil
    -- an empty vector has its cursor in the first block, which is then not the last one
    have hsize : m.size ≠ 0 := by
      intro hsize
      have hidx0 : s.blockIdx = 0 := hs.blockIdx_eq_zero (h.size.symm.trans hsize)
      rw [h.blockIdx, hidx0] at hidx
      exact hspare ⟨hsize, by omega⟩
    have hc := hs.cursor_of_nonempty (Nat.pos_of_ne_zero (h.size ▸ hsize))
    have hlt := h.blockIdx_lt hc
    obtain ⟨mem, hmem, hBlocks, hholds⟩ := h.holds.deallocateRest (s.blockIdx + 1)
      (m.Blocks.length - (s.blockIdx + 1)) fun j _ hj => ⟨by omega, trivial⟩
    rw [← Holds.deallocateSpare_eq] at hmem
    have htake := hholds.take (k := s.blockIdx + 1) (by rw [hBlocks]; exact hlt) fun j hj => by
      rw [hBlocks] at hj
      rw [true_and]
      omega
    rw [if_neg hsize, if_pos hsize, Option.bind_some, h.blockIdx]
    refine ⟨dropSpare s, inv_dropSpare hs, _, congrArg (Option.map _) hmem, htake, ?_, ?_, ?_, ?_, h.size, rfl⟩ <;>
      dsimp only <;> rw [hBlocks]
    · rw [dropSpare, List.length_take, List.length_take, h.length]
    · rw [h.start, dropSpare, hc.start, place_take (Nat.lt_succ_self _)]
    · rw [h.pos, dropSpare, hc.pos, place_take (Nat.lt_succ_self _)]
    · rw [h.bound, dropSpare, hc.bound, place_take (Nat.lt_succ_self _)]

/-- All blocks are deallocated, but the cursor is still in the first one. -/
structure Dangling (m : BlockVector T) : Prop where
  Blocks : m.Blocks = []
  size : m.size = 0
  blockIdx : m.blockIdx = 0
  pos : m.pos = m.start
  ne : m.pos ≠ m.bound

/-- `shrink_to_fit` deallocates all blocks of an empty vector that has spare ones. -/
theorem Sim.shrinkToFit_spare (h : Sim m s) (hs : Inv l s) (hspare : SpareBlocks m) :
    ∃ m', m.shrinkToFit = some m' ∧ Dangling m' := by
  obtain ⟨hsize, hlen⟩ := hspare
  have hidx := hs.blockIdx_eq_zero (h.size.symm.trans hsize)
  have hc : Cursor s := by
    refine hs.cursor.resolve_left fun hf => ?_
    rw [h.length, hf.Blocks] at hlen
    exact absurd hlen (Nat.not_lt_zero 1)
  have hstay : ¬(m.Blocks = [] ∨ m.blockIdx = m.Blocks.length - 1) := by
    rw [← List.length_eq_zero_iff, h.blockIdx, hidx]
    omega
  obtain ⟨mem, hmem, hBlocks, hholds⟩ := h.holds.deallocate (Nat.zero_lt_of_lt hlen) trivial
  obtain ⟨mem', hmem', -, -⟩ := hholds.deallocateRest 1 (m.Blocks.length - 1) fun j hj hj' => by
    rw [hBlocks]
    exact ⟨by omega, trivial, by omega⟩
  rw [← Holds.deallocateSpare_eq] at hmem'
  have hfirst : m.deallocate (place m.Blocks (StableVector.block 0)) initialCapacity = some mem := hmem
  rw [BlockVector.shrinkToFit, if_neg hstay, if_pos hsize, if_neg (not_not.2 hsize),
    Memory.block_eq (Nat.zero_lt_of_lt hlen), Option.bind_some, hfirst, Option.bind_some, h.blockIdx, hidx]
  refine ⟨_, congrArg (Option.map _) hmem', rfl, hsize, rfl, ?_, ?_⟩ <;> dsimp only
  · rw [h.pos, h.start, hc.pos, hc.start, ← h.size, hsize, Nat.zero_sub]
  · rw [h.pos, h.bound, hc.pos, hc.bound, hidx, Ne, place_at_inj, ← h.size, hsize, Nat.zero_sub]
    exact (StableVector.blockSize_pos 0).ne

/-! ### The destructor -/

/-- The destructor deallocates every block. -/
theorem Sim.destructor (h : Sim m s) (hs : Inv l s) :
    ∃ mem, m.destructor = some mem ∧ ∀ b, mem.allocated b = none := by
  have hle := h.blockIdx_le hs
  obtain ⟨mem, slots, hmem, hBlocks, hholds⟩ := h.holds.destroyFull 0 s.blockIdx fun j _ hj =>
    ⟨by omega, trivial⟩
  rw [Nat.zero_add] at hholds
  obtain ⟨mem₁, hmem₁, hBlocks₁, hholds₁⟩ := h.destroyCurrent hs hBlocks hholds ⟨trivial, by omega⟩
  obtain ⟨mem₂, hmem₂, hBlocks₂, hholds₂⟩ := hholds₁.deallocateRest s.blockIdx
    (m.Blocks.length - s.blockIdx) fun j hj hj' => by
      rw [hBlocks₁]
      exact ⟨by omega, trivial, by omega⟩
  have hfull : m.destroyFull m.blockIdx 0 initialCapacity initialCapacity =
      some (blockSize s.blockIdx, blockSize (s.blockIdx + 1), mem) := by
    rw [Nat.zero_add, Nat.zero_add] at hmem
    rw [h.blockIdx]
    exact hmem
  refine ⟨{ mem₂ with Blocks := [] }, ?_, fun b => ?_⟩
  · rw [BlockVector.destructor, hfull, Option.bind_some]
    dsimp only
    rw [hmem₁, Option.bind_some, h.blockIdx, hmem₂, Option.map_some]
  · by_contra hb
    obtain ⟨n, hn⟩ := Option.ne_none_iff_exists'.1 hb
    obtain ⟨i, hi, hP, -⟩ := (hholds₂.allocated b n).1 hn
    rw [hBlocks₂, hBlocks₁] at hi
    omega

/-! ### Reading the elements -/

theorem Sim.get_eq (h : Sim m s) (hs : Inv l s) (hi : i < l.length) : m.get i = l[i]? := by
  rw [← hs.size] at hi
  have hc := hs.cursor_of_nonempty (Nat.zero_lt_of_lt hi)
  obtain ⟨k, offset, hoffset, hk⟩ := StableVector.exists_place i
  have hlt : k < m.Blocks.length := by
    refine lt_of_le_of_lt ?_ (h.blockIdx_lt hc)
    by_contra hlt
    have hmono : blockStart (s.blockIdx + 1) ≤ blockStart k := StableVector.blockStart_mono (not_le.1 hlt)
    have hle := hc.le
    omega
  have haddr := StableVector.subscriptHelper_add hoffset
  have hread := h.holds.read_eq hlt trivial hoffset
  rw [← hk] at haddr
  rw [← haddr, hs.slots] at hread
  have hhelper : m.subscriptHelper i = some (place m.Blocks (StableVector.subscriptHelper i)) := by
    rw [StableVector.subscriptHelper] at haddr ⊢
    rw [Memory.subscriptHelper]
    split_ifs at haddr ⊢ with hfirst
    · rw [Memory.block_eq (Nat.zero_lt_of_lt hlt), Option.map_some, place_add]
    · rw [StableVector.block, Ptr.add, Ptr.at.injEq] at haddr
      rw [Memory.block_eq (haddr.1 ▸ hlt), Option.map_some, place_add]
  rw [Memory.get, hhelper, Option.bind_some, hread]

theorem Sim.back_eq (h : Sim m s) (hs : Inv l s) (hl : l ≠ []) : m.back = l.getLast? := by
  have hne : 0 < s.size := hs.size ▸ List.length_pos_iff.2 hl
  have hc := hs.cursor_of_nonempty hne
  have hle := hc.le
  have hle' := hc.start_le_pred
  rw [StableVector.blockStart_succ] at hle
  rw [← hs.back_eq hl, BlockVector.back, StableVector.back, h.pos, ← place_sub, hc.pos_sub_one]
  exact h.holds.read_eq (h.blockIdx_lt hc) trivial (by omega)

/-- An iterator, at the places of the blocks. -/
def placeIterator (Blocks : List ℕ) (it : Iterator) : Iterator :=
  { it with It := place Blocks it.It, ItEnd := place Blocks it.ItEnd, Pos := place Blocks it.Pos }

theorem Sim.nextIterator (h : Sim m s) (hc : Cursor s) {it : Iterator} (hit : it.IsAt s i k offset) :
    m.nextIterator (placeIterator m.Blocks it) = some (placeIterator m.Blocks it.next) := by
  have hend : (placeIterator m.Blocks it).It.add 1 = (placeIterator m.Blocks it).ItEnd ↔
      it.It.add 1 = it.ItEnd := by
    show (place m.Blocks it.It).add 1 = place m.Blocks it.ItEnd ↔ _
    rw [← place_add, hit.It, hit.ItEnd, Ptr.add]
    split_ifs with hk
    · rw [hc.pos, hk, place_at_inj, Ptr.at.injEq, and_iff_right rfl]
    · rw [place_at_inj, Ptr.at.injEq, and_iff_right rfl]
  rw [Memory.nextIterator, Iterator.next]
  by_cases hmore : it.It.add 1 = it.ItEnd
  · rw [if_neg (not_not.2 hmore), if_neg (not_not.2 (hend.2 hmore))]
    by_cases hlast : it.Outer = it.OuterEnd - 1
    · rw [if_pos hlast]
      exact if_pos hlast
    · have hlt : it.Outer + 1 < m.Blocks.length := by
        refine lt_of_le_of_lt ?_ (h.blockIdx_lt hc)
        have hle := hit.le
        rw [hit.Outer, hit.OuterEnd] at hlast
        rw [hit.Outer]
        omega
      rw [if_neg hlast]
      refine (if_neg hlast).trans ?_
      rw [placeIterator, Memory.block_eq hlt, Option.map_some]
      split_ifs
      · rfl
      · simp [placeIterator, place_add]
  · rw [if_pos hmore, if_pos (hend.not.2 hmore)]
    simp [placeIterator, place_add]

theorem Sim.elements_isAt (h : Sim m s) (hs : Inv l s) (hc : Cursor s) {rounds : ℕ} {it : Iterator}
    (hit : it.IsAt s i k offset) (hi : i < s.size) (hrounds : s.size - i ≤ rounds) :
    m.elements rounds (placeIterator m.Blocks it) = some (l.drop i) := by
  induction rounds generalizing i k offset it with
  | zero => omega
  | succ rounds ih =>
    have hlt : i < l.length := hs.size ▸ hi
    have hread : m.read (placeIterator m.Blocks it).It = some l[i] := by
      show m.read (place m.Blocks it.It) = some l[i]
      rw [hit.It, h.holds.read_eq (lt_of_le_of_lt hit.le (h.blockIdx_lt hc)) trivial hit.lt,
        ← StableVector.subscriptHelper_add hit.lt, ← hit.index, hs.slots, List.getElem?_eq_getElem hlt]
    have hnull : (placeIterator m.Blocks it).It ≠ .null := by
      show place m.Blocks it.It ≠ .null
      rw [Ne, place_eq_null, hit.It]
      exact Ptr.noConfusion
    have hnext := hit.next hc hi
    rw [Memory.elements, if_neg hnull, hread, Option.bind_some, h.nextIterator hc hit, Option.bind_some,
      List.drop_eq_getElem_cons hlt]
    split_ifs at hnext with hlast
    · obtain ⟨k', offset', hit'⟩ := hnext
      rw [ih hit' hlast (by omega), Option.map_some]
    · have hdone : m.elements rounds (placeIterator m.Blocks it.next) = some [] := by
        have hnull' : (placeIterator m.Blocks it.next).It = .null := place_eq_null.2 hnext
        cases rounds <;> rw [Memory.elements, if_pos hnull']
      rw [hdone, List.drop_eq_nil_of_le (by rw [← hs.size]; omega), Option.map_some]

/-- Iteration from begin to end reads the elements in their order. -/
theorem Sim.elements_eq (h : Sim m s) (hs : Inv l s) {rounds : ℕ} (hrounds : l.length ≤ rounds) :
    m.beginIterator.bind (m.elements rounds) = some l := by
  rw [← hs.size] at hrounds
  rw [BlockVector.beginIterator]
  by_cases h0 : m.size = 0
  · have hnil : l = [] := List.eq_nil_of_length_eq_zero (hs.size.symm.trans (h.size.symm.trans h0))
    rw [if_pos h0, BlockVector.endIterator, Memory.iterator, if_pos rfl, Option.bind_some, hnil]
    cases rounds <;> rw [Memory.elements, if_pos rfl]
  · have hpos : 0 < s.size := Nat.pos_of_ne_zero (h.size ▸ h0)
    have hc := hs.cursor_of_nonempty hpos
    have hbegin : m.iterator 0 (m.blockIdx + 1) m.pos = some (placeIterator m.Blocks s.beginIterator) := by
      rw [Memory.iterator, if_neg (Nat.succ_ne_zero _), Memory.block_eq (Nat.zero_lt_of_lt (h.blockIdx_lt hc)),
        Option.map_some, StableVector.beginIterator, if_neg hpos.ne', StableVector.iterator,
        if_neg (Nat.succ_ne_zero _), h.blockIdx, h.pos, placeIterator, ← place_add]
      split_ifs <;> rfl
    have helements := h.elements_isAt hs hc (StableVector.beginIterator_isAt hpos) hpos hrounds
    rw [if_neg h0, hbegin, Option.bind_some, helements, List.drop_zero]

/-! ### Sequences of operations -/

inductive Op (T : Type*)
  | vector (op : StableVector.Op T)
  | shrinkToFit

namespace Op

def run : Op T → BlockVector T → Option (BlockVector T)
  | vector (.emplaceBack v) => BlockVector.emplaceBack v
  | vector .popBack => BlockVector.popBack
  | vector (.popBackN n) => BlockVector.popBackN n
  | vector .clear => BlockVector.clear
  | shrinkToFit => BlockVector.shrinkToFit

/-- The operation on a list. -/
def onList : Op T → List T → List T
  | vector op, l => op.onList l
  | shrinkToFit, l => l

/-- What the assertions require. -/
def Valid : Op T → List T → Prop
  | vector op, l => op.Valid l
  | shrinkToFit, _ => True

/-- `shrink_to_fit` is not called on an empty vector that has spare blocks. -/
def KeepsBlock : Op T → BlockVector T → Prop
  | vector _, _ => True
  | shrinkToFit, m => ¬SpareBlocks m

end Op

def runOps : List (Op T) → BlockVector T → Option (BlockVector T)
  | [], m => some m
  | op :: ops, m => (op.run m).bind (runOps ops)

def listOps : List (Op T) → List T → List T
  | [], l => l
  | op :: ops, l => listOps ops (op.onList l)

def ValidOps : List (Op T) → List T → Prop
  | [], _ => True
  | op :: ops, l => op.Valid l ∧ ValidOps ops (op.onList l)

/-- Each step keeps the block of the cursor. -/
def KeepBlocks : List (Op T) → BlockVector T → Prop
  | [], _ => True
  | op :: ops, m => op.KeepsBlock m ∧ (op.run m).elim True (KeepBlocks ops)

instance decidableKeepsBlock (op : Op T) (m : BlockVector T) : Decidable (op.KeepsBlock m) :=
  match op with
  | .vector _ => inferInstanceAs (Decidable True)
  | .shrinkToFit => inferInstanceAs (Decidable ¬(m.size = 0 ∧ 1 < m.Blocks.length))

instance decidableElim {α : Type*} {p : α → Prop} [DecidablePred p] (o : Option α) : Decidable (o.elim True p) :=
  match o with
  | none => inferInstanceAs (Decidable True)
  | some a => inferInstanceAs (Decidable (p a))

instance decidableKeepBlocks : (ops : List (Op T)) → DecidablePred (KeepBlocks ops)
  | [], _ => inferInstanceAs (Decidable True)
  | op :: ops, m =>
    have := decidableKeepBlocks ops
    inferInstanceAs (Decidable (op.KeepsBlock m ∧ (op.run m).elim True (KeepBlocks ops)))

/-- The vector is read like the list; its blocks are those that are allocated, and the destructor deallocates
them. -/
structure ReadsAs (m : BlockVector T) (l : List T) : Prop where
  size : m.size = l.length
  get : ∀ i < l.length, m.get i = l[i]?
  back : l ≠ [] → m.back = l.getLast?
  elements : ∀ rounds, l.length ≤ rounds → m.beginIterator.bind (m.elements rounds) = some l
  allocated : ∀ b, b ∈ m.Blocks ↔ m.allocated b ≠ none
  destructor : ∃ mem, m.destructor = some mem ∧ ∀ b, mem.allocated b = none

/-- No operation fails, and after them the vector is read like the list. -/
def Behaves (ops : List (Op T)) : Prop := ∃ m, runOps ops {} = some m ∧ ReadsAs m (listOps ops [])

/-- The vector holds the list. -/
def Represents (m : BlockVector T) (l : List T) : Prop := ∃ s, Inv l s ∧ Sim m s

theorem represents_empty : Represents ({} : BlockVector T) [] := by
  refine ⟨{}, StableVector.inv_empty, ⟨.nil, fun b n => ?_, by simp, fun _ _ _ => rfl, ?_⟩, rfl, rfl, rfl, rfl,
    rfl, rfl⟩
  · simp
  · intro i hi
    exact absurd hi (Nat.not_lt_zero i)

theorem Sim.blocks_iff (h : Sim m s) (b : ℕ) : b ∈ m.Blocks ↔ m.allocated b ≠ none := by
  rw [Option.ne_none_iff_exists']
  constructor
  · intro hb
    obtain ⟨i, hi, rfl⟩ := List.mem_iff_getElem.1 hb
    exact ⟨blockSize i, (h.holds.allocated _ _).2 ⟨i, hi, trivial, List.getD_eq_getElem _ _ hi, rfl⟩⟩
  · rintro ⟨n, hn⟩
    obtain ⟨i, hi, -, rfl, -⟩ := (h.holds.allocated b n).1 hn
    exact Holds.getD_mem hi

theorem Represents.readsAs (h : Represents m l) : ReadsAs m l := by
  obtain ⟨s, hs, hsim⟩ := h
  exact ⟨hsim.size.trans hs.size, fun i hi => hsim.get_eq hs hi, hsim.back_eq hs,
    fun _ hrounds => hsim.elements_eq hs hrounds, hsim.blocks_iff, hsim.destructor hs⟩

/-- An operation that keeps the block of the cursor does not fail. -/
theorem Represents.run {op : Op T} (h : Represents m l) (hop : op.Valid l) (hkeeps : op.KeepsBlock m) :
    ∃ m', op.run m = some m' ∧ Represents m' (op.onList l) := by
  obtain ⟨s, hs, hsim⟩ := h
  cases op with
  | vector op =>
    have hrun : Simulates (op.run s) ((Op.vector op).run m) := by
      cases op with
      | emplaceBack v => exact hsim.emplaceBack hs v
      | popBack => exact hsim.popBack hs (hs.size ▸ List.length_pos_iff.2 hop)
      | popBackN n => exact hsim.popBackN hs (hs.size ▸ hop)
      | clear => exact hsim.clear hs
    obtain ⟨m', hm', hsim'⟩ := hrun
    exact ⟨m', hm', op.run s, hs.run hop, hsim'⟩
  | shrinkToFit =>
    obtain ⟨s', hs', m', hm', hsim'⟩ := hsim.shrinkToFit hs hkeeps
    exact ⟨m', hm', s', hs', hsim'⟩

theorem Represents.runOps {ops : List (Op T)} (h : Represents m l) (hops : ValidOps ops l)
    (hkeep : KeepBlocks ops m) : ∃ m', runOps ops m = some m' ∧ Represents m' (listOps ops l) := by
  induction ops generalizing l m with
  | nil => exact ⟨m, rfl, h⟩
  | cons op ops ih =>
    obtain ⟨m₁, hm₁, h₁⟩ := h.run hops.1 hkeep.1
    have hkeep₁ := hkeep.2
    rw [hm₁] at hkeep₁
    rw [StableVectorMemory.runOps, hm₁]
    exact ih h₁ hops.2 hkeep₁

/-! ### The dangling cursor -/

theorem Dangling.not_usable (h : Dangling m) (p : Ptr) : ¬m.Usable p := by
  cases p with
  | null => exact id
  | «at» b offset =>
    rintro ⟨hb, -⟩
    rw [h.Blocks] at hb
    exact List.not_mem_nil hb

/-- An element would be constructed in a block that is deallocated. -/
theorem Dangling.emplaceBack_eq (h : Dangling m) (v : T) : m.emplaceBack v = none := by
  rw [BlockVector.emplaceBack, if_neg h.ne, Memory.construct, Memory.put, if_neg (h.not_usable _), Option.map_none]

/-- The other operations fail, or leave the cursor there. -/
theorem Dangling.run {op : Op T} (h : Dangling m) (hop : op.run m = some m') : Dangling m' := by
  have hdiff : m.pos.diff m.start = 0 := by
    rw [h.pos]
    cases m.start with
    | null => rfl
    | «at» b offset => exact Nat.sub_self offset
  -- the current block seems to be empty, and there is no first block to go back to
  have hpop : m.popBlock = none := by
    simp [BlockVector.popBlock, hdiff, Memory.destroyN, h.blockIdx, BlockVector.toFront, Memory.block, h.Blocks]
  cases op with
  | vector op =>
    cases op with
    | emplaceBack v =>
      rw [Op.run, h.emplaceBack_eq] at hop
      cases hop
    | popBack =>
      rw [Op.run, BlockVector.popBack, Memory.destroyAt, Memory.put, if_neg (h.not_usable _)] at hop
      cases hop
    | popBackN n =>
      cases n with
      | zero =>
        cases hop
        exact h
      | succ n =>
        rw [Op.run, BlockVector.popBackN, if_neg (Nat.succ_ne_zero n), BlockVector.popBackLoop, hdiff,
          if_neg (Nat.not_lt_zero _), Nat.sub_zero, if_neg (Nat.succ_ne_zero n), hpop] at hop
        cases hop
    | clear =>
      rw [Op.run, BlockVector.clear, h.blockIdx, Memory.destroyBlocks, Option.bind_some, hdiff, Memory.destroyN,
        Option.bind_some] at hop
      dsimp only at hop
      rw [if_pos h.Blocks, Option.some_inj] at hop
      subst hop
      exact ⟨h.Blocks, rfl, rfl, h.pos, h.ne⟩
  | shrinkToFit =>
    rw [Op.run, BlockVector.shrinkToFit, if_pos (Or.inl h.Blocks)] at hop
    cases hop
    exact h

/-- After `shrink_to_fit` on an empty vector with spare blocks, an `emplace_back` fails at the latest when it
is the last operation. -/
theorem Dangling.runOps_eq {ops : List (Op T)} (h : Dangling m) (v : T) :
    runOps (ops ++ [.vector (.emplaceBack v)]) m = none := by
  induction ops generalizing m with
  | nil => rw [List.nil_append, runOps, Op.run, h.emplaceBack_eq, Option.bind_none]
  | cons op ops ih =>
    rw [List.cons_append, runOps]
    cases hop : op.run m with
    | none => rfl
    | some m' => exact ih (h.run hop)

theorem Represents.runOps_eq_none {ops : List (Op T)} (h : Represents m l) (hops : ValidOps ops l)
    (hkeep : ¬KeepBlocks ops m) (v : T) :
    StableVectorMemory.runOps (ops ++ [.vector (.emplaceBack v)]) m = none := by
  induction ops generalizing l m with
  | nil => exact absurd trivial hkeep
  | cons op ops ih =>
    rw [List.cons_append, StableVectorMemory.runOps]
    by_cases hop : op.KeepsBlock m
    · obtain ⟨m₁, hm₁, h₁⟩ := h.run hops.1 hop
      rw [hm₁]
      refine ih h₁ hops.2 fun hkeep₁ => hkeep ⟨hop, ?_⟩
      rwa [hm₁]
    -- from here on the cursor dangles
    · cases op with
      | vector op => exact absurd trivial hop
      | shrinkToFit =>
        obtain ⟨s, hs, hsim⟩ := h
        obtain ⟨m₁, hm₁, h₁⟩ := hsim.shrinkToFit_spare hs (not_not.1 hop)
        rw [Op.run, hm₁]
        exact h₁.runOps_eq v

theorem validOps_append {ops ops' : List (Op T)} :
    ValidOps (ops ++ ops') l ↔ ValidOps ops l ∧ ValidOps ops' (listOps ops l) := by
  induction ops generalizing l with
  | nil => exact (iff_of_eq (true_and _)).symm
  | cons op ops ih => rw [List.cons_append, ValidOps, ValidOps, ih, listOps, and_assoc]

theorem keepBlocks_append_vector {ops : List (Op T)} {more : List (StableVector.Op T)} (h : KeepBlocks ops m) :
    KeepBlocks (ops ++ more.map .vector) m := by
  induction ops generalizing m with
  | nil =>
    induction more generalizing m with
    | nil => trivial
    | cons op more ih =>
      refine ⟨trivial, ?_⟩
      cases (Op.vector op).run m with
      | none => trivial
      | some m' => exact ih trivial
  | cons op ops ih =>
    obtain ⟨hop, hrest⟩ := h
    refine ⟨hop, ?_⟩
    cases hrun : op.run m with
    | none => trivial
    | some m' =>
      rw [hrun] at hrest
      exact ih hrest

/-- The vector behaves like the list, also with other operations after it, if and only if `shrink_to_fit` is
never called on an empty vector that has spare blocks. -/
theorem behaves_iff (v : T) {ops : List (Op T)} (hops : ValidOps ops []) :
    (∀ more : List (StableVector.Op T), ValidOps (ops ++ more.map .vector) [] →
      Behaves (ops ++ more.map .vector)) ↔
      KeepBlocks ops {} := by
  constructor
  · intro h
    by_contra hkeep
    obtain ⟨m, hm, -⟩ := h [.emplaceBack v] (validOps_append.2 ⟨hops, trivial, trivial⟩)
    rw [List.map_singleton, represents_empty.runOps_eq_none hops hkeep v] at hm
    cases hm
  · intro hkeep more hmore
    obtain ⟨m, hm, h⟩ := represents_empty.runOps hmore (keepBlocks_append_vector hkeep)
    exact ⟨m, hm, h.readsAs⟩

/-- 33 elements, which need a second block. -/
def full : List (Op ℕ) := List.replicate 33 (.vector (.emplaceBack 0))

theorem validOps_full {more : List (Op ℕ)} (h : ValidOps more (listOps full [])) :
    ValidOps (full ++ more) [] := by
  refine validOps_append.2 ⟨?_, h⟩
  simp [full, List.replicate, ValidOps, Op.Valid, StableVector.Op.Valid]

/-- The second block is deallocated when it is empty. -/
theorem behaves_full : KeepBlocks (full ++ [.vector .popBack, .shrinkToFit]) {} ∧
    ∀ more : List (StableVector.Op ℕ),
      ValidOps (full ++ [.vector .popBack, .shrinkToFit] ++ more.map .vector) [] →
      Behaves (full ++ [.vector .popBack, .shrinkToFit] ++ more.map .vector) := by
  have hkeep : KeepBlocks (full ++ [.vector .popBack, .shrinkToFit]) {} := by decide
  have hmore : ValidOps [.vector .popBack, .shrinkToFit] (listOps full []) :=
    ⟨List.cons_ne_nil _ _, trivial, trivial⟩
  exact ⟨hkeep, (behaves_iff 0 (validOps_full hmore)).2 hkeep⟩

/-- The new element would be in the first block, which is deallocated. -/
theorem not_behaves : ¬∀ ops : List (Op ℕ), ValidOps ops [] → Behaves ops := by
  intro h
  have hmore : ValidOps [.vector .clear, .shrinkToFit, .vector (.emplaceBack 7)] (listOps full []) :=
    ⟨trivial, trivial, trivial, trivial⟩
  obtain ⟨m, hm, -⟩ := h _ (validOps_full hmore)
  have hnone : (runOps (full ++ [.vector .clear, .shrinkToFit, .vector (.emplaceBack 7)]) {}).isSome = false := by
    decide
  rw [hm] at hnone
  cases hnone

end StableVectorMemory

end Phasar
