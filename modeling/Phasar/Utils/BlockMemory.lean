import Mathlib.Data.List.GetD
import Mathlib.Data.List.Nodup
import Phasar.Utils.StableVector

/-!
# The memory of vectors with stable addresses

The blocks of a vector are allocated, and deallocated by `shrink_to_fit` and by the destructor. Here `Blocks`
are the blocks themselves. An operation fails when it uses a slot that is in no block of the vector, or
deallocates a block that is not allocated, or with another size.

* `Memory`: `put`, `read`, `makeBlock`, `deallocate`, and the loops over blocks;
* `place`: where the slots of numbered blocks are;
* `Holds`: which blocks are allocated, and what the memory holds.
-/

namespace Phasar

namespace StableVectorMemory

open StableVector (blockSize blockStart initialCapacity initialLogCapacity Iterator)

/-- The blocks of the vector, and the sizes of the blocks that are allocated. -/
structure Memory (T : Type*) where
  Blocks : List ℕ := []
  allocated : ℕ → Option ℕ := fun _ => none
  next : ℕ := 0
  slots : Slots T := fun _ => none

namespace Memory

variable {T : Type*}

/-- The slot is in a block of the vector that is allocated. -/
def Usable (mem : Memory T) : Ptr → Prop
  | .null => False
  | .at b offset => b ∈ mem.Blocks ∧ offset < (mem.allocated b).getD 0

instance decidableUsable (mem : Memory T) : DecidablePred mem.Usable
  | .null => inferInstanceAs (Decidable False)
  | .at _ _ => inferInstanceAs (Decidable (_ ∧ _))

/-- The pointer `Blocks[i]`. -/
def block (i : ℕ) (mem : Memory T) : Option Ptr := mem.Blocks[i]?.map fun b => .at b 0

def put (x : Option T) (p : Ptr) (mem : Memory T) : Option (Memory T) :=
  if mem.Usable p then some { mem with slots := Function.update mem.slots p x } else none

/-- `std::allocator_traits::construct`. -/
def construct (v : T) (p : Ptr) (mem : Memory T) : Option (Memory T) := mem.put (some v) p

/-- `std::destroy_at`. -/
def destroyAt (p : Ptr) (mem : Memory T) : Option (Memory T) := mem.put none p

def read (p : Ptr) (mem : Memory T) : Option T := if mem.Usable p then mem.slots p else none

/-- `std::destroy_n`. -/
def destroyN (p : Ptr) : ℕ → Memory T → Option (Memory T)
  | 0, mem => some mem
  | n + 1, mem => (mem.destroyAt (p.add n)).bind (destroyN p n)

/-- `makeBlock`, pushed to `Blocks`. -/
def makeBlock (n : ℕ) (mem : Memory T) : Memory T :=
  { mem with
    Blocks := mem.Blocks ++ [mem.next]
    allocated := Function.update mem.allocated mem.next (some n)
    next := mem.next + 1 }

/-- `std::allocator_traits::deallocate`. -/
def deallocate (p : Ptr) (n : ℕ) (mem : Memory T) : Option (Memory T) :=
  match p with
  | .at b 0 =>
    if mem.allocated b = some n then some { mem with allocated := Function.update mem.allocated b none }
    else none
  | _ => none

/-- The loop of `clear` over some blocks from the `i`-th one on. -/
def destroyBlocks : ℕ → ℕ → ℕ → ℕ → Memory T → Option (Memory T)
  | 0, _, _, _, mem => some mem
  | count + 1, i, cap, totalSize, mem =>
    ((mem.block i).bind fun p => mem.destroyN p cap).bind
      (destroyBlocks count (i + 1) totalSize (totalSize + totalSize))

/-- The loop of `shrink_to_fit`. -/
def deallocateSpare : ℕ → ℕ → ℕ → Memory T → Option (Memory T)
  | 0, _, _, mem => some mem
  | count + 1, i, cap, mem =>
    ((mem.block i).bind fun p => mem.deallocate p cap).bind (deallocateSpare count (i + 1) (cap * 2))

/-- The first loop of the destructor, with its `Cap` and `TotalSize` at the end. -/
def destroyFull : ℕ → ℕ → ℕ → ℕ → Memory T → Option (ℕ × ℕ × Memory T)
  | 0, _, cap, totalSize, mem => some (cap, totalSize, mem)
  | count + 1, i, cap, totalSize, mem =>
    ((mem.block i).bind fun p => (mem.destroyN p cap).bind fun mem => mem.deallocate p cap).bind
      (destroyFull count (i + 1) totalSize (totalSize * 2))

/-- The last loop of the destructor. -/
def deallocateRest : ℕ → ℕ → ℕ → ℕ → Memory T → Option (Memory T)
  | 0, _, _, _, mem => some mem
  | count + 1, i, cap, totalSize, mem =>
    ((mem.block i).bind fun p => mem.deallocate p cap).bind
      (deallocateRest count (i + 1) totalSize (totalSize * 2))

/-- The address of `operator[]`. -/
def subscriptHelper (index : ℕ) (mem : Memory T) : Option Ptr :=
  if index < initialCapacity then (mem.block 0).map fun p => p.add index
  else (mem.block (Nat.log 2 index - (initialLogCapacity - 1))).map fun p => p.add (index - 2 ^ Nat.log 2 index)

/-- `operator[]`. -/
def get (index : ℕ) (mem : Memory T) : Option T := (mem.subscriptHelper index).bind fun p => mem.read p

/-- The constructor of an iterator. -/
def iterator (Outer OuterEnd : ℕ) (Pos : Ptr) (mem : Memory T) : Option Iterator :=
  if OuterEnd = Outer then some { Outer, OuterEnd, Pos }
  else (mem.block Outer).map fun It =>
    { It
      ItEnd := if OuterEnd - 1 = Outer then Pos else It.add initialCapacity
      Outer, OuterEnd, Pos }

/-- `operator++`. -/
def nextIterator (i : Iterator) (mem : Memory T) : Option Iterator :=
  if i.It.add 1 ≠ i.ItEnd then some { i with It := i.It.add 1 }
  else if i.Outer = i.OuterEnd - 1 then some { i with It := .null }
  else (mem.block (i.Outer + 1)).map fun It =>
    if i.Outer + 1 = i.OuterEnd - 1 then { i with Outer := i.Outer + 1, It, ItEnd := i.Pos }
    else { i with Outer := i.Outer + 1, It, ItEnd := It.add i.Total, Total := i.Total * 2 }

/-- The elements from an iterator to the end, unless more rounds are needed. -/
def elements (mem : Memory T) : ℕ → Iterator → Option (List T)
  | 0, i => if i.It = .null then some [] else none
  | rounds + 1, i =>
    if i.It = .null then some []
    else (mem.read i.It).bind fun v =>
      ((mem.nextIterator i).bind (mem.elements rounds)).map fun vs => v :: vs

end Memory

/-! ### The places of the blocks -/

/-- Where a slot of a numbered block is. -/
def place (Blocks : List ℕ) : Ptr → Ptr
  | .null => .null
  | .at i offset => .at (Blocks.getD i 0) offset

variable {T : Type*} {Blocks : List ℕ} {p q : Ptr} {i k n offset : ℕ}

theorem place_add : place Blocks (p.add n) = (place Blocks p).add n := by
  cases p <;> rfl

theorem place_sub : place Blocks (p.sub n) = (place Blocks p).sub n := by
  cases p <;> rfl

theorem place_diff : (place Blocks p).diff (place Blocks q) = p.diff q := by
  cases p <;> cases q <;> rfl

theorem place_at_inj {offset' : ℕ} :
    place Blocks (.at i offset) = place Blocks (.at i offset') ↔ offset = offset' := by
  simp [place]

theorem place_eq_null : place Blocks p = .null ↔ p = .null := by
  cases p <;> simp [place]

/-- A block that is pushed leaves the others at their places. -/
theorem place_concat {b : ℕ} (hi : i < Blocks.length) :
    place (Blocks ++ [b]) (.at i offset) = place Blocks (.at i offset) := by
  rw [place, place, List.getD_append _ _ _ _ hi]

/-- The blocks with `P` are allocated, they and no others; and their slots are those of the numbered
blocks. -/
structure Holds (P : ℕ → Prop) (mem : Memory T) (slots : Slots T) : Prop where
  nodup : mem.Blocks.Nodup
  allocated : ∀ b n, mem.allocated b = some n ↔
    ∃ i < mem.Blocks.length, P i ∧ mem.Blocks.getD i 0 = b ∧ blockSize i = n
  lt_next : ∀ b ∈ mem.Blocks, b < mem.next
  fresh : ∀ b offset, mem.next ≤ b → mem.slots (.at b offset) = none
  slots : ∀ i < mem.Blocks.length, P i → ∀ offset < blockSize i,
    mem.slots (place mem.Blocks (.at i offset)) = slots (.at i offset)

/-- The operation gives a memory that holds the slots, with the same blocks. -/
def Gives (P : ℕ → Prop) (Blocks : List ℕ) (slots : Slots T) (result : Option (Memory T)) : Prop :=
  ∃ mem, result = some mem ∧ mem.Blocks = Blocks ∧ Holds P mem slots

variable {P Q : ℕ → Prop} {mem mem' : Memory T} {slots : Slots T}

theorem Memory.block_eq (hi : i < mem.Blocks.length) :
    mem.block i = some (place mem.Blocks (StableVector.block i)) := by
  rw [Memory.block, StableVector.block, place, List.getElem?_eq_getElem hi, Option.map_some,
    List.getD_eq_getElem _ _ hi]

namespace Holds

theorem getD_mem (hi : i < Blocks.length) : Blocks.getD i 0 ∈ Blocks := by
  rw [List.getD_eq_getElem _ _ hi]
  exact List.getElem_mem hi

theorem congr (h : Holds P mem slots) (hPQ : ∀ i < mem.Blocks.length, P i ↔ Q i) : Holds Q mem slots := by
  refine ⟨h.nodup, fun b n => (h.allocated b n).trans ?_, h.lt_next, h.fresh,
    fun i hi hQ => h.slots i hi ((hPQ i hi).2 hQ)⟩
  constructor
  · rintro ⟨i, hi, hP, heq⟩
    exact ⟨i, hi, (hPQ i hi).1 hP, heq⟩
  · rintro ⟨i, hi, hQ, heq⟩
    exact ⟨i, hi, (hPQ i hi).2 hQ, heq⟩

theorem usable (h : Holds P mem slots) (hi : i < mem.Blocks.length) (hP : P i) (hoffset : offset < blockSize i) :
    mem.Usable (place mem.Blocks (.at i offset)) := by
  have halloc := (h.allocated (mem.Blocks.getD i 0) (blockSize i)).2 ⟨i, hi, hP, rfl, rfl⟩
  refine ⟨getD_mem hi, ?_⟩
  rwa [halloc]

theorem read_eq (h : Holds P mem slots) (hi : i < mem.Blocks.length) (hP : P i) (hoffset : offset < blockSize i) :
    mem.read (place mem.Blocks (.at i offset)) = slots (.at i offset) := by
  rw [Memory.read, if_pos (h.usable hi hP hoffset), h.slots i hi hP offset hoffset]

/-- A slot of an allocated block may be changed. -/
theorem put (h : Holds P mem slots) (hi : i < mem.Blocks.length) (hP : P i) (hoffset : offset < blockSize i)
    (x : Option T) : Gives P mem.Blocks (Function.update slots (.at i offset) x)
      (mem.put x (place mem.Blocks (.at i offset))) := by
  refine ⟨_, if_pos (h.usable hi hP hoffset), rfl, h.nodup, h.allocated, h.lt_next, ?_, ?_⟩
  -- a fresh block is none of the vector
  · intro b offset' hb
    have hle : mem.next ≤ b := hb
    have hlt := h.lt_next _ (getD_mem hi)
    have hne : Ptr.at b offset' ≠ place mem.Blocks (.at i offset) := by
      rw [place, Ne, Ptr.at.injEq]
      omega
    exact (Function.update_of_ne hne _ _).trans (h.fresh b offset' hb)
  · intro j hj hPj offset' hoffset'
    show Function.update mem.slots _ x (place mem.Blocks (.at j offset')) = _
    by_cases heq : Ptr.at j offset' = .at i offset
    · rw [heq, Function.update_self, Function.update_self]
    -- different slots of numbered blocks have different places, since no block is there twice
    · have hne : place mem.Blocks (.at j offset') ≠ place mem.Blocks (.at i offset) := by
        rw [place, place, Ne, Ptr.at.injEq, List.getD_inj hj hi h.nodup, ← Ptr.at.injEq]
        exact heq
      rw [Function.update_of_ne heq, Function.update_of_ne hne]
      exact h.slots j hj hPj offset' hoffset'

theorem destroyN (h : Holds P mem slots) (hi : i < mem.Blocks.length) (hP : P i)
    (hn : offset + n ≤ blockSize i) :
    Gives P mem.Blocks (slots.destroyN (.at i offset) n)
      (mem.destroyN (place mem.Blocks (.at i offset)) n) := by
  induction n generalizing mem slots with
  | zero => exact ⟨mem, rfl, rfl, h⟩
  | succ n ih =>
    have hlt : offset + n < blockSize i := by omega
    obtain ⟨mem₁, hmem₁, hBlocks, h₁⟩ := h.put hi hP hlt none
    have hrest := ih h₁ (by rwa [hBlocks]) (by omega)
    rw [hBlocks] at hrest
    rw [Memory.destroyN, Memory.destroyAt, ← place_add, Ptr.add, hmem₁]
    exact hrest

/-- A block is deallocated with its size. -/
theorem deallocate (h : Holds P mem slots) (hi : i < mem.Blocks.length) (hP : P i) :
    Gives (fun j => P j ∧ j ≠ i) mem.Blocks slots
      (mem.deallocate (place mem.Blocks (StableVector.block i)) (blockSize i)) := by
  have halloc := (h.allocated (mem.Blocks.getD i 0) (blockSize i)).2 ⟨i, hi, hP, rfl, rfl⟩
  refine ⟨_, if_pos halloc, rfl, h.nodup, ?_, h.lt_next, h.fresh, fun j hj hPj => h.slots j hj hPj.1⟩
  intro b n
  show Function.update mem.allocated _ none b = some n ↔ _
  by_cases hb : b = mem.Blocks.getD i 0
  · subst hb
    rw [Function.update_self]
    constructor
    · intro h
      cases h
    · rintro ⟨j, hj, ⟨-, hne⟩, heq, -⟩
      exact absurd ((List.getD_inj hj hi h.nodup).1 heq) hne
  · rw [Function.update_of_ne hb, h.allocated]
    constructor
    · rintro ⟨j, hj, hPj, heq, hn⟩
      refine ⟨j, hj, ⟨hPj, ?_⟩, heq, hn⟩
      rintro rfl
      exact hb heq.symm
    · rintro ⟨j, hj, ⟨hPj, -⟩, heq⟩
      exact ⟨j, hj, hPj, heq⟩

/-- `Blocks[i]` is read, and used. -/
theorem bind_block {f : Ptr → Option (Memory T)} (hi : i < mem.Blocks.length)
    (hf : Gives P Blocks slots (f (place mem.Blocks (StableVector.block i)))) :
    Gives P Blocks slots ((mem.block i).bind f) := by
  rwa [Memory.block_eq hi, Option.bind_some]

end Holds

theorem Gives.bind {f : Memory T → Option (Memory T)} {slots' : Slots T} {result : Option (Memory T)}
    (h : Gives P Blocks slots result)
    (hf : ∀ mem, mem.Blocks = Blocks → Holds P mem slots → Gives Q Blocks slots' (f mem)) :
    Gives Q Blocks slots' (result.bind f) := by
  obtain ⟨mem, rfl, hBlocks, h⟩ := h
  exact hf mem hBlocks h

/-! ### The loops over blocks -/

namespace Holds

variable {count : ℕ}

theorem destroyBlocks (h : Holds P mem slots) (k count : ℕ)
    (hrange : ∀ j, k ≤ j → j < k + count → j < mem.Blocks.length ∧ P j) :
    Gives P mem.Blocks (StableVector.destroyBlocks count k (blockSize k) (blockSize (k + 1)) slots)
      (mem.destroyBlocks count k (blockSize k) (blockSize (k + 1))) := by
  induction count generalizing k mem slots with
  | zero => exact ⟨mem, rfl, rfl, h⟩
  | succ count ih =>
    obtain ⟨hk, hP⟩ := hrange k le_rfl (by omega)
    rw [StableVector.destroyBlocks, Memory.destroyBlocks, ← Nat.mul_two, StableVector.blockSize_mul_two]
    refine (bind_block hk (h.destroyN hk hP (by omega))).bind fun mem₁ hBlocks h₁ => ?_
    rw [← hBlocks] at hrange ⊢
    exact ih h₁ (k + 1) fun j hle hlt => hrange j (by omega) (by omega)

/-- After one block of a range, the others follow. -/
theorem congr_range (h : Holds (fun j => (P j ∧ j ≠ k) ∧ ¬(k + 1 ≤ j ∧ j < k + 1 + count)) mem slots) :
    Holds (fun j => P j ∧ ¬(k ≤ j ∧ j < k + (count + 1))) mem slots := by
  refine h.congr fun j _ => ?_
  rw [and_assoc, and_congr_right_iff]
  omega

theorem congr_empty (h : Holds P mem slots) : Holds (fun j => P j ∧ ¬(k ≤ j ∧ j < k + 0)) mem slots := by
  refine h.congr fun j _ => (and_iff_left ?_).symm
  omega

theorem deallocateRest (h : Holds P mem slots) (k count : ℕ)
    (hrange : ∀ j, k ≤ j → j < k + count → j < mem.Blocks.length ∧ P j) :
    Gives (fun j => P j ∧ ¬(k ≤ j ∧ j < k + count)) mem.Blocks slots
      (mem.deallocateRest count k (blockSize k) (blockSize (k + 1))) := by
  induction count generalizing k P mem with
  | zero => exact ⟨mem, rfl, rfl, h.congr_empty⟩
  | succ count ih =>
    obtain ⟨hk, hP⟩ := hrange k le_rfl (by omega)
    rw [Memory.deallocateRest, StableVector.blockSize_mul_two]
    refine (bind_block hk (h.deallocate hk hP)).bind fun mem₁ hBlocks h₁ => ?_
    rw [← hBlocks] at hrange ⊢
    obtain ⟨mem₂, hmem₂, hBlocks₂, h₂⟩ := ih h₁ (k + 1) fun j hle hlt =>
      ⟨(hrange j (by omega) (by omega)).1, (hrange j (by omega) (by omega)).2, by omega⟩
    exact ⟨mem₂, hmem₂, hBlocks₂, h₂.congr_range⟩

/-- `shrink_to_fit` goes on with the same sizes as the destructor. -/
theorem deallocateSpare_eq : mem.deallocateSpare count (k + 1) (blockSize (k + 1)) =
    mem.deallocateRest count (k + 1) (blockSize (k + 1)) (blockSize (k + 2)) := by
  induction count generalizing k mem with
  | zero => rfl
  | succ count ih =>
    rw [Memory.deallocateSpare, Memory.deallocateRest, StableVector.blockSize_mul_two,
      StableVector.blockSize_mul_two]
    exact congrArg _ (funext fun _ => ih)

/-- The full blocks are destroyed and deallocated; the sizes go on with the next block. -/
theorem destroyFull (h : Holds P mem slots) (k count : ℕ)
    (hrange : ∀ j, k ≤ j → j < k + count → j < mem.Blocks.length ∧ P j) :
    ∃ mem' slots', mem.destroyFull count k (blockSize k) (blockSize (k + 1)) =
        some (blockSize (k + count), blockSize (k + count + 1), mem') ∧
      mem'.Blocks = mem.Blocks ∧ Holds (fun j => P j ∧ ¬(k ≤ j ∧ j < k + count)) mem' slots' := by
  induction count generalizing k P mem slots with
  | zero => exact ⟨mem, slots, rfl, rfl, h.congr_empty⟩
  | succ count ih =>
    obtain ⟨hk, hP⟩ := hrange k le_rfl (by omega)
    have hblock : Gives (fun j => P j ∧ j ≠ k) mem.Blocks (slots.destroyN (.at k 0) (blockSize k))
        ((mem.block k).bind fun p =>
          (mem.destroyN p (blockSize k)).bind fun mem => mem.deallocate p (blockSize k)) := by
      refine bind_block hk ((h.destroyN hk hP (by omega)).bind fun mem₁ hBlocks h₁ => ?_)
      rw [← hBlocks] at hk ⊢
      exact h₁.deallocate hk hP
    obtain ⟨mem₁, hmem₁, hBlocks₁, h₁⟩ := hblock
    rw [← hBlocks₁] at hrange
    obtain ⟨mem₂, slots₂, hmem₂, hBlocks₂, h₂⟩ := ih h₁ (k + 1) fun j hle hlt =>
      ⟨(hrange j (by omega) (by omega)).1, (hrange j (by omega) (by omega)).2, by omega⟩
    refine ⟨mem₂, slots₂, ?_, hBlocks₂.trans hBlocks₁, h₂.congr_range⟩
    rw [Memory.destroyFull, StableVector.blockSize_mul_two, hmem₁, Option.bind_some, hmem₂,
      Nat.add_right_comm k 1 count, ← Nat.add_assoc k count 1]

end Holds

/-! ### More and fewer blocks -/

theorem place_concat_length {b : ℕ} : place (Blocks ++ [b]) (.at Blocks.length offset) = .at b offset := by
  simp [place]

/-- A new block is at the end. -/
theorem Holds.makeBlock (h : Holds (fun _ => True) mem slots)
    (hslots : ∀ offset < blockSize mem.Blocks.length, slots (.at mem.Blocks.length offset) = none) :
    Holds (fun _ => True) (mem.makeBlock (blockSize mem.Blocks.length)) slots := by
  have hnew : mem.next ∉ mem.Blocks := fun hmem => lt_irrefl _ (h.lt_next _ hmem)
  refine ⟨?_, fun b n => ?_, fun b hb => ?_, fun b offset hb => h.fresh b offset (by exact Nat.le_of_succ_le hb),
    fun i hi _ offset hoffset => ?_⟩
  · show (mem.Blocks ++ [mem.next]).Nodup
    rw [← List.concat_eq_append]
    exact h.nodup.concat hnew
  · show Function.update mem.allocated mem.next _ b = some n ↔
      ∃ i < (mem.Blocks ++ [mem.next]).length, True ∧ (mem.Blocks ++ [mem.next]).getD i 0 = b ∧ _
    rw [List.length_append, List.length_singleton, Nat.exists_lt_succ_right]
    have hold : ∀ i < mem.Blocks.length, (mem.Blocks ++ [mem.next]).getD i 0 = mem.Blocks.getD i 0 :=
      fun i hi => List.getD_append _ _ _ _ hi
    by_cases hb : b = mem.next
    · subst hb
      simp only [Function.update_self, Option.some_inj, true_and]
      constructor
      · intro hn
        exact Or.inr ⟨by simp, hn⟩
      · rintro (⟨i, hi, heq, -⟩ | ⟨-, hn⟩)
        · rw [hold i hi] at heq
          exact absurd (heq ▸ getD_mem hi) hnew
        · exact hn
    · rw [Function.update_of_ne hb, h.allocated]
      constructor
      · rintro ⟨i, hi, -, heq, hn⟩
        exact Or.inl ⟨i, hi, trivial, (hold i hi).trans heq, hn⟩
      · rintro (⟨i, hi, -, heq, hn⟩ | ⟨-, heq, -⟩)
        · exact ⟨i, hi, trivial, (hold i hi).symm.trans heq, hn⟩
        · exact absurd (by simpa using heq.symm) hb
  · rcases List.mem_append.1 hb with hb | hb
    · exact (h.lt_next b hb).trans (Nat.lt_succ_self _)
    · rw [List.mem_singleton.1 hb]
      exact Nat.lt_succ_self _
  · show mem.slots (place (mem.Blocks ++ [mem.next]) (.at i offset)) = _
    have hi' : i < mem.Blocks.length + 1 := by simpa [Memory.makeBlock] using hi
    rcases Nat.lt_succ_iff_lt_or_eq.1 hi' with hi | rfl
    · rw [place_concat hi]
      exact h.slots i hi trivial offset hoffset
    · rw [place_concat_length, hslots offset hoffset]
      exact h.fresh _ _ le_rfl

theorem getD_take (hi : i < k) : (Blocks.take k).getD i 0 = Blocks.getD i 0 := by
  rw [List.getD_eq_getElem?_getD, List.getElem?_take, if_pos hi, ← List.getD_eq_getElem?_getD]

theorem place_take (hi : i < k) : place (Blocks.take k) (.at i offset) = place Blocks (.at i offset) := by
  rw [place, place, getD_take hi]

/-- The blocks behind the first ones are forgotten. -/
theorem Holds.take (h : Holds P mem slots) (hk : k ≤ mem.Blocks.length)
    (hP : ∀ j < mem.Blocks.length, P j ↔ j < k) :
    Holds (fun _ => True) { mem with Blocks := mem.Blocks.take k } slots := by
  have hlen : (mem.Blocks.take k).length = k := by rw [List.length_take, Nat.min_eq_left hk]
  refine ⟨h.nodup.sublist (List.take_sublist k _), fun b n => (h.allocated b n).trans ?_,
    fun b hb => h.lt_next b (List.mem_of_mem_take hb), h.fresh, fun i hi _ offset hoffset => ?_⟩
  · dsimp only
    rw [hlen]
    constructor
    · rintro ⟨i, hi, hPi, heq, hn⟩
      have hik := (hP i hi).1 hPi
      exact ⟨i, hik, trivial, (getD_take hik).trans heq, hn⟩
    · rintro ⟨i, hik, -, heq, hn⟩
      have hi := hik.trans_le hk
      exact ⟨i, hi, (hP i hi).2 hik, (getD_take hik).symm.trans heq, hn⟩
  · have hik : i < k := hi.trans_le hlen.le
    have hslot := h.slots i (hik.trans_le hk) ((hP i (hik.trans_le hk)).2 hik) offset hoffset
    dsimp only
    rwa [place_take hik]

end StableVectorMemory

end Phasar
