import Phasar.Utils.BitSet

/-!
# Maps from sequential ids

`ValueIdMap` keeps its values in a flat array of storage. A slot of it holds a value only where
the set `IsSet` says so; the other slots are raw memory.

* `Storage`: constructing and destroying values, where the wrong order is undefined behaviour;
* `ValueIdMap` and its operations, with the exceptions of the constructors of the values;
* `Represents`: a map is a finite map; `Op.exec_of_good`, `Op.good_of_exec`: which operations keep
  it one;
* `run_isMap_iff`: so do all runs but those with a copy assignment that ends by an exception, or
  with an argument that refers to an entry of a map that has to grow.
-/

namespace Phasar

/-- A pointer to an array of slots, each with a constructed value or without one. -/
abbrev Storage (V : Type*) := Option (ℕ → Option V)

namespace Storage

variable {V : Type*}

/-- The value of a slot. -/
def read (p : Storage V) (key : ℕ) : Option V := p.bind (· key)

/-- Construct a value in a slot of an array of `cap` slots. -/
def construct (cap key : ℕ) (v : V) (p : Storage V) : Option (Storage V) :=
  p.bind fun slots =>
    if key < cap ∧ slots key = none then some (some (Function.update slots key (some v))) else none

def destroy (key : ℕ) (p : Storage V) : Option (Storage V) :=
  p.bind fun slots =>
    if (slots key).isSome then some (some (Function.update slots key none)) else none

/-- Assign to the value of a slot. -/
def assign (key : ℕ) (v : V) (p : Storage V) : Option (Storage V) :=
  p.bind fun slots =>
    if (slots key).isSome then some (some (Function.update slots key (some v))) else none

def destroyEach : List ℕ → Storage V → Option (Storage V)
  | [], p => some p
  | key :: keys, p => do destroyEach keys (← p.destroy key)

/-- Move-construct values from `src` in `dst`, and destroy the originals. -/
def moveEach (cap : ℕ) : List ℕ → Storage V → Storage V → Option (Storage V × Storage V)
  | [], src, dst => some (src, dst)
  | key :: keys, src, dst => do
    let dst ← dst.construct cap key (← src.read key)
    moveEach cap keys (← src.destroy key) dst

/-- Copy-construct values from `src` in `dst`; the copy of the value of `throws` ends by an
exception. -/
def copyEach (cap : ℕ) (throws : Option ℕ) (src : Storage V) :
    List ℕ → Storage V → Option (Storage V × Bool)
  | [], dst => some (dst, false)
  | key :: keys, dst => do
    let v ← src.read key
    if throws = some key then some (dst, true)
    else copyEach cap throws src keys (← dst.construct cap key v)

end Storage

/-- The properties of the types of the allocator and of the values. -/
structure ValueIdMap.Traits where
  propagateOnContainerCopyAssignment : Bool
  propagateOnContainerMoveAssignment : Bool
  propagateOnContainerSwap : Bool
  selectOnContainerCopyConstruction : ℕ → ℕ
  isTriviallyRelocatable : Bool

structure ValueIdMap (V : Type*) where
  Alloc : ℕ
  IsSet : BitSet := {}
  Capacity : ℕ := 0
  Slots : Storage V := none

namespace ValueIdMap

variable {V : Type*}

/-- The constructor with an initial capacity. -/
def create (initialCapacity A : ℕ) : ValueIdMap V where
  Alloc := A
  IsSet := BitSet.reserve initialCapacity {}
  Capacity := initialCapacity
  Slots := if initialCapacity = 0 then none else some fun _ => none

/-- `at`, and what `find` points to. -/
def lookup (key : ℕ) (m : ValueIdMap V) : Option V :=
  if m.IsSet.contains key then m.Slots.read key else none

/-- The keys from `begin` to `end`. -/
def keys (m : ValueIdMap V) : Option (List ℕ) := m.IsSet.ids m.IsSet.Bits.length m.IsSet.findFirst

def freeStorage (m : ValueIdMap V) : ValueIdMap V :=
  if m.Slots.isSome then { m with Slots := none, Capacity := 0 } else m

def reallocAtLeast (N : ℕ) (m : ValueIdMap V) : ValueIdMap V :=
  if N > m.Capacity then { m.freeStorage with Slots := some fun _ => none, Capacity := N } else m

/-- Take the storage of another map, and give it the own set. -/
def stealFrom (m other : ValueIdMap V) : ValueIdMap V × ValueIdMap V :=
  ({ m with IsSet := other.IsSet, Capacity := other.Capacity, Slots := other.Slots },
    { other with IsSet := m.IsSet, Capacity := 0, Slots := none })

def grow (T : Traits) (NewCap : ℕ) (m : ValueIdMap V) : Option (ValueIdMap V) :=
  if T.isTriviallyRelocatable then
    some { m with
      Slots := some fun key => if key < m.Capacity then m.Slots.read key else none
      Capacity := NewCap }
  else do
    let (_, New) ← Storage.moveEach NewCap m.IsSet.toList m.Slots (some fun _ => none)
    some { m with Slots := New, Capacity := NewCap }

/-- Every value is destroyed; where the destructor is trivial this has no effect, and the source
leaves it out. -/
def clear (m : ValueIdMap V) : Option (ValueIdMap V) := do
  let slots ← m.Slots.destroyEach m.IsSet.toList
  some { m with Slots := slots, IsSet := m.IsSet.clear }

def destruct (m : ValueIdMap V) : Option (ValueIdMap V) := do some (← m.clear).freeStorage

def reserve (T : Traits) (N : ℕ) (m : ValueIdMap V) : Option (ValueIdMap V) :=
  if N > m.Capacity then grow T N { m with IsSet := m.IsSet.reserve N } else some m

/-- An argument: some value, or a reference to an entry of the map itself. -/
inductive Arg (V : Type*)
  | value (v : V)
  | entry (key : ℕ)

/-- The value of an argument; `at` throws `out_of_range` where there is no entry. -/
def Arg.get (m : ValueIdMap V) : Arg V → Option V
  | .value v => some v
  | .entry key => m.lookup key

/-- `throws` says whether the constructor of the value ends by an exception. A reference to an
entry is left dangling where the storage is reallocated. -/
def tryEmplace (T : Traits) (key : ℕ) (arg : Arg V) (throws : Bool) (m : ValueIdMap V) :
    Option (ValueIdMap V) := do
  if m.Capacity ≤ key then
    let m ← m.grow T (max (key + 1) (if m.Capacity ≠ 0 then m.Capacity * 2 else 8))
    match arg with
    | .entry _ => none
    | .value v => emplace v m
  else if m.IsSet.contains key then some m
  else emplace (← arg.get m) m
where
  emplace (v : V) (m : ValueIdMap V) : Option (ValueIdMap V) :=
    if throws then some m
    else do
      let slots ← m.Slots.construct m.Capacity key v
      some { m with Slots := slots, IsSet := m.IsSet.insert key }

/-- `*slot(Key) = v`. -/
def assign (key : ℕ) (v : V) (m : ValueIdMap V) : Option (ValueIdMap V) := do
  some { m with Slots := ← m.Slots.assign key v }

def insertOrAssign (T : Traits) (key : ℕ) (arg : Arg V) (throws : Bool) (m : ValueIdMap V) :
    Option (ValueIdMap V) := do
  if m.IsSet.contains key then assign key (← arg.get m) m else m.tryEmplace T key arg throws

def erase (key : ℕ) (m : ValueIdMap V) : Option (ValueIdMap V) := do
  if (m.IsSet.tryErase key).2 then
    let slots ← m.Slots.destroy key
    some { m with IsSet := (m.IsSet.tryErase key).1, Slots := slots }
  else some m

/-- `erase` of an iterator to the key. -/
def eraseAt (key : ℕ) (m : ValueIdMap V) : Option (ValueIdMap V) := do
  let slots ← m.Slots.destroy key
  some { m with IsSet := m.IsSet.erase key, Slots := slots }

/-- The copy constructor, and whether it ends by an exception. -/
def copyConstruct (A : ℕ) (throws : Option ℕ) (other : ValueIdMap V) :
    Option (ValueIdMap V × Bool) := do
  let m : ValueIdMap V := { Alloc := A, IsSet := other.IsSet, Capacity := other.Capacity }
  if m.Capacity = 0 then some (m, false)
  else
    let (slots, thrown) ←
      other.Slots.copyEach m.Capacity throws other.IsSet.toList (some fun _ => none)
    let m := { m with Slots := slots }
    if thrown then some ({ m.freeStorage with IsSet := m.IsSet.clear }, true) else some (m, false)

def moveConstruct (other : ValueIdMap V) : ValueIdMap V × ValueIdMap V :=
  (other, { Alloc := other.Alloc })

/-- The move of the values one by one, where the allocators differ. -/
def moveFrom (m other : ValueIdMap V) : Option (ValueIdMap V × ValueIdMap V) := do
  let (src, dst) ← other.Slots.moveEach m.Capacity other.IsSet.toList m.Slots
  some ({ m with IsSet := other.IsSet, Slots := dst },
    freeStorage { other with IsSet := other.IsSet.clear, Slots := src })

/-- The move constructor with an allocator. -/
def moveConstructWith (A : ℕ) (other : ValueIdMap V) : Option (ValueIdMap V × ValueIdMap V) :=
  let m : ValueIdMap V := { Alloc := A }
  if A = other.Alloc then some (m.stealFrom other)
  else if other.Capacity ≠ 0 then
    moveFrom { m with Capacity := other.Capacity, Slots := some fun _ => none } other
  else some ({ m with IsSet := other.IsSet }, other)

/-- The copy assignment of another map, and whether it ends by an exception. -/
def copyAssign (T : Traits) (throws : Option ℕ) (m other : ValueIdMap V) :
    Option (ValueIdMap V × Bool) := do
  let m ← m.clear
  let m := if T.propagateOnContainerCopyAssignment ∧ m.Alloc ≠ other.Alloc then
      { m.freeStorage with Alloc := other.Alloc } else m
  -- the ids are taken over before the values are constructed
  let m := { m.reallocAtLeast other.Capacity with IsSet := other.IsSet }
  let (slots, thrown) ← other.Slots.copyEach m.Capacity throws other.IsSet.toList m.Slots
  some ({ m with Slots := slots }, thrown)

/-- The move assignment of another map. -/
def moveAssign (T : Traits) (m other : ValueIdMap V) : Option (ValueIdMap V × ValueIdMap V) := do
  let m ← m.clear
  if T.propagateOnContainerMoveAssignment then
    some (stealFrom { m.freeStorage with Alloc := other.Alloc } other)
  else if m.Alloc = other.Alloc then some (m.freeStorage.stealFrom other)
  else moveFrom (m.reallocAtLeast other.Capacity) other

/-- The maps after `swap`, in their order. -/
def swap (T : Traits) (m other : ValueIdMap V) : ValueIdMap V × ValueIdMap V :=
  if T.propagateOnContainerSwap then (other, m)
  else ({ other with Alloc := m.Alloc }, { m with Alloc := other.Alloc })

/-! ### Programs with several maps -/

/-- The maps that are alive. -/
abbrev Store (V : Type*) := ℕ → Option (ValueIdMap V)

/-- An operation on the `i`-th map, for some with the `j`-th map as their argument. -/
inductive Op (V : Type*)
  | create (i initialCapacity A : ℕ)
  | copyConstruct (i j : ℕ) (A throws : Option ℕ)
  | moveConstruct (i j : ℕ) (A : Option ℕ)
  | copyAssign (i j : ℕ) (throws : Option ℕ)
  | moveAssign (i j : ℕ)
  | swap (i j : ℕ)
  | tryEmplace (i key : ℕ) (arg : Arg V) (throws : Bool)
  | insertOrAssign (i key : ℕ) (arg : Arg V) (throws : Bool)
  | subscript (i key : ℕ) (throws : Bool)
  | write (i key : ℕ) (v : V)
  | erase (i key : ℕ)
  | eraseAt (i key : ℕ)
  | clear (i : ℕ)
  | reserve (i N : ℕ)
  | destruct (i : ℕ)

/-- Run an operation on one map. -/
def modify (i : ℕ) (f : ValueIdMap V → Option (ValueIdMap V)) (s : Store V) : Option (Store V) := do
  some (Function.update s i (some (← f (← s i))))

/-- Run an operation on one map that changes another one. -/
def modify₂ (i j : ℕ) (f : ValueIdMap V → ValueIdMap V → Option (ValueIdMap V × ValueIdMap V))
    (s : Store V) : Option (Store V) := do
  let (m, other) ← f (← s i) (← s j)
  some (Function.update (Function.update s i (some m)) j (some other))

variable [Inhabited V]

/-- What an operation does, unless its behaviour is undefined. -/
def Op.exec (T : Traits) : Op V → Store V → Option (Store V)
  | create i initialCapacity A, s => some (Function.update s i (some (.create initialCapacity A)))
  | copyConstruct i j A throws, s => do
    let other ← s j
    let A := A.getD (T.selectOnContainerCopyConstruction other.Alloc)
    let (m, thrown) ← other.copyConstruct A throws
    some (if thrown then s else Function.update s i (some m))
  | moveConstruct i j none, s => do
    let (m, other) := (← s j).moveConstruct
    some (Function.update (Function.update s i (some m)) j (some other))
  | moveConstruct i j (some A), s => do
    let (m, other) ← (← s j).moveConstructWith A
    some (Function.update (Function.update s i (some m)) j (some other))
  | copyAssign i j throws, s =>
    if i = j then some s
    else do
      let (m, _) ← (← s i).copyAssign T throws (← s j)
      some (Function.update s i (some m))
  | moveAssign i j, s => if i = j then some s else modify₂ i j (fun m => m.moveAssign T) s
  | swap i j, s => if i = j then some s else modify₂ i j (fun m other => some (m.swap T other)) s
  | tryEmplace i key arg throws, s =>
    modify i (fun m => if (arg.get m).isSome then m.tryEmplace T key arg throws else some m) s
  | insertOrAssign i key arg throws, s =>
    modify i (fun m => if (arg.get m).isSome then m.insertOrAssign T key arg throws else some m) s
  | subscript i key throws, s => modify i (·.tryEmplace T key (.value default) throws) s
  | write i key v, s =>
    modify i (fun m => if m.IsSet.contains key then m.assign key v else some m) s
  | erase i key, s => modify i (·.erase key) s
  | eraseAt i key, s => modify i (·.eraseAt key) s
  | clear i, s => modify i (·.clear) s
  | reserve i N, s => modify i (·.reserve T N) s
  | destruct i, s => do
    let _ ← (← s i).destruct
    some (Function.update s i none)

/-! ### Finite maps -/

/-- The finite map of a copy that ends by an exception at the key `throws`, if it has that key. -/
def upTo (throws : Option ℕ) (f : ℕ → Option V) : ℕ → Option V :=
  throws.elim f fun t => if (f t).isSome then fun k => if k < t then f k else none else f

def Arg.eval (f : ℕ → Option V) : Arg V → Option V
  | .value v => some v
  | .entry key => f key

def put (key : ℕ) (v : V) (f : ℕ → Option V) : ℕ → Option V := Function.update f key (some v)

def putNew (key : ℕ) (v : V) (throws : Bool) (f : ℕ → Option V) : ℕ → Option V :=
  if (f key).isSome ∨ throws then f else put key v f

/-- What an operation does to finite maps. -/
def Op.eval : Op V → (ℕ → Option (ℕ → Option V)) → ℕ → Option (ℕ → Option V)
  | create i _ _, a => Function.update a i (some fun _ => none)
  | copyConstruct i j _ throws, a =>
    if ∃ t ∈ throws, ((a j).bind (· t)).isSome then a else Function.update a i (a j)
  | moveConstruct i j _, a =>
    Function.update (Function.update a i (a j)) j (some fun _ => none)
  | copyAssign i j throws, a =>
    if i = j then a else Function.update a i ((a j).map (upTo throws))
  | moveAssign i j, a =>
    if i = j then a else Function.update (Function.update a i (a j)) j (some fun _ => none)
  | swap i j, a => Function.update (Function.update a i (a j)) j (a i)
  | tryEmplace i key arg throws, a => Function.update a i <| (a i).map fun f =>
    (arg.eval f).elim f (putNew key · throws f)
  | insertOrAssign i key arg throws, a => Function.update a i <| (a i).map fun f =>
    (arg.eval f).elim f fun v => if (f key).isSome then put key v f else putNew key v throws f
  | subscript i key throws, a => Function.update a i ((a i).map (putNew key default throws))
  | write i key v, a =>
    Function.update a i ((a i).map fun f => if (f key).isSome then put key v f else f)
  | erase i key, a | eraseAt i key, a =>
    Function.update a i ((a i).map (Function.update · key none))
  | clear i, a => Function.update a i ((a i).map fun _ _ => none)
  | reserve _ _, a => a
  | destruct i, a => Function.update a i none

/-! ### What a map represents -/

/-- The map holds a finite map: the constructed slots are those of the set, below the capacity. -/
structure Represents (m : ValueIdMap V) (f : ℕ → Option V) : Prop where
  read : ∀ k, m.Slots.read k = f k
  contains : ∀ k, m.IsSet.contains k = (f k).isSome
  lt : ∀ k, (f k).isSome → k < m.Capacity
  slots : m.Slots = none → m.Capacity = 0

end ValueIdMap

namespace Storage

variable {V : Type*} {p src dst : Storage V} {cap key k : ℕ} {v : V} {keys : List ℕ}

theorem construct_spec (hp : p.isSome) (hlt : key < cap) (hkey : p.read key = none) :
    ∃ p', p.construct cap key v = some p' ∧ p'.isSome ∧
      p'.read = Function.update p.read key (some v) := by
  obtain ⟨slots, rfl⟩ := Option.isSome_iff_exists.1 hp
  exact ⟨some (Function.update slots key (some v)), if_pos ⟨hlt, hkey⟩, rfl, rfl⟩

theorem destroy_spec (hkey : (p.read key).isSome) :
    ∃ p', p.destroy key = some p' ∧ p'.isSome ∧ p'.read = Function.update p.read key none := by
  rcases p with _ | slots
  · cases hkey
  · exact ⟨some (Function.update slots key none), if_pos hkey, rfl, rfl⟩

theorem assign_spec (hkey : (p.read key).isSome) :
    ∃ p', p.assign key v = some p' ∧ p'.isSome ∧
      p'.read = Function.update p.read key (some v) := by
  rcases p with _ | slots
  · cases hkey
  · exact ⟨some (Function.update slots key (some v)), if_pos hkey, rfl, rfl⟩

theorem isSome_of_read (hkey : (p.read key).isSome) : p.isSome := by
  rcases p with _ | slots
  · cases hkey
  · rfl

theorem destroyEach_spec (hnodup : keys.Nodup) (hkeys : ∀ k ∈ keys, (p.read k).isSome) :
    ∃ p', p.destroyEach keys = some p' ∧ p'.isSome = p.isSome ∧
      ∀ k, p'.read k = if k ∈ keys then none else p.read k := by
  induction keys generalizing p with
  | nil => exact ⟨p, rfl, rfl, by simp⟩
  | cons key keys ih =>
    obtain ⟨hnot, hnodup⟩ := List.nodup_cons.1 hnodup
    obtain ⟨p₁, hp₁, hsome, hread⟩ := destroy_spec (hkeys key List.mem_cons_self)
    have hkeys₁ : ∀ k ∈ keys, (p₁.read k).isSome := by
      intro k hk
      rw [hread, Function.update_of_ne (ne_of_mem_of_not_mem hk hnot)]
      exact hkeys k (List.mem_cons_of_mem _ hk)
    obtain ⟨p', hp', hsome', hread'⟩ := ih hnodup hkeys₁
    refine ⟨p', ?_, ?_, fun k => ?_⟩
    · rw [destroyEach, hp₁]
      exact hp'
    · rw [hsome', hsome, isSome_of_read (hkeys key List.mem_cons_self)]
    · rw [hread', hread]
      by_cases hk : k = key
      · simp [hk]
      · simp [hk]

/-- There is room in `dst` for the values of `src` at the keys. -/
structure Room (cap : ℕ) (src : Storage V) (keys : List ℕ) (dst : Storage V) : Prop where
  nodup : keys.Nodup
  target : keys ≠ [] → dst.isSome
  read : ∀ k ∈ keys, (src.read k).isSome ∧ k < cap ∧ dst.read k = none

/-- One round of the loops that construct the values of `src` in `dst`. -/
theorem Room.construct (h : Room cap src (key :: keys) dst) :
    ∃ v dst', src.read key = some v ∧ dst.construct cap key v = some dst' ∧
      Room cap src keys dst' ∧ dst'.isSome = dst.isSome ∧
      dst'.read = Function.update dst.read key (some v) := by
  obtain ⟨hnot, hnodup⟩ := List.nodup_cons.1 h.nodup
  obtain ⟨hsrc, hlt, hnone⟩ := h.read key List.mem_cons_self
  have hdst : dst.isSome := h.target (List.cons_ne_nil _ _)
  obtain ⟨v, hv⟩ := Option.isSome_iff_exists.1 hsrc
  obtain ⟨dst', hdst', hsome, hread⟩ := construct_spec (v := v) hdst hlt hnone
  refine ⟨v, dst', hv, hdst', ⟨hnodup, fun _ => hsome, fun k hk => ?_⟩, hsome.trans hdst.symm,
    hread⟩
  rw [hread, Function.update_of_ne (ne_of_mem_of_not_mem hk hnot)]
  exact h.read k (List.mem_cons_of_mem _ hk)

/-- The values of `src` are in `dst` afterwards. -/
theorem moveEach_spec (h : Room cap src keys dst) :
    ∃ src' dst', moveEach cap keys src dst = some (src', dst') ∧ src'.isSome = src.isSome ∧
      dst'.isSome = dst.isSome ∧ (∀ k, src'.read k = if k ∈ keys then none else src.read k) ∧
      ∀ k, dst'.read k = if k ∈ keys then src.read k else dst.read k := by
  induction keys generalizing src dst with
  | nil => exact ⟨src, dst, rfl, rfl, rfl, by simp, by simp⟩
  | cons key keys ih =>
    have hnot := (List.nodup_cons.1 h.nodup).1
    obtain ⟨v, dst₁, hv, hdst₁, hroom, hsomed, hreadd⟩ := h.construct
    have hsrc : (src.read key).isSome := Option.isSome_iff_exists.2 ⟨v, hv⟩
    obtain ⟨src₁, hsrc₁, hsomes, hreads⟩ := destroy_spec hsrc
    have hroom₁ : Room cap src₁ keys dst₁ := by
      refine ⟨hroom.nodup, hroom.target, fun k hk => ?_⟩
      rw [hreads, Function.update_of_ne (ne_of_mem_of_not_mem hk hnot)]
      exact hroom.read k hk
    obtain ⟨src', dst', hrun, hsome, hsome', hread, hread'⟩ := ih hroom₁
    refine ⟨src', dst', ?_, ?_, hsome'.trans hsomed, fun k => ?_, fun k => ?_⟩
    · simp only [moveEach, hv, hdst₁, hsrc₁, Option.bind_eq_bind, Option.bind_some, hrun]
    · rw [hsome, hsomes, isSome_of_read hsrc]
    · rw [hread, hreads]
      by_cases hk : k = key
      · simp [hk]
      · simp [hk]
    · rw [hread', hreads, hreadd]
      by_cases hk : k = key
      · simp [hk, hnot, hv]
      · simp [hk]

theorem copyEach_spec (throws : Option ℕ) (h : Room cap src keys dst)
    (hthrows : ∀ t ∈ throws, t ∉ keys) :
    ∃ dst', copyEach cap throws src keys dst = some (dst', false) ∧ dst'.isSome = dst.isSome ∧
      ∀ k, dst'.read k = if k ∈ keys then src.read k else dst.read k := by
  induction keys generalizing dst with
  | nil => exact ⟨dst, rfl, rfl, by simp⟩
  | cons key keys ih =>
    have hnot := (List.nodup_cons.1 h.nodup).1
    obtain ⟨v, dst₁, hv, hdst₁, hroom, hsomed, hreadd⟩ := h.construct
    obtain ⟨dst', hrun, hsome, hread⟩ := ih hroom
      fun t ht hmem => hthrows t ht (List.mem_cons_of_mem _ hmem)
    have hne : throws ≠ some key := fun h => hthrows key h List.mem_cons_self
    refine ⟨dst', ?_, hsome.trans hsomed, fun k => ?_⟩
    · simp only [copyEach, hv, hdst₁, hne, if_false, Option.bind_eq_bind, Option.bind_some, hrun]
    · rw [hread, hreadd]
      by_cases hk : k = key
      · simp [hk, hnot, hv]
      · simp [hk]

/-- A copy that ends by an exception leaves the slot of the exception without a value. -/
theorem copyEach_throws {t : ℕ} (h : Room cap src keys dst) (ht : t ∈ keys) :
    ∃ dst', copyEach cap (some t) src keys dst = some (dst', true) ∧ dst'.read t = none := by
  induction keys generalizing dst with
  | nil => cases ht
  | cons key keys ih =>
    obtain ⟨v, dst₁, hv, hdst₁, hroom, -, -⟩ := h.construct
    by_cases heq : t = key
    · refine ⟨dst, ?_, heq ▸ (h.read key List.mem_cons_self).2.2⟩
      simp only [copyEach, hv, heq, if_true, Option.bind_eq_bind, Option.bind_some]
    · obtain ⟨dst', hrun, hread⟩ := ih hroom ((List.mem_cons.1 ht).resolve_left heq)
      refine ⟨dst', ?_, hread⟩
      have hne : some t ≠ some key := fun h => heq (Option.some.inj h)
      simp only [copyEach, hv, hdst₁, hne, if_false, Option.bind_eq_bind, Option.bind_some, hrun]

end Storage

namespace ValueIdMap

variable {m m' other other' : ValueIdMap V} {f g : ℕ → Option V} {T : Traits}
  {key k A N : ℕ} {v : V}

namespace Represents

theorem isSome_iff (h : m.Represents f) : (f k).isSome ↔ k ∈ m.IsSet.toList := by
  rw [BitSet.mem_toList, h.contains]

theorem ite_mem (h : m.Represents f) : (if k ∈ m.IsSet.toList then f k else none) = f k := by
  split_ifs with hk
  · rfl
  · rw [← h.isSome_iff, Option.not_isSome_iff_eq_none] at hk
    exact hk.symm

theorem isSome_slots (h : m.Represents f) (hlt : key < m.Capacity) : m.Slots.isSome := by
  rw [Option.isSome_iff_ne_none]
  intro hnone
  rw [h.slots hnone] at hlt
  exact Nat.not_lt_zero _ hlt

theorem lookup_eq (h : m.Represents f) (key : ℕ) : m.lookup key = f key := by
  rw [lookup, h.contains, h.read]
  rcases f key with _ | v <;> rfl

/-- Iteration visits the keys once, in ascending order. -/
theorem keys_spec (h : m.Represents f) : ∃ keys, m.keys = some keys ∧ keys.Pairwise (· < ·) ∧
    ∀ k, k ∈ keys ↔ (f k).isSome := by
  obtain ⟨keys, hrun, hpair, hmem⟩ := BitSet.ids_spec (s := m.IsSet) 0 (Nat.le_add_left _ 0)
  refine ⟨keys, hrun, hpair, fun k => ?_⟩
  rw [hmem, h.contains]
  exact and_iff_right (Nat.zero_le k)

end Represents

@[simp] theorem freeStorage_isSet : m.freeStorage.IsSet = m.IsSet := by
  rw [freeStorage]
  split_ifs <;> rfl

/-- The storage of the map holds no values. -/
structure Raw (m : ValueIdMap V) : Prop where
  read : ∀ k, m.Slots.read k = none
  slots : m.Slots = none → m.Capacity = 0

namespace Raw

theorem of_none (hslots : m.Slots = none) (hcap : m.Capacity = 0) : m.Raw :=
  ⟨fun k => by rw [hslots]; rfl, fun _ => hcap⟩

theorem of_fresh (hslots : m.Slots = some fun _ => none) : m.Raw :=
  ⟨fun k => by rw [hslots]; rfl, fun h => by rw [hslots] at h; cases h⟩

theorem represents (h : m.Raw) (hset : ∀ k, m.IsSet.contains k = false) :
    m.Represents fun _ => none :=
  ⟨h.read, hset, nofun, h.slots⟩

theorem freeStorage (h : m.Raw) : m.freeStorage.Raw := by
  rw [ValueIdMap.freeStorage]
  split_ifs
  · exact .of_none rfl rfl
  · exact h

theorem reallocAtLeast (h : m.Raw) (N : ℕ) :
    (m.reallocAtLeast N).Raw ∧ N ≤ (m.reallocAtLeast N).Capacity := by
  rw [ValueIdMap.reallocAtLeast]
  split_ifs with hN
  · exact ⟨.of_fresh rfl, le_rfl⟩
  · exact ⟨h, not_lt.1 hN⟩

/-- There is room for the values of another map. -/
theorem room (h : m.Raw) (hf : other.Represents f) (hcap : other.Capacity ≤ m.Capacity) :
    Storage.Room m.Capacity other.Slots other.IsSet.toList m.Slots := by
  have hlt : ∀ k ∈ other.IsSet.toList, (f k).isSome ∧ k < m.Capacity := fun k hk =>
    ⟨hf.isSome_iff.2 hk, (hf.lt k (hf.isSome_iff.2 hk)).trans_le hcap⟩
  refine ⟨BitSet.nodup_toList, fun hne => ?_, fun k hk => ?_⟩
  · obtain ⟨k, hk⟩ := List.exists_mem_of_ne_nil _ hne
    rw [Option.isSome_iff_ne_none]
    intro hnone
    have hk' := (hlt k hk).2
    rw [h.slots hnone] at hk'
    exact Nat.not_lt_zero _ hk'
  · rw [hf.read]
    exact ⟨(hlt k hk).1, (hlt k hk).2, h.read k⟩

/-- With the values and the set of another map it represents the same finite map. -/
theorem fill (h : m.Raw) (hf : other.Represents f) (hcap : other.Capacity ≤ m.Capacity)
    {slots : Storage V} (hsome : slots.isSome = m.Slots.isSome)
    (hread : ∀ k, slots.read k =
      if k ∈ other.IsSet.toList then other.Slots.read k else m.Slots.read k) :
    Represents { m with IsSet := other.IsSet, Slots := slots } f := by
  refine ⟨fun k => ?_, hf.contains, fun k hk => (hf.lt k hk).trans_le hcap, fun hnone => ?_⟩
  · rw [hread, hf.read, h.read, hf.ite_mem]
  · refine h.slots ?_
    rwa [← Option.not_isSome_iff_eq_none, ← hsome, Option.not_isSome_iff_eq_none]

end Raw

namespace Represents

theorem create (N A : ℕ) : (create N A : ValueIdMap V).Represents fun _ => none := by
  refine Raw.represents ⟨fun k => ?_, fun hnone => ?_⟩ fun k => ?_
  · rw [ValueIdMap.create]
    by_cases hN : N = 0
    · rw [if_pos hN]
      rfl
    · rw [if_neg hN]
      rfl
  · by_contra hN
    have hsome : (ValueIdMap.create N A : ValueIdMap V).Slots = some fun _ => none := if_neg hN
    rw [hnone] at hsome
    cases hsome
  · exact (BitSet.contains_reserve N).trans BitSet.contains_empty

theorem grow (h : m.Represents f) (hN : m.Capacity ≤ N) :
    ∃ m', m.grow T N = some m' ∧ m'.Represents f ∧ m'.Capacity = N ∧ m'.IsSet = m.IsSet := by
  rw [ValueIdMap.grow]
  split_ifs
  · refine ⟨_, rfl, ⟨fun k => ?_, h.contains, fun k hk => (h.lt k hk).trans_le hN, nofun⟩, rfl,
      rfl⟩
    change (if k < m.Capacity then m.Slots.read k else none) = f k
    split_ifs with hk
    · exact h.read k
    · rw [eq_comm, ← Option.not_isSome_iff_eq_none]
      exact fun hsome => hk (h.lt k hsome)
  · have hraw : Raw { m with Slots := some fun _ => (none : Option V), Capacity := N } :=
      .of_fresh rfl
    obtain ⟨src, dst, hrun, -, hsome, -, hread⟩ := Storage.moveEach_spec (hraw.room h hN)
    refine ⟨{ m with Slots := dst, Capacity := N }, ?_, hraw.fill h hN hsome hread, rfl, rfl⟩
    rw [hrun]
    rfl

theorem reserve (h : m.Represents f) (N : ℕ) :
    ∃ m', m.reserve T N = some m' ∧ m'.Represents f := by
  rw [ValueIdMap.reserve]
  split_ifs with hN
  · have h' : Represents { m with IsSet := m.IsSet.reserve N } f :=
      ⟨h.read, fun k => (BitSet.contains_reserve N).trans (h.contains k), h.lt, h.slots⟩
    obtain ⟨m', hm', hrep, -, -⟩ := h'.grow (T := T) hN.le
    exact ⟨m', hm', hrep⟩
  · exact ⟨m, rfl, h⟩

theorem clear (h : m.Represents f) : ∃ m', m.clear = some m' ∧ m'.Raw ∧
    (∀ k, m'.IsSet.contains k = false) ∧ m'.Alloc = m.Alloc := by
  obtain ⟨slots, hrun, hsome, hread⟩ := Storage.destroyEach_spec (p := m.Slots) BitSet.nodup_toList
    fun k hk => by rw [h.read]; exact h.isSome_iff.2 hk
  refine ⟨{ m with Slots := slots, IsSet := m.IsSet.clear }, ?_, ⟨fun k => ?_, fun hnone => ?_⟩,
    fun k => BitSet.contains_clear, rfl⟩
  · rw [ValueIdMap.clear, hrun]
    rfl
  · change slots.read k = none
    rw [hread, h.read]
    split_ifs with hk
    · rfl
    · rwa [← h.isSome_iff, Option.not_isSome_iff_eq_none] at hk
  · refine h.slots ?_
    rwa [← Option.not_isSome_iff_eq_none, ← hsome, Option.not_isSome_iff_eq_none]

theorem destruct (h : m.Represents f) : ∃ m', m.destruct = some m' := by
  obtain ⟨m', hm', -⟩ := h.clear
  exact ⟨m'.freeStorage, by rw [ValueIdMap.destruct, hm']; rfl⟩

theorem emplace (h : m.Represents f) (hlt : key < m.Capacity) (hkey : f key = none) (throws : Bool) :
    ∃ m', tryEmplace.emplace key throws v m = some m' ∧ m'.Represents (putNew key v throws f) := by
  rw [tryEmplace.emplace, putNew, hkey]
  cases throws with
  | true => exact ⟨m, rfl, h⟩
  | false =>
    obtain ⟨slots, hrun, hsome, hread⟩ :=
      Storage.construct_spec (v := v) (h.isSome_slots hlt) hlt ((h.read key).trans hkey)
    refine ⟨{ m with Slots := slots, IsSet := m.IsSet.insert key }, ?_, fun k => ?_, fun k => ?_,
      fun k hk => ?_, fun hnone => ?_⟩
    · simp [hrun]
    · change slots.read k = put key v f k
      rw [hread, put, funext h.read]
    · change (m.IsSet.insert key).contains k = (put key v f k).isSome
      rw [BitSet.contains_insert, h.contains, put]
      by_cases heq : k = key
      · simp [heq]
      · simp [heq]
    · by_cases heq : k = key
      · exact heq ▸ hlt
      · refine h.lt k ?_
        change (put key v f k).isSome at hk
        rwa [put, Function.update_of_ne heq] at hk
    · change slots = none at hnone
      rw [hnone] at hsome
      cases hsome

theorem putNew_of_isSome (hkey : (f key).isSome) (v : V) (throws : Bool) :
    putNew key v throws f = f := if_pos (Or.inl hkey)

theorem get_eq (h : m.Represents f) (arg : Arg V) : arg.get m = arg.eval f := by
  cases arg with
  | value v => rfl
  | entry k => exact h.lookup_eq k

/-- `try_emplace`, where its argument is not in storage that it frees. -/
theorem tryEmplace (h : m.Represents f) {arg : Arg V} (harg : arg.eval f = some v)
    (hgood : ∀ k, arg = .entry k → key < m.Capacity) (throws : Bool) :
    ∃ m', m.tryEmplace T key arg throws = some m' ∧ m'.Represents (putNew key v throws f) := by
  rw [ValueIdMap.tryEmplace]
  by_cases hle : m.Capacity ≤ key
  · rw [if_pos hle]
    cases arg with
    | entry k => exact absurd (hgood k rfl) (not_lt.2 hle)
    | value w =>
      cases harg
      have hN : key < max (key + 1) (if m.Capacity ≠ 0 then m.Capacity * 2 else 8) :=
        (Nat.lt_succ_self key).trans_le (le_max_left _ _)
      obtain ⟨m', hm', hrep, hcap, -⟩ := h.grow (T := T) (hle.trans hN.le)
      have hkey : f key = none := by
        rw [← Option.not_isSome_iff_eq_none]
        exact fun hsome => not_lt.2 hle (h.lt key hsome)
      rw [hm']
      exact hrep.emplace (hcap ▸ hN) hkey throws
  · rw [if_neg hle]
    split_ifs with hmem
    · rw [putNew_of_isSome ((h.contains key).symm.trans hmem)]
      exact ⟨m, rfl, h⟩
    · rw [h.contains, Option.not_isSome_iff_eq_none] at hmem
      simp only [h.get_eq, harg, Option.bind_eq_bind, Option.bind_some]
      exact h.emplace (not_le.1 hle) hmem throws

theorem assign (h : m.Represents f) (hkey : (f key).isSome) (v : V) :
    ∃ m', m.assign key v = some m' ∧ m'.Represents (put key v f) := by
  obtain ⟨slots, hrun, hsome, hread⟩ :=
    Storage.assign_spec (p := m.Slots) (v := v) ((h.read key).symm ▸ hkey)
  have hsome' : ∀ k, (put key v f k).isSome = (f k).isSome := by
    intro k
    rw [put]
    by_cases heq : k = key
    · rw [heq, Function.update_self, hkey]
      rfl
    · rw [Function.update_of_ne heq]
  refine ⟨{ m with Slots := slots }, ?_, fun k => ?_, fun k => ?_, fun k hk => ?_, fun hnone => ?_⟩
  · rw [ValueIdMap.assign, hrun]
    rfl
  · change slots.read k = put key v f k
    rw [hread, put, funext h.read]
  · rw [hsome']
    exact h.contains k
  · rw [hsome'] at hk
    exact h.lt k hk
  · change slots = none at hnone
    rw [hnone] at hsome
    cases hsome

theorem insertOrAssign (h : m.Represents f) {arg : Arg V} (harg : arg.eval f = some v)
    (hgood : ∀ k, arg = .entry k → key < m.Capacity) (throws : Bool) :
    ∃ m', m.insertOrAssign T key arg throws = some m' ∧
      m'.Represents (if (f key).isSome then put key v f else putNew key v throws f) := by
  rw [ValueIdMap.insertOrAssign, h.contains]
  split_ifs with hkey
  · simp only [h.get_eq, harg, Option.bind_eq_bind, Option.bind_some]
    exact h.assign hkey v
  · exact h.tryEmplace harg hgood throws

/-- Destroy an entry and take it from the set. -/
theorem remove (h : m.Represents f) (hkey : (f key).isSome) {s : BitSet}
    (hs : ∀ k, s.contains k = (decide (k ≠ key) && m.IsSet.contains k)) :
    ∃ slots, m.Slots.destroy key = some slots ∧
      Represents { m with IsSet := s, Slots := slots } (Function.update f key none) := by
  obtain ⟨slots, hrun, hsome, hread⟩ :=
    Storage.destroy_spec (p := m.Slots) ((h.read key).symm ▸ hkey)
  refine ⟨slots, hrun, fun k => ?_, fun k => ?_, fun k hk => ?_, fun hnone => ?_⟩
  · rw [hread, funext h.read]
  · rw [hs, h.contains]
    by_cases heq : k = key
    · simp [heq]
    · simp [heq]
  · refine h.lt k ?_
    by_cases heq : k = key
    · rw [heq, Function.update_self] at hk
      cases hk
    · rwa [Function.update_of_ne heq] at hk
  · change slots = none at hnone
    rw [hnone] at hsome
    cases hsome

theorem eraseAt (h : m.Represents f) (hkey : (f key).isSome) :
    ∃ m', m.eraseAt key = some m' ∧ m'.Represents (Function.update f key none) := by
  obtain ⟨slots, hrun, hrep⟩ := h.remove hkey fun k => BitSet.contains_erase
  refine ⟨_, ?_, hrep⟩
  rw [ValueIdMap.eraseAt, hrun]
  rfl

theorem erase (h : m.Represents f) (key : ℕ) :
    ∃ m', m.erase key = some m' ∧ m'.Represents (Function.update f key none) := by
  rw [ValueIdMap.erase, BitSet.tryErase_snd, h.contains]
  split_ifs with hkey
  · obtain ⟨slots, hrun, hrep⟩ := h.remove hkey fun k => BitSet.contains_tryErase
    refine ⟨_, ?_, hrep⟩
    rw [hrun]
    rfl
  · rw [Option.not_isSome_iff_eq_none] at hkey
    rw [← hkey, Function.update_eq_self]
    exact ⟨m, rfl, h⟩

/-- The copy constructor; where it ends by an exception there is no new map. -/
theorem copyConstruct (h : other.Represents f) (A : ℕ) (throws : Option ℕ) :
    ∃ m' thrown, other.copyConstruct A throws = some (m', thrown) ∧
      (thrown = true ↔ ∃ t ∈ throws, (f t).isSome) ∧ (thrown = false → m'.Represents f) := by
  rw [ValueIdMap.copyConstruct]
  by_cases hcap : other.Capacity = 0
  · have hnone : ∀ k, f k = none := by
      intro k
      rw [← Option.not_isSome_iff_eq_none]
      intro hk
      have hlt := h.lt k hk
      omega
    refine ⟨_, false, if_pos hcap, ?_, fun _ => ?_⟩
    · simp [hnone]
    · refine ⟨fun k => (hnone k).symm, h.contains, h.lt, fun _ => hcap⟩
  · have hraw : Raw { other with Alloc := A, Slots := some fun _ => (none : Option V) } := .of_fresh rfl
    by_cases hthrows : ∃ t ∈ throws, (f t).isSome
    · obtain ⟨t, ht, hsome⟩ := hthrows
      obtain ⟨dst, hrun, -⟩ := Storage.copyEach_throws (hraw.room h le_rfl) (h.isSome_iff.1 hsome)
      refine ⟨{ freeStorage { other with Alloc := A, Slots := dst } with
        IsSet := other.IsSet.clear }, true, ?_, ⟨fun _ => ⟨t, ht, hsome⟩, fun _ => rfl⟩,
        fun h => Bool.noConfusion h⟩
      rw [if_neg hcap, Option.mem_def.1 ht, hrun]
      rfl
    · obtain ⟨dst, hrun, hsome, hread⟩ := Storage.copyEach_spec throws (hraw.room h le_rfl)
        fun t ht hmem => hthrows ⟨t, ht, h.isSome_iff.2 hmem⟩
      refine ⟨_, false, ?_, ⟨fun h => Bool.noConfusion h, fun h => absurd h hthrows⟩,
        fun _ => hraw.fill h le_rfl hsome hread⟩
      rw [if_neg hcap, hrun]
      rfl

theorem moveConstruct (h : other.Represents f) :
    other.moveConstruct.1.Represents f ∧ other.moveConstruct.2.Represents fun _ => none :=
  ⟨h, (Raw.of_none rfl rfl).represents fun _ => BitSet.contains_empty⟩

theorem stealFrom (h : other.Represents f) (hset : ∀ k, m.IsSet.contains k = false) :
    (m.stealFrom other).1.Represents f ∧ (m.stealFrom other).2.Represents fun _ => none :=
  ⟨⟨h.read, h.contains, h.lt, h.slots⟩, (Raw.of_none rfl rfl).represents hset⟩

theorem moveFrom (h : other.Represents f) (hraw : m.Raw) (hcap : other.Capacity ≤ m.Capacity) :
    ∃ m' other', m.moveFrom other = some (m', other') ∧ m'.Represents f ∧
      other'.Represents fun _ => none := by
  obtain ⟨src, dst, hrun, hsrc, hsome, hreads, hread⟩ := Storage.moveEach_spec (hraw.room h hcap)
  have hempty : Raw { other with IsSet := other.IsSet.clear, Slots := src } := by
    refine ⟨fun k => ?_, fun hnone => h.slots ?_⟩
    · change src.read k = none
      rw [hreads, h.read]
      split_ifs with hk
      · rfl
      · rwa [← h.isSome_iff, Option.not_isSome_iff_eq_none] at hk
    · rwa [← Option.not_isSome_iff_eq_none, ← hsrc, Option.not_isSome_iff_eq_none]
  refine ⟨_, _, ?_, hraw.fill h hcap hsome hread, hempty.freeStorage.represents fun k => ?_⟩
  · rw [ValueIdMap.moveFrom, hrun]
    rfl
  · rw [freeStorage_isSet]
    exact BitSet.contains_clear

theorem moveConstructWith (h : other.Represents f) (A : ℕ) :
    ∃ m' other', other.moveConstructWith A = some (m', other') ∧ m'.Represents f ∧
      other'.Represents fun _ => none := by
  rw [ValueIdMap.moveConstructWith]
  split_ifs with hA hcap
  · exact ⟨_, _, rfl, h.stealFrom fun k => BitSet.contains_empty⟩
  · exact h.moveFrom (.of_fresh rfl) le_rfl
  · have hraw : Raw ({ Alloc := A } : ValueIdMap V) := .of_none rfl rfl
    have hnone : f = fun _ => none := by
      funext k
      rw [← Option.not_isSome_iff_eq_none]
      intro hk
      have hlt := h.lt k hk
      omega
    cases hnone
    exact ⟨_, _, rfl, Raw.represents ⟨hraw.read, hraw.slots⟩ h.contains, h⟩

theorem moveAssign (hm : m.Represents f) (h : other.Represents g) :
    ∃ m' other', m.moveAssign T other = some (m', other') ∧ m'.Represents g ∧
      other'.Represents fun _ => none := by
  obtain ⟨m₁, hm₁, hraw, hset, hA⟩ := hm.clear
  have hset' : ∀ k, m₁.freeStorage.IsSet.contains k = false := by
    intro k
    rw [freeStorage_isSet]
    exact hset k
  simp only [ValueIdMap.moveAssign, hm₁, Option.bind_eq_bind, Option.bind_some]
  split_ifs with hprop heq
  · exact ⟨_, _, rfl, h.stealFrom hset'⟩
  · exact ⟨_, _, rfl, h.stealFrom hset'⟩
  · obtain ⟨hraw', hcap⟩ := hraw.reallocAtLeast other.Capacity
    exact h.moveFrom hraw' hcap

/-- What the copy assignment has done before it copies the values. -/
theorem copyAssign_prepare (hm : m.Represents f) (T : Traits) (throws : Option ℕ)
    (other : ValueIdMap V) : ∃ m₁ : ValueIdMap V, m₁.Raw ∧ other.Capacity ≤ m₁.Capacity ∧
      m.copyAssign T throws other =
        (other.Slots.copyEach m₁.Capacity throws other.IsSet.toList m₁.Slots).map fun r =>
          ({ m₁ with IsSet := other.IsSet, Slots := r.1 }, r.2) := by
  obtain ⟨m₁, hm₁, hraw, hset, hA⟩ := hm.clear
  have hraw' : Raw (if T.propagateOnContainerCopyAssignment ∧ m₁.Alloc ≠ other.Alloc then
      { m₁.freeStorage with Alloc := other.Alloc } else m₁) := by
    split_ifs
    · exact ⟨hraw.freeStorage.read, hraw.freeStorage.slots⟩
    · exact hraw
  obtain ⟨hraw₂, hcap⟩ := hraw'.reallocAtLeast other.Capacity
  refine ⟨_, hraw₂, hcap, ?_⟩
  rw [ValueIdMap.copyAssign, hm₁]
  simp only [Option.bind_eq_bind, Option.bind_some]
  rw [Option.map_eq_bind]
  rfl

theorem copyAssign (hm : m.Represents f) (h : other.Represents g) {throws : Option ℕ}
    (hthrows : ∀ t ∈ throws, g t = none) :
    ∃ m', m.copyAssign T throws other = some (m', false) ∧ m'.Represents g := by
  obtain ⟨m₁, hraw, hcap, heq⟩ := hm.copyAssign_prepare T throws other
  obtain ⟨dst, hrun, hsome, hread⟩ := Storage.copyEach_spec throws (hraw.room h hcap)
    fun t ht hmem => by
      have hsome := h.isSome_iff.2 hmem
      rw [hthrows t ht] at hsome
      cases hsome
  refine ⟨_, ?_, hraw.fill h hcap hsome hread⟩
  rw [heq, hrun]
  rfl

/-- A copy assignment that ends by an exception leaves a map with a key that has no value. -/
theorem copyAssign_throws (hm : m.Represents f) (h : other.Represents g) {t : ℕ}
    (ht : (g t).isSome) :
    ∃ m', m.copyAssign T (some t) other = some (m', true) ∧ ∀ f', ¬ m'.Represents f' := by
  obtain ⟨m₁, hraw, hcap, heq⟩ := hm.copyAssign_prepare T (some t) other
  obtain ⟨dst, hrun, hread⟩ := Storage.copyEach_throws (hraw.room h hcap) (h.isSome_iff.1 ht)
  refine ⟨_, by rw [heq, hrun]; rfl, fun f' hrep => ?_⟩
  have hcontains := hrep.contains t
  rw [← hrep.read] at hcontains
  change other.IsSet.contains t = (dst.read t).isSome at hcontains
  rw [hread, h.contains, ht] at hcontains
  cases hcontains

theorem upTo_of_forall {throws : Option ℕ} (hthrows : ∀ t ∈ throws, g t = none) :
    upTo throws g = g := by
  rcases throws with _ | t
  · rfl
  · refine if_neg ?_
    rw [hthrows t rfl]
    exact Bool.false_ne_true

theorem swap (hm : m.Represents f) (h : other.Represents g) (T : Traits) :
    (m.swap T other).1.Represents g ∧ (m.swap T other).2.Represents f := by
  rw [ValueIdMap.swap]
  split_ifs
  · exact ⟨h, hm⟩
  · exact ⟨⟨h.read, h.contains, h.lt, h.slots⟩, ⟨hm.read, hm.contains, hm.lt, hm.slots⟩⟩

end Represents

/-! ### Runs -/

/-- The maps of the program are some finite maps. -/
def Holds (s : Store V) (a : ℕ → Option (ℕ → Option V)) : Prop :=
  ∀ i, Option.Rel Represents (s i) (a i)

namespace Holds

variable {s : Store V} {a : ℕ → Option (ℕ → Option V)} {i j : ℕ}

theorem of_some (h : Holds s a) (hm : s i = some m) : ∃ f, a i = some f ∧ m.Represents f := by
  have hi := h i
  rw [hm] at hi
  rcases hf : a i with _ | f
  · rw [hf] at hi
    cases hi
  · rw [hf] at hi
    rcases hi with hrep | _
    exact ⟨f, rfl, hrep⟩

theorem of_isSome (h : Holds s a) (hi : (s i).isSome) :
    ∃ m f, s i = some m ∧ a i = some f ∧ m.Represents f := by
  obtain ⟨m, hm⟩ := Option.isSome_iff_exists.1 hi
  obtain ⟨f, hf, hrep⟩ := h.of_some hm
  exact ⟨m, f, hm, hf, hrep⟩

theorem update (h : Holds s a) (i : ℕ) (hm : m.Represents f) :
    Holds (Function.update s i (some m)) (Function.update a i (some f)) := by
  intro k
  by_cases hk : k = i
  · rw [hk, Function.update_self, Function.update_self]
    exact .some hm
  · rw [Function.update_of_ne hk, Function.update_of_ne hk]
    exact h k

theorem modify₂ (h : Holds s a) (hm : s i = some m) (hother : s j = some other)
    {op : ValueIdMap V → ValueIdMap V → Option (ValueIdMap V × ValueIdMap V)}
    (hop : op m other = some (m', other')) (hm' : m'.Represents f) (hother' : other'.Represents g) :
    ∃ s', ValueIdMap.modify₂ i j op s = some s' ∧
      Holds s' (Function.update (Function.update a i (some f)) j (some g)) := by
  refine ⟨_, ?_, (h.update i hm').update j hother'⟩
  rw [ValueIdMap.modify₂, hm, hother]
  simp only [hop, Option.bind_eq_bind, Option.bind_some]

theorem modify (h : Holds s a) (hi : (s i).isSome) {op : ValueIdMap V → Option (ValueIdMap V)}
    {u : (ℕ → Option V) → ℕ → Option V}
    (hop : ∀ m ∈ s i, ∀ f, m.Represents f → ∃ m', op m = some m' ∧ m'.Represents (u f)) :
    ∃ s', ValueIdMap.modify i op s = some s' ∧ Holds s' (Function.update a i ((a i).map u)) := by
  obtain ⟨m, hm⟩ := Option.isSome_iff_exists.1 hi
  obtain ⟨f, hf, hrep⟩ := h.of_some hm
  obtain ⟨m', hm', hrep'⟩ := hop m hm f hrep
  rw [hf]
  refine ⟨_, ?_, h.update i hrep'⟩
  rw [ValueIdMap.modify, hm]
  simp only [hm', Option.bind_eq_bind, Option.bind_some]

/-- The operations that insert, where the argument is evaluated first. -/
theorem modify_arg (h : Holds s a) (hi : (s i).isSome) {arg : Arg V}
    {f : ValueIdMap V → Option (ValueIdMap V)} {u : V → (ℕ → Option V) → ℕ → Option V}
    (hop : ∀ m ∈ s i, ∀ g, m.Represents g → ∀ v, arg.eval g = some v →
      ∃ m', f m = some m' ∧ m'.Represents (u v g)) :
    ∃ s', ValueIdMap.modify i (fun m => if (arg.get m).isSome then f m else some m) s = some s' ∧
      Holds s' (Function.update a i ((a i).map fun g => (arg.eval g).elim g (u · g))) := by
  refine h.modify hi fun m hm g hrep => ?_
  rw [hrep.get_eq]
  rcases hv : arg.eval g with _ | v
  · exact ⟨m, rfl, hrep⟩
  · exact hop m hm g hrep v hv

end Holds

/-- A reference to an entry of the map is not in storage that is freed. -/
theorem entry_lt {key : ℕ} {arg : Arg V} (hrep : m.Represents f) (hv : arg.eval f = some v)
    (hgood : ∀ k, arg = .entry k → m.IsSet.contains k → key < m.Capacity) (k : ℕ)
    (harg : arg = .entry k) : key < m.Capacity := by
  refine hgood k harg ?_
  rw [harg] at hv
  rw [hrep.contains, show f k = some v from hv]
  rfl

theorem Represents.get_isSome (h : m.Represents f) (hk : m.IsSet.contains k = true) :
    (Arg.get m (.entry k)).isSome := by
  rw [h.get_eq, ← hk, h.contains]
  rfl

theorem tryEmplace_entry (hle : m.Capacity ≤ key) {throws : Bool} :
    m.tryEmplace T key (.entry k) throws = none := by
  rw [tryEmplace, if_pos hle]
  cases m.grow T _ <;> rfl

theorem ne_none_of_modify {s s' : Store V} {i : ℕ} {op : ValueIdMap V → Option (ValueIdMap V)}
    (h : modify i op s = some s') (hm : s i = some m) : op m ≠ none := by
  intro hnone
  rw [modify, hm] at h
  simp only [hnone, Option.bind_eq_bind, Option.bind_some, Option.bind_none] at h
  cases h

variable [Inhabited V]

/-- What a program may do: the objects are there, an iterator that is erased points to an entry,
and allocators that are not swapped are equal. -/
def Op.Valid (T : Traits) : Op V → Store V → Prop
  | create i _ _, s => s i = none
  | copyConstruct i j _ _, s | moveConstruct i j _, s => s i = none ∧ (s j).isSome
  | copyAssign i j _, s | moveAssign i j, s => (s i).isSome ∧ (s j).isSome
  | swap i j, s => ∃ m ∈ s i, ∃ other ∈ s j,
    T.propagateOnContainerSwap = true ∨ m.Alloc = other.Alloc
  | eraseAt i key, s => ∃ m ∈ s i, m.IsSet.contains key
  | tryEmplace i .., s | insertOrAssign i .., s | subscript i .., s | write i .., s
  | erase i _, s | clear i, s | reserve i _, s | destruct i, s => (s i).isSome

/-- No copy assignment that ends by an exception, and no argument in storage that is freed. -/
def Op.Good : Op V → Store V → Prop
  | copyAssign i j throws, s =>
    i = j ∨ ∀ other ∈ s j, ∀ t ∈ throws, other.IsSet.contains t = false
  | tryEmplace i key (.entry k) _, s | insertOrAssign i key (.entry k) _, s =>
    ∀ m ∈ s i, m.IsSet.contains k → key < m.Capacity
  | _, _ => True

variable {s s' : Store V} {a a' : ℕ → Option (ℕ → Option V)} {op : Op V}

theorem Holds.copyConstruct (h : Holds s a) {i j : ℕ} (hj : (s j).isSome) (A throws : Option ℕ) :
    ∃ s', (Op.copyConstruct i j A throws).exec T s = some s' ∧
      Holds s' ((Op.copyConstruct i j A throws : Op V).eval a) := by
  obtain ⟨other, f, hother, hf, hrep⟩ := h.of_isSome hj
  obtain ⟨m', thrown, hrun, hthrown, hrep'⟩ :=
    hrep.copyConstruct (A.getD (T.selectOnContainerCopyConstruction other.Alloc)) throws
  refine ⟨if thrown then s else Function.update s i (some m'), ?_, ?_⟩
  · simp only [Op.exec, hother, hrun, Option.bind_eq_bind, Option.bind_some]
  · rw [Op.eval, hf]
    cases thrown with
    | true =>
      rw [if_pos (show ∃ t ∈ throws, ((some f).bind (· t)).isSome from hthrown.1 rfl)]
      exact h
    | false =>
      rw [if_neg (show ¬ ∃ t ∈ throws, ((some f).bind (· t)).isSome from
        fun hex => Bool.false_ne_true (hthrown.2 hex))]
      exact h.update i (hrep' rfl)

theorem Holds.moveConstruct (h : Holds s a) {i j : ℕ} (hj : (s j).isSome) (A : Option ℕ) :
    ∃ s', (Op.moveConstruct i j A).exec T s = some s' ∧
      Holds s' ((Op.moveConstruct i j A : Op V).eval a) := by
  obtain ⟨other, f, hother, hf, hrep⟩ := h.of_isSome hj
  rw [Op.eval, hf]
  cases A with
  | none =>
    refine ⟨_, ?_, (h.update i hrep.moveConstruct.1).update j hrep.moveConstruct.2⟩
    simp only [Op.exec, hother, Option.bind_eq_bind, Option.bind_some]
  | some A =>
    obtain ⟨m', other', hrun, hrep', hempty⟩ := hrep.moveConstructWith A
    refine ⟨_, ?_, (h.update i hrep').update j hempty⟩
    simp only [Op.exec, hother, hrun, Option.bind_eq_bind, Option.bind_some]

theorem Op.exec_of_good (h : Holds s a) (hvalid : op.Valid T s) (hgood : op.Good s) :
    ∃ s', op.exec T s = some s' ∧ Holds s' (op.eval a) := by
  cases op with
  | create i N A => exact ⟨_, rfl, h.update i (.create N A)⟩
  | copyConstruct i j A throws => exact h.copyConstruct hvalid.2 A throws
  | moveConstruct i j A => exact h.moveConstruct hvalid.2 A
  | copyAssign i j throws =>
    obtain ⟨hi, hj⟩ := hvalid
    rw [Op.exec, Op.eval]
    split_ifs with heq
    · exact ⟨s, rfl, h⟩
    · obtain ⟨m, f, hm, hf, hrep⟩ := h.of_isSome hi
      obtain ⟨other, g, hother, hg, hrep'⟩ := h.of_isSome hj
      -- an exception may only hit a key that the source does not have
      have hthrows : ∀ t ∈ throws, g t = none := by
        intro t ht
        rw [← Option.not_isSome_iff_eq_none, ← hrep'.contains,
          hgood.resolve_left heq other hother t ht]
        exact Bool.false_ne_true
      obtain ⟨m', hrun, hm'⟩ := hrep.copyAssign (T := T) hrep' hthrows
      refine ⟨Function.update s i (some m'), ?_, ?_⟩
      · simp only [hm, hother, hrun, Option.bind_eq_bind, Option.bind_some]
      · rw [hg, Option.map_some, Represents.upTo_of_forall hthrows]
        exact h.update i hm'
  | moveAssign i j =>
    rw [Op.exec, Op.eval]
    split_ifs with heq
    · exact ⟨s, rfl, h⟩
    · obtain ⟨m, f, hm, hf, hrep⟩ := h.of_isSome hvalid.1
      obtain ⟨other, g, hother, hg, hrep'⟩ := h.of_isSome hvalid.2
      obtain ⟨m', other', hrun, hm', hempty⟩ := hrep.moveAssign (T := T) hrep'
      rw [hg]
      exact h.modify₂ hm hother hrun hm' hempty
  | swap i j =>
    obtain ⟨m, hm, other, hother, -⟩ := hvalid
    obtain ⟨f, hf, hrep⟩ := h.of_some hm
    obtain ⟨g, hg, hrep'⟩ := h.of_some hother
    rw [Op.exec, Op.eval]
    split_ifs with heq
    · rw [heq, Function.update_eq_self, Function.update_eq_self]
      exact ⟨s, rfl, h⟩
    · rw [hf, hg]
      exact h.modify₂ hm hother rfl (hrep.swap hrep' T).1 (hrep.swap hrep' T).2
  | tryEmplace i key arg throws =>
    refine h.modify_arg hvalid fun m hm g hrep v hv => hrep.tryEmplace hv ?_ throws
    exact entry_lt hrep hv fun k harg => by subst harg; exact hgood m hm
  | insertOrAssign i key arg throws =>
    refine h.modify_arg hvalid fun m hm g hrep v hv => hrep.insertOrAssign hv ?_ throws
    exact entry_lt hrep hv fun k harg => by subst harg; exact hgood m hm
  | subscript i key throws =>
    have hvalue : (Arg.value default : Arg V).eval = fun _ => some default := rfl
    exact h.modify hvalid fun m _ f hrep => hrep.tryEmplace (congrFun hvalue f) nofun throws
  | write i key v =>
    refine h.modify hvalid fun m _ f hrep => ?_
    rw [hrep.contains]
    split_ifs with hkey
    · exact hrep.assign hkey v
    · exact ⟨m, rfl, hrep⟩
  | erase i key => exact h.modify hvalid fun m _ f hrep => hrep.erase key
  | eraseAt i key =>
    obtain ⟨m, hm, hkey⟩ := hvalid
    refine h.modify (Option.isSome_iff_exists.2 ⟨m, hm⟩) fun m' hm' f hrep => ?_
    cases hm.symm.trans hm'
    exact hrep.eraseAt (hrep.contains key ▸ hkey)
  | clear i =>
    refine h.modify hvalid fun m _ f hrep => ?_
    obtain ⟨m', hm', hraw, hset, -⟩ := hrep.clear
    exact ⟨m', hm', hraw.represents hset⟩
  | reserve i N =>
    obtain ⟨s', hs', hholds⟩ := h.modify (u := id) hvalid fun m _ f hrep => hrep.reserve (T := T) N
    rw [Option.map_id, id, Function.update_eq_self] at hholds
    exact ⟨s', hs', hholds⟩
  | destruct i =>
    obtain ⟨m, f, hm, hf, hrep⟩ := h.of_isSome hvalid
    obtain ⟨m', hm'⟩ := hrep.destruct
    refine ⟨Function.update s i none, ?_, ?_⟩
    · simp only [Op.exec, hm, hm', Option.bind_eq_bind, Option.bind_some]
    · intro k
      rw [Op.eval]
      by_cases hk : k = i
      · rw [hk, Function.update_self, Function.update_self]
        exact .none
      · rw [Function.update_of_ne hk, Function.update_of_ne hk]
        exact h k

/-- An operation that goes on with represented maps is one of the good ones. -/
theorem Op.good_of_exec (h : Holds s a) (hvalid : op.Valid T s) (hexec : op.exec T s = some s')
    (h' : Holds s' a') : op.Good s := by
  cases op with
  | copyAssign i j throws =>
    by_contra hbad
    rw [Op.Good, not_or] at hbad
    obtain ⟨heq, hbad⟩ := hbad
    push Not at hbad
    obtain ⟨other, hother, t, ht, hcontains⟩ := hbad
    obtain ⟨m, f, hm, hf, hrep⟩ := h.of_isSome hvalid.1
    obtain ⟨g, hg, hrep'⟩ := h.of_some hother
    rw [Ne, Bool.not_eq_false, hrep'.contains] at hcontains
    obtain ⟨m', hrun, hnot⟩ := hrep.copyAssign_throws (T := T) hrep' hcontains
    rw [Op.exec, if_neg heq, hm, Option.mem_def.1 hother, Option.mem_def.1 ht] at hexec
    simp only [hrun, Option.bind_eq_bind, Option.bind_some, Option.some.injEq] at hexec
    subst hexec
    obtain ⟨f', -, hrep''⟩ := h'.of_some (Function.update_self i (some m') s)
    exact hnot f' hrep''
  | tryEmplace i key arg throws =>
    cases arg with
    | value v => trivial
    | entry k =>
      intro m hm hk
      obtain ⟨f, -, hrep⟩ := h.of_some hm
      by_contra hle
      refine ne_none_of_modify hexec hm ?_
      rw [if_pos (hrep.get_isSome hk), tryEmplace_entry (not_lt.1 hle)]
  | insertOrAssign i key arg throws =>
    cases arg with
    | value v => trivial
    | entry k =>
      intro m hm hk
      obtain ⟨f, -, hrep⟩ := h.of_some hm
      by_contra hle
      refine ne_none_of_modify hexec hm ?_
      have hkey : ¬ m.IsSet.contains key = true := by
        rw [hrep.contains]
        exact fun hkey => hle (hrep.lt key hkey)
      rw [if_pos (hrep.get_isSome hk), ValueIdMap.insertOrAssign, if_neg hkey,
        tryEmplace_entry (not_lt.1 hle)]
  | _ => trivial

/-- Run operations one after the other. -/
def run (T : Traits) : List (Op V) → Store V → Option (Store V)
  | [], s => some s
  | op :: ops, s => (op.exec T s).bind (run T ops)

def evalAll : List (Op V) → (ℕ → Option (ℕ → Option V)) → ℕ → Option (ℕ → Option V)
  | [], a => a
  | op :: ops, a => evalAll ops (op.eval a)

/-- Something is true of each operation of a run, in the state that it starts from. -/
def Along (T : Traits) (P : Op V → Store V → Prop) : List (Op V) → Store V → Prop
  | [], _ => True
  | op :: ops, s => P op s ∧ ∀ s' ∈ op.exec T s, Along T P ops s'

/-- The map is a finite map, for lookups and for iteration as well. -/
def IsMap (m : ValueIdMap V) (f : ℕ → Option V) : Prop :=
  m.Represents f ∧ (∀ key, m.lookup key = f key) ∧
    ∃ keys, m.keys = some keys ∧ keys.Pairwise (· < ·) ∧ ∀ k, k ∈ keys ↔ (f k).isSome

omit [Inhabited V] in
theorem holds_iff : Holds s a ↔ ∀ i, Option.Rel IsMap (s i) (a i) := by
  refine forall_congr' fun i => ⟨fun hi => ?_, fun hi => ?_⟩
  · generalize s i = m, a i = f at hi
    rcases hi with hrep | _
    · exact .some ⟨hrep, hrep.lookup_eq, hrep.keys_spec⟩
    · exact .none
  · generalize s i = m, a i = f at hi
    rcases hi with hrep | _
    · exact .some hrep.1
    · exact .none

theorem run_holds_iff (ops : List (Op V)) (h : Holds s a) (hvalid : Along T (Op.Valid T) ops s) :
    (∀ pre, pre <+: ops → ∃ s', run T pre s = some s' ∧ Holds s' (evalAll pre a)) ↔
      Along T Op.Good ops s := by
  induction ops generalizing s a with
  | nil =>
    refine ⟨fun _ => trivial, fun _ pre hpre => ?_⟩
    rw [List.prefix_nil.1 hpre]
    exact ⟨s, rfl, h⟩
  | cons op ops ih =>
    constructor
    · intro hrun
      obtain ⟨s₁, hs₁, h₁⟩ := hrun [op] ⟨ops, rfl⟩
      obtain ⟨s₂, hexec, heq⟩ := Option.bind_eq_some_iff.1 hs₁
      cases heq
      refine ⟨op.good_of_exec h hvalid.1 hexec h₁, fun s₂ hs₂ => ?_⟩
      cases hexec.symm.trans hs₂
      refine (ih h₁ (hvalid.2 s₁ hexec)).1 fun pre hpre => ?_
      obtain ⟨s', hs', h'⟩ := hrun (op :: pre) (List.cons_prefix_cons.2 ⟨rfl, hpre⟩)
      rw [run, hexec, Option.bind_some] at hs'
      exact ⟨s', hs', h'⟩
    · rintro ⟨hgood, hrest⟩ pre hpre
      obtain ⟨s₁, hs₁, h₁⟩ := op.exec_of_good h hvalid.1 hgood
      rcases pre with _ | ⟨op', pre⟩
      · exact ⟨s, rfl, h⟩
      · obtain ⟨rfl, hpre'⟩ := List.cons_prefix_cons.1 hpre
        obtain ⟨s', hs', h'⟩ := (ih h₁ (hvalid.2 s₁ hs₁)).2 (hrest s₁ hs₁) pre hpre'
        exact ⟨s', by rw [run, hs₁, Option.bind_some, hs'], h'⟩

/-- Every state of a run holds the finite maps, and no slot is destroyed without having been
constructed, exactly where no copy assignment ends by an exception and no argument refers to an
entry of a map that has to grow for it. -/
theorem run_isMap_iff (T : Traits) (ops : List (Op V))
    (hvalid : Along T (Op.Valid T) ops fun _ => none) :
    (∀ pre, pre <+: ops → ∃ s, run T pre (fun _ => none) = some s ∧
      ∀ i, Option.Rel IsMap (s i) (evalAll pre (fun _ => none) i)) ↔
      Along T Op.Good ops fun _ => none := by
  rw [← run_holds_iff (a := fun _ => none) ops (fun _ => .none) hvalid]
  simp only [holds_iff]

theorem Along.cons {P : Op V → Store V → Prop} {ops : List (Op V)} (hexec : op.exec T s = some s')
    (hop : P op s) (hops : Along T P ops s') : Along T P (op :: ops) s := by
  refine ⟨hop, fun s₁ hs₁ => ?_⟩
  cases hexec.symm.trans hs₁
  exact hops

/-- `std::allocator`, and values that are moved one by one. -/
def stdTraits : Traits where
  propagateOnContainerCopyAssignment := false
  propagateOnContainerMoveAssignment := true
  propagateOnContainerSwap := false
  selectOnContainerCopyConstruction := id
  isTriviallyRelocatable := false

/-- A copy construction ends by an exception; the object is constructed anew and swapped. -/
theorem run_isMap_swapped : ∃ s, run stdTraits [.create 0 0 0, .tryEmplace 0 3 (.value 7) false,
    .copyConstruct 1 0 none (some 3), .create 1 2 0, .insertOrAssign 1 9 (.value 5) false,
    .swap 0 1] (fun _ => none) = some s ∧ ∀ i, Option.Rel IsMap (s i)
      (evalAll [.create 0 0 0, .tryEmplace 0 3 (.value 7) false,
        .copyConstruct 1 0 none (some 3), .create 1 2 0, .insertOrAssign 1 9 (.value 5) false,
        .swap 0 1] (fun _ => none) i) := by
  refine (run_isMap_iff stdTraits _ ?_).2 ?_ _ (List.prefix_refl _)
  · exact .cons rfl rfl <| .cons rfl rfl <| .cons rfl ⟨rfl, rfl⟩ <| .cons rfl rfl <|
      .cons rfl rfl <| .cons rfl ⟨_, rfl, _, rfl, Or.inr rfl⟩ trivial
  · exact .cons rfl trivial <| .cons rfl trivial <| .cons rfl trivial <| .cons rfl trivial <|
      .cons rfl trivial <| .cons rfl trivial trivial

/-- A copy assignment whose only value is not copied, because its constructor throws. -/
def failedAssignment : List (Op ℕ) :=
  [.create 0 0 0, .tryEmplace 0 0 (.value 1) false, .create 1 0 0, .copyAssign 1 0 (some 0)]

/-- The key is in the set, its slot is raw memory, and `clear` destroys it. -/
theorem not_isMap : Along stdTraits (Op.Valid stdTraits) failedAssignment (fun _ => none) ∧
    (∃ s m, run stdTraits failedAssignment (fun _ => none) = some s ∧ s 1 = some m ∧
      m.IsSet.contains 0 = true ∧ m.Slots.read 0 = none) ∧
    run stdTraits (failedAssignment ++ [.clear 1]) (fun _ => none) = none := by
  refine ⟨?_, ⟨_, _, rfl, rfl, rfl, rfl⟩, rfl⟩
  exact .cons rfl rfl <| .cons rfl rfl <| .cons rfl rfl <| .cons rfl ⟨rfl, rfl⟩ trivial

end ValueIdMap

end Phasar
