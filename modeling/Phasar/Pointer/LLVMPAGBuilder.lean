import Mathlib.Data.BitVec
import Mathlib.Data.Finset.Basic
import Mathlib.Data.List.Basic
import Mathlib.Logic.Function.Basic

/-!
# The builder of the pointer assignment graph

`LLVMPAGBuilder::PAGBuildData`: nodes for values, edges that are handed to a strategy, and the store and
load edges of a node that are delayed for as long as the node is only stored to and loaded from.

* `ValueCompressor`, `PAGBuildData`;
* `getVariable`, `addAliasOrEquate`, `addEdge`, `addDelayedEdges`, and the branches of `addEdge`;
* `handleCastImpl`, `handleGep`: nodes for the GEPs of a pointer.
-/

namespace Phasar.LLVMPAGBuilder

/-- `pag::Edge`. -/
inductive Edge
  | assign
  | gep (offset : Option ℤ)
  | call (argNo : ℕ)
  | ret
  | load
  | store
  | storePOI
  | copy
  deriving DecidableEq

/-- `isa<Store, StorePOI>`. -/
def Edge.isStore : Edge → Bool
  | .store => true
  | .storePOI => true
  | _ => false

/-- Sequential ids of values; several values may share one. -/
structure ValueCompressor (V : Type) where
  var2Id : V → Option ℕ := fun _ => none
  id2Vars : List (List V) := []

namespace ValueCompressor

variable {V : Type} [DecidableEq V]

def insert (var : V) (vc : ValueCompressor V) : ValueCompressor V × ℕ × Bool :=
  match vc.var2Id var with
  | some id => (vc, id, false)
  | none =>
    (⟨Function.update vc.var2Id var (some vc.id2Vars.length), vc.id2Vars ++ [[var]]⟩,
      vc.id2Vars.length, true)

def addAlias (var : V) (id : ℕ) (vc : ValueCompressor V) : ValueCompressor V × Bool :=
  match vc.var2Id var with
  | some _ => (vc, false)
  | none =>
    (⟨Function.update vc.var2Id var (some id), vc.id2Vars.modify id (· ++ [var])⟩, true)

omit [DecidableEq V] in
def size (vc : ValueCompressor V) : ℕ := vc.id2Vars.length

end ValueCompressor

/-- `PAGBuildData`. The strategy is what it has been given, the last edge last. -/
structure PAGBuildData (V : Type) where
  VC : ValueCompressor V
  onlyIncomingStoresAndOutgoingLoads : Finset ℕ := ∅
  incomingStores : ℕ → List (ℕ × Edge) := fun _ => []
  outgoingLoads : ℕ → List ℕ := fun _ => []
  localGeps : V → List (BitVec 64 × ℕ) := fun _ => []
  strategy : List (ℕ × ℕ × Edge) := []

/-- `try_emplace` in the list of the stores into a node. -/
def tryEmplace (src : ℕ) (e : Edge) (froms : List (ℕ × Edge)) : List (ℕ × Edge) :=
  if froms.any (·.1 == src) then froms else froms ++ [(src, e)]

namespace PAGBuildData

variable {V : Type}

def onAddEdge (src dst : ℕ) (e : Edge) (s : PAGBuildData V) : PAGBuildData V :=
  { s with strategy := s.strategy ++ [(src, dst, e)] }

def addAllIncomingStores (dst : ℕ) (s : PAGBuildData V) : PAGBuildData V :=
  { s with
    strategy := s.strategy ++ (s.incomingStores dst).map fun p => (p.1, dst, p.2)
    incomingStores := Function.update s.incomingStores dst [] }

def addAllOutgoingLoads (src : ℕ) (s : PAGBuildData V) : PAGBuildData V :=
  { s with
    strategy := s.strategy ++ (s.outgoingLoads src).map fun dst => (src, dst, .load)
    outgoingLoads := Function.update s.outgoingLoads src [] }

def eraseFromSimpleStoreLoad (v : ℕ) (s : PAGBuildData V) : PAGBuildData V :=
  if v ∈ s.onlyIncomingStoresAndOutgoingLoads then
    let s' := { s with
      onlyIncomingStoresAndOutgoingLoads := s.onlyIncomingStoresAndOutgoingLoads.erase v }
    (s'.addAllIncomingStores v).addAllOutgoingLoads v
  else s

/-- Delay a store edge. -/
def delayStore (src dst : ℕ) (e : Edge) (s : PAGBuildData V) : PAGBuildData V :=
  { s with incomingStores :=
      Function.update s.incomingStores dst (tryEmplace src e (s.incomingStores dst)) }

/-- Delay a load edge. -/
def delayLoad (src dst : ℕ) (s : PAGBuildData V) : PAGBuildData V :=
  { s with outgoingLoads :=
      Function.update s.outgoingLoads src ((s.outgoingLoads src).insert dst) }

def addEdge (src dst : ℕ) (e : Edge) (s : PAGBuildData V) : PAGBuildData V :=
  if e.isStore = true ∧ dst ∈ s.onlyIncomingStoresAndOutgoingLoads then
    -- `src` may be `dst`, whose stores are given before this one is delayed
    (s.eraseFromSimpleStoreLoad src).delayStore src dst e
  else
    let s := if e.isStore then s else s.eraseFromSimpleStoreLoad dst
    if e = .load ∧ src ∈ s.onlyIncomingStoresAndOutgoingLoads then
      (s.eraseFromSimpleStoreLoad dst).delayLoad src dst
    else
      let s := if e = .load then s else s.eraseFromSimpleStoreLoad src
      s.onAddEdge src dst e

variable [DecidableEq V]

def getVariable (var : V) (s : PAGBuildData V) : PAGBuildData V × ℕ :=
  let r := s.VC.insert var
  if r.2.2 then
    ({ s with
      VC := r.1
      onlyIncomingStoresAndOutgoingLoads :=
        insert r.2.1 s.onlyIncomingStoresAndOutgoingLoads
      incomingStores := Function.update s.incomingStores r.2.1 []
      outgoingLoads := Function.update s.outgoingLoads r.2.1 [] }, r.2.1)
  else (s, r.2.1)

def addAliasOrEquate (var : V) (id : ℕ) (s : PAGBuildData V) : PAGBuildData V :=
  if (s.VC.addAlias var id).2 then { s with VC := (s.VC.addAlias var id).1 }
  else
    match s.VC.var2Id var with
    | none => s
    | some existing =>
      if existing = id then s else (s.addEdge id existing .assign).addEdge existing id .assign

/-- What `addDelayedEdges` adds for a node. -/
def delayedEdges (isAddressTakenVariable : V → Bool) (s : PAGBuildData V) (v : ℕ) :
    List (ℕ × ℕ × Edge) :=
  let needsStoreSafetyFallback := (s.outgoingLoads v).isEmpty &&
    (s.VC.id2Vars.getD v []).any isAddressTakenVariable
  ((s.incomingStores v).flatMap fun p =>
    (s.outgoingLoads v).map (fun dst => (p.1, dst, .assign)) ++
      if needsStoreSafetyFallback then [(p.1, v, .storePOI)] else []) ++
  if (s.incomingStores v).isEmpty then (s.outgoingLoads v).map fun dst => (v, dst, .load) else []

def addDelayedEdges (isAddressTakenVariable : V → Bool) (s : PAGBuildData V) : PAGBuildData V :=
  let simple := (List.range s.VC.size).filter (· ∈ s.onlyIncomingStoresAndOutgoingLoads)
  { s with strategy := s.strategy ++ simple.flatMap (s.delayedEdges isAddressTakenVariable) }

end PAGBuildData

/-! ### Casts and GEPs -/

/-- What LLVM and phasar say about pointers. -/
structure PointerFacts (V : Type) where
  isArgument : V → Bool
  isAllocaInstOrHeapAllocaFunction : V → Bool
  isAddressTakenArg : V → Bool
  isAddressTakenVariable : V → Bool

/-- `IsAllocLike && !IsAddressTaken`. -/
def PointerFacts.isLocal {V : Type} (facts : PointerFacts V) (v : V) : Bool :=
  (facts.isAllocaInstOrHeapAllocaFunction v || facts.isArgument v) &&
    !(if facts.isArgument v then facts.isAddressTakenArg v else facts.isAddressTakenVariable v)

/-- A GEP. Only constant indices have a constant offset, and zeros have the offset zero. -/
structure GEPOperator (V : Type) where
  var : V
  pointerOperand : V
  hasAllConstantIndices : Bool
  hasAllZeroIndices : Bool
  accumulateConstantOffset : Option (BitVec 64)
  constant : accumulateConstantOffset ≠ none → hasAllConstantIndices = true
  zero : hasAllZeroIndices = true → accumulateConstantOffset = some 0

/-- The offset of a GEP that gets a node of its own. -/
def GEPOperator.decoupledOffset {V : Type} (facts : PointerFacts V) (gep : GEPOperator V) :
    Option (BitVec 64) :=
  if facts.isLocal gep.pointerOperand && gep.hasAllConstantIndices && !gep.hasAllZeroIndices then
    gep.accumulateConstantOffset
  else none

namespace PAGBuildData

variable {V : Type} [DecidableEq V]

def handleCastImpl (isGep : Bool) (cast op : V) (s : PAGBuildData V) : PAGBuildData V :=
  let r := s.getVariable op
  if isGep = true ∧ r.1.localGeps op ≠ [] then
    -- the cast itself is not equated with anything
    (r.1.localGeps op).foldl (fun s gep => s.addEdge r.2 gep.2 .assign) r.1
  else r.1.addAliasOrEquate cast r.2

def handleGep (facts : PointerFacts V) (gep : GEPOperator V) (s : PAGBuildData V) : PAGBuildData V :=
  match gep.decoupledOffset facts with
  | some offset =>
    match (s.localGeps gep.pointerOperand).find? (·.1 == offset) with
    | some p => s.addAliasOrEquate gep.var p.2
    | none =>
      let r := s.getVariable gep.var
      { r.1 with
        localGeps := Function.update r.1.localGeps gep.pointerOperand
          (r.1.localGeps gep.pointerOperand ++ [(offset, r.2)]) }
  | none => s.handleCastImpl true gep.var gep.pointerOperand

end PAGBuildData

/-! ### What the operations do -/

variable {V : Type} {s : PAGBuildData V} {w x y : ℕ} {e : Edge}

theorem mem_tryEmplace {p : ℕ × Edge} {froms : List (ℕ × Edge)} :
    p ∈ tryEmplace x e froms ↔ p ∈ froms ∨ p = (x, e) ∧ ∀ q ∈ froms, q.1 ≠ x := by
  rw [tryEmplace]
  split_ifs with hany
  · obtain ⟨q, hq, hqx⟩ := List.any_eq_true.1 hany
    refine ⟨Or.inl, fun hp => hp.elim id fun hp => ?_⟩
    exact absurd (by simpa using hqx) (hp.2 q hq)
  · rw [List.mem_append, List.mem_singleton]
    refine or_congr_right ⟨fun hp => ⟨hp, fun q hq hqx => hany ?_⟩, And.left⟩
    exact List.any_eq_true.2 ⟨q, hq, by simpa using hqx⟩

theorem mem_strategy_erase {g : ℕ × ℕ × Edge} :
    g ∈ (s.eraseFromSimpleStoreLoad w).strategy ↔ g ∈ s.strategy ∨
      w ∈ s.onlyIncomingStoresAndOutgoingLoads ∧
        ((∃ p ∈ s.incomingStores w, (p.1, w, p.2) = g) ∨
          ∃ y ∈ s.outgoingLoads w, (w, y, .load) = g) := by
  rw [PAGBuildData.eraseFromSimpleStoreLoad]
  split_ifs with hw
  · simp [PAGBuildData.addAllIncomingStores, PAGBuildData.addAllOutgoingLoads, hw]
  · simp [hw]

/-- The branches of `addEdge`. -/
theorem addEdge_cases (s : PAGBuildData V) (x y : ℕ) (e : Edge) :
    (e.isStore = true ∧ y ∈ s.onlyIncomingStoresAndOutgoingLoads ∧
      s.addEdge x y e = (s.eraseFromSimpleStoreLoad x).delayStore x y e) ∨
    (e.isStore = true ∧ y ∉ s.onlyIncomingStoresAndOutgoingLoads ∧
      s.addEdge x y e = (s.eraseFromSimpleStoreLoad x).onAddEdge x y e) ∨
    (e = .load ∧ x ∈ (s.eraseFromSimpleStoreLoad y).onlyIncomingStoresAndOutgoingLoads ∧
      s.addEdge x y e =
        ((s.eraseFromSimpleStoreLoad y).eraseFromSimpleStoreLoad y).delayLoad x y) ∨
    (e = .load ∧ x ∉ (s.eraseFromSimpleStoreLoad y).onlyIncomingStoresAndOutgoingLoads ∧
      s.addEdge x y e = (s.eraseFromSimpleStoreLoad y).onAddEdge x y e) ∨
    (e.isStore = false ∧ e ≠ .load ∧ s.addEdge x y e =
      ((s.eraseFromSimpleStoreLoad y).eraseFromSimpleStoreLoad x).onAddEdge x y e) := by
  by_cases he : e.isStore = true
  · have hload : e ≠ .load := by
      rintro rfl
      cases he
    by_cases hy : y ∈ s.onlyIncomingStoresAndOutgoingLoads
    · exact Or.inl ⟨he, hy, if_pos ⟨he, hy⟩⟩
    · exact Or.inr (Or.inl ⟨he, hy, by simp [PAGBuildData.addEdge, he, hy, hload]⟩)
  · rw [Bool.not_eq_true] at he
    refine Or.inr (Or.inr ?_)
    by_cases hload : e = .load
    · subst hload
      by_cases hx : x ∈ (s.eraseFromSimpleStoreLoad y).onlyIncomingStoresAndOutgoingLoads
      · exact Or.inl ⟨rfl, hx, by simp [PAGBuildData.addEdge, he, hx]⟩
      · exact Or.inr (Or.inl ⟨rfl, hx, by simp [PAGBuildData.addEdge, he, hx]⟩)
    · exact Or.inr (Or.inr ⟨he, hload, by simp [PAGBuildData.addEdge, he, hload]⟩)

@[simp] theorem VC_erase : (s.eraseFromSimpleStoreLoad w).VC = s.VC := by
  rw [PAGBuildData.eraseFromSimpleStoreLoad]
  split_ifs <;> rfl

@[simp] theorem VC_addEdge : (s.addEdge x y e).VC = s.VC := by
  rcases addEdge_cases s x y e with ⟨-, -, h⟩ | ⟨-, -, h⟩ | ⟨-, -, h⟩ | ⟨-, -, h⟩ | ⟨-, -, h⟩ <;>
    simp [h, PAGBuildData.delayStore, PAGBuildData.delayLoad, PAGBuildData.onAddEdge]

/-- The ids of values are ids of nodes. -/
def ValueCompressor.Ok (vc : ValueCompressor V) : Prop :=
  ∀ var id, vc.var2Id var = some id → id < vc.size

theorem ValueCompressor.Ok.update [DecidableEq V] {vc vc' : ValueCompressor V} {var : V} {id : ℕ}
    (hvc : vc.Ok) (hvar : vc'.var2Id = Function.update vc.var2Id var (some id)) (hid : id < vc'.size)
    (hsize : vc.size ≤ vc'.size) : vc'.Ok := by
  intro var' id' hid'
  rw [hvar] at hid'
  by_cases hvv : var' = var
  · subst hvv
    rw [Function.update_self] at hid'
    cases hid'
    exact hid
  · rw [Function.update_of_ne hvv] at hid'
    exact (hvc var' id' hid').trans_le hsize

end Phasar.LLVMPAGBuilder
