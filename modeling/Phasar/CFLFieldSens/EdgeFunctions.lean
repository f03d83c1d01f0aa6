import Phasar.CFLFieldSens.AccessPath

/-!
# The edge functions of the CFL field-sensitive IFDS analysis

An edge function transforms sets of access paths. The problem builds them for stores, loads, geps and
kills, and extends and combines them; the number of paths and their depth are limited.

* `walkLoadChainTo`, `storeEdgeFunction`, `loadEdgeFunction`, `gepEdgeFunction`, `killEdgeFunction`;
* `klimitPaths`: the limit on the number of paths;
* `extend`, `combine`.
-/

namespace Phasar.CFLFieldSens

/-- `EdgeIdentity`, `AllTop`, `AllBottom` and `CFLFieldSensEdgeFunction`. -/
inductive EdgeFunction
  | edgeIdentity
  | allTop
  | allBottom
  | transform (paths : Paths)
  deriving DecidableEq

/-! ### Edge functions of instructions -/

/-- What `walkLoadChainTo` reads of the IR: the byte offset and the base of a load, and whether the
load only copies a value that was stored to a local variable. -/
structure LoadChains (V : Type*) where
  load : V → Option (ℤ × V)
  isCopyOf : V → V → Bool

/-- The offset of a pointer that is no constant, `INT64_MIN`. -/
def unknownByteOffset : ℤ := -2 ^ 63

section Instructions

variable {V : Type*} [DecidableEq V]

/-- Follow loads from a value to the target, over `maxDepth` dereferences at most. The offsets of the
dereferences are listed from the value on. -/
def walkLoadChainTo (ir : LoadChains V) (target : V) : ℕ → V → Bool × List ℤ
  | 0, cur => (cur = target, [])
  | maxDepth + 1, cur =>
    if cur = target then (true, [])
    else
      match ir.load cur with
      | none => (false, [])
      | some (byteOffset, base) =>
        if ir.isCopyOf cur target then (true, [])
        else
          let (found, offsets) := walkLoadChainTo ir target maxDepth base
          (found, byteOffset :: offsets)

/-- A byte offset as the offset of an access path. -/
def derefOffset (byteOffset : ℤ) : ℤ :=
  if byteOffset ≠ unknownByteOffset then int32 byteOffset else topOffset

/-- What `getStoreEdgeFunction` is called for. `basePtr` and `offset` are the base and the offset of
the pointer, and `isValueCurrNode` says whether the stored value is the current fact, or a pointer
into it at offset zero. -/
structure StoreArgs (V : Type*) where
  currNode : V
  succNode : V
  basePtr : V
  offset : ℤ
  isValueCurrNode : Bool

def getStoreEdgeFunction (ir : LoadChains V) (depthKLimit : ℕ) (a : StoreArgs V) : EdgeFunction :=
  let (foundSuccNode, byteOffsets) := walkLoadChainTo ir a.succNode depthKLimit a.basePtr
  let derefOffsets := byteOffsets.map derefOffset
  if a.currNode = a.succNode ∧ foundSuccNode then
    .transform {⟨[], [], KillSet.empty.addKill a.offset, 0⟩}
  else if a.isValueCurrNode ∧ a.currNode ≠ a.succNode ∧ foundSuccNode then
    -- one store more than there are dereferences
    .transform {⟨[], derefOffsets ++ [a.offset], .empty, 0⟩}
  else .edgeIdentity

/-- `isPointer` says whether the current fact is the pointer, perhaps at offset zero; otherwise
`offset` is the offset of the pointer. -/
def getLoadEdgeFunction (isPointer : Bool) (offset : ℤ) : EdgeFunction :=
  if isPointer then .transform {⟨[0], [], .empty, 0⟩} else .transform {⟨[offset], [], .empty, 0⟩}

end Instructions

/-- The edge function of a gep. -/
def gepEdgeFunction (offset : ℤ) : EdgeFunction := .transform {⟨[], [], .empty, offset⟩}

/-- The edge function of a fact that the user's problem kills. -/
def killEdgeFunction (offset : ℤ) : EdgeFunction :=
  .transform {⟨[], [], KillSet.empty.addKill offset, 0⟩}

/-! ### Limiting the number of paths -/

/-- What becomes of a path in one of the passes of `klimitPaths`: of more than two paths with the same
approximation one is left, which `repr` makes of the approximation and of the paths. -/
def mergePath (applies : AccessPath → Bool) (approx : AccessPath → AccessPath)
    (repr : AccessPath → Paths → AccessPath) (paths : Paths) (F : AccessPath) : AccessPath :=
  let origPaths := paths.filter fun G => applies G ∧ approx G = approx F
  if applies F ∧ origPaths.card > 2 then repr (approx F) origPaths else F

/-- The string with its head replaced by the unknown offset. -/
def forgetHead : List ℤ → List ℤ
  | [] => []
  | _ :: next => topOffset :: next

def mergeStores (paths : Paths) : AccessPath → AccessPath :=
  mergePath (fun F => F.stores ≠ []) (fun F => { F with stores := forgetHead F.stores })
    (fun F _ => F) paths

def mergeGeps (paths : Paths) : AccessPath → AccessPath :=
  mergePath (fun _ => true) (fun F => { F with offset := topOffset }) (fun F _ => F) paths

def mergeLoads (paths : Paths) : AccessPath → AccessPath :=
  mergePath (fun F => F.loads ≠ []) (fun F => { F with loads := forgetHead F.loads })
    (fun F _ => F) paths

/-- `intersectKills` is the intersection of the kills of some paths, as `intersectWith` computes it
for the paths one after the other. -/
def mergeKills (intersectKills : Paths → KillSet) (paths : Paths) : AccessPath → AccessPath :=
  mergePath (fun _ => true) (fun F => { F with kills := .empty })
    (fun F origPaths => { F with kills := intersectKills origPaths }) paths

/-- One pass over all paths. -/
def pass (merge : Paths → AccessPath → AccessPath) (paths : Paths) : Paths :=
  paths.image (merge paths)

def klimitPaths (intersectKills : Paths → KillSet) (paths : Paths) : Paths :=
  pass (mergeKills intersectKills) (pass mergeLoads (pass mergeGeps (pass mergeStores paths)))

/-! ### Composition and join -/

def breadthKLimit : ℕ := 5

def widenKLimit : ℕ := 128

namespace EdgeFunction

/-- `extend` of two sets of paths. -/
def extendPaths (intersectKills : Paths → KillSet) (depthKLimit : ℕ) (l r : Paths) :
    EdgeFunction :=
  let txn := applyTransforms (some depthKLimit) l r
  if txn = ∅ then allTop
  else if txn.card > breadthKLimit then
    let txn := klimitPaths intersectKills txn
    if txn.card > widenKLimit then allBottom else transform txn
  else transform txn

def extend (intersectKills : Paths → KillSet) (depthKLimit : ℕ) (l r : EdgeFunction) :
    EdgeFunction :=
  match l, r with
  | l, edgeIdentity => l
  | _, allTop => allTop
  | _, allBottom => allBottom
  | edgeIdentity, transform r => transform r
  | allTop, transform _ => allTop
  | allBottom, transform _ => allBottom
  | transform l, transform r =>
    if isEpsilon r then transform l else extendPaths intersectKills depthKLimit l r

/-- `combine` of two sets of paths: the larger set where it contains the other one, otherwise the
union. -/
def combinePaths (l r : Paths) : EdgeFunction :=
  let larger := if l.card < r.card then r else l
  let smaller := if l.card < r.card then l else r
  if smaller ⊆ larger then transform larger
  else if (larger ∪ smaller).card > widenKLimit then allBottom
  else transform (larger ∪ smaller)

def combine (l r : EdgeFunction) : EdgeFunction :=
  match l, r with
  | _, allBottom => allBottom
  | allTop, r => r
  | l, allTop => l
  | allBottom, _ => allBottom
  | edgeIdentity, edgeIdentity => edgeIdentity
  | transform l, transform r => combinePaths l r
  | transform l, edgeIdentity => transform (insert .epsilon l)
  | edgeIdentity, transform r => transform (insert .epsilon r)

end EdgeFunction

end Phasar.CFLFieldSens
