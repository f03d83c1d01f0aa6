import Phasar.Lib.UnionFind
import Mathlib.Data.Finset.Card
import Mathlib.Data.Fintype.Basic
import Mathlib.Data.List.FinRange
import Mathlib.Data.List.ProdSigma
import Mathlib.Order.Bounds.Defs

/-!
# The constraint solver of the Andersen analysis

The constraint core of `AndersenOTFSolver::SolverData`, over nodes that are allocated: points-to sets
with pending parts, assign edges, load, store and memcpy constraints, and nodes that are merged. The
dedup guard of a list is the list itself. Calls of `addAssignEdge` change nothing that decides about
other edges, so a loop that makes them is the list of the edges.

* `SolverData`, with `addPointee`, `addAssignEdge`, `addLoad`, `addStore`, `addMemCopy`, `merge` and
  `propagate`;
* `Constraint`, `Constraint.Holds`, `run`: runs of insertions and propagations;
* `RunOk`: no step of a run loses the edges of a load, a store or a memcpy.
-/

namespace Phasar.Andersen

/-- The lists of a node that name the other operand of a constraint on what the node points to. -/
inductive DerefKind
  | loadDsts
  | storeSrcs
  | memCopyAsSrc
  | memCopyAsDst
  deriving DecidableEq

instance : Fintype DerefKind where
  elems := {.loadDsts, .storeSrcs, .memCopyAsSrc, .memCopyAsDst}
  complete kind := by cases kind <;> simp

/-- The list in which the other operand of a memcpy records the constraint. -/
def DerefKind.dual : DerefKind → Option DerefKind
  | .loadDsts => none
  | .storeSrcs => none
  | .memCopyAsSrc => some .memCopyAsDst
  | .memCopyAsDst => some .memCopyAsSrc

/-- `NodeInfo`. -/
structure NodeInfo (n : ℕ) where
  ptsSet : Finset (Fin n) := ∅
  pendingPts : Finset (Fin n) := ∅
  assignDsts : List (Fin n) := []
  derefs : DerefKind → List (Fin n) := fun _ => []

/-- The constraint part of `SolverData`, with the top of the work list first. -/
structure SolverData (n : ℕ) where
  sccUf : UnionFind (Fin n)
  nodes : Fin n → NodeInfo n
  propWorklist : List (Fin n)

variable {n : ℕ}

/-- Membership in a list of nodes is decided by `==`. -/
local instance lawfulBEqFin : LawfulBEq (Fin n) := inferInstance

/-- A set in the order in which it is iterated. -/
def elems (objs : Finset (Fin n)) : List (Fin n) := (List.finRange n).filter (· ∈ objs)

@[simp] theorem mem_elems {objs : Finset (Fin n)} {o : Fin n} : o ∈ elems objs ↔ o ∈ objs := by
  simp [elems]

/-- The assign edges that a constraint with the other operand `x` implies for pointees `objs`, where
`x` points to `xPts`. -/
def derefEdges (kind : DerefKind) (objs : List (Fin n)) (x : Fin n) (xPts : List (Fin n)) :
    List (Fin n × Fin n) :=
  match kind with
  | .loadDsts => objs.map fun obj => (obj, x)
  | .storeSrcs => objs.map fun obj => (x, obj)
  | .memCopyAsSrc => objs ×ˢ xPts
  | .memCopyAsDst => xPts ×ˢ objs

namespace SolverData

def init (n : ℕ) : SolverData n := ⟨UnionFind.singletons, fun _ => {}, []⟩

def rep (s : SolverData n) (v : Fin n) : Fin n := s.sccUf.find v

def setNode (v : Fin n) (f : NodeInfo n → NodeInfo n) (s : SolverData n) : SolverData n :=
  { s with nodes := Function.update s.nodes v (f (s.nodes v)) }

def push (v : Fin n) (s : SolverData n) : SolverData n :=
  { s with propWorklist := v :: s.propWorklist }

/-- Add pointees that are to be sent. -/
def addPts (v : Fin n) (objs : Finset (Fin n)) : SolverData n → SolverData n :=
  setNode v fun info =>
    { info with ptsSet := info.ptsSet ∪ objs, pendingPts := info.pendingPts ∪ objs }

/-- Add an operand to a list of constraints, unless it is there. -/
def addDeref (kind : DerefKind) (v x : Fin n) (s : SolverData n) : SolverData n :=
  if x ∈ (s.nodes v).derefs kind then s
  else s.setNode v fun info =>
    { info with derefs := Function.update info.derefs kind (info.derefs kind ++ [x]) }

def addPointee (ptr obj : Fin n) (s : SolverData n) : SolverData n :=
  if obj ∈ (s.nodes (s.rep ptr)).ptsSet then s
  -- the dereferences of the node are not visited, as they are in `onNewPointee`
  else (s.addPts (s.rep ptr) {obj}).push (s.rep ptr)

def addAssignEdge (src dst : Fin n) (s : SolverData n) : SolverData n :=
  if s.rep src = s.rep dst then s
  else if s.rep dst ∈ (s.nodes (s.rep src)).assignDsts then s
  else
    let s' := s.setNode (s.rep src) fun info =>
      { info with assignDsts := info.assignDsts ++ [s.rep dst] }
    if (s.nodes (s.rep src)).ptsSet = ∅ then s'
    else (s'.addPts (s.rep src) (s.nodes (s.rep src)).ptsSet).push (s.rep src)

/-- A loop that adds assign edges. -/
def addAssignEdges (edges : List (Fin n × Fin n)) (s : SolverData n) : SolverData n :=
  edges.foldl (fun s edge => s.addAssignEdge edge.1 edge.2) s

def addLoad (ptr dst : Fin n) (s : SolverData n) : SolverData n :=
  (s.addAssignEdges
    (derefEdges .loadDsts (elems (s.nodes (s.rep ptr)).ptsSet) (s.rep dst) [])).addDeref .loadDsts
      (s.rep ptr) (s.rep dst)

def addStore (ptr src : Fin n) (s : SolverData n) : SolverData n :=
  (s.addAssignEdges
    (derefEdges .storeSrcs (elems (s.nodes (s.rep ptr)).ptsSet) (s.rep src) [])).addDeref .storeSrcs
      (s.rep ptr) (s.rep src)

def addMemCopy (srcPtr dstPtr : Fin n) (s : SolverData n) : SolverData n :=
  let s' := s.addAssignEdges (derefEdges .memCopyAsSrc (elems (s.nodes (s.rep srcPtr)).ptsSet)
    (s.rep dstPtr) (elems (s.nodes (s.rep dstPtr)).ptsSet))
  (s'.addDeref .memCopyAsSrc (s.rep srcPtr) (s.rep dstPtr)).addDeref .memCopyAsDst (s.rep dstPtr)
    (s.rep srcPtr)

/-- The edges of a list of constraints for the pointees `objs`. The other operands are read as they
were stored. -/
def listEdges (kind : DerefKind) (objs : List (Fin n)) (operands : List (Fin n))
    (s : SolverData n) : List (Fin n × Fin n) :=
  operands.flatMap fun x => derefEdges kind objs x (elems (s.nodes x).ptsSet)

def onNewPointee (ptrRep newObj : Fin n) (s : SolverData n) : SolverData n :=
  let edges kind := s.listEdges kind [newObj] ((s.nodes ptrRep).derefs kind)
  s.addAssignEdges (edges .loadDsts ++ edges .storeSrcs ++ edges .memCopyAsSrc ++
    edges .memCopyAsDst)

/-- `mergeWithDiff` into the points-to set of `v`, with `onNewPointee`; whether anything was new. -/
def mergeWithDiff (v : Fin n) (other : Finset (Fin n)) (s : SolverData n) : SolverData n × Bool :=
  if 16 < other.card then
    let diff := other \ (s.nodes v).ptsSet
    if diff = ∅ then (s, false)
    else ((elems diff).foldl (fun s obj => s.onNewPointee v obj) (s.addPts v diff), true)
  else
    (elems other).foldl (fun r obj =>
      if obj ∈ (r.1.nodes v).ptsSet then r
      else ((r.1.addPts v {obj}).onNewPointee v obj, true)) (s, false)

/-- Move a constraint to the representative `v`, and fire it for the pointees `objs`. -/
def transfer (kind : DerefKind) (v : Fin n) (objs : List (Fin n)) (s : SolverData n) (x : Fin n) :
    SolverData n :=
  if x ∈ (s.nodes v).derefs kind then s
  else
    (s.addDeref kind v x).addAssignEdges (derefEdges kind objs x (elems (s.nodes x).ptsSet))

/-- Move the constraints of `nonRep` to `v`. -/
def transferAll (v : Fin n) (nonRep : NodeInfo n) (s : SolverData n) : SolverData n :=
  let objs := elems (s.nodes v).ptsSet
  let move kind s := (nonRep.derefs kind).foldl (transfer kind v objs) s
  move .memCopyAsDst (move .memCopyAsSrc (move .storeSrcs (move .loadDsts s)))

/-- The end of `merge`: wipe the node, and queue what is pending. -/
def wipe (v nonRep : Fin n) (s : SolverData n) : SolverData n :=
  let s' := s.setNode nonRep fun _ => {}
  if (s'.nodes v).pendingPts = ∅ then s' else s'.push v

/-- The representative of two representatives that are joined, and the other one. -/
def joined (a b : Fin n) (s : SolverData n) : Fin n × Fin n :=
  let r := (s.sccUf.joinMin a b).find a
  (r, if r = a then b else a)

/-- Merge the representatives `a` and `b`. -/
def mergeReps (a b : Fin n) (s : SolverData n) : SolverData n :=
  let r := (s.joined a b).1
  let nonRep := (s.joined a b).2
  let info := s.nodes nonRep
  let s₁ := { s with sccUf := s.sccUf.joinMin a b }.setNode nonRep fun info =>
    { info with assignDsts := [], derefs := fun _ => [] }
  let s₂ := s₁.addAssignEdges
    ((info.assignDsts.filter fun dst => s₁.rep dst ≠ r).map fun dst => (r, s₁.rep dst))
  let s₃ := (s₂.mergeWithDiff r info.ptsSet).1
  (s₃.transferAll r info).wipe r nonRep

/-- `merge`. The new representative is `rep a` afterwards. -/
def merge (a b : Fin n) (s : SolverData n) : SolverData n :=
  if s.rep a = s.rep b then s else s.mergeReps (s.rep a) (s.rep b)

/-- One destination of `propagate`, given as it was resolved at the start. The first component is `U`. -/
def visitDst (uPending : Finset (Fin n)) (r : Fin n × SolverData n) (vSnap : Fin n) :
    Fin n × SolverData n :=
  let v := r.2.rep vSnap
  if v = r.1 then r
  else
    let merged := r.2.mergeWithDiff v uPending
    if merged.2 then (r.1, merged.1.push v)
    else if r.1 ∈ (merged.1.nodes v).assignDsts then
      let s := merged.1.merge r.1 v
      (s.rep r.1, s)
    else (r.1, merged.1)

/-- One round of `propagate` for `w`, which was popped. -/
def propagateRound (w : Fin n) (s : SolverData n) : SolverData n :=
  let u := s.rep w
  if (s.nodes u).pendingPts = ∅ then s
  else
    (((s.nodes u).assignDsts.map s.rep).foldl (visitDst (s.nodes u).pendingPts)
      (u, s.setNode u fun info => { info with pendingPts := ∅ })).2

/-- `propagate`, with a bound on the rounds. -/
def propagate : ℕ → SolverData n → Option (SolverData n)
  | 0, _ => none
  | fuel + 1, s =>
    match s.propWorklist with
    | [] => some s
    | w :: rest => propagate fuel (propagateRound w { s with propWorklist := rest })

end SolverData

/-- What is inserted. `merge` equates two nodes. -/
inductive Constraint (n : ℕ)
  | addPointee (ptr obj : Fin n)
  | addAssignEdge (src dst : Fin n)
  | addLoad (ptr dst : Fin n)
  | addStore (ptr src : Fin n)
  | addMemCopy (srcPtr dstPtr : Fin n)
  | merge (a b : Fin n)

namespace Constraint

def insert : Constraint n → SolverData n → SolverData n
  | addPointee ptr obj => SolverData.addPointee ptr obj
  | addAssignEdge src dst => SolverData.addAssignEdge src dst
  | addLoad ptr dst => SolverData.addLoad ptr dst
  | addStore ptr src => SolverData.addStore ptr src
  | addMemCopy srcPtr dstPtr => SolverData.addMemCopy srcPtr dstPtr
  | merge a b => SolverData.merge a b

/-- The points-to relation `pts` satisfies the constraint. -/
def Holds (pts : Fin n → Fin n → Prop) : Constraint n → Prop
  | addPointee ptr obj => pts ptr obj
  | addAssignEdge src dst => ∀ x, pts src x → pts dst x
  | addLoad ptr dst => ∀ o, pts ptr o → ∀ x, pts o x → pts dst x
  | addStore ptr src => ∀ o, pts ptr o → ∀ x, pts src x → pts o x
  | addMemCopy srcPtr dstPtr => ∀ o₁ o₂, pts srcPtr o₁ → pts dstPtr o₂ → ∀ x, pts o₁ x → pts o₂ x
  | merge a b => ∀ x, pts a x ↔ pts b x

end Constraint

/-- A step of a run. -/
inductive Op (n : ℕ)
  | insert (c : Constraint n)
  | propagate

/-- The constraints that a run inserts. -/
def constraints (ops : List (Op n)) : List (Constraint n) :=
  ops.filterMap fun
    | .insert c => some c
    | .propagate => none

/-- Run the steps, and propagate at the end. -/
def run (fuel : ℕ) : List (Op n) → SolverData n → Option (SolverData n)
  | [], s => s.propagate fuel
  | .insert c :: ops, s => run fuel ops (c.insert s)
  | .propagate :: ops, s => (s.propagate fuel).bind (run fuel ops)

/-! ### Steps that lose no edge -/

namespace SolverData

/-- The operands that the memcpy constraints of `v` name are representatives under `rep`. -/
def Live (rep : Fin n → Fin n) (s : SolverData n) (v : Fin n) : Prop :=
  ∀ kind kind', kind.dual = some kind' → ∀ x ∈ (s.nodes v).derefs kind, rep x = x

/-- Whatever memcpy constraint `merge` fires names a representative: those of the new representative if
it gets new pointees, and those that it takes over. -/
def MergeOk (a b : Fin n) (s : SolverData n) : Prop :=
  s.rep a ≠ s.rep b →
    let r := (s.joined (s.rep a) (s.rep b)).1
    let nonRep := (s.joined (s.rep a) (s.rep b)).2
    let rep := (s.sccUf.joinMin (s.rep a) (s.rep b)).find
    (¬(s.nodes nonRep).ptsSet ⊆ (s.nodes r).ptsSet → Live rep s r) ∧
      ∀ kind kind', kind.dual = some kind' → ∀ x ∈ (s.nodes nonRep).derefs kind,
        x ∉ (s.nodes r).derefs kind → rep x = x

/-- A destination with new pointees has live memcpy constraints only. -/
def VisitOk (uPending : Finset (Fin n)) (r : Fin n × SolverData n) (vSnap : Fin n) : Prop :=
  let v := r.2.rep vSnap
  v ≠ r.1 →
    if uPending ⊆ (r.2.nodes v).ptsSet then r.1 ∈ (r.2.nodes v).assignDsts → MergeOk r.1 v r.2
    else Live r.2.rep r.2 v

def VisitsOk (uPending : Finset (Fin n)) : List (Fin n) → Fin n × SolverData n → Prop
  | [], _ => True
  | vSnap :: dsts, r => VisitOk uPending r vSnap ∧ VisitsOk uPending dsts (visitDst uPending r vSnap)

def RoundOk (w : Fin n) (s : SolverData n) : Prop :=
  let u := s.rep w
  VisitsOk (s.nodes u).pendingPts ((s.nodes u).assignDsts.map s.rep)
    (u, s.setNode u fun info => { info with pendingPts := ∅ })

def PropagateOk : ℕ → SolverData n → Prop
  | 0, _ => True
  | fuel + 1, s =>
    match s.propWorklist with
    | [] => True
    | w :: rest => RoundOk w { s with propWorklist := rest } ∧
        PropagateOk fuel (propagateRound w { s with propWorklist := rest })

end SolverData

/-- A new pointee is added to a node without load, store and memcpy constraints. -/
def Constraint.InsertOk : Constraint n → SolverData n → Prop
  | .addPointee ptr obj, s => obj ∈ (s.nodes (s.rep ptr)).ptsSet ∨
      ∀ kind, (s.nodes (s.rep ptr)).derefs kind = []
  | .merge a b, s => s.MergeOk a b
  | _, _ => True

/-- No step of the run loses an edge. -/
def RunOk (fuel : ℕ) : List (Op n) → SolverData n → Prop
  | [], s => s.PropagateOk fuel
  | .insert c :: ops, s => c.InsertOk s ∧ RunOk fuel ops (c.insert s)
  | .propagate :: ops, s => s.PropagateOk fuel ∧ ∀ s', s.propagate fuel = some s' → RunOk fuel ops s'

namespace SolverData

instance (rep : Fin n → Fin n) (s : SolverData n) (v : Fin n) : Decidable (Live rep s v) :=
  inferInstanceAs (Decidable (∀ kind kind', kind.dual = some kind' →
    ∀ x ∈ (s.nodes v).derefs kind, rep x = x))

instance (a b : Fin n) (s : SolverData n) : Decidable (MergeOk a b s) :=
  inferInstanceAs (Decidable (s.rep a ≠ s.rep b →
    (¬(s.nodes (s.joined (s.rep a) (s.rep b)).2).ptsSet ⊆
        (s.nodes (s.joined (s.rep a) (s.rep b)).1).ptsSet →
      Live (s.sccUf.joinMin (s.rep a) (s.rep b)).find s (s.joined (s.rep a) (s.rep b)).1) ∧
      ∀ kind kind', kind.dual = some kind' →
        ∀ x ∈ (s.nodes (s.joined (s.rep a) (s.rep b)).2).derefs kind,
          x ∉ (s.nodes (s.joined (s.rep a) (s.rep b)).1).derefs kind →
            (s.sccUf.joinMin (s.rep a) (s.rep b)).find x = x))

instance (uPending : Finset (Fin n)) (r : Fin n × SolverData n) (vSnap : Fin n) :
    Decidable (VisitOk uPending r vSnap) :=
  inferInstanceAs (Decidable (r.2.rep vSnap ≠ r.1 →
    if uPending ⊆ (r.2.nodes (r.2.rep vSnap)).ptsSet then
      r.1 ∈ (r.2.nodes (r.2.rep vSnap)).assignDsts → MergeOk r.1 (r.2.rep vSnap) r.2
    else Live r.2.rep r.2 (r.2.rep vSnap)))

instance decidableVisitsOk (uPending : Finset (Fin n)) :
    ∀ (dsts : List (Fin n)) (r : Fin n × SolverData n), Decidable (VisitsOk uPending dsts r)
  | [], _ => isTrue trivial
  | vSnap :: dsts, r =>
    have := decidableVisitsOk uPending dsts (visitDst uPending r vSnap)
    inferInstanceAs (Decidable (VisitOk uPending r vSnap ∧
      VisitsOk uPending dsts (visitDst uPending r vSnap)))

instance (w : Fin n) (s : SolverData n) : Decidable (RoundOk w s) :=
  decidableVisitsOk _ _ _

instance decidablePropagateOk : ∀ (fuel : ℕ) (s : SolverData n), Decidable (PropagateOk fuel s)
  | 0, _ => isTrue trivial
  | _ + 1, ⟨_, _, []⟩ => isTrue trivial
  | fuel + 1, ⟨uf, nodes, w :: rest⟩ =>
    have := decidablePropagateOk fuel (propagateRound w ⟨uf, nodes, rest⟩)
    inferInstanceAs (Decidable (RoundOk w ⟨uf, nodes, rest⟩ ∧
      PropagateOk fuel (propagateRound w ⟨uf, nodes, rest⟩)))

end SolverData

instance (s : SolverData n) : ∀ c : Constraint n, Decidable (c.InsertOk s)
  | .addPointee ptr obj => inferInstanceAs (Decidable (obj ∈ (s.nodes (s.rep ptr)).ptsSet ∨
      ∀ kind, (s.nodes (s.rep ptr)).derefs kind = []))
  | .merge a b => inferInstanceAs (Decidable (s.MergeOk a b))
  | .addAssignEdge _ _ | .addLoad _ _ | .addStore _ _ | .addMemCopy _ _ => isTrue trivial

instance decidableRunOk (fuel : ℕ) :
    ∀ (ops : List (Op n)) (s : SolverData n), Decidable (RunOk fuel ops s)
  | [], s => inferInstanceAs (Decidable (s.PropagateOk fuel))
  | .insert c :: ops, s =>
    have := decidableRunOk fuel ops (c.insert s)
    inferInstanceAs (Decidable (c.InsertOk s ∧ RunOk fuel ops (c.insert s)))
  | .propagate :: ops, s =>
    match h : s.propagate fuel, SolverData.decidablePropagateOk fuel s with
    | _, isFalse hp => isFalse fun hok => hp hok.1
    | none, isTrue hp => isTrue ⟨hp, fun s' hs' => by cases h.symm.trans hs'⟩
    | some s', isTrue hp =>
      match decidableRunOk fuel ops s' with
      | isTrue hok => isTrue ⟨hp, fun s'' hs'' => by cases h.symm.trans hs''; exact hok⟩
      | isFalse hno => isFalse fun hok => hno (hok.2 s' h)

end Phasar.Andersen
