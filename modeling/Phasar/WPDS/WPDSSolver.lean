import Phasar.Lib.Deduction
import Phasar.Lib.VecMap

/-!
# The solver for weighted pushdown systems

A rule provider describes a pushdown system by normal rules, push rules and pop rules over control
locations and stack elements. `WPDSSolver` saturates its path edges: `Incoming` and `EndSummary` connect
the pushes of an entry with the pops that end it.

* `SemiRing`, `RuleProvider`, `WPDSSolver`;
* `propagate`, `processPathEdge`, `solveImpl`;
* `Step`: a round of `solveImpl` with any element of the work list in place of its back.
-/

namespace Phasar.WPDS

/-- The operations of `IsSemiRing`. -/
structure SemiRing (W : Type*) where
  extend : W → W → W
  combine : W → W → W
  identity : W

/-- The laws of an idempotent semiring, but for the neutral element of `combine`. -/
structure SemiRing.Lawful {W : Type*} (SR : SemiRing W) : Prop where
  combine_assoc : ∀ a b c, SR.combine (SR.combine a b) c = SR.combine a (SR.combine b c)
  combine_comm : ∀ a b, SR.combine a b = SR.combine b a
  combine_idem : ∀ a, SR.combine a a = a
  extend_assoc : ∀ a b c, SR.extend (SR.extend a b) c = SR.extend a (SR.extend b c)
  identity_extend : ∀ a, SR.extend SR.identity a = a
  extend_identity : ∀ a, SR.extend a SR.identity = a
  extend_combine : ∀ a b c, SR.extend a (SR.combine b c) = SR.combine (SR.extend a b) (SR.extend a c)
  combine_extend : ∀ a b c, SR.extend (SR.combine a b) c = SR.combine (SR.extend a c) (SR.extend b c)

/-- The order of `combine`: `a ≤ b` when `b` absorbs `a`. -/
@[reducible] def SemiRing.Lawful.semilattice {W : Type*} {SR : SemiRing W} (law : SR.Lawful) :
    SemilatticeSup W :=
  letI : Max W := ⟨SR.combine⟩
  SemilatticeSup.mk' law.combine_comm law.combine_assoc law.combine_idem

/-- A control location and a stack element. An `ESGNodeId` stands for such a pair. -/
abbrev Node (CL SE : Type*) := CL × SE

/-- A push rule: the successor fact, the return site, the entry and the weight. -/
structure PushRule (CL SE W : Type*) where
  succFact : CL
  retSite : SE
  entrySE : SE
  weight : W

/-- The ranges of a rule provider are lists in their order; `makeSrcFacts` is optional. -/
structure RuleProvider (CL SE W : Type*) where
  getNormalRules : Node CL SE → List (Node CL SE × W)
  getPushRules : Node CL SE → List (PushRule CL SE W)
  hasPopRules : Node CL SE → Bool
  getPopRules : Node CL SE → SE → SE → List (CL × W)
  initialSeeds : List (Node CL SE × W)
  makeSrcFacts : Option (CL → List CL)

/-- The facts that start the path edges of a pushed fact. -/
def RuleProvider.srcFacts {CL SE W : Type*} (RP : RuleProvider CL SE W) (succFact : CL) : List CL :=
  match RP.makeSrcFacts with
  | some makeSrcFacts => makeSrcFacts succFact
  | none => [succFact]

/-- A path edge: its source and its target. -/
abbrev PathEdge (CL SE : Type*) := Node CL SE × Node CL SE

/-- The state of the solver; the back of the work list comes first. -/
structure WPDSSolver (CL SE W : Type*) where
  workList : List (PathEdge CL SE × W)
  pathEdges : Node CL SE → VecMap (Node CL SE) W
  incoming : Node CL SE → VecMap (Node CL SE × SE) W
  endSummary : Node CL SE → VecMap (Node CL SE) W
  seeds : VecMap (Node CL SE) W

namespace WPDSSolver

variable {CL SE W : Type*} [DecidableEq CL] [DecidableEq SE] [DecidableEq W]
variable (RP : RuleProvider CL SE W) (SR : SemiRing W)

def empty : WPDSSolver CL SE W := ⟨[], fun _ => .empty, fun _ => .empty, fun _ => .empty, .empty⟩

/-- The weight of a path edge. -/
def stored (S : WPDSSolver CL SE W) (k : PathEdge CL SE) : Option W := (S.pathEdges k.2).get? k.1

/-- Store the weight of a path edge and put it on the work list. -/
def update (S : WPDSSolver CL SE W) (k : PathEdge CL SE) (weight : W) : WPDSSolver CL SE W :=
  { S with pathEdges := Function.update S.pathEdges k.2 ((S.pathEdges k.2).set k.1 weight)
           workList := (k, weight) :: S.workList }

def propagate (S : WPDSSolver CL SE W) (k : PathEdge CL SE) (weight : W) : WPDSSolver CL SE W :=
  match S.stored k with
  | none => S.update k weight
  | some old =>
    if old ≠ SR.combine old weight then S.update k (SR.combine old weight) else S

/-- `propagate` in a loop. -/
def propagateAll (S : WPDSSolver CL SE W) (items : List (PathEdge CL SE × W)) : WPDSSolver CL SE W :=
  items.foldl (fun S item => propagate SR S item.1 item.2) S

def addIncoming (S : WPDSSolver CL SE W) (pushNod csSrc : Node CL SE) (retSite : SE) (pushWeight : W) :
    WPDSSolver CL SE W :=
  { S with incoming := Function.update S.incoming pushNod <|
      (S.incoming pushNod).alter (csSrc, retSite) fun
        | none => pushWeight
        | some old => SR.combine old pushWeight }

/-- Store a summary. -/
def setEndSummary (S : WPDSSolver CL SE W) (src tgt : Node CL SE) (weight : W) : WPDSSolver CL SE W :=
  { S with endSummary := Function.update S.endSummary src ((S.endSummary src).set tgt weight) }

/-- Whether the summary changed comes with the new state. -/
def addEndSummary (S : WPDSSolver CL SE W) (src tgt : Node CL SE) (tgtWeight : W) :
    WPDSSolver CL SE W × Bool :=
  match (S.endSummary src).get? tgt with
  | none => (S.setEndSummary src tgt tgtWeight, true)
  | some old =>
    if old ≠ SR.combine old tgtWeight then (S.setEndSummary src tgt (SR.combine old tgtWeight), true)
    else (S, false)

/-- The path edges behind a call with weight `incWeight` and a summary of its entry. -/
def popItems (pushNod csSrc : Node CL SE) (retSite : SE) (incWeight : W) (tgt : Node CL SE)
    (sumWeight : W) :
    List (PathEdge CL SE × W) :=
  (RP.getPopRules tgt retSite pushNod.2).map fun pop =>
    ((csSrc, (pop.1, retSite)), SR.extend (SR.extend incWeight sumWeight) pop.2)

def applyEndSummary (S : WPDSSolver CL SE W) (pushNod csSrc : Node CL SE) (retSite : SE)
    (pushWeight : W) :
    WPDSSolver CL SE W :=
  propagateAll SR S ((S.endSummary pushNod).entries.flatMap fun sum =>
    popItems RP SR pushNod csSrc retSite pushWeight sum.1 sum.2)

/-- A push rule with one of its source facts. -/
def processPush (currSrc : Node CL SE) (currWeight : W) (S : WPDSSolver CL SE W)
    (push : PushRule CL SE W × CL) : WPDSSolver CL SE W :=
  let entry := (push.2, push.1.entrySE)
  let S := propagate SR S (entry, (push.1.succFact, push.1.entrySE)) SR.identity
  let incWeight := SR.extend currWeight push.1.weight
  let S := addIncoming SR S entry currSrc push.1.retSite incWeight
  applyEndSummary RP SR S entry currSrc push.1.retSite incWeight

/-- The push rules at a node with their source facts. -/
def pushes (tgt : Node CL SE) : List (PushRule CL SE W × CL) :=
  (RP.getPushRules tgt).flatMap fun push => (RP.srcFacts push.succFact).map fun real => (push, real)

/-- The end of a path edge at a node with pop rules. -/
def processPop (S : WPDSSolver CL SE W) (currSrc tgt : Node CL SE) (currWeight : W) :
    WPDSSolver CL SE W :=
  if RP.hasPopRules tgt then
    let added := addEndSummary SR S currSrc tgt currWeight
    if added.2 then
      propagateAll SR added.1 ((added.1.incoming currSrc).entries.flatMap fun inc =>
        popItems RP SR currSrc inc.1.1 inc.1.2 inc.2 tgt currWeight)
    else added.1
  else S

/-- The body of the loop of `solveImpl`. -/
def processPathEdge (S : WPDSSolver CL SE W) (k : PathEdge CL SE) (currWeight : W) : WPDSSolver CL SE W :=
  let S := propagateAll SR S ((RP.getNormalRules k.2).map fun rule =>
    ((k.1, rule.1), SR.extend currWeight rule.2))
  let S := (pushes RP k.2).foldl (processPush RP SR k.1 currWeight) S
  processPop RP SR S k.1 k.2 currWeight

/-- A seed of `submitInitialSeeds`. -/
def submitSeed (S : WPDSSolver CL SE W) (seed : Node CL SE × W) : WPDSSolver CL SE W :=
  let S := propagate SR S (seed.1, seed.1) SR.identity
  { S with seeds := S.seeds.alter seed.1 fun
      | none => seed.2
      | some old => SR.combine old seed.2 }

def submitInitialSeeds : WPDSSolver CL SE W := RP.initialSeeds.foldl (submitSeed SR) empty

/-- The loop of `solveImpl`. -/
def solveLoop : ℕ → WPDSSolver CL SE W → Option (WPDSSolver CL SE W)
  | 0, _ => none
  | fuel + 1, S =>
    match S.workList with
    | [] => some S
    | item :: rest => solveLoop fuel (processPathEdge RP SR { S with workList := rest } item.1 item.2)

def solveImpl (fuel : ℕ) : Option (WPDSSolver CL SE W) := solveLoop RP SR fuel (submitInitialSeeds RP SR)

/-! ### Any order of the work list -/

/-- A round of the loop that takes any element of the work list. -/
def Step (S S' : WPDSSolver CL SE W) : Prop :=
  ∃ l r k w, S.workList = l ++ (k, w) :: r ∧ S' = processPathEdge RP SR { S with workList := l ++ r } k w

/-- The states of all runs. -/
inductive Reachable : WPDSSolver CL SE W → Prop
  | init : Reachable (submitInitialSeeds RP SR)
  | step {S S' : WPDSSolver CL SE W} : Reachable S → Step RP SR S S' → Reachable S'

/-- The loop takes steps until the work list is empty. -/
theorem reachable_of_solveLoop {fuel : ℕ} {S S' : WPDSSolver CL SE W} (hS : Reachable RP SR S)
    (h : solveLoop RP SR fuel S = some S') : Reachable RP SR S' ∧ S'.workList = [] := by
  induction fuel generalizing S with
  | zero => cases h
  | succ fuel ih =>
    rw [solveLoop] at h
    cases hwl : S.workList with
    | nil =>
      simp only [hwl, Option.some.injEq] at h
      exact h ▸ ⟨hS, hwl⟩
    | cons item rest =>
      simp only [hwl] at h
      exact ih (hS.step ⟨[], rest, item.1, item.2, hwl, rfl⟩) h

/-- If no run is infinite, the loop ends. -/
theorem solveLoop_terminates (S : WPDSSolver CL SE W) (h : Acc (fun S' S => Step RP SR S S') S) :
    ∃ n S', ∀ fuel ≥ n, solveLoop RP SR fuel S = some S' := by
  induction h with
  | intro S _ ih =>
    cases hwl : S.workList with
    | nil =>
      refine ⟨1, S, fun fuel hfuel => ?_⟩
      obtain ⟨fuel, rfl⟩ := Nat.exists_eq_add_of_le' hfuel
      rw [solveLoop]
      simp only [hwl]
    | cons item rest =>
      obtain ⟨n, S', hn⟩ := ih _ ⟨[], rest, item.1, item.2, hwl, rfl⟩
      refine ⟨n + 1, S', fun fuel hfuel => ?_⟩
      obtain ⟨fuel, rfl⟩ := Nat.exists_eq_add_of_le' (Nat.le_of_add_left_le hfuel)
      rw [solveLoop]
      simp only [hwl]
      exact hn fuel (Nat.le_of_succ_le_succ hfuel)

end WPDSSolver

end Phasar.WPDS
