import Phasar.IfdsIde.IDESolver

/-!
# The IDE solver, phase II

`computeValues` turns jump functions into values. Seeds are written and propagated at once; then a
work list of start nodes and call sites whose value changed pushes values from the start of a function
to its call sites (`propagateValueAtStart`) and from call sites to the start points of their callees
(`propagateValueAtCall`). At last every other instruction gets its value from the start points of its
function (`valueComputationTask`).

* `ValueState`: `ValTab` and `ValuePropWL`;
* `propagateValue`, `valuePropagationTask`, `submitInitialValues`, `valueComputationTask`;
* `ValueStep`: one iteration of the loop of `computeValues` on any element of the work list.
-/

namespace Phasar

/-- The state of phase II. -/
structure ValueState (N D L : Type*) where
  valTab : Table N D (Option L)
  valuePropWL : List (N × D)

/-- What phase II reads: the jump functions, and the return sites of unbalanced returns. -/
structure PhaseOneResult (N D E : Type*) where
  jumpFn : JumpFunctions N D E
  unbalancedRetSites : List N

namespace ValueState

variable {N F D E L : Type*} [DecidableEq N] [DecidableEq D] [DecidableEq L]
variable (P : IDETabulationProblem N F D E L) (G : ICFG N F) (R : PhaseOneResult N D E)

/-- The value of a fact at a node, implicitly initialised to top. -/
def val (V : ValueState N D L) (n : N) (d : D) : L := (V.valTab n d).getD P.topElement

/-- Store a value. -/
def setVal (V : ValueState N D L) (n : N) (d : D) (l : L) : ValueState N D L :=
  { V with valTab := V.valTab.modify n d fun _ => some l }

/-- Join a value into the stored one; if that changes it, the node is propagated. -/
def propagateValue (V : ValueState N D L) (n : N) (d : D) (l : L) : ValueState N D L :=
  let lPrime := P.join (V.val P n d) l
  if lPrime = V.val P n d then V
  else { V.setVal n d lPrime with valuePropWL := V.valuePropWL ++ [(n, d)] }

/-- Propagate the value of a fact at a start point to the call sites of the function. -/
def propagateValueAtStart (V : ValueState N D L) (fact : D) (stmt : N) : ValueState N D L :=
  (G.getCallsFromWithin (G.getFunctionOf stmt)).foldl (fun V callSite =>
    (R.jumpFn.forwardLookup fact callSite).entries.foldl (fun V entry =>
      V.propagateValue P callSite entry.1 (P.computeTarget entry.2 (V.val P stmt fact))) V) V

/-- Propagate the value of a fact at a call site to the start points of the callees. -/
def propagateValueAtCall (V : ValueState N D L) (fact : D) (stmt : N) : ValueState N D L :=
  (G.getCalleesOfCallAt stmt).foldl (fun V callee =>
    (P.cachedFlows.getCallFlowFunction stmt callee fact).foldl (fun V dPrime =>
      let edgeFn := P.getCallEdgeFunction stmt fact callee dPrime
      (G.getStartPointsOf callee).foldl (fun V startPoint =>
        V.propagateValue P startPoint dPrime (P.computeTarget edgeFn (V.val P stmt fact))) V) V) V

/-- `containsInitialSeedsFor`, with the auto-added zero seeds. -/
def containsInitialSeedsFor (n : N) : Bool := (P.seeds.get? n).isSome

/-- Seed nodes and return sites of unbalanced returns are treated like start points. -/
def valuePropagationTask (V : ValueState N D L) (nAndD : N × D) : ValueState N D L :=
  let n := nAndD.1
  let V :=
    if G.isStartPoint n || containsInitialSeedsFor P n || n ∈ R.unbalancedRetSites then
      V.propagateValueAtStart P G R nAndD.2 n
    else V
  if G.isCallSite n then V.propagateValueAtCall P G nAndD.2 n else V

/-- The zero value with top at an unbalanced return site without seeds. -/
def addUnbalancedSeed (all : VecMap N (VecMap D L)) (n : N) : VecMap N (VecMap D L) :=
  match all.get? n with
  | some _ => all
  | none => all.set n (VecMap.empty.set P.getZeroValue P.topElement)

/-- The seeds of phase II. -/
def allSeeds : VecMap N (VecMap D L) := R.unbalancedRetSites.foldl (addUnbalancedSeed P) P.seeds

/-- Write one seed and propagate it. -/
def submitSeed (V : ValueState N D L) (startPoint : N) (fact : D) (value : L) :
    ValueState N D L :=
  (V.setVal startPoint fact (P.join value (V.val P startPoint fact))).valuePropagationTask P G R
    (startPoint, fact)

/-- Write and propagate all seeds. -/
def submitInitialValues (V : ValueState N D L) : ValueState N D L :=
  (allSeeds P R).entries.foldl (fun V entry =>
    entry.2.entries.foldl (fun V seed => V.submitSeed P G R entry.1 seed.1 seed.2) V) V

/-- The contributions of one start point to the values at `n`. -/
def computeValuesFrom (n sp : N) (V : ValueState N D L) : ValueState N D L :=
  (R.jumpFn.lookupByTarget n).entries.foldl (fun V cell =>
    V.setVal n cell.1.2
      (P.join (V.val P n cell.1.2) (P.computeTarget cell.2 (V.val P sp cell.1.1)))) V

/-- Phase II(ii): the values at the given instructions. -/
def valueComputationTask (V : ValueState N D L) (values : List N) : ValueState N D L :=
  values.foldl (fun V n =>
    (G.getStartPointsOf (G.getFunctionOf n)).foldl (fun V sp => V.computeValuesFrom P R n sp) V) V

/-- The state before phase II. -/
def empty : ValueState N D L := ⟨fun _ _ => none, []⟩

/-- One iteration of the loop of `computeValues`, on any element of the work list. -/
inductive ValueStep (V : ValueState N D L) : ValueState N D L → Prop
  | take (l r : List (N × D)) (nAndD : N × D) : V.valuePropWL = l ++ nAndD :: r →
      ValueStep V (valuePropagationTask P G R { V with valuePropWL := l ++ r } nAndD)

/-- The states of the loop of `computeValues`, the work list taken in any order. -/
inductive ValueReachable : ValueState N D L → Prop
  | init : ValueReachable (submitInitialValues P G R empty)
  | step {V V' : ValueState N D L} : ValueReachable V → ValueStep P G R V V' → ValueReachable V'

/-- The loop of `computeValues`, cut off after `fuel` iterations; it takes the back. -/
def valueLoop : ℕ → ValueState N D L → ValueState N D L
  | 0, V => V
  | fuel + 1, V =>
    match V.valuePropWL.getLast? with
    | none => V
    | some nAndD =>
      valueLoop fuel
        (valuePropagationTask P G R { V with valuePropWL := V.valuePropWL.dropLast } nAndD)

/-- Phase II after its loop. -/
def finish (V : ValueState N D L) : ValueState N D L :=
  V.valueComputationTask P G R G.allNonCallStartNodes

theorem valueReachable_loop (fuel : ℕ) {V : ValueState N D L} (h : ValueReachable P G R V) :
    ValueReachable P G R (valueLoop P G R fuel V) := by
  induction fuel generalizing V with
  | zero => exact h
  | succ fuel ih =>
    unfold valueLoop
    cases hl : V.valuePropWL.getLast? with
    | none => exact h
    | some p =>
      obtain ⟨ys, hys⟩ := List.getLast?_eq_some_iff.1 hl
      refine ih (h.step ?_)
      simpa [hys] using ValueStep.take ys [] p hys

end ValueState

end Phasar
