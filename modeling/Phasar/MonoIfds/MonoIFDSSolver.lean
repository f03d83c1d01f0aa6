import Phasar.ControlFlow.CGSCCs
import Phasar.MonoIfds.MonoIFDSProblem
import Phasar.MonoIfds.TopoFixpointDriver

/-!
# The `MonoIFDSSolver`

The bottom-up solver: the components of the call graph are analysed one after the other, each with a work
list of block starts, until its environments and summaries are stable; then the leaks are passed on.

* `Setup`, `Abort`: what is analysed, and why a run is given up;
* `OrderedDriver`, `Drivers`: the work lists; `push` of the topological one fails for an item without an id, and
  otherwise is that of `TopoFixpointDriver`;
* `FunctionSummary`, `MonoIFDSSolver`, `IntermediateState`: the state;
* `analyzeInstruction`, `analyzeBlock`, `rescheduleCalls`, `repropagateLeaks`;
* `computeFixpointForSCC`, `solve`.
-/

namespace Phasar.MonoIfds

/-- The queries of a block-aware control-flow graph. -/
structure BlockAware (N : Type) where
  getUniqueSuccessor : N → Option N
  hasUniquePredecessor : N → Bool

/-- What the solver is constructed with, after `initialize`. -/
structure Setup (N F D : Type) where
  icf : ICFG N F
  blocks : Option (BlockAware N)
  functions : FunctionCompressor F
  sccs : SCCHolder functions.size
  problem : MonoIFDSProblem N F D

/-- Why a run is given up. -/
inductive Abort
  /-- The bound on the length of the loops was too small. -/
  | outOfFuel
  /-- An item was pushed to a `TopoFixpointDriver` whose order does not have it. -/
  | notInOrder
  /-- A function has no id. -/
  | noId
  deriving DecidableEq, Repr

/-! ### The work lists -/

/-- `TopoFixpointDriver` with its order; `⊥` is -1. -/
structure OrderedDriver (N : Type) where
  cfo : Compressor N := {}
  workList : Finset ℕ := ∅
  max : WithBot ℕ := ⊥

theorem max_map_val {n : ℕ} (bits : Finset (Fin n)) :
    (bits.map Fin.valEmbedding).max = bits.max.map Fin.val := by
  induction bits using Finset.induction_on with
  | empty => rfl
  | insert i bits _ ih =>
    rw [Finset.map_insert, Finset.max_insert, Finset.max_insert, ih]
    exact (Fin.val_strictMono.withBot_map.monotone.map_max (a := (i : WithBot (Fin n)))).symm

namespace OrderedDriver

variable {N : Type}

/-- `push`: `CFO.Order.get` asserts that the item has an id. -/
def push (driver : OrderedDriver N) (item : N) : Except Abort (OrderedDriver N) :=
  match driver.cfo.getOrNull item with
  | none => .error .notInOrder
  | some iid => .ok
      { driver with
        workList := insert iid driver.workList
        max := if driver.max < iid then iid else driver.max }

def pop (driver : OrderedDriver N) : Except Abort (Option N × OrderedDriver N) :=
  match driver.max with
  | none => .ok (none, driver)
  | some iid =>
    match driver.cfo.get iid with
    | none => .error .notInOrder
    | some item => .ok (some item, { driver with max := (driver.workList.filter (· < iid)).max })

def empty (driver : OrderedDriver N) : Bool := driver.max = ⊥

variable {n : ℕ} {cfo : Compressor N} {order : N ≃ Fin n}

/-- The driver with an order that numbers all items. -/
def ofTopo (cfo : Compressor N) (D : TopoFixpointDriver n) : OrderedDriver N where
  cfo := cfo
  workList := D.workList.map Fin.valEmbedding
  max := D.max.map Fin.val

theorem push_ofTopo (hcfo : ∀ item, cfo.getOrNull item = some (order item).val) (D : TopoFixpointDriver n)
    (item : N) : (ofTopo cfo D).push item = .ok (ofTopo cfo (D.push order item)) := by
  have hmax : (D.max.map Fin.val < ((order item).val : WithBot ℕ)) ↔ D.max < order item := by
    have hcoe : ((order item).val : WithBot ℕ) = WithBot.map Fin.val (order item : WithBot (Fin n)) := rfl
    rw [hcoe]
    exact Fin.val_strictMono.withBot_map.lt_iff_lt
  unfold push ofTopo TopoFixpointDriver.push
  simp only [hcfo, hmax, Finset.map_insert, Fin.valEmbedding_apply]
  split_ifs <;> rfl

theorem pop_ofTopo (hcfo : ∀ i : Fin n, cfo.get i.val = some (order.symm i)) (D : TopoFixpointDriver n) :
    (ofTopo cfo D).pop = match D.pop order with
      | none => .ok (none, ofTopo cfo D)
      | some (item, D') => .ok (some item, ofTopo cfo D') := by
  unfold TopoFixpointDriver.pop pop ofTopo
  cases hmax : D.max with
  | bot => rfl
  | coe i =>
    have hbits : (D.workList.map Fin.valEmbedding).filter (· < i.val) =
        (D.workList.filter (· < i)).map Fin.valEmbedding := by
      rw [Finset.filter_map]
      rfl
    have hpop : WithBot.map Fin.val (i : WithBot (Fin n)) = some i.val := rfl
    simp only [hpop, hcfo, hbits, max_map_val]
    rfl

end OrderedDriver

/-- The work lists of a component. -/
structure Drivers (N : Type) where
  defaultDriver : ArraySet N := .new
  topoDriver : OrderedDriver N := {}

namespace Drivers

variable {N : Type} [DecidableEq N]

/-- `Driver.push`, where `topo` says which driver that is. -/
def push (topo : Bool) (drivers : Drivers N) (item : N) : Except Abort (Drivers N) :=
  if topo then return { drivers with topoDriver := ← drivers.topoDriver.push item }
  else return { drivers with defaultDriver := drivers.defaultDriver.insert item }

def empty (topo : Bool) (drivers : Drivers N) : Bool :=
  if topo then drivers.topoDriver.empty else drivers.defaultDriver.empty

/-- `Driver.run`. -/
def run {S : Type} (topo : Bool) (handler : N → S × Drivers N → Except Abort (S × Drivers N)) :
    ℕ → S × Drivers N → Except Abort (S × Drivers N)
  | 0, _ => .error .outOfFuel
  | fuel + 1, (s, drivers) =>
    if topo then do
      let (item, topoDriver) ← drivers.topoDriver.pop
      let drivers := { drivers with topoDriver }
      match item with
      | none => return (s, drivers)
      | some item => run topo handler fuel (← handler item (s, drivers))
    else
      let queue := drivers.defaultDriver
      match (queue.vecs !queue.insertIndex)[queue.iterIdx]? with
      | some item => do
        let (s, drivers) ← handler item (s, drivers)
        run topo handler fuel (s, { drivers with defaultDriver := drivers.defaultDriver.advance })
      | none =>
        let queue := queue.swap
        let drivers := { drivers with defaultDriver := queue }
        if (queue.vecs !queue.insertIndex).isEmpty then return (s, drivers)
        else run topo handler fuel (s, drivers)

end Drivers

/-! ### The state -/

/-- `FunctionSummary`. -/
structure FunctionSummary (N D : Type) where
  sourceFactIds : Compressor D := {}
  endSummary : FactMap D := .empty
  leakIf : VecMap (N × D) SourceFactSet := .empty

/-- The state that lasts from one component to the next, and the calls of `onResult`. -/
structure MonoIFDSSolver (n : ℕ) (N D : Type) where
  summaries : Fin n → FunctionSummary N D := fun _ => {}
  leaks : N → List D := fun _ => []
  results : List (N × D) := []

/-- `IntermediateState`, together with the state of the solver. -/
structure IntermediateState (n : ℕ) (N F D : Type) extends MonoIFDSSolver n N D where
  pathEdges : N → Option (DataFlowEnvironment D) := fun _ => none
  incoming : F → List N := fun _ => []
  hasNewLeaks : List (Fin n) := []
  hasNewSummary : List (Fin n) := []
  inRecursion : Bool

variable {N F D : Type} [DecidableEq N] [DecidableEq F] [DecidableEq D]

section

variable {n : ℕ}

def IntermediateState.setPathEdge (S : IntermediateState n N F D) (inst : N) (env : DataFlowEnvironment D) :
    IntermediateState n N F D :=
  { S with pathEdges := Function.update S.pathEdges inst (some env) }

/-- `PathEdges[Inst]`. -/
def IntermediateState.pathEdge (S : IntermediateState n N F D) (inst : N) : DataFlowEnvironment D :=
  (S.pathEdges inst).getD {}

def IntermediateState.setSummary (S : IntermediateState n N F D) (funId : Fin n) (sum : FunctionSummary N D) :
    IntermediateState n N F D :=
  { S with summaries := Function.update S.summaries funId sum }

/-- `reportOrPropagateLeak`. The zero fact has the id 0. -/
def reportOrPropagateLeak (S : IntermediateState n N F D) (currFunId : Fin n) (leakInst : N) (leakFact : D)
    (from' : SourceFactSet) : IntermediateState n N F D :=
  let S :=
    if 0 ∈ from' ∧ leakFact ∉ S.leaks leakInst then
      { S with
        leaks := Function.update S.leaks leakInst (S.leaks leakInst ++ [leakFact])
        results := S.results ++ [(leakInst, leakFact)] }
    else S
  let currSum := S.summaries currFunId
  let merged := SourceFactSet.tryMergeWith ((currSum.leakIf.get? (leakInst, leakFact)).getD ∅) (from'.erase 0)
  let S := S.setSummary currFunId
    { currSum with leakIf := currSum.leakIf.set (leakInst, leakFact) merged.1 }
  if merged.2 && S.inRecursion then { S with hasNewLeaks := S.hasNewLeaks.insert currFunId } else S

end

variable (A : Setup N F D) (config : MonoIfdsConfig) (currSCC : ℕ)

namespace Setup

/-- The states of the solver. -/
abbrev State : Type := IntermediateState A.functions.size N F D

/-- `Functions->get`. -/
def get (fn : F) : Except Abort (Fin A.functions.size) :=
  match A.functions.getOrNull fn with
  | some id => .ok id
  | none => .error .noId

/-- The analysis of the component. -/
abbrev localProblem : LocalMonoIFDSProblem N F D := A.problem.localAnalysis currSCC

/-- `Mapper::getSourceFactsFor`. The mapper only remembers results. -/
def getSourceFactsFor (facts : FactMap D) (calleeSum : FunctionSummary N D) (callInst : N) (calleeSrc : ℕ) :
    SourceFactSet :=
  match calleeSum.sourceFactIds.get calleeSrc with
  | none => ∅
  | some calleeFact => ((A.localProblem currSCC).invCallFlow callInst calleeFact).foldl
      (fun ret fact => ret ∪ (facts.get? fact).getD ∅) ∅

/-- `Mapper::getAllSrcFactsFor`. -/
def getAllSrcFactsFor (facts : FactMap D) (calleeSum : FunctionSummary N D) (calleeSrcs : SourceFactSet)
    (callInst : N) : SourceFactSet :=
  calleeSrcs.biUnion (A.getSourceFactsFor currSCC facts calleeSum callInst)

/-! ### Instructions -/

/-- Report a leak fact that holds. -/
def requestLeak (facts : FactMap D) (currFunId : Fin A.functions.size) (inst : N) (S : A.State) (leakFact : D) :
    A.State :=
  match facts.get? leakFact with
  | some leakSrc => reportOrPropagateLeak S currFunId inst leakFact leakSrc
  | none => S

/-- A callee in `handleCallSrcSinksAndMayRecurse`; the flag is `MayRecurse`. -/
def handleCallee (currFunId : Fin A.functions.size) (inst : N)
    (acc : A.State × FactMap D × Bool) (calleeFun : F) : Except Abort (A.State × FactMap D × Bool) := do
  let (S, facts, mayRecurse) := acc
  let calleeId ← A.get calleeFun
  let recursive := A.sccs.sccOfNode calleeId = currSCC
  let S := if recursive then
      { S with incoming := Function.update S.incoming calleeFun ((S.incoming calleeFun).insert inst) }
    else S
  let S := ((A.localProblem currSCC).requestResultCallbackAtCallSite inst calleeFun).foldl
    (A.requestLeak facts currFunId inst) S
  let facts := ((A.localProblem currSCC).generateFactsAtCall inst calleeFun).foldl (·.insert · 0) facts
  return (S, facts, mayRecurse || recursive)

/-- `applySummary`. A function does not take over its own leaks. -/
def applySummary (facts : FactMap D) (calleeId : Fin A.functions.size) (inst : N)
    (currFunId : Fin A.functions.size) (acc : A.State × FactMap D) : A.State × FactMap D :=
  let (S, collected) := acc
  let sum := S.summaries calleeId
  let collected := sum.endSummary.entries.foldl (fun collected entry =>
      let retFacts := (A.localProblem currSCC).returnFlow inst entry.1
      let retSrcFacts := A.getAllSrcFactsFor currSCC facts sum entry.2 inst
      if retSrcFacts = ∅ then collected
      else retFacts.foldl (fun collected retFact => collected.insertAllOf retFact retSrcFacts) collected)
    collected
  if calleeId = currFunId then (S, collected)
  else
    (sum.leakIf.entries.foldl (fun S leak => reportOrPropagateLeak S currFunId leak.1.1 leak.1.2
      (A.getAllSrcFactsFor currSCC facts sum leak.2 inst)) S, collected)

/-- A callee in `analyzeCallInst`; the flag is `CanCTR`. -/
def collectSummary (facts : FactMap D) (currFunId : Fin A.functions.size) (inst : N)
    (acc : A.State × FactMap D × Bool) (calleeFun : F) : Except Abort (A.State × FactMap D × Bool) := do
  let (S, collected, canCTR) := acc
  let (applied, collected) := (A.localProblem currSCC).summaryFlow facts collected inst calleeFun
  if applied then return (S, collected, canCTR)
  let calleeId ← A.get calleeFun
  let (S, collected) := A.applySummary currSCC facts calleeId inst currFunId (S, collected)
  return (S, collected, canCTR && !(A.icf.getStartPointsOf calleeFun).isEmpty)

/-- `analyzeCallInst`. -/
def analyzeCallInst (S : A.State) (localState : DataFlowEnvironment D) (currFunId : Fin A.functions.size)
    (inst : N) : Except Abort (A.State × DataFlowEnvironment D) := do
  let callees := A.icf.getCalleesOfCallAt inst
  let (S, facts, mayRecurse) ← callees.foldlM (A.handleCallee currSCC currFunId inst)
    (S, localState.facts, false)
  let localState := { localState with facts }
  let S := if mayRecurse then { S with inRecursion := true }.setPathEdge inst localState else S
  let (S, collected, canCTR) ← callees.foldlM (A.collectSummary currSCC facts currFunId inst)
    (S, .empty, !callees.isEmpty)
  let facts := if canCTR then (A.localProblem currSCC).callToRetFlow facts inst else facts
  return (S, { localState with facts }.mergeStates { facts := collected })

/-- An entry in `analyzeExitInst`; the flag is `Changed`. -/
def addToSummary (inst : N) (inRecursion : Bool) (acc : FactMap D × Bool) (entry : D × SourceFactSet) :
    FactMap D × Bool :=
  if !A.problem.shouldBeInSummary entry.1 inst then acc
  else
    let merged := DataFlowEnvironment.tryMergeEntry acc entry
    (merged.1, inRecursion && merged.2)

/-- `analyzeExitInst`. The source facts that it moves out of the environment are not read again. -/
def analyzeExitInst (S : A.State) (localState : DataFlowEnvironment D) (currFunId : Fin A.functions.size)
    (inst : N) : A.State :=
  let sum := S.summaries currFunId
  let added := localState.facts.entries.foldl (A.addToSummary inst S.inRecursion) (sum.endSummary, false)
  let S := S.setSummary currFunId { sum with endSummary := added.1 }
  if added.2 then { S with hasNewSummary := S.hasNewSummary.insert currFunId } else S

/-- `handleSourceSinkConfig`. -/
def handleSourceSinkConfig (S : A.State) (localState : DataFlowEnvironment D) (currFunId : Fin A.functions.size)
    (inst : N) : A.State × DataFlowEnvironment D :=
  (((A.localProblem currSCC).requestResultCallback inst).foldl
      (A.requestLeak localState.facts currFunId inst) S,
    { localState with
      facts := ((A.localProblem currSCC).generateFacts inst).foldl (·.insert · 0) localState.facts })

/-- `analyzeInstruction`. -/
def analyzeInstruction (S : A.State) (localState : DataFlowEnvironment D) (currFunId : Fin A.functions.size)
    (inst : N) : Except Abort (A.State × DataFlowEnvironment D) :=
  if A.icf.isCallSite inst then A.analyzeCallInst currSCC S localState currFunId inst
  else
    let (S, localState) := A.handleSourceSinkConfig currSCC S localState currFunId inst
    if A.icf.isExitInst inst then .ok (A.analyzeExitInst S localState currFunId inst, localState)
    else .ok (S, { localState with facts := (A.localProblem currSCC).normalFlow localState.facts inst })

/-! ### Blocks -/

/-- The next instruction of the block. -/
def nextInBlock (curr : N) : Option N :=
  match A.blocks with
  | some blocks => blocks.getUniqueSuccessor curr
  | none =>
    match A.icf.getSuccsOf curr with
    | [succ] => some succ
    | _ => none

/-- The inner loop of `analyzeBlockImpl`: the instructions up to the last one of a block. -/
def analyzeInstructions (currFunId : Fin A.functions.size) : ℕ → A.State → DataFlowEnvironment D → N →
    Except Abort (A.State × DataFlowEnvironment D × N)
  | 0, _, _, _ => .error .outOfFuel
  | fuel + 1, S, localState, curr => do
    let (S, localState) ← A.analyzeInstruction currSCC S localState currFunId curr
    match A.nextInBlock curr with
    | some next => analyzeInstructions currFunId fuel S localState next
    | none => return (S, localState, curr)

/-- A successor of the block; what is passed on is the successor with which the block is continued. -/
def propagateToSucc (topo : Bool) (localState : DataFlowEnvironment D)
    (acc : A.State × Drivers N × Option N) (succ : N) : Except Abort (A.State × Drivers N × Option N) := do
  let (S, drivers, uniqueSucc) := acc
  let hasSinglePred := match A.blocks with
    | some blocks => blocks.hasUniquePredecessor succ
    | none => false
  let inserted := (S.pathEdges succ).isNone
  let succState := (S.pathEdges succ).getD localState
  if hasSinglePred then
    if inserted || !succState.eq localState then
      let S := S.setPathEdge succ localState.incVersion
      match uniqueSucc with
      | none => return (S, drivers, some succ)
      | some _ => return (S, ← drivers.push topo succ, uniqueSucc)
    else return (S, drivers, uniqueSucc)
  else
    let (merged, changed) := if inserted then (localState, true) else succState.tryMergeStates localState
    if changed then
      return (S.setPathEdge succ merged.incVersion, ← drivers.push topo succ, uniqueSucc)
    else return (S.setPathEdge succ merged, drivers, uniqueSucc)

/-- Push the call sites that wait for a function; with versioning they get a new version. -/
def rescheduleCallSites (topo : Bool) (fn : F) (acc : A.State × Drivers N) :
    Except Abort (A.State × Drivers N) :=
  (acc.1.incoming fn).foldlM (fun acc cs => do
    let (S, drivers) := acc
    if (A.functions.getOrNull (A.icf.getFunctionOf cs)).isNone then return (S, drivers)
    let drivers ← drivers.push topo cs
    let S := if config.enableEnvVersioning then S.setPathEdge cs (S.pathEdge cs).incVersion else S
    return (S, drivers)) acc

/-- `rescheduleCallsAtExit`, if the summary is new and returns are propagated eagerly. -/
def eagerReturn (topo : Bool) (currFunId : Fin A.functions.size) (last : N) (acc : A.State × Drivers N) :
    Except Abort (A.State × Drivers N) :=
  let (S, drivers) := acc
  if (A.icf.getSuccsOf last).isEmpty && config.eagerReturnPropagation && A.icf.isExitInst last then
    if currFunId ∈ S.hasNewSummary then
      A.rescheduleCallSites config topo (A.functions.fn currFunId)
        ({ S with hasNewSummary := S.hasNewSummary.erase currFunId }, drivers)
    else .ok (S, drivers)
  else .ok (S, drivers)

/-- `analyzeBlockImpl`. -/
def analyzeBlockImpl (topo : Bool) (currFunId : Fin A.functions.size) : ℕ → A.State × Drivers N →
    DataFlowEnvironment D → N → Except Abort (A.State × Drivers N)
  | 0, _, _, _ => .error .outOfFuel
  | fuel + 1, (S, drivers), localState, curr => do
    let (S, localState, last) ← A.analyzeInstructions currSCC currFunId fuel S localState curr
    let (S, drivers, uniqueSucc) ← (A.icf.getSuccsOf last).foldlM (A.propagateToSucc topo localState)
      (S, drivers, none)
    let acc ← A.eagerReturn config topo currFunId last (S, drivers)
    match uniqueSucc with
    | some succ => analyzeBlockImpl topo currFunId fuel acc localState succ
    | none => return acc

/-- `analyzeBlock`: with versioning, a block is analysed once with each version. -/
def analyzeBlock (topo : Bool) (fuel : ℕ) (blockStart : N) (acc : A.State × Drivers N) :
    Except Abort (A.State × Drivers N) := do
  let (S, drivers) := acc
  let localState := S.pathEdge blockStart
  if config.enableEnvVersioning && localState.version ≤ localState.analyzedVersion then
    return (S.setPathEdge blockStart localState, drivers)
  let localState := { localState with analyzedVersion := localState.version }
  let currFunId ← A.get (A.icf.getFunctionOf blockStart)
  A.analyzeBlockImpl config currSCC topo currFunId fuel (S.setPathEdge blockStart localState, drivers) localState
    blockStart

/-! ### Components -/

/-- `submitInitialSeeds`. -/
def submitInitialSeeds (topo : Bool) (acc : A.State × Drivers N) (funId : Fin A.functions.size) :
    Except Abort (A.State × Drivers N) :=
  let zero := (A.localProblem currSCC).getZeroValue
  let fn := A.functions.fn funId
  let sum := acc.1.summaries funId
  let S := acc.1.setSummary funId { sum with sourceFactIds := (sum.sourceFactIds.insert zero).2.2 }
  (A.icf.getStartPointsOf fn).foldlM (fun acc sp => do
    let (S, drivers) := acc
    let env := S.pathEdge sp
    let sum := S.summaries funId
    let (facts, sourceFactIds) :=
      (A.localProblem currSCC).initialSeeds (env.facts.insert zero 0) sum.sourceFactIds fn
    let S := (S.setPathEdge sp { env with facts }).setSummary funId { sum with sourceFactIds }
    return (S, ← drivers.push topo sp)) (S, acc.2)

/-- `rescheduleCalls`. -/
def rescheduleCalls (topo : Bool) (acc : A.State × Drivers N) : Except Abort (A.State × Drivers N) := do
  if !acc.1.inRecursion then return acc
  let (S, drivers) ← acc.1.hasNewSummary.foldlM (fun acc funId =>
    A.rescheduleCallSites config topo (A.functions.fn funId)
      ({ acc.1 with hasNewLeaks := acc.1.hasNewLeaks.erase funId }, acc.2)) acc
  return ({ S with hasNewSummary := [] }, drivers)

/-- The loop of `RepropagateInRecursion`. -/
def repropagate (topo : Bool) : ℕ → A.State × Drivers N → Except Abort (A.State × Drivers N)
  | 0, _ => .error .outOfFuel
  | fuel + 1, acc =>
    if acc.2.empty topo then .ok acc
    else do
      let acc ← Drivers.run topo (A.analyzeBlock config currSCC topo fuel) fuel acc
      repropagate topo fuel (← A.rescheduleCalls config topo acc)

/-- `RepropagateInRecursion`, unless returns are propagated eagerly. A hybrid strategy always takes the default
driver for it. -/
def repropagateInRecursion (fuel : ℕ) (acc : A.State × Drivers N) : Except Abort (A.State × Drivers N) :=
  if config.eagerReturnPropagation then .ok acc
  else do
    let topo : Bool := config.iterStrategy = .topoPrioQueue
    A.repropagate config currSCC topo fuel (← A.rescheduleCalls config topo acc)

/-- `handleLeaksForFun`. -/
def handleLeaksForFun (S : A.State) (currFun : Fin A.functions.size) : A.State :=
  (A.icf.getCallersOf (A.functions.fn currFun)).foldl (fun S cs =>
    match A.functions.getOrNull (A.icf.getFunctionOf cs) with
    | none => S
    | some callerId =>
      if A.sccs.sccOfNode callerId = currSCC then
        let sum := S.summaries currFun
        let facts := (S.pathEdge cs).facts
        sum.leakIf.entries.foldl (fun S leak => reportOrPropagateLeak S callerId leak.1.1 leak.1.2
          (A.getAllSrcFactsFor currSCC facts sum leak.2 cs)) S
      else S) S

/-- `repropagateLeaks`. -/
def repropagateLeaks : ℕ → A.State → Except Abort A.State
  | 0, _ => .error .outOfFuel
  | fuel + 1, S =>
    if S.hasNewLeaks.isEmpty then .ok S
    else repropagateLeaks fuel
      (S.hasNewLeaks.foldl (A.handleLeaksForFun currSCC) { S with hasNewLeaks := [] })

/-- `UseTopoFixpointDriver`. -/
def useTopoFixpointDriver (sccSize : ℕ) : Bool :=
  match config.iterStrategy with
  | .dedupFIFOQueue => false
  | .hybrid => sccSize = 1
  | .topoPrioQueue => true

/-- `computeFixpointForSCC`. The order `CFO` that it computes is not used: both drivers are default-constructed,
and so the topological one has no items. -/
def computeFixpointForSCC (fuel : ℕ) (solver : MonoIFDSSolver A.functions.size N D)
    (currFuns : List (Fin A.functions.size)) : Except Abort (MonoIFDSSolver A.functions.size N D) := do
  let iState : A.State := { solver with inRecursion := 1 < currFuns.length }
  let topo := useTopoFixpointDriver config currFuns.length
  let acc ← currFuns.reverse.foldlM (A.submitInitialSeeds currSCC topo) (iState, {})
  let acc ← Drivers.run topo (A.analyzeBlock config currSCC topo fuel) fuel acc
  let acc ← A.repropagateInRecursion config currSCC fuel acc
  return (← A.repropagateLeaks currSCC fuel acc.1).toMonoIFDSSolver

/-- The components from the index `scc` on. -/
def solveFrom (fuel : ℕ) : ℕ → List (List (Fin A.functions.size)) → MonoIFDSSolver A.functions.size N D →
    Except Abort (MonoIFDSSolver A.functions.size N D)
  | _, [], solver => .ok solver
  | scc, currFuns :: rest, solver => do
    solveFrom fuel (scc + 1) rest (← A.computeFixpointForSCC config scc fuel solver currFuns)

/-- `solve`. -/
def solve (fuel : ℕ) : Except Abort (MonoIFDSSolver A.functions.size N D) :=
  A.solveFrom config fuel 0 A.sccs.nodesInSCC {}

end Setup

end Phasar.MonoIfds
