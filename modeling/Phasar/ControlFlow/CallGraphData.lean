import Phasar.Lib.Json
import Mathlib.Data.List.Count
import Mathlib.Data.List.Nodup
import Mathlib.Data.List.Perm.Basic
import Mathlib.Data.Option.Basic
import Mathlib.Logic.Function.Basic

/-!
# Serialised call graphs

A call graph keeps the callers of each function and the callees of each call site. Only the callers are
written, by names and ids; the callees are rebuilt edge by edge. A graph without functions is written as null,
which is no object, and a call site whose id does not resolve becomes a vertex.

* `CallGraph`, `CallGraphBuilder`; `Builds`: what a builder builds, `Mirrored`;
* `printAsJson`, `getDataFromJson`, `deserialize`;
* `roundTrips_iff`: when the resolvable part of a call graph is restored.
-/

namespace Phasar.SerializedCallGraph

/-- The functions and call sites that are vertices, with the lists they are mapped to. -/
structure CallGraph (N F : Type*) where
  functions : List F
  callersOf : F → List N
  callSites : List N
  calleesAt : N → List F

/-- A call graph, and the number of functions that memory is reserved for. -/
structure CallGraphBuilder (N F : Type*) where
  maxNumFunctions : ℕ
  CG : CallGraph N F

section Builder

variable {N F : Type*} [DecidableEq N] [DecidableEq F]

def CallGraph.empty : CallGraph N F := ⟨[], fun _ => [], [], fun _ => []⟩

namespace CallGraphBuilder

def reserve (MaxNumFunctions : ℕ) : CallGraphBuilder N F := ⟨MaxNumFunctions, CallGraph.empty⟩

/-- `none`: the assertion fails, and the vertices would move. -/
def addFunctionVertex (b : CallGraphBuilder N F) (Fun : F) : Option (CallGraphBuilder N F) :=
  if Fun ∈ b.CG.functions then some b
  else if b.CG.functions.length < b.maxNumFunctions then
    some ⟨b.maxNumFunctions, { b.CG with
      functions := b.CG.functions ++ [Fun], callersOf := Function.update b.CG.callersOf Fun [] }⟩
  else none

def addInstructionVertex (b : CallGraphBuilder N F) (Inst : N) : CallGraphBuilder N F :=
  if Inst ∈ b.CG.callSites then b
  else ⟨b.maxNumFunctions, { b.CG with
    callSites := b.CG.callSites ++ [Inst], calleesAt := Function.update b.CG.calleesAt Inst [] }⟩

/-- `addCallEdge` of two vertices. -/
def pushCallEdge (b : CallGraphBuilder N F) (CS : N) (Callee : F) : CallGraphBuilder N F :=
  ⟨b.maxNumFunctions, { b.CG with
    calleesAt := Function.update b.CG.calleesAt CS (b.CG.calleesAt CS ++ [Callee])
    callersOf := Function.update b.CG.callersOf Callee (b.CG.callersOf Callee ++ [CS]) }⟩

def addCallEdge (b : CallGraphBuilder N F) (CS : N) (Callee : F) : Option (CallGraphBuilder N F) :=
  ((b.addInstructionVertex CS).addFunctionVertex Callee).map fun b => b.pushCallEdge CS Callee

end CallGraphBuilder

/-- The builders after any calls. -/
inductive Builds : CallGraphBuilder N F → Prop
  | reserve (MaxNumFunctions : ℕ) : Builds (.reserve MaxNumFunctions)
  | addFunctionVertex {b b' : CallGraphBuilder N F} (Fun : F) :
    Builds b → b.addFunctionVertex Fun = some b' → Builds b'
  | addCallEdge {b b' : CallGraphBuilder N F} (CS : N) (Callee : F) :
    Builds b → b.addCallEdge CS Callee = some b' → Builds b'

/-- Callers and callees are the two sides of the same edges; the vertices are listed once. -/
structure Mirrored (G : CallGraph N F) : Prop where
  count_eq : ∀ n f, (G.calleesAt n).count f = (G.callersOf f).count n
  nodup_functions : G.functions.Nodup
  nodup_callSites : G.callSites.Nodup
  callersOf_eq_nil : ∀ f, f ∉ G.functions → G.callersOf f = []
  mem_callSites : ∀ n, n ∈ G.callSites ↔ G.calleesAt n ≠ []

end Builder

/-! ### The data -/

/-- The functions of a call graph by name and its call sites by id, and what names and ids resolve to when the
graph is loaded: to the function or instruction they stand for, or to nothing. -/
structure Identifiers (N F : Type*) where
  getFunctionId : F → String
  getInstructionId : N → UInt32
  getFunctionFromName : String → Option F
  getInstructionFromId : UInt32 → Option N
  functionId_injective : Function.Injective getFunctionId
  instructionId_injective : Function.Injective getInstructionId
  getFunctionFromName_eq : ∀ {f g}, getFunctionFromName (getFunctionId f) = some g → g = f
  getInstructionFromId_eq : ∀ {m n}, getInstructionFromId (getInstructionId m) = some n → n = m

/-- `FToFunctionVertexTy`, in the order of an iteration. -/
abbrev CallGraphData := List (String × List UInt32)

/-- The entry of a name, with ids pushed to it. -/
def pushIds (Fun : String) (Ids : List UInt32) : CallGraphData → CallGraphData
  | [] => [(Fun, Ids)]
  | (Name, Callers) :: Data =>
    if Name = Fun then (Name, Callers ++ Ids) :: Data else (Name, Callers) :: pushIds Fun Ids Data

section Data

variable {N F : Type*} (I : Identifiers N F)

/-- The loop of `CallGraph::printAsJson`. -/
def toData (G : CallGraph N F) : CallGraphData :=
  G.functions.foldl (fun CGData Fun =>
    pushIds (I.getFunctionId Fun) ((G.callersOf Fun).map I.getInstructionId) CGData) []

/-- `CallGraphData::printAsJson`: a value is null until something is stored in it. -/
def printAsJson (data : CallGraphData) : Json :=
  if data.isEmpty then .null
  else .object (data.map fun (Fun, Callers) => (Fun, .ofElems (Callers.map fun CS => .number CS.toNat)))

/-- `none`: the exception of a value that is not an object, or of an id that is not a number. -/
def getDataFromJson : Json → Option CallGraphData
  | .object fields => fields.mapM fun (FVal, FunctionVertexTyVals) =>
    match FunctionVertexTyVals with
    | .array elems => (elems.mapM Json.getUInt32?).map fun Ids => (FVal, Ids.map UInt32.ofNat)
    | _ => some (FVal, [])
  | _ => none

variable [DecidableEq N] [DecidableEq F]

/-- The loop over the ids of the callers of `Fun`; a null instruction is `none`. -/
def addCallers (Fun : F) (b : CallGraphBuilder (Option N) F) :
    List UInt32 → Option (CallGraphBuilder (Option N) F)
  | [] => some b
  | JId :: CallerIDs =>
    -- with the null instruction, too
    (b.addCallEdge (I.getInstructionFromId JId) Fun).bind fun b => addCallers Fun b CallerIDs

/-- The loop of `deserialize`. -/
def addFunctions (b : CallGraphBuilder (Option N) F) : CallGraphData → Option (CallGraphBuilder (Option N) F)
  | [] => some b
  | (FunName, CallerIDs) :: PrecomputedCG =>
    match I.getFunctionFromName FunName with
    | none => addFunctions b PrecomputedCG
    | some Fun => (b.addFunctionVertex Fun).bind fun b =>
      (addCallers I Fun b CallerIDs).bind fun b => addFunctions b PrecomputedCG

def deserialize (PrecomputedCG : CallGraphData) : Option (CallGraph (Option N) F) :=
  (addFunctions I (.reserve PrecomputedCG.length) PrecomputedCG).map CallGraphBuilder.CG

/-- The function is found again. -/
def ResolvesFunction (f : F) : Prop := I.getFunctionFromName (I.getFunctionId f) = some f

def ResolvesInstruction (n : N) : Prop := I.getInstructionFromId (I.getInstructionId n) = some n

instance : DecidablePred (ResolvesFunction I) := fun _ => inferInstanceAs (Decidable (_ = _))

instance : DecidablePred (ResolvesInstruction I) := fun _ => inferInstanceAs (Decidable (_ = _))

/-- `G'` is the part of `G` that is found again; a call site without callees is no vertex. -/
structure Restores (G : CallGraph N F) (G' : CallGraph (Option N) F) : Prop where
  mem_functions : ∀ f, f ∈ G'.functions ↔ f ∈ G.functions ∧ ResolvesFunction I f
  callersOf : ∀ f ∈ G'.functions,
    G'.callersOf f = ((G.callersOf f).filter fun n => ResolvesInstruction I n).map some
  calleesAt : ∀ n, ResolvesInstruction I n →
    (G'.calleesAt (some n)).Perm ((G.calleesAt n).filter fun f => ResolvesFunction I f)
  mem_callSites : ∀ n, n ∈ G'.callSites ↔
    ∃ m, n = some m ∧ ResolvesInstruction I m ∧ ∃ f ∈ G.calleesAt m, ResolvesFunction I f
  mirrored : Mirrored G'

/-- Loading restores the graph, in whatever order the entries are met. -/
def RoundTrips (G : CallGraph N F) : Prop := ∃ data, getDataFromJson (printAsJson (toData I G)) = some data ∧
  ∀ data' : CallGraphData, data'.Perm data → ∃ G', deserialize I data' = some G' ∧ Restores I G G'

end Data

/-! ### Building -/

section Building

variable {N F : Type*} [DecidableEq N] [DecidableEq F]

/-- A vertex is listed once. -/
def insertNew {α : Type*} [DecidableEq α] (l : List α) (x : α) : List α := if x ∈ l then l else l ++ [x]

theorem mem_insertNew {α : Type*} [DecidableEq α] {l : List α} {x y : α} : y ∈ insertNew l x ↔ y ∈ l ∨ y = x := by
  rw [insertNew]
  split_ifs with hx
  · exact (or_iff_left_of_imp fun h => h ▸ hx).symm
  · simp

theorem nodup_insertNew {α : Type*} [DecidableEq α] {l : List α} (hl : l.Nodup) (x : α) : (insertNew l x).Nodup := by
  rw [insertNew]
  split_ifs with hx
  · exact hl
  · refine List.nodup_append.2 ⟨hl, List.nodup_singleton x, fun y hy z hz hyz => hx ?_⟩
    rwa [← List.mem_singleton.1 hz, ← hyz]

variable {b b' : CallGraphBuilder N F}

omit [DecidableEq N] in
theorem addFunctionVertex_eq (Fun : F) (hnil : ∀ f, f ∉ b.CG.functions → b.CG.callersOf f = []) :
    b.addFunctionVertex Fun =
      if Fun ∈ b.CG.functions ∨ b.CG.functions.length < b.maxNumFunctions then
        some ⟨b.maxNumFunctions, { b.CG with functions := insertNew b.CG.functions Fun }⟩
      else none := by
  rw [CallGraphBuilder.addFunctionVertex, insertNew]
  by_cases hmem : Fun ∈ b.CG.functions
  · rw [if_pos hmem, if_pos (.inl hmem), if_pos hmem]
  · have hupdate : Function.update b.CG.callersOf Fun [] = b.CG.callersOf := by
      rw [← hnil Fun hmem, Function.update_eq_self]
    simp only [hmem, if_false, false_or, hupdate]

theorem addInstructionVertex_eq {CS : N} (hb : Mirrored b.CG) : b.addInstructionVertex CS =
    ⟨b.maxNumFunctions, { b.CG with callSites := insertNew b.CG.callSites CS }⟩ := by
  rw [CallGraphBuilder.addInstructionVertex, insertNew]
  split_ifs with hmem
  · rfl
  · have hnil : b.CG.calleesAt CS = [] := by
      rw [hb.mem_callSites, not_not] at hmem
      exact hmem
    rw [← hnil, Function.update_eq_self]

/-- The graph with an edge more. -/
def withEdge (G : CallGraph N F) (CS : N) (Callee : F) : CallGraph N F where
  functions := insertNew G.functions Callee
  callersOf := Function.update G.callersOf Callee (G.callersOf Callee ++ [CS])
  callSites := insertNew G.callSites CS
  calleesAt := Function.update G.calleesAt CS (G.calleesAt CS ++ [Callee])

theorem withEdge_callersOf (G : CallGraph N F) (CS : N) (Callee : F) : (withEdge G CS Callee).callersOf =
    Function.update G.callersOf Callee (G.callersOf Callee ++ [CS]) := rfl

theorem addCallEdge_eq {CS : N} {Callee : F} (hb : Mirrored b.CG) : b.addCallEdge CS Callee =
    if Callee ∈ b.CG.functions ∨ b.CG.functions.length < b.maxNumFunctions then
      some ⟨b.maxNumFunctions, withEdge b.CG CS Callee⟩
    else none := by
  have hadd := addFunctionVertex_eq
    (b := ⟨b.maxNumFunctions, { b.CG with callSites := insertNew b.CG.callSites CS }⟩) Callee hb.callersOf_eq_nil
  rw [CallGraphBuilder.addCallEdge, addInstructionVertex_eq hb, hadd]
  split_ifs <;> rfl

theorem mirrored_empty : Mirrored (CallGraph.empty : CallGraph N F) where
  count_eq _ _ := rfl
  nodup_functions := List.nodup_nil
  nodup_callSites := List.nodup_nil
  callersOf_eq_nil _ _ := rfl
  mem_callSites _ := iff_of_false List.not_mem_nil fun h => h rfl

theorem Mirrored.addFunction {G : CallGraph N F} (hG : Mirrored G) (Fun : F) :
    Mirrored { G with functions := insertNew G.functions Fun } where
  count_eq := hG.count_eq
  nodup_functions := nodup_insertNew hG.nodup_functions Fun
  nodup_callSites := hG.nodup_callSites
  callersOf_eq_nil f hf := hG.callersOf_eq_nil f fun h => hf (mem_insertNew.2 (.inl h))
  mem_callSites := hG.mem_callSites

theorem Mirrored.withEdge {G : CallGraph N F} (hG : Mirrored G) (CS : N) (Callee : F) :
    Mirrored (withEdge G CS Callee) where
  count_eq n f := by
    have hcount := hG.count_eq n f
    by_cases hn : n = CS <;> by_cases hf : f = Callee
    · subst hn hf
      simp [SerializedCallGraph.withEdge, hcount]
    · subst hn
      simp [SerializedCallGraph.withEdge, hcount, hf, Ne.symm hf]
    · subst hf
      simp [SerializedCallGraph.withEdge, hcount, hn, Ne.symm hn]
    · simp [SerializedCallGraph.withEdge, hcount, hn, hf]
  nodup_functions := nodup_insertNew hG.nodup_functions Callee
  nodup_callSites := nodup_insertNew hG.nodup_callSites CS
  callersOf_eq_nil f hf := by
    rw [SerializedCallGraph.withEdge, mem_insertNew, not_or] at hf
    exact (Function.update_of_ne hf.2 _ _).trans (hG.callersOf_eq_nil f hf.1)
  mem_callSites n := by
    rw [SerializedCallGraph.withEdge, mem_insertNew, hG.mem_callSites]
    by_cases hn : n = CS
    · subst hn
      simp
    · simp [hn]

theorem mirrored_of_builds (hb : Builds b) : Mirrored b.CG := by
  induction hb with
  | reserve => exact mirrored_empty
  | addFunctionVertex Fun _ heq ih =>
    rw [addFunctionVertex_eq Fun ih.callersOf_eq_nil] at heq
    split_ifs at heq
    cases heq
    exact ih.addFunction Fun
  | addCallEdge CS Callee _ heq ih =>
    rw [addCallEdge_eq ih] at heq
    split_ifs at heq
    cases heq
    exact ih.withEdge CS Callee

end Building

/-! ### Loading -/

section Loading

variable {N F : Type*} {I : Identifiers N F} {G : CallGraph N F}

/-- The entry of a function. -/
def entry (I : Identifiers N F) (G : CallGraph N F) (f : F) : String × List UInt32 :=
  (I.getFunctionId f, (G.callersOf f).map I.getInstructionId)

theorem pushIds_of_notMem {Fun : String} {Ids : List UInt32} {data : CallGraphData}
    (h : Fun ∉ data.map Prod.fst) : pushIds Fun Ids data = data ++ [(Fun, Ids)] := by
  induction data with
  | nil => rfl
  | cons e data ih =>
    rw [List.map_cons, List.mem_cons, not_or] at h
    rw [pushIds, if_neg (Ne.symm h.1), ih h.2]
    rfl

theorem foldl_pushIds (l : List F) (data : CallGraphData) (hl : l.Nodup)
    (hdata : ∀ f ∈ l, I.getFunctionId f ∉ data.map Prod.fst) :
    l.foldl (fun CGData Fun =>
      pushIds (I.getFunctionId Fun) ((G.callersOf Fun).map I.getInstructionId) CGData) data =
        data ++ l.map (entry I G) := by
  induction l generalizing data with
  | nil => simp
  | cons f l ih =>
    rw [List.nodup_cons] at hl
    rw [List.foldl_cons, pushIds_of_notMem (hdata f (.head _)), ih _ hl.2, List.append_assoc]
    · rfl
    · intro g hg hmem
      rw [List.map_append, List.mem_append] at hmem
      rcases hmem with hmem | hmem
      · exact hdata g (.tail _ hg) hmem
      · exact hl.1 (I.functionId_injective (List.mem_singleton.1 hmem) ▸ hg)

/-- Each function has an entry of its own. -/
theorem toData_eq (hG : G.functions.Nodup) : toData I G = G.functions.map (entry I G) :=
  foldl_pushIds G.functions [] hG fun _ _ => List.not_mem_nil

theorem getDataFromJson_printAsJson (data : CallGraphData) :
    getDataFromJson (printAsJson data) = if data.isEmpty then none else some data := by
  rw [printAsJson]
  split_ifs with hempty
  · rfl
  · rw [getDataFromJson, Json.mapM_map_eq_some_iff]
    rintro ⟨Fun, Callers⟩ -
    cases Callers with
    | nil => rfl
    | cons CS Callers =>
      have hids : ((CS :: Callers).map fun CS => Json.number CS.toNat).mapM Json.getUInt32? =
          some ((CS :: Callers).map UInt32.toNat) := by
        rw [List.mapM_map]
        refine Json.mapM_eq_some_map fun x _ => ?_
        exact congrArg some (Nat.mod_eq_of_lt x.toNat_lt)
      have hread : ((CS :: Callers).map UInt32.toNat).map UInt32.ofNat = CS :: Callers := by
        rw [List.map_map]
        exact (List.map_congr_left fun x _ => UInt32.ofNat_toNat).trans (List.map_id _)
      refine (congrArg (Option.map _) hids).trans ?_
      rw [Option.map_some, hread]

variable [DecidableEq N] [DecidableEq F] {b : CallGraphBuilder (Option N) F}

/-- The callers of a vertex are appended to its list. -/
theorem addCallers_spec (Fun : F) (CallerIDs : List UInt32) (hb : Mirrored b.CG)
    (hFun : Fun ∈ b.CG.functions) : ∃ b', addCallers I Fun b CallerIDs = some b' ∧ Mirrored b'.CG ∧
      b'.maxNumFunctions = b.maxNumFunctions ∧ b'.CG.functions = b.CG.functions ∧
      b'.CG.callersOf = Function.update b.CG.callersOf Fun
        (b.CG.callersOf Fun ++ CallerIDs.map I.getInstructionFromId) := by
  induction CallerIDs generalizing b with
  | nil =>
    refine ⟨b, rfl, hb, rfl, rfl, ?_⟩
    rw [List.map_nil, List.append_nil, Function.update_eq_self]
  | cons JId CallerIDs ih =>
    have hfunctions : insertNew b.CG.functions Fun = b.CG.functions := if_pos hFun
    have hedge := hb.withEdge (I.getInstructionFromId JId) Fun
    obtain ⟨b', hrun, hb', hmax, hfun, hcallers⟩ := ih
      (b := ⟨b.maxNumFunctions, withEdge b.CG (I.getInstructionFromId JId) Fun⟩) hedge
      (by rw [withEdge, hfunctions]; exact hFun)
    refine ⟨b', ?_, hb', hmax, hfun.trans hfunctions, ?_⟩
    · rw [addCallers, addCallEdge_eq hb, if_pos (.inl hFun)]
      exact hrun
    · simp only [hcallers, withEdge_callersOf, Function.update_idem, Function.update_self, List.append_assoc]
      rfl

/-- The entries of functions that are no vertices yet. -/
theorem addFunctions_spec (l : List F) (hl : l.Nodup) (hb : Mirrored b.CG) (hnew : ∀ f ∈ l, f ∉ b.CG.functions)
    (hmax : b.CG.functions.length + l.length ≤ b.maxNumFunctions) :
    ∃ b', addFunctions I b (l.map (entry I G)) = some b' ∧ Mirrored b'.CG ∧
      (∀ f, f ∈ b'.CG.functions ↔ f ∈ b.CG.functions ∨ f ∈ l ∧ ResolvesFunction I f) ∧
      ∀ f, b'.CG.callersOf f = if f ∈ l ∧ ResolvesFunction I f then
        (G.callersOf f).map fun n => I.getInstructionFromId (I.getInstructionId n) else b.CG.callersOf f := by
  induction l generalizing b with
  | nil => exact ⟨b, rfl, hb, by simp, by simp⟩
  | cons g l ih =>
    rw [List.nodup_cons] at hl
    rw [List.length_cons] at hmax
    rw [List.map_cons, entry, addFunctions]
    cases hget : I.getFunctionFromName (I.getFunctionId g) with
    | none =>
      -- a name without a function is passed over
      have hres : ¬ResolvesFunction I g := fun h => by
        rw [ResolvesFunction, hget] at h
        cases h
      obtain ⟨b', hrun, hb', hmem, hcallers⟩ := ih hl.2 hb (fun f hf => hnew f (.tail _ hf)) (by omega)
      refine ⟨b', hrun, hb', fun f => ?_, fun f => ?_⟩
      · rw [hmem, List.mem_cons]
        grind
      · rw [hcallers]
        grind
    | some g' =>
      obtain rfl := I.getFunctionFromName_eq hget
      have hres : ResolvesFunction I g' := hget
      have hg := hnew g' (.head _)
      -- the function is new, so the reserved capacity holds it
      have hinsert : insertNew b.CG.functions g' = b.CG.functions ++ [g'] := if_neg hg
      obtain ⟨b', hrun, hb', hmax', hfun, hcallers⟩ := addCallers_spec (I := I)
        (b := ⟨b.maxNumFunctions, { b.CG with functions := insertNew b.CG.functions g' }⟩) g'
        ((G.callersOf g').map I.getInstructionId) (hb.addFunction g') (mem_insertNew.2 (.inr rfl))
      simp only [hinsert] at hmax' hfun hcallers
      rw [hb.callersOf_eq_nil g' hg, List.nil_append, List.map_map] at hcallers
      obtain ⟨b'', hrun', hb'', hmem, hcallers'⟩ := ih (b := b') hl.2 hb' (fun f hf hmem => by
        rw [hfun, List.mem_append, List.mem_singleton] at hmem
        rcases hmem with hmem | rfl
        · exact hnew f (.tail _ hf) hmem
        · exact hl.1 hf) (by rw [hfun, hmax', List.length_append, List.length_singleton]; omega)
      refine ⟨b'', ?_, hb'', fun f => ?_, fun f => ?_⟩
      · simp only [addFunctionVertex_eq g' hb.callersOf_eq_nil]
        rw [if_pos (.inr (by omega)), Option.bind_some, hrun]
        exact hrun'
      · rw [hmem, hfun, List.mem_append, List.mem_singleton, List.mem_cons]
        grind
      · rw [hcallers', hcallers]
        by_cases hf : f = g'
        · subst hf
          rw [if_neg fun h => hl.1 h.1, if_pos ⟨.head _, hres⟩, Function.update_self]
          rfl
        · rw [Function.update_of_ne hf]
          grind

/-- What is loaded from the entries of a graph, in any order. -/
theorem deserialize_spec (hG : Mirrored G) {data : CallGraphData} (hdata : data.Perm (G.functions.map (entry I G))) :
    ∃ G', deserialize I data = some G' ∧ Mirrored G' ∧
      (∀ f, f ∈ G'.functions ↔ f ∈ G.functions ∧ ResolvesFunction I f) ∧
      ∀ f, G'.callersOf f = if f ∈ G.functions ∧ ResolvesFunction I f then
        (G.callersOf f).map fun n => I.getInstructionFromId (I.getInstructionId n) else [] := by
  obtain ⟨l, rfl, hl⟩ : Relation.Comp (· = List.map (entry I G) ·) List.Perm data G.functions := by
    rw [List.eq_map_comp_perm]
    exact hdata
  obtain ⟨b, hrun, hb, hmem, hcallers⟩ := addFunctions_spec (I := I) (G := G)
    (b := .reserve (l.map (entry I G)).length) l (hl.nodup_iff.2 hG.nodup_functions) mirrored_empty
    (fun _ _ => List.not_mem_nil) (by rw [List.length_map]; exact Nat.le_of_eq (Nat.zero_add _))
  refine ⟨b.CG, by rw [deserialize, hrun]; rfl, hb, fun f => ?_, fun f => ?_⟩
  · rw [hmem, hl.mem_iff]
    exact or_iff_right List.not_mem_nil
  · rw [hcallers]
    simp only [hl.mem_iff]
    rfl

omit [DecidableEq F] in
theorem filter_map_some {l : List N} (hl : ∀ n ∈ l, ResolvesInstruction I n) :
    (l.filter fun n => ResolvesInstruction I n).map some =
      l.map fun n => I.getInstructionFromId (I.getInstructionId n) := by
  rw [List.filter_eq_self.2 fun n hn => decide_eq_true (hl n hn)]
  exact List.map_congr_left fun n hn => (hl n hn).symm

section Count

variable {α β : Type*} [DecidableEq α] [DecidableEq β]

theorem count_map {g : α → β} (hg : Function.Injective g) (l : List α) (x : α) :
    (l.map g).count (g x) = l.count x :=
  List.count_map_of_injective l g hg x

theorem count_of_notMem {l : List α} {x : α} (h : x ∉ l) : l.count x = 0 := List.count_eq_zero.2 h

theorem count_filter (l : List α) (p : α → Prop) [DecidablePred p] (x : α) :
    (l.filter fun y => p y).count x = if p x then l.count x else 0 := by
  split_ifs with hx
  · exact List.count_filter (decide_eq_true hx)
  · exact count_of_notMem fun hmem => hx (of_decide_eq_true (List.mem_filter.1 hmem).2)

end Count

/-- The callees follow from the callers. -/
theorem count_calleesAt {G' : CallGraph (Option N) F} (hG : Mirrored G) (hG' : Mirrored G')
    (hfunctions : ∀ f, f ∈ G'.functions ↔ f ∈ G.functions ∧ ResolvesFunction I f)
    (hcallers : ∀ f ∈ G'.functions,
      G'.callersOf f = ((G.callersOf f).filter fun n => ResolvesInstruction I n).map some) (n : N) (f : F) :
    (G'.calleesAt (some n)).count f =
      if ResolvesInstruction I n ∧ ResolvesFunction I f then (G.calleesAt n).count f else 0 := by
  rw [hG'.count_eq, hG.count_eq]
  by_cases hf : f ∈ G'.functions
  · rw [hcallers f hf, count_map (Option.some_injective N), count_filter]
    simp only [((hfunctions f).1 hf).2, and_true]
  · rw [hG'.callersOf_eq_nil f hf, count_of_notMem List.not_mem_nil]
    split_ifs with h
    · have hnot : f ∉ G.functions := fun hmem => hf ((hfunctions f).2 ⟨hmem, h.2⟩)
      rw [hG.callersOf_eq_nil f hnot, List.count_nil]
    · rfl

/-- No null instruction calls a function. -/
theorem count_calleesAt_none {G' : CallGraph (Option N) F} (hG' : Mirrored G')
    (hcallers : ∀ f ∈ G'.functions,
      G'.callersOf f = ((G.callersOf f).filter fun n => ResolvesInstruction I n).map some) (f : F) :
    (G'.calleesAt none).count f = 0 := by
  rw [hG'.count_eq]
  refine count_of_notMem ?_
  by_cases hf : f ∈ G'.functions
  · rw [hcallers f hf]
    simp
  · rw [hG'.callersOf_eq_nil f hf]
    exact List.not_mem_nil

theorem restores_of_callers {G' : CallGraph (Option N) F} (hG : Mirrored G) (hG' : Mirrored G')
    (hfunctions : ∀ f, f ∈ G'.functions ↔ f ∈ G.functions ∧ ResolvesFunction I f)
    (hcallers : ∀ f ∈ G'.functions,
      G'.callersOf f = ((G.callersOf f).filter fun n => ResolvesInstruction I n).map some) : Restores I G G' where
  mem_functions := hfunctions
  callersOf := hcallers
  calleesAt n hn := by
    refine List.perm_iff_count.2 fun f => ?_
    rw [count_calleesAt hG hG' hfunctions hcallers, count_filter]
    simp only [hn, true_and]
  mem_callSites n := by
    have hcount : n ∈ G'.callSites ↔ ∃ f, 0 < (G'.calleesAt n).count f := by
      rw [hG'.mem_callSites]
      simp only [List.count_pos_iff]
      exact ⟨List.exists_mem_of_ne_nil _, fun ⟨_, hf⟩ => List.ne_nil_of_mem hf⟩
    rw [hcount]
    cases n with
    | none => simp [count_calleesAt_none hG' hcallers]
    | some n =>
      simp only [count_calleesAt hG hG' hfunctions hcallers, Option.some.injEq]
      constructor
      · rintro ⟨f, hf⟩
        split_ifs at hf with hres
        · exact ⟨n, rfl, hres.1, f, List.count_pos_iff.1 hf, hres.2⟩
        · exact absurd hf (Nat.lt_irrefl 0)
      · rintro ⟨_, rfl, hn, f, hf, hres⟩
        exact ⟨f, by rw [if_pos ⟨hn, hres⟩]; exact List.count_pos_iff.2 hf⟩
  mirrored := hG'

theorem RoundTrips.functions_ne_nil (h : RoundTrips I G) : G.functions ≠ [] := by
  intro hnil
  obtain ⟨data, hdata, -⟩ := h
  rw [toData, hnil] at hdata
  cases hdata

/-- An instruction that is not found again would become null. -/
theorem RoundTrips.resolvesInstruction (h : RoundTrips I G) (hG : Mirrored G) {f : F} (hf : f ∈ G.functions)
    (hres : ResolvesFunction I f) {n : N} (hn : n ∈ G.callersOf f) : ResolvesInstruction I n := by
  obtain ⟨data, hdata, hload⟩ := h
  rw [toData_eq hG.nodup_functions, getDataFromJson_printAsJson] at hdata
  split_ifs at hdata with hempty
  cases hdata
  obtain ⟨G', hG', hrestores⟩ := hload _ (.refl _)
  obtain ⟨G'', hG'', -, hmem, hcallers⟩ := deserialize_spec (I := I) hG (.refl _)
  obtain rfl : G' = G'' := Option.some.inj (hG'.symm.trans hG'')
  have heq := hrestores.callersOf f ((hmem f).2 ⟨hf, hres⟩)
  rw [hcallers, if_pos ⟨hf, hres⟩] at heq
  have hin : I.getInstructionFromId (I.getInstructionId n) ∈
      ((G.callersOf f).filter fun n => ResolvesInstruction I n).map some := heq ▸ List.mem_map_of_mem hn
  obtain ⟨m, -, hm⟩ := List.mem_map.1 hin
  exact hm.symm.trans (congrArg some (I.getInstructionFromId_eq hm.symm))

theorem roundTrips_of_resolves (hG : Mirrored G) (hne : G.functions ≠ [])
    (hres : ∀ f ∈ G.functions, ResolvesFunction I f → ∀ n ∈ G.callersOf f, ResolvesInstruction I n) :
    RoundTrips I G := by
  have hempty : ¬(G.functions.map (entry I G)).isEmpty = true := by
    rwa [List.isEmpty_iff, List.map_eq_nil_iff]
  rw [RoundTrips, toData_eq hG.nodup_functions, getDataFromJson_printAsJson, if_neg hempty]
  refine ⟨_, rfl, fun data' hperm => ?_⟩
  obtain ⟨G', hload, hG', hmem, hcallers⟩ := deserialize_spec hG hperm
  refine ⟨G', hload, restores_of_callers hG hG' hmem fun f hf => ?_⟩
  have hf' := (hmem f).1 hf
  rw [hcallers, if_pos hf', filter_map_some (hres f hf'.1 hf'.2)]

/-- The resolvable part of a graph is restored just if the graph has functions and all callers of the functions
that resolve do so too. -/
theorem roundTrips_iff {b : CallGraphBuilder N F} (hb : Builds b) : RoundTrips I b.CG ↔
    b.CG.functions ≠ [] ∧
      ∀ f ∈ b.CG.functions, ResolvesFunction I f → ∀ n ∈ b.CG.callersOf f, ResolvesInstruction I n :=
  have hG := mirrored_of_builds hb
  ⟨fun h => ⟨h.functions_ne_nil, fun _ hf hres _ hn => h.resolvesInstruction hG hf hres hn⟩,
    fun h => roundTrips_of_resolves hG h.1 h.2⟩

end Loading

/-! ### A function with a caller -/

/-- `f`, called at the instruction with id 0, which is found again or not. -/
def names (found : Bool) : Identifiers Unit Unit where
  getFunctionId _ := "f"
  getInstructionId _ := 0
  getFunctionFromName _ := some ()
  getInstructionFromId _ := if found then some () else none
  functionId_injective _ _ _ := rfl
  instructionId_injective _ _ _ := rfl
  getFunctionFromName_eq _ := rfl
  getInstructionFromId_eq _ := rfl

def oneCall : CallGraphBuilder Unit Unit := ⟨1, withEdge .empty () ()⟩

theorem builds_oneCall : Builds oneCall := .addCallEdge () () (.reserve 1) (addCallEdge_eq mirrored_empty)

theorem roundTrips_oneCall : RoundTrips (names true) oneCall.CG :=
  (roundTrips_iff builds_oneCall).2 ⟨List.cons_ne_nil _ _, fun _ _ _ _ _ => rfl⟩

/-- The empty graph, and a call site that is not found again. -/
theorem not_roundTrips_oneCall : ¬RoundTrips (names true) (CallGraph.empty : CallGraph Unit Unit) ∧
    ¬RoundTrips (names false) oneCall.CG := by
  refine ⟨fun h => h.functions_ne_nil rfl, fun h => ?_⟩
  have hres := h.resolvesInstruction (mirrored_of_builds builds_oneCall) (.head _) rfl (n := ()) (.head _)
  cases hres

end Phasar.SerializedCallGraph
