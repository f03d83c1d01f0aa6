import Phasar.IfdsIde.PhaseTwo
import Phasar.Utils.EquivalenceClassMap
import Mathlib.Data.Fintype.Card

/-!
# The cache of flow and edge functions

`FlowEdgeFunctionCache` keeps what the factories of a problem return, so that the solver has each flow and
edge function made once. The functions between an instruction and a successor or return site share one
table, whose keys are packed from the ids of two values; the edge functions in it are kept in classes.
A cache stands for a map from slots to answers.

* `LLVMMapKeyCompressor`, `createKey`: ids of values, packed into keys; `key?_inj`;
* `FlowEdgeFunctionCache`: the getters; `Query.run`: any of them;
* `FlowEdgeFunctionCache.lookup`: the map from slots to answers; `Query.run_spec`: what a query does to it;
* `answers_agree`: the solver gets the answers of the problem;
* `answer_stable`: no answer is made twice.
-/

namespace Phasar

open EquivalenceClassMap (Same)
open ValueState (CallNode CallFun callProblem callProgram)

/-! ### Keys -/

/-- `LLVMMapKeyCompressor`: the ids of values. -/
abbrev LLVMMapKeyCompressor (V : Type*) := VecMap V UInt32

/-- The key of two values with the given ids. -/
def packKey (l r : UInt32) : UInt64 := l.toUInt64 <<< 32 ||| r.toUInt64

namespace LLVMMapKeyCompressor

variable {V : Type*} [DecidableEq V]

/-- `getCompressedID`: the ids start from 1. -/
def getCompressedID (Map : LLVMMapKeyCompressor V) (Key : V) : UInt32 × LLVMMapKeyCompressor V :=
  Map.tryEmplace Key (UInt32.ofNat (Map.entries.length + 1))

/-- `createEdgeFunctionInstKey` and `createEdgeFunctionNodeKey`. -/
def createKey (Map : LLVMMapKeyCompressor V) (Lhs Rhs : V) : UInt64 × LLVMMapKeyCompressor V :=
  let l := Map.getCompressedID Lhs
  let r := l.2.getCompressedID Rhs
  (packKey l.1 r.1, r.2)

/-- The key of two values that have ids. -/
def key? (Map : LLVMMapKeyCompressor V) (Lhs Rhs : V) : Option UInt64 :=
  (Map.get? Lhs).bind fun l => (Map.get? Rhs).map (packKey l)

/-- No two values have the same id. -/
structure Distinct (Map : LLVMMapKeyCompressor V) : Prop where
  inj : ∀ v w id, Map.get? v = some id → Map.get? w = some id → v = w
  le_length : ∀ v id, Map.get? v = some id → id.toNat ≤ Map.entries.length

/-- Ids are kept. -/
def Extends (Map Map' : LLVMMapKeyCompressor V) : Prop := ∀ v id, Map.get? v = some id → Map'.get? v = some id

variable {Map Map' Map'' : LLVMMapKeyCompressor V} {v w v' w' : V} {key : UInt64}

theorem key?_eq_some : Map.key? v w = some key ↔
    ∃ l r, Map.get? v = some l ∧ Map.get? w = some r ∧ packKey l r = key := by
  simp only [key?, Option.bind_eq_some_iff, Option.map_eq_some_iff]
  constructor
  · rintro ⟨l, hl, r, hr, hkey⟩
    exact ⟨l, r, hl, hr, hkey⟩
  · rintro ⟨l, r, hl, hr, hkey⟩
    exact ⟨l, hl, r, hr, hkey⟩

theorem distinct_empty : Distinct (.empty : LLVMMapKeyCompressor V) where
  inj _ _ _ h := nomatch h
  le_length _ _ h := nomatch h

theorem Extends.refl (Map : LLVMMapKeyCompressor V) : Extends Map Map := fun _ _ h => h

theorem Extends.trans (h : Extends Map Map') (h' : Extends Map' Map'') : Extends Map Map'' :=
  fun v id hid => h' v id (h v id hid)

theorem Extends.key? (h : Extends Map Map') (hkey : Map.key? v w = some key) : Map'.key? v w = some key := by
  obtain ⟨l, r, hl, hr, hkey⟩ := key?_eq_some.1 hkey
  exact key?_eq_some.2 ⟨l, r, h v l hl, h w r hr, hkey⟩

theorem toNat_packKey (l r : UInt32) : (packKey l r).toNat = l.toNat * 2 ^ 32 + r.toNat := by
  have hl := l.toNat_lt
  have hr := r.toNat_lt
  have hmod : l.toNat <<< 32 % 2 ^ 64 = l.toNat <<< 32 := by
    rw [Nat.shiftLeft_eq]
    omega
  rw [packKey, UInt64.toNat_or, UInt64.toNat_shiftLeft, UInt32.toNat_toUInt64, UInt32.toNat_toUInt64]
  show l.toNat <<< 32 % 2 ^ 64 ||| r.toNat = _
  rw [hmod, ← Nat.shiftLeft_add_eq_or_of_lt hr, Nat.shiftLeft_eq]

theorem packKey_inj {l r l' r' : UInt32} (h : packKey l r = packKey l' r') : l = l' ∧ r = r' := by
  have hnat := congrArg UInt64.toNat h
  rw [toNat_packKey, toNat_packKey] at hnat
  have hr := r.toNat_lt
  have hr' := r'.toNat_lt
  exact ⟨UInt32.toNat_inj.1 (by omega), UInt32.toNat_inj.1 (by omega)⟩

/-- Keys of different values are different. -/
theorem key?_inj (hd : Distinct Map) (h : Map.key? v w = some key) (h' : Map.key? v' w' = some key) :
    v = v' ∧ w = w' := by
  obtain ⟨l, r, hl, hr, rfl⟩ := key?_eq_some.1 h
  obtain ⟨l', r', hl', hr', heq⟩ := key?_eq_some.1 h'
  obtain ⟨rfl, rfl⟩ := packKey_inj heq
  exact ⟨hd.inj v v' l' hl hl', hd.inj w w' r' hr hr'⟩

/-- New ids make no difference to a table whose keys are made of old ones. -/
theorem bind_key?_of_extends {α : Type*} {table : UInt64 → Option α} (hd : Distinct Map')
    (he : Extends Map Map') (hfilled : ∀ key, table key ≠ none → ∃ v w, Map.key? v w = some key) (v w : V) :
    (Map'.key? v w).bind table = (Map.key? v w).bind table := by
  cases hold : Map.key? v w with
  | some key => rw [he.key? hold]
  | none =>
    cases hnew : Map'.key? v w with
    | none => rfl
    | some key =>
      by_contra hne
      obtain ⟨v', w', hkey⟩ := hfilled key hne
      obtain ⟨rfl, rfl⟩ := key?_inj hd hnew (he.key? hkey)
      rw [hold] at hkey
      cases hkey

/-- Of the keys of two values, one is the key at which the table changes. -/
theorem bind_key?_update {α : Type*} {table : UInt64 → Option α} (hd : Distinct Map)
    (hkey : Map.key? v w = some key) (x : Option α) (v' w' : V) :
    (Map.key? v' w').bind (Function.update table key x) =
      if v' = v ∧ w' = w then x else (Map.key? v' w').bind table := by
  split_ifs with heq
  · rw [heq.1, heq.2, hkey, Option.bind_some, Function.update_self]
  · cases hkey' : Map.key? v' w' with
    | none => rfl
    | some key' =>
      have hne : key' ≠ key := fun h => heq (key?_inj hd hkey' (h ▸ hkey))
      rw [Option.bind_some, Function.update_of_ne hne, Option.bind_some]

variable [Fintype V]

/-- An id for a value, old or new. There are fewer values than ids. -/
theorem getCompressedID_spec (hcard : Fintype.card V < 2 ^ 32 - 1) (hd : Distinct Map) (v : V) :
    Distinct (Map.getCompressedID v).2 ∧ Extends Map (Map.getCompressedID v).2 ∧
      (Map.getCompressedID v).2.get? v = some (Map.getCompressedID v).1 := by
  unfold getCompressedID VecMap.tryEmplace
  cases hv : Map.get? v with
  | some id => exact ⟨hd, .refl Map, hv⟩
  | none =>
    have hkey : v ∉ Map.keys := fun hmem => (Map.mem_keys_iff v).1 hmem hv
    have hlen : Map.entries.length + 1 ≤ Fintype.card V := by
      have hnodup : (v :: Map.keys).Nodup := List.nodup_cons.2 ⟨hkey, Map.nodup⟩
      simpa [VecMap.keys] using hnodup.length_le_card
    have hid : (UInt32.ofNat (Map.entries.length + 1)).toNat = Map.entries.length + 1 := by
      refine UInt32.toNat_ofNat_of_lt' ?_
      show _ < 2 ^ 32
      omega
    have hset := VecMap.length_set_of_get?_eq_none hv (UInt32.ofNat (Map.entries.length + 1))
    -- the new id is greater than all others
    have hnew : ∀ x id, Map.get? x = some id → id ≠ UInt32.ofNat (Map.entries.length + 1) := by
      rintro x id hx rfl
      have := hd.le_length x _ hx
      omega
    refine ⟨⟨fun x y id hx hy => ?_, fun x id hx => ?_⟩, fun x id hx => ?_, VecMap.get?_set_self ..⟩
    · rw [VecMap.get?_set] at hx hy
      split_ifs at hx hy with hvx hvy hvy
      · exact hvx.symm.trans hvy
      · exact absurd (Option.some.inj hx).symm (hnew y id hy)
      · exact absurd (Option.some.inj hy).symm (hnew x id hx)
      · exact hd.inj x y id hx hy
    · rw [VecMap.get?_set] at hx
      split_ifs at hx with hvx
      · rw [← Option.some.inj hx, hid, hset]
      · rw [hset]
        exact (hd.le_length x id hx).trans (Nat.le_succ _)
    · rw [VecMap.get?_set_ne _ fun heq => by rw [heq, hx] at hv; cases hv]
      exact hx

/-- The key of two values. -/
theorem createKey_spec (hcard : Fintype.card V < 2 ^ 32 - 1) (hd : Distinct Map) (v w : V) :
    Distinct (Map.createKey v w).2 ∧ Extends Map (Map.createKey v w).2 ∧
      (Map.createKey v w).2.key? v w = some (Map.createKey v w).1 := by
  obtain ⟨hd₁, he₁, hv⟩ := getCompressedID_spec hcard hd v
  obtain ⟨hd₂, he₂, hw⟩ := getCompressedID_spec hcard hd₁ w
  exact ⟨hd₂, he₁.trans he₂, key?_eq_some.2 ⟨_, _, he₂ v _ hv, hw, rfl⟩⟩

end LLVMMapKeyCompressor

/-! ### The cache -/

structure NormalEdgeFlowData (D E : Type*) where
  FlowFuncPtr : Option (D → List D) := none
  EdgeFunctionMap : EquivalenceClassMapNG UInt64 E := {}

/-- The tables of a cache. A key of `NormalFunctionCache` that was not used has the default entry. -/
structure FlowEdgeFunctionCache (V N F D E : Type*) where
  KeyCompressor : LLVMMapKeyCompressor V := .empty
  NormalFunctionCache : UInt64 → NormalEdgeFlowData D E := fun _ => {}
  CallFlowFunctionCache : VecMap (N × F) (D → List D) := .empty
  ReturnFlowFunctionCache : VecMap (N × F × N × N) (D → List D) := .empty
  CallEdgeFunctionCache : VecMap (N × D × F × D) E := .empty
  ReturnEdgeFunctionCache : VecMap (N × F × N × D × N × D) E := .empty
  SummaryEdgeFunctionCache : VecMap (N × D × N × D) (Option E) := .empty

variable {V N F D E L : Type*} [DecidableEq V] [DecidableEq N] [DecidableEq F] [DecidableEq D]

/-- `ZFFOwner.emplace_back`, with `AutoAddZero`. -/
def IDETabulationProblem.addZero (P : IDETabulationProblem N F D E L) (FF : D → List D) : D → List D :=
  if P.solverConfig.autoAddZero then zeroed P.getZeroValue FF else FF

namespace FlowEdgeFunctionCache

section Getters

variable (P : IDETabulationProblem N F D E L) (VComp : E → E → Bool) (ofInst : N → V) (ofFact : D → V)
  (C : FlowEdgeFunctionCache V N F D E)

/-- The flow function between two instructions, for what the factory returns. -/
def getInstFlowFunction (Curr Succ : N) (FF : D → List D) : (D → List D) × FlowEdgeFunctionCache V N F D E :=
  let Key := C.KeyCompressor.createKey (ofInst Curr) (ofInst Succ)
  let NormalFE := C.NormalFunctionCache Key.1
  match NormalFE.FlowFuncPtr with
  | some FF' => (FF', { C with KeyCompressor := Key.2 })
  | none => (P.addZero FF,
      { C with
        KeyCompressor := Key.2
        NormalFunctionCache :=
          Function.update C.NormalFunctionCache Key.1 { NormalFE with FlowFuncPtr := some (P.addZero FF) } })

def getNormalFlowFunction (Curr Succ : N) :=
  C.getInstFlowFunction P ofInst Curr Succ (P.getNormalFlowFunction Curr Succ)

def getCallToRetFlowFunction (CallSite RetSite : N) (Callees : List F) :=
  C.getInstFlowFunction P ofInst CallSite RetSite (P.getCallToRetFlowFunction CallSite RetSite Callees)

def getCallFlowFunction (CallSite : N) (DestFun : F) : (D → List D) × FlowEdgeFunctionCache V N F D E :=
  let r := C.CallFlowFunctionCache.tryEmplace (CallSite, DestFun)
    (P.addZero (P.getCallFlowFunction CallSite DestFun))
  (r.1, { C with CallFlowFunctionCache := r.2 })

def getRetFlowFunction (CallSite : N) (CalleeFun : F) (ExitInst RetSite : N) :
    (D → List D) × FlowEdgeFunctionCache V N F D E :=
  let r := C.ReturnFlowFunctionCache.tryEmplace (CallSite, CalleeFun, ExitInst, RetSite)
    (P.addZero (P.getRetFlowFunction CallSite CalleeFun ExitInst RetSite))
  (r.1, { C with ReturnFlowFunctionCache := r.2 })

/-- A special summary is not kept, and does not add the zero value. -/
def getSummaryFlowFunction (CallSite : N) (DestFun : F) :
    Option (D → List D) × FlowEdgeFunctionCache V N F D E :=
  (P.getSummaryFlowFunction CallSite DestFun, C)

/-- The edge function between facts at two instructions, for what the factory returns. -/
def getInstEdgeFunction (Curr : N) (CurrNode : D) (Succ : N) (SuccNode : D) (EF : E) :
    Option E × FlowEdgeFunctionCache V N F D E :=
  let OuterMapKey := C.KeyCompressor.createKey (ofInst Curr) (ofInst Succ)
  let NormalFE := C.NormalFunctionCache OuterMapKey.1
  let NodeKey := OuterMapKey.2.createKey (ofFact CurrNode) (ofFact SuccNode)
  let Ret := NormalFE.EdgeFunctionMap.getOrInsertLazy VComp NodeKey.1 EF
  (Ret.2.1,
    { C with
      KeyCompressor := NodeKey.2
      NormalFunctionCache :=
        Function.update C.NormalFunctionCache OuterMapKey.1 { NormalFE with EdgeFunctionMap := Ret.1 } })

def getNormalEdgeFunction (Curr : N) (CurrNode : D) (Succ : N) (SuccNode : D) :=
  C.getInstEdgeFunction VComp ofInst ofFact Curr CurrNode Succ SuccNode
    (P.getNormalEdgeFunction Curr CurrNode Succ SuccNode)

def getCallToRetEdgeFunction (CallSite : N) (CallNode : D) (RetSite : N) (RetSiteNode : D) (Callees : List F) :=
  C.getInstEdgeFunction VComp ofInst ofFact CallSite CallNode RetSite RetSiteNode
    (P.getCallToRetEdgeFunction CallSite CallNode RetSite RetSiteNode Callees)

def getCallEdgeFunction (CallSite : N) (SrcNode : D) (DestinationFunction : F) (DestNode : D) :
    E × FlowEdgeFunctionCache V N F D E :=
  let r := C.CallEdgeFunctionCache.tryEmplace (CallSite, SrcNode, DestinationFunction, DestNode)
    (P.getCallEdgeFunction CallSite SrcNode DestinationFunction DestNode)
  (r.1, { C with CallEdgeFunctionCache := r.2 })

def getReturnEdgeFunction (CallSite : N) (CalleeFunction : F) (ExitInst : N) (ExitNode : D) (RetSite : N)
    (RetNode : D) : E × FlowEdgeFunctionCache V N F D E :=
  let r := C.ReturnEdgeFunctionCache.tryEmplace
    (CallSite, CalleeFunction, ExitInst, ExitNode, RetSite, RetNode)
    (P.getReturnEdgeFunction CallSite CalleeFunction ExitInst ExitNode RetSite RetNode)
  (r.1, { C with ReturnEdgeFunctionCache := r.2 })

def getSummaryEdgeFunction (CallSite : N) (CallNode : D) (RetSite : N) (RetSiteNode : D) :
    Option E × FlowEdgeFunctionCache V N F D E :=
  let r := C.SummaryEdgeFunctionCache.tryEmplace (CallSite, CallNode, RetSite, RetSiteNode)
    (P.getSummaryEdgeFunction CallSite CallNode RetSite RetSiteNode)
  (r.1, { C with SummaryEdgeFunctionCache := r.2 })

end Getters

/-! ### Queries -/

/-- What a getter returns. -/
inductive Answer (D E : Type*)
  | flow (FF : Option (D → List D))
  | edge (EF : Option E)

/-- The calls of the getters. -/
inductive Query (N F D : Type*)
  | normalFlow (Curr Succ : N)
  | callFlow (CallSite : N) (DestFun : F)
  | retFlow (CallSite : N) (CalleeFun : F) (ExitInst RetSite : N)
  | callToRetFlow (CallSite RetSite : N) (Callees : List F)
  | summaryFlow (CallSite : N) (DestFun : F)
  | normalEdge (Curr : N) (CurrNode : D) (Succ : N) (SuccNode : D)
  | callEdge (CallSite : N) (SrcNode : D) (DestinationFunction : F) (DestNode : D)
  | returnEdge (CallSite : N) (CalleeFunction : F) (ExitInst : N) (ExitNode : D) (RetSite : N) (RetNode : D)
  | callToRetEdge (CallSite : N) (CallNode : D) (RetSite : N) (RetSiteNode : D) (Callees : List F)
  | summaryEdge (CallSite : N) (CallNode : D) (RetSite : N) (RetSiteNode : D)

section Queries

variable (P : IDETabulationProblem N F D E L) (VComp : E → E → Bool) (ofInst : N → V) (ofFact : D → V)

/-- The answer of the cache, and the cache then. -/
def Query.run (C : FlowEdgeFunctionCache V N F D E) :
    Query N F D → Answer D E × FlowEdgeFunctionCache V N F D E
  | .normalFlow n m => (C.getNormalFlowFunction P ofInst n m).map (.flow ∘ some) id
  | .callFlow n f => (C.getCallFlowFunction P n f).map (.flow ∘ some) id
  | .retFlow n f e m => (C.getRetFlowFunction P n f e m).map (.flow ∘ some) id
  | .callToRetFlow n m fs => (C.getCallToRetFlowFunction P ofInst n m fs).map (.flow ∘ some) id
  | .summaryFlow n f => (C.getSummaryFlowFunction P n f).map .flow id
  | .normalEdge n d m d' => (C.getNormalEdgeFunction P VComp ofInst ofFact n d m d').map .edge id
  | .callEdge n d f d' => (C.getCallEdgeFunction P n d f d').map (.edge ∘ some) id
  | .returnEdge n f e d m d' => (C.getReturnEdgeFunction P n f e d m d').map (.edge ∘ some) id
  | .callToRetEdge n d m d' fs => (C.getCallToRetEdgeFunction P VComp ofInst ofFact n d m d' fs).map .edge id
  | .summaryEdge n d m d' => (C.getSummaryEdgeFunction P n d m d').map .edge id

/-- The answer of the problem. -/
def Query.direct : Query N F D → Answer D E
  | .normalFlow n m => .flow (P.cachedFlows.getNormalFlowFunction n m)
  | .callFlow n f => .flow (P.cachedFlows.getCallFlowFunction n f)
  | .retFlow n f e m => .flow (P.cachedFlows.getRetFlowFunction n f e m)
  | .callToRetFlow n m fs => .flow (P.cachedFlows.getCallToRetFlowFunction n m fs)
  | .summaryFlow n f => .flow (P.cachedFlows.getSummaryFlowFunction n f)
  | .normalEdge n d m d' => .edge (P.getNormalEdgeFunction n d m d')
  | .callEdge n d f d' => .edge (P.getCallEdgeFunction n d f d')
  | .returnEdge n f e d m d' => .edge (P.getReturnEdgeFunction n f e d m d')
  | .callToRetEdge n d m d' fs => .edge (P.getCallToRetEdgeFunction n d m d' fs)
  | .summaryEdge n d m d' => .edge (P.getSummaryEdgeFunction n d m d')

/-- The cache after some queries. -/
def runAll (C : FlowEdgeFunctionCache V N F D E) (qs : List (Query N F D)) : FlowEdgeFunctionCache V N F D E :=
  qs.foldl (fun C q => (q.run P VComp ofInst ofFact C).2) C

end Queries

/-! ### The map from slots to answers -/

/-- Where an answer is kept. -/
inductive Slot (N F D : Type*)
  | instFlow (key : N × N)
  | callFlow (key : N × F)
  | retFlow (key : N × F × N × N)
  | instEdge (key : N × D × N × D)
  | callEdge (key : N × D × F × D)
  | returnEdge (key : N × F × N × D × N × D)
  | summaryEdge (key : N × D × N × D)

def Query.slot : Query N F D → Option (Slot N F D)
  | .normalFlow n m => some (.instFlow (n, m))
  | .callFlow n f => some (.callFlow (n, f))
  | .retFlow n f e m => some (.retFlow (n, f, e, m))
  | .callToRetFlow n m _ => some (.instFlow (n, m))
  | .summaryFlow _ _ => none
  | .normalEdge n d m d' => some (.instEdge (n, d, m, d'))
  | .callEdge n d f d' => some (.callEdge (n, d, f, d'))
  | .returnEdge n f e d m d' => some (.returnEdge (n, f, e, d, m, d'))
  | .callToRetEdge n d m d' _ => some (.instEdge (n, d, m, d'))
  | .summaryEdge n d m d' => some (.summaryEdge (n, d, m, d'))

section Lookup

variable (ofInst : N → V) (ofFact : D → V)

/-- What is kept in a slot. -/
def lookup (C : FlowEdgeFunctionCache V N F D E) : Slot N F D → Option (Answer D E)
  | .instFlow k => ((C.KeyCompressor.key? (ofInst k.1) (ofInst k.2)).bind fun key =>
      (C.NormalFunctionCache key).FlowFuncPtr).map (.flow ∘ some)
  | .callFlow k => (C.CallFlowFunctionCache.get? k).map (.flow ∘ some)
  | .retFlow k => (C.ReturnFlowFunctionCache.get? k).map (.flow ∘ some)
  | .instEdge k => ((C.KeyCompressor.key? (ofInst k.1) (ofInst k.2.2.1)).bind fun key =>
      (C.KeyCompressor.key? (ofFact k.2.1) (ofFact k.2.2.2)).bind
        (C.NormalFunctionCache key).EdgeFunctionMap.findValue).map (.edge ∘ some)
  | .callEdge k => (C.CallEdgeFunctionCache.get? k).map (.edge ∘ some)
  | .returnEdge k => (C.ReturnEdgeFunctionCache.get? k).map (.edge ∘ some)
  | .summaryEdge k => (C.SummaryEdgeFunctionCache.get? k).map .edge

end Lookup

/-- Ids are distinct, and keys with an entry are made of ids. -/
structure Wf (C : FlowEdgeFunctionCache V N F D E) : Prop where
  distinct : C.KeyCompressor.Distinct
  flow : ∀ key, (C.NormalFunctionCache key).FlowFuncPtr ≠ none → ∃ v w, C.KeyCompressor.key? v w = some key
  edge : ∀ key nodeKey, (C.NormalFunctionCache key).EdgeFunctionMap.findValue nodeKey ≠ none →
    (∃ v w, C.KeyCompressor.key? v w = some key) ∧ ∃ v w, C.KeyCompressor.key? v w = some nodeKey

/-- Edge functions that compare equal are interchangeable. -/
def Answer.Agrees (VComp : E → E → Bool) : Answer D E → Answer D E → Prop
  | .flow FF, .flow FF' => FF = FF'
  | .edge EF, .edge EF' => EF.Rel (Same VComp) EF'
  | _, _ => False

variable {P : IDETabulationProblem N F D E L} {VComp : E → E → Bool} {ofInst : N → V} {ofFact : D → V}
  {C C' : FlowEdgeFunctionCache V N F D E}

omit [DecidableEq D] in
theorem Answer.Agrees.refl (a : Answer D E) : a.Agrees VComp a := by
  cases a with
  | flow FF => exact rfl
  | edge EF =>
    cases EF with
    | none => exact .none
    | some EF => exact .some (Or.inl rfl)

/-- The answer `a` is kept in the slot from now on. It was there, or it is new and agrees with `made`. -/
structure Stores (VComp : E → E → Bool) (ofInst : N → V) (ofFact : D → V)
    (C C' : FlowEdgeFunctionCache V N F D E) (s : Slot N F D) (a made : Answer D E) : Prop where
  wf : C'.Wf
  stored : C'.lookup ofInst ofFact s = some a
  old_or_made : C.lookup ofInst ofFact s = some a ∨
    C.lookup ofInst ofFact s = none ∧ a.Agrees VComp made
  others : ∀ s' ≠ s, C'.lookup ofInst ofFact s' = C.lookup ofInst ofFact s'

/-- One of the maps keeps an answer. -/
theorem stores_of_tryEmplace {K X : Type*} [DecidableEq K] (m : VecMap K X) (k : K) (make : X)
    (wrap : X → Answer D E) (slotOf : K → Slot N F D) (hC' : C'.Wf)
    (hlookup : ∀ k', C.lookup ofInst ofFact (slotOf k') = (m.get? k').map wrap)
    (hlookup' : ∀ k', C'.lookup ofInst ofFact (slotOf k') = ((m.tryEmplace k make).2.get? k').map wrap)
    (hrest : ∀ s, (∀ k', s ≠ slotOf k') → C'.lookup ofInst ofFact s = C.lookup ofInst ofFact s) :
    Stores VComp ofInst ofFact C C' (slotOf k) (wrap (m.tryEmplace k make).1) (wrap make) := by
  obtain ⟨hstored, hold, hothers⟩ := m.get?_tryEmplace k make
  refine ⟨hC', by rw [hlookup', hstored]; rfl, ?_, fun s hs => ?_⟩
  · rw [hlookup]
    rcases hold with hold | ⟨hnone, hmade⟩
    · exact Or.inl (by rw [hold]; rfl)
    · exact Or.inr ⟨by rw [hnone]; rfl, by rw [hmade]; exact .refl _⟩
  · by_cases hrange : ∃ k', s = slotOf k'
    · obtain ⟨k', rfl⟩ := hrange
      rw [hlookup, hlookup', hothers k' fun heq => hs (congrArg slotOf heq)]
    · exact hrest s fun k' heq => hrange ⟨k', heq⟩

/-! ### The table of the functions between instructions -/

open LLVMMapKeyCompressor

variable {Map : LLVMMapKeyCompressor V}

/-- New ids change nothing. -/
theorem Wf.withCompressor (ofInst : N → V) (ofFact : D → V) (hC : C.Wf) (hd : Map.Distinct)
    (he : Extends C.KeyCompressor Map) :
    Wf { C with KeyCompressor := Map } ∧
      ∀ s, lookup ofInst ofFact { C with KeyCompressor := Map } s = C.lookup ofInst ofFact s := by
  have hold : ∀ {key}, (∃ v w, C.KeyCompressor.key? v w = some key) → ∃ v w, Map.key? v w = some key := by
    rintro key ⟨v, w, h⟩
    exact ⟨v, w, he.key? h⟩
  refine ⟨⟨hd, fun key h => hold (hC.flow key h), fun key nodeKey h => ?_⟩, fun s => ?_⟩
  · exact ⟨hold (hC.edge key nodeKey h).1, hold (hC.edge key nodeKey h).2⟩
  · cases s with
    | instFlow k => exact congrArg (Option.map _) (bind_key?_of_extends hd he hC.flow _ _)
    | instEdge k =>
      have hnode : ∀ key, (Map.key? (ofFact k.2.1) (ofFact k.2.2.2)).bind
          (C.NormalFunctionCache key).EdgeFunctionMap.findValue =
          (C.KeyCompressor.key? (ofFact k.2.1) (ofFact k.2.2.2)).bind
            (C.NormalFunctionCache key).EdgeFunctionMap.findValue := fun key =>
        bind_key?_of_extends hd he (fun nodeKey h => (hC.edge key nodeKey h).2) _ _
      simp only [lookup, hnode]
      refine congrArg (Option.map _) (bind_key?_of_extends hd he (fun key h => ?_) _ _)
      obtain ⟨nodeKey, -, hvalue⟩ := Option.bind_eq_some_iff.1 (Option.ne_none_iff_exists'.1 h).choose_spec
      exact (hC.edge key nodeKey (by rw [hvalue]; exact Option.some_ne_none _)).1
    | _ => rfl

/-- A flow function gets into the table. -/
theorem Wf.updateFlow (ofFact : D → V) (hC : C.Wf) (hinst : ofInst.Injective) {n m : N} {key : UInt64}
    (hkey : C.KeyCompressor.key? (ofInst n) (ofInst m) = some key) (FF : D → List D) :
    let C' : FlowEdgeFunctionCache V N F D E :=
      { C with
        NormalFunctionCache :=
          Function.update C.NormalFunctionCache key { C.NormalFunctionCache key with FlowFuncPtr := some FF } }
    C'.Wf ∧ C'.lookup ofInst ofFact (.instFlow (n, m)) = some (.flow (some FF)) ∧
      ∀ s ≠ .instFlow (n, m), C'.lookup ofInst ofFact s = C.lookup ofInst ofFact s := by
  intro C'
  have hflow : (fun k => (C'.NormalFunctionCache k).FlowFuncPtr) =
      Function.update (fun k => (C.NormalFunctionCache k).FlowFuncPtr) key (some FF) := by
    funext k
    exact Function.apply_update (fun _ e => e.FlowFuncPtr) C.NormalFunctionCache key _ k
  have hedge : ∀ k, (C'.NormalFunctionCache k).EdgeFunctionMap = (C.NormalFunctionCache k).EdgeFunctionMap := by
    intro k
    by_cases hk : k = key
    · subst hk
      simp only [C', Function.update_self]
    · simp only [C', Function.update_of_ne hk]
  have hlookup : ∀ n' m', C'.lookup ofInst ofFact (.instFlow (n', m')) =
      if n' = n ∧ m' = m then some (.flow (some FF)) else C.lookup ofInst ofFact (.instFlow (n', m')) := by
    intro n' m'
    show Option.map _ ((C.KeyCompressor.key? (ofInst n') (ofInst m')).bind
      fun k => (C'.NormalFunctionCache k).FlowFuncPtr) = _
    rw [hflow, bind_key?_update hC.distinct hkey]
    simp only [hinst.eq_iff]
    split_ifs <;> rfl
  refine ⟨⟨hC.distinct, fun k h => ?_, fun k nodeKey h => hC.edge k nodeKey (hedge k ▸ h)⟩, ?_, fun s hs => ?_⟩
  · by_cases hk : k = key
    · exact ⟨_, _, hk ▸ hkey⟩
    · refine hC.flow k ?_
      rwa [congrFun hflow k, Function.update_of_ne hk] at h
  · rw [hlookup, if_pos ⟨rfl, rfl⟩]
  · cases s with
    | instFlow k =>
      obtain ⟨n', m'⟩ := k
      rw [hlookup, if_neg]
      rintro ⟨rfl, rfl⟩
      exact hs rfl
    | instEdge k =>
      simp only [lookup, hedge]
      rfl
    | _ => rfl

/-- An edge function gets into the table. -/
theorem Wf.updateEdge (hC : C.Wf) (hinst : ofInst.Injective) (hfact : ofFact.Injective) {n m : N} {d d' : D}
    {key nodeKey : UInt64} (hkey : C.KeyCompressor.key? (ofInst n) (ofInst m) = some key)
    (hnode : C.KeyCompressor.key? (ofFact d) (ofFact d') = some nodeKey)
    {M : EquivalenceClassMapNG UInt64 E} {EF : E} (hM : M.findValue nodeKey = some EF)
    (hother : ∀ k ≠ nodeKey, M.findValue k = (C.NormalFunctionCache key).EdgeFunctionMap.findValue k) :
    let C' : FlowEdgeFunctionCache V N F D E :=
      { C with
        NormalFunctionCache :=
          Function.update C.NormalFunctionCache key { C.NormalFunctionCache key with EdgeFunctionMap := M } }
    C'.Wf ∧ C'.lookup ofInst ofFact (.instEdge (n, d, m, d')) = some (.edge (some EF)) ∧
      ∀ s ≠ .instEdge (n, d, m, d'), C'.lookup ofInst ofFact s = C.lookup ofInst ofFact s := by
  intro C'
  have hflow : ∀ k, (C'.NormalFunctionCache k).FlowFuncPtr = (C.NormalFunctionCache k).FlowFuncPtr := by
    intro k
    by_cases hk : k = key
    · subst hk
      simp only [C', Function.update_self]
    · simp only [C', Function.update_of_ne hk]
  have hfind : M.findValue =
      Function.update (C.NormalFunctionCache key).EdgeFunctionMap.findValue nodeKey (some EF) := by
    funext k
    by_cases hk : k = nodeKey
    · rw [hk, hM, Function.update_self]
    · rw [hother k hk, Function.update_of_ne hk]
  have hedge : ∀ k, (C'.NormalFunctionCache k).EdgeFunctionMap.findValue =
      if k = key then Function.update (C.NormalFunctionCache k).EdgeFunctionMap.findValue nodeKey (some EF)
      else (C.NormalFunctionCache k).EdgeFunctionMap.findValue := by
    intro k
    split_ifs with hk
    · subst hk
      simp only [C', Function.update_self, hfind]
    · simp only [C', Function.update_of_ne hk]
  have hlookup : ∀ n' e m' e', C'.lookup ofInst ofFact (.instEdge (n', e, m', e')) =
      if (n' = n ∧ m' = m) ∧ e = d ∧ e' = d' then some (.edge (some EF))
      else C.lookup ofInst ofFact (.instEdge (n', e, m', e')) := by
    intro n' e m' e'
    show Option.map _ ((C.KeyCompressor.key? (ofInst n') (ofInst m')).bind fun k =>
      (C.KeyCompressor.key? (ofFact e) (ofFact e')).bind (C'.NormalFunctionCache k).EdgeFunctionMap.findValue) = _
    simp only [lookup]
    cases hk : C.KeyCompressor.key? (ofInst n') (ofInst m') with
    | none =>
      rw [if_neg]
      · rfl
      · rintro ⟨⟨rfl, rfl⟩, -⟩
        rw [hkey] at hk
        cases hk
    | some k =>
      rw [Option.bind_some, Option.bind_some, hedge]
      by_cases heq : k = key
      · obtain ⟨hn, hm⟩ := key?_inj hC.distinct (heq ▸ hk) hkey
        rw [if_pos heq, bind_key?_update hC.distinct hnode]
        simp only [hinst hn, hinst hm, hfact.eq_iff, true_and, and_self]
        split_ifs <;> rfl
      · have hne : ¬((n' = n ∧ m' = m) ∧ e = d ∧ e' = d') := by
          rintro ⟨⟨rfl, rfl⟩, -⟩
          exact heq (Option.some.inj (hk.symm.trans hkey))
        rw [if_neg heq, if_neg hne]
  refine ⟨⟨hC.distinct, fun k h => hC.flow k (hflow k ▸ h), fun k nk h => ?_⟩, ?_, fun s hs => ?_⟩
  · rw [hedge] at h
    split_ifs at h with hk
    · refine ⟨⟨_, _, hk ▸ hkey⟩, ?_⟩
      by_cases hnk : nk = nodeKey
      · exact ⟨_, _, hnk ▸ hnode⟩
      · rw [Function.update_of_ne hnk] at h
        exact (hC.edge k nk h).2
    · exact hC.edge k nk h
  · rw [hlookup, if_pos ⟨⟨rfl, rfl⟩, rfl, rfl⟩]
  · cases s with
    | instFlow k =>
      simp only [lookup, hflow]
      rfl
    | instEdge k =>
      obtain ⟨n', e, m', e'⟩ := k
      rw [hlookup, if_neg]
      rintro ⟨⟨rfl, rfl⟩, rfl, rfl⟩
      exact hs rfl
    | _ => rfl

/-! ### What a query does -/

variable [Fintype V]

theorem getInstFlowFunction_spec (hcard : Fintype.card V < 2 ^ 32 - 1) (hinst : ofInst.Injective) (hC : C.Wf)
    (n m : N) (FF : D → List D) :
    Stores VComp ofInst ofFact C (C.getInstFlowFunction P ofInst n m FF).2 (.instFlow (n, m))
      (.flow (some (C.getInstFlowFunction P ofInst n m FF).1)) (.flow (some (P.addZero FF))) := by
  obtain ⟨hd, he, hkey⟩ := createKey_spec hcard hC.distinct (ofInst n) (ofInst m)
  obtain ⟨hwf, hsame⟩ := hC.withCompressor ofInst ofFact hd he
  have hlookup : C.lookup ofInst ofFact (.instFlow (n, m)) = (C.NormalFunctionCache
      (C.KeyCompressor.createKey (ofInst n) (ofInst m)).1).FlowFuncPtr.map (.flow ∘ some) := by
    rw [← hsame]
    simp only [lookup, hkey, Option.bind_some]
  cases hFE : (C.NormalFunctionCache (C.KeyCompressor.createKey (ofInst n) (ofInst m)).1).FlowFuncPtr with
  | some FF' =>
    rw [hFE] at hlookup
    simp only [getInstFlowFunction, hFE]
    exact ⟨hwf, (hsame _).trans hlookup, Or.inl hlookup, fun s _ => hsame s⟩
  | none =>
    rw [hFE] at hlookup
    obtain ⟨hwf', hstored, hothers⟩ := hwf.updateFlow ofFact hinst hkey (P.addZero FF)
    simp only [getInstFlowFunction, hFE]
    exact ⟨hwf', hstored, Or.inr ⟨hlookup, .refl _⟩, fun s hs => (hothers s hs).trans (hsame s)⟩

theorem getInstEdgeFunction_spec (hcard : Fintype.card V < 2 ^ 32 - 1) (hinst : ofInst.Injective)
    (hfact : ofFact.Injective) (hC : C.Wf) (n : N) (d : D) (m : N) (d' : D) (EF : E) :
    Stores VComp ofInst ofFact C (C.getInstEdgeFunction VComp ofInst ofFact n d m d' EF).2
      (.instEdge (n, d, m, d')) (.edge (C.getInstEdgeFunction VComp ofInst ofFact n d m d' EF).1)
      (.edge (some EF)) := by
  obtain ⟨hd, he, hkey⟩ := createKey_spec hcard hC.distinct (ofInst n) (ofInst m)
  obtain ⟨hd', he', hnode⟩ := createKey_spec hcard hd (ofFact d) (ofFact d')
  obtain ⟨hwf, hsame⟩ := hC.withCompressor ofInst ofFact hd' (he.trans he')
  obtain ⟨s, hreturned, hfound, hold, hother⟩ := EquivalenceClassMapNG.findValue_getOrInsertLazy VComp
    ((C.KeyCompressor.createKey (ofInst n) (ofInst m)).2.createKey (ofFact d) (ofFact d')).1 EF
    (C.NormalFunctionCache (C.KeyCompressor.createKey (ofInst n) (ofInst m)).1).EdgeFunctionMap
  obtain ⟨hwf', hstored, hothers⟩ := hwf.updateEdge hinst hfact (he'.key? hkey) hnode hfound hother
  simp only [getInstEdgeFunction, hreturned]
  refine ⟨hwf', hstored, ?_, fun s hs => (hothers s hs).trans (hsame s)⟩
  rw [← hsame]
  simp only [lookup, he'.key? hkey, hnode, Option.bind_some]
  rcases hold with hold | ⟨hnone, hclass⟩
  · exact Or.inl (by rw [hold]; rfl)
  · exact Or.inr ⟨by rw [hnone]; rfl, .some hclass⟩

omit [DecidableEq N] [DecidableEq F] in
/-- The flow functions of a problem, as the getters make them. -/
theorem cachedFlows_eq (P : IDETabulationProblem N F D E L) :
    (∀ n m, P.cachedFlows.getNormalFlowFunction n m = P.addZero (P.getNormalFlowFunction n m)) ∧
    (∀ n f, P.cachedFlows.getCallFlowFunction n f = P.addZero (P.getCallFlowFunction n f)) ∧
    (∀ n f e m, P.cachedFlows.getRetFlowFunction n f e m = P.addZero (P.getRetFlowFunction n f e m)) ∧
    ∀ n m fs, P.cachedFlows.getCallToRetFlowFunction n m fs =
      P.addZero (P.getCallToRetFlowFunction n m fs) := by
  unfold IDETabulationProblem.cachedFlows IFDSTabulationProblem.cached IDETabulationProblem.addZero
  split_ifs <;> exact ⟨fun _ _ => rfl, fun _ _ => rfl, fun _ _ _ _ => rfl, fun _ _ _ => rfl⟩

/-- A query keeps its answer in its slot. -/
theorem Query.stores (hcard : Fintype.card V < 2 ^ 32 - 1) (hinst : ofInst.Injective)
    (hfact : ofFact.Injective) (hC : C.Wf) {q : Query N F D} {s : Slot N F D} (hs : q.slot = some s) :
    Stores VComp ofInst ofFact C (q.run P VComp ofInst ofFact C).2 s (q.run P VComp ofInst ofFact C).1
      (q.direct P) := by
  obtain ⟨hnormal, hcall, hret, hcallToRet⟩ := cachedFlows_eq P
  cases q with
  | summaryFlow n f => cases hs
  | normalFlow n m =>
    obtain rfl := Option.some.inj hs
    rw [direct, hnormal]
    exact getInstFlowFunction_spec hcard hinst hC n m _
  | callToRetFlow n m fs =>
    obtain rfl := Option.some.inj hs
    rw [direct, hcallToRet]
    exact getInstFlowFunction_spec hcard hinst hC n m _
  | normalEdge n d m d' =>
    obtain rfl := Option.some.inj hs
    exact getInstEdgeFunction_spec hcard hinst hfact hC n d m d' _
  | callToRetEdge n d m d' fs =>
    obtain rfl := Option.some.inj hs
    exact getInstEdgeFunction_spec hcard hinst hfact hC n d m d' _
  | callFlow n f =>
    obtain rfl := Option.some.inj hs
    rw [direct, hcall]
    refine stores_of_tryEmplace C.CallFlowFunctionCache (n, f) _ (.flow ∘ some) .callFlow
      ⟨hC.1, hC.2, hC.3⟩ (fun _ => rfl) (fun _ => rfl) fun s hs => ?_
    cases s with
    | callFlow k => exact absurd rfl (hs k)
    | _ => rfl
  | retFlow n f e m =>
    obtain rfl := Option.some.inj hs
    rw [direct, hret]
    refine stores_of_tryEmplace C.ReturnFlowFunctionCache (n, f, e, m) _ (.flow ∘ some) .retFlow
      ⟨hC.1, hC.2, hC.3⟩ (fun _ => rfl) (fun _ => rfl) fun s hs => ?_
    cases s with
    | retFlow k => exact absurd rfl (hs k)
    | _ => rfl
  | callEdge n d f d' =>
    obtain rfl := Option.some.inj hs
    refine stores_of_tryEmplace C.CallEdgeFunctionCache (n, d, f, d') _ (.edge ∘ some) .callEdge
      ⟨hC.1, hC.2, hC.3⟩ (fun _ => rfl) (fun _ => rfl) fun s hs => ?_
    cases s with
    | callEdge k => exact absurd rfl (hs k)
    | _ => rfl
  | returnEdge n f e d m d' =>
    obtain rfl := Option.some.inj hs
    refine stores_of_tryEmplace C.ReturnEdgeFunctionCache (n, f, e, d, m, d') _ (.edge ∘ some) .returnEdge
      ⟨hC.1, hC.2, hC.3⟩ (fun _ => rfl) (fun _ => rfl) fun s hs => ?_
    cases s with
    | returnEdge k => exact absurd rfl (hs k)
    | _ => rfl
  | summaryEdge n d m d' =>
    obtain rfl := Option.some.inj hs
    refine stores_of_tryEmplace C.SummaryEdgeFunctionCache (n, d, m, d') _ .edge .summaryEdge
      ⟨hC.1, hC.2, hC.3⟩ (fun _ => rfl) (fun _ => rfl) fun s hs => ?_
    cases s with
    | summaryEdge k => exact absurd rfl (hs k)
    | _ => rfl

omit [Fintype V] in
/-- A special summary is made anew each time. -/
theorem Query.run_of_slot_eq_none {q : Query N F D} (hs : q.slot = none) :
    q.run P VComp ofInst ofFact C = (q.direct P, C) := by
  cases q with
  | summaryFlow n f =>
    rw [direct, IDETabulationProblem.cachedFlows, IFDSTabulationProblem.cached_getSummaryFlowFunction]
    rfl
  | _ => cases hs

/-- What is kept stays. -/
theorem Wf.runAll (hcard : Fintype.card V < 2 ^ 32 - 1) (hinst : ofInst.Injective)
    (hfact : ofFact.Injective) (hC : C.Wf) (qs : List (Query N F D)) :
    (C.runAll P VComp ofInst ofFact qs).Wf ∧ ∀ s a, C.lookup ofInst ofFact s = some a →
      (C.runAll P VComp ofInst ofFact qs).lookup ofInst ofFact s = some a := by
  induction qs generalizing C with
  | nil => exact ⟨hC, fun _ _ h => h⟩
  | cons q qs ih =>
    cases hs : q.slot with
    | none =>
      have hrun : (q.run P VComp ofInst ofFact C).2 = C := by rw [Query.run_of_slot_eq_none hs]
      rw [FlowEdgeFunctionCache.runAll, List.foldl_cons, hrun]
      exact ih hC
    | some s =>
      have hq : Stores VComp ofInst ofFact C (q.run P VComp ofInst ofFact C).2 s _ _ :=
        q.stores hcard hinst hfact hC hs
      obtain ⟨hwf, hkept⟩ := ih hq.wf
      refine ⟨hwf, fun s' a ha => hkept s' a ?_⟩
      by_cases heq : s' = s
      · subst heq
        rcases hq.old_or_made with hold | ⟨hnone, -⟩
        · rw [hq.stored, ← hold, ha]
        · rw [ha] at hnone
          cases hnone
      · rw [hq.others s' heq, ha]

omit [DecidableEq N] [DecidableEq F] [DecidableEq D] [Fintype V] in
theorem wf_empty : Wf ({} : FlowEdgeFunctionCache V N F D E) where
  distinct := distinct_empty
  flow _ h := absurd rfl h
  edge _ _ h := absurd rfl h

/-- An answer is made once: it is given again after any queries, even to a problem that has changed. -/
theorem answer_stable (P P' : IDETabulationProblem N F D E L) (hcard : Fintype.card V < 2 ^ 32 - 1)
    (hinst : ofInst.Injective) (hfact : ofFact.Injective) (qs qs' : List (Query N F D)) {q : Query N F D}
    (hq : q.slot ≠ none) :
    let r := q.run P VComp ofInst ofFact (runAll P VComp ofInst ofFact {} qs)
    (q.run P' VComp ofInst ofFact (runAll P' VComp ofInst ofFact r.2 qs')).1 = r.1 := by
  intro r
  obtain ⟨s, hs⟩ := Option.ne_none_iff_exists'.1 hq
  have hr : Stores VComp ofInst ofFact _ r.2 s r.1 _ :=
    q.stores hcard hinst hfact (wf_empty.runAll hcard hinst hfact qs).1 hs
  obtain ⟨hwf, hkept⟩ := hr.wf.runAll (P := P') hcard hinst hfact qs'
  have hlookup := hkept s r.1 hr.stored
  rcases (q.stores (P := P') hcard hinst hfact hwf hs).old_or_made with hold | ⟨hnone, -⟩
  · exact Option.some.inj (hold.symm.trans hlookup)
  · rw [hlookup] at hnone
    cases hnone

/-- The edge function of the call in `callProblem` is not made again. -/
theorem answer_stable_callProblem :
    let r := (Query.callEdge CallNode.call true CallFun.g true).run callProblem
      (fun e e' => decide (e = e')) (Sum.inl : CallNode → CallNode ⊕ Bool) Sum.inr {}
    (Query.run { callProblem with getCallEdgeFunction := fun _ _ _ _ => .allTop }
      (fun e e' => decide (e = e')) Sum.inl Sum.inr r.2 (.callEdge .call true .g true)).1 = r.1 :=
  answer_stable callProblem _ (by decide) Sum.inl_injective Sum.inr_injective [] [] nofun

/-! ### The answers of the problem -/

/-- What the solvers ask: normal functions at instructions that are no call sites, and call-to-return
functions at call sites, for all their callees. -/
def Query.Regular (G : ICFG N F) : Query N F D → Prop
  | .normalFlow n _ | .normalEdge n _ _ _ => G.isCallSite n = false
  | .callToRetFlow c _ fs | .callToRetEdge c _ _ _ fs => G.isCallSite c = true ∧ fs = G.getCalleesOfCallAt c
  | _ => True

/-- What belongs in a slot. -/
def Slot.direct (P : IDETabulationProblem N F D E L) (G : ICFG N F) : Slot N F D → Answer D E
  | .instFlow (n, m) =>
    if G.isCallSite n then .flow (P.cachedFlows.getCallToRetFlowFunction n m (G.getCalleesOfCallAt n))
    else .flow (P.cachedFlows.getNormalFlowFunction n m)
  | .callFlow (n, f) => .flow (P.cachedFlows.getCallFlowFunction n f)
  | .retFlow (n, f, e, m) => .flow (P.cachedFlows.getRetFlowFunction n f e m)
  | .instEdge (n, d, m, d') =>
    if G.isCallSite n then .edge (P.getCallToRetEdgeFunction n d m d' (G.getCalleesOfCallAt n))
    else .edge (P.getNormalEdgeFunction n d m d')
  | .callEdge (n, d, f, d') => .edge (P.getCallEdgeFunction n d f d')
  | .returnEdge (n, f, e, d, m, d') => .edge (P.getReturnEdgeFunction n f e d m d')
  | .summaryEdge (n, d, m, d') => .edge (P.getSummaryEdgeFunction n d m d')

omit [DecidableEq N] [DecidableEq F] in
theorem Query.Regular.direct_eq {G : ICFG N F} {q : Query N F D} (hq : q.Regular G) {s : Slot N F D}
    (hs : q.slot = some s) : q.direct P = s.direct P G := by
  cases q with
  | normalFlow n m | normalEdge n d m d' =>
    obtain rfl := Option.some.inj hs
    exact (if_neg (Bool.eq_false_iff.1 hq)).symm
  | callToRetFlow n m fs | callToRetEdge n d m d' fs =>
    obtain rfl := Option.some.inj hs
    obtain ⟨hcall, rfl⟩ := hq
    exact (if_pos hcall).symm
  | summaryFlow n f => cases hs
  | _ =>
    obtain rfl := Option.some.inj hs
    rfl

/-- Each slot has what belongs in it. -/
def Sound (P : IDETabulationProblem N F D E L) (VComp : E → E → Bool) (ofInst : N → V) (ofFact : D → V)
    (G : ICFG N F) (C : FlowEdgeFunctionCache V N F D E) : Prop :=
  ∀ s a, C.lookup ofInst ofFact s = some a → a.Agrees VComp (s.direct P G)

omit [Fintype V] in
theorem Sound.of_stores {G : ICFG N F} {s : Slot N F D} {a : Answer D E} (h : Sound P VComp ofInst ofFact G C)
    (hs : Stores VComp ofInst ofFact C C' s a (s.direct P G)) :
    Sound P VComp ofInst ofFact G C' ∧ a.Agrees VComp (s.direct P G) := by
  have ha : a.Agrees VComp (s.direct P G) := by
    rcases hs.old_or_made with hold | ⟨-, hmade⟩
    · exact h s a hold
    · exact hmade
  refine ⟨fun s' a' ha' => ?_, ha⟩
  by_cases heq : s' = s
  · subst heq
    obtain rfl := Option.some.inj (hs.stored.symm.trans ha')
    exact ha
  · exact h s' a' (hs.others s' heq ▸ ha')

/-- A query that the solvers ask. -/
theorem Sound.run {G : ICFG N F} (hcard : Fintype.card V < 2 ^ 32 - 1) (hinst : ofInst.Injective)
    (hfact : ofFact.Injective) (hC : C.Wf) (h : Sound P VComp ofInst ofFact G C) {q : Query N F D}
    (hq : q.Regular G) :
    (q.run P VComp ofInst ofFact C).2.Wf ∧ Sound P VComp ofInst ofFact G (q.run P VComp ofInst ofFact C).2 ∧
      (q.run P VComp ofInst ofFact C).1.Agrees VComp (q.direct P) := by
  cases hs : q.slot with
  | none =>
    rw [Query.run_of_slot_eq_none hs]
    exact ⟨hC, h, .refl _⟩
  | some s =>
    have hstores : Stores VComp ofInst ofFact C (q.run P VComp ofInst ofFact C).2 s _ (q.direct P) :=
      q.stores hcard hinst hfact hC hs
    rw [hq.direct_eq hs] at hstores ⊢
    exact ⟨hstores.wf, h.of_stores hstores⟩

theorem Sound.runAll {G : ICFG N F} (hcard : Fintype.card V < 2 ^ 32 - 1) (hinst : ofInst.Injective)
    (hfact : ofFact.Injective) (hC : C.Wf) (h : Sound P VComp ofInst ofFact G C) {qs : List (Query N F D)}
    (hqs : ∀ q ∈ qs, q.Regular G) :
    (runAll P VComp ofInst ofFact C qs).Wf ∧
      Sound P VComp ofInst ofFact G (runAll P VComp ofInst ofFact C qs) := by
  induction qs generalizing C with
  | nil => exact ⟨hC, h⟩
  | cons q qs ih =>
    obtain ⟨hwf, hsound, -⟩ := h.run hcard hinst hfact hC (hqs q List.mem_cons_self)
    exact ih hwf hsound fun q' hq' => hqs q' (List.mem_cons_of_mem q hq')

/-- **The cache answers for the problem.** Whatever the solvers asked before, the next answer is the one
of the problem. -/
theorem answers_agree (P : IDETabulationProblem N F D E L) (G : ICFG N F) (hcard : Fintype.card V < 2 ^ 32 - 1)
    (hinst : ofInst.Injective) (hfact : ofFact.Injective) {qs : List (Query N F D)}
    (hqs : ∀ q ∈ qs, q.Regular G) {q : Query N F D} (hq : q.Regular G) :
    (q.run P VComp ofInst ofFact (runAll P VComp ofInst ofFact {} qs)).1.Agrees VComp (q.direct P) := by
  have hempty : Sound P VComp ofInst ofFact G {} := fun s a h => by cases s <;> cases h
  obtain ⟨hwf, hsound⟩ := hempty.runAll hcard hinst hfact wf_empty hqs
  exact (hsound.run hcard hinst hfact hwf hq).2.2

/-- Normal and call-to-return functions of `callProblem` in one table. -/
theorem answers_agree_callProblem :
    ((Query.callToRetEdge CallNode.call true .exit true [CallFun.g]).run callProblem
      (fun e e' => decide (e = e')) (Sum.inl : CallNode → CallNode ⊕ Bool) Sum.inr
      (runAll callProblem (fun e e' => decide (e = e')) Sum.inl Sum.inr {}
        [.normalFlow .entry .call, .normalEdge .entry true .call true])).1.Agrees
      (fun e e' => decide (e = e')) (.edge (some .edgeIdentity)) :=
  answers_agree callProblem callProgram (by decide) Sum.inl_injective
    Sum.inr_injective (by simp [Query.Regular, callProgram, ICFG.ofNodes]) ⟨rfl, rfl⟩

end FlowEdgeFunctionCache

end Phasar
