import Phasar.Lib.Unfolding
import Mathlib.Logic.Function.Basic
import Mathlib.Data.List.Dedup
import Mathlib.Tactic.Ring

/-!
# The type hierarchy of the debug information

`DIBasedTypeHierarchy` linearises the inheritance graph: the types below a type are a range of one vector.
The range of a type is written again on each visit. Indices into the vector are stored with 32 bits.

* `DebugInfo`, `vertexTypes`, `buildTypeGraph`, `buildTypeHierarchy`, `subTypesOf`;
* `InRange`: the range of a type has the types below it;
* `subTypesOf_iff`: the subtypes are the types derived from a type;
* `subTypesOf_tower`: 33 classes whose hierarchy does not fit.
-/

namespace Phasar.DIBasedTypeHierarchy

open Relation Unfolding

/-- The base type of an inheritance record. -/
inductive BaseType (T : Type*)
  | type (t : T)
  | typedef (base : BaseType T)

/-- The type behind typedefs. -/
def BaseType.strip {T : Type*} : BaseType T → T
  | .type t => t
  | .typedef base => base.strip

inductive DwarfTag
  | classType | structureType | unionType | other
  deriving DecidableEq

/-- The types of a module as `DebugInfoFinder` lists them, with the inheritance records among the elements
of a composite type. -/
structure DebugInfo (T : Type*) where
  types : List T
  isComposite : T → Bool
  tag : T → DwarfTag
  identifier : T → String
  name : T → String
  inheritance : T → List (BaseType T)

section Construction

variable {T : Type*} [DecidableEq T]

/-- `getCompositeTypeName`. -/
def getCompositeTypeName (I : DebugInfo T) (t : T) : String :=
  if I.identifier t = "" then I.name t else I.identifier t

/-- A named class, struct or union. -/
def isClassType (I : DebugInfo T) (t : T) : Bool :=
  I.isComposite t && I.tag t ≠ .other && getCompositeTypeName I t ≠ ""

/-- `VertexTypes`. -/
def vertexTypes (I : DebugInfo T) : List T :=
  I.types.foldl (fun vt t => if isClassType I t && t ∉ vt then vt ++ [t] else vt) []

/-- `TypeToVertex.lookup`. -/
def toVertex (vt : List T) (t : T) : ℕ := if t ∈ vt then vt.idxOf t else 0

structure TypeGraph where
  roots : ℕ → Bool
  derivedTypesOf : ℕ → List ℕ

/-- The loop body of `buildTypeGraph`, for one inheritance record. -/
def addInheritance (vt : List T) (derivedIdx : ℕ) (TG : TypeGraph) (base : BaseType T) : TypeGraph :=
  let baseIdx := toVertex vt base.strip
  ⟨Function.update TG.roots derivedIdx false,
    Function.update TG.derivedTypesOf baseIdx (TG.derivedTypesOf baseIdx ++ [derivedIdx])⟩

/-- `buildTypeGraph`. -/
def buildTypeGraph (I : DebugInfo T) (vt : List T) : TypeGraph :=
  vt.foldl (fun TG t => (I.inheritance t).foldl (addInheritance vt (toVertex vt t)) TG)
    ⟨fun _ => true, fun _ => []⟩

/-- The state of `buildTypeHierarchy`. The last element of `WorkList` comes first; types stand for
themselves and exit markers are complements. `Hierarchy` holds the indices of its types. -/
structure BuildState where
  transitiveDerivedIndex : ℕ → ℕ × ℕ
  hierarchy : List ℕ
  seen : ℕ → Bool
  workList : List (BitVec 32)

/-- A vector size, stored with 32 bits. -/
def toUInt32 (n : ℕ) : ℕ := n % 2 ^ 32

/-- The body of the loop over `WorkList`. -/
def buildStep (TG : TypeGraph) (s : BuildState) : BuildState :=
  match s.workList with
  | [] => s
  | curr :: rest =>
    if curr.slt 0 then
      let typeIdx := (~~~curr).toNat
      { s with
        workList := rest
        transitiveDerivedIndex := Function.update s.transitiveDerivedIndex typeIdx
          ((s.transitiveDerivedIndex typeIdx).1, toUInt32 s.hierarchy.length) }
    else
      let c := curr.toNat
      { hierarchy := s.hierarchy ++ [c]
        -- no bit is ever set, so a type is pushed on each way to it
        seen := if s.seen c then Function.update s.seen c true else s.seen
        transitiveDerivedIndex :=
          if s.seen c then s.transitiveDerivedIndex
          else Function.update s.transitiveDerivedIndex c
            (toUInt32 s.hierarchy.length, (s.transitiveDerivedIndex c).2)
        workList := ((TG.derivedTypesOf c).map (BitVec.ofNat 32)).reverse ++ ~~~curr :: rest }

/-- The loop over `WorkList`; `none` when the fuel runs out. -/
def drain (TG : TypeGraph) : ℕ → BuildState → Option BuildState
  | 0, s => if s.workList = [] then some s else none
  | fuel + 1, s => if s.workList = [] then some s else drain TG fuel (buildStep TG s)

/-- `buildTypeHierarchy`, for `n` types. -/
def buildTypeHierarchy (TG : TypeGraph) (n fuel : ℕ) : Option BuildState :=
  ((List.range n).filter TG.roots).foldlM
    (fun s rt => drain TG fuel { s with workList := [BitVec.ofNat 32 rt] })
    ⟨fun _ => (0, 0), [], fun _ => false, []⟩

/-- The tables of a hierarchy. -/
structure TypeHierarchy (T : Type*) where
  vertexTypes : List T
  transitiveDerivedIndex : List (ℕ × ℕ)
  hierarchy : List T

/-- The constructor, without the vtables. -/
def build (I : DebugInfo T) (fuel : ℕ) : Option (TypeHierarchy T) :=
  let vt := vertexTypes I
  (buildTypeHierarchy (buildTypeGraph I vt) vt.length fuel).map fun s =>
    ⟨vt, (List.range vt.length).map s.transitiveDerivedIndex, s.hierarchy.filterMap (vt[·]?)⟩

namespace TypeHierarchy

variable (th : TypeHierarchy T)

/-- The types in the range of an index. -/
def subTypesOfIdx (typeIdx : ℕ) : List T :=
  match th.transitiveDerivedIndex[typeIdx]? with
  | some (start, stop) => (th.hierarchy.drop start).take (stop - start)
  | none => []

/-- `subTypesOf`. -/
def subTypesOf (t : T) : List T :=
  if t ∈ th.vertexTypes then th.subTypesOfIdx (th.vertexTypes.idxOf t) else []

end TypeHierarchy

end Construction

/-! ### The loop over the work list -/

section Loop

variable {TG : TypeGraph}

theorem slt_zero_enter {i : ℕ} (hi : i < 2 ^ 31) : (BitVec.ofNat 32 i).slt 0 = false := by
  rw [show (0 : BitVec 32) = 0#32 from rfl, BitVec.slt_zero_eq_msb, BitVec.msb_eq_decide, BitVec.toNat_ofNat]
  simp only [decide_eq_false_iff_not]
  omega

theorem slt_zero_exit {i : ℕ} (hi : i < 2 ^ 31) : (~~~BitVec.ofNat 32 i).slt 0 = true := by
  have henter := slt_zero_enter hi
  rw [show (0 : BitVec 32) = 0#32 from rfl, BitVec.slt_zero_eq_msb] at henter ⊢
  simp [BitVec.msb_not, henter]

theorem toNat_enter {i : ℕ} (hi : i < 2 ^ 31) : (BitVec.ofNat 32 i).toNat = i := by
  rw [BitVec.toNat_ofNat]
  omega

/-- The vertices below a vertex, in the order of the loop. -/
def TypeGraph.children (TG : TypeGraph) (v : ℕ) : List ℕ := (TG.derivedTypesOf v).reverse

theorem buildStep_enter {s : BuildState} {v : ℕ} {rest : List (BitVec 32)} (hv : v < 2 ^ 31)
    (hseen : s.seen v = false) (hwl : s.workList = BitVec.ofNat 32 v :: rest) :
    buildStep TG s = ⟨Function.update s.transitiveDerivedIndex v
      (toUInt32 s.hierarchy.length, (s.transitiveDerivedIndex v).2), s.hierarchy ++ [v], s.seen,
      (TG.children v).map (BitVec.ofNat 32) ++ ~~~BitVec.ofNat 32 v :: rest⟩ := by
  rw [buildStep, hwl]
  simp only [slt_zero_enter hv, toNat_enter hv, hseen, Bool.false_eq_true, if_false,
    TypeGraph.children, List.map_reverse]

theorem buildStep_exit {s : BuildState} {v : ℕ} {rest : List (BitVec 32)} (hv : v < 2 ^ 31)
    (hwl : s.workList = ~~~BitVec.ofNat 32 v :: rest) :
    buildStep TG s = { s with
      workList := rest
      transitiveDerivedIndex := Function.update s.transitiveDerivedIndex v
        ((s.transitiveDerivedIndex v).1, toUInt32 s.hierarchy.length) } := by
  rw [buildStep, hwl]
  simp only [slt_zero_exit hv, BitVec.not_not, toNat_enter hv, if_true]

variable (TG) in
/-- The range of a type is that of one of its visits. -/
def InRange (s : BuildState) (t : ℕ) : Prop :=
  ∃ pre seg post, s.hierarchy = pre ++ seg ++ post ∧ Preorder TG.children [t] seg ∧
    s.transitiveDerivedIndex t = (toUInt32 pre.length, toUInt32 (pre ++ seg).length)

theorem InRange.mono {s s' : BuildState} {t : ℕ} {l : List ℕ} (h : InRange TG s t)
    (hh : s'.hierarchy = s.hierarchy ++ l)
    (ht : s'.transitiveDerivedIndex t = s.transitiveDerivedIndex t) : InRange TG s' t := by
  obtain ⟨pre, seg, post, hs, hp, hi⟩ := h
  exact ⟨pre, seg, post ++ l, by rw [hh, hs, List.append_assoc], hp, ht.trans hi⟩

theorem drain_succ {s : BuildState} (h : s.workList ≠ []) (fuel : ℕ) :
    drain TG (fuel + 1) s = drain TG fuel (buildStep TG s) := by
  rw [drain, if_neg h]

/-- What the loop does for the types on top of the work list. -/
structure Drained (TG : TypeGraph) (s s' : BuildState) (rest : List (BitVec 32)) (out : List ℕ) : Prop where
  steps : ∃ n, ∀ fuel, drain TG (n + fuel) s = drain TG fuel s'
  workList : s'.workList = rest
  seen : ∀ c, s'.seen c = false
  hierarchy : s'.hierarchy = s.hierarchy ++ out
  same : ∀ t ∉ out, s'.transitiveDerivedIndex t = s.transitiveDerivedIndex t
  inRange : ∀ t ∈ out, InRange TG s' t

theorem drained_of_preorder (hacyclic : ∀ v, ¬TransGen (fun x y => y ∈ TG.children x) v v)
    {vs out : List ℕ} (h : Preorder TG.children vs out) :
    ∀ (s : BuildState) (rest : List (BitVec 32)), (∀ t ∈ out, t < 2 ^ 31) → (∀ c, s.seen c = false) →
      s.workList = vs.map (BitVec.ofNat 32) ++ rest → ∃ s', Drained TG s s' rest out := by
  induction h with
  | nil =>
    intro s rest _ hseen hwl
    exact ⟨s, ⟨0, fun fuel => by rw [Nat.zero_add]⟩, hwl, hseen, by simp, fun _ _ => rfl, by simp⟩
  | @cons v vs l r hl hr ihl ihr =>
    intro s rest hlt hseen hwl
    have hv : v < 2 ^ 31 := hlt v List.mem_cons_self
    have hl' : ∀ t ∈ l, t < 2 ^ 31 := fun t ht =>
      hlt t (List.mem_cons_of_mem _ (List.mem_append_left _ ht))
    have hr' : ∀ t ∈ r, t < 2 ^ 31 := fun t ht =>
      hlt t (List.mem_cons_of_mem _ (List.mem_append_right _ ht))
    have hvl : v ∉ l := hl.not_mem_of_acyclic (hacyclic v)
    rw [List.map_cons, List.cons_append] at hwl
    -- the visit of `v` starts, the types below `v` follow, and the visit ends
    have henter := @buildStep_enter TG _ _ _ hv (hseen v) hwl
    obtain ⟨s₂, h₂⟩ := ihl (buildStep TG s) (~~~BitVec.ofNat 32 v :: (vs.map (BitVec.ofNat 32) ++ rest))
      hl' (by rw [henter]; exact hseen) (by rw [henter])
    have hexit := @buildStep_exit TG _ _ _ hv h₂.workList
    obtain ⟨s₄, h₄⟩ := ihr (buildStep TG s₂) rest hr' (by rw [hexit]; exact h₂.seen) (by rw [hexit])
    have hh₂ : s₂.hierarchy = s.hierarchy ++ (v :: l) := by
      rw [h₂.hierarchy, henter, List.append_assoc]
      rfl
    have hh₃ : (buildStep TG s₂).hierarchy = s₂.hierarchy := by rw [hexit]
    have henterIdx := congrArg BuildState.transitiveDerivedIndex henter
    have hexitIdx := congrArg BuildState.transitiveDerivedIndex hexit
    dsimp only at henterIdx hexitIdx
    have hindex : (buildStep TG s₂).transitiveDerivedIndex v =
        (toUInt32 s.hierarchy.length, toUInt32 (s.hierarchy ++ (v :: l)).length) := by
      rw [hexitIdx, Function.update_self, h₂.same v hvl, henterIdx, Function.update_self, hh₂]
    have hother : ∀ t ≠ v, (buildStep TG s₂).transitiveDerivedIndex t = s₂.transitiveDerivedIndex t := by
      intro t ht
      rw [hexitIdx, Function.update_of_ne ht]
    have hin : ∀ t ∈ v :: l, InRange TG (buildStep TG s₂) t := by
      intro t ht
      obtain rfl | htl := List.mem_cons.mp ht
      · refine ⟨s.hierarchy, t :: l, [], by rw [hh₃, hh₂, List.append_nil], ?_, hindex⟩
        simpa using Preorder.cons hl Preorder.nil
      · have htv : t ≠ v := fun heq => hvl (heq ▸ htl)
        exact (h₂.inRange t htl).mono (by rw [hh₃, List.append_nil]) (hother t htv)
    refine ⟨s₄, ?_, h₄.workList, h₄.seen, ?_, ?_, ?_⟩
    · obtain ⟨n, hn⟩ := h₂.steps
      obtain ⟨k, hk⟩ := h₄.steps
      refine ⟨n + (k + 1) + 1, fun fuel => ?_⟩
      rw [show n + (k + 1) + 1 + fuel = n + (k + fuel + 1) + 1 by ring, drain_succ (by simp [hwl]), hn,
        drain_succ (by simp [h₂.workList]), hk]
    · rw [h₄.hierarchy, hh₃, hh₂, List.append_assoc, List.cons_append]
    · intro t ht
      simp only [List.mem_cons, List.mem_append, not_or] at ht
      rw [h₄.same t ht.2.2, hother t ht.1, h₂.same t ht.2.1, henterIdx, Function.update_of_ne ht.1]
    · intro t ht
      by_cases htr : t ∈ r
      · exact h₄.inRange t htr
      · have htl : t ∈ v :: l := by
          simp only [List.mem_cons, List.mem_append] at ht ⊢
          tauto
        exact (hin t htl).mono h₄.hierarchy (h₄.same t htr)

theorem drain_of_drained {s s' : BuildState} {out : List ℕ} (h : Drained TG s s' [] out) :
    ∃ n, ∀ fuel ≥ n, drain TG fuel s = some s' := by
  obtain ⟨n, hn⟩ := h.steps
  refine ⟨n, fun fuel hfuel => ?_⟩
  obtain ⟨k, rfl⟩ := Nat.exists_eq_add_of_le hfuel
  rw [hn]
  cases k <;> simp [drain, h.workList]

/-- The loop over the roots. -/
theorem exists_foldlM_drain (hacyclic : ∀ v, ¬TransGen (fun x y => y ∈ TG.children x) v v) {roots out : List ℕ}
    (h : Preorder TG.children roots out) :
    ∀ s : BuildState, (∀ t ∈ out, t < 2 ^ 31) → (∀ c, s.seen c = false) → ∃ s', (∃ n, ∀ fuel ≥ n,
      roots.foldlM (fun s rt => drain TG fuel { s with workList := [BitVec.ofNat 32 rt] }) s = some s') ∧
      s'.hierarchy = s.hierarchy ++ out ∧
      (∀ t ∉ out, s'.transitiveDerivedIndex t = s.transitiveDerivedIndex t) ∧ ∀ t ∈ out, InRange TG s' t := by
  induction roots generalizing out with
  | nil =>
    intro s _ _
    cases h
    exact ⟨s, ⟨0, fun _ _ => rfl⟩, by simp, fun _ _ => rfl, by simp⟩
  | cons v vs ih =>
    intro s hlt hseen
    cases h with
    | @cons _ _ l r hl hr =>
      have hv : Preorder TG.children [v] (v :: l) := by simpa using Preorder.cons hl .nil
      have hlt' : (∀ t ∈ v :: l, t < 2 ^ 31) ∧ ∀ t ∈ r, t < 2 ^ 31 :=
        ⟨fun t ht => hlt t (by simp only [List.mem_cons, List.mem_append] at ht ⊢; tauto),
          fun t ht => hlt t (by simp [ht])⟩
      obtain ⟨s₁, h₁⟩ := drained_of_preorder hacyclic hv { s with workList := [BitVec.ofNat 32 v] } []
        hlt'.1 hseen rfl
      obtain ⟨n, hn⟩ := drain_of_drained h₁
      obtain ⟨s₂, ⟨k, hk⟩, hh, hsame, hin⟩ := ih hr s₁ hlt'.2 h₁.seen
      refine ⟨s₂, ⟨max n k, fun fuel hfuel => ?_⟩, ?_, fun t ht => ?_, fun t ht => ?_⟩
      · rw [List.foldlM_cons, hn fuel (le_of_max_le_left hfuel), Option.bind_eq_bind, Option.bind_some]
        exact hk fuel (le_of_max_le_right hfuel)
      · rw [hh, h₁.hierarchy, List.append_assoc, List.cons_append]
      · have hnot : t ∉ v :: l ∧ t ∉ r := by
          simp only [List.mem_cons, List.mem_append] at ht ⊢
          tauto
        rw [hsame t hnot.2, h₁.same t hnot.1]
      · by_cases htr : t ∈ r
        · exact hin t htr
        · have htl : t ∈ v :: l := by
            simp only [List.mem_cons, List.mem_append] at ht ⊢
            tauto
          exact (h₁.inRange t htl).mono hh (hsame t htr)

end Loop

/-! ### The inheritance graph -/

section Graph

variable {T : Type*} [DecidableEq T]

/-- A type has another one, or a typedef of it, as a base. -/
def Derives (I : DebugInfo T) (s t : T) : Prop := ∃ base ∈ I.inheritance s, base.strip = t

theorem nodup_vertexTypes (I : DebugInfo T) : (vertexTypes I).Nodup := by
  have hfold : ∀ (l vt : List T), vt.Nodup →
      (l.foldl (fun vt t => if isClassType I t && t ∉ vt then vt ++ [t] else vt) vt).Nodup := by
    intro l
    induction l with
    | nil => exact fun _ h => h
    | cons t l ih =>
      intro vt h
      refine ih _ ?_
      dsimp only
      split_ifs with hc
      · simp only [Bool.and_eq_true, decide_eq_true_eq] at hc
        have hconcat := List.Nodup.concat hc.2 h
        rwa [List.concat_eq_append] at hconcat
      · exact h
  exact hfold _ _ List.nodup_nil

theorem foldl_addInheritance (vt : List T) (d : ℕ) (bases : List (BaseType T)) (TG : TypeGraph) :
    (∀ b c, c ∈ (bases.foldl (addInheritance vt d) TG).derivedTypesOf b ↔
      c ∈ TG.derivedTypesOf b ∨ c = d ∧ ∃ base ∈ bases, toVertex vt base.strip = b) ∧
    ∀ c, (bases.foldl (addInheritance vt d) TG).roots c = true ↔
      TG.roots c = true ∧ (c = d → bases = []) := by
  induction bases generalizing TG with
  | nil => simp
  | cons base bases ih =>
    obtain ⟨ihd, ihr⟩ := ih (addInheritance vt d TG base)
    constructor
    · intro b c
      rw [List.foldl_cons, ihd]
      simp only [addInheritance, List.mem_cons, exists_eq_or_imp]
      by_cases hb : toVertex vt base.strip = b
      · subst hb
        simp only [Function.update_self, List.mem_append, List.mem_singleton]
        tauto
      · rw [Function.update_of_ne (Ne.symm hb)]
        tauto
    · intro c
      rw [List.foldl_cons, ihr]
      simp only [addInheritance]
      by_cases hc : c = d
      · subst hc
        simp
      · simp [hc]

theorem buildTypeGraph_spec (I : DebugInfo T) (vt : List T) :
    (∀ b c, c ∈ (buildTypeGraph I vt).derivedTypesOf b ↔
      ∃ t ∈ vt, c = toVertex vt t ∧ ∃ base ∈ I.inheritance t, toVertex vt base.strip = b) ∧
    ∀ c, (buildTypeGraph I vt).roots c = true ↔ ∀ t ∈ vt, c = toVertex vt t → I.inheritance t = [] := by
  have hfold : ∀ (l : List T) (TG : TypeGraph),
      (∀ b c, c ∈ (l.foldl (fun TG t =>
          (I.inheritance t).foldl (addInheritance vt (toVertex vt t)) TG) TG).derivedTypesOf b ↔
        c ∈ TG.derivedTypesOf b ∨
          ∃ t ∈ l, c = toVertex vt t ∧ ∃ base ∈ I.inheritance t, toVertex vt base.strip = b) ∧
      ∀ c, (l.foldl (fun TG t =>
          (I.inheritance t).foldl (addInheritance vt (toVertex vt t)) TG) TG).roots c = true ↔
        TG.roots c = true ∧ ∀ t ∈ l, c = toVertex vt t → I.inheritance t = [] := by
    intro l
    induction l with
    | nil => simp
    | cons t l ih =>
      intro TG
      obtain ⟨ihd, ihr⟩ := ih ((I.inheritance t).foldl (addInheritance vt (toVertex vt t)) TG)
      obtain ⟨hd, hr⟩ := foldl_addInheritance vt (toVertex vt t) (I.inheritance t) TG
      constructor
      · intro b c
        rw [List.foldl_cons, ihd, hd, or_assoc]
        simp only [List.mem_cons, exists_eq_or_imp]
      · intro c
        rw [List.foldl_cons, ihr, hr, and_assoc]
        simp only [List.mem_cons, forall_eq_or_imp]
  obtain ⟨hd, hr⟩ := hfold vt ⟨fun _ => true, fun _ => []⟩
  rw [buildTypeGraph]
  exact ⟨fun b c => by simpa using hd b c, fun c => by simpa using hr c⟩

variable {I : DebugInfo T} {vt : List T}

theorem toVertex_of_mem {t : T} (ht : t ∈ vt) : toVertex vt t = vt.idxOf t := if_pos ht

theorem toVertex_inj {s t : T} (hs : s ∈ vt) (ht : t ∈ vt) (h : toVertex vt s = toVertex vt t) : s = t := by
  rw [toVertex_of_mem hs, toVertex_of_mem ht] at h
  exact (List.idxOf_inj hs).mp h

theorem getElem?_toVertex {t : T} (ht : t ∈ vt) : vt[toVertex vt t]? = some t := by
  rw [toVertex_of_mem ht]
  exact List.getElem?_idxOf ht

theorem mem_children_iff {b c : ℕ} : c ∈ (buildTypeGraph I vt).children b ↔
    ∃ t ∈ vt, c = toVertex vt t ∧ ∃ base ∈ I.inheritance t, toVertex vt base.strip = b := by
  rw [TypeGraph.children, List.mem_reverse, (buildTypeGraph_spec I vt).1]

/-- All bases are among the types. -/
def BasesKnown (I : DebugInfo T) (vt : List T) : Prop :=
  ∀ t ∈ vt, ∀ base ∈ I.inheritance t, base.strip ∈ vt

/-- The paths of the graph are those of the types. -/
theorem reflTransGen_children_iff (hbases : BasesKnown I vt) {s t : T} (hs : s ∈ vt) (ht : t ∈ vt) :
    ReflTransGen (fun x y => y ∈ (buildTypeGraph I vt).children x) (toVertex vt t) (toVertex vt s) ↔
      ReflTransGen (Derives I) s t := by
  constructor
  · intro h
    obtain ⟨i, hi⟩ : ∃ i, i = toVertex vt s := ⟨_, rfl⟩
    rw [← hi] at h
    induction h generalizing s with
    | refl =>
      rw [toVertex_inj ht hs hi]
    | tail _ hstep ih =>
      obtain ⟨s', hs', hi', base, hbase, hb⟩ := mem_children_iff.mp hstep
      obtain rfl : s = s' := toVertex_inj hs hs' (hi.symm.trans hi')
      exact .head ⟨base, hbase, rfl⟩ (ih (hbases s hs base hbase) hb.symm)
  · intro h
    induction h using ReflTransGen.head_induction_on with
    | refl => exact .refl
    | @head s u hsu _ ih =>
      obtain ⟨base, hbase, rfl⟩ := hsu
      have hu := hbases s hs base hbase
      exact (ih hu).tail (mem_children_iff.mpr ⟨s, hs, rfl, base, hbase, rfl⟩)

theorem transGen_derives_of_children (hbases : BasesKnown I vt) {v w : ℕ}
    (h : TransGen (fun x y => y ∈ (buildTypeGraph I vt).children x) v w) :
    ∃ t ∈ vt, ∃ s ∈ vt, toVertex vt t = v ∧ toVertex vt s = w ∧ TransGen (Derives I) s t := by
  induction h with
  | single hstep =>
    obtain ⟨s, hs, rfl, base, hbase, rfl⟩ := mem_children_iff.mp hstep
    exact ⟨base.strip, hbases s hs base hbase, s, hs, rfl, rfl, .single ⟨base, hbase, rfl⟩⟩
  | tail _ hstep ih =>
    obtain ⟨t, ht, u, hu, rfl, huw, hr⟩ := ih
    obtain ⟨s, hs, rfl, base, hbase, hb⟩ := mem_children_iff.mp hstep
    obtain rfl : base.strip = u := toVertex_inj (hbases s hs base hbase) hu (hb.trans huw.symm)
    exact ⟨t, ht, s, hs, rfl, rfl, .head ⟨base, hbase, rfl⟩ hr⟩

theorem acyclic_children (hbases : BasesKnown I vt) (hacyclic : ∀ t, ¬TransGen (Derives I) t t) (v : ℕ) :
    ¬TransGen (fun x y => y ∈ (buildTypeGraph I vt).children x) v v := by
  intro h
  obtain ⟨t, ht, s, hs, rfl, hst, hr⟩ := transGen_derives_of_children hbases h
  obtain rfl := toVertex_inj hs ht hst
  exact hacyclic _ hr

/-- Every type is below a root. -/
theorem exists_root (hbases : BasesKnown I vt) (hacyclic : ∀ t, ¬TransGen (Derives I) t t) {t : T}
    (ht : t ∈ vt) : ∃ r ∈ (List.range vt.length).filter (buildTypeGraph I vt).roots,
      ReflTransGen (fun x y => y ∈ (buildTypeGraph I vt).children x) r (toVertex vt t) := by
  have hwf : WellFounded fun b t => b ∈ ((I.inheritance t).map BaseType.strip).filter (· ∈ vt) := by
    refine wellFounded_of_acyclic vt.toFinset (fun t b hb => ?_) fun t h => hacyclic t ?_
    · exact List.mem_toFinset.mpr (by simpa using (List.mem_filter.mp hb).2)
    · refine TransGen.mono (fun s b hb => ?_) t t h
      obtain ⟨base, hbase, rfl⟩ := List.mem_map.mp (List.mem_filter.mp hb).1
      exact ⟨base, hbase, rfl⟩
  induction t using hwf.induction with
  | _ t ih =>
    by_cases hroot : (buildTypeGraph I vt).roots (toVertex vt t) = true
    · refine ⟨_, List.mem_filter.mpr ⟨List.mem_range.mpr ?_, hroot⟩, .refl⟩
      rw [toVertex_of_mem ht]
      exact List.idxOf_lt_length_of_mem ht
    · rw [(buildTypeGraph_spec I vt).2] at hroot
      push Not at hroot
      obtain ⟨t', ht', heq, hne⟩ := hroot
      obtain rfl := toVertex_inj ht ht' heq
      obtain ⟨base, hbase⟩ := List.exists_mem_of_ne_nil _ hne
      have hb := hbases t ht base hbase
      have hmem : base.strip ∈ ((I.inheritance t).map BaseType.strip).filter (· ∈ vt) :=
        List.mem_filter.mpr ⟨List.mem_map_of_mem hbase, by simpa using hb⟩
      obtain ⟨r, hr, hpath⟩ := ih _ hmem hb
      exact ⟨r, hr, hpath.tail (mem_children_iff.mpr ⟨t, ht, rfl, base, hbase, rfl⟩)⟩

omit [DecidableEq T] in
/-- The types of a range. -/
theorem filterMap_getElem? {l : List ℕ} (hl : ∀ i ∈ l, i < vt.length) :
    (l.filterMap (vt[·]?)).length = l.length := by
  induction l with
  | nil => rfl
  | cons i l ih =>
    obtain ⟨hi, hl⟩ := List.forall_mem_cons.mp hl
    rw [List.filterMap_cons_some (List.getElem?_eq_getElem hi), List.length_cons, ih hl, List.length_cons]

theorem toUInt32_of_lt {n : ℕ} (h : n < 2 ^ 32) : toUInt32 n = n := Nat.mod_eq_of_lt h

/-- What the range of a type holds. -/
theorem subTypesOf_of_inRange {s : BuildState} {TG : TypeGraph} {t : T} (ht : t ∈ vt)
    (hlt : ∀ i ∈ s.hierarchy, i < vt.length) (hlen : s.hierarchy.length < 2 ^ 32)
    (h : InRange TG s (toVertex vt t)) :
    ∃ seg, Preorder TG.children [toVertex vt t] seg ∧
      (TypeHierarchy.mk vt ((List.range vt.length).map s.transitiveDerivedIndex)
        (s.hierarchy.filterMap (vt[·]?))).subTypesOf t = seg.filterMap (vt[·]?) := by
  obtain ⟨pre, seg, post, hh, hp, hi⟩ := h
  refine ⟨seg, hp, ?_⟩
  rw [hh] at hlt hlen
  simp only [List.length_append] at hlen
  have hpre : (pre.filterMap (vt[·]?)).length = pre.length := filterMap_getElem? fun i hi =>
    hlt i (List.mem_append_left _ (List.mem_append_left _ hi))
  have hseg : (seg.filterMap (vt[·]?)).length = seg.length := filterMap_getElem? fun i hi =>
    hlt i (List.mem_append_left _ (List.mem_append_right _ hi))
  have hidx : ((List.range vt.length).map s.transitiveDerivedIndex)[vt.idxOf t]? =
      some (pre.length, pre.length + seg.length) := by
    rw [List.getElem?_map, List.getElem?_range (List.idxOf_lt_length_of_mem ht), Option.map_some,
      ← toVertex_of_mem ht, hi, List.length_append, toUInt32_of_lt (by omega), toUInt32_of_lt (by omega)]
  rw [TypeHierarchy.subTypesOf, if_pos ht, TypeHierarchy.subTypesOfIdx]
  dsimp only
  rw [hidx]
  dsimp only
  rw [hh, List.filterMap_append, List.filterMap_append, List.append_assoc, List.drop_left' hpre,
    Nat.add_sub_cancel_left, List.take_left' hseg]

/-- The types below the roots, in the order of the loop, once for each inheritance path from a root. -/
def Unfolds (I : DebugInfo T) (l : List ℕ) : Prop :=
  Preorder (buildTypeGraph I (vertexTypes I)).children
    ((List.range (vertexTypes I).length).filter (buildTypeGraph I (vertexTypes I)).roots) l

/-- The hierarchy is built, with a range for each type. -/
theorem exists_buildTypeHierarchy (I : DebugInfo T) (hacyclic : ∀ t, ¬TransGen (Derives I) t t)
    (hbases : BasesKnown I (vertexTypes I)) (htypes : (vertexTypes I).length ≤ 2 ^ 31) :
    ∃ s, (∃ n, ∀ fuel ≥ n, buildTypeHierarchy (buildTypeGraph I (vertexTypes I)) (vertexTypes I).length fuel =
        some s) ∧ Unfolds I s.hierarchy ∧ (∀ i ∈ s.hierarchy, i < (vertexTypes I).length) ∧
      ∀ t ∈ vertexTypes I, InRange (buildTypeGraph I (vertexTypes I)) s (toVertex (vertexTypes I) t) := by
  have hacyclic' := acyclic_children hbases hacyclic
  have hindex : ∀ b, ∀ c ∈ (buildTypeGraph I (vertexTypes I)).children b, c < (vertexTypes I).length := by
    intro b c hc
    obtain ⟨t, ht, rfl, -⟩ := mem_children_iff.mp hc
    rw [toVertex_of_mem ht]
    exact List.idxOf_lt_length_of_mem ht
  have hwf := wellFounded_of_acyclic (Finset.range (vertexTypes I).length)
    (fun b c hc => Finset.mem_range.mpr (hindex b c hc)) hacyclic'
  obtain ⟨out, hout⟩ := exists_preorder hwf
    ((List.range (vertexTypes I).length).filter (buildTypeGraph I (vertexTypes I)).roots)
  have hlt : ∀ i ∈ out, i < (vertexTypes I).length := by
    intro i hi
    obtain ⟨r, hr, hpath⟩ := hout.mem_iff.mp hi
    obtain rfl | ⟨b, -, hb⟩ := hpath.cases_tail
    · exact List.mem_range.mp (List.mem_filter.mp hr).1
    · exact hindex b i hb
  obtain ⟨s, hfuel, hh, -, hin⟩ := exists_foldlM_drain hacyclic' hout
    ⟨fun _ => (0, 0), [], fun _ => false, []⟩ (fun i hi => (hlt i hi).trans_le htypes) fun _ => rfl
  rw [List.nil_append] at hh
  refine ⟨s, hfuel, hh ▸ hout, hh ▸ hlt, fun t ht => hin _ ?_⟩
  obtain ⟨r, hr, hpath⟩ := exists_root hbases hacyclic ht
  exact hout.mem_iff.mpr ⟨r, hr, hpath⟩

theorem build_eq {fuel : ℕ} {s : BuildState}
    (h : buildTypeHierarchy (buildTypeGraph I (vertexTypes I)) (vertexTypes I).length fuel = some s) :
    build I fuel = some ⟨vertexTypes I, (List.range (vertexTypes I).length).map s.transitiveDerivedIndex,
      s.hierarchy.filterMap ((vertexTypes I)[·]?)⟩ :=
  congrArg (Option.map _) h

/-- The hierarchy is built, and the range of a type has exactly the types derived from it, if all bases are
known and the number of inheritance paths can be stored with 32 bits. -/
theorem subTypesOf_iff (I : DebugInfo T) (hacyclic : ∀ t, ¬TransGen (Derives I) t t)
    (hbases : BasesKnown I (vertexTypes I)) (htypes : (vertexTypes I).length ≤ 2 ^ 31)
    (hpaths : ∀ l, Unfolds I l → l.length < 2 ^ 32) :
    ∃ fuel₀, ∀ fuel ≥ fuel₀, ∃ th, build I fuel = some th ∧ th.vertexTypes = vertexTypes I ∧
      ∀ s ∈ vertexTypes I, ∀ t ∈ vertexTypes I, s ∈ th.subTypesOf t ↔ ReflTransGen (Derives I) s t := by
  obtain ⟨s, ⟨n, hn⟩, hout, hlt, hin⟩ := exists_buildTypeHierarchy I hacyclic hbases htypes
  refine ⟨n, fun fuel hfuel => ⟨_, build_eq (hn fuel hfuel), rfl, fun u hu t ht => ?_⟩⟩
  obtain ⟨seg, hseg, hsub⟩ := subTypesOf_of_inRange ht hlt (hpaths _ hout) (hin t ht)
  rw [hsub, ← reflTransGen_children_iff hbases hu ht, List.mem_filterMap]
  constructor
  · rintro ⟨i, hi, hiu⟩
    obtain ⟨v, hv, hpath⟩ := hseg.mem_iff.mp hi
    obtain rfl := List.mem_singleton.mp hv
    obtain ⟨hlt, heq⟩ := List.getElem?_eq_some_iff.mp hiu
    rwa [toVertex_of_mem hu, ← heq, (nodup_vertexTypes I).idxOf_getElem]
  · intro hpath
    exact ⟨toVertex (vertexTypes I) u, hseg.mem_iff.mpr ⟨_, List.mem_singleton_self _, hpath⟩,
      getElem?_toVertex hu⟩

end Graph

/-! ### Examples -/

/-- `n` classes, each of them derived from the ones that `bases` lists. -/
def classes (n : ℕ) (bases : ℕ → List ℕ) : DebugInfo ℕ where
  types := List.range n
  isComposite _ := true
  tag _ := .classType
  identifier _ := "C"
  name _ := "C"
  inheritance t := (bases t).map .type

theorem not_transGen_derives {n : ℕ} {bases : ℕ → List ℕ} (h : ∀ t, ∀ b ∈ bases t, b < t) (t : ℕ) :
    ¬TransGen (Derives (classes n bases)) t t := by
  have hlt : ∀ {s u : ℕ}, TransGen (Derives (classes n bases)) s u → u < s := by
    intro s u hsu
    have hstep : ∀ {s u : ℕ}, Derives (classes n bases) s u → u < s := by
      rintro s u ⟨base, hbase, rfl⟩
      obtain ⟨b, hb, rfl⟩ := List.mem_map.mp hbase
      exact h s b hb
    induction hsu with
    | single hs => exact hstep hs
    | tail _ hs ih => exact (hstep hs).trans ih
  exact fun ht => lt_irrefl t (hlt ht)

/-- Class 1 is derived from class 0. -/
theorem subTypesOf_single : ∃ fuel₀, ∀ fuel ≥ fuel₀, ∃ th,
    build (classes 2 fun t => if t = 1 then [0] else []) fuel = some th ∧
    th.vertexTypes = vertexTypes (classes 2 fun t => if t = 1 then [0] else []) ∧
      ∀ s ∈ vertexTypes (classes 2 fun t => if t = 1 then [0] else []),
      ∀ t ∈ vertexTypes (classes 2 fun t => if t = 1 then [0] else []), s ∈ th.subTypesOf t ↔
        ReflTransGen (Derives (classes 2 fun t => if t = 1 then [0] else [])) s t := by
  have hvt : vertexTypes (classes 2 fun t => if t = 1 then [0] else []) = [0, 1] := by decide
  have h0 : (buildTypeGraph (classes 2 fun t => if t = 1 then [0] else []) [0, 1]).children 0 = [1] := by
    decide
  have h1 : (buildTypeGraph (classes 2 fun t => if t = 1 then [0] else []) [0, 1]).children 1 = [] := by
    decide
  refine subTypesOf_iff _ (fun t => not_transGen_derives (fun t b hb => ?_) t) ?_ ?_ fun l hl => ?_
  · split_ifs at hb with ht
    · simp_all
    · cases hb
  · rw [hvt]
    intro t ht base hbase
    obtain ⟨b, hb, rfl⟩ := List.mem_map.mp hbase
    dsimp only at hb
    split_ifs at hb
    · simp_all [BaseType.strip]
    · cases hb
  · rw [hvt]
    decide
  · have hpre : Unfolds (classes 2 fun t => if t = 1 then [0] else []) [0, 1] := by
      rw [Unfolds, hvt]
      refine Preorder.cons (l := [1]) (r := []) ?_ .nil
      rw [h0]
      refine Preorder.cons (l := []) (r := []) ?_ .nil
      rw [h1]
      exact .nil
    rw [hl.unique hpre]
    decide

/-- Each of 33 classes is derived from all earlier ones. -/
def tower : DebugInfo ℕ := classes 33 List.range

theorem vertexTypes_tower : vertexTypes tower = List.range 33 := by decide +kernel

theorem children_tower : ∀ v < 33,
    (buildTypeGraph tower (List.range 33)).children v = (List.range' (v + 1) (32 - v)).reverse := by
  decide +kernel

theorem sum_children_tower : ∀ v < 33,
    1 + (((buildTypeGraph tower (List.range 33)).children v).map fun c => 2 ^ (32 - c)).sum =
      2 ^ (32 - v) := by
  decide +kernel

theorem length_preorder_tower {vs l : List ℕ}
    (h : Preorder (buildTypeGraph tower (List.range 33)).children vs l) :
    (∀ v ∈ vs, v < 33) → l.length = (vs.map fun v => 2 ^ (32 - v)).sum := by
  induction h with
  | nil => simp
  | @cons v vs l r _ _ ihl ihr =>
    intro hvs
    obtain ⟨hv, hvs⟩ := List.forall_mem_cons.mp hvs
    have hchildren : ∀ c ∈ (buildTypeGraph tower (List.range 33)).children v, c < 33 := by
      intro c hc
      rw [children_tower v hv, List.mem_reverse, List.mem_range'_1] at hc
      omega
    rw [List.length_cons, List.length_append, ihl hchildren, ihr hvs, List.map_cons, List.sum_cons,
      ← sum_children_tower v hv]
    omega

theorem subTypesOf_eq_nil {T : Type*} [DecidableEq T] {th : TypeHierarchy T} {t : T}
    (h : th.transitiveDerivedIndex[th.vertexTypes.idxOf t]? = some (0, 0)) : th.subTypesOf t = [] := by
  rw [TypeHierarchy.subTypesOf, TypeHierarchy.subTypesOfIdx, h]
  simp

/-- The range of the first class has `2 ^ 32` elements and is stored as the empty one. -/
theorem subTypesOf_tower : (∀ t, ¬TransGen (Derives tower) t t) ∧ BasesKnown tower (vertexTypes tower) ∧
    0 ∈ vertexTypes tower ∧ ∃ fuel₀, ∀ fuel ≥ fuel₀, ∃ th, build tower fuel = some th ∧
      th.subTypesOf 0 = [] := by
  have hacyclic : ∀ t, ¬TransGen (Derives tower) t t :=
    not_transGen_derives fun t b hb => List.mem_range.mp hb
  have hbases : BasesKnown tower (vertexTypes tower) := by
    rw [vertexTypes_tower]
    intro t ht base hbase
    obtain ⟨b, hb, rfl⟩ := List.mem_map.mp hbase
    exact List.mem_range.mpr ((List.mem_range.mp hb).trans (List.mem_range.mp ht))
  have hmem : 0 ∈ vertexTypes tower := by
    rw [vertexTypes_tower]
    decide
  have htypes : (vertexTypes tower).length ≤ 2 ^ 31 := by
    rw [vertexTypes_tower]
    decide
  refine ⟨hacyclic, hbases, hmem, ?_⟩
  obtain ⟨s, ⟨n, hn⟩, hout, -, hin⟩ := exists_buildTypeHierarchy tower hacyclic hbases htypes
  obtain ⟨pre, seg, post, hh, hseg, hidx⟩ := hin 0 hmem
  rw [toVertex_of_mem hmem] at hseg hidx
  rw [Unfolds] at hout
  rw [vertexTypes_tower] at hout hseg hidx
  have hroots : (List.range (List.range 33).length).filter (buildTypeGraph tower (List.range 33)).roots =
      [0] := by decide +kernel
  have hzero : (List.range 33).idxOf 0 = 0 := by decide
  rw [hroots] at hout
  rw [hzero] at hseg hidx
  -- the whole vector is one visit of the first class
  obtain rfl : seg = s.hierarchy := hseg.unique hout
  have hlen := congrArg List.length hh
  simp only [List.length_append] at hlen
  have hpre : pre = [] := List.length_eq_zero_iff.mp (by omega)
  have hsize : s.hierarchy.length = 2 ^ 32 := by
    rw [length_preorder_tower hout (by simp), List.map_singleton, List.sum_singleton]
  rw [hpre, List.nil_append, hsize] at hidx
  refine ⟨n, fun fuel hfuel => ⟨_, build_eq (hn fuel hfuel), subTypesOf_eq_nil ?_⟩⟩
  dsimp only
  rw [vertexTypes_tower, hzero, List.getElem?_map, List.getElem?_range (by simp), Option.map_some, hidx]
  rfl

end Phasar.DIBasedTypeHierarchy
