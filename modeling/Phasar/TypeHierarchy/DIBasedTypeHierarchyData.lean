import Phasar.Lib.Json
import Phasar.TypeHierarchy.DIBasedTypeHierarchy
import Mathlib.Data.List.GetD

/-!
# Serialised type hierarchies

The types of a hierarchy are written with their type names and its linearisation with the plain names.
An empty slot of a vtable is written as a marker.

* `buildVTables`, `construct`, `getTypeHierarchyData`, `printAsJson`, `getDataFromJson`, `load`;
* `restores_iff`: when a hierarchy is restored;
* `not_restores`: two classes of one simple name, and an empty slot.
-/

namespace Phasar.DIBasedTypeHierarchy

/-! ### VTables -/

/-- The functions of a module by name. -/
structure FunctionTable (F : Type*) where
  getFunction : String → Option F
  getName : F → String
  getName_getFunction : ∀ {n f}, getFunction n = some f → getName f = n

/-- A subprogram of the debug information; `scope` is there if it is a type. -/
structure DISubprogram (T : Type*) where
  virtuality : Bool
  virtualIndex : ℕ
  scope : Option T
  linkageName : String

section VTables

variable {T F : Type*} [DecidableEq T]

/-- `Fun` in the slot `VIdx` of a vtable. -/
def setSlot (vtable : List (Option F)) (vIdx : ℕ) (f : F) : List (Option F) :=
  if vtable.length = vIdx then vtable ++ [some f]
  else if vtable.length < vIdx then
    (vtable ++ List.replicate (vIdx + 1 - vtable.length) none).set vIdx (some f)
  else vtable.set vIdx (some f)

/-- The loop body of `buildVTables`. -/
def addSubprogram (M : FunctionTable F) (vt : List T) (VT : List (List (Option F))) (fn : DISubprogram T) :
    List (List (Option F)) :=
  if fn.virtuality then
    match fn.scope with
    | none => VT
    | some parent =>
      if parent ∈ vt then
        match M.getFunction fn.linkageName with
        | none => VT
        | some f => VT.modify (vt.idxOf parent) (setSlot · fn.virtualIndex f)
      else VT
  else VT

def buildVTables (M : FunctionTable F) (vt : List T) (subprograms : List (DISubprogram T)) :
    List (List (Option F)) :=
  subprograms.foldl (addSubprogram M vt) (List.replicate vt.length [])

/-- The tables of a hierarchy with its vtables. -/
structure VTypeHierarchy (T F : Type*) extends TypeHierarchy T where
  vtables : List (List (Option F))

/-- The constructor. -/
def construct (I : DebugInfo T) (M : FunctionTable F) (subprograms : List (DISubprogram T)) (fuel : ℕ) :
    Option (VTypeHierarchy T F) :=
  (build I fuel).map fun th => ⟨th, buildVTables M (vertexTypes I) subprograms⟩

/-- `LLVMVFTable::getFunction`. -/
def getFunction (vtable : List (Option F)) (idx : ℕ) : Option F := vtable[idx]?.join

end VTables

/-! ### The data -/

section Data

variable {T F : Type*}

/-- `DIBasedTypeHierarchyData`. -/
structure DIBasedTypeHierarchyData where
  vertexTypes : List String
  transitiveDerivedIndex : List (ℕ × ℕ)
  hierarchy : List String
  vtables : List (List String)

/-- `NullFunName`. -/
def nullFunName : String := "__null__"

/-- `getTypeName`. -/
def typeName (I : DebugInfo T) (t : T) : String :=
  if I.isComposite t then getCompositeTypeName I t else I.name t

def slotName (M : FunctionTable F) : Option F → String
  | some f => M.getName f
  | none => nullFunName

def getTypeHierarchyData (I : DebugInfo T) (M : FunctionTable F) (th : VTypeHierarchy T F) :
    DIBasedTypeHierarchyData where
  vertexTypes := th.vertexTypes.map (typeName I)
  transitiveDerivedIndex := th.transitiveDerivedIndex
  hierarchy := th.hierarchy.map I.name
  vtables := th.vtables.map (·.map (slotName M))

def printAsJson (data : DIBasedTypeHierarchyData) : Json :=
  .object [("VertexTypes", .array (data.vertexTypes.map .string)),
    ("TransitiveDerivedIndex",
      .array (data.transitiveDerivedIndex.map fun (a, b) => .array [.number a, .number b])),
    ("Hierarchy", .array (data.hierarchy.map .string)),
    ("VTables", .ofElems (data.vtables.map fun vtable => .ofElems (vtable.map .string)))]

def getDataFromJson (json : Json) : Option DIBasedTypeHierarchyData := do
  let vertexTypes ← (← json.get? "VertexTypes").getArray? Json.getString?
  let index ← (← json.get? "TransitiveDerivedIndex").getArray?
    (Json.getPair? Json.getUInt32? Json.getUInt32?)
  let hierarchy ← (← json.get? "Hierarchy").getArray? Json.getString?
  let vtables ← (← json.get? "VTables").elems.mapM fun vtable => vtable.elems.mapM Json.getString?
  return ⟨vertexTypes, index, hierarchy, vtables⟩

/-- The loop of `stringToDICompositeType`; `none` stands for the fatal error. -/
def findComposite (I : DebugInfo T) (diTypeName : String) : List T → Option T → Bool → Option T
  | [], byName, hasUniqueByName => if hasUniqueByName then byName else none
  | t :: types, byName, hasUniqueByName =>
    if I.isComposite t then
      if I.identifier t = diTypeName then some t
      else if I.name t = diTypeName then findComposite I diTypeName types (some t) byName.isNone
      else findComposite I diTypeName types byName hasUniqueByName
    else findComposite I diTypeName types byName hasUniqueByName

def stringToDICompositeType (I : DebugInfo T) (diTypeName : String) : Option T :=
  findComposite I diTypeName I.types none false

def stringToDIType (I : DebugInfo T) (diTypeName : String) : Option T :=
  I.types.find? (I.name · = diTypeName)

/-- The slots read for a function name. -/
def readSlot (M : FunctionTable F) (funcName : String) : List (Option F) :=
  (if funcName = nullFunName then [none] else []) ++ [M.getFunction funcName]

/-- The deserialising constructor. -/
def load (I : DebugInfo T) (M : FunctionTable F) (data : DIBasedTypeHierarchyData) :
    Option (VTypeHierarchy T F) :=
  (data.vertexTypes.mapM (stringToDICompositeType I)).bind fun vertexTypes =>
    (data.hierarchy.mapM (stringToDIType I)).map fun hierarchy =>
      ⟨⟨vertexTypes, data.transitiveDerivedIndex, hierarchy⟩, data.vtables.map (·.flatMap (readSlot M))⟩

end Data

/-! ### Reading and writing -/

section Json

/-- The numbers of a range are stored with 32 bits. -/
theorem getDataFromJson_printAsJson {data : DIBasedTypeHierarchyData}
    (h : ∀ p ∈ data.transitiveDerivedIndex, p.1 < 2 ^ 32 ∧ p.2 < 2 ^ 32) :
    getDataFromJson (printAsJson data) = some data := by
  have hstrings : ∀ l : List String, Json.getArray? Json.getString? (.array (l.map .string)) = some l :=
    fun l => Json.getArray?_map fun _ _ => rfl
  have hindex : Json.getArray? (Json.getPair? Json.getUInt32? Json.getUInt32?)
      (.array (data.transitiveDerivedIndex.map fun (a, b) => .array [.number a, .number b])) =
      some data.transitiveDerivedIndex := by
    refine Json.getArray?_map fun p hp => ?_
    simp only [Json.getPair?, Json.getUInt32?, Option.bind_some, Option.map_some,
      Nat.mod_eq_of_lt (h p hp).1, Nat.mod_eq_of_lt (h p hp).2]
  have hvtables : (Json.ofElems (data.vtables.map fun vtable => .ofElems (vtable.map .string))).elems.mapM
      (fun vtable => vtable.elems.mapM Json.getString?) = some data.vtables := by
    rw [Json.elems_ofElems, Json.mapM_map_eq_some_iff]
    intro vtable _
    rw [Json.elems_ofElems, Json.mapM_map_eq_some_iff]
    exact fun _ _ => rfl
  simp only [getDataFromJson, printAsJson, Json.get?, List.lookup_cons, hstrings, hindex, hvtables,
    Option.bind_eq_bind, Option.bind_some, beq_self_eq_true, String.reduceBEq, Option.pure_def]

end Json

/-! ### Names of types -/

section Names

variable {T : Type*} [DecidableEq T] {I : DebugInfo T}

/-- A type without an identifier is the only composite type with its name. One with an identifier comes
before the other composite types with its identifier. -/
def FoundByTypeName (I : DebugInfo T) (t : T) : Prop :=
  if I.identifier t = "" then
    I.types.filter (fun u => I.isComposite u && (I.identifier u = I.name t || I.name u = I.name t)) = [t]
  else ∀ u ∈ I.types.takeWhile (· ≠ t), I.isComposite u → I.identifier u ≠ I.identifier t

omit [DecidableEq T] in
theorem findComposite_identifier (I : DebugInfo T) (n : String) (l : List T) (byName : Option T)
    (unique : Bool) (h : ∃ u ∈ l, I.isComposite u ∧ I.identifier u = n) :
    findComposite I n l byName unique = l.find? fun u => I.isComposite u && I.identifier u = n := by
  induction l generalizing byName unique with
  | nil => simp at h
  | cons u l ih =>
    rw [findComposite]
    by_cases hc : I.isComposite u = true
    · by_cases hu : I.identifier u = n
      · simp [hc, hu]
      · have hl : ∃ u ∈ l, I.isComposite u ∧ I.identifier u = n := by simpa [hu] using h
        rw [if_pos hc, if_neg hu, List.find?_cons_of_neg (by simp [hu])]
        split_ifs
        · exact ih _ _ hl
        · exact ih _ _ hl
    · have hl : ∃ u ∈ l, I.isComposite u ∧ I.identifier u = n := by simpa [hc] using h
      rw [if_neg hc, List.find?_cons_of_neg (by simp [hc])]
      exact ih _ _ hl

omit [DecidableEq T] in
/-- Without a composite type of the identifier, a name counts if it is unique. -/
theorem findComposite_name (I : DebugInfo T) (n : String) (l : List T) (byName : Option T) (unique : Bool)
    (h : ∀ u ∈ l, I.isComposite u → I.identifier u ≠ n) :
    findComposite I n l byName unique =
      match l.filter (fun u => I.isComposite u && I.name u = n) with
      | [] => if unique then byName else none
      | [u] => if byName.isNone then some u else none
      | _ => none := by
  induction l generalizing byName unique with
  | nil => rfl
  | cons u l ih =>
    obtain ⟨hu, hl⟩ := List.forall_mem_cons.mp h
    rw [findComposite]
    by_cases hc : I.isComposite u = true
    · rw [if_pos hc, if_neg (hu hc)]
      by_cases hn : I.name u = n
      · rw [if_pos hn, ih _ _ hl, List.filter_cons_of_pos (by simp [hc, hn])]
        cases l.filter (fun u => I.isComposite u && I.name u = n) with
        | nil => rfl
        | cons v vs => cases vs <;> rfl
      · rw [if_neg hn, ih _ _ hl, List.filter_cons_of_neg (by simp [hn])]
    · rw [if_neg hc, ih _ _ hl, List.filter_cons_of_neg (by simp [hc])]

theorem find?_eq_some_self_iff {l : List T} {p : T → Bool} {t : T} (ht : t ∈ l) (hp : p t) :
    l.find? p = some t ↔ ∀ u ∈ l.takeWhile (· ≠ t), ¬p u := by
  induction l with
  | nil => cases ht
  | cons u l ih =>
    by_cases hut : u = t
    · subst hut
      simp [hp]
    · have ht' : t ∈ l := (List.mem_cons.mp ht).resolve_left (Ne.symm hut)
      rw [List.takeWhile_cons_of_pos (by simpa using hut), List.forall_mem_cons]
      by_cases hpu : p u = true
      · simp [hpu, hut]
      · rw [List.find?_cons_of_neg hpu, ih ht']
        tauto

theorem stringToDICompositeType_iff {t : T} (ht : t ∈ I.types) (hc : I.isComposite t)
    (hn : typeName I t ≠ "") : stringToDICompositeType I (typeName I t) = some t ↔ FoundByTypeName I t := by
  rw [typeName, if_pos hc, getCompositeTypeName] at hn ⊢
  rw [stringToDICompositeType, FoundByTypeName]
  split_ifs at hn ⊢ with hid
  · by_cases h : ∃ u ∈ I.types, I.isComposite u ∧ I.identifier u = I.name t
    · -- another composite type has the name as its identifier
      rw [findComposite_identifier _ _ _ _ _ h]
      obtain ⟨u, hu, huc, hui⟩ := h
      have hut : u ≠ t := fun heq => hn (by rw [← hui, heq, hid])
      constructor
      · intro hfind
        have hti := List.find?_some hfind
        simp only [Bool.and_eq_true, decide_eq_true_eq] at hti
        exact absurd (hti.2.symm.trans hid) hn
      · intro hfilter
        refine absurd ?_ hut
        rw [← List.mem_singleton, ← hfilter, List.mem_filter]
        simp [hu, huc, hui]
    · have hne : ∀ u ∈ I.types, I.isComposite u → I.identifier u ≠ I.name t :=
        fun u hu huc hui => h ⟨u, hu, huc, hui⟩
      rw [findComposite_name _ _ _ _ _ hne]
      have hfilter : I.types.filter (fun u => I.isComposite u && (I.identifier u = I.name t ||
          I.name u = I.name t)) = I.types.filter fun u => I.isComposite u && I.name u = I.name t := by
        refine List.filter_congr fun u hu => ?_
        by_cases huc : I.isComposite u = true
        · simp [huc, hne u hu huc]
        · simp [huc]
      rw [hfilter]
      have hmem : t ∈ I.types.filter fun u => I.isComposite u && I.name u = I.name t := by
        simp [ht, hc]
      cases hl : I.types.filter fun u => I.isComposite u && I.name u = I.name t with
      | nil =>
        rw [hl] at hmem
        cases hmem
      | cons u us =>
        cases us with
        | nil => simp
        | cons v vs => simp
  · have h : ∃ u ∈ I.types, I.isComposite u ∧ I.identifier u = I.identifier t := ⟨t, ht, hc, rfl⟩
    rw [findComposite_identifier _ _ _ _ _ h, find?_eq_some_self_iff ht (by simp [hc])]
    simp

theorem stringToDIType_iff {s : T} (hs : s ∈ I.types) :
    stringToDIType I (I.name s) = some s ↔ ∀ u ∈ I.types.takeWhile (· ≠ s), I.name u ≠ I.name s := by
  rw [stringToDIType, find?_eq_some_self_iff hs (by simp)]
  simp

end Names

/-! ### Slots -/

section Slots

variable {T F : Type*} [DecidableEq T] {M : FunctionTable F}

/-- The last slot is not empty, and the functions are those of the module. -/
structure FilledTable (M : FunctionTable F) (vtable : List (Option F)) : Prop where
  getLast : ∀ e, vtable.getLast? = some e → e ≠ none
  getFunction : ∀ f, some f ∈ vtable → M.getFunction (M.getName f) = some f

theorem FilledTable.nil : FilledTable M [] := ⟨by simp, by simp⟩

theorem FilledTable.setSlot {vtable : List (Option F)} {i : ℕ} {f : F} (h : FilledTable M vtable)
    (hf : M.getFunction (M.getName f) = some f) : FilledTable M (setSlot vtable i f) := by
  have hset : ∀ l : List (Option F), (∀ e, l.getLast? = some e → l.length = i + 1 ∨ e ≠ none) →
      (∀ g, some g ∈ l → M.getFunction (M.getName g) = some g) → FilledTable M (l.set i (some f)) := by
    intro l hlast hfun
    refine ⟨fun e he => ?_, fun g hg => ?_⟩
    · rw [List.getLast?_eq_getElem?, List.length_set, List.getElem?_set] at he
      split_ifs at he with hi hlt
      · cases he
        simp
      · obtain h' | h' := hlast e (by rw [List.getLast?_eq_getElem?, he])
        · omega
        · exact h'
    · obtain hg | hg := List.mem_or_eq_of_mem_set hg
      · exact hfun g hg
      · cases hg
        exact hf
  rw [DIBasedTypeHierarchy.setSlot]
  split_ifs with heq hlt
  · refine ⟨by simp, fun g hg => ?_⟩
    obtain hg | hg := List.mem_append.mp hg
    · exact h.getFunction g hg
    · cases List.mem_singleton.mp hg
      exact hf
  · refine hset _ (fun e _ => .inl ?_) fun g hg => ?_
    · rw [List.length_append, List.length_replicate]
      omega
    · obtain hg | hg := List.mem_append.mp hg
      · exact h.getFunction g hg
      · cases (List.mem_replicate.mp hg).2
  · exact hset _ (fun e he => .inr (h.getLast e he)) h.getFunction

theorem filledTable_buildVTables (vt : List T) (subprograms : List (DISubprogram T)) :
    ∀ vtable ∈ buildVTables M vt subprograms, FilledTable M vtable := by
  have hfold : ∀ (l : List (DISubprogram T)) (VT : List (List (Option F))),
      (∀ vtable ∈ VT, FilledTable M vtable) →
      ∀ vtable ∈ l.foldl (addSubprogram M vt) VT, FilledTable M vtable := by
    intro l
    induction l with
    | nil => exact fun _ h => h
    | cons fn l ih =>
      intro VT h
      refine ih _ ?_
      rw [addSubprogram]
      split_ifs
      · split
        · exact h
        · split_ifs
          · split
            · exact h
            · rename_i f hf
              have hname : M.getFunction (M.getName f) = some f := by rw [M.getName_getFunction hf, hf]
              intro vtable hmem
              obtain ⟨i, hi⟩ := List.getElem?_of_mem hmem
              rw [List.getElem?_modify] at hi
              obtain ⟨vtable', hvt, rfl⟩ := Option.map_eq_some_iff.mp hi
              have hfilled := h vtable' (List.mem_of_getElem? hvt)
              split_ifs
              · exact hfilled.setSlot hname
              · exact hfilled
          · exact h
      · exact h
  refine hfold subprograms _ fun vtable hmem => ?_
  rw [(List.mem_replicate.mp hmem).2]
  exact .nil

/-- A slot that is read back as itself. -/
def SlotRestored (M : FunctionTable F) (e : Option F) : Prop :=
  ∃ f, e = some f ∧ M.getName f ≠ nullFunName

theorem length_readSlot (n : String) : (readSlot M n).length = if n = nullFunName then 2 else 1 := by
  rw [readSlot]
  split_ifs <;> rfl

theorem flatMap_readSlot_eq {vtable : List (Option F)} (h : FilledTable M vtable)
    (hslots : ∀ e ∈ vtable, SlotRestored M e) : (vtable.map (slotName M)).flatMap (readSlot M) = vtable := by
  have hread : ∀ e ∈ vtable, readSlot M (slotName M e) = [e] := by
    intro e he
    obtain ⟨f, rfl, hf⟩ := hslots e he
    rw [slotName, readSlot, if_neg hf, h.getFunction f he, List.nil_append]
  rw [List.flatMap_map, List.flatMap_congr hread, List.flatMap_singleton']

/-- A slot read as two makes the vtable longer. -/
theorem length_lt_flatMap_readSlot {vtable : List (Option F)} (h : ¬∀ e ∈ vtable, SlotRestored M e) :
    vtable.length < ((vtable.map (slotName M)).flatMap (readSlot M)).length := by
  have hle : ∀ l : List (Option F), l.length ≤ ((l.map (slotName M)).flatMap (readSlot M)).length := by
    intro l
    induction l with
    | nil => exact le_rfl
    | cons e l ih =>
      rw [List.map_cons, List.flatMap_cons, List.length_append, length_readSlot, List.length_cons]
      split_ifs <;> omega
  induction vtable with
  | nil => simp at h
  | cons e l ih =>
    rw [List.map_cons, List.flatMap_cons, List.length_append, length_readSlot, List.length_cons]
    by_cases hl : ∀ e ∈ l, SlotRestored M e
    · have he : slotName M e = nullFunName := by
        cases e with
        | none => rfl
        | some f =>
          by_contra hf
          exact h (List.forall_mem_cons.mpr ⟨⟨f, rfl, hf⟩, hl⟩)
      rw [if_pos he]
      have hlen := hle l
      omega
    · have hlt := ih hl
      split_ifs <;> omega

theorem getLast?_flatMap_readSlot {vtable : List (Option F)} (h : FilledTable M vtable) {f : F}
    (hf : vtable.getLast? = some (some f)) :
    ((vtable.map (slotName M)).flatMap (readSlot M)).getLast? = some (some f) := by
  obtain ⟨init, rfl⟩ := List.getLast?_eq_some_iff.mp hf
  rw [List.map_append, List.flatMap_append, List.map_singleton, List.flatMap_singleton, readSlot,
    ← List.append_assoc, List.getLast?_append, slotName, h.getFunction f (by simp)]
  rfl

theorem getFunction_flatMap_readSlot_iff {vtable : List (Option F)} (h : FilledTable M vtable) :
    (∀ i, getFunction ((vtable.map (slotName M)).flatMap (readSlot M)) i = getFunction vtable i) ↔
      ∀ e ∈ vtable, SlotRestored M e := by
  constructor
  · intro hget
    by_contra hslots
    have hlt := length_lt_flatMap_readSlot hslots
    have hne : vtable ≠ [] := by
      rintro rfl
      simp at hslots
    -- the last slot is moved past the end
    obtain ⟨f, hf⟩ := Option.ne_none_iff_exists'.mp (h.getLast _ (List.getLast?_eq_some_getLast hne))
    have hlast := getLast?_flatMap_readSlot h ((List.getLast?_eq_some_getLast hne).trans (congrArg some hf))
    have hi := hget (((vtable.map (slotName M)).flatMap (readSlot M)).length - 1)
    rw [getFunction, getFunction, ← List.getLast?_eq_getElem?, hlast,
      List.getElem?_eq_none (Nat.le_sub_one_of_lt hlt)] at hi
    cases hi
  · intro hslots i
    rw [flatMap_readSlot_eq h hslots]

end Slots

/-! ### Ranges -/

section Ranges

/-- The indices of the ranges fit into 32 bits. -/
def IndexFits (s : BuildState) : Prop :=
  ∀ t, (s.transitiveDerivedIndex t).1 < 2 ^ 32 ∧ (s.transitiveDerivedIndex t).2 < 2 ^ 32

theorem IndexFits.buildStep {TG : TypeGraph} {s : BuildState} (h : IndexFits s) :
    IndexFits (buildStep TG s) := by
  have hsize : toUInt32 s.hierarchy.length < 2 ^ 32 := Nat.mod_lt _ (by simp)
  have hupdate : ∀ c p, p.1 < 2 ^ 32 ∧ p.2 < 2 ^ 32 → ∀ t,
      (Function.update s.transitiveDerivedIndex c p t).1 < 2 ^ 32 ∧
        (Function.update s.transitiveDerivedIndex c p t).2 < 2 ^ 32 := by
    intro c p hp t
    rw [Function.update_apply]
    split_ifs
    · exact hp
    · exact h t
  rw [DIBasedTypeHierarchy.buildStep]
  split
  · exact h
  · split_ifs
    · exact hupdate _ _ ⟨(h _).1, hsize⟩
    · dsimp only [IndexFits]
      split_ifs
      · exact h
      · exact hupdate _ _ ⟨hsize, (h _).2⟩

theorem IndexFits.drain {TG : TypeGraph} {fuel : ℕ} {s s' : BuildState} (h : IndexFits s)
    (hs : drain TG fuel s = some s') : IndexFits s' := by
  induction fuel generalizing s with
  | zero =>
    rw [DIBasedTypeHierarchy.drain] at hs
    split_ifs at hs
    cases hs
    exact h
  | succ fuel ih =>
    rw [DIBasedTypeHierarchy.drain] at hs
    split_ifs at hs
    · cases hs
      exact h
    · exact ih h.buildStep hs

theorem indexFits_buildTypeHierarchy {TG : TypeGraph} {n fuel : ℕ} {s : BuildState}
    (hs : buildTypeHierarchy TG n fuel = some s) : IndexFits s := by
  have hfold : ∀ (roots : List ℕ) (s₀ : BuildState), IndexFits s₀ →
      roots.foldlM (fun s rt => DIBasedTypeHierarchy.drain TG fuel { s with workList := [BitVec.ofNat 32 rt] })
        s₀ = some s → IndexFits s := by
    intro roots
    induction roots with
    | nil =>
      intro s₀ h hs
      cases hs
      exact h
    | cons rt roots ih =>
      intro s₀ h hs
      rw [List.foldlM_cons, Option.bind_eq_bind, Option.bind_eq_some_iff] at hs
      obtain ⟨s₁, hdrain, hs⟩ := hs
      exact ih s₁ (IndexFits.drain (s := { s₀ with workList := [BitVec.ofNat 32 rt] }) h hdrain) hs
  exact hfold _ _ (fun _ => by simp) hs

end Ranges

/-! ### Restored hierarchies -/

section Restored

variable {T F : Type*} [DecidableEq T] {I : DebugInfo T} {M : FunctionTable F}

/-- The same types in the same order, the same ranges, and the same functions in the vtables. -/
structure Restores (th th' : VTypeHierarchy T F) : Prop where
  vertexTypes : th'.vertexTypes = th.vertexTypes
  subTypesOf : ∀ t ∈ th.vertexTypes, th'.subTypesOf t = th.subTypesOf t
  getFunction : ∀ k < th.vertexTypes.length, ∀ i,
    getFunction (th'.vtables.getD k []) i = getFunction (th.vtables.getD k []) i

/-- Each class type is found by its type name and is the first type with its plain name, and no slot of a
vtable is read as two. -/
structure Restorable (I : DebugInfo T) (M : FunctionTable F) (th : VTypeHierarchy T F) : Prop where
  vertexTypes : ∀ t ∈ th.vertexTypes, FoundByTypeName I t
  subTypesOf : ∀ t ∈ th.vertexTypes, ∀ s ∈ th.subTypesOf t,
    ∀ u ∈ I.types.takeWhile (· ≠ s), I.name u ≠ I.name s
  slots : ∀ vtable ∈ th.vtables, ∀ e ∈ vtable, SlotRestored M e

theorem mem_vertexTypes {t : T} (ht : t ∈ vertexTypes I) : t ∈ I.types ∧ isClassType I t := by
  have hfold : ∀ (l vt : List T), t ∈ l.foldl (fun vt t =>
      if isClassType I t && t ∉ vt then vt ++ [t] else vt) vt → t ∈ vt ∨ t ∈ l ∧ isClassType I t := by
    intro l
    induction l with
    | nil => exact fun _ h => .inl h
    | cons u l ih =>
      intro vt h
      obtain h | ⟨h, hc⟩ := ih _ h
      · dsimp only at h
        split_ifs at h with hu
        · obtain h | h := List.mem_append.mp h
          · exact .inl h
          · obtain rfl := List.mem_singleton.mp h
            exact .inr ⟨List.mem_cons_self, (Bool.and_eq_true _ _ ▸ hu).1⟩
        · exact .inl h
      · exact .inr ⟨List.mem_cons_of_mem _ h, hc⟩
  exact (hfold _ _ ht).resolve_left (by simp)

theorem length_buildVTables (vt : List T) (subprograms : List (DISubprogram T)) :
    (buildVTables M vt subprograms).length = vt.length := by
  have hfold : ∀ (l : List (DISubprogram T)) (VT : List (List (Option F))),
      (l.foldl (addSubprogram M vt) VT).length = VT.length := by
    intro l
    induction l with
    | nil => exact fun _ => rfl
    | cons fn l ih =>
      intro VT
      rw [List.foldl_cons, ih, addSubprogram]
      repeat' split
      all_goals simp
  rw [buildVTables, hfold, List.length_replicate]

/-- What the constructor makes of a module. -/
structure Constructed (I : DebugInfo T) (M : FunctionTable F) (th : VTypeHierarchy T F) : Prop where
  vertexTypes : th.vertexTypes = vertexTypes I
  hierarchy : ∀ s ∈ th.hierarchy, s ∈ I.types
  index : ∀ p ∈ th.transitiveDerivedIndex, p.1 < 2 ^ 32 ∧ p.2 < 2 ^ 32
  filled : ∀ vtable ∈ th.vtables, FilledTable M vtable
  length : th.vtables.length = th.vertexTypes.length

theorem constructed_of_construct {subprograms : List (DISubprogram T)} {fuel : ℕ} {th : VTypeHierarchy T F}
    (h : construct I M subprograms fuel = some th) : Constructed I M th := by
  obtain ⟨th₀, hbuild, rfl⟩ := Option.map_eq_some_iff.mp h
  obtain ⟨s, hs, rfl⟩ := Option.map_eq_some_iff.mp hbuild
  refine ⟨rfl, fun u hu => ?_, fun p hp => ?_, filledTable_buildVTables _ _, length_buildVTables _ _⟩
  · obtain ⟨i, -, hi⟩ := List.mem_filterMap.mp hu
    exact (mem_vertexTypes (List.mem_of_getElem? hi)).1
  · obtain ⟨i, -, rfl⟩ := List.mem_map.mp hp
    exact indexFits_buildTypeHierarchy hs i

/-- The type of the linearisation that is read for a type. -/
def readBack (I : DebugInfo T) (s : T) : T := (stringToDIType I (I.name s)).getD s

omit [DecidableEq T] in
theorem stringToDIType_name {s : T} (hs : s ∈ I.types) :
    stringToDIType I (I.name s) = some (readBack I s) := by
  have hfind : (stringToDIType I (I.name s)).isSome := by
    rw [stringToDIType, List.find?_isSome]
    exact ⟨s, hs, by simp⟩
  obtain ⟨u, hu⟩ := Option.isSome_iff_exists.mp hfind
  rw [readBack, hu, Option.getD_some]

theorem readBack_eq_self_iff {s : T} (hs : s ∈ I.types) :
    readBack I s = s ↔ ∀ u ∈ I.types.takeWhile (· ≠ s), I.name u ≠ I.name s := by
  rw [← stringToDIType_iff hs, stringToDIType_name hs, Option.some_inj]

theorem subTypesOf_map {th : TypeHierarchy T} {f : T → T} (t : T) :
    (TypeHierarchy.mk th.vertexTypes th.transitiveDerivedIndex (th.hierarchy.map f)).subTypesOf t =
      (th.subTypesOf t).map f := by
  rw [TypeHierarchy.subTypesOf, TypeHierarchy.subTypesOf]
  split_ifs
  · rw [TypeHierarchy.subTypesOfIdx, TypeHierarchy.subTypesOfIdx]
    dsimp only
    cases th.transitiveDerivedIndex[th.vertexTypes.idxOf t]? with
    | none => rfl
    | some p =>
      dsimp only
      rw [List.map_take, List.map_drop]
  · rfl

theorem mem_hierarchy_of_subTypesOf {th : TypeHierarchy T} {s t : T} (h : s ∈ th.subTypesOf t) :
    s ∈ th.hierarchy := by
  rw [TypeHierarchy.subTypesOf] at h
  split_ifs at h
  · rw [TypeHierarchy.subTypesOfIdx] at h
    split at h
    · exact List.mem_of_mem_drop (List.mem_of_mem_take h)
    · cases h
  · cases h

/-- What is read for the types and the vtables of a hierarchy. -/
theorem load_getTypeHierarchyData {th : VTypeHierarchy T F} (hc : Constructed I M th) :
    load I M (getTypeHierarchyData I M th) =
      ((th.vertexTypes.map (typeName I)).mapM (stringToDICompositeType I)).map fun vt =>
        ⟨⟨vt, th.transitiveDerivedIndex, th.hierarchy.map (readBack I)⟩,
          th.vtables.map fun vtable => (vtable.map (slotName M)).flatMap (readSlot M)⟩ := by
  have hhierarchy : (th.hierarchy.map I.name).mapM (stringToDIType I) =
      some (th.hierarchy.map (readBack I)) := by
    rw [List.mapM_map]
    exact Json.mapM_eq_some_map fun s hs => stringToDIType_name (hc.hierarchy s hs)
  rw [load, getTypeHierarchyData]
  dsimp only
  rw [hhierarchy, List.map_map]
  cases (th.vertexTypes.map (typeName I)).mapM (stringToDICompositeType I) <;> rfl

/-- A hierarchy that is written and read back is restored if and only if its names are those of its own
types and none of its slots is read as two. -/
theorem restores_iff {subprograms : List (DISubprogram T)} {fuel : ℕ} {th : VTypeHierarchy T F}
    (h : construct I M subprograms fuel = some th) :
    (∃ th', (getDataFromJson (printAsJson (getTypeHierarchyData I M th))).bind (load I M) = some th' ∧
      Restores th th') ↔ Restorable I M th := by
  have hc := constructed_of_construct h
  have htypes : (th.vertexTypes.map (typeName I)).mapM (stringToDICompositeType I) = some th.vertexTypes ↔
      ∀ t ∈ th.vertexTypes, FoundByTypeName I t := by
    rw [Json.mapM_map_eq_some_iff]
    refine forall₂_congr fun t ht => ?_
    rw [hc.vertexTypes] at ht
    obtain ⟨hmem, hclass⟩ := mem_vertexTypes ht
    simp only [isClassType, Bool.and_eq_true, decide_eq_true_eq] at hclass
    refine stringToDICompositeType_iff hmem hclass.1.1 ?_
    rw [typeName, if_pos hclass.1.1]
    exact hclass.2
  have hsub : (∀ t ∈ th.vertexTypes, (th.subTypesOf t).map (readBack I) = th.subTypesOf t) ↔
      ∀ t ∈ th.vertexTypes, ∀ s ∈ th.subTypesOf t,
        ∀ u ∈ I.types.takeWhile (· ≠ s), I.name u ≠ I.name s := by
    refine forall₂_congr fun t _ => ?_
    have hid := List.map_inj_left (l := th.subTypesOf t) (f := readBack I) (g := id)
    rw [List.map_id] at hid
    rw [hid]
    exact forall₂_congr fun s hs => readBack_eq_self_iff (hc.hierarchy s (mem_hierarchy_of_subTypesOf hs))
  have hslots : (∀ k < th.vertexTypes.length, ∀ i, getFunction ((th.vtables.map fun vtable =>
        (vtable.map (slotName M)).flatMap (readSlot M)).getD k []) i = getFunction (th.vtables.getD k []) i) ↔
      ∀ vtable ∈ th.vtables, ∀ e ∈ vtable, SlotRestored M e := by
    rw [List.forall_mem_iff_getElem, ← hc.length]
    refine forall₂_congr fun k hk => ?_
    rw [List.getD_eq_getElem _ _ (by rwa [List.length_map]), List.getD_eq_getElem _ _ hk, List.getElem_map]
    exact getFunction_flatMap_readSlot_iff (hc.filled _ (List.getElem_mem _))
  rw [getDataFromJson_printAsJson hc.index, Option.bind_some, load_getTypeHierarchyData hc]
  constructor
  · rintro ⟨th', hload, hr⟩
    obtain ⟨vt, hvt, rfl⟩ := Option.map_eq_some_iff.mp hload
    obtain rfl : vt = th.vertexTypes := hr.vertexTypes
    refine ⟨htypes.mp hvt, hsub.mp fun t ht => ?_, hslots.mp hr.getFunction⟩
    rw [← subTypesOf_map]
    exact hr.subTypesOf t ht
  · intro hr
    rw [htypes.mpr hr.vertexTypes, Option.map_some]
    refine ⟨_, rfl, rfl, fun t ht => ?_, hslots.mpr hr.slots⟩
    rw [← hsub.mpr hr.subTypesOf t ht, ← subTypesOf_map]

end Restored

/-! ### Examples -/

/-- The functions `f` and `g`. -/
def twoFunctions : FunctionTable Bool where
  getFunction n := if n = "f" then some true else if n = "g" then some false else none
  getName f := if f then "f" else "g"
  getName_getFunction := by
    intro n f h
    split_ifs at h <;> cases h <;> simp_all

/-- Two classes with the given names. -/
def twoClasses (name : ℕ → String) : DebugInfo ℕ where
  types := [0, 1]
  isComposite _ := true
  tag _ := .classType
  identifier t := if t = 0 then "_ZTSN1a1SE" else "_ZTSN1b1SE"
  name := name
  inheritance _ := []

def virtualFunction (scope virtualIndex : ℕ) (linkageName : String) : DISubprogram ℕ :=
  ⟨true, virtualIndex, some scope, linkageName⟩

/-- The hierarchy of two classes with the given vtable of the first one. -/
def twoClassesHierarchy (vtable : List (Option Bool)) : VTypeHierarchy ℕ Bool :=
  ⟨⟨[0, 1], [(0, 1), (1, 2)], [0, 1]⟩, [vtable, []]⟩

/-- Two classes with different names. -/
theorem restores_differentNames : (∃ th', (getDataFromJson (printAsJson (getTypeHierarchyData
      (twoClasses fun t => if t = 0 then "S" else "T") twoFunctions
      (twoClassesHierarchy [some true])))).bind
      (load (twoClasses fun t => if t = 0 then "S" else "T") twoFunctions) = some th' ∧
      Restores (twoClassesHierarchy [some true]) th') ↔
    Restorable (twoClasses fun t => if t = 0 then "S" else "T") twoFunctions
      (twoClassesHierarchy [some true]) :=
  @restores_iff ℕ Bool _ _ _ [virtualFunction 0 0 "f"] 9 _ rfl

/-- A class of another namespace is read for the second class, and an empty slot moves the function
behind it. -/
theorem not_restores :
    (construct (twoClasses fun _ => "S") twoFunctions [] 9 = some (twoClassesHierarchy []) ∧
      typeName (twoClasses fun _ => "S") 0 ≠ typeName (twoClasses fun _ => "S") 1 ∧
      ¬∃ th', (getDataFromJson (printAsJson (getTypeHierarchyData (twoClasses fun _ => "S") twoFunctions
        (twoClassesHierarchy [])))).bind (load (twoClasses fun _ => "S") twoFunctions) = some th' ∧
        Restores (twoClassesHierarchy []) th') ∧
    construct (twoClasses fun t => if t = 0 then "S" else "T") twoFunctions [virtualFunction 0 1 "f"] 9 =
      some (twoClassesHierarchy [none, some true]) ∧
      ¬∃ th', (getDataFromJson (printAsJson (getTypeHierarchyData
        (twoClasses fun t => if t = 0 then "S" else "T") twoFunctions
        (twoClassesHierarchy [none, some true])))).bind
        (load (twoClasses fun t => if t = 0 then "S" else "T") twoFunctions) = some th' ∧
        Restores (twoClassesHierarchy [none, some true]) th' := by
  refine ⟨⟨rfl, by decide, ?_⟩, rfl, ?_⟩
  · rintro ⟨th', hload, hr⟩
    obtain rfl : ⟨⟨[0, 1], [(0, 1), (1, 2)], [0, 0]⟩, [[], []]⟩ = th' := Option.some_inj.mp hload
    exact absurd (hr.subTypesOf 1 (by decide)) (by decide)
  · rintro ⟨th', hload, hr⟩
    obtain rfl : ⟨⟨[0, 1], [(0, 1), (1, 2)], [0, 1]⟩, [[none, none, some true], []]⟩ = th' :=
      Option.some_inj.mp hload
    exact absurd (hr.getFunction 0 (by decide) 1) (by decide)

end Phasar.DIBasedTypeHierarchy
