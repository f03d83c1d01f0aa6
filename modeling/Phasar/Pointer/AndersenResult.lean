import Phasar.Lib.LoopRule
import Phasar.Pointer.AndersenSolution
import Phasar.Utils.ValueCompressor
import Mathlib.Data.Finset.Sort

/-!
# The result of the Andersen solver

`buildResult` turns the points-to sets of the representatives into alias sets of external ids,
through the external ids of every node and of every representative, and through the
representatives and the external ids that point to every object.

* `FinalState`, `FinalState.ofData`: the part of the solver that the result is built from;
* `localToExt`, `repToExtVIds`, `obj2Reps`, `objToAliasExtVIds`, `aliasSets`: the steps;
* `mem_alias_iff`: the alias sets hold the external ids of nodes with a common pointee;
* `mem_alias_ofData`: the same, with the points-to relation of the solver.
-/

namespace Phasar.Andersen

open IndexedTable LoopRule

/-- `AndersenVar`: a variable, or the object behind it. -/
structure AndersenVar (B : Type) where
  base : B
  isObject : Bool
  deriving DecidableEq

/-- `ContextualVar`. Context 0 is the root context. -/
structure ContextualVar (B : Type) where
  var : AndersenVar B
  ctx : ℕ
  deriving DecidableEq

/-- The context-qualified names of `ContextualNodeTable`. -/
structure ContextualNodeTable (B : Type) where
  id2Vars : List (List (ContextualVar B))

/-- All context-qualified names of a node; empty for plain nodes. -/
def ContextualNodeTable.vars {B : Type} (id : ℕ) (t : ContextualNodeTable B) :
    List (ContextualVar B) :=
  t.id2Vars.getD id []

/-- The solver at its end. Representatives and objects are nodes. -/
structure FinalState (B : Type) where
  localVC : ValueCompressor (AndersenVar B)
  ctxNodes : ContextualNodeTable B
  sccUf : UnionFind ℕ
  /-- The points-to set of every node. -/
  nodes : List (Finset ℕ)
  find_lt : ∀ v < localVC.size, sccUf.find v < localVC.size
  pts_lt : ∀ pts ∈ nodes, ∀ obj ∈ pts, obj < localVC.size

variable {B : Type}

namespace FinalState

variable (s : FinalState B)

def numLocal : ℕ := s.localVC.size

def rep (v : ℕ) : ℕ := s.sccUf.find v

/-- The points-to set of a node. -/
def pts (v : ℕ) : Finset ℕ := s.nodes.getD v ∅

/-- The names of a node, in the order of `forEachVar`. -/
def forEachVar (id : ℕ) : List (ContextualVar B) :=
  (s.localVC.id2vars id).map (⟨·, 0⟩) ++ s.ctxNodes.vars id

/-! ### The external ids of nodes -/

section

variable [DecidableEq B]

/-- The body of the loop over the names of a node: the external ids so far, and the first of them. -/
def addExtId (r : ValueCompressor B × Option ℕ × List ℕ) (cvar : ContextualVar B) :
    ValueCompressor B × Option ℕ × List ℕ :=
  if cvar.var.isObject then r
  else
    match r.2.1 with
    | none =>
      let ins := r.1.insert cvar.var.base
      (ins.1, some ins.2.1, r.2.2 ++ [ins.2.1])
    | some firstExtId =>
      let added := r.1.addAlias cvar.var.base firstExtId
      if added.2 then (added.1, r.2)
      else
        match added.1.getOrNull cvar.var.base with
        | none => (added.1, r.2)
        | some existing =>
          if existing ∈ r.2.2 then (added.1, r.2)
          else (added.1, r.2.1, r.2.2 ++ [existing])

/-- The external ids of one node. -/
def nodeToExt (externalVC : ValueCompressor B) (id : ℕ) : ValueCompressor B × List ℕ :=
  let r := (s.forEachVar id).foldl addExtId (externalVC, none, [])
  (r.1, r.2.2)

/-- The external ids of all nodes, and the compressor afterwards. -/
def localToExt (externalVC : ValueCompressor B) : ValueCompressor B × List (List ℕ) :=
  (List.range s.numLocal).foldl (fun r id =>
    let ext := s.nodeToExt r.1 id
    (ext.1, r.2 ++ [ext.2])) (externalVC, [])

end

/-- The external ids of the nodes of every representative. -/
def repToExtVIds (localToExt : List (List ℕ)) : List (List ℕ) :=
  (List.range s.numLocal).foldl (fun table id =>
    if localToExt.getD id [] = [] then table
    else if s.nodes.length ≤ s.rep id then table
    else table.modify (s.rep id) (· ++ localToExt.getD id [])) (List.replicate s.numLocal [])

/-! ### The alias sets -/

/-- For every object, the representatives that point to it. -/
def obj2Reps (repToExtVIds : List (List ℕ)) : List (Finset ℕ) :=
  (List.range s.numLocal).foldl (fun table repId =>
    if repToExtVIds.getD repId [] = [] then table
    else if s.nodes.length ≤ repId then table
    else iterateWhile (fun table obj =>
      if obj < s.numLocal then some (table.modify obj (insert repId)) else none)
        (s.pts repId).sort table) (List.replicate s.numLocal ∅)

/-- For every object, the external ids of all representatives that point to it. -/
def objToAliasExtVIds (repToExtVIds : List (List ℕ)) (obj2Reps : List (Finset ℕ)) :
    List (Finset ℕ) :=
  obj2Reps.map fun reps => (reps.sort.flatMap fun repId => repToExtVIds.getD repId []).toFinset

/-- The last loop, over the representatives that are left. -/
def aliasSets (repToExtVIds : List (List ℕ)) (objToAlias : List (Finset ℕ)) :
    List ℕ → List (Finset ℕ) → List (Finset ℕ)
  | [], table => table
  | repId :: rest, table =>
    if repToExtVIds.getD repId [] = [] then aliasSets repToExtVIds objToAlias rest table
    else if s.nodes.length ≤ repId then table
    else
      let aliasExtVIds := iterateWhile (fun acc obj =>
        if obj < s.numLocal then some (acc ∪ objToAlias.getD obj ∅) else none) (s.pts repId).sort ∅
      aliasSets repToExtVIds objToAlias rest ((repToExtVIds.getD repId []).foldl
        (fun table extVId => table.modify extVId (· ∪ aliasExtVIds)) table)

/-- `buildResult`: the compressor and the alias sets. -/
def buildResult [DecidableEq B] (externalVC : ValueCompressor B) :
    ValueCompressor B × List (Finset ℕ) :=
  let ext := s.localToExt externalVC
  let repToExt := s.repToExtVIds ext.2
  let objToAlias := objToAliasExtVIds repToExt (s.obj2Reps repToExt)
  (ext.1, s.aliasSets repToExt objToAlias (List.range s.numLocal)
    (List.replicate ext.1.size ∅))

/-! ### What the external ids are -/

/-- A variable among the names has the external id. -/
def Carries (externalVC : ValueCompressor B) (names : List (ContextualVar B)) (id : ℕ) : Prop :=
  ∃ cvar ∈ names, cvar.var.isObject = false ∧ externalVC.getOrNull cvar.var.base = some id

/-- The loop over the names of a node has collected the external ids of its variables. -/
structure Collects (names : List (ContextualVar B))
    (r : ValueCompressor B × Option ℕ × List ℕ) : Prop where
  mem_iff : ∀ id, id ∈ r.2.2 ↔ Carries r.1 names id
  known : ∀ cvar ∈ names, cvar.var.isObject = false → ∃ id, r.1.getOrNull cvar.var.base = some id
  first_mem : ∀ id, r.2.1 = some id → id ∈ r.2.2

/-- Ids that are known stay the same. -/
theorem carries_congr {ext ext' : ValueCompressor B} {names : List (ContextualVar B)}
    (hknown : ∀ cvar ∈ names, cvar.var.isObject = false →
      ∃ id, ext.getOrNull cvar.var.base = some id) (hext : ext.Extends ext') (id : ℕ) :
    Carries ext' names id ↔ Carries ext names id := by
  refine exists_congr fun cvar => and_congr_right fun hmem => and_congr_right fun hvar => ?_
  obtain ⟨id', hid'⟩ := hknown cvar hmem hvar
  rw [hid', hext.getOrNull _ _ hid']

theorem carries_append {ext : ValueCompressor B} {names : List (ContextualVar B)}
    {cvar : ContextualVar B} (id : ℕ) : Carries ext (names ++ [cvar]) id ↔ Carries ext names id ∨
      cvar.var.isObject = false ∧ ext.getOrNull cvar.var.base = some id := by
  constructor
  · rintro ⟨x, hx, hvar, hid⟩
    rcases List.mem_append.1 hx with hx | hx
    · exact Or.inl ⟨x, hx, hvar, hid⟩
    · obtain rfl := List.mem_singleton.1 hx
      exact Or.inr ⟨hvar, hid⟩
  · rintro (⟨x, hx, hvar, hid⟩ | ⟨hvar, hid⟩)
    · exact ⟨x, List.mem_append_left _ hx, hvar, hid⟩
    · exact ⟨cvar, List.mem_append_right _ (List.mem_singleton_self cvar), hvar, hid⟩

theorem Collects.extend {names : List (ContextualVar B)} {ext ext' : ValueCompressor B}
    {first first' : Option ℕ} {ids ids' : List ℕ} (h : Collects names (ext, first, ids))
    (hext : ext.Extends ext') {cvar : ContextualVar B} (hvar : cvar.var.isObject = false) {new : ℕ}
    (hnew : ext'.getOrNull cvar.var.base = some new)
    (hids : ∀ id, id ∈ ids' ↔ id ∈ ids ∨ id = new) (hfirst : ∀ id, first' = some id → id ∈ ids') :
    Collects (names ++ [cvar]) (ext', first', ids') where
  mem_iff id := by
    rw [carries_append, carries_congr h.known hext, ← h.mem_iff, hvar, hnew, Option.some_inj,
      eq_comm (a := new)]
    simpa using hids id
  known x hx hxvar := by
    rcases List.mem_append.1 hx with hx | hx
    · obtain ⟨id, hid⟩ := h.known x hx hxvar
      exact ⟨id, hext.getOrNull _ _ hid⟩
    · rw [List.mem_singleton.1 hx]
      exact ⟨new, hnew⟩
  first_mem := hfirst

section

variable [DecidableEq B]

theorem addExtId_collects {names : List (ContextualVar B)}
    {r : ValueCompressor B × Option ℕ × List ℕ} (h : Collects names r) (cvar : ContextualVar B) :
    r.1.Extends (addExtId r cvar).1 ∧ Collects (names ++ [cvar]) (addExtId r cvar) := by
  obtain ⟨ext, first, ids⟩ := r
  rw [addExtId]
  split_ifs with hobj
  · -- the names of objects are skipped
    refine ⟨.refl ext, fun id => ?_, fun x hx hvar => ?_, h.first_mem⟩
    · rw [h.mem_iff, carries_append, hobj]
      simp
    · rcases List.mem_append.1 hx with hx | hx
      · exact h.known x hx hvar
      · rw [List.mem_singleton.1 hx, hobj] at hvar
        cases hvar
  · rw [Bool.not_eq_true] at hobj
    cases first with
    | none =>
      obtain ⟨hext, hnew⟩ := ext.insert_spec cvar.var.base
      refine ⟨hext, h.extend hext hobj hnew (fun id => by simp) fun id hid => ?_⟩
      rw [Option.some_inj] at hid
      simp [hid]
    | some firstExtId =>
      have hfirst : firstExtId ∈ ids := h.first_mem _ rfl
      obtain ⟨x, -, -, hx⟩ := (h.mem_iff _).1 hfirst
      obtain ⟨hext, hadded⟩ := ValueCompressor.addAlias_spec cvar.var.base (ext.lt_size hx)
      dsimp only
      split_ifs at hadded ⊢ with hnew
      · refine ⟨hext, h.extend hext hobj hadded (fun id => ?_) h.first_mem⟩
        exact (or_iff_left_of_imp fun hid => hid ▸ hfirst).symm
      · obtain ⟨existing, hexisting⟩ := hadded
        rw [hexisting]
        dsimp only
        split_ifs with hmem
        · refine ⟨hext, h.extend hext hobj hexisting (fun id => ?_) h.first_mem⟩
          exact (or_iff_left_of_imp fun hid => hid ▸ hmem).symm
        · refine ⟨hext, h.extend hext hobj hexisting (fun id => by simp) fun id hid => ?_⟩
          exact List.mem_append_left _ (h.first_mem id hid)

/-- The names of one node. -/
theorem nodeToExt_spec (ext : ValueCompressor B) (id : ℕ) :
    ext.Extends (s.nodeToExt ext id).1 ∧
      (∀ extId, extId ∈ (s.nodeToExt ext id).2 ↔
        Carries (s.nodeToExt ext id).1 (s.forEachVar id) extId) ∧
      ∀ cvar ∈ s.forEachVar id, cvar.var.isObject = false →
        ∃ extId, (s.nodeToExt ext id).1.getOrNull cvar.var.base = some extId := by
  have hloop : ∀ (names pre : List (ContextualVar B)) (r : ValueCompressor B × Option ℕ × List ℕ),
      ext.Extends r.1 → Collects pre r →
      ext.Extends (names.foldl addExtId r).1 ∧ Collects (pre ++ names) (names.foldl addExtId r) := by
    intro names
    induction names with
    | nil => exact fun pre r hext h => ⟨hext, by rwa [List.append_nil]⟩
    | cons cvar names ih =>
      intro pre r hext h
      obtain ⟨hext', h'⟩ := addExtId_collects h cvar
      rw [List.append_cons]
      exact ih _ _ (hext.trans hext') h'
  obtain ⟨hext, h⟩ := hloop (s.forEachVar id) [] (ext, none, []) (.refl ext)
    ⟨by simp [Carries], by simp, by simp⟩
  exact ⟨hext, h.mem_iff, h.known⟩

/-- The external ids of every node are those of its variables at the end. -/
theorem localToExt_spec (ext : ValueCompressor B) : ext.Extends (s.localToExt ext).1 ∧
    ∀ id < s.numLocal, ∀ extId, extId ∈ (s.localToExt ext).2.getD id [] ↔
      Carries (s.localToExt ext).1 (s.forEachVar id) extId := by
  have hloop : ∀ k, let r := (List.range k).foldl (fun r id =>
        let ext := s.nodeToExt r.1 id
        (ext.1, r.2 ++ [ext.2])) (ext, [])
      ext.Extends r.1 ∧ r.2.length = k ∧ ∀ id < k,
        (∀ extId, extId ∈ r.2.getD id [] ↔ Carries r.1 (s.forEachVar id) extId) ∧
        ∀ cvar ∈ s.forEachVar id, cvar.var.isObject = false →
          ∃ extId, r.1.getOrNull cvar.var.base = some extId := by
    intro k
    induction k with
    | zero => exact ⟨.refl ext, rfl, by simp⟩
    | succ k ih =>
      rw [List.range_succ, List.foldl_append]
      dsimp only at ih ⊢
      generalize (List.range k).foldl _ (ext, []) = r at ih ⊢
      obtain ⟨hext, hlength, hids⟩ := ih
      obtain ⟨hext', hnode, hknown⟩ := s.nodeToExt_spec r.1 k
      refine ⟨hext.trans hext', by simp [hlength], fun id hid => ?_⟩
      rw [List.foldl_cons, List.foldl_nil, getD_concat, hlength]
      split_ifs with heq
      · subst heq
        exact ⟨hnode, hknown⟩
      · -- what was found for earlier nodes stays the same
        obtain ⟨hold, hknown'⟩ := hids id (by omega)
        refine ⟨fun extId => ?_, fun cvar hmem hvar => ?_⟩
        · rw [hold, carries_congr hknown' hext']
        · obtain ⟨extId, hextId⟩ := hknown' cvar hmem hvar
          exact ⟨extId, hext'.getOrNull _ _ hextId⟩
  obtain ⟨hext, -, hids⟩ := hloop s.numLocal
  exact ⟨hext, fun id hid => (hids id hid).1⟩

end

/-! ### The inverted tables -/

theorem mem_repToExtVIds (localToExt : List (List ℕ)) (r extId : ℕ) :
    extId ∈ (s.repToExtVIds localToExt).getD r [] ↔
      r < s.nodes.length ∧ ∃ id < s.numLocal, s.rep id = r ∧ extId ∈ localToExt.getD id [] := by
  refine (foldl_collect (fun table : List (List ℕ) => table.length = s.numLocal)
    (fun table => extId ∈ table.getD r [])
    (fun id => r < s.nodes.length ∧ s.rep id = r ∧ extId ∈ localToExt.getD id []) _
    (fun id _ table htable => ?_) (fun id hid table htable => ?_) List.length_replicate).trans ?_
  · split_ifs <;> simp [htable]
  · have hlt : s.rep id < s.numLocal := s.find_lt id (List.mem_range.1 hid)
    split_ifs with hnil hle
    · refine (or_iff_left ?_).symm
      rintro ⟨-, -, hext⟩
      rw [hnil] at hext
      exact List.not_mem_nil hext
    · refine (or_iff_left ?_).symm
      rintro ⟨hlt, rfl, -⟩
      exact absurd hlt (not_lt.2 hle)
    · rw [getD_modify, htable]
      by_cases hr : s.rep id = r
      · subst hr
        rw [if_pos ⟨rfl, hlt⟩, List.mem_append]
        simp [not_le.1 hle]
      · simp [hr]
  · rw [getD_replicate_self]
    simp only [List.not_mem_nil, false_or, List.mem_range]
    constructor
    · rintro ⟨id, hid, hr, hrep, hext⟩
      exact ⟨hr, id, hid, hrep, hext⟩
    · rintro ⟨hr, id, hid, hrep, hext⟩
      exact ⟨id, hid, hr, hrep, hext⟩

theorem mem_pts {v obj : ℕ} (h : obj ∈ s.pts v) : v < s.nodes.length ∧ obj < s.numLocal := by
  by_cases hv : v < s.nodes.length
  · refine ⟨hv, s.pts_lt (s.pts v) ?_ obj h⟩
    rw [pts, List.getD_eq_getElem _ _ hv]
    exact List.getElem_mem hv
  · rw [pts, List.getD_eq_default _ _ (not_lt.1 hv)] at h
    exact absurd h (Finset.notMem_empty obj)

/-- The early exit loses no pointee. -/
theorem iterate_pts {σ : Type} (g : σ → ℕ → σ) (v : ℕ) (x : σ) :
    iterateWhile (fun x obj => if obj < s.numLocal then some (g x obj) else none) (s.pts v).sort x =
      (s.pts v).sort.foldl g x := by
  rw [iterateWhile_eq_foldl (fun _ _ => rfl) (Finset.pairwise_sort _ _), List.filter_eq_self.2]
  intro obj hobj
  exact decide_eq_true (s.mem_pts ((Finset.mem_sort _).1 hobj)).2

theorem mem_obj2Reps (repToExt : List (List ℕ)) (obj r : ℕ) :
    r ∈ (s.obj2Reps repToExt).getD obj ∅ ↔
      r < s.numLocal ∧ repToExt.getD r [] ≠ [] ∧ obj ∈ s.pts r := by
  refine (foldl_collect (fun table : List (Finset ℕ) => table.length = s.numLocal)
    (fun table => r ∈ table.getD obj ∅)
    (fun repId => repId = r ∧ repToExt.getD r [] ≠ [] ∧ obj ∈ s.pts r) _
    (fun repId _ table htable => ?_) (fun repId _ table htable => ?_) List.length_replicate).trans ?_
  · split_ifs with hnil hle
    · exact htable
    · exact htable
    · rw [iterate_pts]
      exact foldl_preserve (I := fun table : List (Finset ℕ) => table.length = s.numLocal) _
        (fun obj _ table htable => by simp [htable]) htable
  · split_ifs with hnil hle
    · refine (or_iff_left ?_).symm
      rintro ⟨rfl, hne, -⟩
      exact hne hnil
    · refine (or_iff_left ?_).symm
      rintro ⟨rfl, -, hobj⟩
      exact absurd (s.mem_pts hobj).1 (not_lt.2 hle)
    · rw [iterate_pts]
      refine (foldl_collect (fun table : List (Finset ℕ) => table.length = s.numLocal)
        (fun table => r ∈ table.getD obj ∅) (fun o => o = obj ∧ repId = r) _
        (fun o _ table htable => by simp [htable]) (fun o ho table htable => ?_) htable).trans ?_
      · have ho' := (s.mem_pts ((Finset.mem_sort _).1 ho)).2
        rw [getD_modify, htable]
        by_cases hobj : o = obj
        · subst hobj
          simp [ho', or_comm, eq_comm]
        · simp [hobj]
      · refine or_congr_right ⟨?_, ?_⟩
        · rintro ⟨o, ho, rfl, rfl⟩
          exact ⟨rfl, hnil, (Finset.mem_sort _).1 ho⟩
        · rintro ⟨rfl, -, hobj⟩
          exact ⟨obj, (Finset.mem_sort _).2 hobj, rfl, rfl⟩
  · rw [getD_replicate_self]
    simp

theorem mem_objToAliasExtVIds (repToExt : List (List ℕ)) (obj2Reps : List (Finset ℕ))
    (obj extId : ℕ) : extId ∈ (objToAliasExtVIds repToExt obj2Reps).getD obj ∅ ↔
      ∃ r ∈ obj2Reps.getD obj ∅, extId ∈ repToExt.getD r [] := by
  let f (reps : Finset ℕ) : Finset ℕ :=
    (reps.sort.flatMap fun repId => repToExt.getD repId []).toFinset
  have hget := List.getD_map obj2Reps ∅ (n := obj) f
  have hempty : f ∅ = ∅ := by simp [f]
  rw [hempty] at hget
  rw [show (objToAliasExtVIds repToExt obj2Reps).getD obj ∅ = f (obj2Reps.getD obj ∅) from hget,
    List.mem_toFinset, List.mem_flatMap]
  simp only [Finset.mem_sort]

/-- The last loop: what is behind the number of nodes has no pointees, so that the loop may stop. -/
theorem mem_aliasSets (repToExt : List (List ℕ)) (objToAlias : List (Finset ℕ)) (a b : ℕ) :
    ∀ {reps : List ℕ} {table : List (Finset ℕ)}, reps.Pairwise (· < ·) →
      (∀ r, a ∈ repToExt.getD r [] → a < table.length) →
      (b ∈ (s.aliasSets repToExt objToAlias reps table).getD a ∅ ↔ b ∈ table.getD a ∅ ∨
        ∃ r ∈ reps, a ∈ repToExt.getD r [] ∧ ∃ obj ∈ s.pts r, b ∈ objToAlias.getD obj ∅)
  | [], table, _, _ => by simp [aliasSets]
  | repId :: reps, table, hsorted, hlt => by
    obtain ⟨hgt, hsorted⟩ := List.pairwise_cons.1 hsorted
    rw [aliasSets]
    split_ifs with hnil hle
    · rw [mem_aliasSets repToExt objToAlias a b hsorted hlt, List.exists_mem_cons_iff, hnil]
      simp
    -- the loop stops here, and the later representatives are greater still
    · refine (or_iff_left ?_).symm
      rintro ⟨r, hr, -, obj, hobj, -⟩
      have hrlt := (s.mem_pts hobj).1
      rcases List.mem_cons.1 hr with rfl | hr
      · exact absurd hrlt (not_lt.2 hle)
      · exact absurd hrlt (not_lt.2 (hle.trans (hgt r hr).le))
    -- the union over the objects of the representative
    · have hacc : ∀ x, x ∈ (s.pts repId).sort.foldl (fun acc obj => acc ∪ objToAlias.getD obj ∅) ∅ ↔
          ∃ obj ∈ s.pts repId, x ∈ objToAlias.getD obj ∅ := by
        intro x
        refine (foldl_collect (fun _ => True) (fun acc : Finset ℕ => x ∈ acc)
          (fun obj => x ∈ objToAlias.getD obj ∅) _ (fun _ _ _ _ => trivial)
          (fun obj _ acc _ => Finset.mem_union) trivial).trans ?_
        simp only [Finset.notMem_empty, false_or, Finset.mem_sort]
      dsimp only
      rw [iterate_pts]
      generalize (s.pts repId).sort.foldl (fun acc obj => acc ∪ objToAlias.getD obj ∅) ∅ =
        aliasExtVIds at hacc ⊢
      have hlength : ∀ (ids : List ℕ), (ids.foldl (fun table extVId =>
          table.modify extVId (· ∪ aliasExtVIds)) table).length = table.length := fun ids =>
        foldl_preserve (I := fun t : List (Finset ℕ) => t.length = table.length) ids
          (fun id _ t ht => by rw [List.length_modify, ht]) rfl
      rw [mem_aliasSets repToExt objToAlias a b hsorted (by rwa [hlength]), List.exists_mem_cons_iff,
        ← or_assoc]
      refine or_congr_left ?_
      refine (foldl_collect (fun t : List (Finset ℕ) => t.length = table.length)
        (fun t => b ∈ t.getD a ∅) (fun id => id = a ∧ b ∈ aliasExtVIds) _
        (fun id _ t ht => by rw [List.length_modify, ht]) (fun id hid t ht => ?_) rfl).trans ?_
      · rw [getD_modify, ht]
        by_cases hida : id = a
        · subst hida
          rw [if_pos ⟨rfl, hlt repId hid⟩, Finset.mem_union]
          simp
        · simp [hida]
      · refine or_congr_right ⟨?_, ?_⟩
        · rintro ⟨id, hid, rfl, hb⟩
          exact ⟨hid, (hacc b).1 hb⟩
        · rintro ⟨ha, hb⟩
          exact ⟨a, ha, rfl, (hacc b).2 hb⟩

/-! ### The result -/

variable [DecidableEq B]

/-- A node that has the external id `a` after `buildResult`. -/
def HasExtId (externalVC : ValueCompressor B) (v a : ℕ) : Prop :=
  v < s.numLocal ∧ Carries (s.buildResult externalVC).1 (s.forEachVar v) a

/-- The alias sets hold the external ids of nodes whose representatives have a common pointee. -/
theorem mem_alias_iff (externalVC : ValueCompressor B) (a b : ℕ) :
    b ∈ (s.buildResult externalVC).2.getD a ∅ ↔
      ∃ v w, s.HasExtId externalVC v a ∧ s.HasExtId externalVC w b ∧
        ∃ obj, obj ∈ s.pts (s.rep v) ∧ obj ∈ s.pts (s.rep w) := by
  obtain ⟨-, hids⟩ := s.localToExt_spec externalVC
  have hlt : ∀ r, a ∈ (s.repToExtVIds (s.localToExt externalVC).2).getD r [] →
      a < (s.localToExt externalVC).1.size := by
    intro r hr
    obtain ⟨-, v, hv, -, ha⟩ := (s.mem_repToExtVIds _ r a).1 hr
    obtain ⟨cvar, -, -, hcvar⟩ := (hids v hv a).1 ha
    exact ValueCompressor.lt_size hcvar
  have hmemExt : ∀ r extId, extId ∈ (s.repToExtVIds (s.localToExt externalVC).2).getD r [] ↔
      r < s.nodes.length ∧ ∃ v, s.HasExtId externalVC v extId ∧ s.rep v = r := by
    intro r extId
    rw [mem_repToExtVIds]
    refine and_congr_right fun _ => exists_congr fun v => ⟨?_, ?_⟩
    · rintro ⟨hv, hr, hext⟩
      exact ⟨⟨hv, (hids v hv extId).1 hext⟩, hr⟩
    · rintro ⟨⟨hv, hext⟩, hr⟩
      exact ⟨hv, hr, (hids v hv extId).2 hext⟩
  rw [show (s.buildResult externalVC).2 = s.aliasSets _ _ _ _ from rfl,
    s.mem_aliasSets _ _ a b List.pairwise_lt_range (by rwa [List.length_replicate]),
    getD_replicate_self, or_iff_right (Finset.notMem_empty b)]
  constructor
  · rintro ⟨r, -, ha, obj, hobj, hb⟩
    obtain ⟨r', hr', hb⟩ := (mem_objToAliasExtVIds _ _ _ _).1 hb
    obtain ⟨-, -, hobj'⟩ := (s.mem_obj2Reps _ _ _).1 hr'
    obtain ⟨-, v, hv, rfl⟩ := (hmemExt _ _).1 ha
    obtain ⟨-, w, hw, rfl⟩ := (hmemExt _ _).1 hb
    exact ⟨v, w, hv, hw, obj, hobj, hobj'⟩
  · rintro ⟨v, w, hv, hw, obj, hobjv, hobjw⟩
    have ha := (hmemExt _ _).2 ⟨(s.mem_pts hobjv).1, v, hv, rfl⟩
    have hb := (hmemExt _ _).2 ⟨(s.mem_pts hobjw).1, w, hw, rfl⟩
    refine ⟨s.rep v, List.mem_range.2 (s.find_lt v hv.1), ha, obj, hobjv, ?_⟩
    refine (mem_objToAliasExtVIds _ _ _ _).2 ⟨s.rep w, ?_, hb⟩
    exact (s.mem_obj2Reps _ _ _).2 ⟨s.find_lt w hw.1, List.ne_nil_of_mem hb, hobjw⟩

theorem mem_buildResult_iff (externalVC : ValueCompressor B) :
    (∀ a b, b ∈ (s.buildResult externalVC).2.getD a ∅ ↔
      ∃ v w, s.HasExtId externalVC v a ∧ s.HasExtId externalVC w b ∧
        ∃ obj, obj ∈ s.pts (s.rep v) ∧ obj ∈ s.pts (s.rep w)) ∧
    ∀ a b, b ∈ (s.buildResult externalVC).2.getD a ∅ ↔
      a ∈ (s.buildResult externalVC).2.getD b ∅ := by
  refine ⟨s.mem_alias_iff externalVC, fun a b => ?_⟩
  rw [mem_alias_iff, mem_alias_iff]
  constructor
  · rintro ⟨v, w, hv, hw, obj, hobjv, hobjw⟩
    exact ⟨w, v, hw, hv, obj, hobjw, hobjv⟩
  · rintro ⟨v, w, hv, hw, obj, hobjv, hobjw⟩
    exact ⟨w, v, hw, hv, obj, hobjw, hobjv⟩

/-! ### The state of the solver -/

omit [DecidableEq B]

/-- The representative of a number, which is itself where there is no node. -/
def repNat {n : ℕ} (d : SolverData n) (v : ℕ) : ℕ := if h : v < n then d.rep ⟨v, h⟩ else v

theorem repNat_val {n : ℕ} (d : SolverData n) (v : Fin n) : repNat d v = d.rep v := by
  rw [repNat, dif_pos v.isLt]

theorem repNat_repNat {n : ℕ} (d : SolverData n) (v : ℕ) : repNat d (repNat d v) = repNat d v := by
  by_cases hv : v < n
  · rw [repNat_val d ⟨v, hv⟩, repNat_val]
    exact congrArg Fin.val (d.sccUf.find_find ⟨v, hv⟩)
  · have hself : repNat d v = v := by rw [repNat, dif_neg hv]
    rw [hself, hself]

/-- The final state for a state of the solver over the nodes of a compressor. -/
def ofData (localVC : ValueCompressor (AndersenVar B)) (ctxNodes : ContextualNodeTable B)
    (d : SolverData localVC.size) : FinalState B where
  localVC := localVC
  ctxNodes := ctxNodes
  sccUf := ⟨repNat d, repNat_repNat d⟩
  nodes := List.ofFn fun v => (d.nodes v).ptsSet.map Fin.valEmbedding
  find_lt v hv := by
    show repNat d v < localVC.size
    rw [repNat_val d ⟨v, hv⟩]
    exact Fin.isLt _
  pts_lt pts hpts obj hobj := by
    obtain ⟨v, rfl⟩ := (List.mem_ofFn' _ _).1 hpts
    obtain ⟨o, -, rfl⟩ := Finset.mem_map.1 hobj
    exact o.isLt

theorem mem_pts_ofData (localVC : ValueCompressor (AndersenVar B))
    (ctxNodes : ContextualNodeTable B) (d : SolverData localVC.size) (v : Fin localVC.size)
    (o : ℕ) : o ∈ (ofData localVC ctxNodes d).pts ((ofData localVC ctxNodes d).rep v) ↔
      ∃ obj : Fin localVC.size, d.solution v obj ∧ obj.val = o := by
  have hrep : (ofData localVC ctxNodes d).rep v = d.rep v := repNat_val d v
  have hpts : (ofData localVC ctxNodes d).pts (d.rep v) =
      (d.nodes (d.rep v)).ptsSet.map Fin.valEmbedding := by
    unfold pts
    rw [List.getD_eq_getElem _ _ (by simp [ofData])]
    exact List.getElem_ofFn _
  rw [hrep, hpts]
  exact Finset.mem_map

/-- The result of a state of the solver: what is aliased is what has a common pointee there. -/
theorem mem_alias_ofData [DecidableEq B] (localVC : ValueCompressor (AndersenVar B))
    (ctxNodes : ContextualNodeTable B) (d : SolverData localVC.size)
    (externalVC : ValueCompressor B) (a b : ℕ) :
    b ∈ ((ofData localVC ctxNodes d).buildResult externalVC).2.getD a ∅ ↔
      ∃ v w : Fin localVC.size, (ofData localVC ctxNodes d).HasExtId externalVC v a ∧
        (ofData localVC ctxNodes d).HasExtId externalVC w b ∧
        ∃ obj, d.solution v obj ∧ d.solution w obj := by
  rw [mem_alias_iff]
  constructor
  · rintro ⟨v, w, hv, hw, o, hov, how⟩
    obtain ⟨obj, hobjv, rfl⟩ := (mem_pts_ofData localVC ctxNodes d ⟨v, hv.1⟩ o).1 hov
    obtain ⟨obj', hobjw, heq⟩ := (mem_pts_ofData localVC ctxNodes d ⟨w, hw.1⟩ _).1 how
    obtain rfl := Fin.ext heq
    exact ⟨⟨v, hv.1⟩, ⟨w, hw.1⟩, hv, hw, obj', hobjv, hobjw⟩
  · rintro ⟨v, w, hv, hw, obj, hobjv, hobjw⟩
    exact ⟨v, w, hv, hw, obj, (mem_pts_ofData localVC ctxNodes d v obj).2 ⟨obj, hobjv, rfl⟩,
      (mem_pts_ofData localVC ctxNodes d w obj).2 ⟨obj, hobjw, rfl⟩⟩

end FinalState

end Phasar.Andersen
