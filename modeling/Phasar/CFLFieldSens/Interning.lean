import Mathlib.Logic.Function.Basic
import Phasar.CFLFieldSens.EdgeFunctions
import Phasar.Lib.HashConsing

/-!
# Interned edge functions of the CFL field-sensitive IFDS analysis

The sets of paths of edge functions are interned, and edge functions are compared by the addresses of their sets.
The hash of a set is that of the paths in the order in which the set is iterated. Compositions and joins are
cached.

* `CFLFieldSensEdgeFunctions`, `extend`, `combine`, `exec`: the calls;
* `Run`: the runs of an object, with the calls and what they return;
* `denote_exec`: every call returns what `EdgeFunction.extend` and `EdgeFunction.combine` say;
* `laws_iff`: when equal sets of paths have one address, and `combine` is a union.
-/

namespace Phasar.CFLFieldSens

open HashConsing (Table Valid)

/-- `EdgeIdentity`, `AllTop`, `AllBottom`, and `CFLFieldSensEdgeFunction` with the address of its set of paths. -/
inductive EdgeFunctionPtr
  | edgeIdentity
  | allTop
  | allBottom
  | cflFieldSens (impl : ℕ)
  deriving DecidableEq

/-- `EFResultPtr`. -/
inductive EFResultPtr
  | efPtr (impl : ℕ)
  | allBotPtr
  | allTopPtr
  deriving DecidableEq

def getResultEF : EFResultPtr → EdgeFunctionPtr
  | .efPtr impl => .cflFieldSens impl
  | .allBotPtr => .allBottom
  | .allTopPtr => .allTop

/-- A set stands in the cache in the order in which it is iterated. All sets that were looked up are in `inserted`,
which is never read. -/
structure CFLFieldSensEdgeFunctions where
  efInternCache : Table ℕ (List AccessPath)
  extendCache : ℕ × ℕ → Option EFResultPtr
  combineCache : ℕ × ℕ → Option EFResultPtr
  inserted : List (List AccessPath)

/-- What a call depends on besides its arguments: in which order it iterates a set, and the address of a new
object. -/
structure Surroundings where
  order : Paths → List AccessPath
  nodup_order : ∀ paths, (order paths).Nodup
  toFinset_order : ∀ paths, (order paths).toFinset = paths
  address : ℕ

def minmaxVal (first second : ℕ) : ℕ × ℕ := if second < first then (second, first) else (first, second)

namespace CFLFieldSensEdgeFunctions

/-- A new object. -/
def new : CFLFieldSensEdgeFunctions := ⟨[], fun _ => none, fun _ => none, []⟩

/-- `Impl->Transform.Paths`. -/
def paths (σ : CFLFieldSensEdgeFunctions) (impl : ℕ) : Paths :=
  ((HashConsing.get σ.efInternCache impl).getD []).toFinset

section Calls

variable (hash : List AccessPath → ℕ) (env : Surroundings)

def makeEFPtr (paths : Paths) (σ : CFLFieldSensEdgeFunctions) : EFResultPtr × CFLFieldSensEdgeFunctions :=
  let r := HashConsing.intern List.toFinset hash env.address (env.order paths) σ.efInternCache
  (.efPtr r.1, { σ with efInternCache := r.2, inserted := env.order paths :: σ.inserted })

def makeEF (paths : Paths) (σ : CFLFieldSensEdgeFunctions) : EdgeFunctionPtr × CFLFieldSensEdgeFunctions :=
  let r := makeEFPtr hash env paths σ
  (getResultEF r.1, r.2)

/-- The edge function of an instruction, with its set of paths interned. -/
def makeInstruction (f : EdgeFunction) (σ : CFLFieldSensEdgeFunctions) :
    EdgeFunctionPtr × CFLFieldSensEdgeFunctions :=
  match f with
  | .edgeIdentity => (.edgeIdentity, σ)
  | .allTop => (.allTop, σ)
  | .allBottom => (.allBottom, σ)
  | .transform paths => makeEF hash env paths σ

section Extend

variable (intersectKills : Paths → KillSet) (depthKLimit : ℕ)

/-- What `extend` puts into its cache. -/
def extendMiss (l r : Paths) (σ : CFLFieldSensEdgeFunctions) : EFResultPtr × CFLFieldSensEdgeFunctions :=
  let txn := applyTransforms (some depthKLimit) l r
  if txn = ∅ then (.allTopPtr, σ)
  else if txn.card > breadthKLimit then
    let txn := klimitPaths intersectKills txn
    if txn.card > widenKLimit then (.allBotPtr, σ) else makeEFPtr hash env txn σ
  else makeEFPtr hash env txn σ

def extend (l r : EdgeFunctionPtr) (σ : CFLFieldSensEdgeFunctions) :
    EdgeFunctionPtr × CFLFieldSensEdgeFunctions :=
  match l, r with
  | l, .edgeIdentity => (l, σ)
  | _, .allTop => (.allTop, σ)
  | _, .allBottom => (.allBottom, σ)
  | .edgeIdentity, .cflFieldSens r => (.cflFieldSens r, σ)
  | .allTop, .cflFieldSens _ => (.allTop, σ)
  | .allBottom, .cflFieldSens _ => (.allBottom, σ)
  | .cflFieldSens l, .cflFieldSens r =>
    if isEpsilon (σ.paths r) then (.cflFieldSens l, σ)
    else
      match σ.extendCache (l, r) with
      | some res => (getResultEF res, σ)
      | none =>
        let res := extendMiss hash env intersectKills depthKLimit (σ.paths l) (σ.paths r) σ
        (getResultEF res.1,
          { res.2 with extendCache := Function.update res.2.extendCache (l, r) (some res.1) })

end Extend

/-- What `combine` puts into its cache: the larger set where it contains the other one, otherwise the union. -/
def combineMiss (l r : ℕ) (σ : CFLFieldSensEdgeFunctions) : EFResultPtr × CFLFieldSensEdgeFunctions :=
  let leftSmaller := (σ.paths l).card < (σ.paths r).card
  let larger := if leftSmaller then σ.paths r else σ.paths l
  let smaller := if leftSmaller then σ.paths l else σ.paths r
  if smaller ⊆ larger then (.efPtr (if leftSmaller then r else l), σ)
  else if (larger ∪ smaller).card > widenKLimit then (.allBotPtr, σ)
  else makeEFPtr hash env (larger ∪ smaller) σ

/-- The join with `EdgeIdentity`. -/
def combineIdentity (impl : ℕ) (σ : CFLFieldSensEdgeFunctions) : EdgeFunctionPtr × CFLFieldSensEdgeFunctions :=
  if .epsilon ∈ σ.paths impl then (.cflFieldSens impl, σ)
  else makeEF hash env (insert .epsilon (σ.paths impl)) σ

def combine (l r : EdgeFunctionPtr) (σ : CFLFieldSensEdgeFunctions) :
    EdgeFunctionPtr × CFLFieldSensEdgeFunctions :=
  match l, r with
  | _, .allBottom => (.allBottom, σ)
  | .allTop, r => (r, σ)
  | l, .allTop => (l, σ)
  | .allBottom, _ => (.allBottom, σ)
  | .edgeIdentity, .edgeIdentity => (.edgeIdentity, σ)
  | .cflFieldSens l, .cflFieldSens r =>
    if l = r then (.cflFieldSens l, σ)
    else
      match σ.combineCache (minmaxVal l r) with
      | some res => (getResultEF res, σ)
      | none =>
        let res := combineMiss hash env l r σ
        (getResultEF res.1,
          { res.2 with combineCache := Function.update res.2.combineCache (minmaxVal l r) (some res.1) })
  | .cflFieldSens l, .edgeIdentity => combineIdentity hash env l σ
  | .edgeIdentity, .cflFieldSens r => combineIdentity hash env r σ

end Calls

/-! ### What edge functions stand for -/

def denote (σ : CFLFieldSensEdgeFunctions) : EdgeFunctionPtr → EdgeFunction
  | .edgeIdentity => .edgeIdentity
  | .allTop => .allTop
  | .allBottom => .allBottom
  | .cflFieldSens impl => .transform (σ.paths impl)

def addresses (σ : CFLFieldSensEdgeFunctions) : List ℕ := σ.efInternCache.map Prod.fst

/-- Edge functions of the object. -/
def Known (σ : CFLFieldSensEdgeFunctions) : EdgeFunctionPtr → Prop
  | .cflFieldSens impl => impl ∈ σ.addresses
  | _ => True

/-- The sets and their addresses stay. -/
def Grows (σ σ' : CFLFieldSensEdgeFunctions) : Prop := ∀ e ∈ σ.efInternCache, e ∈ σ'.efInternCache

variable {σ σ' σ'' : CFLFieldSensEdgeFunctions} {hash : List AccessPath → ℕ} {impl l r : ℕ} {f g : EdgeFunctionPtr}

theorem Grows.trans (h : Grows σ σ') (h' : Grows σ' σ'') : Grows σ σ'' := fun e he => h' e (h e he)

theorem Grows.known (h : Grows σ σ') (hf : σ.Known f) : σ'.Known f := by
  cases f with
  | cflFieldSens impl =>
    obtain ⟨e, he, rfl⟩ := List.mem_map.1 hf
    exact List.mem_map_of_mem (h e he)
  | _ => trivial

theorem paths_of_mem (hnodup : σ.addresses.Nodup) {order : List AccessPath}
    (h : (impl, order) ∈ σ.efInternCache) : σ.paths impl = order.toFinset := by
  rw [paths, HashConsing.get_of_mem hnodup h]
  rfl

theorem Grows.paths (h : Grows σ σ') (hnodup : σ.addresses.Nodup) (hnodup' : σ'.addresses.Nodup)
    (himpl : impl ∈ σ.addresses) : σ'.paths impl = σ.paths impl := by
  obtain ⟨⟨impl, order⟩, he, rfl⟩ := List.mem_map.1 himpl
  rw [paths_of_mem hnodup he, paths_of_mem hnodup' (h _ he)]

theorem Grows.denote (h : Grows σ σ') (hnodup : σ.addresses.Nodup) (hnodup' : σ'.addresses.Nodup)
    (hf : σ.Known f) : σ'.denote f = σ.denote f := by
  cases f with
  | cflFieldSens impl => exact congrArg EdgeFunction.transform (h.paths hnodup hnodup' hf)
  | _ => rfl

section Inv

variable (hash) (intersectKills : Paths → KillSet) (depthKLimit : ℕ)

/-- An entry of a cache: what the two edge functions and the result stand for. -/
structure Entry (σ : CFLFieldSensEdgeFunctions) (op : Paths → Paths → EdgeFunction) (l r : ℕ) (res : EFResultPtr) :
    Prop where
  left : l ∈ σ.addresses
  right : r ∈ σ.addresses
  known : σ.Known (getResultEF res)
  denote : σ.denote (getResultEF res) = op (σ.paths l) (σ.paths r)

/-- The entries of a cache are right. -/
def CacheRight (σ : CFLFieldSensEdgeFunctions) (op : Paths → Paths → EdgeFunction)
    (cache : ℕ × ℕ → Option EFResultPtr) : Prop :=
  ∀ l r res, cache (l, r) = some res → Entry σ op l r res

/-- The invariant of an object. -/
structure Inv (σ : CFLFieldSensEdgeFunctions) : Prop where
  valid : Valid List.toFinset hash σ.efInternCache σ.inserted
  extendCache : CacheRight σ (EdgeFunction.extendPaths intersectKills depthKLimit) σ.extendCache
  combineCache : CacheRight σ EdgeFunction.combinePaths σ.combineCache

/-- A call that returns an edge function for `v`. Every new set belongs to the edge function it returns. -/
structure Makes (σ : CFLFieldSensEdgeFunctions) (v : EdgeFunction)
    (r : EdgeFunctionPtr × CFLFieldSensEdgeFunctions) : Prop where
  inv : Inv hash intersectKills depthKLimit r.2
  grows : Grows σ r.2
  known : r.2.Known r.1
  denote : r.2.denote r.1 = v
  returned : ∀ e ∈ r.2.efInternCache, e ∈ σ.efInternCache ∨ r.1 = .cflFieldSens e.1

end Inv

variable {intersectKills : Paths → KillSet} {depthKLimit : ℕ} {v : EdgeFunction}

theorem Entry.grows {op : Paths → Paths → EdgeFunction} {res : EFResultPtr} (h : Entry σ op l r res)
    (hgrows : Grows σ σ') (hnodup : σ.addresses.Nodup) (hnodup' : σ'.addresses.Nodup) : Entry σ' op l r res where
  left := hgrows.known (f := .cflFieldSens l) h.left
  right := hgrows.known (f := .cflFieldSens r) h.right
  known := hgrows.known h.known
  denote := by
    rw [hgrows.denote hnodup hnodup' h.known, hgrows.paths hnodup hnodup' h.left,
      hgrows.paths hnodup hnodup' h.right, h.denote]

theorem CacheRight.grows {op : Paths → Paths → EdgeFunction} {cache : ℕ × ℕ → Option EFResultPtr}
    (h : CacheRight σ op cache) (hgrows : Grows σ σ') (hnodup : σ.addresses.Nodup)
    (hnodup' : σ'.addresses.Nodup) : CacheRight σ' op cache :=
  fun l r res hres => (h l r res hres).grows hgrows hnodup hnodup'

/-- Growing the table of sets keeps the caches right. -/
theorem Inv.of_grows (h : Inv hash intersectKills depthKLimit σ)
    (hvalid : Valid List.toFinset hash σ'.efInternCache σ'.inserted) (hgrows : Grows σ σ')
    (hextend : σ'.extendCache = σ.extendCache) (hcombine : σ'.combineCache = σ.combineCache) :
    Inv hash intersectKills depthKLimit σ' where
  valid := hvalid
  extendCache := hextend ▸ h.extendCache.grows hgrows h.valid.nodup hvalid.nodup
  combineCache := hcombine ▸ h.combineCache.grows hgrows h.valid.nodup hvalid.nodup

/-- A call that returns an edge function that was there. -/
theorem Makes.of_known (h : Inv hash intersectKills depthKLimit σ) (hf : σ.Known f) :
    Makes hash intersectKills depthKLimit σ (σ.denote f) (f, σ) :=
  ⟨h, fun _ he => he, hf, rfl, fun _ he => .inl he⟩

theorem makeEF_spec {env : Surroundings} (h : Inv hash intersectKills depthKLimit σ)
    (hnew : env.address ∉ σ.addresses) (S : Paths) :
    Makes hash intersectKills depthKLimit σ (.transform S) (makeEF hash env S σ) := by
  have hvalid := h.valid.intern hnew (env.order S)
  rcases HashConsing.intern_cases List.toFinset hash σ.efInternCache env.address (env.order S) with
    ⟨e, he, -, hkey, heq⟩ | ⟨-, heq⟩
  · rw [heq] at hvalid
    rw [makeEF, makeEFPtr, heq]
    refine ⟨h.of_grows hvalid (fun _ he => he) rfl rfl, fun _ he => he, List.mem_map_of_mem he, ?_,
      fun _ he => .inl he⟩
    rw [env.toFinset_order] at hkey
    exact congrArg EdgeFunction.transform ((paths_of_mem h.valid.nodup he).trans hkey)
  · rw [heq] at hvalid
    rw [makeEF, makeEFPtr, heq]
    refine ⟨h.of_grows hvalid (fun _ he => .tail _ he) rfl rfl, fun _ he => .tail _ he, .head _, ?_, ?_⟩
    · refine congrArg EdgeFunction.transform ?_
      rw [paths, HashConsing.get_of_mem hvalid.nodup (.head _)]
      exact env.toFinset_order S
    · intro e he
      rcases List.mem_cons.1 he with rfl | he
      · exact .inr rfl
      · exact .inl he

/-- What `extend` puts into its cache is the composition of the sets. -/
theorem extendMiss_spec {env : Surroundings} (h : Inv hash intersectKills depthKLimit σ)
    (hnew : env.address ∉ σ.addresses) (L R : Paths) :
    Makes hash intersectKills depthKLimit σ (EdgeFunction.extendPaths intersectKills depthKLimit L R)
      (getResultEF (extendMiss hash env intersectKills depthKLimit L R σ).1,
        (extendMiss hash env intersectKills depthKLimit L R σ).2) := by
  rw [extendMiss, EdgeFunction.extendPaths]
  dsimp only
  split_ifs
  · exact .of_known h (f := .allTop) trivial
  · exact .of_known h (f := .allBottom) trivial
  · exact makeEF_spec h hnew _
  · exact makeEF_spec h hnew _

/-- What `combine` puts into its cache is the join of the sets. -/
theorem combineMiss_spec {env : Surroundings} (h : Inv hash intersectKills depthKLimit σ)
    (hnew : env.address ∉ σ.addresses) (hl : l ∈ σ.addresses) (hr : r ∈ σ.addresses) :
    Makes hash intersectKills depthKLimit σ (EdgeFunction.combinePaths (σ.paths l) (σ.paths r))
      (getResultEF (combineMiss hash env l r σ).1, (combineMiss hash env l r σ).2) := by
  rw [combineMiss, EdgeFunction.combinePaths]
  split_ifs
  · exact .of_known h (f := .cflFieldSens r) hr
  · exact .of_known h (f := .allBottom) trivial
  · exact makeEF_spec h hnew _
  · exact .of_known h (f := .cflFieldSens l) hl
  · exact .of_known h (f := .allBottom) trivial
  · exact makeEF_spec h hnew _

theorem CacheRight.update {op : Paths → Paths → EdgeFunction} {cache : ℕ × ℕ → Option EFResultPtr}
    {res : EFResultPtr} (h : CacheRight σ op cache) (hentry : Entry σ op l r res) :
    CacheRight σ op (Function.update cache (l, r) (some res)) := by
  intro l' r' res' hres
  by_cases hkey : (l', r') = (l, r)
  · obtain ⟨rfl, rfl⟩ := Prod.mk.inj hkey
    rw [Function.update_self] at hres
    exact Option.some.inj hres ▸ hentry
  · rw [Function.update_of_ne hkey] at hres
    exact h l' r' res' hres

/-- What a miss returns is the entry that it makes. -/
theorem Makes.entry {op : Paths → Paths → EdgeFunction} {res : EFResultPtr} (hnodup : σ.addresses.Nodup)
    (hl : l ∈ σ.addresses) (hr : r ∈ σ.addresses)
    (h : Makes hash intersectKills depthKLimit σ (op (σ.paths l) (σ.paths r)) (getResultEF res, σ')) :
    Entry σ' op l r res where
  left := h.grows.known (f := .cflFieldSens l) hl
  right := h.grows.known (f := .cflFieldSens r) hr
  known := h.known
  denote := by
    rw [h.grows.paths hnodup h.inv.valid.nodup hl, h.grows.paths hnodup h.inv.valid.nodup hr]
    exact h.denote

/-- New entries of the caches change nothing else. -/
theorem Makes.caches (h : Makes hash intersectKills depthKLimit σ v (f, σ')) {c d : ℕ × ℕ → Option EFResultPtr}
    (hc : CacheRight σ' (EdgeFunction.extendPaths intersectKills depthKLimit) c)
    (hd : CacheRight σ' EdgeFunction.combinePaths d) :
    Makes hash intersectKills depthKLimit σ v (f, { σ' with extendCache := c, combineCache := d }) := by
  have hnodup := h.inv.valid.nodup
  refine ⟨⟨h.inv.valid, ?_, ?_⟩, h.grows, h.known, h.denote, h.returned⟩
  · exact hc.grows (fun _ he => he) hnodup hnodup
  · exact hd.grows (fun _ he => he) hnodup hnodup

theorem extend_spec {env : Surroundings} (h : Inv hash intersectKills depthKLimit σ)
    (hnew : env.address ∉ σ.addresses) (hf : σ.Known f) (hg : σ.Known g) :
    Makes hash intersectKills depthKLimit σ
      (EdgeFunction.extend intersectKills depthKLimit (σ.denote f) (σ.denote g))
      (extend hash env intersectKills depthKLimit f g σ) := by
  cases g with
  | edgeIdentity => cases f <;> exact .of_known h hf
  | allTop => cases f <;> exact .of_known h (f := .allTop) trivial
  | allBottom => cases f <;> exact .of_known h (f := .allBottom) trivial
  | cflFieldSens r =>
    cases f with
    | edgeIdentity => exact .of_known h hg
    | allTop => exact .of_known h (f := .allTop) trivial
    | allBottom => exact .of_known h (f := .allBottom) trivial
    | cflFieldSens l =>
      rw [extend, denote, denote, EdgeFunction.extend]
      split_ifs with hepsilon
      · exact .of_known h hf
      · cases hres : σ.extendCache (l, r) with
        | some res =>
          have hentry := h.extendCache l r res hres
          rw [← hentry.denote]
          exact .of_known h hentry.known
        | none =>
          have hmiss := extendMiss_spec h hnew (σ.paths l) (σ.paths r)
          have hentry := hmiss.entry h.valid.nodup hf hg
          exact hmiss.caches (hmiss.inv.extendCache.update hentry) hmiss.inv.combineCache

theorem minmaxVal_cases (l r : ℕ) : minmaxVal l r = (l, r) ∨ minmaxVal l r = (r, l) := by
  rw [minmaxVal]
  split_ifs
  · exact .inr rfl
  · exact .inl rfl

theorem combinePaths_comm (L R : Paths) : EdgeFunction.combinePaths L R = EdgeFunction.combinePaths R L := by
  rw [EdgeFunction.combinePaths, EdgeFunction.combinePaths]
  rcases lt_trichotomy L.card R.card with hlt | heq | hlt
  · rw [if_pos hlt, if_pos hlt, if_neg hlt.not_gt, if_neg hlt.not_gt]
  · rw [if_neg heq.not_lt, if_neg heq.not_lt, if_neg heq.not_gt, if_neg heq.not_gt, Finset.union_comm L R]
    by_cases hsub : R ⊆ L
    · rw [Finset.eq_of_subset_of_card_le hsub heq.le]
    · have hsub' : ¬L ⊆ R := fun hsub' => hsub (Finset.eq_of_subset_of_card_le hsub' heq.ge).ge
      rw [if_neg hsub, if_neg hsub']
  · rw [if_neg hlt.not_gt, if_neg hlt.not_gt, if_pos hlt, if_pos hlt]

theorem Entry.symm {res : EFResultPtr} (h : Entry σ EdgeFunction.combinePaths l r res) :
    Entry σ EdgeFunction.combinePaths r l res :=
  ⟨h.right, h.left, h.known, h.denote.trans (combinePaths_comm _ _)⟩

theorem entry_minmaxVal {res : EFResultPtr} :
    Entry σ EdgeFunction.combinePaths (minmaxVal l r).1 (minmaxVal l r).2 res ↔
      Entry σ EdgeFunction.combinePaths l r res := by
  rcases minmaxVal_cases l r with hkey | hkey
  · rw [hkey]
  · rw [hkey]
    exact ⟨Entry.symm, Entry.symm⟩

theorem combinePaths_self (L : Paths) : EdgeFunction.combinePaths L L = .transform L := by
  rw [EdgeFunction.combinePaths, if_neg (lt_irrefl _), if_pos Finset.Subset.rfl]

theorem combineIdentity_spec {env : Surroundings} (h : Inv hash intersectKills depthKLimit σ)
    (hnew : env.address ∉ σ.addresses) (himpl : impl ∈ σ.addresses) :
    Makes hash intersectKills depthKLimit σ (.transform (insert .epsilon (σ.paths impl)))
      (combineIdentity hash env impl σ) := by
  rw [combineIdentity]
  split_ifs with hmem
  · rw [Finset.insert_eq_of_mem hmem]
    exact .of_known h (f := .cflFieldSens impl) himpl
  · exact makeEF_spec h hnew _

theorem combine_spec {env : Surroundings} (h : Inv hash intersectKills depthKLimit σ)
    (hnew : env.address ∉ σ.addresses) (hf : σ.Known f) (hg : σ.Known g) :
    Makes hash intersectKills depthKLimit σ (EdgeFunction.combine (σ.denote f) (σ.denote g))
      (combine hash env f g σ) := by
  cases g with
  | edgeIdentity =>
    cases f with
    | edgeIdentity => exact .of_known h hf
    | allTop => exact .of_known h hg
    | allBottom => exact .of_known h hf
    | cflFieldSens l => exact combineIdentity_spec h hnew hf
  | allTop => cases f <;> exact .of_known h hf
  | allBottom => cases f <;> exact .of_known h hg
  | cflFieldSens r =>
    cases f with
    | edgeIdentity => exact combineIdentity_spec h hnew hg
    | allTop => exact .of_known h hg
    | allBottom => exact .of_known h hf
    | cflFieldSens l =>
      rw [combine, denote, denote, EdgeFunction.combine]
      split_ifs with heq
      · subst heq
        rw [combinePaths_self]
        exact .of_known h hf
      · cases hres : σ.combineCache (minmaxVal l r) with
        | some res =>
          have hentry := entry_minmaxVal.1 (h.combineCache _ _ res hres)
          rw [← hentry.denote]
          exact .of_known h hentry.known
        | none =>
          have hmiss := combineMiss_spec h hnew hf hg
          have hentry := entry_minmaxVal.2 (hmiss.entry h.valid.nodup hf hg)
          exact hmiss.caches hmiss.inv.extendCache (hmiss.inv.combineCache.update hentry)

theorem makeInstruction_spec {env : Surroundings} (h : Inv hash intersectKills depthKLimit σ)
    (hnew : env.address ∉ σ.addresses) (v : EdgeFunction) :
    Makes hash intersectKills depthKLimit σ v (makeInstruction hash env v σ) := by
  cases v with
  | edgeIdentity => exact .of_known h (f := .edgeIdentity) trivial
  | allTop => exact .of_known h (f := .allTop) trivial
  | allBottom => exact .of_known h (f := .allBottom) trivial
  | transform S => exact makeEF_spec h hnew S

end CFLFieldSensEdgeFunctions

/-! ### Runs -/

/-- A call of the problem. -/
inductive Call (V : Type*)
  | getStoreEdgeFunction (a : StoreArgs V)
  | getLoadEdgeFunction (isPointer : Bool) (offset : ℤ)
  | extend (l r : EdgeFunctionPtr)
  | combine (l r : EdgeFunctionPtr)

def Call.operands {V : Type*} : Call V → List EdgeFunctionPtr
  | .extend l r => [l, r]
  | .combine l r => [l, r]
  | _ => []

/-- The calls, and what they returned, with the latest one first. -/
abbrev History (V : Type*) := List (Call V × EdgeFunctionPtr)

/-- `CFLFieldSensEdgeFunction` values were returned by a call. -/
def Returned {V : Type*} (H : History V) : EdgeFunctionPtr → Prop
  | .cflFieldSens impl => ∃ c, (c, .cflFieldSens impl) ∈ H
  | _ => True

open CFLFieldSensEdgeFunctions

section Run

variable {V : Type*} [DecidableEq V] (hash : List AccessPath → ℕ) (ir : LoadChains V)
  (intersectKills : Paths → KillSet) (depthKLimit : ℕ)

def exec (c : Call V) (env : Surroundings) (σ : CFLFieldSensEdgeFunctions) :
    EdgeFunctionPtr × CFLFieldSensEdgeFunctions :=
  match c with
  | .getStoreEdgeFunction a => makeInstruction hash env (getStoreEdgeFunction ir depthKLimit a) σ
  | .getLoadEdgeFunction isPointer offset => makeInstruction hash env (getLoadEdgeFunction isPointer offset) σ
  | .extend l r => extend hash env intersectKills depthKLimit l r σ
  | .combine l r => combine hash env l r σ

/-- The runs of an object. -/
inductive Run : CFLFieldSensEdgeFunctions → History V → Prop
  | new : Run .new []
  | call {σ : CFLFieldSensEdgeFunctions} {H : History V} (c : Call V) (env : Surroundings) : Run σ H →
    env.address ∉ σ.addresses → (∀ f ∈ c.operands, Returned H f) →
    Run (exec hash ir intersectKills depthKLimit c env σ).2
      ((c, (exec hash ir intersectKills depthKLimit c env σ).1) :: H)

/-- What a call returns, as a function of sets of paths. -/
def value (σ : CFLFieldSensEdgeFunctions) : Call V → EdgeFunction
  | .getStoreEdgeFunction a => getStoreEdgeFunction ir depthKLimit a
  | .getLoadEdgeFunction isPointer offset => getLoadEdgeFunction isPointer offset
  | .extend l r => EdgeFunction.extend intersectKills depthKLimit (σ.denote l) (σ.denote r)
  | .combine l r => EdgeFunction.combine (σ.denote l) (σ.denote r)

variable {hash ir intersectKills depthKLimit} {σ : CFLFieldSensEdgeFunctions} {H : History V}

variable (ir) in
/-- Every call returns what it returns for sets of paths. -/
theorem denote_exec (h : Inv hash intersectKills depthKLimit σ) (c : Call V) {env : Surroundings}
    (hnew : env.address ∉ σ.addresses) (hknown : ∀ f ∈ c.operands, σ.Known f) :
    Makes hash intersectKills depthKLimit σ (value ir intersectKills depthKLimit σ c)
      (exec hash ir intersectKills depthKLimit c env σ) := by
  cases c with
  | getStoreEdgeFunction a => exact makeInstruction_spec h hnew _
  | getLoadEdgeFunction isPointer offset => exact makeInstruction_spec h hnew _
  | extend l r => exact extend_spec h hnew (hknown l (.head _)) (hknown r (.tail _ (.head _)))
  | combine l r => exact combine_spec h hnew (hknown l (.head _)) (hknown r (.tail _ (.head _)))

variable (hash ir intersectKills depthKLimit) in
/-- The invariant of a run. -/
structure RunInv (σ : CFLFieldSensEdgeFunctions) (H : History V) : Prop where
  inv : Inv hash intersectKills depthKLimit σ
  known_iff : ∀ f, σ.Known f ↔ Returned H f
  operands : ∀ x ∈ H, ∀ f ∈ x.1.operands, σ.Known f
  known : ∀ x ∈ H, σ.Known x.2
  denote : ∀ x ∈ H, σ.denote x.2 = value ir intersectKills depthKLimit σ x.1

theorem value_of_grows {σ' : CFLFieldSensEdgeFunctions} (hgrows : Grows σ σ') (hnodup : σ.addresses.Nodup)
    (hnodup' : σ'.addresses.Nodup) {c : Call V} (hknown : ∀ f ∈ c.operands, σ.Known f) :
    value ir intersectKills depthKLimit σ' c = value ir intersectKills depthKLimit σ c := by
  cases c with
  | getStoreEdgeFunction a => rfl
  | getLoadEdgeFunction isPointer offset => rfl
  | extend l r =>
    rw [value, value, hgrows.denote hnodup hnodup' (hknown l (.head _)),
      hgrows.denote hnodup hnodup' (hknown r (.tail _ (.head _)))]
  | combine l r =>
    rw [value, value, hgrows.denote hnodup hnodup' (hknown l (.head _)),
      hgrows.denote hnodup hnodup' (hknown r (.tail _ (.head _)))]

theorem Run.inv (h : Run hash ir intersectKills depthKLimit σ H) :
    RunInv hash ir intersectKills depthKLimit σ H := by
  induction h with
  | new =>
    refine ⟨⟨.nil, nofun, nofun⟩, fun f => ?_, nofun, nofun, nofun⟩
    cases f with
    | cflFieldSens impl =>
      refine ⟨fun hmem => absurd hmem List.not_mem_nil, ?_⟩
      rintro ⟨_, hmem⟩
      exact absurd hmem List.not_mem_nil
    | _ => exact Iff.rfl
  | @call σ H c env _ hnew hoperands ih =>
    have hknown : ∀ f ∈ c.operands, σ.Known f := fun f hf => (ih.known_iff f).2 (hoperands f hf)
    have hmakes := denote_exec ir ih.inv c hnew hknown
    have hnodup := ih.inv.valid.nodup
    have hnodup' := hmakes.inv.valid.nodup
    refine ⟨hmakes.inv, fun f => ?_, ?_, ?_, ?_⟩
    · cases f with
      | cflFieldSens impl =>
        constructor
        · intro hf
          obtain ⟨e, he, rfl⟩ := List.mem_map.1 hf
          rcases hmakes.returned e he with hold | heq
          · obtain ⟨c', hc'⟩ := (ih.known_iff (.cflFieldSens e.1)).1 (List.mem_map_of_mem hold)
            exact ⟨c', .tail _ hc'⟩
          · exact ⟨c, heq ▸ .head _⟩
        · rintro ⟨c', hc'⟩
          rcases List.mem_cons.1 hc' with heq | hc'
          · rw [(Prod.mk.inj heq).2]
            exact hmakes.known
          · exact hmakes.grows.known ((ih.known_iff _).2 ⟨c', hc'⟩)
      | _ => exact Iff.rfl
    · intro x hx f hf
      rcases List.mem_cons.1 hx with rfl | hx
      · exact hmakes.grows.known (hknown f hf)
      · exact hmakes.grows.known (ih.operands x hx f hf)
    · intro x hx
      rcases List.mem_cons.1 hx with rfl | hx
      · exact hmakes.known
      · exact hmakes.grows.known (ih.known x hx)
    · intro x hx
      rcases List.mem_cons.1 hx with rfl | hx
      · exact hmakes.denote.trans (value_of_grows hmakes.grows hnodup hnodup' hknown).symm
      · rw [hmakes.grows.denote hnodup hnodup' (ih.known x hx), ih.denote x hx]
        exact (value_of_grows hmakes.grows hnodup hnodup' (ih.operands x hx)).symm

/-! ### The laws -/

/-- The set of paths of an edge function; `EdgeIdentity` stands for the empty path. -/
def pathSet : EdgeFunction → Option Paths
  | .edgeIdentity => some {.epsilon}
  | .transform paths => some paths
  | _ => none

/-- What the calls of a run promise. -/
structure Laws (σ : CFLFieldSensEdgeFunctions) (H : History V) : Prop where
  unique : ∀ p q, Returned H (.cflFieldSens p) → Returned H (.cflFieldSens q) → σ.paths p = σ.paths q → p = q
  union : ∀ f g r F G, (.combine f g, r) ∈ H → pathSet (σ.denote f) = some F → pathSet (σ.denote g) = some G →
    (F ∪ G).card ≤ widenKLimit → pathSet (σ.denote r) = some (F ∪ G)
  comm : ∀ f g r r', (.combine f g, r) ∈ H → (.combine g f, r') ∈ H → r = r'
  assoc : ∀ f g h fg gh r r' F G K, (.combine f g, fg) ∈ H → (.combine fg h, r) ∈ H → (.combine g h, gh) ∈ H →
    (.combine f gh, r') ∈ H → pathSet (σ.denote f) = some F → pathSet (σ.denote g) = some G →
    pathSet (σ.denote h) = some K → (F ∪ G ∪ K).card ≤ widenKLimit → r = r'
  idem : ∀ f r, (.combine f f, r) ∈ H → r = f

namespace EdgeFunction

theorem combinePaths_of_card {L R : Paths} (h : (L ∪ R).card ≤ widenKLimit) :
    combinePaths L R = transform (L ∪ R) := by
  rw [combinePaths]
  split_ifs with hlt hsub hlarge hsub hlarge
  · rw [Finset.union_eq_right.2 hsub]
  · rw [Finset.union_comm] at hlarge
    exact absurd h hlarge.not_ge
  · rw [Finset.union_comm]
  · rw [Finset.union_eq_left.2 hsub]
  · exact absurd h hlarge.not_ge
  · rfl

theorem combine_comm (f g : EdgeFunction) : combine f g = combine g f := by
  cases f <;> cases g <;> first | rfl | exact combinePaths_comm _ _

theorem combine_self (f : EdgeFunction) : combine f f = f := by
  cases f <;> first | rfl | exact combinePaths_self _

/-- On sets of paths, `combine` is the union. -/
theorem pathSet_combine {f g : EdgeFunction} {F G : Paths} (hf : pathSet f = some F) (hg : pathSet g = some G)
    (hcard : (F ∪ G).card ≤ widenKLimit) : pathSet (combine f g) = some (F ∪ G) ∧
      (combine f g = edgeIdentity ↔ f = edgeIdentity ∧ g = edgeIdentity) := by
  cases f with
  | edgeIdentity =>
    cases Option.some.inj hf
    cases g with
    | edgeIdentity =>
      cases Option.some.inj hg
      exact ⟨rfl, fun _ => ⟨rfl, rfl⟩, fun _ => rfl⟩
    | transform R =>
      cases Option.some.inj hg
      exact ⟨rfl, nofun, nofun⟩
    | _ => cases hg
  | transform L =>
    cases Option.some.inj hf
    cases g with
    | edgeIdentity =>
      cases Option.some.inj hg
      rw [Finset.union_comm]
      exact ⟨rfl, nofun, nofun⟩
    | transform R =>
      cases Option.some.inj hg
      rw [combine, combinePaths_of_card hcard]
      exact ⟨rfl, nofun, nofun⟩
    | _ => cases hg
  | _ => cases hf

theorem eq_of_pathSet {f g : EdgeFunction} {F : Paths} (hf : pathSet f = some F) (hg : pathSet g = some F)
    (h : f = edgeIdentity ↔ g = edgeIdentity) : f = g := by
  cases f with
  | edgeIdentity => exact (h.1 rfl).symm
  | transform L =>
    cases g with
    | edgeIdentity => exact absurd (h.2 rfl) nofun
    | transform R => rw [Option.some.inj hf, Option.some.inj hg]
    | _ => cases hg
  | _ => cases hf

theorem combine_assoc {f g h : EdgeFunction} {F G K : Paths} (hf : pathSet f = some F) (hg : pathSet g = some G)
    (hh : pathSet h = some K) (hcard : (F ∪ G ∪ K).card ≤ widenKLimit) :
    combine (combine f g) h = combine f (combine g h) := by
  have hcard' : (F ∪ (G ∪ K)).card ≤ widenKLimit := by rwa [← Finset.union_assoc]
  obtain ⟨hfg, hfg'⟩ := pathSet_combine hf hg ((Finset.card_le_card Finset.subset_union_left).trans hcard)
  obtain ⟨hgh, hgh'⟩ := pathSet_combine hg hh ((Finset.card_le_card Finset.subset_union_right).trans hcard')
  obtain ⟨hleft, hleft'⟩ := pathSet_combine hfg hh hcard
  obtain ⟨hright, hright'⟩ := pathSet_combine hf hgh hcard'
  rw [← Finset.union_assoc] at hright
  refine eq_of_pathSet hleft hright ?_
  rw [hleft', hright', hfg', hgh', and_assoc]

end EdgeFunction

omit [DecidableEq V] in
/-- Edge functions of a run that stand for the same are the same, if there is one address for each set. -/
theorem eq_of_denote {f g : EdgeFunctionPtr}
    (hunique : ∀ p q, Returned H (.cflFieldSens p) → Returned H (.cflFieldSens q) → σ.paths p = σ.paths q → p = q)
    (hf : Returned H f) (hg : Returned H g) (h : σ.denote f = σ.denote g) : f = g := by
  cases f <;> cases g <;> first | rfl | cases h | skip
  next p q => rw [hunique p q hf hg (EdgeFunction.transform.inj h)]

/-- The laws hold in a run exactly when equal sets that were looked up have equal hashes. -/
theorem laws_iff (h : Run hash ir intersectKills depthKLimit σ H) : Laws σ H ↔
    ∀ l ∈ σ.inserted, ∀ m ∈ σ.inserted, l.toFinset = m.toFinset → hash l = hash m := by
  have hinv := h.inv
  have hunique : (∀ p q, Returned H (.cflFieldSens p) → Returned H (.cflFieldSens q) →
      σ.paths p = σ.paths q → p = q) ↔
      ∀ l ∈ σ.inserted, ∀ m ∈ σ.inserted, l.toFinset = m.toFinset → hash l = hash m := by
    rw [← hinv.inv.valid.injective_iff]
    have hpaths : ∀ e ∈ σ.efInternCache, σ.paths e.1 = e.2.toFinset := fun e he =>
      paths_of_mem hinv.inv.valid.nodup he
    have hreturned : ∀ e ∈ σ.efInternCache, Returned H (.cflFieldSens e.1) := fun e he =>
      (hinv.known_iff (.cflFieldSens e.1)).1 (List.mem_map_of_mem he)
    constructor
    · intro hinj e he e' he' hkey
      exact hinj e.1 e'.1 (hreturned e he) (hreturned e' he') (by rw [hpaths e he, hpaths e' he', hkey])
    · intro hinj p q hp hq hkey
      obtain ⟨e, he, rfl⟩ := List.mem_map.1 ((hinv.known_iff (.cflFieldSens p)).2 hp)
      obtain ⟨e', he', rfl⟩ := List.mem_map.1 ((hinv.known_iff (.cflFieldSens q)).2 hq)
      exact hinj e he e' he' (by rw [← hpaths e he, ← hpaths e' he', hkey])
  rw [← hunique]
  refine ⟨Laws.unique, fun hunique => ⟨hunique, ?_, ?_, ?_, ?_⟩⟩
  · intro f g r F G hr hF hG hcard
    rw [hinv.denote _ hr]
    exact (EdgeFunction.pathSet_combine hF hG hcard).1
  · intro f g r r' hr hr'
    refine eq_of_denote hunique ((hinv.known_iff _).1 (hinv.known _ hr)) ((hinv.known_iff _).1 (hinv.known _ hr')) ?_
    rw [hinv.denote _ hr, hinv.denote _ hr']
    exact EdgeFunction.combine_comm _ _
  · intro f g h fg gh r r' F G K hfg hr hgh hr' hF hG hK hcard
    refine eq_of_denote hunique ((hinv.known_iff _).1 (hinv.known _ hr)) ((hinv.known_iff _).1 (hinv.known _ hr')) ?_
    rw [hinv.denote _ hr, hinv.denote _ hr', value, value, hinv.denote _ hfg, hinv.denote _ hgh]
    exact EdgeFunction.combine_assoc hF hG hK hcard
  · intro f r hr
    refine eq_of_denote hunique ((hinv.known_iff _).1 (hinv.known _ hr))
      ((hinv.known_iff _).1 (hinv.operands _ hr f (.head _))) ?_
    rw [hinv.denote _ hr]
    exact EdgeFunction.combine_self _

end Run

/-! ### Two orders -/

/-- A container that iterates the elements of `l` in the order of `l`. -/
noncomputable def iterating (l : List AccessPath) (hl : l.Nodup) (address : ℕ) : Surroundings where
  order paths := if l.toFinset = paths then l else paths.toList
  nodup_order paths := by
    split_ifs
    · exact hl
    · exact paths.nodup_toList
  toFinset_order paths := by
    split_ifs with h
    · exact h
    · exact paths.toList_toFinset
  address := address

/-- A hash of the paths, one after the other. -/
def sequenceHash (l : List AccessPath) : ℕ := l.foldl (fun h F => 31 * h + F.loads.sum.toNat) 0

def loadPath (offset : ℤ) : AccessPath := ⟨[offset], [], .empty, 0⟩

def noLoads : LoadChains Unit := ⟨fun _ => none, fun _ _ => false⟩

noncomputable def twoOrders : List (Call Unit × Surroundings) :=
  [(.combine (.cflFieldSens 1) (.cflFieldSens 5), iterating [loadPath 16, .epsilon, loadPath 8] (by decide) 6),
    (.combine .edgeIdentity (.cflFieldSens 2), iterating [loadPath 16, .epsilon] (by decide) 5),
    (.combine (.cflFieldSens 3) (.cflFieldSens 2), iterating [loadPath 8, .epsilon, loadPath 16] (by decide) 4),
    (.combine (.cflFieldSens 1) .edgeIdentity, iterating [loadPath 8, .epsilon] (by decide) 3),
    (.getLoadEdgeFunction false 16, iterating [loadPath 16] (by decide) 2),
    (.getLoadEdgeFunction false 8, iterating [loadPath 8] (by decide) 1)]

noncomputable def runCalls (hash : List AccessPath → ℕ) : List (Call Unit × Surroundings) →
    CFLFieldSensEdgeFunctions × History Unit
  | [] => (.new, [])
  | (c, env) :: rest =>
    let before := runCalls hash rest
    let r := exec hash noLoads (fun _ => .empty) 5 c env before.1
    (r.2, (c, r.1) :: before.2)

theorem returned_of_mem {V : Type*} {H : History V} {f : EdgeFunctionPtr}
    (h : f = .edgeIdentity ∨ f ∈ H.map Prod.snd) : Returned H f := by
  rcases h with rfl | h
  · trivial
  · obtain ⟨⟨c, f⟩, hmem, rfl⟩ := List.mem_map.1 h
    cases f with
    | cflFieldSens impl => exact ⟨c, hmem⟩
    | _ => trivial

/-- The calls `cs` are a run. -/
def IsRun (hash : List AccessPath → ℕ) (cs : List (Call Unit × Surroundings)) : Prop :=
  Run hash noLoads (fun _ => .empty) 5 (runCalls hash cs).1 (runCalls hash cs).2

theorem IsRun.cons {hash : List AccessPath → ℕ} {cs : List (Call Unit × Surroundings)} (h : IsRun hash cs)
    {c : Call Unit} {env : Surroundings} (hnew : env.address ∉ (runCalls hash cs).1.addresses)
    (hoperands : ∀ f ∈ c.operands, f = .edgeIdentity ∨ f ∈ (runCalls hash cs).2.map Prod.snd) :
    IsRun hash ((c, env) :: cs) :=
  .call c env h hnew fun f hf => returned_of_mem (hoperands f hf)

theorem isRun_joinIdentity : IsRun sequenceHash (twoOrders.drop 3) := by
  have hnew : IsRun sequenceHash [] := .new
  have hload : IsRun sequenceHash (twoOrders.drop 5) := hnew.cons (by decide) (by decide)
  have hloads : IsRun sequenceHash (twoOrders.drop 4) := hload.cons (by decide) (by decide)
  exact hloads.cons (by decide) (by decide)

theorem isRun_twoOrders : IsRun sequenceHash twoOrders := by
  have hleft : IsRun sequenceHash (twoOrders.drop 2) := isRun_joinIdentity.cons (by decide) (by decide)
  have hright : IsRun sequenceHash (twoOrders.drop 1) := hleft.cons (by decide) (by decide)
  exact hright.cons (by decide) (by decide)

theorem laws_joinIdentity : Laws (runCalls sequenceHash (twoOrders.drop 3)).1
    (runCalls sequenceHash (twoOrders.drop 3)).2 :=
  (laws_iff isRun_joinIdentity).2 (by decide)

/-- One set of three paths, built in two ways and iterated in two orders, gets two addresses. -/
theorem not_laws_twoOrders : ¬∀ (hash : List AccessPath → ℕ) (ir : LoadChains Unit)
    (intersectKills : Paths → KillSet) (depthKLimit : ℕ) (σ : CFLFieldSensEdgeFunctions) (H : History Unit),
    Run hash ir intersectKills depthKLimit σ H → Laws σ H := by
  intro h
  have hunique := (h _ _ _ _ _ _ isRun_twoOrders).unique 4 6
  have hleft : Returned (runCalls sequenceHash twoOrders).2 (.cflFieldSens 4) := returned_of_mem (by decide)
  have hright : Returned (runCalls sequenceHash twoOrders).2 (.cflFieldSens 6) := returned_of_mem (by decide)
  exact absurd (hunique hleft hright (by decide)) (by decide)

end Phasar.CFLFieldSens
