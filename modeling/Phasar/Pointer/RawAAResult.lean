import Phasar.Pointer.IndirectionSensUnionFindAA
import Phasar.Pointer.UnionFindAA
import Mathlib.Data.Finset.Basic

/-!
# Results of union-find alias analyses

The results that `consumeAAResults` makes of the alias sets of an analysis. A filter says which values
are listed in alias sets; `mayAlias` compares the classes of two values and does not see the filter.

* `BasicUnionFindAA`, `CallingContextSensAA`: the alias sets, with one or several objects for a value;
* `BasicUnionFindAAResult`, `CallingContextSensUnionFindAAResult`: `getRawAliasSet` and `mayAlias`;
* `mem_getRawAliasSet`, `mayAlias_iff`: both in terms of `SharesClass`;
* `mayAlias_consumeAAResults`: the analyses of a program are such analyses.
-/

namespace Phasar

/-- `RawAliasSet<ValueId>`. -/
abbrev RawAliasSet := Finset ℕ

/-- `compress`: the number of the class of an object. -/
def compress {Obj : Type} [DecidableEq Obj] (aliasSets : UnionFind Obj) (objects : List Obj) (x : Obj) :
    ℕ := (objects.map aliasSets.find).eraseDups.idxOf (aliasSets.find x)

theorem compress_eq_iff {Obj : Type} [DecidableEq Obj] {aliasSets : UnionFind Obj}
    {objects : List Obj} {x : Obj} (hx : x ∈ objects) (y : Obj) :
    compress aliasSets objects x = compress aliasSets objects y ↔
      aliasSets.find x = aliasSets.find y :=
  List.idxOf_inj (List.mem_eraseDups.2 (List.mem_map_of_mem hx))

/-! ### Results of single analyses -/

/-- One class for each value. -/
structure BasicUnionFindAAResult where
  size : ℕ
  backwardView : ℕ → RawAliasSet
  var2Rep : ℕ → ℕ

namespace BasicUnionFindAAResult

def getRawAliasSet (r : BasicUnionFindAAResult) (var : ℕ) : RawAliasSet :=
  r.backwardView (r.var2Rep var)

def mayAlias (r : BasicUnionFindAAResult) (var1 var2 : ℕ) : Bool :=
  if var1 = var2 then true
  else if ¬(var1 < r.size) ∨ ¬(var2 < r.size) then false
  else decide (r.var2Rep var1 = r.var2Rep var2)

end BasicUnionFindAAResult

/-- Several classes for each value. -/
structure CallingContextSensUnionFindAAResult where
  size : ℕ
  backwardView : ℕ → RawAliasSet
  var2Rep : ℕ → List ℕ

namespace CallingContextSensUnionFindAAResult

def getRawAliasSet (r : CallingContextSensUnionFindAAResult) (var : ℕ) : RawAliasSet :=
  (r.var2Rep var).foldl (fun resultSet rep => resultSet ∪ r.backwardView rep) ∅

def mayAlias (r : CallingContextSensUnionFindAAResult) (var1 var2 : ℕ) : Bool :=
  if var1 = var2 then true
  else if ¬(var1 < r.size) ∨ ¬(var2 < r.size) then false
  else (r.var2Rep var1).any fun rep => (r.var2Rep var2).contains rep

end CallingContextSensUnionFindAAResult

/-- The alias sets of an analysis with one object for each of `numVars` values. -/
structure BasicUnionFindAA (Obj : Type) (numVars : ℕ) where
  aliasSets : UnionFind Obj
  objects : List Obj
  var2Obj : ℕ → Obj
  var2Obj_mem : ∀ vid < numVars, var2Obj vid ∈ objects

namespace BasicUnionFindAA

variable {Obj : Type} [DecidableEq Obj] {numVars : ℕ}

/-- One round of the loop over the values. -/
def addResult (ana : BasicUnionFindAA Obj numVars) (shouldInclude : ℕ → Bool)
    (result : BasicUnionFindAAResult) (vid : ℕ) : BasicUnionFindAAResult :=
  let rep := compress ana.aliasSets ana.objects (ana.var2Obj vid)
  { result with
    var2Rep := Function.update result.var2Rep vid rep
    backwardView := if shouldInclude vid then
        Function.update result.backwardView rep (insert vid (result.backwardView rep))
      else result.backwardView }

/-- The entry `invalidRep` is that of a value whose class is not known yet. -/
def consumeAAResults (ana : BasicUnionFindAA Obj numVars) (shouldInclude : ℕ → Bool) :
    BasicUnionFindAAResult :=
  let invalidRep := 2 ^ 32 - 1
  (List.range numVars).foldl (ana.addResult shouldInclude) ⟨numVars, fun _ => ∅, fun _ => invalidRep⟩

/-- The class of a value. -/
def classOf (ana : BasicUnionFindAA Obj numVars) (v : ℕ) : ℕ :=
  compress ana.aliasSets ana.objects (ana.var2Obj v)

theorem foldl_addResult (ana : BasicUnionFindAA Obj numVars) (shouldInclude : ℕ → Bool)
    (init : BasicUnionFindAAResult) (hinit : ∀ rep, init.backwardView rep = ∅) (k : ℕ) :
    ((List.range k).foldl (ana.addResult shouldInclude) init).size = init.size ∧
    (∀ v < k, ((List.range k).foldl (ana.addResult shouldInclude) init).var2Rep v = ana.classOf v) ∧
    ∀ rep w, w ∈ ((List.range k).foldl (ana.addResult shouldInclude) init).backwardView rep ↔
      w < k ∧ shouldInclude w = true ∧ ana.classOf w = rep := by
  induction k with
  | zero => exact ⟨rfl, fun v hv => absurd hv (Nat.not_lt_zero v), fun rep w => by simp [hinit]⟩
  | succ k ih =>
    rw [List.range_succ, List.foldl_append, List.foldl_cons, List.foldl_nil]
    obtain ⟨hsize, hrep, hview⟩ := ih
    set result := (List.range k).foldl (ana.addResult shouldInclude) init
    refine ⟨hsize, fun v hv => ?_, fun rep w => ?_⟩
    · simp only [addResult]
      rcases Nat.lt_succ_iff_lt_or_eq.1 hv with hlt | rfl
      · rw [Function.update_of_ne (Nat.ne_of_lt hlt), hrep v hlt]
      · exact Function.update_self _ _ _
    · simp only [addResult]
      by_cases hinc : shouldInclude k = true
      · rw [if_pos hinc, ← classOf]
        by_cases heq : ana.classOf k = rep
        · subst heq
          rw [Function.update_self, Finset.mem_insert, hview]
          grind
        · rw [Function.update_of_ne (Ne.symm heq), hview]
          grind
      · rw [if_neg hinc, hview]
        grind

theorem consumeAAResults_var2Rep (ana : BasicUnionFindAA Obj numVars) (shouldInclude : ℕ → Bool)
    {v : ℕ} (hv : v < numVars) : (ana.consumeAAResults shouldInclude).var2Rep v = ana.classOf v :=
  (ana.foldl_addResult shouldInclude _ (fun _ => rfl) numVars).2.1 v hv

theorem mem_consumeAAResults (ana : BasicUnionFindAA Obj numVars) (shouldInclude : ℕ → Bool)
    {rep w : ℕ} : w ∈ (ana.consumeAAResults shouldInclude).backwardView rep ↔
      w < numVars ∧ shouldInclude w = true ∧ ana.classOf w = rep :=
  (ana.foldl_addResult shouldInclude _ (fun _ => rfl) numVars).2.2 rep w

theorem consumeAAResults_size (ana : BasicUnionFindAA Obj numVars) (shouldInclude : ℕ → Bool) :
    (ana.consumeAAResults shouldInclude).size = numVars :=
  (ana.foldl_addResult shouldInclude _ (fun _ => rfl) numVars).1

/-- Two values have their objects in one class. -/
def SharesClass (ana : BasicUnionFindAA Obj numVars) (v w : ℕ) : Prop :=
  ana.aliasSets.find (ana.var2Obj v) = ana.aliasSets.find (ana.var2Obj w)

theorem classOf_eq_iff (ana : BasicUnionFindAA Obj numVars) {v : ℕ} (hv : v < numVars) (w : ℕ) :
    ana.classOf v = ana.classOf w ↔ ana.SharesClass v w :=
  compress_eq_iff (ana.var2Obj_mem v hv) _

theorem mem_getRawAliasSet (ana : BasicUnionFindAA Obj numVars) (shouldInclude : ℕ → Bool)
    {v w : ℕ} (hv : v < numVars) :
    w ∈ (ana.consumeAAResults shouldInclude).getRawAliasSet v ↔
      w < numVars ∧ shouldInclude w = true ∧ ana.SharesClass v w := by
  rw [BasicUnionFindAAResult.getRawAliasSet, mem_consumeAAResults,
    consumeAAResults_var2Rep ana shouldInclude hv, ← classOf_eq_iff ana hv,
    @eq_comm _ (ana.classOf w)]

theorem mayAlias_iff (ana : BasicUnionFindAA Obj numVars) (shouldInclude : ℕ → Bool)
    {v w : ℕ} (hv : v < numVars) (hw : w < numVars) :
    (ana.consumeAAResults shouldInclude).mayAlias v w = true ↔ ana.SharesClass v w := by
  rw [BasicUnionFindAAResult.mayAlias, consumeAAResults_size]
  split_ifs with heq hbound
  · subst heq
    exact iff_of_true rfl rfl
  · exact absurd hbound (by omega)
  · rw [decide_eq_true_eq, consumeAAResults_var2Rep ana shouldInclude hv,
      consumeAAResults_var2Rep ana shouldInclude hw, classOf_eq_iff ana hv]

end BasicUnionFindAA

/-- The alias sets of an analysis with several objects for each of `numVars` values. -/
structure CallingContextSensAA (Obj : Type) (numVars : ℕ) where
  aliasSets : UnionFind Obj
  objects : List Obj
  var2Obj : ℕ → List Obj
  var2Obj_mem : ∀ vid < numVars, ∀ x ∈ var2Obj vid, x ∈ objects
  var2Obj_ne_nil : ∀ vid < numVars, var2Obj vid ≠ []

namespace CallingContextSensAA

variable {Obj : Type} [DecidableEq Obj] {numVars : ℕ}

/-- Append the class of one object to those of its value. -/
def addObject (ana : CallingContextSensAA Obj numVars) (valId : ℕ) (included : Bool)
    (result : CallingContextSensUnionFindAAResult) (obj : Obj) :
    CallingContextSensUnionFindAAResult :=
  let rep := compress ana.aliasSets ana.objects obj
  let pushed := Function.update result.var2Rep valId (result.var2Rep valId ++ [rep])
  if included then
    if valId ∈ result.backwardView rep then result
    else { result with
      backwardView := Function.update result.backwardView rep
        (insert valId (result.backwardView rep))
      var2Rep := pushed }
  else if (result.var2Rep valId).contains rep then result
  else { result with var2Rep := pushed }

def consumeAAResults (ana : CallingContextSensAA Obj numVars) (shouldInclude : ℕ → Bool) :
    CallingContextSensUnionFindAAResult :=
  (List.range numVars).foldl (fun result valId =>
    (ana.var2Obj valId).foldl (ana.addObject valId (shouldInclude valId)) result)
    ⟨numVars, fun _ => ∅, fun _ => []⟩

/-- Some object of the value is in the class `rep`. -/
def InClass (ana : CallingContextSensAA Obj numVars) (v rep : ℕ) : Prop :=
  ∃ x ∈ ana.var2Obj v, compress ana.aliasSets ana.objects x = rep

/-- What is listed after some objects `l` of the value `v`. -/
structure AddedObjects (ana : CallingContextSensAA Obj numVars) (v : ℕ) (included : Bool) (l : List Obj)
    (before after : CallingContextSensUnionFindAAResult) : Prop where
  size_eq : after.size = before.size
  var2Rep_of_ne : ∀ u, u ≠ v → after.var2Rep u = before.var2Rep u
  mem_var2Rep : ∀ rep, rep ∈ after.var2Rep v ↔
    rep ∈ before.var2Rep v ∨ ∃ x ∈ l, compress ana.aliasSets ana.objects x = rep
  mem_backwardView : ∀ rep w, w ∈ after.backwardView rep ↔ w ∈ before.backwardView rep ∨
    w = v ∧ included = true ∧ ∃ x ∈ l, compress ana.aliasSets ana.objects x = rep

theorem addedObjects_addObject (ana : CallingContextSensAA Obj numVars) {v : ℕ} {included : Bool}
    {before : CallingContextSensUnionFindAAResult}
    (hbefore : ∀ rep, v ∈ before.backwardView rep → rep ∈ before.var2Rep v) (x : Obj) :
    ana.AddedObjects v included [x] before (ana.addObject v included before x) := by
  rw [addObject]
  split_ifs with hinc hmem hcontains
  · refine ⟨rfl, fun _ _ => rfl, fun rep => ?_, fun rep w => ?_⟩
    · have := hbefore _ hmem
      grind
    · grind
  · refine ⟨rfl, fun u hu => Function.update_of_ne hu _ _, fun rep => ?_, fun rep w => ?_⟩
    · show rep ∈ Function.update before.var2Rep v _ v ↔ _
      rw [Function.update_self, List.mem_append]
      grind
    · show w ∈ Function.update before.backwardView _ _ rep ↔ _
      by_cases heq : rep = compress ana.aliasSets ana.objects x
      · subst heq
        rw [Function.update_self, Finset.mem_insert]
        grind
      · rw [Function.update_of_ne heq]
        grind
  · have := List.contains_iff_mem.1 hcontains
    refine ⟨rfl, fun _ _ => rfl, fun rep => ?_, fun rep w => ?_⟩ <;> grind
  · refine ⟨rfl, fun u hu => Function.update_of_ne hu _ _, fun rep => ?_, fun rep w => ?_⟩
    · show rep ∈ Function.update before.var2Rep v _ v ↔ _
      rw [Function.update_self, List.mem_append]
      grind
    · grind

theorem AddedObjects.trans {ana : CallingContextSensAA Obj numVars} {v : ℕ} {included : Bool}
    {l m : List Obj} {r s t : CallingContextSensUnionFindAAResult}
    (hrs : ana.AddedObjects v included l r s) (hst : ana.AddedObjects v included m s t) :
    ana.AddedObjects v included (l ++ m) r t where
  size_eq := hst.size_eq.trans hrs.size_eq
  var2Rep_of_ne u hu := (hst.var2Rep_of_ne u hu).trans (hrs.var2Rep_of_ne u hu)
  mem_var2Rep rep := by
    rw [hst.mem_var2Rep, hrs.mem_var2Rep]
    grind
  mem_backwardView rep w := by
    rw [hst.mem_backwardView, hrs.mem_backwardView]
    grind

/-- A value that is listed in a class knows the class. -/
theorem AddedObjects.listed {ana : CallingContextSensAA Obj numVars} {v : ℕ} {included : Bool}
    {l : List Obj} {r s : CallingContextSensUnionFindAAResult}
    (h : ana.AddedObjects v included l r s)
    (hr : ∀ rep, v ∈ r.backwardView rep → rep ∈ r.var2Rep v) (rep : ℕ)
    (hmem : v ∈ s.backwardView rep) : rep ∈ s.var2Rep v := by
  rw [h.mem_var2Rep]
  rcases (h.mem_backwardView rep v).1 hmem with hmem | ⟨-, -, hx⟩
  · exact Or.inl (hr rep hmem)
  · exact Or.inr hx

theorem addedObjects_foldl (ana : CallingContextSensAA Obj numVars) {v : ℕ} {included : Bool}
    (l : List Obj) {before : CallingContextSensUnionFindAAResult}
    (hbefore : ∀ rep, v ∈ before.backwardView rep → rep ∈ before.var2Rep v) :
    ana.AddedObjects v included l before (l.foldl (ana.addObject v included) before) := by
  induction l generalizing before with
  | nil => exact ⟨rfl, fun _ _ => rfl, fun _ => by simp, fun _ _ => by simp⟩
  | cons x l ih =>
    have hx : ana.AddedObjects v included [x] before (ana.addObject v included before x) :=
      ana.addedObjects_addObject hbefore x
    exact hx.trans (ih (hx.listed hbefore))

/-- What is listed for the values below `k`. -/
structure AddedValues (ana : CallingContextSensAA Obj numVars) (shouldInclude : ℕ → Bool) (k : ℕ)
    (result : CallingContextSensUnionFindAAResult) : Prop where
  size_eq : result.size = numVars
  mem_var2Rep : ∀ v < k, ∀ rep, rep ∈ result.var2Rep v ↔ ana.InClass v rep
  var2Rep_nil : ∀ v, k ≤ v → result.var2Rep v = []
  mem_backwardView : ∀ rep w, w ∈ result.backwardView rep ↔
    w < k ∧ shouldInclude w = true ∧ ana.InClass w rep

theorem addedValues_foldl (ana : CallingContextSensAA Obj numVars) (shouldInclude : ℕ → Bool) (k : ℕ) :
    ana.AddedValues shouldInclude k ((List.range k).foldl (fun result valId =>
      (ana.var2Obj valId).foldl (ana.addObject valId (shouldInclude valId)) result)
      ⟨numVars, fun _ => ∅, fun _ => []⟩) := by
  induction k with
  | zero => exact ⟨rfl, by simp, fun _ _ => rfl, by simp⟩
  | succ k ih =>
    rw [List.range_succ, List.foldl_append, List.foldl_cons, List.foldl_nil]
    set result := (List.range k).foldl _ _
    have hadd : ana.AddedObjects k (shouldInclude k) (ana.var2Obj k) result
        ((ana.var2Obj k).foldl (ana.addObject k (shouldInclude k)) result) :=
      ana.addedObjects_foldl _ fun rep hmem =>
        absurd ((ih.mem_backwardView rep k).1 hmem).1 (lt_irrefl k)
    refine ⟨hadd.size_eq.trans ih.size_eq, fun v hv rep => ?_, fun v hv => ?_, fun rep w => ?_⟩
    · rcases Nat.lt_succ_iff_lt_or_eq.1 hv with hlt | rfl
      · rw [hadd.var2Rep_of_ne v (Nat.ne_of_lt hlt), ih.mem_var2Rep v hlt]
      · rw [hadd.mem_var2Rep, ih.var2Rep_nil v le_rfl]
        simp [InClass]
    · rw [hadd.var2Rep_of_ne v (by omega), ih.var2Rep_nil v (by omega)]
    · rw [hadd.mem_backwardView, ih.mem_backwardView, ← InClass]
      constructor
      · rintro (⟨hw, hinc, hcls⟩ | ⟨rfl, hinc, hcls⟩)
        · exact ⟨Nat.lt_succ_of_lt hw, hinc, hcls⟩
        · exact ⟨Nat.lt_succ_self w, hinc, hcls⟩
      · rintro ⟨hw, hinc, hcls⟩
        rcases Nat.lt_succ_iff_lt_or_eq.1 hw with hlt | rfl
        · exact Or.inl ⟨hlt, hinc, hcls⟩
        · exact Or.inr ⟨rfl, hinc, hcls⟩

theorem addedValues_consumeAAResults (ana : CallingContextSensAA Obj numVars)
    (shouldInclude : ℕ → Bool) :
    ana.AddedValues shouldInclude numVars (ana.consumeAAResults shouldInclude) :=
  ana.addedValues_foldl shouldInclude numVars

/-- Two values have objects in one class. -/
def SharesClass (ana : CallingContextSensAA Obj numVars) (v w : ℕ) : Prop :=
  ∃ x ∈ ana.var2Obj v, ∃ y ∈ ana.var2Obj w, ana.aliasSets.find x = ana.aliasSets.find y

theorem sharesClass_iff (ana : CallingContextSensAA Obj numVars) {v : ℕ} (hv : v < numVars) (w : ℕ) :
    ana.SharesClass v w ↔ ∃ rep, ana.InClass v rep ∧ ana.InClass w rep := by
  constructor
  · rintro ⟨x, hx, y, hy, heq⟩
    have hcls := (compress_eq_iff (ana.var2Obj_mem v hv x hx) y).2 heq
    exact ⟨_, ⟨x, hx, hcls⟩, y, hy, rfl⟩
  · rintro ⟨rep, ⟨x, hx, rfl⟩, y, hy, heq⟩
    exact ⟨x, hx, y, hy, (compress_eq_iff (ana.var2Obj_mem v hv x hx) y).1 heq.symm⟩

theorem mem_getRawAliasSet (ana : CallingContextSensAA Obj numVars) (shouldInclude : ℕ → Bool)
    {v w : ℕ} (hv : v < numVars) :
    w ∈ (ana.consumeAAResults shouldInclude).getRawAliasSet v ↔
      w < numVars ∧ shouldInclude w = true ∧ ana.SharesClass v w := by
  have hadd := ana.addedValues_consumeAAResults shouldInclude
  have hfold : ∀ (reps : List ℕ) (acc : RawAliasSet), w ∈ reps.foldl (fun resultSet rep =>
      resultSet ∪ (ana.consumeAAResults shouldInclude).backwardView rep) acc ↔ w ∈ acc ∨
        ∃ rep ∈ reps, w ∈ (ana.consumeAAResults shouldInclude).backwardView rep := by
    intro reps
    induction reps with
    | nil => simp
    | cons rep reps ih =>
      intro acc
      rw [List.foldl_cons, ih, Finset.mem_union, List.exists_mem_cons_iff, or_assoc]
  rw [CallingContextSensUnionFindAAResult.getRawAliasSet, hfold, sharesClass_iff ana hv]
  simp only [Finset.notMem_empty, false_or, hadd.mem_var2Rep v hv, hadd.mem_backwardView]
  constructor
  · rintro ⟨rep, hrep, hw, hinc, hcls⟩
    exact ⟨hw, hinc, rep, hrep, hcls⟩
  · rintro ⟨hw, hinc, rep, hrep, hcls⟩
    exact ⟨rep, hrep, hw, hinc, hcls⟩

omit [DecidableEq Obj] in
theorem sharesClass_self (ana : CallingContextSensAA Obj numVars) {v : ℕ} (hv : v < numVars) :
    ana.SharesClass v v := by
  obtain ⟨x, hx⟩ := List.exists_mem_of_ne_nil _ (ana.var2Obj_ne_nil v hv)
  exact ⟨x, hx, x, hx, rfl⟩

theorem mayAlias_iff (ana : CallingContextSensAA Obj numVars) (shouldInclude : ℕ → Bool)
    {v w : ℕ} (hv : v < numVars) (hw : w < numVars) :
    (ana.consumeAAResults shouldInclude).mayAlias v w = true ↔ ana.SharesClass v w := by
  have hadd := ana.addedValues_consumeAAResults shouldInclude
  rw [CallingContextSensUnionFindAAResult.mayAlias, hadd.size_eq]
  split_ifs with heq hbound
  · subst heq
    exact iff_of_true rfl (ana.sharesClass_self hv)
  · exact absurd hbound (by omega)
  · rw [List.any_eq_true, sharesClass_iff ana hv]
    simp only [List.contains_iff_mem, hadd.mem_var2Rep v hv, hadd.mem_var2Rep w hw]

end CallingContextSensAA

/-! ### The analyses of a program -/

/-- The alias sets of values at indirection depths; a result looks at depth zero. -/
def IndirectionSensUnionFindAA.analysis (K : ℕ) {n : ℕ} (calls : Calls n) : BasicUnionFindAA IndObject n where
  aliasSets := aliasSets K calls
  objects := (List.range n).map (·, 0)
  var2Obj vid := (vid, 0)
  var2Obj_mem _ hvid := List.mem_map_of_mem (List.mem_range.2 hvid)

theorem IndirectionSensUnionFindAA.mayAlias_consumeAAResults (K : ℕ) {n : ℕ} (calls : Calls n)
    (shouldInclude : ℕ → Bool) (v w : Fin n) :
    ((analysis K calls).consumeAAResults shouldInclude).mayAlias v w = mayAlias K calls v w := by
  rw [Bool.eq_iff_iff, BasicUnionFindAA.mayAlias_iff _ _ v.isLt w.isLt, mayAlias, Bool.or_eq_true,
    decide_eq_true_eq, decide_eq_true_eq]
  constructor
  · exact Or.inr
  · rintro (rfl | h)
    · rfl
    · exact h

namespace CallingContextSensUnionFindAA

variable {N F : Type} [DecidableEq N] (K : ℕ) (G : CallGraph N F) (A : Assignments N F)

omit [DecidableEq N] in
theorem visitAllCallingContexts_ne_nil (fn : F) : visitAllCallingContexts K G fn ≠ [] := by
  obtain ⟨p, after, heq⟩ := List.exists_cons_of_ne_nil (callChains_ne_nil G K fn)
  exact List.ne_nil_of_mem (mem_visit_iff_exists.2 ⟨[], p, after, heq, rfl⟩)

/-- Every value gets an object. -/
theorem var2Obj_ne_nil (v : Fin A.numVars) : var2Obj K G A v ≠ [] := by
  cases hfn : A.getFunction v with
  | none => exact List.ne_nil_of_mem ((mem_var2Obj_of_none hfn).2 rfl)
  | some fn =>
    obtain ⟨ctx, hctx⟩ := List.exists_mem_of_ne_nil _ (visitAllCallingContexts_ne_nil K G fn)
    exact List.ne_nil_of_mem ((mem_var2Obj_of_some hfn).2 hctx)

/-- The objects of a value. -/
def objectsOf (v : Fin A.numVars) : List (CtxObject K A) := (var2Obj K G A v).map (v, ·)

/-- The alias sets of values in calling contexts. -/
def analysis : CallingContextSensAA (CtxObject K A) A.numVars where
  aliasSets := aliasSets K G A
  objects := (List.finRange A.numVars).flatMap (objectsOf K G A)
  var2Obj vid := if h : vid < A.numVars then objectsOf K G A ⟨vid, h⟩ else []
  var2Obj_mem vid hvid x hx := by
    rw [dif_pos hvid] at hx
    exact List.mem_flatMap.2 ⟨_, List.mem_finRange _, hx⟩
  var2Obj_ne_nil vid hvid := by
    rw [dif_pos hvid]
    exact fun hnil => var2Obj_ne_nil K G A _ (List.map_eq_nil_iff.1 hnil)

theorem mayAlias_consumeAAResults (shouldInclude : ℕ → Bool) (v w : Fin A.numVars) :
    ((analysis K G A).consumeAAResults shouldInclude).mayAlias v w = mayAlias K G A v w := by
  have hvar : ∀ u : Fin A.numVars, (analysis K G A).var2Obj u = objectsOf K G A u := fun u =>
    dif_pos u.isLt
  have hrep : ∀ (u : Fin A.numVars) {rep}, rep ∈ var2Rep K G A u ↔
      ∃ x ∈ objectsOf K G A u, (aliasSets K G A).find x = rep := by
    intro u rep
    rw [var2Rep, mem_foldl_insert fun ctx => (aliasSets K G A).find (u, ctx)]
    simp [objectsOf]
  rw [Bool.eq_iff_iff, CallingContextSensAA.mayAlias_iff _ _ v.isLt w.isLt, mayAlias, Bool.or_eq_true,
    decide_eq_true_eq, List.any_eq_true, CallingContextSensAA.SharesClass, hvar, hvar]
  constructor
  · rintro ⟨x, hx, y, hy, heq⟩
    exact Or.inr ⟨_, (hrep v).2 ⟨x, hx, rfl⟩, List.contains_iff_mem.2 ((hrep w).2 ⟨y, hy, heq.symm⟩)⟩
  · rintro (rfl | ⟨rep, hv, hw⟩)
    · obtain ⟨ctx, hctx⟩ := List.exists_mem_of_ne_nil _ (var2Obj_ne_nil K G A v)
      exact ⟨(v, ctx), List.mem_map_of_mem hctx, (v, ctx), List.mem_map_of_mem hctx, rfl⟩
    · obtain ⟨x, hx, rfl⟩ := (hrep v).1 hv
      obtain ⟨y, hy, heq⟩ := (hrep w).1 (List.contains_iff_mem.1 hw)
      exact ⟨x, hx, y, hy, heq.symm⟩

end CallingContextSensUnionFindAA

end Phasar
