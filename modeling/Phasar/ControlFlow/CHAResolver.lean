import Phasar.TypeHierarchy.DIBasedTypeHierarchy
import Mathlib.Algebra.BigOperators.Group.List.Basic

/-!
# Virtual calls and vtable arrays

The vtable of a class has an array for each vtable pointer of an object. `LLVMVFTableProvider` numbers the
arrays of the bases of a class, and `CHAResolver` looks into one array of each subtype of the receiver.

* `ClassHierarchy`, `getBasesOfVirt`, `getVTableIndexInHierarchy`, `resolveVirtualCall`;
* `vptrs`, `Subobject`: the arrays of the subobjects of an object;
* `resolver_sound_iff`: when all arrays of the subobjects of the receiver's type are looked up.
-/

namespace Phasar.CHAResolver

open DIBasedTypeHierarchy

/-- The classes of a module without virtual inheritance. Only classes have a vtable holder, and the bases
of a class come before it. -/
structure ClassHierarchy (T : Type*) extends DebugInfo T where
  vtableHolder : T → Bool
  rank : T → ℕ
  class_of_holder : ∀ t, vtableHolder t → isComposite t ∧ (tag t = .classType ∨ tag t = .structureType)
  rank_lt : ∀ t, ∀ base ∈ inheritance t, rank base.strip < rank t

section Model

variable {T : Type*} [DecidableEq T]

/-- The insertion into the set of a type. -/
def insertIndex (into : T → List ℕ) (t : T) (idx : ℕ) : T → List ℕ :=
  if idx ∈ into t then into else Function.update into t (into t ++ [idx])

/-- `getBasesOfVirt`. The rank of the class bounds the depth of the recursion. -/
def getBasesOfVirt (H : ClassHierarchy T) : ℕ → (T → List ℕ) → T → ℕ → T → List ℕ
  | 0, into, virtTy, currIdx => insertIndex into virtTy currIdx
  | depth + 1, into, virtTy, currIdx =>
    ((H.inheritance virtTy).foldl (fun s base =>
      match base with
      | .typedef _ => s
      | .type baseClass =>
        -- the index counts the bases, whatever the number of their vtables is
        if H.isComposite baseClass && H.vtableHolder baseClass then
          (getBasesOfVirt H depth s.1 baseClass s.2, s.2 + 1)
        else s) (insertIndex into virtTy currIdx, currIdx)).1

/-- `BasesOfVirt`. -/
def basesOfVirt (H : ClassHierarchy T) (t : T) : Option (T → List ℕ) :=
  if t ∈ H.types ∧ H.isComposite t ∧ (H.tag t = .classType ∨ H.tag t = .structureType) ∧ H.vtableHolder t then
    some (getBasesOfVirt H (H.rank t) (fun _ => []) t 0)
  else none

def getVTableIndexInHierarchy (H : ClassHierarchy T) (derivedType baseType : T) : List ℕ :=
  match basesOfVirt H derivedType with
  | none => [0]
  | some bases => if bases baseType = [] then [0] else bases baseType

/-- The first element that the iteration over a set meets. -/
structure FirstElement where
  first : List ℕ → ℕ
  first_mem : ∀ l, l ≠ [] → first l ∈ l

/-- The vtable global of each class: the entries of its arrays that are functions. -/
abbrev VTables (T : Type*) := T → List (List (Option String))

/-- `getVFTableOrNull`: an array behind its first two entries. -/
def getVFTableOrNull (vt : VTables T) (t : T) (idx : ℕ) : Option (List (Option String)) :=
  (vt t)[idx]?.map (·.drop 2)

/-- `PureVirtualCallName`. -/
def pureVirtualCallName : String := "__cxa_pure_virtual"

def getNonPureVirtualVFTEntry (H : ClassHierarchy T) (first : FirstElement) (vt : VTables T)
    (isConsistentCall : String → Bool) (t : T) (idx : ℕ) (receiverType : T) : Option String :=
  match getVFTableOrNull vt t (first.first (getVTableIndexInHierarchy H t receiverType)) with
  | some table =>
    match table[idx]?.join with
    | some target => if target ≠ pureVirtualCallName && isConsistentCall target then some target else none
    | none => none
  | none => none

/-- `resolveVirtualCall`, for a slot and a receiver type. -/
def resolveVirtualCall (H : ClassHierarchy T) (th : TypeHierarchy T) (first : FirstElement) (vt : VTables T)
    (isConsistentCall : String → Bool) (vtableIndex : ℕ) (receiverTy : T) : List String :=
  ((th.subTypesOf receiverTy).filterMap fun t =>
    getNonPureVirtualVFTEntry H first vt isConsistentCall t vtableIndex receiverTy).filter isConsistentCall

end Model

/-! ### The layout of objects -/

section Layout

variable {T : Type*}

namespace ClassHierarchy

variable (H : ClassHierarchy T)

/-- The bases with a vtable, and whether they are inherited without a typedef. -/
def polymorphicBases (t : T) : List (Bool × T) :=
  (H.inheritance t).filterMap fun base =>
    if H.vtableHolder base.strip then
      some (match base with
        | .type _ => true
        | .typedef _ => false, base.strip)
    else none

theorem rank_lt_of_mem {t : T} {b : Bool × T} (hb : b ∈ H.polymorphicBases t) : H.rank b.2 < H.rank t := by
  obtain ⟨base, hbase, h⟩ := List.mem_filterMap.mp hb
  split_ifs at h
  cases h
  exact H.rank_lt t base hbase

/-- The vtable pointers of a class whose rank is at most `depth`. -/
def vptrsAux : ℕ → T → ℕ
  | 0, _ => 1
  | depth + 1, t => max 1 ((H.polymorphicBases t).map fun b => vptrsAux depth b.2).sum

/-- The number of vtable pointers of a class. -/
def vptrs (t : T) : ℕ := H.vptrsAux (H.rank t) t

theorem polymorphicBases_eq_nil {t : T} (h : H.rank t = 0) : H.polymorphicBases t = [] := by
  rw [List.eq_nil_iff_forall_not_mem]
  intro b hb
  have hlt := H.rank_lt_of_mem hb
  omega

theorem vptrsAux_eq {depth : ℕ} : ∀ {t : T}, H.rank t ≤ depth → H.vptrsAux depth t = H.vptrs t := by
  induction depth using Nat.strong_induction_on with
  | _ depth ih =>
    intro t h
    have hmap : ∀ m < depth, H.rank t = m + 1 ∨ H.rank t ≤ m + 1 →
        (H.polymorphicBases t).map (fun b => H.vptrsAux m b.2) =
          (H.polymorphicBases t).map fun b => H.vptrs b.2 := by
      intro m hm hrank
      refine List.map_congr_left fun b hb => ih m hm ?_
      have hlt := H.rank_lt_of_mem hb
      omega
    cases depth with
    | zero => rw [vptrs, Nat.le_zero.mp h]
    | succ depth =>
      rw [vptrs, vptrsAux, hmap depth (Nat.lt_succ_self _) (.inr h)]
      cases hrank : H.rank t with
      | zero => rw [H.polymorphicBases_eq_nil hrank]; rfl
      | succ m => rw [vptrsAux, hmap m (by omega) (.inl hrank)]

/-- The first base shares the vtable pointer of the class. -/
theorem vptrs_eq (t : T) : H.vptrs t = max 1 ((H.polymorphicBases t).map fun b => H.vptrs b.2).sum := by
  rw [← H.vptrsAux_eq (Nat.le_succ (H.rank t)), vptrsAux]
  congr 2
  refine List.map_congr_left fun b hb => H.vptrsAux_eq ?_
  exact (H.rank_lt_of_mem hb).le

theorem one_le_vptrs (t : T) : 1 ≤ H.vptrs t := by
  rw [H.vptrs_eq]
  exact le_max_left _ _

end ClassHierarchy

/-- A subobject of a class in an object of another one: the index of its array in the vtable of the object,
and the index that counts the direct bases before it, if no typedef is on the way. -/
inductive Subobject (H : ClassHierarchy T) : T → T → ℕ → Option ℕ → Prop
  | self (t : T) : Subobject H t t 0 (some 0)
  | base {t c : T} {pre post : List (Bool × T)} {b : Bool × T} {i : ℕ} {j : Option ℕ} :
      H.polymorphicBases t = pre ++ b :: post → Subobject H b.2 c i j →
      Subobject H t c ((pre.map fun b => H.vptrs b.2).sum + i)
        (if b.1 then j.map (pre.countP (·.1) + ·) else none)

variable {H : ClassHierarchy T}

theorem Subobject.rank_le {t c : T} {i : ℕ} {j : Option ℕ} (h : Subobject H t c i j) : H.rank c ≤ H.rank t := by
  induction h with
  | self t => exact le_rfl
  | @base t c pre post b i j hb _ ih =>
    exact ih.trans (H.rank_lt_of_mem (hb ▸ List.mem_append_right _ List.mem_cons_self)).le

theorem sum_vptrs_append (pre post : List (Bool × T)) (b : Bool × T) :
    ((pre ++ b :: post).map fun b => H.vptrs b.2).sum =
      (pre.map fun b => H.vptrs b.2).sum + (H.vptrs b.2 + (post.map fun b => H.vptrs b.2).sum) := by
  rw [List.map_append, List.sum_append, List.map_cons, List.sum_cons]

/-- The arrays of a subobject are among those of the object. -/
theorem Subobject.lt_vptrs {t c : T} {i : ℕ} {j : Option ℕ} (h : Subobject H t c i j) : i < H.vptrs t := by
  induction h with
  | self t => exact H.one_le_vptrs t
  | @base t c pre post b i j hb _ ih =>
    rw [H.vptrs_eq, hb, sum_vptrs_append]
    omega

/-- The counted index is at most the index of the array. -/
theorem countP_le_sum (pre : List (Bool × T)) : pre.countP (·.1) ≤ (pre.map fun b => H.vptrs b.2).sum := by
  induction pre with
  | nil => exact le_rfl
  | cons b pre ih =>
    have hone := H.one_le_vptrs b.2
    rw [List.countP_cons, List.map_cons, List.sum_cons]
    split_ifs <;> omega

theorem Subobject.count_le {t c : T} {i k : ℕ} {j : Option ℕ} (h : Subobject H t c i j) (hj : j = some k) :
    k ≤ i := by
  induction h generalizing k with
  | self t =>
    cases hj
    exact le_rfl
  | @base t c pre post b i j hb _ ih =>
    split_ifs at hj with hdirect
    obtain ⟨k', hk', rfl⟩ := Option.map_eq_some_iff.mp hj
    exact Nat.add_le_add (countP_le_sum pre) (ih hk')

/-- Two positions in a list of bases with overlapping arrays are one. -/
theorem append_cons_inj {pre pre' post post' : List (Bool × T)} {b b' : Bool × T} {i i' : ℕ}
    (h : pre ++ b :: post = pre' ++ b' :: post') (hi : i < H.vptrs b.2) (hi' : i' < H.vptrs b'.2)
    (hsum : (pre.map fun b => H.vptrs b.2).sum + i = (pre'.map fun b => H.vptrs b.2).sum + i') :
    pre = pre' ∧ b = b' ∧ i = i' := by
  induction pre generalizing pre' with
  | nil =>
    cases pre' with
    | nil =>
      obtain ⟨rfl, -⟩ := List.cons.inj h
      simpa using hsum
    | cons d pre' =>
      obtain ⟨rfl, -⟩ := List.cons.inj h
      simp only [List.map_nil, List.sum_nil, List.map_cons, List.sum_cons] at hsum
      omega
  | cons d pre ih =>
    cases pre' with
    | nil =>
      obtain ⟨rfl, -⟩ := List.cons.inj h
      simp only [List.map_nil, List.sum_nil, List.map_cons, List.sum_cons] at hsum
      omega
    | cons d' pre' =>
      obtain ⟨rfl, htail⟩ := List.cons.inj h
      simp only [List.map_cons, List.sum_cons] at hsum
      obtain ⟨rfl, rfl, rfl⟩ := ih htail (by omega)
      exact ⟨rfl, rfl, rfl⟩

/-- A class has one subobject with an array at most. -/
theorem Subobject.unique {t c : T} {i i' : ℕ} {j j' : Option ℕ} (h : Subobject H t c i j)
    (h' : Subobject H t c i' j') (hi : i = i') : j = j' := by
  induction h generalizing i' j' with
  | self t =>
    cases h' with
    | self _ => rfl
    | @base _ _ pre post b i j hb hsub =>
      have hlt := H.rank_lt_of_mem (hb ▸ List.mem_append_right _ List.mem_cons_self)
      exact absurd (hsub.rank_le.trans_lt hlt) (lt_irrefl _)
  | @base t c pre post b i j hb hsub ih =>
    cases h' with
    | self _ =>
      have hlt := H.rank_lt_of_mem (hb ▸ List.mem_append_right _ List.mem_cons_self)
      exact absurd (hsub.rank_le.trans_lt hlt) (lt_irrefl _)
    | @base _ _ pre' post' b' i₂ j₂ hb' hsub' =>
      obtain ⟨rfl, rfl, rfl⟩ := append_cons_inj (hb.symm.trans hb') hsub.lt_vptrs hsub'.lt_vptrs hi
      rw [ih hsub' rfl]

end Layout

/-! ### The indices of the bases -/

section Indices

variable {T : Type*} [DecidableEq T] {H : ClassHierarchy T}

theorem mem_insertIndex {into : T → List ℕ} {t c : T} {idx x : ℕ} :
    x ∈ insertIndex into t idx c ↔ x ∈ into c ∨ c = t ∧ x = idx := by
  rw [insertIndex]
  split_ifs with hmem
  · constructor
    · exact .inl
    · rintro (hx | ⟨rfl, rfl⟩)
      · exact hx
      · exact hmem
  · rw [Function.update_apply]
    split_ifs with hc
    · subst hc
      simp
    · simp [hc]

/-- A direct base at a position that counts the direct bases before it. -/
def DirectBase (l : List (Bool × T)) (n : ℕ) (b : T) : Prop :=
  ∃ pre post, l = pre ++ (true, b) :: post ∧ pre.countP (·.1) = n

omit [DecidableEq T] in
theorem directBase_cons_iff {d : Bool × T} {l : List (Bool × T)} {n : ℕ} {b : T} :
    DirectBase (d :: l) n b ↔ (d = (true, b) ∧ n = 0) ∨
      ∃ m, DirectBase l m b ∧ n = m + if d.1 then 1 else 0 := by
  constructor
  · rintro ⟨pre, post, h, rfl⟩
    cases pre with
    | nil => exact .inl ⟨(List.cons.inj h).1, rfl⟩
    | cons e pre =>
      obtain ⟨rfl, htail⟩ := List.cons.inj h
      exact .inr ⟨_, ⟨pre, post, htail, rfl⟩, List.countP_cons⟩
  · rintro (⟨rfl, rfl⟩ | ⟨m, ⟨pre, post, rfl, rfl⟩, rfl⟩)
    · exact ⟨[], l, rfl, rfl⟩
    · exact ⟨d :: pre, post, rfl, List.countP_cons⟩

omit [DecidableEq T] in
theorem not_directBase_nil {n : ℕ} {b : T} : ¬DirectBase [] n b := by
  rintro ⟨pre, post, h, -⟩
  cases pre <;> cases h

omit [DecidableEq T] in
theorem subobject_some_iff {t c : T} {i j : ℕ} : Subobject H t c i (some j) → (c = t ∧ j = 0) ∨
    ∃ n b i' j', DirectBase (H.polymorphicBases t) n b ∧ Subobject H b c i' (some j') ∧ j = n + j' := by
  intro h
  generalize hj : some j = o at h
  cases h with
  | self _ => exact .inl ⟨rfl, Option.some_inj.mp hj⟩
  | @base _ _ pre post b i' o' hb hsub =>
    split_ifs at hj with hdirect
    obtain ⟨j', rfl, rfl⟩ := Option.map_eq_some_iff.mp hj.symm
    obtain ⟨d, b⟩ := b
    obtain rfl : d = true := hdirect
    exact .inr ⟨_, b, i', j', ⟨pre, post, hb, rfl⟩, hsub, rfl⟩

omit [DecidableEq T] in
theorem subobject_of_directBase {t b c : T} {n i j : ℕ} (hb : DirectBase (H.polymorphicBases t) n b)
    (h : Subobject H b c i (some j)) : ∃ i', Subobject H t c i' (some (n + j)) := by
  obtain ⟨pre, post, hbases, rfl⟩ := hb
  exact ⟨_, Subobject.base hbases h⟩

/-- The loop over the bases, if the indices of each base are those that count its direct bases. -/
theorem mem_foldl_getBasesOfVirt {depth : ℕ} {c : T} {x : ℕ}
    (ih : ∀ {t : T}, H.rank t ≤ depth → ∀ (into : T → List ℕ) (k : ℕ),
      x ∈ getBasesOfVirt H depth into t k c ↔ x ∈ into c ∨ ∃ i j, Subobject H t c i (some j) ∧ x = k + j)
    {l : List (BaseType T)} (hrank : ∀ base ∈ l, H.rank base.strip ≤ depth) (into : T → List ℕ) (k : ℕ) :
    x ∈ (l.foldl (fun s base =>
      match base with
      | .typedef _ => s
      | .type baseClass =>
        if H.isComposite baseClass && H.vtableHolder baseClass then
          (getBasesOfVirt H depth s.1 baseClass s.2, s.2 + 1)
        else s) (into, k)).1 c ↔ x ∈ into c ∨
      ∃ n b i j, DirectBase (l.filterMap fun base => if H.vtableHolder base.strip then
        some (match base with
          | .type _ => true
          | .typedef _ => false, base.strip) else none) n b ∧
        Subobject H b c i (some j) ∧ x = k + (n + j) := by
  induction l generalizing into k with
  | nil => simp [not_directBase_nil]
  | cons base l ihl =>
    obtain ⟨hbase, hl⟩ := List.forall_mem_cons.mp hrank
    cases base with
    | typedef b =>
      rw [List.foldl_cons, ihl hl, List.filterMap_cons]
      dsimp only
      split_ifs
      · simp [directBase_cons_iff]
      · rfl
    | type b =>
      rw [List.foldl_cons, List.filterMap_cons]
      dsimp only [BaseType.strip] at hbase ⊢
      by_cases hholder : H.vtableHolder b = true
      · rw [if_pos (by rw [(H.class_of_holder b hholder).1, hholder]; rfl), ihl hl, ih hbase, or_assoc]
        simp only [hholder, ↓reduceIte]
        refine or_congr_right ?_
        simp only [directBase_cons_iff, Prod.mk.injEq, true_and, if_true]
        constructor
        · rintro (⟨i, j, hsub, rfl⟩ | ⟨n, b', i, j, hb, hsub, rfl⟩)
          · exact ⟨0, b, i, j, .inl ⟨rfl, rfl⟩, hsub, by rw [Nat.zero_add]⟩
          · exact ⟨n + 1, b', i, j, .inr ⟨n, hb, rfl⟩, hsub, by omega⟩
        · rintro ⟨n, b', i, j, ⟨rfl, rfl⟩ | ⟨m, hb, rfl⟩, hsub, rfl⟩
          · exact .inl ⟨i, j, hsub, by rw [Nat.zero_add]⟩
          · exact .inr ⟨m, b', i, j, hb, hsub, by omega⟩
      · rw [if_neg (by simp [hholder])]
        simp only [hholder, Bool.false_eq_true, ↓reduceIte]
        exact ihl hl into k

/-- The indices of a class are those that count the direct bases. -/
theorem mem_getBasesOfVirt {depth : ℕ} : ∀ {t : T}, H.rank t ≤ depth → ∀ (into : T → List ℕ) (k : ℕ) (c : T)
    (x : ℕ), x ∈ getBasesOfVirt H depth into t k c ↔
      x ∈ into c ∨ ∃ i j, Subobject H t c i (some j) ∧ x = k + j := by
  induction depth with
  | zero =>
    intro t ht into k c x
    rw [getBasesOfVirt, mem_insertIndex]
    refine or_congr_right ⟨?_, ?_⟩
    · rintro ⟨rfl, rfl⟩
      exact ⟨0, 0, .self c, rfl⟩
    · rintro ⟨i, j, hsub, rfl⟩
      obtain ⟨rfl, rfl⟩ | ⟨n, b, i', j', hb, -⟩ := subobject_some_iff hsub
      · exact ⟨rfl, rfl⟩
      · rw [H.polymorphicBases_eq_nil (Nat.le_zero.mp ht)] at hb
        exact absurd hb not_directBase_nil
  | succ depth ih =>
    intro t ht into k c x
    have hbases : ∀ base ∈ H.inheritance t, H.rank base.strip ≤ depth := by
      intro base hbase
      have hlt := H.rank_lt t base hbase
      omega
    rw [getBasesOfVirt, mem_foldl_getBasesOfVirt (fun ht into k => ih ht into k c x) hbases, mem_insertIndex,
      or_assoc]
    refine or_congr_right ?_
    constructor
    · rintro (⟨rfl, rfl⟩ | ⟨n, b, i, j, hb, hsub, rfl⟩)
      · exact ⟨0, 0, .self c, rfl⟩
      · obtain ⟨i', hsub'⟩ := subobject_of_directBase hb hsub
        exact ⟨i', n + j, hsub', rfl⟩
    · rintro ⟨i, j, hsub, rfl⟩
      obtain ⟨rfl, rfl⟩ | ⟨n, b, i', j', hb, hsub', rfl⟩ := subobject_some_iff hsub
      · exact .inl ⟨rfl, rfl⟩
      · exact .inr ⟨n, b, i', j', hb, hsub', rfl⟩

end Indices

/-! ### Sound look-ups -/

section Sound

variable {T : Type*} {H : ClassHierarchy T}

/-- All polymorphic bases before the one on the way are inherited without typedefs and have one vtable
pointer, and the one on the way is inherited without a typedef. -/
inductive Straight (H : ClassHierarchy T) : T → T → Prop
  | self (t : T) : Straight H t t
  | base {t c b : T} {pre post : List (Bool × T)} : H.polymorphicBases t = pre ++ (true, b) :: post →
      (∀ d ∈ pre, d.1 = true ∧ H.vptrs d.2 = 1) → Straight H b c → Straight H t c

/-- The first polymorphic base is taken on the whole way. -/
inductive Primary (H : ClassHierarchy T) : T → T → Prop
  | self (t : T) : Primary H t t
  | base {t c : T} {b : Bool × T} {post : List (Bool × T)} : H.polymorphicBases t = b :: post →
      Primary H b.2 c → Primary H t c

theorem countP_eq_sum_iff (pre : List (Bool × T)) : pre.countP (·.1) = (pre.map fun b => H.vptrs b.2).sum ↔
    ∀ d ∈ pre, d.1 = true ∧ H.vptrs d.2 = 1 := by
  induction pre with
  | nil => simp
  | cons d pre ih =>
    have hone := H.one_le_vptrs d.2
    have hle := countP_le_sum (H := H) pre
    rw [List.countP_cons, List.map_cons, List.sum_cons, List.forall_mem_cons, ← ih]
    split_ifs with hd
    · simp only [hd, true_and]
      omega
    · have hne : ¬(d.1 = true ∧ H.vptrs d.2 = 1) := fun h => hd h.1
      simp only [hne, false_and, iff_false]
      omega

theorem Subobject.straight {t c : T} {i : ℕ} {j : Option ℕ} (h : Subobject H t c i j) (hj : j = some i) :
    Straight H t c := by
  induction h with
  | self t => exact .self t
  | @base t c pre post b i j hb hsub ih =>
    split_ifs at hj with hdirect
    obtain ⟨k, rfl, hk⟩ := Option.map_eq_some_iff.mp hj
    have hle := countP_le_sum (H := H) pre
    have hki := hsub.count_le rfl
    obtain ⟨d, b⟩ := b
    obtain rfl : d = true := hdirect
    exact .base hb ((countP_eq_sum_iff pre).mp (by omega)) (ih (by rw [show k = i by omega]))

theorem straight_iff {t c : T} : Straight H t c ↔ ∃ i, Subobject H t c i (some i) := by
  constructor
  · intro h
    induction h with
    | self t => exact ⟨0, .self t⟩
    | @base t c b pre post hb hpre _ ih =>
      obtain ⟨i, hi⟩ := ih
      have hsub := Subobject.base hb hi
      rw [if_pos rfl, Option.map_some, (countP_eq_sum_iff pre).mpr hpre] at hsub
      exact ⟨_, hsub⟩
  · rintro ⟨i, hi⟩
    exact hi.straight rfl

theorem Subobject.primary {t c : T} {i : ℕ} {j : Option ℕ} (h : Subobject H t c i j) (hi : i = 0) :
    Primary H t c := by
  induction h with
  | self t => exact .self t
  | @base t c pre post b i j hb _ ih =>
    cases pre with
    | nil => exact .base hb (ih (by simpa using hi))
    | cons d pre =>
      have hone := H.one_le_vptrs d.2
      rw [List.map_cons, List.sum_cons] at hi
      omega

theorem primary_iff {t c : T} : Primary H t c ↔ ∃ j, Subobject H t c 0 j := by
  constructor
  · intro h
    induction h with
    | self t => exact ⟨some 0, .self t⟩
    | @base t c b post hb _ ih =>
      obtain ⟨j, hj⟩ := ih
      have hsub := @Subobject.base T H t c [] post b 0 j hb hj
      rw [List.map_nil, List.sum_nil] at hsub
      exact ⟨_, hsub⟩
  · rintro ⟨j, hj⟩
    exact hj.primary rfl

variable [DecidableEq T]

/-- The indices of a class with a vtable. -/
theorem mem_getVTableIndexInHierarchy {t c : T} (ht : t ∈ H.types) (hholder : H.vtableHolder t) (x : ℕ) :
    x ∈ getVTableIndexInHierarchy H t c ↔ (∃ i, Subobject H t c i (some x)) ∨
      (x = 0 ∧ ∀ i j, ¬Subobject H t c i (some j)) := by
  have hclass := H.class_of_holder t hholder
  have hmem : ∀ x, x ∈ getBasesOfVirt H (H.rank t) (fun _ => []) t 0 c ↔
      ∃ i, Subobject H t c i (some x) := by
    intro x
    rw [mem_getBasesOfVirt le_rfl]
    simp
  rw [getVTableIndexInHierarchy, basesOfVirt, if_pos ⟨ht, hclass.1, hclass.2, hholder⟩]
  dsimp only
  split_ifs with hnil
  · have hnone : ∀ i j, ¬Subobject H t c i (some j) := by
      intro i j hsub
      have hj := (hmem j).mpr ⟨i, hsub⟩
      rw [hnil] at hj
      cases hj
    rw [List.mem_singleton]
    constructor
    · exact fun hx => .inr ⟨hx, hnone⟩
    · rintro (⟨i, hsub⟩ | ⟨hx, -⟩)
      · exact absurd hsub (hnone i x)
      · exact hx
  · rw [hmem]
    refine (or_iff_left ?_).symm
    rintro ⟨-, hnone⟩
    obtain ⟨y, hy⟩ := List.exists_mem_of_ne_nil _ hnil
    obtain ⟨i, hsub⟩ := (hmem y).mp hy
    exact hnone i y hsub

theorem getVTableIndexInHierarchy_ne_nil (t c : T) : getVTableIndexInHierarchy H t c ≠ [] := by
  rw [getVTableIndexInHierarchy]
  split
  · simp
  · split_ifs with hnil
    · simp
    · exact hnil

/-- The function in a slot of an array, behind the offset and the type information. -/
def slotOf (vt : VTables T) (t : T) (arrayIdx slot : ℕ) : Option String :=
  ((vt t)[arrayIdx]?.bind (·[slot + 2]?)).join

/-- All arrays of the subobjects of a type are looked up: the indices are those of the arrays, and the result
has the functions in their slots. -/
structure Sound (H : ClassHierarchy T) (th : TypeHierarchy T) (first : FirstElement) (B : T) : Prop where
  index : ∀ t ∈ H.types, H.vtableHolder t → (∃ i j, Subobject H t B i j) →
    ∀ i, i ∈ getVTableIndexInHierarchy H t B ↔ ∃ j, Subobject H t B i j
  contains : ∀ t ∈ H.types, H.vtableHolder t → ∀ i j, Subobject H t B i j →
    ∀ (vt : VTables T) (isConsistentCall : String → Bool) (slot : ℕ) (f : String),
      slotOf vt t i slot = some f → f ≠ pureVirtualCallName → isConsistentCall f →
      f ∈ resolveVirtualCall H th first vt isConsistentCall slot B

/-- One subobject, whose array has the index that counts the direct bases. -/
structure OneArray (H : ClassHierarchy T) (t B : T) (i : ℕ) : Prop where
  unique : ∀ i' j', Subobject H t B i' j' → i' = i
  path : Straight H t B ∨ Primary H t B

theorem getNonPureVirtualVFTEntry_eq (first : FirstElement) (vt : VTables T) (isConsistentCall : String → Bool)
    (t B : T) (slot : ℕ) : getNonPureVirtualVFTEntry H first vt isConsistentCall t slot B =
      (slotOf vt t (first.first (getVTableIndexInHierarchy H t B)) slot).filter
        fun f => f ≠ pureVirtualCallName && isConsistentCall f := by
  rw [getNonPureVirtualVFTEntry, getVFTableOrNull, slotOf]
  cases (vt t)[first.first (getVTableIndexInHierarchy H t B)]? with
  | none => rfl
  | some a =>
    dsimp only [Option.map_some, Option.bind_some]
    rw [List.getElem?_drop, Nat.add_comm 2 slot]
    cases (a[slot + 2]?).join with
    | none => rfl
    | some f => rw [Option.filter_some]

/-- The index that is looked up. -/
theorem first_eq_of_forall_mem (first : FirstElement) {l : List ℕ} {i : ℕ} (hne : l ≠ [])
    (h : ∀ x ∈ l, x = i) : first.first l = i := h _ (first.first_mem l hne)

theorem mem_index_of_oneArray {t B : T} {i : ℕ} {j : Option ℕ} (ht : t ∈ H.types)
    (hholder : H.vtableHolder t) (hsub : Subobject H t B i j) (h : OneArray H t B i) (x : ℕ) :
    x ∈ getVTableIndexInHierarchy H t B ↔ x = i := by
  rw [mem_getVTableIndexInHierarchy ht hholder]
  obtain hpath | hpath := h.path
  · obtain ⟨k, hk⟩ := straight_iff.mp hpath
    obtain rfl := h.unique k _ hk
    constructor
    · rintro (⟨i', hi'⟩ | ⟨-, hnone⟩)
      · exact Option.some_inj.mp (hi'.unique hk (h.unique _ _ hi'))
      · exact absurd hk (hnone _ _)
    · rintro rfl
      exact .inl ⟨_, hk⟩
  · obtain ⟨j₀, h₀⟩ := primary_iff.mp hpath
    obtain rfl := h.unique 0 _ h₀
    constructor
    · rintro (⟨i', hi'⟩ | ⟨hx, -⟩)
      · have hle := hi'.count_le rfl
        have hzero := h.unique _ _ hi'
        omega
      · exact hx
    · rintro rfl
      cases j₀ with
      | none =>
        refine .inr ⟨rfl, fun i' j' hi' => ?_⟩
        cases hi'.unique h₀ (h.unique _ _ hi')
      | some j' =>
        have hle := h₀.count_le rfl
        obtain rfl : j' = 0 := by omega
        exact .inl ⟨0, h₀⟩

/-- A call of a receiver type is resolved with all arrays if and only if the type hierarchy lists each class
with a subobject of the type, and the class has one such subobject, whose array is found by counting the
direct bases. -/
theorem resolver_sound_iff (H : ClassHierarchy T) (th : TypeHierarchy T) (first : FirstElement) (B : T) :
    Sound H th first B ↔ ∀ t ∈ H.types, H.vtableHolder t → ∀ i j, Subobject H t B i j →
      t ∈ th.subTypesOf B ∧ OneArray H t B i := by
  constructor
  · intro hsound t ht hholder i j hsub
    -- the only function of all vtables is in the array of the subobject
    have hlook : ∀ i j, Subobject H t B i j → t ∈ th.subTypesOf B ∧
        first.first (getVTableIndexInHierarchy H t B) = i := by
      intro i j hsub
      have hmem := hsound.contains t ht hholder i j hsub
        (fun u => if u = t then List.replicate i [] ++ [[none, none, some "f"]] else []) (fun _ => true) 0 "f"
        (by simp [slotOf]) (by decide) rfl
      rw [resolveVirtualCall, List.mem_filter, List.mem_filterMap] at hmem
      obtain ⟨⟨u, hu, hentry⟩, -⟩ := hmem
      rw [getNonPureVirtualVFTEntry_eq, Option.filter_eq_some_iff, slotOf] at hentry
      by_cases hut : u = t
      · subst hut
        refine ⟨hu, ?_⟩
        by_contra hne
        rw [if_pos rfl] at hentry
        obtain hlt | hgt := Nat.lt_or_gt_of_ne hne
        · rw [List.getElem?_append_left (by simpa using hlt), List.getElem?_replicate_of_lt hlt] at hentry
          simp at hentry
        · rw [List.getElem?_eq_none (by
            rw [List.length_append, List.length_replicate, List.length_singleton]
            omega)] at hentry
          simp at hentry
      · simp [hut] at hentry
    obtain ⟨hmem, hfirst⟩ := hlook i j hsub
    refine ⟨hmem, fun i' j' hsub' => (hlook i' j' hsub').2.symm.trans hfirst, ?_⟩
    have hconsulted := first.first_mem _ (getVTableIndexInHierarchy_ne_nil (H := H) t B)
    rw [hfirst, mem_getVTableIndexInHierarchy ht hholder] at hconsulted
    obtain ⟨i', hsub'⟩ | ⟨rfl, -⟩ := hconsulted
    · obtain rfl : i' = i := (hlook i' _ hsub').2.symm.trans hfirst
      exact .inl (straight_iff.mpr ⟨i', hsub'⟩)
    · exact .inr (primary_iff.mpr ⟨j, hsub⟩)
  · intro h
    have hmem : ∀ t ∈ H.types, H.vtableHolder t → ∀ i j, Subobject H t B i j →
        ∀ x, x ∈ getVTableIndexInHierarchy H t B ↔ x = i := fun t ht hholder i j hsub =>
      mem_index_of_oneArray ht hholder hsub (h t ht hholder i j hsub).2
    refine ⟨fun t ht hholder ⟨i, j, hsub⟩ x => ?_, fun t ht hholder i j hsub vt consistent slot f hf hpure hc => ?_⟩
    · rw [hmem t ht hholder i j hsub x]
      constructor
      · rintro rfl
        exact ⟨j, hsub⟩
      · rintro ⟨j', hsub'⟩
        exact (h t ht hholder i j hsub).2.unique x j' hsub'
    · rw [resolveVirtualCall, List.mem_filter, List.mem_filterMap]
      refine ⟨⟨t, (h t ht hholder i j hsub).1, ?_⟩, hc⟩
      rw [getNonPureVirtualVFTEntry_eq, first_eq_of_forall_mem first (getVTableIndexInHierarchy_ne_nil t B)
        fun x hx => (hmem t ht hholder i j hsub x).mp hx, hf]
      simp [hpure, hc]

end Sound

/-! ### Examples -/

/-- Polymorphic classes, each of them derived from the earlier ones that `bases` lists. -/
def polymorphicClasses (n : ℕ) (bases : ℕ → List ℕ) (h : ∀ t, ∀ b ∈ bases t, b < t) : ClassHierarchy ℕ where
  toDebugInfo := classes n bases
  vtableHolder _ := true
  rank t := t
  class_of_holder _ _ := ⟨rfl, .inl rfl⟩
  rank_lt t base hbase := by
    obtain ⟨b, hb, rfl⟩ := List.mem_map.mp hbase
    exact h t b hb

def headElement : FirstElement where
  first l := l.headD 0
  first_mem l h := by
    cases l with
    | nil => exact absurd rfl h
    | cons x l => exact List.mem_cons_self

/-- Class 4 is derived from 2 and 3, and 2 from 0 and 1. -/
def deepBases : ClassHierarchy ℕ :=
  polymorphicClasses 5 (fun t => if t = 4 then [2, 3] else if t = 2 then [0, 1] else []) fun t b hb => by
    split_ifs at hb <;> simp at hb <;> omega

/-- The classes 1 and 2 are derived from 0, and 3 from both of them. -/
def repeatedBase : ClassHierarchy ℕ :=
  polymorphicClasses 4 (fun t => if t = 3 then [1, 2] else if t = 1 ∨ t = 2 then [0] else []) fun t b hb => by
    split_ifs at hb <;> simp at hb <;> omega

/-- The type hierarchies of both. -/
def deepHierarchy : TypeHierarchy ℕ :=
  ⟨[0, 1, 2, 3, 4], [(0, 3), (3, 6), (4, 6), (6, 8), (7, 8)], [0, 2, 4, 1, 2, 4, 3, 4]⟩

def repeatedHierarchy : TypeHierarchy ℕ :=
  ⟨[0, 1, 2, 3], [(0, 5), (3, 5), (1, 3), (4, 5)], [0, 2, 3, 1, 3]⟩

theorem subobject_deepBases : Subobject deepBases 4 3 2 (some 1) :=
  @Subobject.base ℕ deepBases 4 3 [(true, 2)] [] (true, 3) 0 (some 0) rfl (.self 3)

theorem subobject_repeatedBase : Subobject repeatedBase 3 0 1 (some 1) :=
  @Subobject.base ℕ repeatedBase 3 0 [(true, 1)] [] (true, 2) 0 (some 0) rfl
    (@Subobject.base ℕ repeatedBase 2 0 [] [] (true, 0) 0 (some 0) rfl (.self 0))

/-- The third array of class 4 is that of class 3, but the second one is looked up. Only the first array of
class 0 is looked up in class 3. -/
theorem not_sound_deepBases : (build deepBases.toDebugInfo 60 = some deepHierarchy ∧
      ¬Sound deepBases deepHierarchy headElement 3) ∧
    build repeatedBase.toDebugInfo 60 = some repeatedHierarchy ∧
      ¬Sound repeatedBase repeatedHierarchy headElement 0 := by
  refine ⟨⟨rfl, fun h => ?_⟩, rfl, fun h => ?_⟩
  · exact absurd (h.contains 4 (by decide) rfl 2 _ subobject_deepBases
      (fun t => if t = 4 then [[], [], [none, none, some "f"]] else []) (fun _ => true) 0 "f" rfl
      (by decide) rfl) (by decide)
  · exact absurd (h.contains 3 (by decide) rfl 1 _ subobject_repeatedBase
      (fun t => if t = 3 then [[], [none, none, some "f"]] else []) (fun _ => true) 0 "f" rfl
      (by decide) rfl) (by decide)

end Phasar.CHAResolver
