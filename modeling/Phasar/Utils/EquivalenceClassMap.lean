import Mathlib.Data.Finset.Insert
import Mathlib.Data.Finset.Disjoint
import Mathlib.Data.List.Pairwise
import Mathlib.Tactic.Common

/-!
# Maps of equivalence classes of keys

A map keeps its keys in classes, each with a value. A key is looked up in the classes, and inserted into
the first class whose value equals the given one. So it gets into a second class when it is inserted with
another value; `getOrInsertLazy` looks for the key first.

* `EquivalenceClassMap.tryEmplace`, `getOrInsertLazy`, `find`, `findValue`;
* `EquivalenceClassMapNG`: the values and the key sets in two vectors;
* `Partition`: the keys are partitioned, and found under the value of their first insertion;
* `partition_iff`: this holds throughout a run if and only if no key is inserted into a second class.
-/

namespace Phasar

variable {K V : Type*} [DecidableEq K]

/-! ### The map -/

/-- The classes: `StoredData`. -/
abbrev EquivalenceClassMap (K V : Type*) := List (Finset K × V)

namespace EquivalenceClassMap

section Operations

variable (VComp : V → V → Bool)

/-- `try_emplace`, to which all overloads of `insert` lead, under the comparison of values; and whether
the key is new in its class. -/
def tryEmplace (Key : K) (Val : V) : EquivalenceClassMap K V → EquivalenceClassMap K V × Bool
  | [] => ([({Key}, Val)], true)
  | (keys, v) :: StoredData =>
    if VComp v Val then ((insert Key keys, v) :: StoredData, decide (Key ∉ keys))
    else
      let r := tryEmplace Key Val StoredData
      ((keys, v) :: r.1, r.2)

def find (m : EquivalenceClassMap K V) (Key : K) : Option (Finset K × V) :=
  List.find? (fun c => decide (Key ∈ c.1)) m

def findValue (m : EquivalenceClassMap K V) (Key : K) : Option V := (m.find Key).map Prod.snd

def count (m : EquivalenceClassMap K V) (Key : K) : ℕ := if (m.find Key).isSome then 1 else 0

/-- The class that a value is inserted into, if there is one. -/
def classOf (m : EquivalenceClassMap K V) (Val : V) : Option (Finset K × V) :=
  List.find? (fun c => VComp c.2 Val) m

/-- `getOrInsertLazy`, for the value that is made: the map, the value, and whether it is a hit. -/
def getOrInsertLazy (Key : K) (Val : V) (m : EquivalenceClassMap K V) :
    EquivalenceClassMap K V × V × Bool :=
  match m.find Key with
  | some c => (m, c.2, true)
  | none => ((tryEmplace VComp Key Val m).1, ((m.classOf VComp Val).map Prod.snd).getD Val, false)

end Operations

/-! ### What an insertion does -/

variable {VComp : V → V → Bool} {m : EquivalenceClassMap K V} {k k' : K} {v : V}

/-- The map has a class for the value: the key gets into it. Else it gets a class of its own. -/
theorem tryEmplace_eq_or (VComp : V → V → Bool) (k : K) (v : V) (m : EquivalenceClassMap K V) :
    (tryEmplace VComp k v m).1 = m ++ [({k}, v)] ∧ m.classOf VComp v = none ∨
    ∃ before c after, m = before ++ c :: after ∧ m.classOf VComp v = some c ∧ VComp c.2 v = true ∧
      (tryEmplace VComp k v m).1 = before ++ (insert k c.1, c.2) :: after := by
  induction m with
  | nil => exact Or.inl ⟨rfl, rfl⟩
  | cons c m ih =>
    by_cases hv : VComp c.2 v = true
    · exact Or.inr ⟨[], c, m, rfl, List.find?_cons_of_pos hv, hv, by rw [tryEmplace, if_pos hv]; rfl⟩
    · have hclass : classOf VComp (c :: m) v = classOf VComp m v := List.find?_cons_of_neg hv
      have hrest : (tryEmplace VComp k v (c :: m)).1 = c :: (tryEmplace VComp k v m).1 := by
        rw [tryEmplace, if_neg hv]
      rw [hclass, hrest]
      rcases ih with ⟨heq, hnone⟩ | ⟨before, d, after, rfl, hd, hvd, heq⟩
      · exact Or.inl ⟨by rw [heq, List.cons_append], hnone⟩
      · exact Or.inr ⟨c :: before, d, after, rfl, hd, hvd, by rw [heq, List.cons_append]⟩

/-- A key of the map is inserted into its own class. -/
def Respects (VComp : V → V → Bool) (m : EquivalenceClassMap K V) (k : K) (v : V) : Prop :=
  ∀ c ∈ m, k ∈ c.1 → m.classOf VComp v = some c

/-- The classes have no key in common. -/
def DisjointKeys (m : EquivalenceClassMap K V) : Prop := m.Pairwise fun c d => Disjoint c.1 d.1

/-- No class has the value of an earlier one. -/
def DistinctValues (VComp : V → V → Bool) (m : EquivalenceClassMap K V) : Prop :=
  m.Pairwise fun c d => VComp c.2 d.2 = false

theorem DistinctValues.tryEmplace (hm : DistinctValues VComp m) :
    DistinctValues VComp (tryEmplace VComp k v m).1 := by
  rcases tryEmplace_eq_or VComp k v m with
    ⟨heq, hnone⟩ | ⟨before, c, after, rfl, -, -, heq⟩
  · rw [heq, DistinctValues, List.pairwise_append]
    refine ⟨hm, List.pairwise_singleton _ _, fun c hc d hd => ?_⟩
    rw [List.mem_singleton.1 hd]
    exact Bool.eq_false_iff.2 fun heq => List.find?_eq_none.1 hnone c hc heq
  · -- the list of the values stays as it is
    have hvalues := (List.pairwise_map (f := Prod.snd) (R := fun v w => VComp v w = false)).2 hm
    rw [heq, DistinctValues, ← List.pairwise_map (f := Prod.snd) (R := fun v w => VComp v w = false)]
    simpa only [List.map_append, List.map_cons] using hvalues

/-- The classes stay disjoint if and only if a key of the map is inserted into its own class. -/
theorem disjointKeys_tryEmplace_iff (hm : DisjointKeys m) :
    DisjointKeys (tryEmplace VComp k v m).1 ↔ Respects VComp m k v := by
  rcases tryEmplace_eq_or VComp k v m with
    ⟨heq, hnone⟩ | ⟨before, c, after, rfl, hc, -, heq⟩
  · rw [heq, DisjointKeys, List.pairwise_append]
    constructor
    · rintro ⟨-, -, hnew⟩ d hd hk
      have hdisj := hnew d hd _ (List.mem_singleton_self _)
      exact absurd hk (Finset.disjoint_singleton_right.1 hdisj)
    · refine fun h => ⟨hm, List.pairwise_singleton _ _, fun d hd e he => ?_⟩
      rw [List.mem_singleton.1 he, Finset.disjoint_singleton_right]
      intro hk
      have hsome := h d hd hk
      rw [hnone] at hsome
      cases hsome
  · rw [DisjointKeys, List.pairwise_append, List.pairwise_cons] at hm
    rw [heq, DisjointKeys, List.pairwise_append, List.pairwise_cons]
    obtain ⟨hbefore, ⟨hafter, hafter'⟩, hcross⟩ := hm
    constructor
    · rintro ⟨-, ⟨hnew, -⟩, hnew'⟩ d hd hk
      rcases List.mem_append.1 hd with hd | hd
      · have hdisj := hnew' d hd _ List.mem_cons_self
        rw [Finset.disjoint_insert_right] at hdisj
        exact absurd hk hdisj.1
      · rcases List.mem_cons.1 hd with rfl | hd
        · exact hc
        · have hdisj := hnew d hd
          rw [Finset.disjoint_insert_left] at hdisj
          exact absurd hk hdisj.1
    · intro h
      -- no other class may have the key, which joins `c`
      have hsame : ∀ d ∈ before ++ c :: after, k ∈ d.1 → d = c := fun d hd hk =>
        Option.some.inj ((h d hd hk).symm.trans hc)
      have hnot : ∀ d, Disjoint d.1 c.1 → d ∈ before ++ c :: after → k ∉ d.1 := by
        intro d hdisj hd hk
        have heq := hsame d hd hk
        subst heq
        exact Finset.disjoint_left.1 hdisj hk hk
      refine ⟨hbefore, ⟨fun d hd => ?_, hafter'⟩, fun d hd e he => ?_⟩
      · rw [Finset.disjoint_insert_left]
        have hdisj := hafter d hd
        exact ⟨hnot d hdisj.symm (List.mem_append_right _ (List.mem_cons_of_mem c hd)), hdisj⟩
      · rcases List.mem_cons.1 he with rfl | he
        · rw [Finset.disjoint_insert_right]
          have hdisj := hcross d hd c List.mem_cons_self
          exact ⟨hnot d hdisj (List.mem_append_left _ hd), hdisj⟩
        · exact hcross d hd e (List.mem_cons_of_mem c he)

theorem mem_of_find {c : Finset K × V} (h : m.find k = some c) : c ∈ m ∧ k ∈ c.1 :=
  ⟨List.mem_of_find?_eq_some h, of_decide_eq_true (List.find?_some (p := fun d : Finset K × V => decide (k ∈ d.1)) h)⟩

theorem find_eq_none : m.find k = none ↔ ∀ c ∈ m, k ∉ c.1 := by
  rw [find, List.find?_eq_none]
  simp only [decide_eq_true_eq]

omit [DecidableEq K] in
theorem eq_of_mem_of_mem (hm : DisjointKeys m) {c d : Finset K × V} (hc : c ∈ m) (hd : d ∈ m)
    (hkc : k ∈ c.1) (hkd : k ∈ d.1) : c = d := by
  by_contra hne
  have : Std.Symm fun c d : Finset K × V => Disjoint c.1 d.1 := ⟨fun _ _ h => h.symm⟩
  exact Finset.disjoint_left.1 (List.Pairwise.forall hm hc hd hne) hkc hkd

/-- If the comparison is an equivalence, a key of the map is inserted into its own class if and only if it
is inserted with the value that it has. -/
theorem respects_iff (hequiv : Equivalence fun v w => VComp v w = true) (hm : DisjointKeys m)
    (hvalues : DistinctValues VComp m) :
    Respects VComp m k v ↔ ∀ s, m.findValue k = some s → VComp s v = true := by
  constructor
  · intro h s hs
    obtain ⟨c, hfind, rfl⟩ := Option.map_eq_some_iff.1 hs
    obtain ⟨hc, hk⟩ := mem_of_find hfind
    exact List.find?_some (p := fun d : Finset K × V => VComp d.2 v) (h c hc hk)
  · intro h c hc hk
    obtain ⟨d, hfind⟩ : ∃ d, m.find k = some d := Option.isSome_iff_exists.1 <| by
      rw [find, List.find?_isSome]
      exact ⟨c, hc, decide_eq_true hk⟩
    obtain ⟨hd, hkd⟩ := mem_of_find hfind
    obtain rfl : d = c := eq_of_mem_of_mem hm hd hc hkd hk
    have hv : VComp d.2 v = true := h d.2 (by rw [findValue, hfind]; rfl)
    obtain ⟨e, hclass⟩ : ∃ e, m.classOf VComp v = some e := Option.isSome_iff_exists.1 <| by
      rw [classOf, List.find?_isSome]
      exact ⟨d, hd, hv⟩
    have he : VComp e.2 v = true := List.find?_some (p := fun d : Finset K × V => VComp d.2 v) hclass
    have : Std.Symm fun c d : Finset K × V => VComp c.2 d.2 = false :=
      ⟨fun c d h => Bool.eq_false_iff.2 fun h' => Bool.eq_false_iff.1 h (hequiv.symm h')⟩
    by_cases heq : e = d
    · rw [hclass, heq]
    · have hne := List.Pairwise.forall hvalues (List.mem_of_find?_eq_some hclass) hd heq
      exact absurd (hequiv.trans he (hequiv.symm hv)) (Bool.eq_false_iff.1 hne)

/-- A key that is inserted into its own class changes nothing. -/
theorem Respects.tryEmplace_eq {c : Finset K × V} (h : Respects VComp m k v) (hfind : m.find k = some c) :
    (tryEmplace VComp k v m).1 = m := by
  obtain ⟨hc, hk⟩ := mem_of_find hfind
  have hclass := h c hc hk
  rcases tryEmplace_eq_or VComp k v m with
    ⟨-, hnone⟩ | ⟨before, d, after, rfl, hd, -, heq⟩
  · rw [hnone] at hclass
    cases hclass
  · obtain rfl : d = c := Option.some.inj (hd.symm.trans hclass)
    rw [heq, Finset.insert_eq_of_mem hk]

theorem findValue_tryEmplace_of_ne (hne : k' ≠ k) :
    findValue (tryEmplace VComp k v m).1 k' = m.findValue k' := by
  rcases tryEmplace_eq_or VComp k v m with
    ⟨heq, -⟩ | ⟨before, c, after, rfl, -, -, heq⟩
  · rw [heq, findValue, find, List.find?_append, findValue, find]
    simp [hne]
  · rw [heq, findValue, find, List.find?_append, findValue, find, List.find?_append, List.find?_cons,
      List.find?_cons]
    simp only [Finset.mem_insert, hne, false_or]
    cases List.find? (fun c => decide (k' ∈ c.1)) before with
    | some d => rfl
    | none => cases decide (k' ∈ c.1) <;> rfl

/-- The value that stands for a value. -/
def Same (VComp : V → V → Bool) (s v : V) : Prop := s = v ∨ VComp s v = true

/-- A new key is found under the value of its class, which is the one that `getOrInsertLazy` returns. -/
theorem findValue_tryEmplace_self (VComp : V → V → Bool) (v : V) (hnew : m.find k = none) : ∃ s, Same VComp s v ∧
    findValue (tryEmplace VComp k v m).1 k = some s ∧ ((m.classOf VComp v).map Prod.snd).getD v = s := by
  rw [find_eq_none] at hnew
  rcases tryEmplace_eq_or VComp k v m with
    ⟨heq, hnone⟩ | ⟨before, c, after, rfl, hc, hv, heq⟩
  · refine ⟨v, Or.inl rfl, ?_, by rw [hnone]; rfl⟩
    rw [heq, findValue, find, List.find?_append, List.find?_eq_none.2 (by simpa using hnew)]
    simp
  · have hbefore : List.find? (fun c => decide (k ∈ c.1)) before = none :=
      List.find?_eq_none.2 fun d hd => by simpa using hnew d (List.mem_append_left _ hd)
    refine ⟨c.2, Or.inr hv, ?_, by rw [hc]; rfl⟩
    rw [heq, findValue, find, List.find?_append, hbefore, Option.none_or, List.find?_cons_of_pos]
    · rfl
    · exact decide_eq_true (Finset.mem_insert_self k c.1)

end EquivalenceClassMap

open EquivalenceClassMap

/-! ### Runs -/

/-- The insertion of a key with a value, at once or only if the key is not found. -/
inductive EquivalenceClassOp (K V : Type*)
  | insert (Key : K) (Val : V)
  | getOrInsertLazy (Key : K) (Val : V)

namespace EquivalenceClassOp

def key : EquivalenceClassOp K V → K
  | insert Key _ => Key
  | getOrInsertLazy Key _ => Key

def value : EquivalenceClassOp K V → V
  | insert _ Val => Val
  | getOrInsertLazy _ Val => Val

def run (VComp : V → V → Bool) (m : EquivalenceClassMap K V) : EquivalenceClassOp K V →
    EquivalenceClassMap K V
  | insert Key Val => (tryEmplace VComp Key Val m).1
  | getOrInsertLazy Key Val => (m.getOrInsertLazy VComp Key Val).1

end EquivalenceClassOp

/-- The value of the first insertion of a key. -/
def firstValue (ops : List (EquivalenceClassOp K V)) (k : K) : Option V :=
  (ops.find? fun op => decide (op.key = k)).map EquivalenceClassOp.value

/-- The keys are partitioned into classes of different values; and a key is found, and returned, under a
value that stands for the one of its first insertion. -/
structure Partition (VComp : V → V → Bool) (classes : EquivalenceClassMap K V)
    (findValue : K → Option V) (lazyValue : K → V → Option V) (first : K → Option V) : Prop where
  disjoint : DisjointKeys classes
  distinct : DistinctValues VComp classes
  findValue : ∀ k, (findValue k).Rel (Same VComp) (first k)
  lazyValue : ∀ k v, (lazyValue k v).Rel (Same VComp) (some ((first k).getD v))

namespace EquivalenceClassMap

variable {VComp : V → V → Bool} {m : EquivalenceClassMap K V} {k k' : K} {v : V}
  {ops : List (EquivalenceClassOp K V)} {first : K → Option V}

/-- The map after some operations. -/
def run (VComp : V → V → Bool) (ops : List (EquivalenceClassOp K V)) : EquivalenceClassMap K V :=
  ops.foldl (EquivalenceClassOp.run VComp) []

theorem run_concat (op : EquivalenceClassOp K V) :
    run VComp (ops ++ [op]) = op.run VComp (run VComp ops) := List.foldl_concat ..

theorem firstValue_concat (ops : List (EquivalenceClassOp K V)) (op : EquivalenceClassOp K V) (k : K) :
    firstValue (ops ++ [op]) k =
    (firstValue ops k).or (if op.key = k then some op.value else none) := by
  rw [firstValue, List.find?_append, firstValue, Option.map_or, List.find?_singleton]
  simp only [decide_eq_true_eq]
  split_ifs <;> rfl

theorem getOrInsertLazy_of_find {c : Finset K × V} (h : m.find k = some c) :
    m.getOrInsertLazy VComp k v = (m, c.2, true) := by
  rw [getOrInsertLazy, h]

theorem getOrInsertLazy_of_not_find (h : m.find k = none) : m.getOrInsertLazy VComp k v =
    ((tryEmplace VComp k v m).1, ((m.classOf VComp v).map Prod.snd).getD v, false) := by
  rw [getOrInsertLazy, h]

/-- The keys are found under the values of their first insertions. -/
def FindsFirst (VComp : V → V → Bool) (m : EquivalenceClassMap K V) (first : K → Option V) : Prop :=
  ∀ k, (m.findValue k).Rel (Same VComp) (first k)

theorem FindsFirst.of_find {c : Finset K × V} (h : FindsFirst VComp m first) (hfind : m.find k = some c) :
    ∃ w, first k = some w ∧ Same VComp c.2 w := by
  have hk := h k
  rw [findValue, hfind, Option.map_some] at hk
  cases hfirst : first k with
  | none =>
    rw [hfirst] at hk
    cases hk
  | some w =>
    rw [hfirst] at hk
    exact ⟨w, rfl, Option.rel_some_some.1 hk⟩

theorem FindsFirst.of_not_find (h : FindsFirst VComp m first) (hfind : m.find k = none) : first k = none := by
  have hk := h k
  rw [findValue, hfind, Option.map_none] at hk
  cases hfirst : first k with
  | none => rfl
  | some w =>
    rw [hfirst] at hk
    cases hk

theorem FindsFirst.tryEmplace (h : FindsFirst VComp m first) (hr : Respects VComp m k v) :
    FindsFirst VComp (tryEmplace VComp k v m).1
      fun k' => (first k').or (if k = k' then some v else none) := by
  intro k'
  show ((EquivalenceClassMap.tryEmplace VComp k v m).1.findValue k').Rel (Same VComp)
    ((first k').or (if k = k' then some v else none))
  by_cases hne : k' = k
  · subst hne
    rw [if_pos rfl]
    cases hfind : m.find k' with
    | some c =>
      -- the key is in its class already, and the map stays as it is
      obtain ⟨w, hfirst, hw⟩ := h.of_find hfind
      rw [hr.tryEmplace_eq hfind, findValue, hfind, Option.map_some, hfirst]
      exact .some hw
    | none =>
      obtain ⟨s, hs, hvalue, -⟩ := findValue_tryEmplace_self VComp v hfind
      rw [h.of_not_find hfind, hvalue]
      exact .some hs
  · rw [findValue_tryEmplace_of_ne hne, if_neg (Ne.symm hne), Option.or_none]
    exact h k'

/-- What the map keeps along a run in which no key gets into a second class. -/
structure Inv (VComp : V → V → Bool) (m : EquivalenceClassMap K V) (first : K → Option V) : Prop where
  disjoint : DisjointKeys m
  distinct : DistinctValues VComp m
  finds : FindsFirst VComp m first

theorem Inv.run {op : EquivalenceClassOp K V} (h : Inv VComp m first)
    (hr : ∀ k v, op = .insert k v → Respects VComp m k v) :
    Inv VComp (op.run VComp m) fun k => (first k).or (if op.key = k then some op.value else none) := by
  have hemplace : ∀ k v, Respects VComp m k v → Inv VComp (tryEmplace VComp k v m).1
      fun k' => (first k').or (if k = k' then some v else none) := fun k v hr =>
    ⟨(disjointKeys_tryEmplace_iff h.disjoint).2 hr, h.distinct.tryEmplace, h.finds.tryEmplace hr⟩
  cases op with
  | insert k v => exact hemplace k v (hr k v rfl)
  | getOrInsertLazy k v =>
    cases hfind : m.find k with
    | some c =>
      have hrun : (EquivalenceClassOp.getOrInsertLazy k v).run VComp m = m := by
        rw [EquivalenceClassOp.run, getOrInsertLazy_of_find hfind]
      rw [hrun]
      -- a hit is no first insertion
      refine ⟨h.disjoint, h.distinct, fun k' => ?_⟩
      split_ifs with heq
      · obtain rfl : k = k' := heq
        obtain ⟨w, hfirst, hw⟩ := h.finds.of_find hfind
        rw [findValue, hfind, Option.map_some, hfirst]
        exact .some hw
      · rw [Option.or_none]
        exact h.finds k'
    | none =>
      have hrun : (EquivalenceClassOp.getOrInsertLazy k v).run VComp m = (tryEmplace VComp k v m).1 := by
        rw [EquivalenceClassOp.run, getOrInsertLazy_of_not_find hfind]
      rw [hrun]
      exact hemplace k v fun c hc hk => absurd hk (find_eq_none.1 hfind c hc)

/-- The value that `getOrInsertLazy` returns. -/
theorem Inv.lazyValue (h : Inv VComp m first) (k : K) (v : V) :
    Same VComp (m.getOrInsertLazy VComp k v).2.1 ((first k).getD v) := by
  cases hfind : m.find k with
  | some c =>
    obtain ⟨w, hfirst, hw⟩ := h.finds.of_find hfind
    rw [getOrInsertLazy_of_find hfind, hfirst]
    exact hw
  | none =>
    obtain ⟨s, hs, -, hlazy⟩ := findValue_tryEmplace_self VComp v hfind
    rw [getOrInsertLazy_of_not_find hfind, h.finds.of_not_find hfind]
    exact hlazy ▸ hs

theorem Inv.partition (h : Inv VComp m first) : Partition VComp m m.findValue
    (fun k v => some (m.getOrInsertLazy VComp k v).2.1) first :=
  ⟨h.disjoint, h.distinct, h.finds, fun k v => .some (h.lazyValue k v)⟩

/-- No key gets into a second class along the run. -/
def RespectsAlong (VComp : V → V → Bool) (ops : List (EquivalenceClassOp K V)) : Prop :=
  ∀ done k v, done ++ [.insert k v] <+: ops → Respects VComp (run VComp done) k v

theorem RespectsAlong.inv (h : RespectsAlong VComp ops) :
    Inv VComp (run VComp ops) (firstValue ops) := by
  induction ops using List.reverseRecOn with
  | nil => exact ⟨.nil, .nil, fun k => .none⟩
  | append_singleton ops op ih =>
    have hinv := ih fun done k v hdone => h done k v (hdone.trans (List.prefix_append ops [op]))
    have hrun : Inv VComp (op.run VComp (run VComp ops)) _ :=
      hinv.run fun k v hop => h ops k v (hop ▸ List.prefix_refl _)
    rw [run_concat, funext (firstValue_concat ops op)]
    exact hrun

end EquivalenceClassMap

/-! ### Values and key sets in two vectors -/

/-- `EquivalenceClassMapNG`, whose vectors are equally long. -/
structure EquivalenceClassMapNG (K V : Type*) where
  Values : List V := []
  Keys : List (Finset K) := []
  length_eq : Keys.length = Values.length := by rfl

namespace EquivalenceClassMapNG

/-- What the iterators give. -/
def classes (m : EquivalenceClassMapNG K V) : EquivalenceClassMap K V := m.Keys.zip m.Values

section Operations

variable (VComp : V → V → Bool)

/-- `insert`: the map, the position of the class, and whether the key is new there. -/
def insert (Key : K) (Value : V) (m : EquivalenceClassMapNG K V) : EquivalenceClassMapNG K V × ℕ × Bool :=
  let I := m.Values.findIdx fun v => VComp v Value
  if I < m.Values.length then
    (⟨m.Values, m.Keys.modify I (Insert.insert Key), by rw [List.length_modify, m.length_eq]⟩, I,
      decide (Key ∉ m.Keys.getD I ∅))
  else
    (⟨m.Values ++ [Value], m.Keys ++ [{Key}], by rw [List.length_append, List.length_append, m.length_eq]; rfl⟩,
      m.Values.length, true)

/-- `getOrInsertLazy`: the map, the value, and whether it is a hit. -/
def getOrInsertLazy (Key : K) (Val : V) (m : EquivalenceClassMapNG K V) :
    EquivalenceClassMapNG K V × Option V × Bool :=
  let I := m.Keys.findIdx fun keys => decide (Key ∈ keys)
  if I < m.Keys.length then (m, m.Values[I]?, true)
  else
    let r := m.insert VComp Key Val
    (r.1, (r.1.classes[r.2.1]?).map Prod.snd, false)

/-- `find`: the class, or the end. -/
def find (m : EquivalenceClassMapNG K V) (Ky : K) : Option (Finset K × V) :=
  m.classes[m.Keys.findIdx fun keys => decide (Ky ∈ keys)]?

def findValue (m : EquivalenceClassMapNG K V) (Ky : K) : Option V := (m.find Ky).map Prod.snd

def run (m : EquivalenceClassMapNG K V) : EquivalenceClassOp K V → EquivalenceClassMapNG K V
  | .insert Key Val => (m.insert VComp Key Val).1
  | .getOrInsertLazy Key Val => (m.getOrInsertLazy VComp Key Val).1

/-- The map after some operations. -/
def runAll (ops : List (EquivalenceClassOp K V)) : EquivalenceClassMapNG K V := ops.foldl (run VComp) {}

end Operations

variable {VComp : V → V → Bool} {m : EquivalenceClassMapNG K V} {k : K} {v : V}

omit [DecidableEq K] in
theorem Keys_eq (m : EquivalenceClassMapNG K V) : m.Keys = m.classes.map Prod.fst :=
  (List.map_fst_zip m.length_eq.le).symm

omit [DecidableEq K] in
theorem Values_eq (m : EquivalenceClassMapNG K V) : m.Values = m.classes.map Prod.snd :=
  (List.map_snd_zip m.length_eq.ge).symm

omit [DecidableEq K] in
theorem length_classes (m : EquivalenceClassMapNG K V) : m.classes.length = m.Values.length := by
  rw [Values_eq, List.length_map]

/-- An insertion into the class at the position of the value, or behind the last class. -/
theorem tryEmplace_eq_ite (VComp : V → V → Bool) (k : K) (v : V) (l : EquivalenceClassMap K V) :
    (tryEmplace VComp k v l).1 =
      if l.findIdx (fun c => VComp c.2 v) < l.length then
        l.modify (l.findIdx fun c => VComp c.2 v) fun c => (Insert.insert k c.1, c.2)
      else l ++ [({k}, v)] := by
  induction l with
  | nil => rfl
  | cons c l ih =>
    rw [tryEmplace, List.findIdx_cons]
    by_cases hv : VComp c.2 v = true
    · rw [if_pos hv, hv, cond_true, if_pos (List.length_pos_of_mem List.mem_cons_self),
        List.modify_zero_cons]
    · rw [if_neg hv, Bool.not_eq_true _ |>.mp hv, cond_false]
      simp only [ih, List.length_cons, Nat.add_lt_add_iff_right, List.modify_succ_cons]
      split_ifs <;> rfl

omit [DecidableEq K] in
/-- The key set at a position changes. -/
theorem zip_modify (f : Finset K → Finset K) (l : List (Finset K × V)) (i : ℕ) :
    ((l.map Prod.fst).modify i f).zip (l.map Prod.snd) = l.modify i fun c => (f c.1, c.2) := by
  induction l generalizing i with
  | nil => simp
  | cons c l ih =>
    cases i with
    | zero =>
      have hl : (l.map Prod.fst).zip (l.map Prod.snd) = l := (List.zip_of_prod rfl rfl).symm
      simp [hl]
    | succ i => simp [ih]

/-- The iterators give the same classes as in an `EquivalenceClassMap`. -/
theorem classes_insert : (m.insert VComp k v).1.classes = (tryEmplace VComp k v m.classes).1 := by
  rw [tryEmplace_eq_ite, insert, length_classes]
  have hidx : m.Values.findIdx (fun w => VComp w v) = m.classes.findIdx fun c => VComp c.2 v := by
    rw [Values_eq, List.findIdx_map]
    rfl
  rw [← hidx]
  split_ifs with hlt
  · have hzip : ∀ I, (m.Keys.modify I (Insert.insert k)).zip m.Values =
        m.classes.modify I fun c => (Insert.insert k c.1, c.2) := fun I => by
      rw [← zip_modify, ← Keys_eq, ← Values_eq]
    exact hzip _
  · rw [classes, List.zip_append m.length_eq]
    rfl

theorem find_eq : m.find k = m.classes.find k := by
  rw [find, Keys_eq, List.findIdx_map, EquivalenceClassMap.find, List.find?_eq_getElem?_findIdx]
  rfl

theorem findValue_eq : m.findValue = m.classes.findValue := by
  funext k
  rw [findValue, find_eq, EquivalenceClassMap.findValue]

theorem isSome_find_iff :
    m.Keys.findIdx (fun keys => decide (k ∈ keys)) < m.Keys.length ↔ (m.classes.find k).isSome := by
  rw [List.findIdx_lt_length, EquivalenceClassMap.find, List.find?_isSome, Keys_eq]
  simp only [List.mem_map, exists_exists_and_eq_and]

omit [DecidableEq K] in
theorem findIdx_Values (m : EquivalenceClassMapNG K V) (v : V) :
    m.Values[m.Values.findIdx fun w => VComp w v]? = (m.classes.classOf VComp v).map Prod.snd := by
  rw [← List.find?_eq_getElem?_findIdx, Values_eq, List.find?_map]
  rfl

/-- The value of the class that a key is inserted into. -/
theorem value_insert : ((m.insert VComp k v).1.classes[(m.insert VComp k v).2.1]?).map Prod.snd =
    some (((m.classes.classOf VComp v).map Prod.snd).getD v) := by
  rw [← List.getElem?_map, ← Values_eq, ← findIdx_Values, insert]
  split_ifs with hlt
  · rw [List.getElem?_eq_getElem hlt]
    rfl
  · rw [List.getElem?_concat_length, List.getElem?_eq_none (not_lt.1 hlt)]
    rfl

/-- The map and the value are the same as in an `EquivalenceClassMap`. -/
theorem getOrInsertLazy_eq : (m.getOrInsertLazy VComp k v).1.classes = (m.classes.getOrInsertLazy VComp k v).1 ∧
    (m.getOrInsertLazy VComp k v).2.1 = some (m.classes.getOrInsertLazy VComp k v).2.1 := by
  rw [getOrInsertLazy]
  cases hfind : m.classes.find k with
  | some c =>
    have hlt := isSome_find_iff.2 (Option.isSome_of_eq_some hfind)
    rw [EquivalenceClassMap.getOrInsertLazy_of_find hfind, if_pos hlt]
    refine ⟨rfl, ?_⟩
    have hvalue : m.classes[m.Keys.findIdx fun keys => decide (k ∈ keys)]? = some c := find_eq.trans hfind
    show m.Values[m.Keys.findIdx fun keys => decide (k ∈ keys)]? = some c.2
    rw [Values_eq, List.getElem?_map, hvalue]
    rfl
  | none =>
    have hnot : ¬m.Keys.findIdx (fun keys => decide (k ∈ keys)) < m.Keys.length := fun hlt => by
      have hsome := isSome_find_iff.1 hlt
      rw [hfind] at hsome
      cases hsome
    rw [EquivalenceClassMap.getOrInsertLazy_of_not_find hfind, if_neg hnot]
    exact ⟨classes_insert, value_insert⟩

/-- `getOrInsertLazy` returns the value that the key is found under then; other keys are not touched. -/
theorem findValue_getOrInsertLazy (VComp : V → V → Bool) (k : K) (v : V) (m : EquivalenceClassMapNG K V) :
    ∃ s, (m.getOrInsertLazy VComp k v).2.1 = some s ∧
      (m.getOrInsertLazy VComp k v).1.findValue k = some s ∧
      (m.findValue k = some s ∨ m.findValue k = none ∧ Same VComp s v) ∧
      ∀ k' ≠ k, (m.getOrInsertLazy VComp k v).1.findValue k' = m.findValue k' := by
  simp only [findValue_eq, getOrInsertLazy_eq]
  cases hfind : m.classes.find k with
  | some c =>
    have hvalue : m.classes.findValue k = some c.2 := by rw [EquivalenceClassMap.findValue, hfind]; rfl
    rw [EquivalenceClassMap.getOrInsertLazy_of_find hfind]
    exact ⟨c.2, rfl, hvalue, Or.inl hvalue, fun _ _ => rfl⟩
  | none =>
    have hvalue : m.classes.findValue k = none := by rw [EquivalenceClassMap.findValue, hfind]; rfl
    obtain ⟨s, hs, hfound, hreturned⟩ := findValue_tryEmplace_self VComp v hfind
    rw [EquivalenceClassMap.getOrInsertLazy_of_not_find hfind]
    exact ⟨s, congrArg some hreturned, hfound, Or.inr ⟨hvalue, hs⟩,
      fun k' hne => findValue_tryEmplace_of_ne hne⟩

theorem classes_run (op : EquivalenceClassOp K V) :
    (m.run VComp op).classes = op.run VComp m.classes := by
  cases op with
  | insert k v => exact classes_insert
  | getOrInsertLazy k v => exact getOrInsertLazy_eq.1

theorem classes_runAll (ops : List (EquivalenceClassOp K V)) :
    (runAll VComp ops).classes = EquivalenceClassMap.run VComp ops := by
  induction ops using List.reverseRecOn with
  | nil => rfl
  | append_singleton ops op ih =>
    rw [EquivalenceClassMap.run_concat, runAll, List.foldl_concat, ← runAll, classes_run, ih]

end EquivalenceClassMapNG

/-! ### The partition -/

/-- What is asked of both maps after some operations. -/
structure Partitions (VComp : V → V → Bool) (ops : List (EquivalenceClassOp K V)) : Prop where
  map : Partition VComp (EquivalenceClassMap.run VComp ops) (EquivalenceClassMap.run VComp ops).findValue
    (fun k v => some ((EquivalenceClassMap.run VComp ops).getOrInsertLazy VComp k v).2.1) (firstValue ops)
  mapNG : Partition VComp (EquivalenceClassMapNG.runAll VComp ops).classes
    (EquivalenceClassMapNG.runAll VComp ops).findValue
    (fun k v => ((EquivalenceClassMapNG.runAll VComp ops).getOrInsertLazy VComp k v).2.1) (firstValue ops)

variable {VComp : V → V → Bool} {ops : List (EquivalenceClassOp K V)}

theorem EquivalenceClassMap.Inv.partitions
    (h : Inv VComp (EquivalenceClassMap.run VComp ops) (firstValue ops)) : Partitions VComp ops := by
  refine ⟨h.partition, ?_⟩
  rw [EquivalenceClassMapNG.findValue_eq]
  simp only [EquivalenceClassMapNG.getOrInsertLazy_eq.2, EquivalenceClassMapNG.classes_runAll]
  exact h.partition

/-- All along a run the keys are partitioned, and found under the values of their first insertions, if and
only if no key of the map is inserted into a second class. -/
theorem partition_iff (VComp : V → V → Bool) (ops : List (EquivalenceClassOp K V)) :
    (∀ done, done <+: ops → Partitions VComp done) ↔ RespectsAlong VComp ops := by
  constructor
  · intro h done k v hdone
    have hbefore := (h done ((List.prefix_append done _).trans hdone)).map.disjoint
    have hafter := (h _ hdone).map.disjoint
    rw [run_concat] at hafter
    exact (disjointKeys_tryEmplace_iff hbefore).1 hafter
  · intro h done hdone
    exact RespectsAlong.inv (fun done' k v hdone' => h done' k v (hdone'.trans hdone)) |>.partitions

/-- A key that is inserted with a value and then with another one is in two classes. -/
theorem not_partitions_insert_insert :
    ¬Partitions (fun v w : ℕ => v == w) [.insert 'k' 1, .insert 'k' 2] := by
  intro h
  have hdisj : DisjointKeys [({'k'}, 1), ({'k'}, 2)] := h.map.disjoint
  have hk := List.rel_of_pairwise_cons hdisj List.mem_cons_self
  exact Finset.disjoint_singleton.1 hk rfl

end Phasar
