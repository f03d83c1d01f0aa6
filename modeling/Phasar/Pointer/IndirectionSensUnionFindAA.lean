import Phasar.Lib.UnionFind
import Mathlib.Data.List.Basic

/-!
# Indirection-sensitive union-find aliasing

`IndirectionSensUnionFindAA`: a value has one object for each depth of indirection below a limit, and
the last object stands for all deeper levels too. An object is its entry of `Obj2Var`, a value with a
depth.

* `Calls`: the values and edges that the analysis is told, in any order;
* `joinTargets`, `onAddEdge`, `aliasSets`: the analysis with depth limit `K`;
* `sameClass_of_succ_iff`: a smaller limit finds the same aliases, and more, unless the limit is one
  and copies are needed to connect what is loaded and stored.
-/

namespace Phasar

/-- The kinds of edges of the pointer assignment graph. -/
inductive PAGEdgeKind
  | assign | gep | call | ret | load | store | storePOI | copy
  deriving DecidableEq

namespace IndirectionSensUnionFindAA

/-- What the analysis is told: values are numbered in ascending order, and an edge is between values
added before. -/
inductive Calls : ℕ → Type
  | start : Calls 0
  | onAddValue {n : ℕ} (calls : Calls n) : Calls (n + 1)
  | onAddEdge {n : ℕ} (calls : Calls n) (src dst : Fin n) (kind : PAGEdgeKind) : Calls n

/-- A value with a depth. -/
abbrev IndObject := ℕ × ℕ

variable (K : ℕ)

def getObjectOrNull (v ctx : ℕ) : Option IndObject := if ctx < K then some (v, ctx) else none

def nextDepth (ctx : ℕ) : ℕ := if ctx = K - 1 then ctx else ctx + 1

def prevDepth (ctx : ℕ) : Option ℕ := if ctx = 0 then none else some (ctx - 1)

/-- The body of the loop of `onAddEdge`: the objects of `dst` that the object of the source with
depth `fromCtx` is joined with. -/
def joinTargets (dst : ℕ) (kind : PAGEdgeKind) (fromCtx : ℕ) : List IndObject :=
  match kind with
  | .copy => if fromCtx = 0 then [] else (getObjectOrNull K dst fromCtx).toList
  | .assign | .gep | .call | .ret => (getObjectOrNull K dst fromCtx).toList
  | .load => ((prevDepth fromCtx).bind (getObjectOrNull K dst)).toList ++
      if fromCtx = K - 1 then (getObjectOrNull K dst fromCtx).toList else []
  | .store | .storePOI => (getObjectOrNull K dst (nextDepth K fromCtx)).toList

/-- The pairs of objects that `onAddEdge` joins. -/
def edgeJoins (src dst : ℕ) (kind : PAGEdgeKind) : List (IndObject × IndObject) :=
  (List.range K).flatMap fun fromCtx =>
    (joinTargets K dst kind fromCtx).map fun obj => ((src, fromCtx), obj)

def onAddEdge (sets : UnionFind IndObject) (src dst : ℕ) (kind : PAGEdgeKind) :
    UnionFind IndObject :=
  sets.joinAll (edgeJoins K src dst kind)

/-- The alias sets after the calls. The objects of a new value are alone. -/
def aliasSets : {n : ℕ} → Calls n → UnionFind IndObject
  | _, .start => UnionFind.singletons
  | _, .onAddValue calls => aliasSets calls
  | _, .onAddEdge calls src dst kind => onAddEdge K (aliasSets calls) src dst kind

/-- `mayAlias` of the result, which looks at depth zero. -/
def mayAlias {n : ℕ} (calls : Calls n) (v w : Fin n) : Bool :=
  decide (v = w) || decide ((aliasSets K calls).find (v, 0) = (aliasSets K calls).find (w, 0))

/-- Two values are in the same class at depth zero. -/
def SameClass {n : ℕ} (calls : Calls n) (v w : Fin n) : Prop :=
  (aliasSets K calls).find (v, 0) = (aliasSets K calls).find (w, 0)

instance instDecidableSameClass {n : ℕ} (calls : Calls n) (v w : Fin n) :
    Decidable (SameClass K calls v w) :=
  decEq ((aliasSets K calls).find (v, 0)) ((aliasSets K calls).find (w, 0))

variable {K} {n : ℕ}

theorem mayAlias_iff {calls : Calls n} {v w : Fin n} :
    mayAlias K calls v w = true ↔ SameClass K calls v w := by
  rw [mayAlias, Bool.or_eq_true, decide_eq_true_eq, decide_eq_true_eq]
  exact ⟨fun h => h.elim (fun h => h ▸ rfl) id, Or.inr⟩

/-! ### The edges of the calls -/

/-- Some call adds an edge of the kind. -/
inductive HasEdge : {n : ℕ} → Calls n → PAGEdgeKind → ℕ → ℕ → Prop
  | self {n : ℕ} {calls : Calls n} {src dst : Fin n} {kind : PAGEdgeKind} :
      HasEdge (calls.onAddEdge src dst kind) kind src dst
  | edge {n : ℕ} {calls : Calls n} {src dst : Fin n} {kind kind' : PAGEdgeKind} {x y : ℕ} :
      HasEdge calls kind x y → HasEdge (calls.onAddEdge src dst kind') kind x y
  | value {n : ℕ} {calls : Calls n} {kind : PAGEdgeKind} {x y : ℕ} :
      HasEdge calls kind x y → HasEdge calls.onAddValue kind x y

theorem HasEdge.lt {calls : Calls n} {kind : PAGEdgeKind} {x y : ℕ}
    (h : HasEdge calls kind x y) : x < n ∧ y < n := by
  induction h with
  | self => exact ⟨Fin.isLt _, Fin.isLt _⟩
  | edge _ ih => exact ih
  | value _ ih => exact ⟨ih.1.trans (Nat.lt_succ_self _), ih.2.trans (Nat.lt_succ_self _)⟩

variable (K) in
/-- The depths of two objects that an edge of the kind joins. -/
def JoinsDepths (kind : PAGEdgeKind) (d d' : ℕ) : Prop :=
  match kind with
  | .copy => d' = d ∧ d ≠ 0
  | .assign | .gep | .call | .ret => d' = d
  | .load => d = d' + 1 ∨ d = K - 1 ∧ d' = d
  | .store | .storePOI => d' = nextDepth K d

theorem mem_getObjectOrNull {v ctx : ℕ} {b : IndObject} :
    b ∈ (getObjectOrNull K v ctx).toList ↔ b.1 = v ∧ b.2 < K ∧ b.2 = ctx := by
  obtain ⟨x, d⟩ := b
  rw [getObjectOrNull]
  split_ifs with h
  · simp only [Option.toList_some, List.mem_singleton, Prod.mk.injEq]
    constructor
    · rintro ⟨rfl, rfl⟩
      exact ⟨rfl, h, rfl⟩
    · rintro ⟨rfl, -, rfl⟩
      exact ⟨rfl, rfl⟩
  · simp only [Option.toList_none, List.not_mem_nil, false_iff]
    rintro ⟨-, hd, rfl⟩
    exact h hd

theorem mem_joinTargets {dst d : ℕ} {kind : PAGEdgeKind} {b : IndObject} :
    b ∈ joinTargets K dst kind d ↔ b.1 = dst ∧ b.2 < K ∧ JoinsDepths K kind d b.2 := by
  cases kind with
  | copy =>
    simp only [joinTargets, JoinsDepths]
    split_ifs with h0
    · simp [h0]
    · rw [mem_getObjectOrNull]
      simp [h0]
  | load =>
    simp only [joinTargets, JoinsDepths, List.mem_append]
    have hprev : b ∈ ((prevDepth d).bind (getObjectOrNull K dst)).toList ↔
        b.1 = dst ∧ b.2 < K ∧ d = b.2 + 1 := by
      rw [prevDepth]
      split_ifs with h0
      · simp [h0]
      · rw [Option.bind_some, mem_getObjectOrNull]
        refine and_congr_right fun _ => and_congr_right fun _ => ?_
        omega
    have hlast : b ∈ (if d = K - 1 then (getObjectOrNull K dst d).toList else []) ↔
        b.1 = dst ∧ b.2 < K ∧ d = K - 1 ∧ b.2 = d := by
      split_ifs with hd
      · rw [mem_getObjectOrNull]
        simp [hd]
      · simp [hd]
    rw [hprev, hlast]
    tauto
  | _ => exact mem_getObjectOrNull

theorem mem_edgeJoins {src dst : ℕ} {kind : PAGEdgeKind} {a b : IndObject} :
    (a, b) ∈ edgeJoins K src dst kind ↔
      a.1 = src ∧ b.1 = dst ∧ a.2 < K ∧ b.2 < K ∧ JoinsDepths K kind a.2 b.2 := by
  simp only [edgeJoins, List.mem_flatMap, List.mem_range, List.mem_map, mem_joinTargets]
  constructor
  · rintro ⟨d, hd, c, ⟨hdst, hc, hjoin⟩, heq⟩
    obtain ⟨rfl, rfl⟩ := Prod.mk.inj heq
    exact ⟨rfl, hdst, hd, hc, hjoin⟩
  · rintro ⟨rfl, hdst, hd, hc, hjoin⟩
    exact ⟨a.2, hd, b, ⟨hdst, hc, hjoin⟩, rfl⟩

variable (K) in
/-- Some edge joins the two objects. -/
def Joins (calls : Calls n) (a b : IndObject) : Prop :=
  ∃ kind, HasEdge calls kind a.1 b.1 ∧ a.2 < K ∧ b.2 < K ∧ JoinsDepths K kind a.2 b.2

variable (K) in
/-- The pairs of objects that the calls join. -/
def joins : {n : ℕ} → Calls n → List (IndObject × IndObject)
  | _, .start => []
  | _, .onAddValue calls => joins calls
  | _, .onAddEdge calls src dst kind => joins calls ++ edgeJoins K src dst kind

theorem aliasSets_eq (calls : Calls n) :
    aliasSets K calls = UnionFind.singletons.joinAll (joins K calls) := by
  induction calls with
  | start => rfl
  | onAddValue _ ih => exact ih
  | onAddEdge _ _ _ _ ih => rw [aliasSets, onAddEdge, ih, joins, UnionFind.joinAll_append]

theorem mem_joins {calls : Calls n} {a b : IndObject} :
    (a, b) ∈ joins K calls ↔ Joins K calls a b := by
  induction calls with
  | start =>
    refine ⟨fun h => absurd h List.not_mem_nil, ?_⟩
    rintro ⟨kind, hedge, -⟩
    cases hedge
  | onAddValue calls ih =>
    rw [joins, ih]
    constructor
    · rintro ⟨kind, hedge, h⟩
      exact ⟨kind, hedge.value, h⟩
    · rintro ⟨kind, hedge, h⟩
      cases hedge with
      | value hedge => exact ⟨kind, hedge, h⟩
  | onAddEdge calls src dst kind ih =>
    rw [joins, List.mem_append, ih, mem_edgeJoins]
    constructor
    · rintro (⟨kind', hedge, h⟩ | ⟨hsrc, hdst, h⟩)
      · exact ⟨kind', hedge.edge, h⟩
      · exact ⟨kind, hsrc ▸ hdst ▸ .self, h⟩
    · rintro ⟨kind', hedge, h⟩
      generalize hx : a.1 = x at hedge
      generalize hy : b.1 = y at hedge
      cases hedge with
      | self => exact Or.inr ⟨rfl, rfl, h⟩
      | edge hedge => exact Or.inl ⟨kind', hx ▸ hy ▸ hedge, h⟩

theorem find_aliasSets_iff {calls : Calls n} {a b : IndObject} :
    (aliasSets K calls).find a = (aliasSets K calls).find b ↔
      Relation.EqvGen (Joins K calls) a b := by
  rw [aliasSets_eq, UnionFind.find_joinAll_singletons_iff]
  simp only [mem_joins]

/-! ### A smaller limit -/

/-- With a limit of at least two, the collapse of the last two levels keeps every join. -/
theorem Joins.collapse (hK : 2 ≤ K) {calls : Calls n} {a b : IndObject}
    (h : Joins (K + 1) calls a b) :
    Joins K calls (a.1, min a.2 (K - 1)) (b.1, min b.2 (K - 1)) := by
  obtain ⟨kind, hedge, ha, hb, hdepths⟩ := h
  refine ⟨kind, hedge, by show min a.2 (K - 1) < K; omega, by show min b.2 (K - 1) < K; omega, ?_⟩
  show JoinsDepths K kind (min a.2 (K - 1)) (min b.2 (K - 1))
  have hstore : b.2 = nextDepth (K + 1) a.2 →
      min b.2 (K - 1) = nextDepth K (min a.2 (K - 1)) := by
    simp only [nextDepth]
    split_ifs <;> omega
  cases kind with
  | copy => exact ⟨by rw [hdepths.1], by have := hdepths.2; omega⟩
  | load =>
    -- what is loaded at the last level comes from that level too
    rcases hdepths with hd | ⟨hd, hd'⟩
    · rcases Nat.lt_or_ge a.2 K with hlt | hge
      · left
        omega
      · right
        omega
    · right
      omega
  | store => exact hstore hdepths
  | storePOI => exact hstore hdepths
  | _ => exact congrArg (min · (K - 1)) hdepths

theorem sameClass_of_succ (hK : 2 ≤ K) {calls : Calls n} {v w : Fin n}
    (h : SameClass (K + 1) calls v w) : SameClass K calls v w := by
  have hmap : ∀ {a b : IndObject}, Relation.EqvGen (Joins (K + 1) calls) a b →
      (aliasSets K calls).find (a.1, min a.2 (K - 1)) =
        (aliasSets K calls).find (b.1, min b.2 (K - 1)) := by
    intro a b hab
    exact UnionFind.eq_of_eqvGen (fun x y hxy => find_aliasSets_iff.2 (.rel _ _ (hxy.collapse hK))) hab
  simpa [SameClass] using hmap (find_aliasSets_iff.1 h)

/-! ### The limit one -/

/-- An edge of some kind in `p` is between the values. -/
def Linked (p : PAGEdgeKind → Prop) (calls : Calls n) : ℕ → ℕ → Prop :=
  Relation.EqvGen fun x y => ∃ kind, p kind ∧ HasEdge calls kind x y

/-- The value is loaded or stored. -/
def Accessed (calls : Calls n) (v : ℕ) : Prop :=
  (∃ src, HasEdge calls .load src v) ∨ ∃ kind dst, (kind = .store ∨ kind = .storePOI) ∧
    HasEdge calls kind v dst

/-- Loaded and stored values that are connected are connected without copies. -/
def CopyHarmless (calls : Calls n) : Prop :=
  ∀ v w, Accessed calls v → Accessed calls w → Linked (fun _ => True) calls v w →
    Linked (· ≠ .copy) calls v w

theorem Linked.forget {p : PAGEdgeKind → Prop} {calls : Calls n} {x y : ℕ}
    (h : Linked p calls x y) : Linked (fun _ => True) calls x y :=
  h.mono fun _ _ ⟨kind, _, hedge⟩ => ⟨kind, trivial, hedge⟩

/-- With the limit one, copies are ignored and all other edges join their values. -/
theorem sameClass_one_iff {calls : Calls n} {v w : Fin n} :
    SameClass 1 calls v w ↔ Linked (· ≠ .copy) calls v w := by
  have hjoins : ∀ {x y : ℕ}, Joins 1 calls (x, 0) (y, 0) ↔
      ∃ kind, kind ≠ PAGEdgeKind.copy ∧ HasEdge calls kind x y := by
    intro x y
    refine exists_congr fun kind => ?_
    cases kind <;> simp [JoinsDepths, nextDepth]
  rw [SameClass, find_aliasSets_iff]
  constructor
  · intro h
    have hmap : ∀ {a b : IndObject}, Relation.EqvGen (Joins 1 calls) a b →
        Linked (· ≠ .copy) calls a.1 b.1 := by
      intro a b hab
      induction hab with
      | rel a b hab =>
        obtain ⟨x, d⟩ := a
        obtain ⟨y, d'⟩ := b
        obtain ⟨-, -, hd, hd', -⟩ := id hab
        obtain rfl : d = 0 := by simpa using hd
        obtain rfl : d' = 0 := by simpa using hd'
        exact .rel _ _ (hjoins.1 hab)
      | refl a => exact .refl _
      | symm a b _ ih => exact ih.symm _ _
      | trans a b c _ _ ih₁ ih₂ => exact ih₁.trans _ _ _ ih₂
    exact hmap h
  · intro h
    have hmap : ∀ {x y : ℕ}, Linked (· ≠ .copy) calls x y →
        Relation.EqvGen (Joins 1 calls) (x, 0) (y, 0) := by
      intro x y hxy
      induction hxy with
      | rel x y hxy => exact .rel _ _ (hjoins.2 hxy)
      | refl x => exact .refl _
      | symm x y _ ih => exact ih.symm _ _
      | trans x y z _ _ ih₁ ih₂ => exact ih₁.trans _ _ _ ih₂
    exact hmap h

/-- Something that is loaded or stored is connected with the value without copies. -/
def Touched (calls : Calls n) (x : ℕ) : Prop := ∃ v, Accessed calls v ∧ Linked (· ≠ .copy) calls x v

/-- What the limit two connects at most: the lower objects of connected values, with the upper objects
of those that are touched, and the other upper objects without copies. -/
def Level (calls : Calls n) (a b : IndObject) : Prop :=
  ((a.2 ≠ 0 ∨ Touched calls a.1) ∧ (b.2 ≠ 0 ∨ Touched calls b.1) ∧
      Linked (fun _ => True) calls a.1 b.1) ∨
    (¬(a.2 ≠ 0 ∨ Touched calls a.1) ∧ ¬(b.2 ≠ 0 ∨ Touched calls b.1) ∧
      Linked (· ≠ .copy) calls a.1 b.1)

theorem Touched.of_linked {calls : Calls n} {x y : ℕ} (hx : Touched calls x)
    (h : Linked (· ≠ .copy) calls x y) : Touched calls y := by
  obtain ⟨v, hv, hlink⟩ := hx
  exact ⟨v, hv, (h.symm _ _).trans _ _ _ hlink⟩

theorem Accessed.touched {calls : Calls n} {v : ℕ} (h : Accessed calls v) : Touched calls v :=
  ⟨v, h, .refl v⟩

/-- Without copies, objects of one depth stay on one level. -/
theorem level_of_linked {calls : Calls n} {a b : IndObject} (hd : b.2 = a.2)
    (h : Linked (· ≠ .copy) calls a.1 b.1) : Level calls a b := by
  have hiff : (a.2 ≠ 0 ∨ Touched calls a.1) ↔ (b.2 ≠ 0 ∨ Touched calls b.1) := by
    rw [hd]
    exact or_congr_right ⟨fun ha => ha.of_linked h, fun hb => hb.of_linked (h.symm _ _)⟩
  by_cases ha : a.2 ≠ 0 ∨ Touched calls a.1
  · exact Or.inl ⟨ha, hiff.1 ha, h.forget⟩
  · exact Or.inr ⟨ha, fun hb => ha (hiff.2 hb), h⟩

theorem level_of_joins {calls : Calls n} {a b : IndObject} (h : Joins 2 calls a b) :
    Level calls a b := by
  obtain ⟨kind, hedge, ha, hb, hdepths⟩ := h
  have hall : Linked (fun _ => True) calls a.1 b.1 := .rel _ _ ⟨kind, trivial, hedge⟩
  have hlink : kind ≠ .copy → Linked (· ≠ .copy) calls a.1 b.1 := fun hne =>
    .rel _ _ ⟨kind, hne, hedge⟩
  -- the source of a store is joined with a lower object, whatever its depth
  have hstore : kind = .store ∨ kind = .storePOI → b.2 = nextDepth 2 a.2 → Level calls a b := by
    intro hkind hd
    have hb0 : b.2 ≠ 0 := by
      rw [hd, nextDepth]
      split_ifs <;> omega
    exact Or.inl ⟨Or.inr (Accessed.touched (Or.inr ⟨kind, b.1, hkind, hedge⟩)), Or.inl hb0, hall⟩
  cases kind with
  | copy => exact Or.inl ⟨Or.inl hdepths.2, Or.inl (hdepths.1 ▸ hdepths.2), hall⟩
  | load =>
    rcases hdepths with hd | ⟨hd, hd'⟩
    · exact Or.inl ⟨Or.inl (by omega), Or.inr (Accessed.touched (Or.inl ⟨a.1, hedge⟩)), hall⟩
    · exact Or.inl ⟨Or.inl (by omega), Or.inl (by omega), hall⟩
  | store => exact hstore (Or.inl rfl) hdepths
  | storePOI => exact hstore (Or.inr rfl) hdepths
  | _ => exact level_of_linked hdepths (hlink (by decide))

theorem level_of_eqvGen {calls : Calls n} {a b : IndObject}
    (h : Relation.EqvGen (Joins 2 calls) a b) : Level calls a b := by
  induction h with
  | rel a b hab => exact level_of_joins hab
  | refl a => exact level_of_linked rfl (.refl _)
  | symm a b _ ih =>
    rcases ih with ⟨ha, hb, hlink⟩ | ⟨ha, hb, hlink⟩
    · exact Or.inl ⟨hb, ha, hlink.symm _ _⟩
    · exact Or.inr ⟨hb, ha, hlink.symm _ _⟩
  | trans a b c _ _ ih₁ ih₂ =>
    rcases ih₁ with ⟨ha, hb, hlink⟩ | ⟨ha, hb, hlink⟩
    · rcases ih₂ with ⟨-, hc, hlink'⟩ | ⟨hb', -, -⟩
      · exact Or.inl ⟨ha, hc, hlink.trans _ _ _ hlink'⟩
      · exact absurd hb hb'
    · rcases ih₂ with ⟨hb', -, -⟩ | ⟨-, hc, hlink'⟩
      · exact absurd hb' hb
      · exact Or.inr ⟨ha, hc, hlink.trans _ _ _ hlink'⟩

theorem sameClass_one_of_two {calls : Calls n} (hcopy : CopyHarmless calls) {v w : Fin n}
    (h : SameClass 2 calls v w) : SameClass 1 calls v w := by
  rw [sameClass_one_iff]
  rcases level_of_eqvGen (find_aliasSets_iff.1 h) with ⟨hv, hw, hlink⟩ | ⟨-, -, hlink⟩
  · obtain ⟨x, hx, hvx⟩ := hv.resolve_left fun hne => hne rfl
    obtain ⟨y, hy, hwy⟩ := hw.resolve_left fun hne => hne rfl
    have hxy := hcopy x y hx hy
      ((hvx.forget.symm _ _).trans _ _ _ (hlink.trans _ _ _ hwy.forget))
    exact hvx.trans _ _ _ (hxy.trans _ _ _ (hwy.symm _ _))
  · exact hlink

/-- With the limit two, every edge joins the lower objects of its values. -/
theorem joins_lower {calls : Calls n} {kind : PAGEdgeKind} {x y : ℕ}
    (h : HasEdge calls kind x y) : Joins 2 calls (x, 1) (y, 1) := by
  refine ⟨kind, h, Nat.one_lt_two, Nat.one_lt_two, ?_⟩
  cases kind with
  | copy => exact ⟨rfl, Nat.one_ne_zero⟩
  | load => exact Or.inr ⟨rfl, rfl⟩
  | _ => rfl

/-- With the limit two, the objects of a loaded or stored value are joined. -/
theorem Accessed.joins {calls : Calls n} {v : ℕ} (h : Accessed calls v) :
    Relation.EqvGen (Joins 2 calls) (v, 0) (v, 1) := by
  rcases h with ⟨src, hedge⟩ | ⟨kind, dst, hkind, hedge⟩
  · have hload : Joins 2 calls (src, 1) (v, 0) :=
      ⟨.load, hedge, Nat.one_lt_two, Nat.two_pos, Or.inl rfl⟩
    exact .trans _ _ _ (.symm _ _ (.rel _ _ hload)) (.rel _ _ (joins_lower hedge))
  · have hstore : Joins 2 calls (v, 0) (dst, 1) := by
      refine ⟨kind, hedge, Nat.two_pos, Nat.one_lt_two, ?_⟩
      rcases hkind with rfl | rfl <;> rfl
    exact .trans _ _ _ (.rel _ _ hstore) (.symm _ _ (.rel _ _ (joins_lower hedge)))

/-- With the limit two, loaded and stored values that are connected are in the same class. -/
theorem sameClass_two_of_accessed {calls : Calls n} {v w : Fin n} (hv : Accessed calls v)
    (hw : Accessed calls w) (h : Linked (fun _ => True) calls v w) : SameClass 2 calls v w := by
  have hlower : ∀ {x y : ℕ}, Linked (fun _ => True) calls x y →
      Relation.EqvGen (Joins 2 calls) (x, 1) (y, 1) := by
    intro x y hxy
    induction hxy with
    | rel x y hxy =>
      obtain ⟨kind, -, hedge⟩ := hxy
      exact .rel _ _ (joins_lower hedge)
    | refl x => exact .refl _
    | symm x y _ ih => exact ih.symm _ _
    | trans x y z _ _ ih₁ ih₂ => exact ih₁.trans _ _ _ ih₂
  exact find_aliasSets_iff.2 (hv.joins.trans _ _ _ ((hlower h).trans _ _ _ (hw.joins.symm _ _)))

theorem Accessed.lt {calls : Calls n} {v : ℕ} (h : Accessed calls v) : v < n := by
  rcases h with ⟨src, hedge⟩ | ⟨kind, dst, -, hedge⟩
  · exact hedge.lt.2
  · exact hedge.lt.1

/-- Store the first of four values through the second, copy to the third and load the fourth from
it. -/
def copyThrough : Calls 4 :=
  let values := Calls.start.onAddValue.onAddValue.onAddValue.onAddValue
  let stored : Fin 4 := ⟨0, Nat.zero_lt_succ 3⟩
  let src : Fin 4 := ⟨1, Nat.le_add_left 2 2⟩
  let dst : Fin 4 := ⟨2, Nat.le_succ 3⟩
  let loaded : Fin 4 := ⟨3, Nat.le_refl 4⟩
  ((values.onAddEdge stored src .store).onAddEdge src dst .copy).onAddEdge dst loaded .load

end IndirectionSensUnionFindAA

end Phasar
