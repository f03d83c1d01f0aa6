import Phasar.Pointer.LLVMPAGBuilder

/-!
# Delayed store and load edges

* `Op`, `Call`, `history`: the edges that a sequence of operations of the builder asks for;
* `Inv`, `Inv.addEdge`, `Reaches.runOps`: which of them are delayed, and which have been given to the
  strategy, at any time;
* `keepsFlow_iff`: when no flow is lost, `KeepsFlow`, in terms of the history alone, `FlowOk`.
-/

namespace Phasar.LLVMPAGBuilder

/-! ### Sequences of operations -/

/-- An operation of the builder. `handleLoad` hands Assign edges to the strategy directly. -/
inductive Op (V : Type)
  | getVariable (var : V)
  | addAliasOrEquate (var : V) (id : ℕ)
  | addEdge (src dst : ℕ) (e : Edge)
  | onAddEdge (src dst : ℕ)

/-- An edge that is asked for: through `addEdge`, or an Assign edge for the strategy. -/
inductive Call
  | addEdge (src dst : ℕ) (e : Edge)
  | onAddEdge (src dst : ℕ)
  deriving DecidableEq

variable {V : Type}

def Call.run (c : Call) (s : PAGBuildData V) : PAGBuildData V :=
  match c with
  | .addEdge src dst e => s.addEdge src dst e
  | .onAddEdge src dst => s.onAddEdge src dst .assign

section Operations

variable [DecidableEq V]

namespace Op

def run (op : Op V) (s : PAGBuildData V) : PAGBuildData V :=
  match op with
  | .getVariable var => (s.getVariable var).1
  | .addAliasOrEquate var id => s.addAliasOrEquate var id
  | .addEdge src dst e => s.addEdge src dst e
  | .onAddEdge src dst => s.onAddEdge src dst .assign

/-- The edges that an operation asks for, the last one first. -/
def calls (op : Op V) (s : PAGBuildData V) : List Call :=
  match op with
  | .getVariable _ => []
  | .addAliasOrEquate var id =>
    match s.VC.var2Id var with
    | none => []
    | some existing =>
      if existing = id then [] else [.addEdge existing id .assign, .addEdge id existing .assign]
  | .addEdge src dst e => [.addEdge src dst e]
  | .onAddEdge src dst => [.onAddEdge src dst]

/-- The nodes that an operation names exist. -/
def Valid (op : Op V) (s : PAGBuildData V) : Prop :=
  match op with
  | .getVariable _ => True
  | .addAliasOrEquate _ id => id < s.VC.size
  | .addEdge src dst _ => src < s.VC.size ∧ dst < s.VC.size
  | .onAddEdge src dst => src < s.VC.size ∧ dst < s.VC.size

instance : (op : Op V) → (s : PAGBuildData V) → Decidable (op.Valid s)
  | .getVariable _, _ => inferInstanceAs (Decidable True)
  | .addAliasOrEquate _ id, s => inferInstanceAs (Decidable (id < s.VC.size))
  | .addEdge src dst _, s => inferInstanceAs (Decidable (src < s.VC.size ∧ dst < s.VC.size))
  | .onAddEdge src dst, s => inferInstanceAs (Decidable (src < s.VC.size ∧ dst < s.VC.size))

end Op

/-- The state after some operations. -/
def runOps : List (Op V) → PAGBuildData V → PAGBuildData V
  | [], s => s
  | op :: ops, s => runOps ops (op.run s)

/-- The edges that the operations ask for, the last one first. -/
def history : List (Op V) → PAGBuildData V → List Call
  | [], _ => []
  | op :: ops, s => history ops (op.run s) ++ op.calls s

def ValidOps : List (Op V) → PAGBuildData V → Prop
  | [], _ => True
  | op :: ops, s => op.Valid s ∧ ValidOps ops (op.run s)

instance ValidOps.decidable : (ops : List (Op V)) → (s : PAGBuildData V) → Decidable (ValidOps ops s)
  | [], _ => inferInstanceAs (Decidable True)
  | op :: ops, s =>
    have := ValidOps.decidable ops (op.run s)
    inferInstanceAs (Decidable (op.Valid s ∧ ValidOps ops (op.run s)))

end Operations

/-! ### Which edges are given to the strategy -/

/-- The edge does not end the delay of a node: it is a store edge into it from another node, or a load
edge from it, or not handed to `addEdge`. -/
def Call.Simple (v : ℕ) : Call → Prop
  | .addEdge src dst e => (dst = v → e.isStore = true ∧ src ≠ v) ∧ (src = v → e = .load)
  | .onAddEdge _ _ => True

instance (v : ℕ) : (c : Call) → Decidable (c.Simple v)
  | .addEdge src dst e =>
    inferInstanceAs (Decidable ((dst = v → e.isStore = true ∧ src ≠ v) ∧ (src = v → e = .load)))
  | .onAddEdge _ _ => inferInstanceAs (Decidable True)

/-- A node that was created after the first `n` ones is delayed as long as all its edges are simple. -/
def Plain (n : ℕ) (h : List Call) (v : ℕ) : Prop := n ≤ v ∧ ∀ c ∈ h, c.Simple v

/-- The first store edge between the two nodes has this kind. -/
def First (src dst : ℕ) (e : Edge) : List Call → Prop
  | [] => False
  | c :: h => First src dst e h ∨
      c = .addEdge src dst e ∧ .addEdge src dst .store ∉ h ∧ .addEdge src dst .storePOI ∉ h

/-- The store edge came when its target was not delayed. -/
def Late (n : ℕ) (src dst : ℕ) (e : Edge) : List Call → Prop
  | [] => False
  | c :: h => Late n src dst e h ∨ c = .addEdge src dst e ∧ ¬Plain n h dst

/-- What the state knows of the history: the nodes in `P` are delayed. -/
structure Inv (n : ℕ) (P : ℕ → Prop) (h : List Call) (s : PAGBuildData V) : Prop where
  plain : ∀ v, P v → Plain n h v
  only : ∀ v, v ∈ s.onlyIncomingStoresAndOutgoingLoads ↔ v < s.VC.size ∧ P v
  stores : ∀ v, P v → ∀ p, p ∈ s.incomingStores v ↔ p.2.isStore = true ∧ First p.1 v p.2 h
  loads : ∀ v, P v → ∀ y, y ∈ s.outgoingLoads v ↔ .addEdge v y .load ∈ h
  givenStore : ∀ x v e, e.isStore = true →
    ((x, v, e) ∈ s.strategy ↔ ¬P v ∧ (Late n x v e h ∨ x ≠ v ∧ First x v e h))
  givenLoad : ∀ v y, (v, y, .load) ∈ s.strategy ↔ ¬P v ∧ .addEdge v y .load ∈ h
  givenOther : ∀ x v e, e.isStore = false → e ≠ .load →
    ((x, v, e) ∈ s.strategy ↔ .addEdge x v e ∈ h ∨ e = .assign ∧ .onAddEdge x v ∈ h)

variable {n : ℕ} {P : ℕ → Prop} {h : List Call} {s : PAGBuildData V} {v w x y : ℕ} {e : Edge}

theorem Plain.not_late (hp : Plain n h v) : ¬Late n x v e h := by
  induction h with
  | nil => exact id
  | cons c h ih =>
    have hp' : Plain n h v := ⟨hp.1, fun c' hc' => hp.2 c' (List.mem_cons_of_mem c hc')⟩
    rintro (hl | ⟨-, hl⟩)
    · exact ih hp' hl
    · exact hl hp'

theorem First.mem (hf : First x v e h) : .addEdge x v e ∈ h := by
  induction h with
  | nil => exact hf.elim
  | cons c h ih =>
    rcases hf with hf | ⟨rfl, -⟩
    · exact List.mem_cons_of_mem c (ih hf)
    · exact List.mem_cons_self

theorem Plain.ne_of_first (hp : Plain n h v) (hf : First x v e h) : x ≠ v :=
  ((hp.2 _ hf.mem).1 rfl).2

/-- A node that is erased is not delayed any more. -/
theorem Inv.erase (hs : Inv n P h s) (hw : w < s.VC.size) :
    Inv n (fun v => P v ∧ v ≠ w) h (s.eraseFromSimpleStoreLoad w) := by
  have hVC : (s.eraseFromSimpleStoreLoad w).VC = s.VC := by
    rw [PAGBuildData.eraseFromSimpleStoreLoad]
    split_ifs <;> rfl
  have hmem : w ∈ s.onlyIncomingStoresAndOutgoingLoads ↔ P w := by simp [hs.only, hw]
  -- the delayed edges of the other variables stay delayed
  have hkeep : ∀ v, v ≠ w → (s.eraseFromSimpleStoreLoad w).incomingStores v = s.incomingStores v ∧
      (s.eraseFromSimpleStoreLoad w).outgoingLoads v = s.outgoingLoads v := by
    intro v hv
    rw [PAGBuildData.eraseFromSimpleStoreLoad]
    split_ifs
    · simp [PAGBuildData.addAllIncomingStores, PAGBuildData.addAllOutgoingLoads, hv]
    · exact ⟨rfl, rfl⟩
  refine ⟨fun v hv => hs.plain v hv.1, fun v => ?_, fun v hv p => ?_, fun v hv y => ?_,
    fun x v e he => ?_, fun v y => ?_, fun x v e he hload => ?_⟩
  · have honly : v ∈ (s.eraseFromSimpleStoreLoad w).onlyIncomingStoresAndOutgoingLoads ↔
        v ∈ s.onlyIncomingStoresAndOutgoingLoads ∧ v ≠ w := by
      rw [PAGBuildData.eraseFromSimpleStoreLoad]
      split_ifs with hmem'
      · simp [PAGBuildData.addAllIncomingStores, PAGBuildData.addAllOutgoingLoads, and_comm]
      · refine ⟨fun hv => ⟨hv, ?_⟩, And.left⟩
        rintro rfl
        exact hmem' hv
    rw [honly, hVC, hs.only, and_assoc]
  · rw [(hkeep v hv.2).1]
    exact hs.stores v hv.1 p
  · rw [(hkeep v hv.2).2]
    exact hs.loads v hv.1 y
  · rw [mem_strategy_erase, hmem, hs.givenStore x v e he]
    constructor
    · rintro (⟨hv, hg⟩ | ⟨hw, ⟨p, hp, heq⟩ | ⟨y, -, heq⟩⟩)
      · exact ⟨fun h => hv h.1, hg⟩
      · cases heq
        have hfirst := ((hs.stores w hw p).1 hp).2
        exact ⟨fun h => h.2 rfl, Or.inr ⟨(hs.plain w hw).ne_of_first hfirst, hfirst⟩⟩
      · cases heq
        cases he
    · rintro ⟨hv, hg⟩
      by_cases hPv : P v
      -- an edge that is given now and was delayed before is one of `w`
      · obtain rfl : v = w := by
          by_contra hvw
          exact hv ⟨hPv, hvw⟩
        have hfirst := (hg.resolve_left (hs.plain v hPv).not_late).2
        exact Or.inr ⟨hPv, Or.inl ⟨(x, e), (hs.stores v hPv (x, e)).2 ⟨he, hfirst⟩, rfl⟩⟩
      · exact Or.inl ⟨hPv, hg⟩
  · rw [mem_strategy_erase, hmem, hs.givenLoad v y]
    constructor
    · rintro (⟨hv, hg⟩ | ⟨hw, ⟨⟨x, e⟩, hp, heq⟩ | ⟨y', hy', heq⟩⟩)
      · exact ⟨fun h => hv h.1, hg⟩
      · cases heq
        cases ((hs.stores w hw _).1 hp).1
      · cases heq
        exact ⟨fun h => h.2 rfl, (hs.loads w hw y).1 hy'⟩
    · rintro ⟨hv, hg⟩
      by_cases hPv : P v
      · obtain rfl : v = w := by
          by_contra hvw
          exact hv ⟨hPv, hvw⟩
        exact Or.inr ⟨hPv, Or.inr ⟨y, (hs.loads v hPv y).2 hg, rfl⟩⟩
      · exact Or.inl ⟨hPv, hg⟩
  · rw [mem_strategy_erase, hmem, hs.givenOther x v e he hload, or_iff_left]
    rintro ⟨hw, ⟨p, hp, heq⟩ | ⟨y, -, heq⟩⟩
    · cases heq
      exact absurd ((hs.stores w hw p).1 hp).1 (by simp [he])
    · cases heq
      exact hload rfl

theorem plain_cons {c : Call} : Plain n (c :: h) v ↔ Plain n h v ∧ c.Simple v := by
  simp only [Plain, List.forall_mem_cons]
  constructor
  · rintro ⟨hn, hc, hh⟩
    exact ⟨⟨hn, hh⟩, hc⟩
  · rintro ⟨⟨hn, hh⟩, hc⟩
    exact ⟨hn, hc, hh⟩

/-- There is a first store edge if there is one. -/
theorem exists_first : (∃ e, e.isStore = true ∧ First x v e h) ↔
    .addEdge x v .store ∈ h ∨ .addEdge x v .storePOI ∈ h := by
  constructor
  · rintro ⟨e, he, hf⟩
    have hmem := hf.mem
    cases e with
    | store => exact Or.inl hmem
    | storePOI => exact Or.inr hmem
    | _ => cases he
  · induction h with
    | nil => simp
    | cons c h ih =>
      intro hmem
      by_cases hold : .addEdge x v .store ∈ h ∨ .addEdge x v .storePOI ∈ h
      · obtain ⟨e, he, hf⟩ := ih hold
        exact ⟨e, he, Or.inl hf⟩
      · obtain ⟨hst, hpoi⟩ := not_or.1 hold
        rcases hmem with hmem | hmem
        · exact ⟨.store, rfl, Or.inr ⟨(List.mem_cons.1 hmem).resolve_right hst |>.symm, hst, hpoi⟩⟩
        · exact ⟨.storePOI, rfl,
            Or.inr ⟨(List.mem_cons.1 hmem).resolve_right hpoi |>.symm, hst, hpoi⟩⟩

theorem Inv.congr {P' : ℕ → Prop} (hs : Inv n P h s) (hP : ∀ v, P v ↔ P' v) : Inv n P' h s := by
  obtain rfl : P = P' := funext fun v => propext (hP v)
  exact hs

/-- A store edge into a delayed node is delayed, after its source is erased. -/
theorem Inv.delayStore (hs : Inv n (fun v => Plain n h v ∧ v ≠ x) h s) (he : e.isStore = true)
    (hy : Plain n h y) : Inv n (Plain n (.addEdge x y e :: h)) (.addEdge x y e :: h)
      (s.delayStore x y e) := by
  have hload : e ≠ .load := by
    rintro rfl
    cases he
  have hplain : ∀ v, Plain n h v ∧ v ≠ x ↔ Plain n (.addEdge x y e :: h) v := by
    intro v
    rw [plain_cons]
    refine and_congr_right fun _ => ⟨fun hv => ⟨fun _ => ⟨he, hv.symm⟩, fun hxv => ?_⟩, fun hv => ?_⟩
    · exact absurd hxv.symm hv
    · rintro rfl
      exact hload (hv.2 rfl)
  have hs := hs.congr hplain
  refine ⟨fun _ => id, hs.only, fun v hv p => ?_, fun v hv z => ?_, fun z v e' he' => ?_,
    fun v z => ?_, fun z v e' he' hload' => ?_⟩
  · by_cases hvy : v = y
    · subst hvy
      simp only [PAGBuildData.delayStore, Function.update_self, mem_tryEmplace, First]
      -- only the first store of each source is kept
      have hnone : (∀ q ∈ s.incomingStores v, q.1 ≠ x) ↔
          .addEdge x v .store ∉ h ∧ .addEdge x v .storePOI ∉ h := by
        rw [← not_or, ← exists_first]
        constructor
        · rintro hq ⟨k, hk, hf⟩
          exact hq (x, k) ((hs.stores v hv _).2 ⟨hk, hf⟩) rfl
        · rintro hno q hq rfl
          exact hno ⟨q.2, (hs.stores v hv q).1 hq⟩
      rw [hnone, hs.stores v hv p, and_or_left]
      refine or_congr_right ⟨?_, ?_⟩
      · rintro ⟨rfl, hno⟩
        exact ⟨he, rfl, hno⟩
      · rintro ⟨-, heq, hno⟩
        cases heq
        exact ⟨rfl, hno⟩
    · simp only [PAGBuildData.delayStore, Function.update_of_ne hvy, hs.stores v hv, First]
      refine and_congr_right fun _ => ⟨Or.inl, fun hf => hf.resolve_right ?_⟩
      rintro ⟨heq, -⟩
      cases heq
      exact hvy rfl
  · rw [show (s.delayStore x y e).outgoingLoads v = s.outgoingLoads v from rfl, hs.loads v hv z,
      List.mem_cons, or_iff_right]
    intro heq
    cases heq
    exact hload rfl
  · rw [show (s.delayStore x y e).strategy = s.strategy from rfl, hs.givenStore z v e' he']
    refine and_congr_right fun hv => or_congr ⟨Or.inl, fun hl => hl.resolve_right ?_⟩
      (and_congr_right fun hzv => ⟨Or.inl, fun hf => hf.resolve_right ?_⟩)
    · rintro ⟨heq, hny⟩
      cases heq
      exact hny hy
    · rintro ⟨heq, -⟩
      cases heq
      exact hv ((hplain y).1 ⟨hy, hzv.symm⟩)
  · rw [show (s.delayStore x y e).strategy = s.strategy from rfl, hs.givenLoad v z, List.mem_cons,
      or_iff_right]
    intro heq
    cases heq
    exact hload rfl
  · have hne : Call.addEdge z v e' ≠ .addEdge x y e := by
      rintro ⟨⟩
      exact absurd he (by simp [he'])
    rw [show (s.delayStore x y e).strategy = s.strategy from rfl, hs.givenOther z v e' he' hload']
    simp only [List.mem_cons, hne, reduceCtorEq, false_or]

/-- A load edge from a delayed node is delayed, after its target is erased. -/
theorem Inv.delayLoad (hs : Inv n (fun v => Plain n h v ∧ v ≠ y) h s) (hx : Plain n h x)
    (hxy : x ≠ y) : Inv n (Plain n (.addEdge x y .load :: h)) (.addEdge x y .load :: h)
      (s.delayLoad x y) := by
  have hplain : ∀ v, Plain n h v ∧ v ≠ y ↔ Plain n (.addEdge x y .load :: h) v := by
    intro v
    rw [plain_cons]
    refine and_congr_right fun _ => ⟨fun hv => ⟨fun hyv => ?_, fun _ => rfl⟩, fun hv => ?_⟩
    · exact absurd hyv.symm hv
    · rintro rfl
      cases (hv.1 rfl).1
  have hs := hs.congr hplain
  have hstore : ∀ {z v e'}, e'.isStore = true → Call.addEdge z v e' ≠ .addEdge x y .load := by
    rintro z v e' he' heq
    cases heq
    cases he'
  refine ⟨fun _ => id, hs.only, fun v hv p => ?_, fun v hv z => ?_, fun z v e' he' => ?_,
    fun v z => ?_, fun z v e' he' hload' => ?_⟩
  · rw [show (s.delayLoad x y).incomingStores v = s.incomingStores v from rfl, hs.stores v hv p]
    refine and_congr_right fun hp => ⟨Or.inl, fun hf => hf.resolve_right ?_⟩
    exact fun heq => hstore hp heq.1.symm
  · by_cases hvx : v = x
    · subst hvx
      simp only [PAGBuildData.delayLoad, Function.update_self, List.mem_insert_iff, hs.loads v hv,
        List.mem_cons, Call.addEdge.injEq, true_and, and_true]
    · simp only [PAGBuildData.delayLoad, Function.update_of_ne hvx, hs.loads v hv, List.mem_cons,
        Call.addEdge.injEq, hvx, false_and, false_or]
  · rw [show (s.delayLoad x y).strategy = s.strategy from rfl, hs.givenStore z v e' he']
    refine and_congr_right fun _ => or_congr ⟨Or.inl, fun hl => hl.resolve_right ?_⟩
      (and_congr_right fun _ => ⟨Or.inl, fun hf => hf.resolve_right ?_⟩)
    · exact fun heq => hstore he' heq.1.symm
    · exact fun heq => hstore he' heq.1.symm
  · rw [show (s.delayLoad x y).strategy = s.strategy from rfl, hs.givenLoad v z, List.mem_cons]
    refine and_congr_right fun hv => (or_iff_right ?_).symm
    intro heq
    cases heq
    exact hv ((hplain x).1 ⟨hx, hxy⟩)
  · have hne : Call.addEdge z v e' ≠ .addEdge x y .load := by
      rintro ⟨⟩
      exact hload' rfl
    rw [show (s.delayLoad x y).strategy = s.strategy from rfl, hs.givenOther z v e' he' hload']
    simp only [List.mem_cons, hne, reduceCtorEq, false_or]

/-- An edge that is not delayed is given to the strategy. -/
theorem Inv.give (hs : Inv n (Plain n (.addEdge x y e :: h)) h s)
    (hstore : e.isStore = true → ¬Plain n h y)
    (hload : e = .load → ¬Plain n (.addEdge x y e :: h) x) :
    Inv n (Plain n (.addEdge x y e :: h)) (.addEdge x y e :: h) (s.onAddEdge x y e) := by
  have hmem : ∀ {g}, g ∈ (s.onAddEdge x y e).strategy ↔ g ∈ s.strategy ∨ g = (x, y, e) := by
    simp [PAGBuildData.onAddEdge]
  refine ⟨fun _ => id, hs.only, fun v hv p => ?_, fun v hv z => ?_, fun z v e' he' => ?_,
    fun v z => ?_, fun z v e' he' hload' => ?_⟩
  · rw [show (s.onAddEdge x y e).incomingStores v = s.incomingStores v from rfl, hs.stores v hv p]
    refine and_congr_right fun hp => ⟨Or.inl, fun hf => hf.resolve_right ?_⟩
    rintro ⟨heq, -⟩
    cases heq
    exact hstore hp (plain_cons.1 hv).1
  · rw [show (s.onAddEdge x y e).outgoingLoads v = s.outgoingLoads v from rfl, hs.loads v hv z,
      List.mem_cons, or_iff_right]
    intro heq
    cases heq
    exact hload rfl hv
  · rw [hmem, hs.givenStore z v e' he']
    constructor
    -- the edge is given at once, since its target is no plain node
    · rintro (⟨hv, hg⟩ | heq)
      · exact ⟨hv, hg.imp Or.inl fun hg => ⟨hg.1, Or.inl hg.2⟩⟩
      · cases heq
        have hv := hstore he'
        exact ⟨fun hp => hv (plain_cons.1 hp).1, Or.inl (Or.inr ⟨rfl, hv⟩)⟩
    · rintro ⟨hv, (hl | ⟨heq, -⟩) | ⟨hzv, hf | ⟨heq, -⟩⟩⟩
      · exact Or.inl ⟨hv, Or.inl hl⟩
      · cases heq
        exact Or.inr rfl
      · exact Or.inl ⟨hv, Or.inr ⟨hzv, hf⟩⟩
      · cases heq
        exact Or.inr rfl
  · rw [hmem, hs.givenLoad v z, List.mem_cons]
    constructor
    · rintro (⟨hv, hg⟩ | heq)
      · exact ⟨hv, Or.inr hg⟩
      · cases heq
        exact ⟨hload rfl, Or.inl rfl⟩
    · rintro ⟨hv, heq | hg⟩
      · cases heq
        exact Or.inr rfl
      · exact Or.inl ⟨hv, hg⟩
  · rw [hmem, hs.givenOther z v e' he' hload']
    simp only [List.mem_cons, Call.addEdge.injEq, reduceCtorEq, false_or, Prod.mk.injEq]
    constructor
    · rintro ((hg | hg) | heq)
      · exact Or.inl (Or.inr hg)
      · exact Or.inr hg
      · exact Or.inl (Or.inl heq)
    · rintro ((heq | hg) | hg)
      · exact Or.inr heq
      · exact Or.inl (Or.inl hg)
      · exact Or.inl (Or.inr hg)

/-- An Assign edge that is handed to the strategy directly. -/
theorem Inv.onAddEdge (hs : Inv n (Plain n h) h s) :
    Inv n (Plain n (.onAddEdge x y :: h)) (.onAddEdge x y :: h) (s.onAddEdge x y .assign) := by
  have hplain : ∀ v, Plain n h v ↔ Plain n (.onAddEdge x y :: h) v := fun v => by
    rw [plain_cons]
    exact ⟨fun hv => ⟨hv, trivial⟩, And.left⟩
  have hs := hs.congr hplain
  have hmem : ∀ {g}, g ∈ (s.onAddEdge x y .assign).strategy ↔ g ∈ s.strategy ∨ g = (x, y, .assign) := by
    simp [PAGBuildData.onAddEdge]
  refine ⟨fun _ => id, hs.only, fun v hv p => ?_, fun v hv z => ?_, fun z v e' he' => ?_,
    fun v z => ?_, fun z v e' he' hload' => ?_⟩
  · rw [show (s.onAddEdge x y .assign).incomingStores v = s.incomingStores v from rfl,
      hs.stores v hv p]
    simp only [First, reduceCtorEq, false_and, or_false]
  · rw [show (s.onAddEdge x y .assign).outgoingLoads v = s.outgoingLoads v from rfl,
      hs.loads v hv z]
    simp only [List.mem_cons, reduceCtorEq, false_or]
  · rw [hmem, hs.givenStore z v e' he', or_iff_left]
    · simp only [Late, First, reduceCtorEq, false_and, or_false]
    · rintro ⟨⟩
      cases he'
  · rw [hmem, hs.givenLoad v z, or_iff_left]
    · simp only [List.mem_cons, reduceCtorEq, false_or]
    · rintro ⟨⟩
  · rw [hmem, hs.givenOther z v e' he' hload']
    simp only [List.mem_cons, Call.onAddEdge.injEq, reduceCtorEq, false_or, Prod.mk.injEq]
    constructor
    · rintro ((hg | ⟨he, hg⟩) | ⟨hz, hv, he⟩)
      · exact Or.inl hg
      · exact Or.inr ⟨he, Or.inr hg⟩
      · exact Or.inr ⟨he, Or.inl ⟨hz, hv⟩⟩
    · rintro (hg | ⟨he, ⟨hz, hv⟩ | hg⟩)
      · exact Or.inl (Or.inl hg)
      · exact Or.inr ⟨hz, hv, he⟩
      · exact Or.inl (Or.inr ⟨he, hg⟩)

/-- What one `addEdge` keeps. -/
theorem Inv.addEdge (hs : Inv n (Plain n h) h s) (hx : x < s.VC.size) (hy : y < s.VC.size) :
    Inv n (Plain n (.addEdge x y e :: h)) (.addEdge x y e :: h) (s.addEdge x y e) := by
  have honly : ∀ {v}, v < s.VC.size → (v ∈ s.onlyIncomingStoresAndOutgoingLoads ↔ Plain n h v) :=
    fun hv => (hs.only _).trans (and_iff_right hv)
  have hload : e.isStore = true → e ≠ .load := by
    rintro he rfl
    cases he
  have hsy := hs.erase hy
  have hmem : x ∈ (s.eraseFromSimpleStoreLoad y).onlyIncomingStoresAndOutgoingLoads ↔
      Plain n h x ∧ x ≠ y := (hsy.only x).trans (and_iff_right (by simpa using hx))
  rcases addEdge_cases s x y e with ⟨he, hy', heq⟩ | ⟨he, hy', heq⟩ | ⟨rfl, hx', heq⟩ |
    ⟨rfl, hx', heq⟩ | ⟨he, hload', heq⟩ <;> rw [heq]
  · exact (hs.erase hx).delayStore he ((honly hy).1 hy')
  · refine ((hs.erase hx).congr fun v => ?_).give (fun _ hp => hy' ((honly hy).2 hp))
      fun h' => absurd h' (hload he)
    rw [plain_cons]
    refine and_congr_right fun _ => ⟨fun hv => ⟨fun _ => ⟨he, hv.symm⟩, fun hxv => ?_⟩, fun hv => ?_⟩
    · exact absurd hxv.symm hv
    · rintro rfl
      exact hload he (hv.2 rfl)
  · obtain ⟨hpx, hxy⟩ := hmem.1 hx'
    refine ((hsy.erase (by simpa using hy)).congr fun v => ?_).delayLoad hpx hxy
    exact ⟨And.left, fun hv => ⟨hv, hv.2⟩⟩
  · refine (hsy.congr fun v => ?_).give nofun fun _ hp => hx' (hmem.2 ?_)
    · rw [plain_cons]
      refine and_congr_right fun _ => ⟨fun hv => ⟨fun hyv => absurd hyv.symm hv, fun _ => rfl⟩, ?_⟩
      rintro hv rfl
      cases (hv.1 rfl).1
    · obtain ⟨hpx, hsimple⟩ := plain_cons.1 hp
      refine ⟨hpx, ?_⟩
      rintro rfl
      cases (hsimple.1 rfl).1
  · refine ((hsy.erase (by simpa using hx)).congr fun v => ?_).give (fun h' => ?_)
      fun h' => absurd h' hload'
    · rw [plain_cons, and_assoc]
      refine and_congr_right fun _ => ⟨fun hv => ⟨fun hyv => absurd hyv.symm hv.1,
        fun hxv => absurd hxv.symm hv.2⟩, fun hv => ⟨?_, ?_⟩⟩
      · rintro rfl
        exact absurd (hv.1 rfl).1 (by simp [he])
      · rintro rfl
        exact hload' (hv.2 rfl)
    · rw [he] at h'
      cases h'

/-! ### Runs -/

/-- The edges are between the first `m` nodes. -/
def Below (m : ℕ) (h : List Call) : Prop :=
  (∀ x y e, .addEdge x y e ∈ h → x < m ∧ y < m) ∧ ∀ x y, .onAddEdge x y ∈ h → x < m ∧ y < m

/-- The state, and what it knows of the history. -/
structure Reaches (n : ℕ) (h : List Call) (s : PAGBuildData V) : Prop where
  inv : Inv n (Plain n h) h s
  below : Below s.VC.size h
  vc : s.VC.Ok
  le : n ≤ s.VC.size

theorem Reaches.addEdge (hs : Reaches n h s) (hx : x < s.VC.size) (hy : y < s.VC.size) :
    Reaches n (.addEdge x y e :: h) (s.addEdge x y e) := by
  refine ⟨hs.inv.addEdge hx hy, ⟨fun x' y' e' hmem => ?_, fun x' y' hmem => ?_⟩, by simpa using hs.vc,
    by simpa using hs.le⟩ <;> rw [VC_addEdge]
  · rcases List.mem_cons.1 hmem with heq | hmem
    · cases heq
      exact ⟨hx, hy⟩
    · exact hs.below.1 x' y' e' hmem
  · exact hs.below.2 x' y' ((List.mem_cons.1 hmem).resolve_left nofun)

theorem Reaches.onAddEdge (hs : Reaches n h s) (hx : x < s.VC.size) (hy : y < s.VC.size) :
    Reaches n (.onAddEdge x y :: h) (s.onAddEdge x y .assign) := by
  refine ⟨hs.inv.onAddEdge, ⟨fun x' y' e' hmem => ?_, fun x' y' hmem => ?_⟩, hs.vc, hs.le⟩
  · exact hs.below.1 x' y' e' ((List.mem_cons.1 hmem).resolve_left nofun)
  · rcases List.mem_cons.1 hmem with heq | hmem
    · cases heq
      exact ⟨hx, hy⟩
    · exact hs.below.2 x' y' hmem

section Operations

variable [DecidableEq V]

/-- A new node is delayed, and has no edges. -/
theorem Reaches.getVariable (hs : Reaches n h s) (var : V) : Reaches n h (s.getVariable var).1 := by
  rcases hvar : s.VC.var2Id var with _ | id
  -- all nodes of the history are below the new one
  · have hno : ∀ c ∈ h, c.Simple s.VC.size := by
      intro c hc
      cases c with
      | addEdge x y e =>
        obtain ⟨hx, hy⟩ := hs.below.1 x y e hc
        exact ⟨fun heq => absurd heq hy.ne, fun heq => absurd heq hx.ne⟩
      | onAddEdge x y => trivial
    have hget : (s.getVariable var).1 = { s with
        VC := (s.VC.insert var).1
        onlyIncomingStoresAndOutgoingLoads := insert s.VC.size s.onlyIncomingStoresAndOutgoingLoads
        incomingStores := Function.update s.incomingStores s.VC.size []
        outgoingLoads := Function.update s.outgoingLoads s.VC.size [] } := by
      simp [PAGBuildData.getVariable, ValueCompressor.insert, hvar, ValueCompressor.size]
    have hins : (s.VC.insert var).1 =
        ⟨Function.update s.VC.var2Id var (some s.VC.size), s.VC.id2Vars ++ [[var]]⟩ := by
      simp [ValueCompressor.insert, hvar, ValueCompressor.size]
    have hsize : (s.VC.insert var).1.size = s.VC.size + 1 := by
      simp [hins, ValueCompressor.size]
    have hplain : Plain n h s.VC.size := ⟨hs.le, hno⟩
    rw [hget]
    refine ⟨⟨fun _ => id, fun v => ?_, fun v hv p => ?_, fun v hv y => ?_, hs.inv.givenStore,
      hs.inv.givenLoad, hs.inv.givenOther⟩, ⟨fun x y e hmem => ?_, fun x y hmem => ?_⟩,
      ?_, ?_⟩
    · rw [Finset.mem_insert, hs.inv.only, hsize, Nat.lt_succ_iff_lt_or_eq, or_and_right, or_comm]
      refine or_congr_right ⟨?_, And.left⟩
      rintro rfl
      exact ⟨rfl, hplain⟩
    · by_cases hvs : v = s.VC.size
      · subst hvs
        simp only [Function.update_self]
        refine ⟨fun hp => absurd hp List.not_mem_nil, fun hp => ?_⟩
        exact absurd (hs.below.1 _ _ _ hp.2.mem).2 (lt_irrefl _)
      · simp only [Function.update_of_ne hvs]
        exact hs.inv.stores v hv p
    · by_cases hvs : v = s.VC.size
      · subst hvs
        simp only [Function.update_self]
        refine ⟨fun hp => absurd hp List.not_mem_nil, fun hp => ?_⟩
        exact absurd (hs.below.1 _ _ _ hp).1 (lt_irrefl _)
      · simp only [Function.update_of_ne hvs]
        exact hs.inv.loads v hv y
    · obtain ⟨hx, hy⟩ := hs.below.1 x y e hmem
      exact hsize ▸ ⟨hx.trans (Nat.lt_succ_self _), hy.trans (Nat.lt_succ_self _)⟩
    · obtain ⟨hx, hy⟩ := hs.below.2 x y hmem
      exact hsize ▸ ⟨hx.trans (Nat.lt_succ_self _), hy.trans (Nat.lt_succ_self _)⟩
    · exact hs.vc.update (congrArg (·.var2Id) hins) (by rw [hsize]; exact Nat.lt_succ_self _)
        (by rw [hsize]; exact Nat.le_succ _)
    · show n ≤ (s.VC.insert var).1.size
      exact hsize ▸ hs.le.trans (Nat.le_succ _)
  · have : (s.getVariable var).1 = s := by
      simp [PAGBuildData.getVariable, ValueCompressor.insert, hvar]
    rwa [this]

theorem Reaches.addAliasOrEquate (hs : Reaches n h s) {var : V} {id : ℕ} (hid : id < s.VC.size) :
    Reaches n ((Op.addAliasOrEquate var id).calls s ++ h) (s.addAliasOrEquate var id) := by
  rcases hvar : s.VC.var2Id var with _ | existing
  · have hadd : s.VC.addAlias var id = (⟨Function.update s.VC.var2Id var (some id),
        s.VC.id2Vars.modify id (· ++ [var])⟩, true) := by
      rw [ValueCompressor.addAlias, hvar]
    have hsize : (s.VC.addAlias var id).1.size = s.VC.size := by
      simp [hadd, ValueCompressor.size]
    have hcalls : (Op.addAliasOrEquate var id).calls s = [] := by rw [Op.calls, hvar]
    have hrun : s.addAliasOrEquate var id = { s with VC := (s.VC.addAlias var id).1 } := by
      rw [PAGBuildData.addAliasOrEquate, if_pos (by rw [hadd])]
    rw [hcalls, List.nil_append, hrun]
    refine ⟨⟨fun _ hv => hv,
      fun v => ?_, hs.inv.stores, hs.inv.loads, hs.inv.givenStore, hs.inv.givenLoad,
      hs.inv.givenOther⟩, ?_, ?_, ?_⟩
    · rw [hsize]
      exact hs.inv.only v
    · rw [hsize]
      exact hs.below
    · exact hs.vc.update (congrArg (·.1.var2Id) hadd) (hsize ▸ hid) hsize.ge
    · rw [hsize]
      exact hs.le
  · have hrun : s.addAliasOrEquate var id = if existing = id then s else
        (s.addEdge id existing .assign).addEdge existing id .assign := by
      simp [PAGBuildData.addAliasOrEquate, ValueCompressor.addAlias, hvar]
    have hexisting := hs.vc var existing hvar
    rw [hrun, Op.calls, hvar]
    simp only
    split_ifs with heq
    · exact hs
    · exact (hs.addEdge hid hexisting).addEdge (by simpa using hexisting) (by simpa using hid)

/-- What one operation keeps. -/
theorem Reaches.step (hs : Reaches n h s) {op : Op V} (hop : op.Valid s) :
    Reaches n (op.calls s ++ h) (op.run s) := by
  cases op with
  | getVariable var => exact hs.getVariable var
  | addAliasOrEquate var id => exact hs.addAliasOrEquate hop
  | addEdge src dst e => exact hs.addEdge hop.1 hop.2
  | onAddEdge src dst => exact hs.onAddEdge hop.1 hop.2

theorem Reaches.runOps {ops : List (Op V)} (hs : Reaches n h s) (hops : ValidOps ops s) :
    Reaches n (history ops s ++ h) (runOps ops s) := by
  induction ops generalizing h s with
  | nil => exact hs
  | cons op ops ih =>
    rw [history, List.append_assoc]
    exact ih (hs.step hops.1) hops.2

omit [DecidableEq V] in
/-- Nothing is known before the first operation. -/
theorem Reaches.init {vc : ValueCompressor V} (hvc : vc.Ok) :
    Reaches vc.size [] { VC := vc } := by
  refine ⟨⟨fun _ => id, fun v => ?_, fun v hv p => ?_, fun v hv y => ?_, fun x v e he => ?_,
    fun v y => ?_, fun x v e he hload => ?_⟩, ⟨nofun, nofun⟩, hvc, le_rfl⟩
  · refine ⟨fun hv => absurd hv (Finset.notMem_empty v), fun hv => ?_⟩
    exact absurd hv.2.1 (not_le.2 hv.1)
  · simp [First]
  · simp
  · simp [Late, First]
  · simp
  · simp

end Operations

/-! ### The delayed edges at the end -/

/-- The edge was asked for. -/
def Asked (h : List Call) (x y : ℕ) (e : Edge) : Prop :=
  .addEdge x y e ∈ h ∨ e = .assign ∧ .onAddEdge x y ∈ h

/-- The node has an edge that is neither a store edge into it nor a load edge from it. -/
def HasOther (h : List Call) (v : ℕ) : Prop :=
  ∃ x y e, Asked h x y e ∧ (y = v ∧ e.isStore = false ∨ x = v ∧ e ≠ .load)

/-- An Assign edge of the node was handed to the strategy directly. -/
def Direct (h : List Call) (v : ℕ) : Prop := ∃ w, .onAddEdge v w ∈ h ∨ .onAddEdge w v ∈ h

/-- The strategy has been given all flow that was asked for. -/
structure KeepsFlow (h : List Call) (g : List (ℕ × ℕ × Edge)) : Prop where
  others : ∀ x y e, e.isStore = false → e ≠ .load → Asked h x y e → (x, y, e) ∈ g
  flow : ∀ x v y e, e.isStore = true → Asked h x v e → Asked h v y .load →
    (x, y, .assign) ∈ g ∨ (∃ e' : Edge, e'.isStore = true ∧ (x, v, e') ∈ g) ∧ (v, y, .load) ∈ g
  stores : ∀ v, HasOther h v → ∀ x e, e.isStore = true → Asked h x v e → (x, v, e) ∈ g
  loads : ∀ v, HasOther h v → ∀ y, Asked h v y .load → (v, y, .load) ∈ g

/-- When the builder keeps all flow. -/
structure FlowOk (n : ℕ) (isTaken : ℕ → Prop) (h : List Call) : Prop where
  erased : ∀ x v e, e.isStore = true → .addEdge x v e ∈ h → ¬Plain n h v →
    Late n x v e h ∨ x ≠ v ∧ First x v e h
  direct : ∀ v, Plain n h v → Direct h v →
    (∀ x e, e.isStore = true → .addEdge x v e ∉ h) ∨
      (∀ y, .addEdge v y .load ∉ h) ∧ isTaken v ∧ ∀ x, .addEdge x v .store ∉ h

/-- A name of the node is an address-taken variable. -/
def IsTaken (isAddressTakenVariable : V → Bool) (s : PAGBuildData V) (v : ℕ) : Prop :=
  (s.VC.id2Vars.getD v []).any isAddressTakenVariable = true

theorem asked_of_ne {h : List Call} (he : e ≠ .assign) : Asked h x y e ↔ .addEdge x y e ∈ h :=
  or_iff_left fun ha => he ha.1

theorem late_of_lt (hv : v < n) (hmem : .addEdge x v e ∈ h) : Late n x v e h := by
  induction h with
  | nil => cases hmem
  | cons c h ih =>
    rcases List.mem_cons.1 hmem with rfl | hmem
    · exact Or.inr ⟨rfl, fun hp => absurd hv (not_lt.2 hp.1)⟩
    · exact Or.inl (ih hmem)

theorem hasOther_of_not_plain (hn : n ≤ v) (hv : ¬Plain n h v) : HasOther h v := by
  obtain ⟨c, hc, hsimple⟩ : ∃ c ∈ h, ¬c.Simple v := by
    by_contra hno
    push Not at hno
    exact hv ⟨hn, hno⟩
  cases c with
  | onAddEdge x y => exact absurd trivial hsimple
  | addEdge x y e =>
    refine ⟨x, y, e, Or.inl hc, ?_⟩
    by_cases hxv : x = v ∧ e ≠ .load
    · exact Or.inr hxv
    · have hload : x = v → e = .load := fun hx => by_contra fun he => hxv ⟨hx, he⟩
      refine Or.inl (by_contra fun hno => hsimple ⟨fun hyv => ?_, hload⟩)
      have he : e.isStore = true := by
        rw [← Bool.not_eq_false]
        exact fun he => hno ⟨hyv, he⟩
      refine ⟨he, fun hx => ?_⟩
      rw [hload hx] at he
      cases he

theorem Plain.direct_of_hasOther (hp : Plain n h v) (hv : HasOther h v) : Direct h v := by
  obtain ⟨x, y, e, hmem | ⟨rfl, hmem⟩, hrole⟩ := hv
  · obtain ⟨hto, hfrom⟩ := hp.2 _ hmem
    rcases hrole with ⟨rfl, he⟩ | ⟨rfl, he⟩
    · exact absurd (hto rfl).1 (by simp [he])
    · exact absurd (hfrom rfl) he
  · rcases hrole with ⟨rfl, -⟩ | ⟨rfl, -⟩
    · exact ⟨x, Or.inr hmem⟩
    · exact ⟨y, Or.inl hmem⟩

theorem Direct.hasOther (hv : Direct h v) : HasOther h v := by
  obtain ⟨w, hmem | hmem⟩ := hv
  · exact ⟨v, w, .assign, Or.inr ⟨rfl, hmem⟩, Or.inr ⟨rfl, nofun⟩⟩
  · exact ⟨w, v, .assign, Or.inr ⟨rfl, hmem⟩, Or.inl ⟨rfl, rfl⟩⟩

section Delayed

variable {isAddressTakenVariable : V → Bool}

theorem mem_delayedEdges {g : ℕ × ℕ × Edge} : g ∈ s.delayedEdges isAddressTakenVariable v ↔
    (∃ p ∈ s.incomingStores v, (∃ y ∈ s.outgoingLoads v, (p.1, y, .assign) = g) ∨
      (s.outgoingLoads v = [] ∧ IsTaken isAddressTakenVariable s v) ∧ (p.1, v, .storePOI) = g) ∨
    s.incomingStores v = [] ∧ ∃ y ∈ s.outgoingLoads v, (v, y, .load) = g := by
  have hfall : ((s.outgoingLoads v).isEmpty && (s.VC.id2Vars.getD v []).any isAddressTakenVariable)
      = true ↔ s.outgoingLoads v = [] ∧ IsTaken isAddressTakenVariable s v := by
    rw [Bool.and_eq_true, List.isEmpty_iff, IsTaken]
  simp only [PAGBuildData.delayedEdges, List.mem_append, List.mem_flatMap, List.mem_map,
    List.mem_ite_nil_right, List.mem_singleton, hfall, List.isEmpty_iff]
  refine or_congr (exists_congr fun p => and_congr_right fun _ => or_congr_right ?_) Iff.rfl
  exact and_congr_right fun _ => eq_comm

theorem Reaches.mem_addDelayedEdges (hs : Reaches n h s) {g : ℕ × ℕ × Edge} :
    g ∈ (s.addDelayedEdges isAddressTakenVariable).strategy ↔ g ∈ s.strategy ∨
      ∃ v < s.VC.size, Plain n h v ∧ g ∈ s.delayedEdges isAddressTakenVariable v := by
  simp only [PAGBuildData.addDelayedEdges, List.mem_append, List.mem_flatMap, List.mem_filter,
    List.mem_range, decide_eq_true_eq, hs.inv.only]
  refine or_congr_right (exists_congr fun v => ?_)
  constructor
  · rintro ⟨⟨hv, -, hp⟩, hg⟩
    exact ⟨hv, hp, hg⟩
  · rintro ⟨hv, hp, hg⟩
    exact ⟨⟨hv, hv, hp⟩, hg⟩

theorem Plain.mem_incomingStores (hs : Reaches n h s) (hv : Plain n h v) :
    (∃ p ∈ s.incomingStores v, p.1 = x) ↔ ∃ e, e.isStore = true ∧ .addEdge x v e ∈ h := by
  have hfirst : (∃ p ∈ s.incomingStores v, p.1 = x) ↔ ∃ e, e.isStore = true ∧ First x v e h := by
    constructor
    · rintro ⟨p, hp, rfl⟩
      exact ⟨p.2, (hs.inv.stores v hv p).1 hp⟩
    · rintro ⟨e, hf⟩
      exact ⟨(x, e), (hs.inv.stores v hv (x, e)).2 hf, rfl⟩
  rw [hfirst]
  refine ⟨fun ⟨e, he, hf⟩ => ⟨e, he, hf.mem⟩, fun ⟨e, he, hmem⟩ => exists_first.2 ?_⟩
  cases e with
  | store => exact Or.inl hmem
  | storePOI => exact Or.inr hmem
  | _ => cases he

theorem Plain.incomingStores_eq_nil (hs : Reaches n h s) (hv : Plain n h v) :
    s.incomingStores v = [] ↔ ∀ x e, e.isStore = true → .addEdge x v e ∉ h := by
  rw [List.eq_nil_iff_forall_not_mem]
  constructor
  · intro hnil x e he hmem
    obtain ⟨p, hp, -⟩ := (hv.mem_incomingStores hs).2 ⟨e, he, hmem⟩
    exact hnil p hp
  · intro hno p hp
    obtain ⟨e, he, hmem⟩ := (hv.mem_incomingStores hs).1 ⟨p, hp, rfl⟩
    exact hno p.1 e he hmem

theorem Plain.outgoingLoads_eq_nil (hs : Reaches n h s) (hv : Plain n h v) :
    s.outgoingLoads v = [] ↔ ∀ y, .addEdge v y .load ∉ h := by
  rw [List.eq_nil_iff_forall_not_mem]
  exact forall_congr' fun y => not_congr (hs.inv.loads v hv y)

/-- The store edges into a delayed node that have been given at the end. -/
theorem Reaches.store_given_plain (hs : Reaches n h s) (hp : Plain n h v) (he : e.isStore = true)
    (hmem : .addEdge x v e ∈ h) :
    (x, v, e) ∈ (s.addDelayedEdges isAddressTakenVariable).strategy ↔
      e = .storePOI ∧ (∀ y, .addEdge v y .load ∉ h) ∧ IsTaken isAddressTakenVariable s v := by
  rw [hs.mem_addDelayedEdges, hs.inv.givenStore x v e he, or_iff_right fun hg => hg.1 hp]
  constructor
  · rintro ⟨w, -, hw, hg⟩
    rcases mem_delayedEdges.1 hg with ⟨p, -, ⟨y, -, heq⟩ | ⟨⟨hnil, htaken⟩, heq⟩⟩ | ⟨-, y, -, heq⟩ <;>
      cases heq
    · cases he
    · exact ⟨rfl, (hp.outgoingLoads_eq_nil hs).1 hnil, htaken⟩
    · cases he
  · rintro ⟨rfl, hno, htaken⟩
    obtain ⟨p, hp', rfl⟩ := (hp.mem_incomingStores hs).2 ⟨.storePOI, rfl, hmem⟩
    refine ⟨v, (hs.below.1 _ v _ hmem).2, hp, mem_delayedEdges.2 (Or.inl ⟨p, hp', Or.inr ?_⟩)⟩
    exact ⟨⟨(hp.outgoingLoads_eq_nil hs).2 hno, htaken⟩, rfl⟩

/-- The store edges into a node that is not delayed any more. -/
theorem Reaches.store_given_erased (hs : Reaches n h s) (hp : ¬Plain n h v) (he : e.isStore = true) :
    (x, v, e) ∈ (s.addDelayedEdges isAddressTakenVariable).strategy ↔
      Late n x v e h ∨ x ≠ v ∧ First x v e h := by
  rw [hs.mem_addDelayedEdges, hs.inv.givenStore x v e he, or_iff_left, and_iff_right hp]
  rintro ⟨w, -, hw, hg⟩
  rcases mem_delayedEdges.1 hg with ⟨p, -, ⟨y, -, heq⟩ | ⟨-, heq⟩⟩ | ⟨-, y, -, heq⟩ <;> cases heq
  · cases he
  · exact hp hw
  · cases he

/-- The load edges that have been given at the end. -/
theorem Reaches.load_given (hs : Reaches n h s) (hmem : .addEdge v y .load ∈ h) :
    (v, y, .load) ∈ (s.addDelayedEdges isAddressTakenVariable).strategy ↔
      (Plain n h v → ∀ x e, e.isStore = true → .addEdge x v e ∉ h) := by
  have hv := (hs.below.1 v y .load hmem).1
  rw [hs.mem_addDelayedEdges, hs.inv.givenLoad v y]
  constructor
  · rintro (⟨hnp, -⟩ | ⟨w, -, hw, hg⟩) hp
    · exact absurd hp hnp
    · rcases mem_delayedEdges.1 hg with ⟨p, -, ⟨y', -, heq⟩ | ⟨-, heq⟩⟩ | ⟨hnil, y', -, heq⟩ <;>
        cases heq
      exact (hp.incomingStores_eq_nil hs).1 hnil
  · intro hno
    by_cases hp : Plain n h v
    · refine Or.inr ⟨v, hv, hp, mem_delayedEdges.2 (Or.inr ⟨?_, y, ?_, rfl⟩)⟩
      · exact (hp.incomingStores_eq_nil hs).2 (hno hp)
      · exact (hs.inv.loads v hp y).2 hmem
    · exact Or.inl ⟨hp, hmem⟩

/-- A store edge and a load edge of a delayed node are one Assign edge. -/
theorem Reaches.assign_given (hs : Reaches n h s) (hp : Plain n h v) (he : e.isStore = true)
    (hstore : .addEdge x v e ∈ h) (hload : .addEdge v y .load ∈ h) :
    (x, y, .assign) ∈ (s.addDelayedEdges isAddressTakenVariable).strategy := by
  obtain ⟨p, hp', rfl⟩ := (hp.mem_incomingStores hs).2 ⟨e, he, hstore⟩
  refine hs.mem_addDelayedEdges.2 (Or.inr ⟨v, (hs.below.1 _ v e hstore).2, hp, ?_⟩)
  exact mem_delayedEdges.2 (Or.inl ⟨p, hp', Or.inl ⟨y, (hs.inv.loads v hp y).2 hload, rfl⟩⟩)

/-- Flow is kept if and only if the bypasses of the bookkeeping do no harm. -/
theorem Reaches.keepsFlow (hs : Reaches n h s) :
    KeepsFlow h (s.addDelayedEdges isAddressTakenVariable).strategy ↔
      FlowOk n (IsTaken isAddressTakenVariable s) h := by
  have hstore : ∀ {x v e}, e.isStore = true → (Asked h x v e ↔ .addEdge x v e ∈ h) := by
    rintro x v e he
    refine asked_of_ne ?_
    rintro rfl
    cases he
  have hload : ∀ {v y}, Asked h v y .load ↔ .addEdge v y .load ∈ h := asked_of_ne nofun
  constructor
  · intro hk
    refine ⟨fun x v e he hmem hnp => ?_, fun v hp hdirect => ?_⟩
    · by_cases hn : n ≤ v
      · have hg := hk.stores v (hasOther_of_not_plain hn hnp) x e he ((hstore he).2 hmem)
        exact (hs.store_given_erased hnp he).1 hg
      · exact Or.inl (late_of_lt (not_le.1 hn) hmem)
    · refine or_iff_not_imp_left.2 fun hno => ?_
      -- a plain variable is given its stores only if it has no load and its address is taken
      have hgiven : ∀ x e, e.isStore = true → .addEdge x v e ∈ h → e = .storePOI ∧
          (∀ y, .addEdge v y .load ∉ h) ∧ IsTaken isAddressTakenVariable s v := by
        intro x e he hmem
        have hg := hk.stores v hdirect.hasOther x e he ((hstore he).2 hmem)
        exact (hs.store_given_plain hp he hmem).1 hg
      push Not at hno
      obtain ⟨x, e, he, hmem⟩ := hno
      obtain ⟨-, hnoload, htaken⟩ := hgiven x e he hmem
      refine ⟨hnoload, htaken, fun x' hmem' => ?_⟩
      cases (hgiven x' .store rfl hmem').1
  · intro hok
    have hdelayed : ∀ {v x e}, Plain n h v → HasOther h v → e.isStore = true →
        .addEdge x v e ∈ h → (∀ y, .addEdge v y .load ∉ h) ∧ IsTaken isAddressTakenVariable s v ∧
          ∀ x, .addEdge x v .store ∉ h := by
      intro v x e hp hv he hmem
      exact (hok.direct v hp (hp.direct_of_hasOther hv)).resolve_left fun hno => hno x e he hmem
    have hstores : ∀ v, ¬Plain n h v → ∀ x e, e.isStore = true → .addEdge x v e ∈ h →
        (x, v, e) ∈ (s.addDelayedEdges isAddressTakenVariable).strategy := by
      intro v hnp x e he hmem
      exact (hs.store_given_erased hnp he).2 (hok.erased x v e he hmem hnp)
    refine ⟨fun x y e he hne hasked => ?_, fun x v y e he hx hy => ?_, fun v hv x e he hx => ?_,
      fun v hv y hy => ?_⟩
    · exact hs.mem_addDelayedEdges.2 (Or.inl ((hs.inv.givenOther x y e he hne).2 hasked))
    · rw [hstore he] at hx
      rw [hload] at hy
      -- the stores and loads of a plain variable are short-circuited
      by_cases hp : Plain n h v
      · exact Or.inl (hs.assign_given hp he hx hy)
      · refine Or.inr ⟨⟨e, he, hstores v hp x e he hx⟩, (hs.load_given hy).2 fun h => absurd h hp⟩
    · rw [hstore he] at hx
      by_cases hp : Plain n h v
      · obtain ⟨hno, htaken, hpoi⟩ := hdelayed hp hv he hx
        refine (hs.store_given_plain hp he hx).2 ⟨?_, hno, htaken⟩
        cases e with
        | store => exact absurd hx (hpoi x)
        | storePOI => rfl
        | _ => cases he
      · exact hstores v hp x e he hx
    · rw [hload] at hy
      refine (hs.load_given hy).2 fun hp x e he hx => ?_
      exact (hdelayed hp hv he hx).1 y hy

end Delayed

section Runs

variable [DecidableEq V]

/-- Delayed edges lose no flow if and only if each store edge into a node that does not stay delayed
is the first one from another node, or comes when the node is not delayed any more; and a node that
stays delayed although an Assign edge of it was handed to the strategy has no store edges, or is an
address-taken variable without load edges that is only stored to by points of interest. -/
theorem keepsFlow_iff (isAddressTakenVariable : V → Bool) {vc : ValueCompressor V} (hvc : vc.Ok)
    {ops : List (Op V)} (hops : ValidOps ops { VC := vc }) :
    KeepsFlow (history ops { VC := vc })
        ((runOps ops { VC := vc }).addDelayedEdges isAddressTakenVariable).strategy ↔
      FlowOk vc.size (IsTaken isAddressTakenVariable (runOps ops { VC := vc }))
        (history ops { VC := vc }) := by
  have hs := (Reaches.init hvc).runOps hops
  rw [List.append_nil] at hs
  exact hs.keepsFlow

/-- `store ptr %x, ptr %p; %y = load ptr, ptr %p`. -/
theorem keepsFlow_store_load :
    KeepsFlow (history [.getVariable 0, .getVariable 1, .getVariable 2, .addEdge 1 0 .storePOI,
        .addEdge 0 2 .load] ({ VC := {} } : PAGBuildData ℕ))
      ((runOps [.getVariable 0, .getVariable 1, .getVariable 2, .addEdge 1 0 .storePOI,
        .addEdge 0 2 .load] ({ VC := {} } : PAGBuildData ℕ)).addDelayedEdges fun _ => true).strategy := by
  have hplain : Plain 0 [.addEdge 0 2 .load, .addEdge 1 0 .storePOI] 0 := by
    refine ⟨le_rfl, fun c hc => ?_⟩
    rcases List.mem_pair.1 hc with rfl | rfl <;> decide
  refine (keepsFlow_iff (fun _ => true) nofun (by decide)).2
    ⟨fun x v e he hmem hnp => ?_, fun v _ hv => ?_⟩
  · rcases List.mem_pair.1 hmem with heq | heq <;> cases heq
    · cases he
    · exact absurd hplain hnp
  · obtain ⟨w, hw | hw⟩ := hv <;> rcases List.mem_pair.1 hw with heq | heq <;> cases heq

/-- The store of `store ptr %p, ptr %p; %y = load ptr, ptr %p` is lost; and a delayed node `%v` that is a
phi of its reaching stores keeps `store ptr %x, ptr %v; %y = load ptr, ptr %v` to itself. -/
theorem not_keepsFlow :
    (ValidOps [.getVariable 0, .getVariable 1, .addEdge 0 0 .storePOI, .addEdge 0 1 .load]
        ({ VC := {} } : PAGBuildData ℕ) ∧
      ¬KeepsFlow (history [.getVariable 0, .getVariable 1, .addEdge 0 0 .storePOI, .addEdge 0 1 .load]
          ({ VC := {} } : PAGBuildData ℕ))
        ((runOps [.getVariable 0, .getVariable 1, .addEdge 0 0 .storePOI, .addEdge 0 1 .load]
          ({ VC := {} } : PAGBuildData ℕ)).addDelayedEdges fun _ => true).strategy) ∧
    (ValidOps [.getVariable 0, .getVariable 1, .getVariable 2, .getVariable 3, .onAddEdge 1 0,
        .addEdge 2 0 .storePOI, .addEdge 0 3 .load] ({ VC := {} } : PAGBuildData ℕ) ∧
      ¬KeepsFlow (history [.getVariable 0, .getVariable 1, .getVariable 2, .getVariable 3,
          .onAddEdge 1 0, .addEdge 2 0 .storePOI, .addEdge 0 3 .load] ({ VC := {} } : PAGBuildData ℕ))
        ((runOps [.getVariable 0, .getVariable 1, .getVariable 2, .getVariable 3, .onAddEdge 1 0,
          .addEdge 2 0 .storePOI, .addEdge 0 3 .load]
          ({ VC := {} } : PAGBuildData ℕ)).addDelayedEdges fun _ => true).strategy) := by
  refine ⟨⟨by decide, fun hk => ?_⟩, ⟨by decide, fun hk => ?_⟩⟩
  · rcases hk.flow 0 0 1 .storePOI rfl (Or.inl (by decide)) (Or.inl (by decide)) with
      hg | ⟨⟨e, -, hg⟩, -⟩
    · exact absurd (List.mem_singleton.1 hg) (by decide)
    · cases List.mem_singleton.1 hg
  · have hg := hk.stores 0 ⟨1, 0, .assign, Or.inr ⟨rfl, by decide⟩, Or.inl ⟨rfl, rfl⟩⟩ 2 .storePOI rfl
      (Or.inl (by decide))
    revert hg
    decide +kernel

end Runs

end Phasar.LLVMPAGBuilder
