import Phasar.IfdsIde.LinearConstantAnalysis

/-!
# Edge functions of the linear constant analysis

An edge function folds a chain of binary operations, each with one constant operand, into the value
it is given. Folding two different constants may give one result, while their join is bottom and
stays bottom, so joins are not kept by every function.

* `EdgeFunction`, `EdgeFunction.computeTarget`, `EdgeFunction.compose`;
* `Built.computeTarget_composeWith`: composing computes one function after the other;
* `computeTarget_cases`: every function is constant or keeps bottom;
* `join_computeTarget_iff`: which joins are kept.
-/

namespace Phasar.LinearConstantAnalysis

open LatticeDomain

/-- What a binary operation asks of its LLVM values: the sign-extended value of a `ConstantInt`, and
whether a value is the zero value. -/
structure Operands (V : Type*) where
  constantInt : V → Option Int64
  isLLVMZeroValue : V → Bool

/-- `BinOp`, without its identifier. -/
structure BinOp (V : Type*) where
  op : Opcode
  lop : V
  rop : V
  currNode : V
  deriving DecidableEq

variable {V : Type*} [DecidableEq V]

/-- `BinOp::computeTarget`; `none` where it runs into a fatal error or an undefined operation. -/
def BinOp.computeTarget (I : Operands V) (b : BinOp V) (source : LatticeDomain Int64) :
    Option (LatticeDomain Int64) :=
  match I.isLLVMZeroValue b.currNode, I.constantInt b.lop, I.constantInt b.rop with
  | true, some lic, some ric => executeBinOperation b.op (value lic) (value ric)
  | _, lic, ric =>
    if source = bottom then some source
    else if b.lop = b.currNode ∧ ric.isSome then
      ric.bind fun ric => executeBinOperation b.op source (value ric)
    else if b.rop = b.currNode then
      lic.bind fun lic => executeBinOperation b.op (value lic) source
    else none

/-- The edge functions of the analysis. `allTop` is what a constant composes to where its value
becomes top. -/
inductive EdgeFunction (V : Type*)
  | edgeIdentity
  | allTop
  | allBottom
  | genConstant (value : Int64)
  | binOp (op : BinOp V)
  | lcaEdgeFunctionComposer (first second : EdgeFunction V)
  deriving DecidableEq

namespace EdgeFunction

def computeTarget (I : Operands V) : EdgeFunction V → LatticeDomain Int64 →
    Option (LatticeDomain Int64)
  | edgeIdentity, source => some source
  | allTop, _ => some top
  | allBottom, _ => some bottom
  | genConstant v, _ => some (value v)
  | binOp b, source => b.computeTarget I source
  | lcaEdgeFunctionComposer first second, source =>
    (first.computeTarget I source).bind (second.computeTarget I)

def isConstant : EdgeFunction V → Bool
  | allTop | allBottom | genConstant _ => true
  | _ => false

def defaultComposeOrNull (this second : EdgeFunction V) : Option (EdgeFunction V) :=
  if second = edgeIdentity then some this
  else if second.isConstant then some second
  else none

/-- `EdgeFunction::compose`; `none` where computing or unwrapping a constant fails. -/
def compose (I : Operands V) : EdgeFunction V → EdgeFunction V → Option (EdgeFunction V)
  | edgeIdentity, second => some second
  | allTop, second => some (if second.isConstant then second else allTop)
  | allBottom, second =>
    if second.isConstant then some second
    else (second.computeTarget I bottom).bind fun
      | bottom => some allBottom
      | value v => some (genConstant v)
      | top => none
  | genConstant v, second =>
    match defaultComposeOrNull (genConstant v) second with
    | some known => some known
    | none => (second.computeTarget I (value v)).map fun
      | bottom => allBottom
      | value v => genConstant v
      | top => allTop
  | binOp b, second =>
    match defaultComposeOrNull (binOp b) second with
    | some known => some known
    | none => some (lcaEdgeFunctionComposer (binOp b) second)
  | lcaEdgeFunctionComposer first second', second =>
    match defaultComposeOrNull (lcaEdgeFunctionComposer first second') second with
    | some known => some known
    | none => (second'.compose I second).bind (first.compose I)

/-- The edge functions built from those of the analysis, `AllTop` apart, by composers and
`composeWith`. -/
inductive Built (I : Operands V) : EdgeFunction V → Prop
  | edgeIdentity : Built I edgeIdentity
  | allBottom : Built I allBottom
  | genConstant (v : Int64) : Built I (genConstant v)
  | binOp (b : BinOp V) : Built I (binOp b)
  | lcaEdgeFunctionComposer {f g : EdgeFunction V} (hf : Built I f) (hg : Built I g) :
      Built I (lcaEdgeFunctionComposer f g)
  | composeWith {f g h : EdgeFunction V} (hf : Built I f) (hg : Built I g)
      (hh : f.compose I g = some h) : Built I h

/-- Whether `AllTop` is one of the functions that `f` runs. -/
def hasAllTop : EdgeFunction V → Bool
  | allTop => true
  | lcaEdgeFunctionComposer first second => first.hasAllTop || second.hasAllTop
  | _ => false

/-- Whether `f` folds binary operations. -/
def foldsBinOp : EdgeFunction V → Bool
  | binOp _ => true
  | lcaEdgeFunctionComposer first second => first.foldsBinOp || second.foldsBinOp
  | _ => false

/-- Two integers that `f` maps to one, while it keeps bottom. -/
def Merges (I : Operands V) (f : EdgeFunction V) (x y : LatticeDomain Int64) : Prop :=
  ∃ a b c, x = value a ∧ y = value b ∧ a ≠ b ∧ f.computeTarget I x = some (value c) ∧
    f.computeTarget I y = some (value c) ∧ f.computeTarget I bottom = some bottom

end EdgeFunction

open EdgeFunction

variable {I : Operands V}

/-! ### Folding -/

/-- Folding gives an integer or bottom. -/
theorem executeBinOperation_ne_top {op : Opcode} {l r v : LatticeDomain Int64}
    (h : executeBinOperation op l r = some v) : v ≠ top := by
  have checked : ∀ o : Option Int64, valueOrBottom o ≠ top := by
    rintro (_ | c) hc <;> cases hc
  have mapped : ∀ o : Option Int64, o.map value ≠ some top := by
    rintro (_ | c) hc <;> cases hc
  rintro rfl
  cases l <;> cases r <;> simp only [executeBinOperation, reduceCtorEq, Option.some.injEq] at h
  cases op <;> simp only [Option.some.injEq, reduceCtorEq, checked] at h
  all_goals split_ifs at h <;> simp_all

/-- A binary operation of two constants ignores its source. The others keep bottom. -/
theorem BinOp.computeTarget_cases (b : BinOp V) :
    (∃ r, ∀ source, b.computeTarget I source = r) ∨ b.computeTarget I bottom = some bottom := by
  unfold BinOp.computeTarget
  split
  · exact Or.inl ⟨_, fun _ => rfl⟩
  · exact Or.inr (if_pos rfl)

theorem BinOp.computeTarget_ne_top {b : BinOp V} {source v : LatticeDomain Int64}
    (hs : source ≠ top) (h : b.computeTarget I source = some v) : v ≠ top := by
  unfold BinOp.computeTarget at h
  split at h
  · exact executeBinOperation_ne_top h
  · split_ifs at h with hb hl hr
    · exact Option.some.inj h ▸ hs
    · obtain ⟨ric, -, h⟩ := Option.bind_eq_some_iff.1 h
      exact executeBinOperation_ne_top h
    · obtain ⟨lic, -, h⟩ := Option.bind_eq_some_iff.1 h
      exact executeBinOperation_ne_top h

/-! ### Composing edge functions -/

theorem computeTarget_ne_top {f : EdgeFunction V} (hf : f.hasAllTop = false) :
    ∀ {x v : LatticeDomain Int64}, x ≠ top → f.computeTarget I x = some v → v ≠ top := by
  induction f with
  | edgeIdentity => exact fun hx h => Option.some.inj h ▸ hx
  | allTop => cases hf
  | allBottom => rintro x v - h rfl; cases h
  | genConstant c => rintro x v - h rfl; cases h
  | binOp b => exact fun hx h => b.computeTarget_ne_top hx h
  | lcaEdgeFunctionComposer first second ihf ihs =>
    intro x v hx h
    rw [hasAllTop, Bool.or_eq_false_iff] at hf
    obtain ⟨y, hy, hv⟩ := Option.bind_eq_some_iff.1 h
    exact ihs hf.2 (ihf hf.1 hx hy) hv

theorem computeTarget_of_isConstant {f : EdgeFunction V} (hf : f.isConstant = true)
    (x y : LatticeDomain Int64) : f.computeTarget I x = f.computeTarget I y := by
  cases f with
  | allTop | allBottom | genConstant v => rfl
  | edgeIdentity | binOp b | lcaEdgeFunctionComposer first second => cases hf

/-- The shortcuts of `defaultComposeOrNull`. -/
theorem defaultComposeOrNull_eq_some {f g h : EdgeFunction V}
    (hh : defaultComposeOrNull f g = some h) :
    g = edgeIdentity ∧ h = f ∨ g.isConstant = true ∧ h = g := by
  unfold defaultComposeOrNull at hh
  split_ifs at hh with hg hc
  · exact Or.inl ⟨hg, (Option.some.inj hh).symm⟩
  · exact Or.inr ⟨hc, (Option.some.inj hh).symm⟩

/-- A shortcut computes what the composer does, where the first function has a value. -/
theorem computeTarget_of_defaultComposeOrNull {f g h : EdgeFunction V}
    (hh : defaultComposeOrNull f g = some h) {x y : LatticeDomain Int64}
    (hy : f.computeTarget I x = some y) : h.computeTarget I x = g.computeTarget I y := by
  rcases defaultComposeOrNull_eq_some hh with ⟨rfl, rfl⟩ | ⟨hc, rfl⟩
  · exact hy
  · exact computeTarget_of_isConstant hc x y

theorem hasAllTop_of_defaultComposeOrNull {f g h : EdgeFunction V}
    (hh : defaultComposeOrNull f g = some h) (hf : f.hasAllTop = false)
    (hg : g.hasAllTop = false) : h.hasAllTop = false := by
  rcases defaultComposeOrNull_eq_some hh with ⟨rfl, rfl⟩ | ⟨-, rfl⟩
  · exact hf
  · exact hg

/-- Without `AllTop`, composing never yields it. -/
theorem hasAllTop_compose : ∀ {f g h : EdgeFunction V}, f.compose I g = some h →
    f.hasAllTop = false → g.hasAllTop = false → h.hasAllTop = false
  | edgeIdentity, g, h, hh, _, hg => Option.some.inj hh ▸ hg
  | allTop, _, _, _, hf, _ => by cases hf
  | allBottom, g, h, hh, _, hg => by
    unfold compose at hh
    split_ifs at hh with hc
    · exact Option.some.inj hh ▸ hg
    · obtain ⟨c, -, hh⟩ := Option.bind_eq_some_iff.1 hh
      cases c <;> cases hh <;> rfl
  | genConstant v, g, h, hh, hf, hg => by
    unfold compose at hh
    split at hh
    next known hk =>
      cases hh
      exact hasAllTop_of_defaultComposeOrNull hk hf hg
    next =>
      obtain ⟨c, hc, rfl⟩ := Option.map_eq_some_iff.1 hh
      have hne := computeTarget_ne_top hg (by simp) hc
      cases c with
      | top => exact absurd rfl hne
      | bottom => rfl
      | value c => rfl
  | binOp b, g, h, hh, hf, hg => by
    unfold compose at hh
    split at hh
    next known hk =>
      cases hh
      exact hasAllTop_of_defaultComposeOrNull hk hf hg
    next =>
      cases hh
      exact Bool.or_eq_false_iff.2 ⟨rfl, hg⟩
  | lcaEdgeFunctionComposer first second, g, h, hh, hf, hg => by
    unfold compose at hh
    split at hh
    next known hk =>
      cases hh
      exact hasAllTop_of_defaultComposeOrNull hk hf hg
    next =>
      obtain ⟨tail, ht, hh⟩ := Option.bind_eq_some_iff.1 hh
      have hfs := Bool.or_eq_false_iff.1 hf
      exact hasAllTop_compose hh hfs.1 (hasAllTop_compose ht hfs.2 hg)

theorem EdgeFunction.Built.hasAllTop {f : EdgeFunction V} (hf : Built I f) : f.hasAllTop = false := by
  induction hf with
  | edgeIdentity | allBottom | genConstant v | binOp b => rfl
  | lcaEdgeFunctionComposer _ _ ihf ihg => exact Bool.or_eq_false_iff.2 ⟨ihf, ihg⟩
  | composeWith _ _ hh ihf ihg => exact hasAllTop_compose hh ihf ihg

/-- Where `f` has a value, the composed function computes `g` after `f`. -/
theorem computeTarget_of_compose : ∀ {f g h : EdgeFunction V}, f.compose I g = some h →
    f.hasAllTop = false → ∀ {x y : LatticeDomain Int64}, f.computeTarget I x = some y →
      h.computeTarget I x = g.computeTarget I y
  | edgeIdentity, g, h, hh, _, x, y, hy => by
    cases hh
    cases hy
    rfl
  | allTop, _, _, _, hf, _, _, _ => by cases hf
  | allBottom, g, h, hh, _, x, y, hy => by
    cases hy
    unfold compose at hh
    split_ifs at hh with hc
    · exact Option.some.inj hh ▸ computeTarget_of_isConstant hc x bottom
    · obtain ⟨c, hg, hh⟩ := Option.bind_eq_some_iff.1 hh
      rw [hg]
      cases c <;> cases hh <;> rfl
  | genConstant v, g, h, hh, _, x, y, hy => by
    unfold compose at hh
    split at hh
    next known hk =>
      cases hh
      exact computeTarget_of_defaultComposeOrNull hk hy
    next =>
      cases hy
      obtain ⟨c, hg, rfl⟩ := Option.map_eq_some_iff.1 hh
      rw [hg]
      cases c <;> rfl
  | binOp b, g, h, hh, _, x, y, hy => by
    unfold compose at hh
    split at hh
    next known hk =>
      cases hh
      exact computeTarget_of_defaultComposeOrNull hk hy
    next =>
      cases hh
      exact (congrArg (·.bind (g.computeTarget I)) hy).trans (Option.bind_some _ _)
  | lcaEdgeFunctionComposer first second, g, h, hh, hf, x, y, hy => by
    unfold compose at hh
    split at hh
    next known hk =>
      cases hh
      exact computeTarget_of_defaultComposeOrNull hk hy
    next =>
      obtain ⟨tail, ht, hh⟩ := Option.bind_eq_some_iff.1 hh
      obtain ⟨z, hz, hy⟩ := Option.bind_eq_some_iff.1 hy
      have hfs := Bool.or_eq_false_iff.1 hf
      rw [computeTarget_of_compose hh hfs.1 hz, computeTarget_of_compose ht hfs.2 hy]

theorem EdgeFunction.Built.computeTarget_composeWith {f g h : EdgeFunction V} (hf : Built I f)
    (hh : f.compose I g = some h) {x y : LatticeDomain Int64} (hy : f.computeTarget I x = some y) :
    h.computeTarget I x = g.computeTarget I y :=
  computeTarget_of_compose hh hf.hasAllTop hy

/-! ### Joins -/

/-- A constant function, as far as it has values. -/
def ConstantWhereDefined (I : Operands V) (f : EdgeFunction V) : Prop :=
  ∃ c, ∀ {x v}, f.computeTarget I x = some v → v = c

/-- Bottom is kept, and no integer becomes top. -/
structure KeepsBottom (I : Operands V) (f : EdgeFunction V) : Prop where
  atBottom : ∀ {v}, f.computeTarget I bottom = some v → v = bottom
  atValue : ∀ {a v}, f.computeTarget I (value a) = some v → v ≠ top

theorem computeTarget_cases (f : EdgeFunction V) : ConstantWhereDefined I f ∨ KeepsBottom I f := by
  induction f with
  | edgeIdentity =>
    refine Or.inr ⟨fun h => (Option.some.inj h).symm, ?_⟩
    rintro a v h rfl
    cases h
  | allTop => exact Or.inl ⟨top, fun h => (Option.some.inj h).symm⟩
  | allBottom => exact Or.inl ⟨bottom, fun h => (Option.some.inj h).symm⟩
  | genConstant c => exact Or.inl ⟨value c, fun h => (Option.some.inj h).symm⟩
  | binOp b =>
    rcases b.computeTarget_cases (I := I) with ⟨r, hr⟩ | hb
    · cases r with
      | none => exact Or.inl ⟨bottom, fun {x v} h => by cases (hr x).symm.trans h⟩
      | some c => exact Or.inl ⟨c, fun {x v} h => (Option.some.inj ((hr x).symm.trans h)).symm⟩
    · exact Or.inr ⟨fun h => (Option.some.inj (hb.symm.trans h)).symm,
        fun h => b.computeTarget_ne_top (by simp) h⟩
  | lcaEdgeFunctionComposer first second ihf ihs =>
    rcases ihs with ⟨c, hc⟩ | hs
    · refine Or.inl ⟨c, fun {x v} h => ?_⟩
      obtain ⟨y, -, hv⟩ := Option.bind_eq_some_iff.1 h
      exact hc hv
    rcases ihf with ⟨c, hc⟩ | hf
    · -- a constant goes through the second function
      cases hsc : second.computeTarget I c with
      | none =>
        refine Or.inl ⟨c, fun {x v} h => ?_⟩
        obtain ⟨y, hy, hv⟩ := Option.bind_eq_some_iff.1 h
        rw [hc hy, hsc] at hv
        cases hv
      | some w =>
        refine Or.inl ⟨w, fun {x v} h => ?_⟩
        obtain ⟨y, hy, hv⟩ := Option.bind_eq_some_iff.1 h
        rw [hc hy, hsc] at hv
        exact (Option.some.inj hv).symm
    · refine Or.inr ⟨fun {v} h => ?_, fun {a v} h => ?_⟩
      · obtain ⟨y, hy, hv⟩ := Option.bind_eq_some_iff.1 h
        rw [hf.atBottom hy] at hv
        exact hs.atBottom hv
      · obtain ⟨y, hy, hv⟩ := Option.bind_eq_some_iff.1 h
        cases y with
        | top => exact absurd rfl (hf.atValue hy)
        | bottom => simp [hs.atBottom hv]
        | value c => exact hs.atValue hv

/-- A function that has a value has one at bottom. -/
theorem exists_computeTarget_bottom {f : EdgeFunction V} :
    ∀ {x v : LatticeDomain Int64}, f.computeTarget I x = some v →
      ∃ w, f.computeTarget I bottom = some w := by
  induction f with
  | edgeIdentity => exact fun _ => ⟨_, rfl⟩
  | allTop => exact fun _ => ⟨_, rfl⟩
  | allBottom => exact fun _ => ⟨_, rfl⟩
  | genConstant c => exact fun _ => ⟨_, rfl⟩
  | binOp b =>
    intro x v h
    rcases b.computeTarget_cases (I := I) with ⟨r, hr⟩ | hb
    · exact ⟨v, (hr bottom).trans ((hr x).symm.trans h)⟩
    · exact ⟨_, hb⟩
  | lcaEdgeFunctionComposer first second ihf ihs =>
    intro x v h
    obtain ⟨y, hy, hv⟩ := Option.bind_eq_some_iff.1 h
    obtain ⟨w, hw⟩ := ihf hy
    have hsecond : ∃ u, second.computeTarget I w = some u := by
      rcases computeTarget_cases (I := I) first with ⟨c, hc⟩ | hf
      · exact ⟨v, by rw [hc hw, ← hc hy, hv]⟩
      · rw [hf.atBottom hw]
        exact ihs hv
    obtain ⟨u, hu⟩ := hsecond
    exact ⟨u, Option.bind_eq_some_iff.2 ⟨w, hw, hu⟩⟩

/-- Without binary operations, a function is the identity or constant. -/
theorem identity_or_constant {f : EdgeFunction V} (hf : f.foldsBinOp = false) :
    (∀ x, f.computeTarget I x = some x) ∨ ∃ c, ∀ x, f.computeTarget I x = some c := by
  induction f with
  | edgeIdentity => exact Or.inl fun _ => rfl
  | allTop => exact Or.inr ⟨top, fun _ => rfl⟩
  | allBottom => exact Or.inr ⟨bottom, fun _ => rfl⟩
  | genConstant c => exact Or.inr ⟨value c, fun _ => rfl⟩
  | binOp b => cases hf
  | lcaEdgeFunctionComposer first second ihf ihs =>
    rw [foldsBinOp, Bool.or_eq_false_iff] at hf
    simp only [computeTarget]
    rcases ihs hf.2 with hs | ⟨c, hc⟩
    · rcases ihf hf.1 with hf | ⟨c, hc⟩
      · exact Or.inl fun x => by rw [hf, Option.bind_some, hs]
      · exact Or.inr ⟨c, fun x => by rw [hc, Option.bind_some, hs]⟩
    · refine Or.inr ⟨c, fun x => ?_⟩
      rcases ihf hf.1 with hf | ⟨d, hd⟩
      · rw [hf, Option.bind_some, hc]
      · rw [hd, Option.bind_some, hc]

theorem join_eq (x y : LatticeDomain Int64) : join x y = x ∨ join x y = y ∨ join x y = bottom := by
  unfold LatticeDomain.join
  split_ifs <;> simp

theorem join_self (x : LatticeDomain Int64) : join x x = x := JoinLatticeTraits.join_idem x

theorem join_bottom (x : LatticeDomain Int64) : join x bottom = bottom :=
  JoinLatticeTraits.join_bottom x

theorem bottom_join (x : LatticeDomain Int64) : join bottom x = bottom :=
  JoinLatticeTraits.bottom_join x

theorem join_value {a b : Int64} (h : a ≠ b) : join (value a) (value b) = bottom := by
  simp [LatticeDomain.join, h]

variable {f : EdgeFunction V} {x y x' y' : LatticeDomain Int64}

/-- A function that is constant where it has values keeps joins. -/
theorem ConstantWhereDefined.join_computeTarget (hf : ConstantWhereDefined I f)
    (hx : f.computeTarget I x = some x') (hy : f.computeTarget I y = some y') :
    f.computeTarget I (join x y) = some (join x' y') ∧ ¬ f.Merges I x y := by
  obtain ⟨c, hc⟩ := hf
  obtain ⟨w, hw⟩ := exists_computeTarget_bottom hx
  obtain rfl := hc hx
  obtain rfl := hc hy
  obtain rfl := hc hw
  constructor
  · rw [join_self]
    rcases join_eq x y with h | h | h <;> rw [h] <;> assumption
  · rintro ⟨a, b, d, -, -, -, hd, -, hb⟩
    cases (Option.some.inj (hb.symm.trans hw)).trans (hc hd).symm

/-- A function that keeps bottom keeps the joins of values other than top, unless it merges them. -/
theorem KeepsBottom.join_computeTarget (hf : KeepsBottom I f) (hx : f.computeTarget I x = some x')
    (hy : f.computeTarget I y = some y') (hxt : x ≠ top) (hyt : y ≠ top) :
    (f.computeTarget I (join x y) = some (join x' y') ↔ ¬ f.Merges I x y) ∧
      (f.Merges I x y → f.computeTarget I (join x y) = some bottom) := by
  obtain ⟨w, hw⟩ := exists_computeTarget_bottom hx
  obtain rfl := hf.atBottom hw
  by_cases hxb : x = bottom
  · subst hxb
    obtain rfl := hf.atBottom hx
    rw [bottom_join, bottom_join]
    refine ⟨iff_of_true hw ?_, fun _ => hw⟩
    rintro ⟨a, b, c, h, -⟩
    cases h
  by_cases hyb : y = bottom
  · subst hyb
    obtain rfl := hf.atBottom hy
    rw [join_bottom, join_bottom]
    refine ⟨iff_of_true hw ?_, fun _ => hw⟩
    rintro ⟨a, b, c, -, h, -⟩
    cases h
  obtain ⟨a, rfl⟩ : ∃ a, x = value a := by cases x <;> simp_all
  obtain ⟨b, rfl⟩ : ∃ b, y = value b := by cases y <;> simp_all
  by_cases hab : a = b
  · subst hab
    obtain rfl := Option.some.inj (hx.symm.trans hy)
    have hn : ¬ f.Merges I (value a) (value a) := by
      rintro ⟨a', b', c, ha, hb, hne, -⟩
      cases ha
      cases hb
      exact hne rfl
    rw [join_self, join_self]
    exact ⟨iff_of_true hx hn, fun h => absurd h hn⟩
  rw [join_value hab, hw]
  refine ⟨?_, fun _ => rfl⟩
  rw [Option.some.injEq, iff_not_comm]
  -- two integers are merged exactly if their results are one integer
  constructor
  · rintro ⟨a', b', c, ha, hb, -, hxc, hyc, -⟩
    rw [Option.some.inj (hx.symm.trans hxc), Option.some.inj (hy.symm.trans hyc), join_self]
    rintro ⟨⟩
  · intro hne
    have hxt' := hf.atValue hx
    have hyt' := hf.atValue hy
    cases x' with
    | top => exact absurd rfl hxt'
    | bottom => exact absurd (bottom_join y').symm hne
    | value c =>
      cases y' with
      | top => exact absurd rfl hyt'
      | bottom => exact absurd (join_bottom _).symm hne
      | value d =>
        obtain rfl : c = d := by
          by_contra hcd
          exact hne (join_value hcd).symm
        exact ⟨a, b, c, rfl, rfl, hab, hx, hy, hw⟩

/-- An edge function keeps the join of two values, unless they are different integers that it maps
to one integer while it keeps bottom. Folding top is left out. -/
theorem join_computeTarget_iff (hx : f.computeTarget I x = some x')
    (hy : f.computeTarget I y = some y') (htop : f.foldsBinOp = true → x ≠ top ∧ y ≠ top) :
    (f.computeTarget I (join x y) = some (join x' y') ↔ ¬ f.Merges I x y) ∧
      (f.Merges I x y → f.computeTarget I (join x y) = some bottom) := by
  have hconst : ConstantWhereDefined I f →
      (f.computeTarget I (join x y) = some (join x' y') ↔ ¬ f.Merges I x y) ∧
        (f.Merges I x y → f.computeTarget I (join x y) = some bottom) := fun hc =>
    have h := hc.join_computeTarget hx hy
    ⟨iff_of_true h.1 h.2, fun hm => absurd hm h.2⟩
  cases hb : f.foldsBinOp with
  | true =>
    rcases computeTarget_cases (I := I) f with hc | hk
    · exact hconst hc
    · exact hk.join_computeTarget hx hy (htop hb).1 (htop hb).2
  | false =>
    rcases identity_or_constant (I := I) hb with hid | ⟨c, hc⟩
    · have hn : ¬ f.Merges I x y := by
        rintro ⟨a, b, c, rfl, rfl, hne, ha, hb, -⟩
        cases (hid _).symm.trans ha
        cases (hid _).symm.trans hb
        exact hne rfl
      rw [hid] at hx hy ⊢
      cases hx
      cases hy
      exact ⟨iff_of_true rfl hn, fun h => absurd h hn⟩
    · exact hconst ⟨c, fun h => (Option.some.inj ((hc _).symm.trans h)).symm⟩

/-! ### Halving -/

/-- A variable and the constant two. -/
def variableOrTwo : Operands Bool where
  constantInt two := if two then some 2 else none
  isLLVMZeroValue _ := false

/-- `x / 2`. -/
def halve : EdgeFunction Bool := .binOp ⟨.sDiv, false, true, false⟩

theorem join_computeTarget_iff_halve :
    (halve.computeTarget variableOrTwo (join (value 2) (value 3)) = some (join (value 1) (value 1)) ↔
        ¬ halve.Merges variableOrTwo (value 2) (value 3)) ∧
      (halve.Merges variableOrTwo (value 2) (value 3) →
        halve.computeTarget variableOrTwo (join (value 2) (value 3)) = some bottom) :=
  join_computeTarget_iff (by decide) (by decide) fun _ => ⟨by simp, by simp⟩

/-- Both 2 / 2 and 3 / 2 fold to 1, but two and three join to bottom. -/
theorem join_not_kept : ¬ ∀ f : EdgeFunction Bool, f.Built variableOrTwo →
    ∀ x y x' y' : LatticeDomain Int64, f.computeTarget variableOrTwo x = some x' →
      f.computeTarget variableOrTwo y = some y' →
        f.computeTarget variableOrTwo (join x y) = some (join x' y') := by
  intro h
  have hfold := h halve (.binOp _) (value 2) (value 3) (value 1) (value 1) (by decide) (by decide)
  exact absurd hfold (by decide)

end Phasar.LinearConstantAnalysis
