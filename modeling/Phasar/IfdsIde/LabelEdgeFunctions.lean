import Phasar.Lib.JoinMap

/-!
# Edge functions on label sets

What the edge functions of an analysis with label sets share: the built-in classes, which come before its
own ones when functions are composed and joined, and the laws that make the results independent of the
order of joins. The identity is neutral in joins, although it adds nothing.

* `LabelEdgeFunction`, `LabelDomain`, `LabelProblem`: the classes, and what an analysis says of its own
  ones;
* `extend`, `combine`; `Built`: the functions built from identity and basic functions;
* `JoinLaws`, `Distributes`; `DistributesUpToIdentity`: when composition distributes over joins;
* `Refines`: own functions that add or replace labels, from which the laws follow.
-/

namespace Phasar

/-- The built-in classes of edge functions, and the classes `C` of an analysis. -/
inductive LabelEdgeFunction (C V : Type*)
  | edgeIdentity
  | allTop
  | allBottom
  | constantEdgeFunction (Value : V)
  | own (EF : C)

namespace LabelEdgeFunction

variable {C V : Type*}

def isEdgeIdentity : LabelEdgeFunction C V → Bool
  | edgeIdentity => true
  | _ => false

def isAllTop : LabelEdgeFunction C V → Bool
  | allTop => true
  | _ => false

def isAllBottom : LabelEdgeFunction C V → Bool
  | allBottom => true
  | _ => false

/-- `operator==`: of one class, with equal members. -/
def eq (eqOwn : C → C → Bool) (eqValue : V → V → Bool) : LabelEdgeFunction C V → LabelEdgeFunction C V → Bool
  | edgeIdentity, edgeIdentity => true
  | allTop, allTop => true
  | allBottom, allBottom => true
  | constantEdgeFunction Lhs, constantEdgeFunction Rhs => eqValue Lhs Rhs
  | own Lhs, own Rhs => eqOwn Lhs Rhs
  | _, _ => false

end LabelEdgeFunction

open LabelEdgeFunction

/-- The values of an analysis, and its own classes of edge functions. -/
structure LabelDomain (C V L α : Type*) where
  top : L
  bottom : L
  eq : L → L → Bool
  ofValue : V → L
  unwrap : L → Option V
  /-- The labels of a value. -/
  labels : L → α
  computeOwn : C → L → L
  isConstantOwn : C → Bool

namespace LabelDomain

variable {C V L α : Type*} (P : LabelDomain C V L α)

def computeTarget : LabelEdgeFunction C V → L → L
  | edgeIdentity, Source => Source
  | allTop, _ => P.top
  | allBottom, _ => P.bottom
  | constantEdgeFunction Value, _ => P.ofValue Value
  | own EF, Source => P.computeOwn EF Source

def isConstant : LabelEdgeFunction C V → Bool
  | edgeIdentity => false
  | own EF => P.isConstantOwn EF
  | _ => true

end LabelDomain

/-- The functions an analysis starts from, and what it does where no built-in class decides a composition or a
join. `none` is a fatal error. -/
structure LabelProblem (C V L α : Type*) extends LabelDomain C V L α where
  isBasic : C → Prop
  /-- The comparison in joins. -/
  isSame : LabelEdgeFunction C V → LabelEdgeFunction C V → Bool
  extendOwn : LabelEdgeFunction C V → LabelEdgeFunction C V → Option (LabelEdgeFunction C V)
  combineOwn : LabelEdgeFunction C V → LabelEdgeFunction C V → Option (LabelEdgeFunction C V)

namespace LabelProblem

variable {C V L α : Type*} (P : LabelProblem C V L α)

/-- `AllBottom::compose`. -/
def composeAllBottom (SecondFunction : LabelEdgeFunction C V) : Option (LabelEdgeFunction C V) :=
  if P.isConstant SecondFunction then some SecondFunction
  else
    let ConstVal := P.computeTarget SecondFunction P.bottom
    if P.eq ConstVal P.bottom then some allBottom
    else (P.unwrap ConstVal).map constantEdgeFunction

/-- `defaultComposeOrNull`, and `Otherwise` where it is null. -/
def defaultComposeOr (This SecondFunction : LabelEdgeFunction C V)
    (Otherwise : Option (LabelEdgeFunction C V)) : Option (LabelEdgeFunction C V) :=
  if SecondFunction.isEdgeIdentity then some This
  else if P.isConstant SecondFunction || This.isEdgeIdentity then some SecondFunction
  else if This.isAllTop then some This
  else if This.isAllBottom then P.composeAllBottom SecondFunction
  else Otherwise

/-- `defaultJoinOrNull` and `iiaDefaultJoinOrNull`, and `Otherwise` where they are null. -/
def defaultJoinOr (This OtherFunction : LabelEdgeFunction C V)
    (Otherwise : Option (LabelEdgeFunction C V)) : Option (LabelEdgeFunction C V) :=
  if OtherFunction.isAllBottom || This.isAllTop then some OtherFunction
  else if OtherFunction.isAllTop || P.isSame OtherFunction This || This.isAllBottom then some This
  else if OtherFunction.isEdgeIdentity then some allBottom
  else Otherwise

def extend (FirstFunction SecondFunction : LabelEdgeFunction C V) : Option (LabelEdgeFunction C V) :=
  P.defaultComposeOr FirstFunction SecondFunction (P.extendOwn FirstFunction SecondFunction)

def combine (FirstFunction OtherFunction : LabelEdgeFunction C V) : Option (LabelEdgeFunction C V) :=
  -- joins with the identity are underapproximated
  if FirstFunction.isEdgeIdentity then some OtherFunction
  else if OtherFunction.isEdgeIdentity && !FirstFunction.isAllTop then some FirstFunction
  else P.defaultJoinOr FirstFunction OtherFunction (P.combineOwn FirstFunction OtherFunction)

/-- Built from the identity and basic functions. -/
inductive Built : LabelEdgeFunction C V → Prop
  | edgeIdentity : Built edgeIdentity
  | basic {EF : C} : P.isBasic EF → Built (own EF)
  | extend {f g k : LabelEdgeFunction C V} : Built f → Built g → P.extend f g = some k → Built k
  | combine {f g k : LabelEdgeFunction C V} : Built f → Built g → P.combine f g = some k → Built k

/-! ### The laws -/

/-- Both are there, and equal as functions on label sets. -/
def SameFunction (f g : Option (LabelEdgeFunction C V)) : Prop := ∃ f', f = some f' ∧ ∃ g', g = some g' ∧
  ∀ x, P.labels (P.computeTarget f' x) = P.labels (P.computeTarget g' x)

/-- The laws of `combine` and of `extend` for themselves. -/
structure JoinLaws : Prop where
  combine_comm : ∀ f g, P.Built f → P.Built g → P.SameFunction (P.combine f g) (P.combine g f)
  combine_assoc : ∀ f g h, P.Built f → P.Built g → P.Built h →
    P.SameFunction ((P.combine f g).bind fun fg => P.combine fg h)
      ((P.combine g h).bind fun gh => P.combine f gh)
  combine_idem : ∀ f, P.Built f → P.SameFunction (P.combine f f) (some f)
  extend_assoc : ∀ f g h, P.Built f → P.Built g → P.Built h →
    P.SameFunction ((P.extend f g).bind fun fg => P.extend fg h)
      ((P.extend g h).bind fun gh => P.extend f gh)
  computeTarget_extend : ∀ f g, P.Built f → P.Built g → ∃ k, P.extend f g = some k ∧
    ∀ x, P.labels (P.computeTarget k x) = P.labels (P.computeTarget g (P.computeTarget f x))

/-- `extend(combine(f, g), h) = combine(extend(f, h), extend(g, h))`. -/
def CombineExtend (f g h : LabelEdgeFunction C V) : Prop :=
  P.SameFunction ((P.combine f g).bind fun fg => P.extend fg h)
    ((P.extend f h).bind fun fh => (P.extend g h).bind fun gh => P.combine fh gh)

/-- `extend(h, combine(f, g)) = combine(extend(h, f), extend(h, g))`. -/
def ExtendCombine (f g h : LabelEdgeFunction C V) : Prop :=
  P.SameFunction ((P.combine f g).bind fun fg => P.extend h fg)
    ((P.extend h f).bind fun hf => (P.extend h g).bind fun hg => P.combine hf hg)

structure Distributes : Prop where
  combine_extend : ∀ f g h, P.Built f → P.Built g → P.Built h → P.CombineExtend f g h
  extend_combine : ∀ f g h, P.Built f → P.Built g → P.Built h → P.ExtendCombine f g h

/-- One of the two is the identity, and the other one is the constant function `k`. -/
def MixesIdentity (f g k : LabelEdgeFunction C V) : Prop := P.isConstant k = true ∧
  (f = edgeIdentity ∧ g = k ∨ f = k ∧ g = edgeIdentity)

/-- Composition distributes over joins, but where the identity is joined with a constant function. -/
structure DistributesUpToIdentity [LE α] : Prop where
  combine_extend : ∀ f g h, P.Built f → P.Built g → P.Built h → (P.CombineExtend f g h ↔
    ∀ k, P.MixesIdentity f g k → h = edgeIdentity ∨ P.isConstant h = true)
  extend_combine : ∀ f g h, P.Built f → P.Built g → P.Built h → (P.ExtendCombine f g h ↔
    ∀ k, P.MixesIdentity f g k → h = edgeIdentity ∨ P.isConstant h = true ∧
      ∀ x, P.labels (P.computeTarget h x) ≤ P.labels (P.computeTarget k x))

/-! ### Functions that add or replace -/

variable {P}

/-- The own functions that `toMap` is defined on add a set of labels, or replace by one. -/
structure Refines [SemilatticeSup α] (P : LabelProblem C V L α) (toMap : C → Option (JoinMap α)) : Prop where
  basic : ∀ {EF}, P.isBasic EF → ∃ a, toMap EF = some a
  ne_ident : ∀ {EF a}, toMap EF = some a → a ≠ .ident
  computeOwn : ∀ {EF a} x, toMap EF = some a → P.labels (P.computeOwn EF x) = a.apply (P.labels x)
  isConstantOwn : ∀ {EF a}, toMap EF = some a → (P.isConstantOwn EF = true ↔ ∃ c, a = .const c)
  isSame : ∀ {EF EF'}, P.isSame (own EF) (own EF') = true → toMap EF = toMap EF'
  extendOwn : ∀ {EF EF' a b}, toMap EF = some a → toMap EF' = some (.add b) →
    ∃ K, P.extendOwn (own EF) (own EF') = some (own K) ∧ toMap K = some (a.comp (.add b))
  combineOwn : ∀ {EF EF' a b}, toMap EF = some a → toMap EF' = some b →
    ∃ K, P.combineOwn (own EF) (own EF') = some (own K) ∧ toMap K = some (a.join b)
  surjective : Function.Surjective P.labels
  not_isTop : ∀ {EF c}, toMap EF = some (.add c) ∨ toMap EF = some (.const c) → ¬IsTop c

namespace Refines

variable [SemilatticeSup α] {toMap : C → Option (JoinMap α)} {f g k : LabelEdgeFunction C V} {a b : JoinMap α}

variable (toMap) in
def toJoinMap : LabelEdgeFunction C V → Option (JoinMap α)
  | edgeIdentity => some .ident
  | own EF => toMap EF
  | _ => none

omit [SemilatticeSup α] in
/-- The functions with a map are the identity and own functions. -/
theorem cases_toJoinMap (hf : toJoinMap toMap f = some a) :
    f = edgeIdentity ∧ a = .ident ∨ ∃ EF, f = own EF ∧ toMap EF = some a := by
  cases f with
  | edgeIdentity => exact .inl ⟨rfl, (Option.some.inj hf).symm⟩
  | own EF => exact .inr ⟨EF, rfl, hf⟩
  | allTop => cases hf
  | allBottom => cases hf
  | constantEdgeFunction => cases hf

variable (h : Refines P toMap)
include h

theorem computeTarget (hf : toJoinMap toMap f = some a) (x : L) :
    P.labels (P.computeTarget f x) = a.apply (P.labels x) := by
  rcases cases_toJoinMap hf with ⟨rfl, rfl⟩ | ⟨EF, rfl, hEF⟩
  · rfl
  · exact h.computeOwn x hEF

theorem isConstant_iff (hf : toJoinMap toMap f = some a) : P.isConstant f = true ↔ ∃ c, a = .const c := by
  rcases cases_toJoinMap hf with ⟨rfl, rfl⟩ | ⟨EF, rfl, hEF⟩
  · simp [LabelDomain.isConstant]
  · exact h.isConstantOwn hEF

theorem eq_edgeIdentity_iff (hf : toJoinMap toMap f = some a) : f = edgeIdentity ↔ a = .ident := by
  rcases cases_toJoinMap hf with ⟨rfl, rfl⟩ | ⟨EF, rfl, hEF⟩
  · exact iff_of_true rfl rfl
  · exact iff_of_false (fun heq => nomatch heq) (h.ne_ident hEF)

theorem extend (hf : toJoinMap toMap f = some a) (hg : toJoinMap toMap g = some b) :
    ∃ k, P.extend f g = some k ∧ toJoinMap toMap k = some (a.comp b) := by
  rcases cases_toJoinMap hg with ⟨rfl, rfl⟩ | ⟨EF', rfl, hEF'⟩
  · exact ⟨f, rfl, hf⟩
  · by_cases hconst : P.isConstantOwn EF' = true
    · obtain ⟨c, rfl⟩ := (h.isConstantOwn hEF').1 hconst
      exact ⟨own EF', by simp [LabelProblem.extend, defaultComposeOr, isEdgeIdentity, LabelDomain.isConstant, hconst], hEF'⟩
    · have hadd : ∃ c, b = .add c := by
        cases b with
        | ident => exact absurd rfl (h.ne_ident hEF')
        | add c => exact ⟨c, rfl⟩
        | const c => exact absurd ((h.isConstantOwn hEF').2 ⟨c, rfl⟩) hconst
      obtain ⟨c, rfl⟩ := hadd
      rcases cases_toJoinMap hf with ⟨rfl, rfl⟩ | ⟨EF, rfl, hEF⟩
      · exact ⟨own EF', by simp [LabelProblem.extend, defaultComposeOr, isEdgeIdentity], hEF'⟩
      · obtain ⟨K, hK, hmap⟩ := h.extendOwn hEF hEF'
        refine ⟨own K, ?_, hmap⟩
        simp [LabelProblem.extend, defaultComposeOr, isEdgeIdentity, isAllTop, isAllBottom,
          LabelDomain.isConstant, hconst, hK]

theorem combine (hf : toJoinMap toMap f = some a) (hg : toJoinMap toMap g = some b) :
    ∃ k, P.combine f g = some k ∧ toJoinMap toMap k = some (a.join b) := by
  rcases cases_toJoinMap hf with ⟨rfl, rfl⟩ | ⟨EF, rfl, hEF⟩
  · exact ⟨g, rfl, by rw [hg, JoinMap.join]⟩
  · rcases cases_toJoinMap hg with ⟨rfl, rfl⟩ | ⟨EF', rfl, hEF'⟩
    · exact ⟨own EF, rfl, by rw [JoinMap.join_comm]; exact hEF⟩
    · by_cases hsame : P.isSame (own EF') (own EF) = true
      · obtain rfl : b = a := Option.some.inj (hEF'.symm.trans ((h.isSame hsame).trans hEF))
        refine ⟨own EF, ?_, by rw [JoinMap.join_idem]; exact hEF⟩
        simp [LabelProblem.combine, defaultJoinOr, isEdgeIdentity, isAllTop, isAllBottom, hsame]
      · obtain ⟨K, hK, hmap⟩ := h.combineOwn hEF hEF'
        refine ⟨own K, ?_, hmap⟩
        simp [LabelProblem.combine, defaultJoinOr, isEdgeIdentity, isAllTop, isAllBottom, hsame, hK]

theorem exists_of_built (hf : P.Built f) : ∃ a, toJoinMap toMap f = some a := by
  induction hf with
  | edgeIdentity => exact ⟨_, rfl⟩
  | basic hEF => exact h.basic hEF
  | extend _ _ heq ihf ihg =>
    obtain ⟨⟨a, hf⟩, b, hg⟩ := And.intro ihf ihg
    obtain ⟨k, hk, hmap⟩ := h.extend hf hg
    rw [heq] at hk
    exact ⟨_, by rwa [Option.some.inj hk]⟩
  | combine _ _ heq ihf ihg =>
    obtain ⟨⟨a, hf⟩, b, hg⟩ := And.intro ihf ihg
    obtain ⟨k, hk, hmap⟩ := h.combine hf hg
    rw [heq] at hk
    exact ⟨_, by rwa [Option.some.inj hk]⟩

/-- Functions on label sets are the same just when their maps are. -/
theorem sameFunction_iff (hf : toJoinMap toMap f = some a) (hg : toJoinMap toMap g = some b) :
    P.SameFunction (some f) (some g) ↔ ∀ x, a.apply x = b.apply x := by
  rw [h.surjective.forall (p := fun x => a.apply x = b.apply x)]
  constructor
  · rintro ⟨f', hf', g', hg', hfg⟩ x
    obtain ⟨rfl, rfl⟩ := And.intro (Option.some.inj hf') (Option.some.inj hg')
    rw [← h.computeTarget hf, ← h.computeTarget hg, hfg]
  · intro hab
    refine ⟨f, rfl, g, rfl, fun x => ?_⟩
    rw [h.computeTarget hf, h.computeTarget hg, hab]

theorem joinLaws : P.JoinLaws where
  combine_comm f g hf hg := by
    obtain ⟨a, ha⟩ := h.exists_of_built hf
    obtain ⟨b, hb⟩ := h.exists_of_built hg
    obtain ⟨k, hk, hmap⟩ := h.combine ha hb
    obtain ⟨k', hk', hmap'⟩ := h.combine hb ha
    rw [hk, hk', h.sameFunction_iff hmap hmap', JoinMap.join_comm]
    exact fun _ => rfl
  combine_assoc f g e hf hg he := by
    obtain ⟨a, ha⟩ := h.exists_of_built hf
    obtain ⟨b, hb⟩ := h.exists_of_built hg
    obtain ⟨c, hc⟩ := h.exists_of_built he
    obtain ⟨fg, hfg, hab⟩ := h.combine ha hb
    obtain ⟨ge, hge, hbc⟩ := h.combine hb hc
    obtain ⟨k, hk, hmap⟩ := h.combine hab hc
    obtain ⟨k', hk', hmap'⟩ := h.combine ha hbc
    rw [hfg, hge, Option.bind_some, Option.bind_some, hk, hk', h.sameFunction_iff hmap hmap',
      JoinMap.join_assoc]
    exact fun _ => rfl
  combine_idem f hf := by
    obtain ⟨a, ha⟩ := h.exists_of_built hf
    obtain ⟨k, hk, hmap⟩ := h.combine ha ha
    rw [hk, h.sameFunction_iff hmap ha, JoinMap.join_idem]
    exact fun _ => rfl
  extend_assoc f g e hf hg he := by
    obtain ⟨a, ha⟩ := h.exists_of_built hf
    obtain ⟨b, hb⟩ := h.exists_of_built hg
    obtain ⟨c, hc⟩ := h.exists_of_built he
    obtain ⟨fg, hfg, hab⟩ := h.extend ha hb
    obtain ⟨ge, hge, hbc⟩ := h.extend hb hc
    obtain ⟨k, hk, hmap⟩ := h.extend hab hc
    obtain ⟨k', hk', hmap'⟩ := h.extend ha hbc
    rw [hfg, hge, Option.bind_some, Option.bind_some, hk, hk', h.sameFunction_iff hmap hmap',
      JoinMap.comp_assoc]
    exact fun _ => rfl
  computeTarget_extend f g hf hg := by
    obtain ⟨a, ha⟩ := h.exists_of_built hf
    obtain ⟨b, hb⟩ := h.exists_of_built hg
    obtain ⟨k, hk, hmap⟩ := h.extend ha hb
    refine ⟨k, hk, fun x => ?_⟩
    rw [h.computeTarget hmap, JoinMap.comp_apply, h.computeTarget hb, h.computeTarget ha]

/-- The maps mix identity and constant as the functions do. -/
theorem mixes_iff (hf : toJoinMap toMap f = some a) (hg : toJoinMap toMap g = some b) {c : α} :
    JoinMap.Mixes a b c ↔ ∃ k, P.MixesIdentity f g k ∧ toJoinMap toMap k = some (.const c) := by
  constructor
  · rintro (⟨rfl, rfl⟩ | ⟨rfl, rfl⟩)
    · exact ⟨g, ⟨(h.isConstant_iff hg).2 ⟨c, rfl⟩, .inl ⟨(h.eq_edgeIdentity_iff hf).2 rfl, rfl⟩⟩, hg⟩
    · exact ⟨f, ⟨(h.isConstant_iff hf).2 ⟨c, rfl⟩, .inr ⟨rfl, (h.eq_edgeIdentity_iff hg).2 rfl⟩⟩, hf⟩
  · rintro ⟨k, ⟨-, ⟨rfl, rfl⟩ | ⟨rfl, rfl⟩⟩, hk⟩
    · exact .inl ⟨(Option.some.inj hf).symm, Option.some.inj (hg.symm.trans hk)⟩
    · exact .inr ⟨Option.some.inj (hf.symm.trans hk), (Option.some.inj hg).symm⟩

theorem exists_const (hf : toJoinMap toMap f = some a) (hg : toJoinMap toMap g = some b)
    (hmix : P.MixesIdentity f g k) : ∃ c, toJoinMap toMap k = some (.const c) := by
  obtain ⟨hconst, ⟨-, rfl⟩ | ⟨rfl, -⟩⟩ := hmix
  · obtain ⟨c, rfl⟩ := (h.isConstant_iff hg).1 hconst
    exact ⟨c, hg⟩
  · obtain ⟨c, rfl⟩ := (h.isConstant_iff hf).1 hconst
    exact ⟨c, hf⟩

theorem not_isTop_const {c : α} (hk : toJoinMap toMap k = some (.const c)) : ¬IsTop c := by
  rcases cases_toJoinMap hk with ⟨-, hident⟩ | ⟨EF, -, hEF⟩
  · cases hident
  · exact h.not_isTop (.inr hEF)

theorem combineExtend_iff {e : LabelEdgeFunction C V} {c : JoinMap α} (ha : toJoinMap toMap f = some a)
    (hb : toJoinMap toMap g = some b) (hc : toJoinMap toMap e = some c) : P.CombineExtend f g e ↔
      ∀ k, P.MixesIdentity f g k → e = edgeIdentity ∨ P.isConstant e = true := by
  obtain ⟨fg, hfg, hab⟩ := h.combine ha hb
  obtain ⟨fe, hfe, hac⟩ := h.extend ha hc
  obtain ⟨ge, hge, hbc⟩ := h.extend hb hc
  obtain ⟨k, hk, hmap⟩ := h.extend hab hc
  obtain ⟨k', hk', hmap'⟩ := h.combine hac hbc
  rw [CombineExtend, hfg, hfe, hge, Option.bind_some, Option.bind_some, Option.bind_some, hk, hk',
    h.sameFunction_iff hmap hmap', JoinMap.comp_join_iff, h.eq_edgeIdentity_iff hc, h.isConstant_iff hc]
  constructor
  · intro hall k hmix
    obtain ⟨d, hd⟩ := h.exists_const ha hb hmix
    rcases hall d ((h.mixes_iff ha hb).2 ⟨k, hmix, hd⟩) with hident | hconst | ⟨x, rfl, htop⟩
    · exact .inl hident
    · exact .inr hconst
    · -- `extend` of the two would replace by all labels
      obtain ⟨r, -, hr⟩ := h.extend hd hc
      exact absurd htop (h.not_isTop_const hr)
  · intro hall d hd
    obtain ⟨k, hmix, -⟩ := (h.mixes_iff ha hb).1 hd
    exact (hall k hmix).imp_right .inl

theorem extendCombine_iff {e : LabelEdgeFunction C V} {c : JoinMap α} (ha : toJoinMap toMap f = some a)
    (hb : toJoinMap toMap g = some b) (hc : toJoinMap toMap e = some c) : P.ExtendCombine f g e ↔
      ∀ k, P.MixesIdentity f g k → e = edgeIdentity ∨ P.isConstant e = true ∧
        ∀ x, P.labels (P.computeTarget e x) ≤ P.labels (P.computeTarget k x) := by
  obtain ⟨fg, hfg, hab⟩ := h.combine ha hb
  obtain ⟨ef, hef, hca⟩ := h.extend hc ha
  obtain ⟨eg, heg, hcb⟩ := h.extend hc hb
  obtain ⟨k, hk, hmap⟩ := h.extend hc hab
  obtain ⟨k', hk', hmap'⟩ := h.combine hca hcb
  rw [ExtendCombine, hfg, hef, heg, Option.bind_some, Option.bind_some, Option.bind_some, hk, hk',
    h.sameFunction_iff hmap hmap', JoinMap.join_comp_iff, h.eq_edgeIdentity_iff hc, h.isConstant_iff hc]
  constructor
  · intro hall k hmix
    obtain ⟨d, hd⟩ := h.exists_const ha hb hmix
    rcases hall d ((h.mixes_iff ha hb).2 ⟨k, hmix, hd⟩) with hident | ⟨x, rfl, hle⟩ | ⟨x, rfl, htop⟩
    · exact .inl hident
    · refine .inr ⟨⟨x, rfl⟩, fun y => ?_⟩
      rw [h.computeTarget hc, h.computeTarget hd]
      exact hle
    · exact absurd htop (h.not_isTop_const hd)
  · intro hall d hd
    obtain ⟨k, hmix, hkd⟩ := (h.mixes_iff ha hb).1 hd
    refine (hall k hmix).imp_right fun hconst => .inl ?_
    obtain ⟨⟨x, rfl⟩, hle⟩ := hconst
    obtain ⟨y, hy⟩ := h.surjective d
    have hyle := hle y
    rw [h.computeTarget hc, h.computeTarget hkd] at hyle
    exact ⟨x, rfl, hyle⟩

theorem distributesUpToIdentity : P.DistributesUpToIdentity where
  combine_extend f g e hf hg he := by
    obtain ⟨a, ha⟩ := h.exists_of_built hf
    obtain ⟨b, hb⟩ := h.exists_of_built hg
    obtain ⟨c, hc⟩ := h.exists_of_built he
    exact h.combineExtend_iff ha hb hc
  extend_combine f g e hf hg he := by
    obtain ⟨a, ha⟩ := h.exists_of_built hf
    obtain ⟨b, hb⟩ := h.exists_of_built hg
    obtain ⟨c, hc⟩ := h.exists_of_built he
    exact h.extendCombine_iff ha hb hc

/-- Composition does not distribute where there are a replacing and an adding function. -/
theorem not_distributes (K A : C) {c d : α} (hK : P.isBasic K) (hA : P.isBasic A)
    (hconst : toMap K = some (.const c)) (hadd : toMap A = some (.add d)) : ¬P.Distributes := by
  intro hdist
  have hk : P.isConstant (own K) = true := (h.isConstantOwn hconst).2 ⟨c, rfl⟩
  have hcase := (h.combineExtend_iff (f := edgeIdentity) (g := own K) (e := own A) rfl hconst hadd).1
    (hdist.combine_extend _ _ _ .edgeIdentity (.basic hK) (.basic hA)) (own K) ⟨hk, .inl ⟨rfl, rfl⟩⟩
  rcases hcase with hident | hconstA
  · cases hident
  · obtain ⟨_, hadd'⟩ := (h.isConstantOwn hadd).1 hconstA
    cases hadd'

end Refines

end LabelProblem

end Phasar
