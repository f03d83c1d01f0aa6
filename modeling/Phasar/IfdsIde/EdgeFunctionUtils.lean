import Phasar.Domain.LatticeDomain

/-!
# The built-in edge functions

Identity, all-top, all-bottom, constants, joins of edge functions and the explicit composer, with
`composeWith` and `joinWith` as the classes implement them. An edge function is the tree of its
parts; where its nodes are allocated matters to the order of the operands of a join only, which is
left open.

Composition is the composite of the functions except where all-top meets a second function that
does not map top to top, or all-bottom one that maps bottom to a top which cannot be stored. Joining
always goes up.

* `EdgeFunction`, `computeTarget`, `compose`, `joinWith`;
* `composeLaw_iff`, `joinWith_above`.
-/

namespace Phasar

/-- The classes `EdgeIdentity`, `AllTop`, `AllBottom`, `ConstantEdgeFunction`, `JoinEdgeFunction`
and `EdgeFunctionComposer`. The last two carry the size limit of the class they belong to: a
composer is the `DefaultJoinEdgeFunctionComposer` of `JoinEdgeFunction<L, N>`. -/
inductive EdgeFunction (L V : Type*)
  | edgeIdentity
  | allTop
  | allBottom
  | constantEdgeFunction (value : V)
  | joinEdgeFunction (N : ℕ) (seed : L) (otherEF : List (EdgeFunction L V))
  | edgeFunctionComposer (N : ℕ) (first second : EdgeFunction L V)

namespace EdgeFunction

open JoinLatticeTraits NonTopBotValue

section Equality

variable {L V : Type*} [DecidableEq L] [DecidableEq V]

mutual

/-- `operator==`: the same class with equal members. -/
def beq : EdgeFunction L V → EdgeFunction L V → Bool
  | edgeIdentity, edgeIdentity => true
  | allTop, allTop => true
  | allBottom, allBottom => true
  | constantEdgeFunction v, constantEdgeFunction w => decide (v = w)
  | joinEdgeFunction N s fs, joinEdgeFunction M t gs =>
    decide (N = M) && decide (s = t) && beqList fs gs
  | edgeFunctionComposer N f g, edgeFunctionComposer M f' g' =>
    decide (N = M) && beq f f' && beq g g'
  | _, _ => false

/-- `llvm::equal` of two vectors of edge functions. -/
def beqList : List (EdgeFunction L V) → List (EdgeFunction L V) → Bool
  | [], [] => true
  | f :: fs, g :: gs => beq f g && beqList fs gs
  | _, _ => false

end

mutual

theorem beq_iff : ∀ f g : EdgeFunction L V, beq f g = true ↔ f = g
  | edgeIdentity, g => by cases g <;> simp [beq]
  | allTop, g => by cases g <;> simp [beq]
  | allBottom, g => by cases g <;> simp [beq]
  | constantEdgeFunction v, g => by cases g <;> simp [beq]
  | joinEdgeFunction N s fs, g => by
    cases g <;> simp [beq, beqList_iff fs, and_assoc]
  | edgeFunctionComposer N f f', g => by
    cases g <;> simp [beq, beq_iff f, beq_iff f', and_assoc]

theorem beqList_iff : ∀ fs gs : List (EdgeFunction L V), beqList fs gs = true ↔ fs = gs
  | [], gs => by cases gs <;> simp [beqList]
  | f :: fs, gs => by cases gs <;> simp [beqList, beq_iff f, beqList_iff fs]

end

instance : DecidableEq (EdgeFunction L V) := fun f g => decidable_of_iff _ (beq_iff f g)

end Equality

variable {L V : Type*} [JoinLatticeTraits L] [NonTopBotValue L V] [DecidableEq L]

mutual

def computeTarget : EdgeFunction L V → L → L
  | edgeIdentity, source => source
  | allTop, _ => top
  | allBottom, _ => bottom
  | constantEdgeFunction value, _ => ofValue value
  | joinEdgeFunction _ seed otherEF, source => computeJoin otherEF seed source
  | edgeFunctionComposer _ first second, source => second.computeTarget (first.computeTarget source)

/-- The loop of `JoinEdgeFunction::computeTarget`, which stops at bottom. -/
def computeJoin : List (EdgeFunction L V) → L → L → L
  | [], val, _ => val
  | ef :: rest, val, source =>
    let joined := join val (ef.computeTarget source)
    if joined = bottom then joined else computeJoin rest joined source

end

@[simp] theorem computeTarget_edgeIdentity (x : L) :
    (edgeIdentity : EdgeFunction L V).computeTarget x = x := rfl

@[simp] theorem computeTarget_allTop (x : L) :
    (allTop : EdgeFunction L V).computeTarget x = top := rfl

@[simp] theorem computeTarget_allBottom (x : L) :
    (allBottom : EdgeFunction L V).computeTarget x = bottom := rfl

@[simp] theorem computeTarget_constantEdgeFunction (v : V) (x : L) :
    (constantEdgeFunction v).computeTarget x = ofValue v := rfl

@[simp] theorem computeTarget_joinEdgeFunction (N : ℕ) (seed : L) (fs : List (EdgeFunction L V))
    (x : L) : (joinEdgeFunction N seed fs).computeTarget x = computeJoin fs seed x := rfl

@[simp] theorem computeTarget_edgeFunctionComposer (N : ℕ) (f g : EdgeFunction L V) (x : L) :
    (edgeFunctionComposer N f g).computeTarget x = g.computeTarget (f.computeTarget x) := rfl

@[simp] theorem computeJoin_nil (val x : L) :
    computeJoin ([] : List (EdgeFunction L V)) val x = val := rfl

theorem computeJoin_cons (f : EdgeFunction L V) (fs : List (EdgeFunction L V)) (val x : L) :
    computeJoin (f :: fs) val x =
      if join val (f.computeTarget x) = bottom then join val (f.computeTarget x)
      else computeJoin fs (join val (f.computeTarget x)) x := rfl

/-- `isConstant`: the classes that declare themselves constant. -/
def isConstant : EdgeFunction L V → Bool
  | allTop | allBottom | constantEdgeFunction _ => true
  | _ => false

theorem computeTarget_of_isConstant {f : EdgeFunction L V} (h : f.isConstant = true) (x y : L) :
    f.computeTarget x = f.computeTarget y := by
  cases f <;> simp_all [isConstant]

/-! ### Joining -/

section Join

variable [DecidableEq V]

/-- `std::set_union` of two vectors under `operator<`, which takes equal functions as equivalent and
orders all others by their addresses: the `i`-th function of the left vector comes before the `j`-th
of the right one when `before i j`. -/
def setUnion (before : ℕ → ℕ → Bool) (i j : ℕ) :
    List (EdgeFunction L V) → List (EdgeFunction L V) → List (EdgeFunction L V)
  | [], rhs => rhs
  | f :: lhs, [] => f :: lhs
  | f :: lhs, g :: rhs =>
    if f = g then f :: setUnion before (i + 1) (j + 1) lhs rhs
    else if before i j then f :: setUnion before (i + 1) j lhs (g :: rhs)
    else g :: setUnion before i (j + 1) (f :: lhs) rhs
termination_by lhs rhs => lhs.length + rhs.length

/-- `GetEFArrayAndSeed`: what a join of the same class contains, or the function itself. -/
def arrayAndSeed (N : ℕ) : EdgeFunction L V → List (EdgeFunction L V) × L
  | joinEdgeFunction M seed otherEF =>
    if M = N then (otherEF, seed) else ([joinEdgeFunction M seed otherEF], top)
  | f => ([f], top)

/-- `JoinEdgeFunction::create`. -/
def create (N : ℕ) (before : ℕ → ℕ → Bool) (lhs rhs : EdgeFunction L V) : EdgeFunction L V :=
  let l := arrayAndSeed N lhs
  let r := arrayAndSeed N rhs
  let joinSeed := join l.2 r.2
  if joinSeed = bottom then allBottom
  else
    let joinVec := setUnion before 0 0 l.1 r.1
    if N < joinVec.length then allBottom else joinEdgeFunction N joinSeed joinVec

/-- `defaultJoinOrNull`. -/
def defaultJoinOrNull (N : ℕ) (before : ℕ → ℕ → Bool) (this other : EdgeFunction L V) :
    Option (EdgeFunction L V) :=
  if other = allBottom then some other
  else if other = allTop ∨ other = this then some this
  else if other = edgeIdentity then
    some (if 0 < N then create N before this other else allBottom)
  else none

/-- The join of two constants. -/
def joinConstant (soo : Bool) (value : V) (other : EdgeFunction L V) : Option (EdgeFunction L V) :=
  let otherVal := other.computeTarget bottom
  let joinedVal := join (ofValue value) otherVal
  if bottom = joinedVal then some allBottom
  else if soo = false ∧ joinedVal = otherVal then some other
  else if soo = false ∧ joinedVal = ofValue value then some (constantEdgeFunction value)
  else (unwrap joinedVal).map constantEdgeFunction

/-- How often a function can still ask the other operand to decide. -/
def deferrals : EdgeFunction L V → ℕ
  | edgeIdentity => 2
  | constantEdgeFunction _ => 1
  | _ => 0

omit [JoinLatticeTraits L] [NonTopBotValue L V] [DecidableEq L] [DecidableEq V] in
theorem deferrals_lt_two {f : EdgeFunction L V} (h : f ≠ edgeIdentity) : f.deferrals < 2 := by
  cases f <;> simp_all [deferrals]

omit [JoinLatticeTraits L] [NonTopBotValue L V] [DecidableEq L] [DecidableEq V] in
theorem deferrals_eq_zero {f : EdgeFunction L V} (h : f ≠ edgeIdentity)
    (hc : ¬f.isConstant = true) : f.deferrals = 0 := by
  cases f <;> simp_all [deferrals, isConstant]

/-- `EdgeFunction::join`; `none` when a value cannot be unwrapped. The identity and the constants ask
the other operand when they do not know it. -/
def joinWith (soo : Bool) (before : ℕ → ℕ → Bool) (this other : EdgeFunction L V) :
    Option (EdgeFunction L V) :=
  match this with
  | edgeIdentity =>
    if _hid : other = edgeIdentity then some edgeIdentity
    else if other = allTop then some edgeIdentity
    else if other = allBottom then some other
    else joinWith soo before other edgeIdentity
  | allTop => some other
  | allBottom => some allBottom
  | constantEdgeFunction value =>
    match defaultJoinOrNull 0 before (constantEdgeFunction value) other with
    | some known => some known
    | none =>
      if _hid : other = edgeIdentity then some allBottom
      else if _hc : ¬other.isConstant = true then
        joinWith soo before other (constantEdgeFunction value)
      else joinConstant soo value other
  | joinEdgeFunction N seed otherEF =>
    match defaultJoinOrNull N before (joinEdgeFunction N seed otherEF) other with
    | some known => some known
    | none => some (create N before (joinEdgeFunction N seed otherEF) other)
  | edgeFunctionComposer N first second =>
    if other = allBottom then some other
    else if other = allTop ∨ other = edgeFunctionComposer N first second then
      some (edgeFunctionComposer N first second)
    else some (create N before (edgeFunctionComposer N first second) other)
termination_by this.deferrals
decreasing_by
  · exact deferrals_lt_two _hid
  · rw [deferrals_eq_zero _hid _hc]
    exact Nat.zero_lt_one

end Join

/-! ### Composition -/

section Compose

variable [DecidableEq V]

/-- `defaultComposeOrNull`. -/
def defaultComposeOrNull (this second : EdgeFunction L V) : Option (EdgeFunction L V) :=
  if second = edgeIdentity then some this
  else if second.isConstant then some second
  else none

/-- `compose` of a constant with a function that neither is the identity nor declares itself
constant. Unless a constant fits into a pointer (`soo`), it is kept when its value does not
change. -/
def composeConstant (soo : Bool) (value : V) (second : EdgeFunction L V) :
    Option (EdgeFunction L V) :=
  let constVal := second.computeTarget (ofValue value)
  if soo = false ∧ constVal = ofValue value then some (constantEdgeFunction value)
  else if bottom = constVal then some allBottom
  else if top = constVal then some allTop
  else (unwrap constVal).map constantEdgeFunction

/-- `EdgeFunction::compose`; `none` when a value cannot be unwrapped. -/
def compose (soo : Bool) : EdgeFunction L V → EdgeFunction L V → Option (EdgeFunction L V)
  | edgeIdentity, second => some second
  -- unlike `allBottom`, without asking for the value of the second function
  | allTop, second => some (if second.isConstant then second else allTop)
  | allBottom, second =>
    if second.isConstant then some second
    else
      let constVal := second.computeTarget bottom
      if constVal = bottom then some allBottom else (unwrap constVal).map constantEdgeFunction
  | constantEdgeFunction value, second =>
    match defaultComposeOrNull (constantEdgeFunction value) second with
    | some known => some known
    | none => composeConstant soo value second
  | joinEdgeFunction N seed otherEF, second =>
    match defaultComposeOrNull (joinEdgeFunction N seed otherEF) second with
    | some known => some known
    | none => some (edgeFunctionComposer N (joinEdgeFunction N seed otherEF) second)
  | edgeFunctionComposer N first second', second =>
    match defaultComposeOrNull (edgeFunctionComposer N first second') second with
    | some known => some known
    | none => do
      let tail ← second'.compose soo second
      first.compose soo tail

/-- The edge functions that arise from the built-in ones by `JoinEdgeFunction::create`, composers,
`composeWith` and `joinWith`. -/
inductive Built (soo : Bool) : EdgeFunction L V → Prop
  | edgeIdentity : Built soo edgeIdentity
  | allTop : Built soo allTop
  | allBottom : Built soo allBottom
  | constantEdgeFunction (value : V) : Built soo (constantEdgeFunction value)
  | create (N : ℕ) (before : ℕ → ℕ → Bool) {f g : EdgeFunction L V} (hf : Built soo f)
      (hg : Built soo g) : Built soo (create N before f g)
  | edgeFunctionComposer (N : ℕ) {f g : EdgeFunction L V} (hf : Built soo f) (hg : Built soo g) :
      Built soo (edgeFunctionComposer N f g)
  | composeWith {f g h : EdgeFunction L V} (hf : Built soo f) (hg : Built soo g)
      (hh : f.compose soo g = some h) : Built soo h
  | joinWith (before : ℕ → ℕ → Bool) {f g h : EdgeFunction L V} (hf : Built soo f)
      (hg : Built soo g) (hh : f.joinWith soo before g = some h) : Built soo h

/-- A chain of composers one of whose functions declares itself constant. -/
def hasConstant : EdgeFunction L V → Bool
  | edgeFunctionComposer _ first second => first.hasConstant || second.hasConstant
  | f => f.isConstant

omit [DecidableEq V] in
theorem computeTarget_of_hasConstant : ∀ {f : EdgeFunction L V}, f.hasConstant = true →
    ∀ x y, f.computeTarget x = f.computeTarget y
  | edgeFunctionComposer _ first second, h, x, y => by
    rw [computeTarget_edgeFunctionComposer, computeTarget_edgeFunctionComposer]
    rcases Bool.or_eq_true_iff.1 h with h | h
    · rw [computeTarget_of_hasConstant h x y]
    · exact computeTarget_of_hasConstant h _ _
  | edgeIdentity, h, _, _ => by simp [hasConstant, isConstant] at h
  | allTop, _, _, _ => by simp
  | allBottom, _, _, _ => by simp
  | constantEdgeFunction _, _, _, _ => by simp
  | joinEdgeFunction _ _ _, h, _, _ => by simp [hasConstant, isConstant] at h

/-- `f` composes correctly with a function that evaluates as `γ`: where all-top is met, `γ` maps top
to top, and where all-bottom is met, `γ` does not map bottom to a top that cannot be stored. The
second function of a composer is met first; a constant in it hides the first one. -/
def ComposesWith : EdgeFunction L V → (L → L) → Prop
  | allTop, γ => γ top = top
  | allBottom, γ => γ bottom = top → (unwrap (top : L)).isSome ∨ (top : L) = bottom
  | edgeFunctionComposer _ first second, γ =>
    second.ComposesWith γ ∧
      (second.hasConstant = true ∨ first.ComposesWith fun x => γ (second.computeTarget x))
  | _, _ => True

/-- The law of composition for `f` followed by `g`. -/
def ComposeLaw (soo : Bool) (f g : EdgeFunction L V) : Prop :=
  ∃ h, f.compose soo g = some h ∧ ∀ x, h.computeTarget x = g.computeTarget (f.computeTarget x)

section

attribute [local simp] compose defaultComposeOrNull

theorem compose_of_isConstant {soo : Bool} (f : EdgeFunction L V) {g : EdgeFunction L V}
    (hg : g.isConstant = true) : f.compose soo g = some g := by
  have hne : g ≠ edgeIdentity := by rintro rfl; simp [isConstant] at hg
  cases f <;> simp [hg, hne]

theorem compose_edgeIdentity {soo : Bool} (f : EdgeFunction L V) :
    f.compose soo edgeIdentity = some f := by
  cases f <;> simp [isConstant]

end

omit [DecidableEq V] in
/-- Composing a constant evaluates the second function at the value. -/
theorem composeConstant_spec (soo : Bool) (v : V) (g : EdgeFunction L V) :
    ∃ h, composeConstant soo v g = some h ∧ h.isConstant = true ∧
      ∀ x, h.computeTarget x = g.computeTarget (ofValue v) := by
  simp only [composeConstant]
  split_ifs with hkeep hbot htop
  · exact ⟨_, rfl, rfl, fun x => by simp [hkeep.2]⟩
  · exact ⟨_, rfl, rfl, fun x => by simp [hbot]⟩
  · exact ⟨_, rfl, rfl, fun x => by simp [htop]⟩
  · obtain ⟨w, hw⟩ := Option.ne_none_iff_exists'.1 (unwrap_ne_none _ (Ne.symm htop) (Ne.symm hbot))
    refine ⟨constantEdgeFunction w, by simp [hw], rfl, fun x => ?_⟩
    rw [computeTarget_constantEdgeFunction, ofValue_unwrap _ _ hw]

/-- All-bottom composes correctly unless bottom is mapped to a top that cannot be stored. -/
theorem composeLaw_allBottom {soo : Bool} {g : EdgeFunction L V} (hg : g.isConstant = false) :
    ComposeLaw soo allBottom g ↔ (allBottom : EdgeFunction L V).ComposesWith g.computeTarget := by
  simp only [ComposeLaw, compose, hg, Bool.false_eq_true, if_false, computeTarget_allBottom,
    ComposesWith]
  split_ifs with hbot
  · simp only [Option.some.injEq, exists_eq_left', computeTarget_allBottom, hbot]
    exact iff_of_true (fun _ => trivial) fun h => Or.inr h.symm
  · constructor
    · rintro ⟨h, hh, -⟩ htop
      obtain ⟨w, hw, -⟩ := Option.map_eq_some_iff.1 hh
      exact Or.inl (by rw [← htop, hw]; rfl)
    · intro h
      have hne : unwrap (g.computeTarget bottom) ≠ none := by
        by_cases htop : g.computeTarget bottom = top
        · rcases h htop with h | h
          · rwa [htop, ← Option.isSome_iff_ne_none]
          · exact absurd (htop.trans h) hbot
        · exact unwrap_ne_none _ htop hbot
      obtain ⟨w, hw⟩ := Option.ne_none_iff_exists'.1 hne
      exact ⟨constantEdgeFunction w, by simp [hw], fun x => by simp [ofValue_unwrap _ _ hw]⟩

/-- Without a constant in the chain, composing keeps the functions apart: the composite is correct
and neither a constant nor the identity. -/
theorem compose_of_not_hasConstant (soo : Bool) : ∀ {f g : EdgeFunction L V},
    f.hasConstant = false → g.isConstant = false → g ≠ edgeIdentity →
    ∃ h, f.compose soo g = some h ∧ h.isConstant = false ∧ h ≠ edgeIdentity ∧
      ∀ x, h.computeTarget x = g.computeTarget (f.computeTarget x)
  | edgeIdentity, g, _, hg, hid => ⟨g, by simp [compose], hg, hid, by simp⟩
  | joinEdgeFunction N seed fs, g, _, hg, hid =>
    ⟨edgeFunctionComposer N (joinEdgeFunction N seed fs) g,
      by simp [compose, defaultComposeOrNull, hg, hid], rfl, by simp, by simp⟩
  | edgeFunctionComposer N first second, g, hf, hg, hid => by
    obtain ⟨hfirst, hsecond⟩ := Bool.or_eq_false_iff.1 hf
    obtain ⟨tail, htail, hc, hne, heval⟩ := compose_of_not_hasConstant soo hsecond hg hid
    obtain ⟨h, hh, hc', hne', heval'⟩ := compose_of_not_hasConstant soo hfirst hc hne
    refine ⟨h, ?_, hc', hne', fun x => by simp [heval', heval]⟩
    simp [compose, defaultComposeOrNull, hg, hid, htail, hh]
  | allTop, _, hf, _, _ => by simp [hasConstant, isConstant] at hf
  | allBottom, _, hf, _, _ => by simp [hasConstant, isConstant] at hf
  | constantEdgeFunction _, _, hf, _, _ => by simp [hasConstant, isConstant] at hf

omit [DecidableEq V] in
theorem composesWith_of_not_hasConstant : ∀ {f : EdgeFunction L V} {γ : L → L},
    f.hasConstant = false → f.ComposesWith γ
  | edgeIdentity, _, _ => trivial
  | joinEdgeFunction _ _ _, _, _ => trivial
  | constantEdgeFunction _, _, _ => trivial
  | edgeFunctionComposer _ _ _, _, hf =>
    have hf := Bool.or_eq_false_iff.1 hf
    ⟨composesWith_of_not_hasConstant hf.2, Or.inr (composesWith_of_not_hasConstant hf.1)⟩
  | allTop, _, hf => by simp [hasConstant, isConstant] at hf
  | allBottom, _, hf => by simp [hasConstant, isConstant] at hf

/-- With a constant in the chain, whatever composing returns declares itself constant. -/
theorem isConstant_of_compose {soo : Bool} : ∀ {f g h : EdgeFunction L V},
    f.hasConstant = true → g.isConstant = false → g ≠ edgeIdentity → f.compose soo g = some h →
    h.isConstant = true
  | allTop, _, _, _, hg, _, hh => by
    simp only [compose, hg, Bool.false_eq_true, if_false, Option.some.injEq] at hh
    rw [← hh]
    rfl
  | allBottom, _, _, _, hg, _, hh => by
    simp only [compose, hg, Bool.false_eq_true, if_false] at hh
    split_ifs at hh
    · rw [← Option.some.inj hh]
      rfl
    · obtain ⟨w, -, rfl⟩ := Option.map_eq_some_iff.1 hh
      rfl
  | constantEdgeFunction v, g, h, _, hg, hid, hh => by
    obtain ⟨h', hh', hc, -⟩ := composeConstant_spec soo v g
    simp only [compose, defaultComposeOrNull, hid, hg, Bool.false_eq_true, if_false, hh'] at hh
    rwa [← Option.some.inj hh]
  | edgeFunctionComposer N first second, g, h, hf, hg, hid, hh => by
    simp only [compose, defaultComposeOrNull, hid, hg, Bool.false_eq_true, if_false,
      Option.bind_eq_bind, Option.bind_eq_some_iff] at hh
    obtain ⟨tail, htail, hh⟩ := hh
    cases hsecond : second.hasConstant with
    | true =>
      have hc := isConstant_of_compose hsecond hg hid htail
      rw [compose_of_isConstant first hc] at hh
      rwa [← Option.some.inj hh]
    | false =>
      obtain ⟨tail', htail', hc, hne, -⟩ := compose_of_not_hasConstant soo hsecond hg hid
      obtain rfl : tail' = tail := Option.some.inj (htail'.symm.trans htail)
      have hfirst : first.hasConstant = true := by simpa [hasConstant, hsecond] using hf
      exact isConstant_of_compose hfirst hc hne hh
  | edgeIdentity, _, _, hf, _, _, _ => by simp [hasConstant, isConstant] at hf
  | joinEdgeFunction _ _ _, _, _, hf, _, _, _ => by simp [hasConstant, isConstant] at hf

/-- The law of composition with a second function that is neither the identity nor declared
constant. -/
theorem composeLaw_iff_composesWith (soo : Bool) : ∀ {f g : EdgeFunction L V},
    g.isConstant = false → g ≠ edgeIdentity →
    (ComposeLaw soo f g ↔ f.ComposesWith g.computeTarget)
  | edgeIdentity, g, _, _ => iff_of_true ⟨g, by simp [compose], by simp⟩ trivial
  | allTop, g, hg, _ => by
    simp only [ComposeLaw, compose, hg, Bool.false_eq_true, if_false, Option.some.injEq,
      exists_eq_left', computeTarget_allTop, ComposesWith]
    exact ⟨fun h => (h top).symm, fun h _ => h.symm⟩
  | allBottom, g, hg, _ => composeLaw_allBottom hg
  | constantEdgeFunction v, g, hg, hid => by
    obtain ⟨h, hh, -, heval⟩ := composeConstant_spec soo v g
    exact iff_of_true ⟨h, by simp [compose, defaultComposeOrNull, hg, hid, hh], by simpa⟩ trivial
  | joinEdgeFunction N seed fs, g, hg, hid => by
    obtain ⟨h, hh, -, -, heval⟩ := compose_of_not_hasConstant soo
      (f := joinEdgeFunction N seed fs) rfl hg hid
    exact iff_of_true ⟨h, hh, heval⟩ trivial
  | edgeFunctionComposer N first second, g, hg, hid => by
    have hcompose : (edgeFunctionComposer N first second).compose soo g =
        (second.compose soo g).bind (first.compose soo) := by
      simp [compose, defaultComposeOrNull, hg, hid]
    simp only [ComposeLaw, hcompose, computeTarget_edgeFunctionComposer, ComposesWith]
    cases hsecond : second.hasConstant with
    | true =>
      -- both sides are constant, so the first function cannot repair the second one's composite
      rw [← composeLaw_iff_composesWith soo hg hid]
      simp only [true_or, and_true, ComposeLaw, Option.bind_eq_some_iff]
      constructor
      · rintro ⟨h, ⟨tail, htail, hh⟩, heval⟩
        rw [compose_of_isConstant first (isConstant_of_compose hsecond hg hid htail)] at hh
        obtain rfl := Option.some.inj hh
        refine ⟨tail, htail, fun x => ?_⟩
        rw [heval x, computeTarget_of_hasConstant hsecond (first.computeTarget x) x]
      · rintro ⟨tail, htail, heval⟩
        refine ⟨tail, ⟨tail, htail, ?_⟩, fun x => ?_⟩
        · exact compose_of_isConstant first (isConstant_of_compose hsecond hg hid htail)
        · rw [heval x, computeTarget_of_hasConstant hsecond x (first.computeTarget x)]
    | false =>
      obtain ⟨tail, htail, hc, hne, heval⟩ := compose_of_not_hasConstant soo hsecond hg hid
      have hγ : tail.computeTarget = fun x => g.computeTarget (second.computeTarget x) :=
        funext heval
      have hfirst := composeLaw_iff_composesWith soo (f := first) hc hne
      rw [hγ] at hfirst
      simp only [htail, Option.bind_some, Bool.false_eq_true, false_or,
        composesWith_of_not_hasConstant hsecond, true_and]
      simpa only [ComposeLaw, hγ] using hfirst

/-- The exact condition for the law of composition. -/
theorem composeLaw_iff (soo : Bool) (f g : EdgeFunction L V) :
    ComposeLaw soo f g ↔
      g = edgeIdentity ∨ g.isConstant = true ∨ f.ComposesWith g.computeTarget := by
  by_cases hid : g = edgeIdentity
  · exact iff_of_true ⟨f, by rw [hid, compose_edgeIdentity], by simp [hid]⟩ (Or.inl hid)
  cases hg : g.isConstant with
  | true =>
    exact iff_of_true ⟨g, compose_of_isConstant f hg, fun x => computeTarget_of_isConstant hg _ _⟩
      (Or.inr (Or.inl rfl))
  | false => simpa [hid] using composeLaw_iff_composesWith soo hg hid

/-- All-top swallows a join of the identity with a constant, which maps top to the constant. -/
theorem composeLaw_fails :
    ¬∀ f g : EdgeFunction (LatticeDomain ℤ) ℤ, Built true f → Built true g →
      ∀ x, ∃ h, f.compose true g = some h ∧
        h.computeTarget x = g.computeTarget (f.computeTarget x) := by
  intro h
  have hbuilt : Built true (create 2 (fun _ _ => true) edgeIdentity
      (constantEdgeFunction 1) : EdgeFunction (LatticeDomain ℤ) ℤ) :=
    .create 2 _ .edgeIdentity (.constantEdgeFunction 1)
  have hg : (create 2 (fun _ _ => true) edgeIdentity (constantEdgeFunction 1) :
      EdgeFunction (LatticeDomain ℤ) ℤ) =
      joinEdgeFunction 2 top [edgeIdentity, constantEdgeFunction 1] := by
    simp [create, arrayAndSeed, setUnion, JoinLatticeTraits.top, JoinLatticeTraits.bottom]
  rw [hg] at hbuilt
  obtain ⟨h, hh, heval⟩ := h allTop _ .allTop hbuilt top
  obtain rfl : allTop = h := Option.some.inj hh
  simp [computeJoin_cons] at heval

end Compose

/-! ### Joining goes up -/

/-- `h` evaluates above `f` everywhere. -/
def Above (h f : EdgeFunction L V) : Prop :=
  ∀ x, join (h.computeTarget x) (f.computeTarget x) = h.computeTarget x

theorem Above.refl (f : EdgeFunction L V) : Above f f := fun _ => join_idem _

theorem above_allBottom (f : EdgeFunction L V) : Above allBottom f := fun x => by simp

theorem above_allTop (h : EdgeFunction L V) : Above h allTop := fun x => by simp

omit [DecidableEq L] in
/-- What lies above a join lies above both sides. -/
theorem of_join {r a b : L} (h : join r (join a b) = r) : join r a = r ∧ join r b = r := by
  constructor
  · rw [← h, join_assoc, join_comm _ a, ← join_assoc a, join_idem]
  · rw [← h, join_assoc, join_assoc, join_idem]

/-- A join of functions evaluates above its seed and its members, stopping at bottom or not. -/
theorem join_computeJoin (fs : List (EdgeFunction L V)) (val : L) (x : L) :
    join (computeJoin fs val x) val = computeJoin fs val x ∧
      ∀ f ∈ fs, join (computeJoin fs val x) (f.computeTarget x) = computeJoin fs val x := by
  induction fs generalizing val with
  | nil => simp
  | cons f fs ih =>
    rw [computeJoin_cons]
    split_ifs with hbot
    · simp [hbot]
    · obtain ⟨hseed, hrest⟩ := ih (join val (f.computeTarget x))
      refine ⟨(of_join hseed).1, fun g hg => ?_⟩
      rcases List.mem_cons.1 hg with rfl | hg
      · exact (of_join hseed).2
      · exact hrest g hg

/-- Whatever lies above the seed and all members lies above the join. -/
theorem join_computeJoin_of_forall {fs : List (EdgeFunction L V)} {val r x : L}
    (hval : join r val = r) (hfs : ∀ f ∈ fs, join r (f.computeTarget x) = r) :
    join r (computeJoin fs val x) = r := by
  induction fs generalizing val with
  | nil => simpa
  | cons f fs ih =>
    have hjoined : join r (join val (f.computeTarget x)) = r := by
      rw [← join_assoc, hval, hfs f List.mem_cons_self]
    rw [computeJoin_cons]
    split_ifs
    · exact hjoined
    · exact ih hjoined fun g hg => hfs g (List.mem_cons_of_mem f hg)

variable [DecidableEq V]

omit [JoinLatticeTraits L] [NonTopBotValue L V] in
/-- No operand of a set union is dropped. -/
theorem mem_setUnion {before : ℕ → ℕ → Bool} {i j : ℕ} {lhs rhs : List (EdgeFunction L V)}
    {f : EdgeFunction L V} : f ∈ setUnion before i j lhs rhs ↔ f ∈ lhs ∨ f ∈ rhs := by
  fun_induction setUnion before i j lhs rhs with
  | case1 => simp
  | case2 => simp
  | case3 i j f lhs rhs ih => grind
  | case4 i j f lhs g rhs hne hb ih => grind
  | case5 i j f lhs g rhs hne hb ih => grind

omit [DecidableEq V] in
theorem above_of_arrayAndSeed {N : ℕ} {h f : EdgeFunction L V}
    (hseed : ∀ x, join (h.computeTarget x) (arrayAndSeed N f).2 = h.computeTarget x)
    (harray : ∀ g ∈ (arrayAndSeed N f).1, Above h g) : Above h f := by
  cases f with
  | joinEdgeFunction M seed otherEF =>
    by_cases hM : M = N
    · simp only [arrayAndSeed, hM, if_true] at hseed harray
      intro x
      rw [computeTarget_joinEdgeFunction]
      exact join_computeJoin_of_forall (hseed x) fun g hg => harray g hg x
    · exact harray _ (by simp [arrayAndSeed, hM])
  | _ => exact harray _ (by simp [arrayAndSeed])

/-- `create` goes above both operands. -/
theorem create_above (N : ℕ) (before : ℕ → ℕ → Bool) (f g : EdgeFunction L V) :
    Above (create N before f g) f ∧ Above (create N before f g) g := by
  simp only [create]
  split_ifs with hbot hN
  · exact ⟨above_allBottom f, above_allBottom g⟩
  · exact ⟨above_allBottom f, above_allBottom g⟩
  · have hseed := fun x => join_computeJoin (setUnion before 0 0 (arrayAndSeed N f).1
      (arrayAndSeed N g).1) (join (arrayAndSeed N f).2 (arrayAndSeed N g).2) x
    refine ⟨above_of_arrayAndSeed (N := N) (fun x => ?_) fun f' hf' x => ?_,
      above_of_arrayAndSeed (N := N) (fun x => ?_) fun g' hg' x => ?_⟩ <;>
      rw [computeTarget_joinEdgeFunction]
    · exact (of_join (hseed x).1).1
    · exact (hseed x).2 f' (mem_setUnion.2 (Or.inl hf'))
    · exact (of_join (hseed x).1).2
    · exact (hseed x).2 g' (mem_setUnion.2 (Or.inr hg'))

/-- The result `h` of a join of `f` and `g` is there and goes above both. -/
def JoinsTo (h : Option (EdgeFunction L V)) (f g : EdgeFunction L V) : Prop :=
  ∃ h', h = some h' ∧ Above h' f ∧ Above h' g

omit [DecidableEq V] in
theorem JoinsTo.symm {h : Option (EdgeFunction L V)} {f g : EdgeFunction L V}
    (hj : JoinsTo h f g) : JoinsTo h g f := by
  obtain ⟨h', hh, hf, hg⟩ := hj
  exact ⟨h', hh, hg, hf⟩

theorem joinsTo_create (N : ℕ) (before : ℕ → ℕ → Bool) (f g : EdgeFunction L V) :
    JoinsTo (some (create N before f g)) f g :=
  ⟨_, rfl, create_above N before f g⟩

theorem defaultJoinOrNull_joinsTo {N : ℕ} {before : ℕ → ℕ → Bool} {f g h : EdgeFunction L V}
    (hd : defaultJoinOrNull N before f g = some h) : JoinsTo (some h) f g := by
  unfold defaultJoinOrNull at hd
  split_ifs at hd with hbot htop hid hN <;> obtain rfl := Option.some.inj hd
  · exact ⟨_, rfl, hbot ▸ above_allBottom f, .refl _⟩
  · refine ⟨_, rfl, .refl _, ?_⟩
    rcases htop with rfl | rfl
    · exact above_allTop f
    · exact .refl _
  · exact joinsTo_create N before f g
  · exact ⟨_, rfl, above_allBottom f, above_allBottom g⟩

omit [DecidableEq V] in
/-- Joined constants are never top unless top can be stored. -/
theorem joinConstant_joinsTo (soo : Bool) (v : V) {g : EdgeFunction L V}
    (hg : g.isConstant = true) :
    JoinsTo (joinConstant soo v g) (constantEdgeFunction v) g := by
  have hval : ∀ x, g.computeTarget x = g.computeTarget bottom :=
    fun x => computeTarget_of_isConstant hg x bottom
  simp only [joinConstant]
  split_ifs with hbot hother hthis
  · exact ⟨_, rfl, above_allBottom _, above_allBottom g⟩
  · refine ⟨g, rfl, fun x => ?_, .refl g⟩
    rw [hval x, computeTarget_constantEdgeFunction, join_comm, hother.2]
  · refine ⟨_, rfl, .refl _, fun x => ?_⟩
    rw [hval x, computeTarget_constantEdgeFunction, hthis.2]
  · have hne : unwrap (join (ofValue v) (g.computeTarget bottom)) ≠ none := by
      by_cases htop : join (ofValue v) (g.computeTarget bottom) = top
      · have hv : ofValue v = top := eq_top_of_join_eq_top htop
        rw [htop, ← hv, unwrap_ofValue]
        exact Option.some_ne_none v
      · exact unwrap_ne_none _ htop (Ne.symm hbot)
    obtain ⟨w, hw⟩ := Option.ne_none_iff_exists'.1 hne
    have hjoined : join (ofValue w) (join (ofValue v) (g.computeTarget bottom)) = ofValue w := by
      rw [← ofValue_unwrap _ _ hw, join_idem]
    refine ⟨constantEdgeFunction w, by simp [hw], fun x => ?_, fun x => ?_⟩
    · simpa using (of_join hjoined).1
    · simpa [hval x] using (of_join hjoined).2

theorem joinWith_joinsTo (soo : Bool) (before : ℕ → ℕ → Bool) (f g : EdgeFunction L V) :
    JoinsTo (f.joinWith soo before g) f g := by
  fun_induction joinWith soo before f g with
  | case1 => exact ⟨_, rfl, .refl _, .refl _⟩
  | case2 => exact ⟨_, rfl, .refl _, above_allTop _⟩
  | case3 => exact ⟨_, rfl, above_allBottom _, .refl _⟩
  | case4 other hid htop hbot ih => exact ih.symm
  | case5 other => exact ⟨_, rfl, above_allTop _, .refl _⟩
  | case6 other => exact ⟨_, rfl, .refl _, above_allBottom _⟩
  | case7 other v known hknown => exact defaultJoinOrNull_joinsTo hknown
  | case8 v hd => exact ⟨_, rfl, above_allBottom _, above_allBottom _⟩
  | case9 other v hd hid hc ih => exact ih.symm
  | case10 other v hd hid hc => exact joinConstant_joinsTo soo v (not_not.1 hc)
  | case11 other N seed fs known hknown => exact defaultJoinOrNull_joinsTo hknown
  | case12 other N seed fs hd => exact joinsTo_create N before _ _
  | case13 => exact ⟨_, rfl, above_allBottom _, .refl _⟩
  | case14 other N first second hbot htop =>
    refine ⟨_, rfl, .refl _, ?_⟩
    rcases htop with rfl | rfl
    · exact above_allTop _
    · exact .refl _
  | case15 other N first second hbot htop => exact joinsTo_create N before _ _

/-- Joining terminates with a function above both operands, whichever is asked first. -/
theorem joinWith_above (soo : Bool) (before : ℕ → ℕ → Bool) (f g : EdgeFunction L V) :
    ∃ h, f.joinWith soo before g = some h ∧
      ∀ x, join (h.computeTarget x) (join (f.computeTarget x) (g.computeTarget x)) =
        h.computeTarget x := by
  obtain ⟨h, hh, hf, hg⟩ := joinWith_joinsTo soo before f g
  exact ⟨h, hh, fun x => by rw [← join_assoc, hf x, hg x]⟩

end EdgeFunction

end Phasar
