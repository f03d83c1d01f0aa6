import Phasar.XTaint.EdgeDomain

/-!
# The edge functions of the extended taint analysis

Sanitizing everything, generating a fact, killing it where it has been sanitized before a load, and
transferring a sanitizer. Composing functions of the last two kinds builds chains of them.

* `EdgeFunction`, `computeTarget`, `compose`, `beq`;
* `Built`: what arises by composition;
* `passes`, `leaves`: which sanitizers a chain lets through, and what it makes of them;
* `compose_and_compare_iff`: when composition and comparison are right.
-/

namespace Phasar.XTaint

open EdgeDomain

/-- The classes of edge functions. All functions of an analysis have the same ordering of blocks. -/
inductive EdgeFunction (I : Type*)
  | EdgeIdentity
  | AllBottom
  | AllTop
  | AllSanitized
  | GenEdgeFunction (Value : Option I)
  | KillIfSanitizedEdgeFunction (Load : Option I)
  | TransferEdgeFunction (Load To : Option I)
  | ComposeEdgeFunction (First Second : EdgeFunction I)
  deriving DecidableEq

namespace EdgeFunction

variable {Func : Type*} [DecidableEq Func] {F : Func → LLVMFunction} (BBO : BasicBlockOrdering F)

/-- `!Load || BBO->mustComeBefore(Sani, Load)`. -/
def beforeLoad (Load : Option (Instruction F)) (Sani : Instruction F) : Bool :=
  Load.all (BBO.mustComeBefore Sani ·)

def computeTarget : EdgeFunction (Instruction F) → EdgeDomain (Instruction F) → EdgeDomain (Instruction F)
  | .EdgeIdentity, Source => Source
  | .AllBottom, _ => .Bot
  | .AllTop, _ => .Top
  | .AllSanitized, _ => .Sanitized
  | .GenEdgeFunction Value, _ => .WithSanitizer Value
  | .KillIfSanitizedEdgeFunction Load, Source =>
    match Source.getSanitizer with
    | some Sani =>
      match Load with
      | none => .Sanitized
      | some Load =>
        if Sani.1 = Load.1 ∧ BBO.mustComeBefore Sani Load then .Sanitized else .WithSanitizer none
    | none => Source
  | .TransferEdgeFunction Load To, Source =>
    if Source.getSanitizer.any (beforeLoad BBO Load) then .WithSanitizer To
    else if Source = .Sanitized then .WithSanitizer To
    else .WithSanitizer none
  | .ComposeEdgeFunction First Second, Source => Second.computeTarget (First.computeTarget Source)

/-- The classes that declare themselves constant. -/
def isConstant {I : Type*} : EdgeFunction I → Bool
  | .AllBottom | .AllTop | .AllSanitized | .GenEdgeFunction _ => true
  | _ => false

/-- `operator==`: a transfer is compared by what it transfers to. -/
def beq {I : Type*} [DecidableEq I] : EdgeFunction I → EdgeFunction I → Bool
  | .EdgeIdentity, .EdgeIdentity => true
  | .AllBottom, .AllBottom => true
  | .AllTop, .AllTop => true
  | .AllSanitized, .AllSanitized => true
  | .GenEdgeFunction Value, .GenEdgeFunction Value' => decide (Value = Value')
  | .KillIfSanitizedEdgeFunction Load, .KillIfSanitizedEdgeFunction Load' => decide (Load = Load')
  | .TransferEdgeFunction _ To, .TransferEdgeFunction _ To' => decide (To = To')
  | .ComposeEdgeFunction First Second, .ComposeEdgeFunction First' Second' =>
    beq First First' && beq Second Second'
  | _, _ => false

def defaultComposeOrNull (This SecondFunction : EdgeFunction (Instruction F)) :
    Option (EdgeFunction (Instruction F)) :=
  if SecondFunction = .EdgeIdentity then some This
  else if SecondFunction.isConstant then some SecondFunction
  else none

/-- `EdgeFunction::compose`. A constant is stored by its sanitizer (`NonTopBotValue::unwrap`). -/
def compose : EdgeFunction (Instruction F) → EdgeFunction (Instruction F) → EdgeFunction (Instruction F)
  | .EdgeIdentity, SecondFunction => SecondFunction
  | .AllBottom, SecondFunction =>
    if SecondFunction.isConstant then SecondFunction
    else
      let ConstVal := SecondFunction.computeTarget BBO .Bot
      if ConstVal = .Bot then .AllBottom else .GenEdgeFunction ConstVal.getSanitizer
  | .AllTop, SecondFunction => if SecondFunction.isConstant then SecondFunction else .AllTop
  | .AllSanitized, SecondFunction =>
    if SecondFunction = .EdgeIdentity then .AllSanitized
    else if SecondFunction = .AllBottom then SecondFunction
    else if SecondFunction = .AllTop then .AllSanitized
    else if SecondFunction.isConstant then SecondFunction
    else
      match SecondFunction.computeTarget BBO .Sanitized with
      | .Bot => .AllBottom
      | .Top => .AllTop
      | .Sanitized => .AllSanitized
      -- the default case
      | .WithSanitizer _ => SecondFunction
  | .GenEdgeFunction Value, SecondFunction =>
    (defaultComposeOrNull (.GenEdgeFunction Value) SecondFunction).getD
      (let ConstVal := SecondFunction.computeTarget BBO (.WithSanitizer Value)
      if ConstVal = .Bot then .AllBottom
      else if ConstVal = .Top then .AllTop
      else .GenEdgeFunction ConstVal.getSanitizer)
  | .KillIfSanitizedEdgeFunction Load, SecondFunction =>
    (defaultComposeOrNull (.KillIfSanitizedEdgeFunction Load) SecondFunction).getD
      (.ComposeEdgeFunction (.KillIfSanitizedEdgeFunction Load) SecondFunction)
  | .TransferEdgeFunction Load To, SecondFunction =>
    (defaultComposeOrNull (.TransferEdgeFunction Load To) SecondFunction).getD
      (.ComposeEdgeFunction (.TransferEdgeFunction Load To) SecondFunction)
  | .ComposeEdgeFunction First Second, SecondFunction =>
    (defaultComposeOrNull (.ComposeEdgeFunction First Second) SecondFunction).getD
      (First.compose (Second.compose SecondFunction))

/-- The edge functions that the analysis starts from, and their compositions. -/
inductive Built : EdgeFunction (Instruction F) → Prop
  | edgeIdentity : Built .EdgeIdentity
  | allBottom : Built .AllBottom
  | allSanitized : Built .AllSanitized
  | gen (Value : Option (Instruction F)) : Built (.GenEdgeFunction Value)
  | kill (Load : Option (Instruction F)) : Built (.KillIfSanitizedEdgeFunction Load)
  | transfer (Load To : Option (Instruction F)) : Built (.TransferEdgeFunction Load To)
  | compose {f g : EdgeFunction (Instruction F)} (hf : Built f) (hg : Built g) : Built (f.compose BBO g)

/-! ### Chains -/

/-- A function that kills or transfers. -/
inductive IsLink {I : Type*} : EdgeFunction I → Prop
  | kill (Load : Option I) : IsLink (.KillIfSanitizedEdgeFunction Load)
  | transfer (Load To : Option I) : IsLink (.TransferEdgeFunction Load To)

/-- Killing and transferring functions, one after the other. -/
inductive IsChain {I : Type*} : EdgeFunction I → Prop
  | kill (Load : Option I) : IsChain (.KillIfSanitizedEdgeFunction Load)
  | transfer (Load To : Option I) : IsChain (.TransferEdgeFunction Load To)
  | compose {f g : EdgeFunction I} (hf : IsLink f) (hg : IsChain g) : IsChain (.ComposeEdgeFunction f g)

/-- What a chain makes of a value that it lets through: a sanitizer, or none for a value that is
sanitized throughout. -/
def leaves {I : Type*} : EdgeFunction I → Option I
  | .TransferEdgeFunction _ To => To
  | .ComposeEdgeFunction _ Second => Second.leaves
  | _ => none

/-- A chain lets a value through: every transfer has a sanitizer to transfer to, and that comes before
the load of the next function. The value is sanitized by an instruction or, for `none`, throughout. -/
def passes : EdgeFunction (Instruction F) → Option (Instruction F) → Bool
  | .KillIfSanitizedEdgeFunction Load, sani => sani.all (beforeLoad BBO Load)
  | .TransferEdgeFunction Load To, sani => sani.all (beforeLoad BBO Load) && To.isSome
  | .ComposeEdgeFunction First Second, sani => First.passes sani && Second.passes First.leaves
  | _, _ => true

/-- The load of the first function of a chain. -/
def firstLoad {I : Type*} : EdgeFunction I → Option I
  | .KillIfSanitizedEdgeFunction Load => Load
  | .TransferEdgeFunction Load _ => Load
  | .ComposeEdgeFunction First _ => First.firstLoad
  | _ => none

/-- Sanitized by an instruction, or throughout. -/
def sanitizedBy {I : Type*} : Option I → EdgeDomain I
  | some Sani => .WithSanitizer (some Sani)
  | none => .Sanitized

variable {BBO} {f g h : EdgeFunction (Instruction F)} {x : EdgeDomain (Instruction F)}
  {sani : Option (Instruction F)} {s : Instruction F}

theorem IsChain.ne_edgeIdentity {I : Type*} {f : EdgeFunction I} (h : IsChain f) : f ≠ .EdgeIdentity := by
  cases h <;> simp

theorem IsChain.isConstant {I : Type*} {f : EdgeFunction I} (h : IsChain f) : f.isConstant = false := by
  cases h <;> rfl

attribute [local simp] computeTarget getSanitizer in
theorem transfer_sanitizedBy (Load To : Option (Instruction F)) (sani : Option (Instruction F)) :
    computeTarget BBO (.TransferEdgeFunction Load To) (sanitizedBy sani) =
      if sani.all (beforeLoad BBO Load) then .WithSanitizer To else .WithSanitizer none := by
  cases sani <;> simp [sanitizedBy]

theorem kill_sanitizedBy (Load : Option (Instruction F)) (sani : Option (Instruction F)) :
    computeTarget BBO (.KillIfSanitizedEdgeFunction Load) (sanitizedBy sani) =
      if sani.all (beforeLoad BBO Load) then .Sanitized else .WithSanitizer none := by
  cases sani with
  | none => rfl
  | some s =>
    cases Load with
    | none => rfl
    | some l =>
      have hfun : (s.1 = l.1 ∧ BBO.mustComeBefore s l = true) ↔ BBO.mustComeBefore s l = true := by
        refine and_iff_right_of_imp fun hbefore => ?_
        by_contra hne
        simp [BasicBlockOrdering.mustComeBefore, hne] at hbefore
      have hall : (some s).all (beforeLoad BBO (some l)) = BBO.mustComeBefore s l := rfl
      rw [hall]
      simp only [computeTarget, sanitizedBy, getSanitizer, hfun]

/-- A value that is not sanitized stays so. -/
theorem IsChain.computeTarget_notSanitized (h : IsChain f) :
    f.computeTarget BBO (.WithSanitizer none) = .WithSanitizer none := by
  induction h with
  | kill Load => rfl
  | transfer Load To => simp [computeTarget, getSanitizer]
  | compose hf hg ih =>
    cases hf with
    | kill Load => exact ih
    | transfer Load To =>
      rw [computeTarget]
      simpa [computeTarget, getSanitizer] using ih

variable (BBO) in
/-- A sanitized value is let through, or is not sanitized afterwards. -/
theorem IsChain.computeTarget_sanitizedBy (h : IsChain f) (sani : Option (Instruction F)) :
    f.computeTarget BBO (sanitizedBy sani) =
      if f.passes BBO sani then sanitizedBy f.leaves else .WithSanitizer none := by
  induction h generalizing sani with
  | kill Load => exact kill_sanitizedBy Load sani
  | transfer Load To =>
    rw [transfer_sanitizedBy, passes]
    cases To with
    | none => simp
    | some t => simp [sanitizedBy, leaves]
  | @compose f g hf hg ih =>
    rw [computeTarget, passes, leaves]
    cases hf with
    | kill Load =>
      rw [kill_sanitizedBy, passes]
      cases hpass : sani.all (beforeLoad BBO Load) with
      | true => exact ih none
      | false => simpa using hg.computeTarget_notSanitized
    | transfer Load To =>
      rw [transfer_sanitizedBy, passes]
      cases To with
      | none => simpa using hg.computeTarget_notSanitized
      | some t =>
        cases hpass : sani.all (beforeLoad BBO Load) with
        | true => exact ih (some t)
        | false => simpa using hg.computeTarget_notSanitized

attribute [local simp] passes in
/-- The first load decides on the sanitizer that comes in. -/
theorem IsChain.passes_some (h : IsChain f) (s : Instruction F) :
    f.passes BBO (some s) = (beforeLoad BBO f.firstLoad s && f.passes BBO none) := by
  cases h with
  | kill Load => simp [firstLoad]
  | transfer Load To => simp [firstLoad]
  | compose hf hg => cases hf <;> simp [firstLoad, leaves, Bool.and_assoc]

/-- A chain that does not let a value through that is sanitized throughout lets nothing through. -/
theorem IsChain.computeTarget_of_not_passes (h : IsChain f) (hpass : f.passes BBO none = false)
    (x : EdgeDomain (Instruction F)) : f.computeTarget BBO x = .WithSanitizer none := by
  induction h generalizing x with
  | kill Load => simp [passes] at hpass
  | transfer Load To =>
    cases To with
    | none => simp [computeTarget]
    | some t => simp [passes] at hpass
  | @compose f g hf hg ih =>
    rw [computeTarget]
    cases hf with
    | kill Load => exact ih (by simpa [passes, leaves] using hpass) _
    | transfer Load To =>
      cases To with
      | none =>
        have hnone : computeTarget BBO (.TransferEdgeFunction Load none) x = .WithSanitizer none := by
          simp [computeTarget]
        rw [hnone]
        exact hg.computeTarget_notSanitized
      | some t =>
        have hlast : g.passes BBO (some t) = false := by simpa [passes, leaves] using hpass
        have hgt := hg.computeTarget_sanitizedBy BBO (some t)
        rw [if_neg (by simp [hlast])] at hgt
        -- what the transfer gives is its sanitizer, or nothing
        have hcases : computeTarget BBO (.TransferEdgeFunction Load (some t)) x = sanitizedBy (some t) ∨
            computeTarget BBO (.TransferEdgeFunction Load (some t)) x = .WithSanitizer none := by
          unfold computeTarget sanitizedBy
          split_ifs <;> simp
        rcases hcases with hx | hx
        · rw [hx, hgt]
        · rw [hx]
          exact hg.computeTarget_notSanitized

variable (BBO) in
/-- Bottom and top stay, or are not sanitized afterwards. -/
theorem IsChain.computeTarget_of_getSanitizer (h : IsChain f) (hx : x.getSanitizer = none)
    (hx' : x ≠ .Sanitized) : f.computeTarget BBO x = x ∨ f.computeTarget BBO x = .WithSanitizer none := by
  induction h with
  | kill Load => exact Or.inl (by simp [computeTarget, hx])
  | transfer Load To => exact Or.inr (by simp [computeTarget, hx, hx'])
  | @compose f g hf hg ih =>
    rw [computeTarget]
    cases hf with
    | kill Load => simpa [computeTarget, hx] using ih
    | transfer Load To =>
      refine Or.inr ?_
      have hnone : computeTarget BBO (.TransferEdgeFunction Load To) x = .WithSanitizer none := by
        simp [computeTarget, hx, hx']
      rw [hnone]
      exact hg.computeTarget_notSanitized

theorem computeTarget_of_isConstant (h : f.isConstant = true) (x y : EdgeDomain (Instruction F)) :
    f.computeTarget BBO x = f.computeTarget BBO y := by
  cases f <;> simp_all [isConstant, computeTarget]

/-! ### Composition -/

theorem defaultComposeOrNull_of_isChain (hg : IsChain g) : defaultComposeOrNull f g = none := by
  unfold defaultComposeOrNull
  rw [if_neg hg.ne_edgeIdentity, if_neg (by simp [hg.isConstant])]

/-- What is composed by default is composed correctly. -/
theorem computeTarget_of_defaultComposeOrNull (h : defaultComposeOrNull f g = some h') (x) :
    h'.computeTarget BBO x = g.computeTarget BBO (f.computeTarget BBO x) := by
  unfold defaultComposeOrNull at h
  split_ifs at h with hid hconst
  · obtain rfl := Option.some.inj h
    subst hid
    rfl
  · obtain rfl := Option.some.inj h
    exact computeTarget_of_isConstant hconst x _

attribute [local simp] compose in
theorem IsLink.compose_of_isChain (hf : IsLink f) (hg : IsChain g) :
    f.compose BBO g = .ComposeEdgeFunction f g := by
  cases hf <;> simp [defaultComposeOrNull_of_isChain hg]

theorem IsChain.compose_isChain (hf : IsChain f) (hg : IsChain g) : IsChain (f.compose BBO g) := by
  induction hf generalizing g with
  | kill Load =>
    rw [(IsLink.kill Load).compose_of_isChain hg]
    exact .compose (.kill Load) hg
  | transfer Load To =>
    rw [(IsLink.transfer Load To).compose_of_isChain hg]
    exact .compose (.transfer Load To) hg
  | compose hl hf ih =>
    rw [EdgeFunction.compose, defaultComposeOrNull_of_isChain hg, Option.getD_none, hl.compose_of_isChain (ih hg)]
    exact .compose hl (ih hg)

/-- Composing with a chain on the left is right. -/
theorem IsChain.computeTarget_compose (hf : IsChain f) (hg : IsChain g ∨ g = .EdgeIdentity ∨ g.isConstant)
    (x : EdgeDomain (Instruction F)) :
    (f.compose BBO g).computeTarget BBO x = g.computeTarget BBO (f.computeTarget BBO x) := by
  rcases hg with hg | hg
  · induction hf generalizing g x with
    | kill Load =>
      rw [(IsLink.kill Load).compose_of_isChain hg]
      rfl
    | transfer Load To =>
      rw [(IsLink.transfer Load To).compose_of_isChain hg]
      rfl
    | @compose f f' hl hf ih =>
      rw [EdgeFunction.compose, defaultComposeOrNull_of_isChain hg, Option.getD_none,
        hl.compose_of_isChain (hf.compose_isChain hg), computeTarget, ih _ hg]
      rfl
  · have hdefault : ∃ h', defaultComposeOrNull f g = some h' := by
      unfold defaultComposeOrNull
      split_ifs with hid hconst
      · exact ⟨_, rfl⟩
      · exact ⟨_, rfl⟩
      · exact absurd hg (by simp [hid, hconst])
    obtain ⟨h', hh'⟩ := hdefault
    rw [← computeTarget_of_defaultComposeOrNull hh']
    cases hf <;> rw [EdgeFunction.compose, hh', Option.getD_some]

/-- Sanitizing everything before a chain. -/
theorem allSanitized_compose (hg : IsChain g) : compose BBO .AllSanitized g =
    if g.passes BBO none = true ∧ g.leaves = none then .AllSanitized else g := by
  have hne : g ≠ .AllBottom ∧ g ≠ .AllTop := by cases hg <;> simp
  have hsani := hg.computeTarget_sanitizedBy BBO none
  unfold compose
  rw [if_neg hg.ne_edgeIdentity, if_neg hne.1, if_neg hne.2, if_neg (by simp [hg.isConstant])]
  rw [sanitizedBy] at hsani
  rw [hsani]
  cases hpass : g.passes BBO none with
  | false => simp
  | true =>
    cases hleaves : g.leaves with
    | none => simp [sanitizedBy]
    | some t => simp [sanitizedBy]

/-- Generating a fact before a chain. -/
theorem gen_compose (hg : IsChain g) (Value : Option (Instruction F)) :
    compose BBO (.GenEdgeFunction Value) g =
      .GenEdgeFunction (Value.bind fun s => if g.passes BBO (some s) then g.leaves else none) := by
  unfold compose
  rw [defaultComposeOrNull_of_isChain hg, Option.getD_none]
  cases Value with
  | none =>
    rw [hg.computeTarget_notSanitized]
    rfl
  | some s =>
    have hsani := hg.computeTarget_sanitizedBy BBO (some s)
    rw [sanitizedBy] at hsani
    rw [hsani]
    cases hpass : g.passes BBO (some s) with
    | false => simp [getSanitizer, hpass]
    | true => cases g.leaves <;> simp [sanitizedBy, getSanitizer, hpass]

variable (BBO) in
theorem allBottom_compose (hg : IsChain g) :
    (compose BBO .AllBottom g = .AllBottom ∧ g.computeTarget BBO .Bot = .Bot) ∨
      (compose BBO .AllBottom g = .GenEdgeFunction none ∧
        g.computeTarget BBO .Bot = .WithSanitizer none) := by
  unfold compose
  rw [if_neg (by simp [hg.isConstant])]
  rcases hg.computeTarget_of_getSanitizer BBO (x := .Bot) rfl (by simp) with h | h
  · exact Or.inl ⟨if_pos h, h⟩
  · refine Or.inr ⟨?_, h⟩
    rw [h]
    rfl

/-- The identity, a constant or a chain. -/
def Known {I : Type*} (f : EdgeFunction I) : Prop :=
  f = .EdgeIdentity ∨ f = .AllBottom ∨ f = .AllSanitized ∨ (∃ Value, f = .GenEdgeFunction Value) ∨ IsChain f

theorem Known.isChain_or {I : Type*} {f : EdgeFunction I} (h : Known f) :
    IsChain f ∨ f = .EdgeIdentity ∨ (f.isConstant = true ∧ f ≠ .AllTop) := by
  rcases h with rfl | rfl | rfl | ⟨Value, rfl⟩ | h
  · exact Or.inr (Or.inl rfl)
  · exact Or.inr (Or.inr ⟨rfl, by simp⟩)
  · exact Or.inr (Or.inr ⟨rfl, by simp⟩)
  · exact Or.inr (Or.inr ⟨rfl, by simp⟩)
  · exact Or.inl h

/-- A constant before the identity or another constant. -/
theorem compose_of_isConstant (hf : f.isConstant = true) (hf' : f ≠ .AllTop)
    (hg : g = .EdgeIdentity ∨ (g.isConstant = true ∧ g ≠ .AllTop)) :
    compose BBO f g = if g = .EdgeIdentity then f else g := by
  rcases hg with rfl | ⟨hg, hg'⟩
  · rw [if_pos rfl]
    cases f <;> simp_all [isConstant, compose, computeTarget, defaultComposeOrNull]
  · have hid : g ≠ .EdgeIdentity := by
      rintro rfl
      exact Bool.noConfusion hg
    rw [if_neg hid]
    cases f <;> simp_all [isConstant, compose, defaultComposeOrNull]

theorem known_compose (hf : Known f) (hg : Known g) : Known (f.compose BBO g) := by
  rcases hf with rfl | hf
  · rwa [compose]
  rcases hg.isChain_or with hg' | hg'
  · rcases hf with rfl | rfl | ⟨Value, rfl⟩ | hf
    · rcases allBottom_compose BBO hg' with ⟨h, -⟩ | ⟨h, -⟩
      · exact Or.inr (Or.inl h)
      · exact Or.inr (Or.inr (Or.inr (Or.inl ⟨none, h⟩)))
    · rw [allSanitized_compose hg']
      split_ifs
      · exact Or.inr (Or.inr (Or.inl rfl))
      · exact hg
    · exact Or.inr (Or.inr (Or.inr (Or.inl ⟨_, gen_compose hg' Value⟩)))
    · exact Or.inr (Or.inr (Or.inr (Or.inr (hf.compose_isChain hg'))))
  · have hself : Known f := Or.inr hf
    have hcompose : f.compose BBO g = if g = .EdgeIdentity then f else g := by
      rcases hself.isChain_or with hf' | rfl | ⟨hconst, htop⟩
      · have hdefault : defaultComposeOrNull f g = some (if g = .EdgeIdentity then f else g) := by
          unfold defaultComposeOrNull
          rcases hg' with rfl | ⟨hg', -⟩
          · rw [if_pos rfl, if_pos rfl]
          · split_ifs with hid
            · rfl
            · rfl
        cases hf' <;> rw [compose, hdefault, Option.getD_some]
      · rcases hf with hf | hf | ⟨Value, hf⟩ | hf
        all_goals cases hf
      · exact compose_of_isConstant hconst htop hg'
    rw [hcompose]
    split_ifs
    · exact hself
    · exact hg

theorem Built.known (h : Built BBO f) : Known f := by
  induction h with
  | edgeIdentity => exact Or.inl rfl
  | allBottom => exact Or.inr (Or.inl rfl)
  | allSanitized => exact Or.inr (Or.inr (Or.inl rfl))
  | gen Value => exact Or.inr (Or.inr (Or.inr (Or.inl ⟨Value, rfl⟩)))
  | kill Load => exact Or.inr (Or.inr (Or.inr (Or.inr (.kill Load))))
  | transfer Load To => exact Or.inr (Or.inr (Or.inr (Or.inr (.transfer Load To))))
  | compose _ _ ihf ihg => exact known_compose ihf ihg

variable (BBO) in
/-- Composition stores a value that it cannot: a sanitizer behind `AllSanitized`, or a value that is
sanitized throughout behind a generated fact. -/
def Loses (f g : EdgeFunction (Instruction F)) : Prop :=
  IsChain g ∧
    ((f = .AllSanitized ∧ g.passes BBO none = true ∧ g.leaves ≠ none) ∨
      ∃ s, f = .GenEdgeFunction (some s) ∧ g.passes BBO (some s) = true ∧ g.leaves = none)

theorem sanitizedBy_ne {I : Type*} (sani : Option I) : sanitizedBy sani ≠ .WithSanitizer none := by
  cases sani <;> simp [sanitizedBy]

theorem allSanitized_compose_iff (hg : IsChain g) :
    (∀ x, (compose BBO .AllSanitized g).computeTarget BBO x =
        g.computeTarget BBO (computeTarget BBO .AllSanitized x)) ↔
      ¬(g.passes BBO none = true ∧ g.leaves ≠ none) := by
  have hsani : ∀ x, g.computeTarget BBO (computeTarget BBO .AllSanitized x) =
      if g.passes BBO none then sanitizedBy g.leaves else .WithSanitizer none :=
    fun x => hg.computeTarget_sanitizedBy BBO none
  rw [allSanitized_compose hg]
  cases hpass : g.passes BBO none with
  | false =>
    refine iff_of_true (fun x => ?_) (by simp)
    rw [hsani, hpass, if_neg (by simp), if_neg (by simp), hg.computeTarget_of_not_passes hpass]
  | true =>
    by_cases hleaves : g.leaves = none
    · refine iff_of_true (fun x => ?_) (by simp [hleaves])
      rw [hsani, hpass, if_pos rfl, if_pos ⟨rfl, hleaves⟩, hleaves]
      rfl
    · refine iff_of_false (fun h => ?_) fun h => h ⟨rfl, hleaves⟩
      -- the chain itself does not sanitize a value that is not sanitized
      have hnone := h (.WithSanitizer none)
      rw [hsani, hpass, if_pos rfl, if_neg (by simp [hleaves]), hg.computeTarget_notSanitized] at hnone
      exact sanitizedBy_ne _ hnone.symm

theorem gen_compose_iff (hg : IsChain g) (Value : Option (Instruction F)) :
    (∀ x, (compose BBO (.GenEdgeFunction Value) g).computeTarget BBO x =
        g.computeTarget BBO (computeTarget BBO (.GenEdgeFunction Value) x)) ↔
      ¬∃ s, Value = some s ∧ g.passes BBO (some s) = true ∧ g.leaves = none := by
  rw [gen_compose hg]
  simp only [computeTarget]
  cases Value with
  | none => exact iff_of_true (fun x => hg.computeTarget_notSanitized.symm) (by simp)
  | some s =>
    have hsani := hg.computeTarget_sanitizedBy BBO (some s)
    rw [sanitizedBy] at hsani
    rw [hsani, Option.bind_some]
    cases hpass : g.passes BBO (some s) with
    | false => exact iff_of_true (fun x => rfl) (by simp [hpass])
    | true =>
      cases hleaves : g.leaves with
      | none => exact iff_of_false (fun h => absurd (h .Bot) (by simp [sanitizedBy])) (by simp [hpass])
      | some t => exact iff_of_true (fun x => rfl) (by simp)

/-- The identity and `AllBottom` lose nothing, nor do chains. -/
theorem not_loses (hf : f = .EdgeIdentity ∨ f = .AllBottom ∨ IsChain f) : ¬Loses BBO f g := by
  rintro ⟨-, ⟨rfl, -⟩ | ⟨s, rfl, -⟩⟩
  all_goals
    rcases hf with hf | hf | hf
    all_goals cases hf

theorem compose_iff (hf : Known f) (hg : Known g) :
    (∀ x, (f.compose BBO g).computeTarget BBO x = g.computeTarget BBO (f.computeTarget BBO x)) ↔
      ¬Loses BBO f g := by
  rcases hg.isChain_or with hchain | hother
  · rcases hf with rfl | rfl | rfl | ⟨Value, rfl⟩ | hf
    · refine iff_of_true (fun x => ?_) (not_loses (Or.inl rfl))
      rw [compose]
      rfl
    · refine iff_of_true (fun x => ?_) (not_loses (Or.inr (Or.inl rfl)))
      rcases allBottom_compose BBO hchain with ⟨h, h'⟩ | ⟨h, h'⟩
      · rw [h]
        exact h'.symm
      · rw [h]
        exact h'.symm
    · rw [allSanitized_compose_iff hchain, Loses]
      simp [hchain]
    · rw [gen_compose_iff hchain, Loses]
      simp [hchain]
    · exact iff_of_true (hf.computeTarget_compose (Or.inl hchain)) (not_loses (Or.inr (Or.inr hf)))
  · refine iff_of_true (fun x => ?_) ?_
    · rcases hf.isChain_or with hf' | rfl | ⟨hconst, htop⟩
      · exact hf'.computeTarget_compose (Or.inr (hother.imp_right And.left)) x
      · rw [compose]
        rfl
      · rw [compose_of_isConstant hconst htop hother]
        rcases hother with rfl | ⟨hg', -⟩
        · rfl
        · split_ifs with hid
          · subst hid
            rfl
          · exact computeTarget_of_isConstant hg' _ _
    · rintro ⟨hchain, -⟩
      rcases hother with rfl | ⟨hg', -⟩
      · cases hchain
      · rw [hchain.isConstant] at hg'
        cases hg'

/-! ### Comparison -/

variable (BBO) in
/-- Both functions let the same sanitizers through. -/
def SamePassing (f g : EdgeFunction (Instruction F)) : Prop :=
  f.passes BBO none = g.passes BBO none ∧ (f.passes BBO none = true →
    ∀ s, beforeLoad BBO f.firstLoad s = beforeLoad BBO g.firstLoad s)

attribute [local simp] beq in
/-- Links that compare equal kill at the same load, or transfer to the same sanitizer. -/
theorem IsLink.of_beq {I : Type*} [DecidableEq I] {f g : EdgeFunction I} (hf : IsLink f)
    (h : beq f g = true) :
    (∃ Load, f = .KillIfSanitizedEdgeFunction Load ∧ g = .KillIfSanitizedEdgeFunction Load) ∨
      ∃ Load Load' To, f = .TransferEdgeFunction Load To ∧ g = .TransferEdgeFunction Load' To := by
  cases hf with
  | kill Load =>
    cases g <;> simp at h
    exact Or.inl ⟨Load, rfl, by rw [h]⟩
  | transfer Load To =>
    cases g <;> simp at h
    exact Or.inr ⟨Load, _, To, rfl, by rw [h]⟩

/-- Chains that compare equal have equal links. -/
theorem IsChain.of_beq {I : Type*} [DecidableEq I] {f g : EdgeFunction I} (hf : IsChain f)
    (h : beq f g = true) : IsChain g ∧ f.leaves = g.leaves := by
  induction hf generalizing g with
  | kill Load =>
    rcases (IsLink.kill Load).of_beq h with ⟨Load', hf, rfl⟩ | ⟨_, _, _, hf, -⟩
    · exact ⟨.kill Load', rfl⟩
    · cases hf
  | transfer Load To =>
    rcases (IsLink.transfer Load To).of_beq h with ⟨_, hf, -⟩ | ⟨_, Load', _, hf, rfl⟩
    · cases hf
    · cases hf
      exact ⟨.transfer Load' To, rfl⟩
  | compose hl _ ih =>
    cases g <;> simp [beq] at h
    obtain ⟨hg, hleaves⟩ := ih h.2
    refine ⟨.compose ?_ hg, hleaves⟩
    rcases hl.of_beq h.1 with ⟨Load, -, rfl⟩ | ⟨-, Load, To, -, rfl⟩
    · exact .kill Load
    · exact .transfer Load To

/-- Where nothing is sanitized, chains that compare equal are equal. -/
theorem IsChain.computeTarget_eq_of_beq (hf : IsChain f) (h : beq f g = true)
    (hx : x.getSanitizer = none) (hx' : x ≠ .Sanitized) :
    f.computeTarget BBO x = g.computeTarget BBO x := by
  have htransfer : ∀ Load To : Option (Instruction F),
      computeTarget BBO (.TransferEdgeFunction Load To) x = .WithSanitizer none := by
    intro Load To
    simp [computeTarget, hx, hx']
  induction hf generalizing g with
  | kill Load =>
    rcases (IsLink.kill Load).of_beq h with ⟨Load', hf, rfl⟩ | ⟨_, _, _, hf, -⟩
    · rw [hf]
    · cases hf
  | transfer Load To =>
    rcases (IsLink.transfer Load To).of_beq h with ⟨_, hf, -⟩ | ⟨_, Load', _, -, rfl⟩
    · cases hf
    · rw [htransfer, htransfer]
  | compose hl hf ih =>
    cases g <;> simp [beq] at h
    rw [computeTarget, computeTarget]
    rcases hl.of_beq h.1 with ⟨Load, rfl, rfl⟩ | ⟨Load, Load', To, rfl, rfl⟩
    · have hkill : computeTarget BBO (.KillIfSanitizedEdgeFunction Load) x = x := by
        simp [computeTarget, hx]
      rw [hkill]
      exact ih h.2
    · rw [htransfer, htransfer, hf.computeTarget_notSanitized,
        (hf.of_beq h.2).1.computeTarget_notSanitized]

theorem IsChain.computeTarget_eq_iff (hf : IsChain f) (h : beq f g = true) :
    (∀ x, f.computeTarget BBO x = g.computeTarget BBO x) ↔ SamePassing BBO f g := by
  obtain ⟨hg, hleaves⟩ := hf.of_beq h
  -- on sanitized values the functions differ where only one lets them through
  have hsani : ∀ sani, f.computeTarget BBO (sanitizedBy sani) = g.computeTarget BBO (sanitizedBy sani) ↔
      f.passes BBO sani = g.passes BBO sani := by
    intro sani
    rw [hf.computeTarget_sanitizedBy, hg.computeTarget_sanitizedBy, hleaves]
    cases f.passes BBO sani <;> cases g.passes BBO sani <;>
      simp [sanitizedBy_ne, (sanitizedBy_ne _).symm]
  have hsome : ∀ s, f.passes BBO none = g.passes BBO none →
      (f.passes BBO (some s) = g.passes BBO (some s) ↔
        (f.passes BBO none = true → beforeLoad BBO f.firstLoad s = beforeLoad BBO g.firstLoad s)) := by
    intro s hnone
    rw [hf.passes_some, hg.passes_some, ← hnone]
    cases f.passes BBO none <;> simp
  constructor
  · intro heq
    have hnone := (hsani none).1 (heq _)
    exact ⟨hnone, fun hpass s => (hsome s hnone).1 ((hsani (some s)).1 (heq _)) hpass⟩
  · rintro ⟨hnone, hload⟩ x
    cases x with
    | Bot => exact hf.computeTarget_eq_of_beq h rfl (by simp)
    | Top => exact hf.computeTarget_eq_of_beq h rfl (by simp)
    | Sanitized => exact (hsani none).2 hnone
    | WithSanitizer sani =>
      cases sani with
      | none => exact hf.computeTarget_eq_of_beq h rfl (by simp)
      | some s => exact (hsani (some s)).2 ((hsome s hnone).2 fun hpass => hload hpass s)

theorem computeTarget_eq_iff (hf : Known f) (h : beq f g = true) :
    (∀ x, f.computeTarget BBO x = g.computeTarget BBO x) ↔ SamePassing BBO f g := by
  rcases hf.isChain_or with hchain | hother
  · exact hchain.computeTarget_eq_iff h
  · -- functions without a load are compared by all their members
    have hfg : f = g := by
      rcases hother with rfl | ⟨hconst, -⟩
      · cases g <;> simp_all [beq]
      · cases f <;> simp [isConstant] at hconst
        all_goals cases g <;> simp_all [beq]
    subst hfg
    exact iff_of_true (fun x => rfl) ⟨rfl, fun _ s => rfl⟩

/-- Composition computes the composite unless it loses a sanitizer, and equal functions compute the same
unless they let different sanitizers through. -/
theorem compose_and_compare_iff (hf : Built BBO f) (hg : Built BBO g) :
    ((∀ x, (f.compose BBO g).computeTarget BBO x = g.computeTarget BBO (f.computeTarget BBO x)) ↔
      ¬Loses BBO f g) ∧
    ((beq f g = true → ∀ x, f.computeTarget BBO x = g.computeTarget BBO x) ↔
      (beq f g = true → SamePassing BBO f g)) :=
  ⟨compose_iff hf.known hg.known, imp_congr_right fun h => computeTarget_eq_iff hf.known h⟩

/-- Transfer a sanitizer that comes before the load, if there is one, to the first branch. -/
def transferToBranch (Load : Option (Instruction fun _ : Unit => diamond)) :
    EdgeFunction (Instruction fun _ : Unit => diamond) := .TransferEdgeFunction Load (some branchFront)

theorem compose_and_compare_transferToBranch :
    ((∀ x, ((transferToBranch none).compose diamondOrdering (transferToBranch (some meetFront))).computeTarget
          diamondOrdering x =
        (transferToBranch (some meetFront)).computeTarget diamondOrdering
          ((transferToBranch none).computeTarget diamondOrdering x)) ↔
      ¬Loses diamondOrdering (transferToBranch none) (transferToBranch (some meetFront))) ∧
    ((beq (transferToBranch none) (transferToBranch (some meetFront)) = true → ∀ x,
        (transferToBranch none).computeTarget diamondOrdering x =
          (transferToBranch (some meetFront)).computeTarget diamondOrdering x) ↔
      (beq (transferToBranch none) (transferToBranch (some meetFront)) = true →
        SamePassing diamondOrdering (transferToBranch none) (transferToBranch (some meetFront)))) :=
  compose_and_compare_iff (.transfer _ _) (.transfer _ _)

/-- A sanitizer behind `AllSanitized` is lost, a fact that is generated and killed does not come out as
sanitized, and transfers with different loads are equal. -/
theorem compose_and_compare_fail :
    (compose diamondOrdering .AllSanitized (transferToBranch none)).computeTarget diamondOrdering
        (.WithSanitizer none) ≠
      (transferToBranch none).computeTarget diamondOrdering
        (computeTarget diamondOrdering .AllSanitized (.WithSanitizer none)) ∧
    (compose diamondOrdering (.GenEdgeFunction (some branchFront))
        (.KillIfSanitizedEdgeFunction none)).computeTarget diamondOrdering .Bot ≠
      computeTarget diamondOrdering (.KillIfSanitizedEdgeFunction none)
        (computeTarget diamondOrdering (.GenEdgeFunction (some branchFront)) .Bot) ∧
    beq (transferToBranch none) (transferToBranch (some branchFront)) = true ∧
    (transferToBranch none).computeTarget diamondOrdering (.WithSanitizer (some meetFront)) ≠
      (transferToBranch (some branchFront)).computeTarget diamondOrdering
        (.WithSanitizer (some meetFront)) := by
  decide

end EdgeFunction

end Phasar.XTaint
