import Phasar.Lib.WhileLoop
import Mathlib.Data.List.Basic
import Mathlib.Logic.Relation
import Mathlib.Tactic.Common

/-!
# Variables whose address is taken

`isAddressTakenImpl` looks at the uses of a variable and of the pointers that casts and GEPs derive from
it. A derived pointer is put on the work list when it was seen *before*, and since a cast or GEP uses its
operand once, this never happens: only the uses of the variable itself are looked at.

* `UseGraph`, `isAddressTakenImpl`, `isAddressTakenVariable`, `isAddressTakenArg`;
* `isAddressTakenImpl_eq`: the search ends, and decides by the uses of its root;
* `escapes_noticed_iff`: when no escape is overlooked.
-/

namespace Phasar

namespace AddressTaken

/-- The types of values, as far as they matter. -/
inductive Ty
  | pointer
  | pointerVector
  | other
  deriving DecidableEq

/-- A value, by what it is as a user. -/
inductive Val (V : Type*)
  | alloca (operands : List V)
  | argument (structRet : Bool)
  | call (operands : List V) (heapAllocating : Bool)
  | load (pointerOperand : V)
  | store (valueOperand pointerOperand : V)
  | dbgInfoIntrinsic (operands : List V)
  | cast (operand : V)
  | gep (pointerOperand : V) (indices : List V)
  | other (operands : List V)

def Val.operands {V : Type*} : Val V → List V
  | alloca operands => operands
  | argument _ => []
  | call operands _ => operands
  | load pointerOperand => [pointerOperand]
  | store valueOperand pointerOperand => [valueOperand, pointerOperand]
  | dbgInfoIntrinsic operands => operands
  | cast operand => [operand]
  | gep pointerOperand indices => pointerOperand :: indices
  | other operands => operands

/-- Values and their uses. A use is a user with the number of the operand. -/
structure UseGraph (V : Type*) where
  val : V → Val V
  ty : V → Ty
  uses : V → List (V × ℕ)
  mem_uses : ∀ v u n, (u, n) ∈ uses v ↔ (val u).operands[n]? = some v
  nodup_uses : ∀ v, (uses v).Nodup
  ty_gep : ∀ u p indices, val u = .gep p indices → ty p ≠ .other ∧ ∀ i ∈ indices, ty i = .other

namespace UseGraph

variable {V : Type*} [DecidableEq V] (G : UseGraph V)

/-! ### The search -/

/-- The work list, last element first, and the values seen. -/
structure Search (V : Type*) where
  WL : List V
  Seen : List V

/-- `if (!Seen.insert(User).second) WL.push_back(User)`. -/
def Search.visit (s : Search V) (User : V) : Search V :=
  -- a value that is new is seen, but not followed
  if User ∈ s.Seen then ⟨User :: s.WL, s.Seen⟩ else ⟨s.WL, User :: s.Seen⟩

/-- The body of the loop over the uses of a value, `none` where the address is taken. -/
def visitUse (CurrVal : V) (s : Search V) (Use : V × ℕ) : Option (Search V) :=
  match G.val Use.1 with
  | .load _ => some s
  | .store _ pointerOperand => if pointerOperand = CurrVal then some s else none
  | .dbgInfoIntrinsic _ => some s
  | .cast _ => if G.ty CurrVal ≠ .pointer then none else some (s.visit Use.1)
  | .gep pointerOperand _ => if CurrVal = pointerOperand then some (s.visit Use.1) else some s
  | _ => none

def step (s : Search V) : Except Unit (Search V ⊕ Bool) :=
  match s.WL with
  | [] => .ok (.inr false)
  | CurrVal :: WL =>
    match (G.uses CurrVal).foldlM (G.visitUse CurrVal) ⟨WL, s.Seen⟩ with
    | none => .ok (.inr true)
    | some s' => .ok (.inl s')

/-- The search within `n` iterations. -/
def isAddressTakenImpl (n : ℕ) (Root : V) : Except Unit Bool :=
  WhileLoop.run () G.step n ⟨[Root], [Root]⟩

omit [DecidableEq V] in
def isAllocationSiteOrSimilar (v : V) : Bool :=
  match G.val v with
  | .argument structRet => structRet
  | .alloca _ => true
  | .call _ heapAllocating => heapAllocating
  | _ => false

def isAddressTakenVariable (n : ℕ) : Option V → Except Unit Bool
  | none => .ok false
  | some Var => if G.isAllocationSiteOrSimilar Var then G.isAddressTakenImpl n Var else .ok true

/-- The argument is given. -/
def isAddressTakenArg (n : ℕ) (Arg : V) : Except Unit Bool := G.isAddressTakenImpl n Arg

/-! ### What the search decides -/

/-- A use of the root that ends the search: no load, store through the root, debug intrinsic, GEP, or
cast of a pointer. -/
def EndsAt (Root : V) (Use : V × ℕ) : Prop :=
  match G.val Use.1 with
  | .load _ => False
  | .store _ pointerOperand => pointerOperand ≠ Root
  | .dbgInfoIntrinsic _ => False
  | .cast _ => G.ty Root ≠ .pointer
  | .gep _ _ => False
  | _ => True

variable {G} {Root v u : V} {s : Search V} {Use : V × ℕ} {n : ℕ}

theorem visitUse_of_endsAt (h : G.EndsAt Root Use) : G.visitUse Root s Use = none := by
  unfold EndsAt at h
  unfold visitUse
  split at h
  all_goals simp_all

/-- The root is neither a cast nor a GEP. -/
def IsRoot (G : UseGraph V) (Root : V) : Prop :=
  (∀ o, G.val Root ≠ .cast o) ∧ ∀ p indices, G.val Root ≠ .gep p indices

omit [DecidableEq V] in
/-- A cast or a GEP of the root uses it once, as its first operand. -/
theorem IsRoot.ne_of_mem_uses (hroot : IsRoot G Root) (hu : (∃ o, G.val u = .cast o) ∨
    ∃ p indices, G.val u = .gep p indices) : u ≠ Root := by
  rintro rfl
  rcases hu with ⟨o, ho⟩ | ⟨p, indices, hp⟩
  · exact hroot.1 o ho
  · exact hroot.2 p indices hp

theorem visit_of_fresh (hseen : ∀ u ∈ s.Seen, u = Root ∨ (u, 0) ≠ Use) (hne : Use.1 ≠ Root)
    (hzero : Use.2 = 0) : s.visit Use.1 = ⟨s.WL, Use.1 :: s.Seen⟩ := by
  refine if_neg fun hmem => ?_
  rcases hseen _ hmem with h | h
  · exact hne h
  · exact h (Prod.ext rfl hzero.symm)

/-- A use that does not end the search adds its user to the seen values at most. -/
theorem visitUse_of_not_endsAt (hroot : IsRoot G Root) (huse : Use ∈ G.uses Root)
    (hseen : ∀ u ∈ s.Seen, u = Root ∨ (u, 0) ≠ Use) (h : ¬G.EndsAt Root Use) :
    G.visitUse Root s Use = some s ∨
      (Use.2 = 0 ∧ G.visitUse Root s Use = some ⟨s.WL, Use.1 :: s.Seen⟩) := by
  have hoperand := (G.mem_uses Root Use.1 Use.2).1 huse
  unfold EndsAt at h
  unfold visitUse
  cases hval : G.val Use.1 with
  | load p => exact Or.inl rfl
  | dbgInfoIntrinsic ops => exact Or.inl rfl
  | store v p =>
    simp only [hval, ne_eq, not_not] at h
    exact Or.inl (if_pos h)
  | cast o =>
    simp only [hval, ne_eq, not_not] at h
    have hzero : Use.2 = 0 := by
      by_contra hpos
      rw [hval, Val.operands, List.getElem?_eq_none (by simp; omega)] at hoperand
      cases hoperand
    refine Or.inr ⟨hzero, ?_⟩
    simp only [h, ne_eq, not_true_eq_false, if_false]
    rw [visit_of_fresh hseen (hroot.ne_of_mem_uses (Or.inl ⟨o, hval⟩)) hzero]
  | gep p indices =>
    by_cases hp : Root = p
    · have hzero : Use.2 = 0 := by
        -- the indices of a GEP are no pointers
        obtain ⟨hty, hindices⟩ := G.ty_gep _ _ _ hval
        by_contra hpos
        obtain ⟨k, hk⟩ := Nat.exists_eq_succ_of_ne_zero hpos
        rw [hval, Val.operands, hk, List.getElem?_cons_succ] at hoperand
        exact hty (hp ▸ hindices _ (List.mem_of_getElem? hoperand))
      refine Or.inr ⟨hzero, ?_⟩
      simp only [hp, if_true]
      rw [visit_of_fresh hseen (hroot.ne_of_mem_uses (Or.inr ⟨p, indices, hval⟩)) hzero]
    · exact Or.inl (if_neg hp)
  | alloca ops => simp [hval] at h
  | argument structRet => simp [hval] at h
  | call ops heapAllocating => simp [hval] at h
  | other ops => simp [hval] at h

/-- The uses of the root leave the work list empty. -/
theorem foldlM_visitUse (hroot : IsRoot G Root) (us : List (V × ℕ)) (hus : ∀ Use ∈ us, Use ∈ G.uses Root)
    (hnodup : us.Nodup) (hWL : s.WL = []) (hseen : ∀ u ∈ s.Seen, u = Root ∨ (u, 0) ∉ us) :
    (us.foldlM (G.visitUse Root) s = none ∧ ∃ Use ∈ us, G.EndsAt Root Use) ∨
      ∃ s', us.foldlM (G.visitUse Root) s = some s' ∧ s'.WL = [] ∧ ∀ Use ∈ us, ¬G.EndsAt Root Use := by
  induction us generalizing s with
  | nil => exact Or.inr ⟨s, rfl, hWL, fun Use h => by cases h⟩
  | cons Use us ih =>
    rw [List.nodup_cons] at hnodup
    rw [List.foldlM_cons]
    by_cases hends : G.EndsAt Root Use
    · rw [visitUse_of_endsAt hends]
      exact Or.inl ⟨rfl, Use, List.mem_cons_self, hends⟩
    · have hfresh : ∀ u ∈ s.Seen, u = Root ∨ (u, 0) ≠ Use := fun u hu =>
        (hseen u hu).imp_right fun h heq => h (heq ▸ List.mem_cons_self)
      have hnext : ∃ s₁ : Search V, G.visitUse Root s Use = some s₁ ∧ s₁.WL = [] ∧
          ∀ u ∈ s₁.Seen, u = Root ∨ (u, 0) ∉ us := by
        have hkept : ∀ u ∈ s.Seen, u = Root ∨ (u, 0) ∉ us := fun u hu =>
          (hseen u hu).imp_right fun h hmem => h (List.mem_cons_of_mem _ hmem)
        rcases visitUse_of_not_endsAt hroot (hus _ List.mem_cons_self) hfresh hends with h | ⟨hzero, h⟩
        · exact ⟨s, h, hWL, hkept⟩
        · refine ⟨_, h, hWL, fun u hu => ?_⟩
          rcases List.mem_cons.1 hu with rfl | hu
          · have hUse : (Use.1, 0) = Use := Prod.ext rfl hzero.symm
            exact Or.inr fun hmem => hnodup.1 (hUse ▸ hmem)
          · exact hkept u hu
      obtain ⟨s₁, hs₁, hWL₁, hseen₁⟩ := hnext
      rw [hs₁]
      rcases ih (fun Use h => hus Use (List.mem_cons_of_mem _ h)) hnodup.2 hWL₁ hseen₁ with
        ⟨h, Use', hmem, hends'⟩ | ⟨s', h, hWL', hnone⟩
      · exact Or.inl ⟨h, Use', List.mem_cons_of_mem _ hmem, hends'⟩
      · refine Or.inr ⟨s', h, hWL', fun Use' hmem => ?_⟩
        rcases List.mem_cons.1 hmem with rfl | hmem
        · exact hends
        · exact hnone Use' hmem

/-- The search ends after the uses of its root. -/
theorem isAddressTakenImpl_eq (hroot : IsRoot G Root) (hn : 2 ≤ n) :
    ∃ b, G.isAddressTakenImpl n Root = .ok b ∧ (b = true ↔ ∃ Use ∈ G.uses Root, G.EndsAt Root Use) := by
  obtain ⟨m, rfl⟩ := Nat.exists_eq_add_of_le' hn
  have hfold := foldlM_visitUse (s := ⟨[], [Root]⟩) hroot (G.uses Root) (fun _ h => h) (G.nodup_uses Root) rfl
    fun u hu => Or.inl (List.mem_singleton.1 hu)
  rcases hfold with ⟨h, hends⟩ | ⟨s', h, hWL, hnone⟩
  · exact ⟨true, WhileLoop.run_of_inr (by rw [step]; simp only [h]), iff_of_true rfl hends⟩
  · have hstep : G.step ⟨[Root], [Root]⟩ = .ok (.inl s') := by
      rw [step]
      simp only [h]
    have hdone : G.step s' = .ok (.inr false) := by
      rw [step]
      simp only [hWL]
    refine ⟨false, (WhileLoop.run_of_inl hstep).trans (WhileLoop.run_of_inr hdone), ?_⟩
    exact iff_of_false Bool.false_ne_true fun ⟨Use, hmem, hends⟩ => hnone Use hmem hends

/-! ### Escapes -/

/-- `u` is a pointer cast of `v`, or a GEP with `v` as its pointer operand. -/
def Derives (G : UseGraph V) (v u : V) : Prop :=
  (G.val u = .cast v ∧ G.ty u ≠ .other) ∨ ∃ indices, G.val u = .gep v indices

/-- A use of `v` that lets nothing escape: a load, a store with `v` as the destination, a debug
intrinsic, a pointer cast, or a GEP with `v` as its pointer operand. -/
def Harmless (G : UseGraph V) (v : V) (Use : V × ℕ) : Prop :=
  (∃ p, G.val Use.1 = .load p) ∨ (∃ w p, G.val Use.1 = .store w p ∧ Use.2 = 1) ∨
    (∃ ops, G.val Use.1 = .dbgInfoIntrinsic ops) ∨ G.Derives v Use.1

/-- No pointer derived from `Var`, the variable included, escapes. -/
def NoEscape (G : UseGraph V) (Var : V) : Prop :=
  ∀ v, Relation.ReflTransGen G.Derives Var v → ∀ Use ∈ G.uses v, G.Harmless v Use

/-- The escapes that the uses of `Var` do not show: of a pointer that is at least one cast or GEP away,
by a cast to an integer, and by a store of `Var` to itself. -/
def HiddenEscape (G : UseGraph V) (Var : V) : Prop :=
  (∃ v, Relation.TransGen G.Derives Var v ∧ ∃ Use ∈ G.uses v, ¬G.Harmless v Use) ∨
    (∃ u, G.val u = .cast Var ∧ G.ty u = .other) ∨ ∃ u, G.val u = .store Var Var

omit [DecidableEq V] in
/-- A use of a variable that does not escape does not end the search. -/
theorem not_endsAt_of_harmless (hty : G.ty v = .pointer) (huse : Use ∈ G.uses v)
    (h : G.Harmless v Use) : ¬G.EndsAt v Use := by
  have hoperand := (G.mem_uses v Use.1 Use.2).1 huse
  unfold EndsAt
  rcases h with ⟨p, h⟩ | ⟨w, p, h, hone⟩ | ⟨ops, h⟩ | ⟨h, -⟩ | ⟨indices, h⟩
  · simp [h]
  · rw [h, hone] at hoperand
    simpa [h] using Option.some.inj hoperand
  · simp [h]
  · simp [h, hty]
  · simp [h]

omit [DecidableEq V] in
/-- A use of a variable that neither ends the search nor is overlooked does not escape. -/
theorem harmless_of_not_endsAt (hty : G.ty v = .pointer) (huse : Use ∈ G.uses v) (h : ¬G.EndsAt v Use)
    (hhidden : ¬G.HiddenEscape v) : G.Harmless v Use := by
  have hoperand := (G.mem_uses v Use.1 Use.2).1 huse
  unfold EndsAt at h
  cases hval : G.val Use.1 with
  | load p => exact Or.inl ⟨p, hval⟩
  | dbgInfoIntrinsic ops => exact Or.inr (Or.inr (Or.inl ⟨ops, hval⟩))
  | store w p =>
    simp only [hval, ne_eq, not_not] at h
    refine Or.inr (Or.inl ⟨w, p, hval, ?_⟩)
    rw [hval, Val.operands] at hoperand
    match hnum : Use.2 with
    | 0 =>
      rw [hnum] at hoperand
      exact absurd (Or.inr (Or.inr ⟨Use.1, hval.trans (by rw [h, ← Option.some.inj hoperand])⟩)) hhidden
    | 1 => rfl
    | k + 2 =>
      rw [hnum] at hoperand
      cases hoperand
  | cast o =>
    have ho : o = v := by
      rw [hval] at hoperand
      exact List.mem_singleton.1 (List.mem_of_getElem? hoperand) |>.symm
    subst ho
    refine Or.inr (Or.inr (Or.inr (Or.inl ⟨hval, fun hother => hhidden ?_⟩)))
    exact Or.inr (Or.inl ⟨_, hval, hother⟩)
  | gep p indices =>
    refine Or.inr (Or.inr (Or.inr (Or.inr ⟨indices, ?_⟩)))
    rw [hval] at hoperand
    rcases List.mem_cons.1 (List.mem_of_getElem? hoperand) with rfl | hmem
    · exact hval
    · -- the indices of a GEP are no pointers
      have hother := (G.ty_gep _ _ _ hval).2 v hmem
      rw [hty] at hother
      cases hother
  | alloca ops => simp [hval] at h
  | argument structRet => simp [hval] at h
  | call ops heapAllocating => simp [hval] at h
  | other ops => simp [hval] at h

omit [DecidableEq V] in
theorem not_noEscape_of_hiddenEscape (h : G.HiddenEscape v) : ¬G.NoEscape v := by
  intro hno
  rcases h with ⟨w, hw, Use, hmem, hharm⟩ | ⟨u, hu, hother⟩ | ⟨u, hu⟩
  · exact hharm (hno w hw.to_reflTransGen Use hmem)
  · have huse : (u, 0) ∈ G.uses v := (G.mem_uses v u 0).2 (by rw [hu]; rfl)
    rcases hno v .refl _ huse with ⟨p, h⟩ | ⟨w, p, h, -⟩ | ⟨ops, h⟩ | ⟨-, h⟩ | ⟨indices, h⟩
    · cases hu.symm.trans h
    · cases hu.symm.trans h
    · cases hu.symm.trans h
    · exact h hother
    · cases hu.symm.trans h
  · have huse : (u, 0) ∈ G.uses v := (G.mem_uses v u 0).2 (by rw [hu]; rfl)
    rcases hno v .refl _ huse with ⟨p, h⟩ | ⟨w, p, -, h⟩ | ⟨ops, h⟩ | ⟨h, -⟩ | ⟨indices, h⟩
    · cases hu.symm.trans h
    · cases h
    · cases hu.symm.trans h
    · cases hu.symm.trans h
    · cases hu.symm.trans h

omit [DecidableEq V] in
theorem noEscape_iff (hty : G.ty v = .pointer) :
    G.NoEscape v ↔ (∀ Use ∈ G.uses v, ¬G.EndsAt v Use) ∧ ¬G.HiddenEscape v := by
  constructor
  · intro h
    refine ⟨fun Use hmem => not_endsAt_of_harmless hty hmem (h v .refl Use hmem), fun hhidden => ?_⟩
    exact not_noEscape_of_hiddenEscape hhidden h
  · rintro ⟨hends, hhidden⟩ w hw Use hmem
    rcases Relation.reflTransGen_iff_eq_or_transGen.1 hw with rfl | hw
    · exact harmless_of_not_endsAt hty hmem (hends Use hmem) hhidden
    · by_contra hharm
      exact hhidden (Or.inl ⟨w, hw, Use, hmem, hharm⟩)

omit [DecidableEq V] in
theorem isRoot_of_isAllocationSiteOrSimilar (h : G.isAllocationSiteOrSimilar v = true) : IsRoot G v := by
  constructor
  · intro o hval
    simp [isAllocationSiteOrSimilar, hval] at h
  · intro p indices hval
    simp [isAllocationSiteOrSimilar, hval] at h

/-- **No escape of an allocation site is overlooked if and only if it has no hidden escape, or one of
its own uses ends the search.** The search needs two iterations. -/
theorem escapes_noticed_iff (G : UseGraph V) (Var : V) (hsite : G.isAllocationSiteOrSimilar Var = true)
    (hty : G.ty Var = .pointer) (n : ℕ) (hn : 2 ≤ n) :
    (∃ b, G.isAddressTakenVariable n (some Var) = .ok b ∧ (b = false → G.NoEscape Var)) ↔
      (G.HiddenEscape Var → ∃ Use ∈ G.uses Var, G.EndsAt Var Use) := by
  obtain ⟨b, hb, hiff⟩ := isAddressTakenImpl_eq (isRoot_of_isAllocationSiteOrSimilar hsite) hn
  have htaken : G.isAddressTakenVariable n (some Var) = .ok b := by
    rw [isAddressTakenVariable, if_pos hsite, hb]
  constructor
  · rintro ⟨b', hb', h⟩ hhidden
    obtain rfl := Except.ok.inj (htaken.symm.trans hb')
    refine hiff.1 (by_contra fun hb => ?_)
    exact ((noEscape_iff hty).1 (h (Bool.not_eq_true _ ▸ hb))).2 hhidden
  · intro h
    refine ⟨b, htaken, fun hfalse => (noEscape_iff hty).2 ?_⟩
    have hnone : ¬∃ Use ∈ G.uses Var, G.EndsAt Var Use := fun hends => by
      rw [hiff.2 hends] at hfalse
      cases hfalse
    exact ⟨fun Use hmem hends => hnone ⟨Use, hmem, hends⟩, fun hhidden => hnone (h hhidden)⟩

/-! ### A field that escapes -/

/-- An allocation (0), a GEP on it (1), and a call (2) that gets the field. -/
def escapingField : UseGraph ℕ where
  val v := if v = 0 then .alloca [] else if v = 1 then .gep 0 [] else if v = 2 then .call [1] false
    else .argument false
  ty v := if v ≤ 1 then .pointer else .other
  uses v := if v = 0 then [(1, 0)] else if v = 1 then [(2, 0)] else []
  mem_uses v u n := by
    by_cases h1 : u = 1
    · subst h1
      rcases n with _ | n <;> by_cases h0 : v = 0 <;> simp [Val.operands, h0, eq_comm]
    · by_cases h2 : u = 2
      · subst h2
        rcases n with _ | n <;> by_cases h0 : v = 0 <;> simp [Val.operands, h0, eq_comm]
      · have hops : (if u = 0 then Val.alloca [] else if u = 1 then .gep 0 [] else if u = 2 then .call [1] false
            else .argument false).operands = ([] : List ℕ) := by
          split_ifs <;> rfl
        rw [hops]
        split_ifs <;> simp [h1, h2]
  nodup_uses v := by
    split_ifs <;> simp
  ty_gep u p indices h := by
    by_cases h1 : u = 1
    · subst h1
      cases h
      exact ⟨by decide, fun i hi => by cases hi⟩
    · split_ifs at h

theorem escapes_noticed_escapingField :
    (∃ b, escapingField.isAddressTakenVariable 2 (some 0) = .ok b ∧ (b = false → escapingField.NoEscape 0)) ↔
      (escapingField.HiddenEscape 0 → ∃ Use ∈ escapingField.uses 0, escapingField.EndsAt 0 Use) :=
  escapes_noticed_iff escapingField 0 rfl rfl 2 (Nat.le_refl 2)

/-- The field of an allocation is given to a call, and the address counts as not taken. -/
theorem not_escapes_noticed_escapingField :
    escapingField.isAddressTakenVariable 2 (some 0) = .ok false ∧ ¬escapingField.NoEscape 0 := by
  refine ⟨rfl, fun h => ?_⟩
  have hderives : escapingField.Derives 0 1 := Or.inr ⟨[], rfl⟩
  rcases h 1 (.single hderives) (2, 0) (by decide) with ⟨p, h⟩ | ⟨w, p, h, -⟩ | ⟨ops, h⟩ | ⟨h, -⟩ | ⟨idx, h⟩
  all_goals cases h

end UseGraph

end AddressTaken

end Phasar
