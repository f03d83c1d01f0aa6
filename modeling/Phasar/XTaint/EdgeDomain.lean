import Phasar.ControlFlow.LLVMBasedCFG
import Mathlib.Order.Lattice

/-!
# The sanitizer values of the extended taint analysis

`EdgeDomain`: a value is sanitized, sanitized from an instruction on, or not sanitized. Two sanitizing
instructions are joined by the order of their blocks, else by what follows their blocks.

* `BasicBlockOrdering`, `mustComeBefore`: the order of instructions in a function;
* `EdgeDomain`, `EdgeDomain.join`;
* `Settled`: when the order of the instructions and the successors of their blocks fit together;
* `join_isSemilattice_iff`: the join is that of a semilattice just then.
-/

namespace Phasar.XTaint

variable {Func : Type*} (F : Func → LLVMFunction)

/-- The instructions of a program, each in its function. -/
abbrev Instruction := (f : Func) × (F f).Inst

variable {F} in
def getParent (i : Instruction F) : (f : Func) × Fin (F f).numBlocks := ⟨i.1, i.2.1⟩

variable {F} in
def comesBefore (LHS RHS : Instruction F) : Bool := decide (LHS.2.2.val < RHS.2.2.val)

/-- The dominator trees of the functions. -/
structure BasicBlockOrdering where
  dominates : Instruction F → Instruction F → Bool

/-- A value, over the instructions of a program. -/
inductive EdgeDomain (I : Type*)
  | Bot
  | Top
  | Sanitized
  | WithSanitizer (sani : Option I)
  deriving DecidableEq

def EdgeDomain.getSanitizer {I : Type*} : EdgeDomain I → Option I
  | .WithSanitizer sani => sani
  | _ => none

variable [DecidableEq Func]

variable {F} in
def BasicBlockOrdering.mustComeBefore (BBO : BasicBlockOrdering F) (LHS RHS : Instruction F) : Bool :=
  if LHS.1 ≠ RHS.1 then false
  else if getParent LHS = getParent RHS then comesBefore LHS RHS
  else BBO.dominates LHS RHS

/-- The first instructions of the blocks after the block of an instruction. -/
def succFronts (i : Instruction F) : List (Instruction F) :=
  ((F i.1).successors i.2.1).map fun b => ⟨i.1, (F i.1).front b⟩

/-- `Intersection`: one entry for each edge out of the second block. -/
def intersection (Sani1 Sani2 : Instruction F) : List (Instruction F) :=
  (succFronts F Sani2).filter (· ∈ succFronts F Sani1)

/-- The loops over the successors. -/
def joinBySuccessors (Sani1 Sani2 : Instruction F) : Option (Instruction F) :=
  if Sani2 ∈ succFronts F Sani1 then some Sani2
  -- the second loop returns `Sani2` as well
  else if Sani1 ∈ succFronts F Sani2 then some Sani2
  else
    match intersection F Sani1 Sani2 with
    | [front] => some front
    | _ => none

namespace EdgeDomain

/-- `BBO && BBO->mustComeBefore(..)`. -/
def ordered (BBO : Option (BasicBlockOrdering F)) (Sani1 Sani2 : Instruction F) : Bool :=
  BBO.any (·.mustComeBefore Sani1 Sani2)

/-- The join; a sanitizer that is not known is `nullptr`. -/
def join (BBO : Option (BasicBlockOrdering F)) (This Other : EdgeDomain (Instruction F)) :
    EdgeDomain (Instruction F) :=
  if This = Other then This
  else if This = .Top then Other
  else if Other = .Top then This
  else if This = .Bot ∨ Other = .Bot then .Bot
  else if This = .Sanitized then Other
  else if Other = .Sanitized then This
  else
    match This.getSanitizer, Other.getSanitizer with
    | some Sani1, some Sani2 =>
      if Sani1.1 ≠ Sani2.1 then .WithSanitizer none
      else if ordered F BBO Sani1 Sani2 then .WithSanitizer (some Sani1)
      else if ordered F BBO Sani2 Sani1 then .WithSanitizer (some Sani2)
      else .WithSanitizer (joinBySuccessors F Sani1 Sani2)
    | _, _ => .WithSanitizer none

/-- The laws of a join with a neutral and an absorbing value. -/
structure IsJoinSemilattice {α : Type*} (join : α → α → α) (top bottom : α) : Prop where
  comm : ∀ x y, join x y = join y x
  assoc : ∀ x y z, join (join x y) z = join x (join y z)
  idem : ∀ x, join x x = x
  top_join : ∀ x, join top x = x
  join_top : ∀ x, join x top = x
  bottom_join : ∀ x, join bottom x = bottom
  join_bottom : ∀ x, join x bottom = bottom

/-! ### Sanitizers -/

/-- The join of two values that are sanitized from an instruction on, or not sanitized. -/
def joinSanitizer (BBO : Option (BasicBlockOrdering F)) (a b : Option (Instruction F)) :
    Option (Instruction F) :=
  if a = b then a
  else
    match a, b with
    | some s, some t =>
      if s.1 ≠ t.1 then none
      else if ordered F BBO s t then some s
      else if ordered F BBO t s then some t
      else joinBySuccessors F s t
    | _, _ => none

variable {F} {BBO : Option (BasicBlockOrdering F)} {x y z : EdgeDomain (Instruction F)}
  {a b : Option (Instruction F)} {s t u m : Instruction F}

@[simp] theorem top_join : join F BBO .Top x = x := by
  cases x <;> simp [join]

@[simp] theorem join_top : join F BBO x .Top = x := by
  cases x <;> simp [join]

@[simp] theorem bot_join : join F BBO .Bot x = .Bot := by
  cases x <;> simp [join]

@[simp] theorem join_bot : join F BBO x .Bot = .Bot := by
  cases x <;> simp [join]

@[simp] theorem sanitized_join_sanitized : join F BBO .Sanitized .Sanitized = .Sanitized := if_pos rfl

@[simp] theorem sanitized_join : join F BBO .Sanitized (.WithSanitizer a) = .WithSanitizer a := by
  simp [join]

@[simp] theorem join_sanitized : join F BBO (.WithSanitizer a) .Sanitized = .WithSanitizer a := by
  simp [join]

@[simp] theorem withSanitizer_join :
    join F BBO (.WithSanitizer a) (.WithSanitizer b) = .WithSanitizer (joinSanitizer F BBO a b) := by
  unfold join joinSanitizer
  by_cases hab : a = b
  · rw [if_pos (congrArg _ hab), if_pos hab]
  · have hne : EdgeDomain.WithSanitizer a ≠ .WithSanitizer b := fun h => hab (EdgeDomain.WithSanitizer.inj h)
    rw [if_neg hne, if_neg hab]
    cases a with
    | none => simp [getSanitizer]
    | some s =>
      cases b with
      | none => simp [getSanitizer]
      | some t =>
        simp only [getSanitizer]
        split_ifs <;> simp_all

/-- The laws are those for sanitizers; the other values are above or below all of them. -/
theorem isJoinSemilattice_iff_joinSanitizer : IsJoinSemilattice (join F BBO) .Top .Bot ↔
    (∀ a b, joinSanitizer F BBO a b = joinSanitizer F BBO b a) ∧
      ∀ a b c, joinSanitizer F BBO (joinSanitizer F BBO a b) c =
        joinSanitizer F BBO a (joinSanitizer F BBO b c) := by
  constructor
  · intro h
    constructor
    · intro a b
      simpa using h.comm (.WithSanitizer a) (.WithSanitizer b)
    · intro a b c
      simpa using h.assoc (.WithSanitizer a) (.WithSanitizer b) (.WithSanitizer c)
  · rintro ⟨hcomm, hassoc⟩
    refine ⟨fun x y => ?_, fun x y z => ?_, fun x => if_pos rfl, fun x => top_join, fun x => join_top,
      fun x => bot_join, fun x => join_bot⟩
    · cases x <;> cases y <;> simp [hcomm]
    · cases x <;> cases y <;> cases z <;> simp [hassoc]

@[simp] theorem ordered_self : ordered F BBO s s = false := by
  cases BBO with
  | none => rfl
  | some BBO => simp [ordered, BasicBlockOrdering.mustComeBefore, comesBefore]

theorem function_eq_of_ordered (h : ordered F BBO s t = true) : s.1 = t.1 := by
  cases BBO with
  | none => exact absurd h (by simp [ordered])
  | some BBO =>
    by_contra hne
    simp [ordered, BasicBlockOrdering.mustComeBefore, hne] at h

theorem ne_of_ordered (h : ordered F BBO s t = true) : s ≠ t := by
  rintro rfl
  rw [ordered_self] at h
  exact Bool.noConfusion h

theorem mem_intersection : m ∈ intersection F s t ↔ m ∈ succFronts F t ∧ m ∈ succFronts F s := by
  rw [intersection, List.mem_filter, decide_eq_true_iff]

@[simp] theorem joinSanitizer_self : joinSanitizer F BBO a a = a := if_pos rfl

@[simp] theorem none_joinSanitizer : joinSanitizer F BBO none a = none := by
  cases a <;> simp [joinSanitizer]

@[simp] theorem joinSanitizer_none : joinSanitizer F BBO a none = none := by
  cases a <;> simp [joinSanitizer]

theorem joinSanitizer_of_function_ne (h : s.1 ≠ t.1) :
    joinSanitizer F BBO (some s) (some t) = none := by
  have hne : some s ≠ some t := fun heq => h (congrArg Sigma.fst (Option.some.inj heq))
  unfold joinSanitizer
  rw [if_neg hne]
  exact if_pos h

theorem joinSanitizer_of_ordered (h : ordered F BBO s t = true) :
    joinSanitizer F BBO (some s) (some t) = some s := by
  have hne : some s ≠ some t := fun heq => ne_of_ordered h (Option.some.inj heq)
  unfold joinSanitizer
  rw [if_neg hne]
  dsimp only
  rw [if_neg (not_not.2 (function_eq_of_ordered h)), if_pos h]

theorem joinSanitizer_of_ordered' (h : ordered F BBO t s = true) (h' : ¬ordered F BBO s t = true) :
    joinSanitizer F BBO (some s) (some t) = some t := by
  have hne : some s ≠ some t := fun heq => ne_of_ordered h (Option.some.inj heq).symm
  unfold joinSanitizer
  rw [if_neg hne]
  dsimp only
  rw [if_neg (not_not.2 (function_eq_of_ordered h).symm), if_neg h', if_pos h]

/-- Two instructions of one function that have no order. -/
structure Unordered (BBO : Option (BasicBlockOrdering F)) (s t : Instruction F) : Prop where
  ne : s ≠ t
  function_eq : s.1 = t.1
  left : ¬ordered F BBO s t = true
  right : ¬ordered F BBO t s = true

theorem Unordered.symm (h : Unordered BBO s t) : Unordered BBO t s :=
  ⟨h.ne.symm, h.function_eq.symm, h.right, h.left⟩

theorem joinSanitizer_of_unordered (h : Unordered BBO s t) :
    joinSanitizer F BBO (some s) (some t) = joinBySuccessors F s t := by
  have hne : some s ≠ some t := fun heq => h.ne (Option.some.inj heq)
  unfold joinSanitizer
  rw [if_neg hne]
  dsimp only
  rw [if_neg (not_not.2 h.function_eq), if_neg h.left, if_neg h.right]

/-- How two instructions can lie. -/
theorem unordered_cases (BBO : Option (BasicBlockOrdering F)) (s t : Instruction F) :
    s = t ∨ s.1 ≠ t.1 ∨ ordered F BBO s t = true ∨
      (ordered F BBO t s = true ∧ ¬ordered F BBO s t = true) ∨ Unordered BBO s t := by
  by_cases hst : s = t
  · exact Or.inl hst
  by_cases hfun : s.1 = t.1
  · by_cases hleft : ordered F BBO s t = true
    · exact Or.inr (Or.inr (Or.inl hleft))
    · by_cases hright : ordered F BBO t s = true
      · exact Or.inr (Or.inr (Or.inr (Or.inl ⟨hright, hleft⟩)))
      · exact Or.inr (Or.inr (Or.inr (Or.inr ⟨hst, hfun, hleft, hright⟩)))
  · exact Or.inr (Or.inl hfun)

theorem joinBySuccessors_eq_left_iff : joinBySuccessors F s t = some s ↔ s = t ∧ t ∈ succFronts F s := by
  unfold joinBySuccessors
  split_ifs with hsucc hpred
  · simp [hsucc, eq_comm]
  · simp only [Option.some.injEq, hsucc, and_false, iff_false]
    rintro rfl
    exact hsucc hpred
  · simp only [hsucc, and_false, iff_false]
    split
    next front hfront =>
      rintro heq
      obtain rfl := Option.some.inj heq
      have hmem : front ∈ intersection F front t := hfront ▸ List.mem_singleton_self front
      exact hpred (mem_intersection.1 hmem).1
    · exact fun heq => absurd heq (by simp)

/-- The join is the first of two sanitizers just when that must come before the other. -/
theorem joinSanitizer_eq_left_iff (hne : s ≠ t) :
    joinSanitizer F BBO (some s) (some t) = some s ↔ ordered F BBO s t = true := by
  rcases unordered_cases BBO s t with h | h | h | h | h
  · exact absurd h hne
  · rw [joinSanitizer_of_function_ne h]
    exact iff_of_false (fun heq => absurd heq (by simp)) fun hord => h (function_eq_of_ordered hord)
  · exact iff_of_true (joinSanitizer_of_ordered h) h
  · rw [joinSanitizer_of_ordered' h.1 h.2]
    exact iff_of_false (fun heq => hne (Option.some.inj heq).symm) h.2
  · rw [joinSanitizer_of_unordered h, joinBySuccessors_eq_left_iff]
    exact iff_of_false (fun heq => hne heq.1) h.left

/-! ### When the join is that of a semilattice -/

/-- The instructions are ordered, and where two of a function are not, the successors of their blocks
give the last instruction before both of them, or there is none: none of the two is the first
instruction after the block of the other. -/
structure Settled (BBO : Option (BasicBlockOrdering F)) : Prop where
  asymm : ∀ s t, ordered F BBO s t = true → ¬ordered F BBO t s = true
  trans : ∀ s t u, ordered F BBO s t = true → ordered F BBO t u = true → ordered F BBO s u = true
  not_successor : ∀ s t, Unordered BBO s t → t ∉ succFronts F s
  front : ∀ s t m, Unordered BBO s t → intersection F s t = [m] →
    ordered F BBO m s = true ∧ ordered F BBO m t = true ∧
      ∀ u, ordered F BBO u s = true → ordered F BBO u t = true → u = m ∨ ordered F BBO u m = true
  nothing : ∀ s t, Unordered BBO s t → (∀ m, intersection F s t ≠ [m]) →
    ∀ u, ordered F BBO u s = true → ¬ordered F BBO u t = true

theorem joinBySuccessors_eq_some_iff (h : t ∉ succFronts F s) (h' : s ∉ succFronts F t) :
    joinBySuccessors F s t = some m ↔ intersection F s t = [m] := by
  unfold joinBySuccessors
  rw [if_neg h, if_neg h']
  split
  next front hfront => simp [hfront]
  next hnot => exact iff_of_false (fun heq => absurd heq (by simp)) (hnot m)

theorem joinBySuccessors_of_mem (h : t ∈ succFronts F s) :
    joinBySuccessors F s t = some t ∧ joinBySuccessors F t s = some s := by
  refine ⟨if_pos h, ?_⟩
  unfold joinBySuccessors
  split_ifs <;> rfl

/-- What the laws say of the order and of the successors. -/
theorem settled_of_laws (hcomm : ∀ a b, joinSanitizer F BBO a b = joinSanitizer F BBO b a)
    (hassoc : ∀ a b c, joinSanitizer F BBO (joinSanitizer F BBO a b) c =
      joinSanitizer F BBO a (joinSanitizer F BBO b c)) : Settled BBO := by
  have hasymm : ∀ s t, ordered F BBO s t = true → ¬ordered F BBO t s = true := by
    intro s t hst hts
    have heq := hcomm (some s) (some t)
    rw [joinSanitizer_of_ordered hst, joinSanitizer_of_ordered hts] at heq
    exact ne_of_ordered hst (Option.some.inj heq)
  have hsucc : ∀ s t, Unordered BBO s t → t ∉ succFronts F s := by
    intro s t h hmem
    have heq := hcomm (some s) (some t)
    rw [joinSanitizer_of_unordered h, joinSanitizer_of_unordered h.symm,
      (joinBySuccessors_of_mem hmem).1, (joinBySuccessors_of_mem hmem).2] at heq
    exact h.ne (Option.some.inj heq).symm
  refine ⟨hasymm, fun s t u hst htu => ?_, hsucc, fun s t m h hm => ?_, fun s t h hnot u hus hut => ?_⟩
  · have hsu : s ≠ u := by
      rintro rfl
      exact hasymm s t hst htu
    rw [← joinSanitizer_eq_left_iff hsu]
    have heq := hassoc (some s) (some t) (some u)
    rwa [joinSanitizer_of_ordered htu, joinSanitizer_of_ordered hst] at heq
  · have hjoin : joinSanitizer F BBO (some s) (some t) = some m := by
      rw [joinSanitizer_of_unordered h]
      exact (joinBySuccessors_eq_some_iff (hsucc s t h) (hsucc t s h.symm)).2 hm
    have hmem : m ∈ intersection F s t := hm ▸ List.mem_singleton_self m
    obtain ⟨hmt, hms⟩ := mem_intersection.1 hmem
    have hne : m ≠ s := by
      rintro rfl
      exact hsucc t m h.symm hmt
    have hne' : m ≠ t := by
      rintro rfl
      exact hsucc s m h hms
    refine ⟨(joinSanitizer_eq_left_iff hne).1 ?_, (joinSanitizer_eq_left_iff hne').1 ?_, fun u hus hut => ?_⟩
    · rw [← hjoin, hcomm, ← hassoc, joinSanitizer_self]
    · rw [← hjoin, hassoc, joinSanitizer_self]
    · by_cases hum : u = m
      · exact Or.inl hum
      · refine Or.inr ((joinSanitizer_eq_left_iff hum).1 ?_)
        rw [← hjoin, ← hassoc, joinSanitizer_of_ordered hus, joinSanitizer_of_ordered hut]
  · have hjoin : joinSanitizer F BBO (some s) (some t) = none := by
      rw [joinSanitizer_of_unordered h, Option.eq_none_iff_forall_ne_some]
      intro m hm
      exact hnot m ((joinBySuccessors_eq_some_iff (hsucc s t h) (hsucc t s h.symm)).1 hm)
    have heq := hassoc (some u) (some s) (some t)
    rw [hjoin, joinSanitizer_of_ordered hus, joinSanitizer_of_ordered hut, joinSanitizer_none] at heq
    exact absurd heq (by simp)

/-- The order of sanitizers, above a value that is not sanitized. -/
def Below (BBO : Option (BasicBlockOrdering F)) (a b : Option (Instruction F)) : Prop :=
  ∀ s, a = some s → ∃ t, b = some t ∧ (s = t ∨ ordered F BBO s t = true)

theorem Settled.joinSanitizer_below (h : Settled BBO) (a b : Option (Instruction F)) :
    Below BBO (joinSanitizer F BBO a b) a ∧ Below BBO (joinSanitizer F BBO a b) b := by
  cases a with
  | none => exact ⟨fun m hm => absurd hm (by simp), fun m hm => absurd hm (by simp)⟩
  | some s =>
    cases b with
    | none => exact ⟨fun m hm => absurd hm (by simp), fun m hm => absurd hm (by simp)⟩
    | some t =>
      rcases unordered_cases BBO s t with rfl | h' | h' | h' | h'
      · rw [joinSanitizer_self]
        exact ⟨fun m hm => ⟨m, hm, Or.inl rfl⟩, fun m hm => ⟨m, hm, Or.inl rfl⟩⟩
      · rw [joinSanitizer_of_function_ne h']
        exact ⟨fun m hm => absurd hm (by simp), fun m hm => absurd hm (by simp)⟩
      · rw [joinSanitizer_of_ordered h']
        refine ⟨fun m hm => ⟨m, hm, Or.inl rfl⟩, fun m hm => ⟨t, rfl, Or.inr ?_⟩⟩
        rwa [← Option.some.inj hm]
      · rw [joinSanitizer_of_ordered' h'.1 h'.2]
        refine ⟨fun m hm => ⟨s, rfl, Or.inr ?_⟩, fun m hm => ⟨m, hm, Or.inl rfl⟩⟩
        rw [← Option.some.inj hm]
        exact h'.1
      · have hfront : ∀ m, joinSanitizer F BBO (some s) (some t) = some m →
            ordered F BBO m s = true ∧ ordered F BBO m t = true := by
          intro m hm
          rw [joinSanitizer_of_unordered h', joinBySuccessors_eq_some_iff (h.not_successor s t h')
            (h.not_successor t s h'.symm)] at hm
          obtain ⟨hms, hmt, -⟩ := h.front s t m h' hm
          exact ⟨hms, hmt⟩
        exact ⟨fun m hm => ⟨s, rfl, Or.inr (hfront m hm).1⟩, fun m hm => ⟨t, rfl, Or.inr (hfront m hm).2⟩⟩

theorem Settled.below_trans (h : Settled BBO) {c : Option (Instruction F)} (hab : Below BBO a b)
    (hbc : Below BBO b c) : Below BBO a c := by
  intro s hs
  obtain ⟨t, ht, hst⟩ := hab s hs
  obtain ⟨u, hu, htu⟩ := hbc t ht
  refine ⟨u, hu, ?_⟩
  rcases hst with rfl | hst
  · exact htu
  · rcases htu with rfl | htu
    · exact Or.inr hst
    · exact Or.inr (h.trans s t u hst htu)

theorem Settled.below_joinSanitizer (h : Settled BBO) {c : Option (Instruction F)} (hca : Below BBO c a)
    (hcb : Below BBO c b) : Below BBO c (joinSanitizer F BBO a b) := by
  intro u hu
  obtain ⟨s, rfl, hus⟩ := hca u hu
  obtain ⟨t, rfl, hut⟩ := hcb u hu
  have hleft : ∀ {v : Instruction F}, joinSanitizer F BBO (some s) (some t) = some v →
      (u = v ∨ ordered F BBO u v = true) →
      ∃ v, joinSanitizer F BBO (some s) (some t) = some v ∧ (u = v ∨ ordered F BBO u v = true) :=
    fun hv huv => ⟨_, hv, huv⟩
  have hfun : ∀ {v : Instruction F}, (u = v ∨ ordered F BBO u v = true) → u.1 = v.1 := by
    rintro v (rfl | huv)
    · rfl
    · exact function_eq_of_ordered huv
  rcases unordered_cases BBO s t with rfl | h' | h' | h' | h'
  · exact hleft joinSanitizer_self hus
  · exact absurd ((hfun hus).symm.trans (hfun hut)) h'
  · exact hleft (joinSanitizer_of_ordered h') hus
  · exact hleft (joinSanitizer_of_ordered' h'.1 h'.2) hut
  · -- `u` comes before both, as they have no order
    have hus' : ordered F BBO u s = true := by
      rcases hus with rfl | hus
      · rcases hut with hut | hut
        · exact absurd hut h'.ne
        · exact absurd hut h'.left
      · exact hus
    have hut' : ordered F BBO u t = true := by
      rcases hut with rfl | hut
      · exact absurd hus' h'.right
      · exact hut
    by_cases hone : ∃ m, intersection F s t = [m]
    · obtain ⟨m, hm⟩ := hone
      refine hleft ?_ ((h.front s t m h' hm).2.2 u hus' hut')
      rw [joinSanitizer_of_unordered h']
      exact (joinBySuccessors_eq_some_iff (h.not_successor s t h') (h.not_successor t s h'.symm)).2 hm
    · exact absurd hut' (h.nothing s t h' (fun m hm => hone ⟨m, hm⟩) u hus')

/-- The join of sanitizers gives their greatest lower bound. -/
abbrev Settled.semilatticeInf (h : Settled BBO) : SemilatticeInf (Option (Instruction F)) where
  le := Below BBO
  lt a b := Below BBO a b ∧ ¬Below BBO b a
  lt_iff_le_not_ge _ _ := Iff.rfl
  le_refl a s hs := ⟨s, hs, Or.inl rfl⟩
  le_trans _ _ _ := h.below_trans
  le_antisymm a b hab hba := by
    cases a with
    | none =>
      cases b with
      | none => rfl
      | some t =>
        obtain ⟨s, hs, -⟩ := hba t rfl
        exact absurd hs (by simp)
    | some s =>
      obtain ⟨t, rfl, hst⟩ := hab s rfl
      obtain ⟨s', hs', hts⟩ := hba t rfl
      obtain rfl := Option.some.inj hs'
      rcases hst with rfl | hst
      · rfl
      · rcases hts with rfl | hts
        · rfl
        · exact absurd hts (h.asymm s t hst)
  inf := joinSanitizer F BBO
  inf_le_left a b := (h.joinSanitizer_below a b).1
  inf_le_right a b := (h.joinSanitizer_below a b).2
  le_inf _ _ _ := h.below_joinSanitizer

theorem isJoinSemilattice_join_iff : IsJoinSemilattice (join F BBO) .Top .Bot ↔ Settled BBO := by
  rw [isJoinSemilattice_iff_joinSanitizer]
  constructor
  · rintro ⟨hcomm, hassoc⟩
    exact settled_of_laws hcomm hassoc
  · intro h
    exact ⟨@inf_comm _ h.semilatticeInf, @inf_assoc _ h.semilatticeInf⟩

/-- Without an order there must be no edge between different instructions. -/
theorem settled_none_iff : Settled (F := F) none ↔
    ∀ f b, ∀ b' ∈ (F f).successors b, b' = b ∧ (F f).dbgInstructions b = [] := by
  constructor
  · intro h f b b' hb'
    have hmem : (⟨f, (F f).front b'⟩ : Instruction F) ∈ succFronts F ⟨f, (F f).terminator b⟩ :=
      List.mem_map_of_mem hb'
    have heq : (⟨f, (F f).terminator b⟩ : Instruction F) = ⟨f, (F f).front b'⟩ := by
      by_contra hne
      exact h.not_successor _ _ ⟨hne, rfl, by simp [ordered], by simp [ordered]⟩ hmem
    have heq' : (F f).terminator b = (F f).front b' := eq_of_heq (Sigma.mk.inj heq).2
    obtain rfl : b = b' := congrArg Sigma.fst heq'
    refine ⟨rfl, List.length_eq_zero_iff.1 ?_⟩
    have hlast := eq_of_heq (Sigma.mk.inj heq').2
    exact congrArg Fin.val hlast
  · intro h
    -- an edge leads from an instruction to itself
    have hself : ∀ s t : Instruction F, t ∈ succFronts F s → t = s := by
      rintro ⟨f, b, i⟩ t ht
      obtain ⟨b', hb', hfront⟩ := List.mem_map.1 ht
      obtain ⟨hb, hnil⟩ := h f b b' hb'
      have hi : i = ⟨0, Nat.succ_pos _⟩ := by
        have hlt : i.val < ((F f).dbgInstructions b).length + 1 := i.isLt
        have hlength := congrArg List.length hnil
        rw [List.length_nil] at hlength
        exact Fin.ext (show i.val = 0 by omega)
      dsimp only at hfront
      rw [← hfront, hb, hi]
      rfl
    refine ⟨fun s t hst => absurd hst (by simp [ordered]), fun s t u hst => absurd hst (by simp [ordered]),
      fun s t hst hmem => hst.ne (hself s t hmem).symm, fun s t m hst hm => ?_,
      fun s t hst hnot u hus => absurd hus (by simp [ordered])⟩
    have hmem : m ∈ intersection F s t := hm ▸ List.mem_singleton_self m
    obtain ⟨hmt, hms⟩ := mem_intersection.1 hmem
    exact absurd ((hself s m hms).symm.trans (hself t m hmt)) hst.ne

/-- The join is that of a semilattice without an order only where no edge leaves a block, but to the
same single instruction; with an order, where that settles all joins. -/
theorem join_isJoinSemilattice_iff (F : Func → LLVMFunction) :
    (IsJoinSemilattice (join F none) .Top .Bot ↔
      ∀ f b, ∀ b' ∈ (F f).successors b, b' = b ∧ (F f).dbgInstructions b = []) ∧
    ∀ BBO, IsJoinSemilattice (join F (some BBO)) .Top .Bot ↔ Settled (some BBO) :=
  ⟨isJoinSemilattice_join_iff.trans settled_none_iff, fun _ => isJoinSemilattice_join_iff⟩

/-- A branch to two blocks that meet again. -/
def diamond : LLVMFunction where
  numBlocks := 4
  dbgInstructions _ := [false]
  successors b :=
    if b.val = 0 then [⟨1, by decide⟩, ⟨2, by decide⟩]
    else if b.val = 3 then []
    else [⟨3, by decide⟩]
  isLazyInitBranch _ := false
  entry_not_successor := by decide

/-- The dominator tree of the diamond. -/
def diamondOrdering : BasicBlockOrdering fun _ : Unit => diamond where
  dominates i _ := decide (i.2.1.val = 0)

/-- The first instruction of a branch. -/
def branchFront : Instruction fun _ : Unit => diamond := ⟨(), diamond.front ⟨1, by decide⟩⟩

/-- The first instruction where the branches meet. -/
def meetFront : Instruction fun _ : Unit => diamond := ⟨(), diamond.front ⟨3, by decide⟩⟩

/-- The second argument is returned, in both orders. -/
theorem join_diamond_not_comm :
    (∀ BBO ∈ [none, some diamondOrdering],
      join _ BBO (.WithSanitizer (some branchFront)) (.WithSanitizer (some meetFront)) =
          .WithSanitizer (some meetFront) ∧
        join _ BBO (.WithSanitizer (some meetFront)) (.WithSanitizer (some branchFront)) =
          .WithSanitizer (some branchFront)) ∧
    ¬∀ BBO : Option (BasicBlockOrdering fun _ : Unit => diamond),
      IsJoinSemilattice (join _ BBO) .Top .Bot := by
  constructor
  · decide
  · intro h
    exact absurd ((h none).comm (.WithSanitizer (some branchFront)) (.WithSanitizer (some meetFront)))
      (by decide)

end EdgeDomain

end Phasar.XTaint
