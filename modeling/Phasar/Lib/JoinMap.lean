import Mathlib.Order.Lattice

/-!
# Maps that join or replace

On a join-semilattice: the identity, the maps that join a fixed element to their argument, and the
constant maps. They are closed under composition.

`join` is a semilattice with the identity as neutral element, in which a joining map absorbs a constant
one. It is not the pointwise join: composition distributes over it but for the joins of the identity with
a constant map.

* `JoinMap`, `apply`, `comp`, `join`;
* `comp_join_iff`, `join_comp_iff`: when composition distributes over `join`.
-/

namespace Phasar

/-- The identity, the maps `x ↦ x ⊔ a` and the maps `x ↦ a`. -/
inductive JoinMap (α : Type*)
  | ident
  | add (a : α)
  | const (a : α)

namespace JoinMap

variable {α : Type*} [SemilatticeSup α] {f g h : JoinMap α}

def apply : JoinMap α → α → α
  | ident, x => x
  | add a, x => x ⊔ a
  | const a, _ => a

/-- First `f`, then `g`. -/
def comp (f : JoinMap α) : JoinMap α → JoinMap α
  | ident => f
  | const b => const b
  | add b =>
    match f with
    | ident => add b
    | add a => add (a ⊔ b)
    | const a => const (a ⊔ b)

def join : JoinMap α → JoinMap α → JoinMap α
  | ident, g => g
  | f, ident => f
  | const a, const b => const (a ⊔ b)
  | const a, add b => add (a ⊔ b)
  | add a, const b => add (a ⊔ b)
  | add a, add b => add (a ⊔ b)

theorem comp_apply (f g : JoinMap α) (x : α) : (f.comp g).apply x = g.apply (f.apply x) := by
  cases g <;> cases f <;> simp only [comp, apply, sup_assoc]

theorem comp_assoc (f g h : JoinMap α) : (f.comp g).comp h = f.comp (g.comp h) := by
  cases h <;> cases g <;> cases f <;> simp only [comp, sup_assoc]

theorem join_comm (f g : JoinMap α) : f.join g = g.join f := by
  cases f <;> cases g <;> simp only [join, sup_comm]

theorem join_assoc (f g h : JoinMap α) : (f.join g).join h = f.join (g.join h) := by
  cases f <;> cases g <;> cases h <;> simp only [join, sup_assoc]

theorem join_idem (f : JoinMap α) : f.join f = f := by
  cases f <;> simp only [join, sup_idem]

/-- One of the two is the identity, and the other one constant. -/
def Mixes (f g : JoinMap α) (b : α) : Prop := f = ident ∧ g = const b ∨ f = const b ∧ g = ident

theorem comp_join_of_not_mixes (hmix : ∀ b, ¬Mixes f g b) :
    (f.join g).comp h = (f.comp h).join (g.comp h) := by
  cases f with
  | ident =>
    cases g with
    | const b => exact absurd (.inl ⟨rfl, rfl⟩) (hmix b)
    | ident => exact (join_idem _).symm
    | add b => cases h <;> simp [comp, join]
  | const a =>
    cases g with
    | ident => exact absurd (.inr ⟨rfl, rfl⟩) (hmix a)
    | const b => cases h <;> simp [comp, join, sup_comm, sup_left_comm]
    | add b => cases h <;> simp [comp, join, sup_comm, sup_left_comm]
  | add a => cases g <;> cases h <;> simp [comp, join, sup_comm, sup_left_comm]

theorem join_comp_of_not_mixes (hmix : ∀ b, ¬Mixes f g b) :
    h.comp (f.join g) = (h.comp f).join (h.comp g) := by
  cases f with
  | ident =>
    cases g with
    | const b => exact absurd (.inl ⟨rfl, rfl⟩) (hmix b)
    | ident => exact (join_idem _).symm
    | add b => cases h <;> simp [comp, join]
  | const a =>
    cases g with
    | ident => exact absurd (.inr ⟨rfl, rfl⟩) (hmix a)
    | const b => cases h <;> simp [comp, join]
    | add b => cases h <;> simp [comp, join, sup_comm, sup_left_comm]
  | add a => cases g <;> cases h <;> simp [comp, join, sup_comm, sup_left_comm]

omit [SemilatticeSup α] in
theorem Mixes.unique {b b' : α} (hb : Mixes f g b) (hb' : Mixes f g b') : b' = b := by
  rcases hb with ⟨rfl, rfl⟩ | ⟨rfl, rfl⟩ <;> rcases hb' with ⟨hf, hg⟩ | ⟨hf, hg⟩ <;> cases hf <;> cases hg <;> rfl

theorem Mixes.join_eq {b : α} (hmix : Mixes f g b) : f.join g = const b := by
  rcases hmix with ⟨rfl, rfl⟩ | ⟨rfl, rfl⟩ <;> rfl

/-- A constant that is joined to anything is never more than the constant just at the top. -/
theorem forall_sup_eq_iff {a : α} : (∀ x, a = x ⊔ a) ↔ IsTop a :=
  forall_congr' fun _ => eq_comm.trans sup_eq_right

/-- Composition on the right distributes. -/
theorem comp_join_iff : (∀ x, ((f.join g).comp h).apply x = ((f.comp h).join (g.comp h)).apply x) ↔
    ∀ b, Mixes f g b → h = ident ∨ (∃ c, h = const c) ∨ ∃ c, h = add c ∧ IsTop (b ⊔ c) := by
  by_cases hmix : ∃ b, Mixes f g b
  · obtain ⟨b, hb⟩ := hmix
    have hjoin : (f.comp h).join (g.comp h) = (ident.comp h).join ((const b).comp h) := by
      rcases hb with ⟨rfl, rfl⟩ | ⟨rfl, rfl⟩
      · rfl
      · exact join_comm _ _
    rw [hb.join_eq, hjoin]
    cases h with
    | ident => simp [comp, join]
    | const c => simp [comp, join]
    | add c =>
      have hsup : c ⊔ (b ⊔ c) = b ⊔ c := by rw [sup_comm b c, sup_left_idem]
      simp only [comp, join, apply, hsup]
      rw [forall_sup_eq_iff]
      constructor
      · exact fun htop b' hb' => .inr (.inr ⟨c, rfl, by rwa [hb.unique hb']⟩)
      · intro h
        rcases h b hb with h | ⟨_, h⟩ | ⟨c', h, htop⟩ <;> cases h
        exact htop
  · rw [comp_join_of_not_mixes (not_exists.1 hmix)]
    exact iff_of_true (fun _ => rfl) fun b hb => absurd ⟨b, hb⟩ hmix

/-- Composition on the left distributes. -/
theorem join_comp_iff : (∀ x, (h.comp (f.join g)).apply x = ((h.comp f).join (h.comp g)).apply x) ↔
    ∀ b, Mixes f g b → h = ident ∨ (∃ c, h = const c ∧ c ≤ b) ∨ ∃ c, h = add c ∧ IsTop b := by
  by_cases hmix : ∃ b, Mixes f g b
  · obtain ⟨b, hb⟩ := hmix
    have hjoin : (h.comp f).join (h.comp g) = h.join (const b) := by
      rcases hb with ⟨rfl, rfl⟩ | ⟨rfl, rfl⟩
      · rfl
      · exact join_comm _ _
    rw [hb.join_eq, hjoin]
    cases h with
    | ident => simp [comp, join]
    | const c =>
      constructor
      · intro h b' hb'
        exact .inr (.inl ⟨c, rfl, by rw [hb.unique hb']; exact sup_eq_right.1 (h c).symm⟩)
      · intro h x
        rcases h b hb with h | ⟨_, h, hle⟩ | ⟨_, h, -⟩ <;> cases h
        exact (sup_eq_right.2 hle).symm
    | add c =>
      constructor
      · intro h b' hb'
        refine .inr (.inr ⟨c, rfl, fun x => ?_⟩)
        rw [hb.unique hb']
        exact le_sup_left.trans_eq (h x).symm
      · intro h x
        rcases h b hb with h | ⟨_, h, -⟩ | ⟨_, -, htop⟩
        · cases h
        · cases h
        · exact (sup_eq_right.2 (htop x)).symm.trans (congrArg (x ⊔ ·) (sup_eq_right.2 (htop c)).symm)
  · rw [join_comp_of_not_mixes (not_exists.1 hmix)]
    exact iff_of_true (fun _ => rfl) fun b hb => absurd ⟨b, hb⟩ hmix

end JoinMap

end Phasar
