import Mathlib.Logic.Relation
import Mathlib.Order.Lattice
import Mathlib.Tactic.Common

/-!
# Union-find

A partition with a leader in each class, which changes by joining classes.

* `UnionFind`, `UnionFind.join`, `UnionFind.joinMin`: the leader of a joined class is that of the
  first element, or the smaller one;
* `UnionFind.find_joinAll_iff`: joining pairs one after the other gives the least equivalence relation
  that contains them;
* `UnionFind.Finer`, `UnionFind.foldl_mid`: what joins under the smaller leader keep, in a loop.
-/

/-- A partition with a leader in each class. -/
structure UnionFind (α : Type*) where
  find : α → α
  find_find : ∀ x, find (find x) = find x

namespace UnionFind

variable {α : Type*}

/-- Every element alone. -/
def singletons : UnionFind α := ⟨id, fun _ => rfl⟩

@[simp] theorem find_singletons (x : α) : (singletons : UnionFind α).find x = x := rfl

variable [DecidableEq α]

/-- Join the class of `b` to that of `a`. -/
def join (u : UnionFind α) (a b : α) : UnionFind α where
  find x := if u.find x = u.find b then u.find a else u.find x
  find_find x := by
    by_cases hx : u.find x = u.find b
    · simp [hx, u.find_find]
    · simp [hx, u.find_find]

/-- Join two classes under the smaller leader. -/
def joinMin [LinearOrder α] (u : UnionFind α) (a b : α) : UnionFind α :=
  if u.find a ≤ u.find b then u.join a b else u.join b a

theorem find_join (u : UnionFind α) (a b x : α) :
    (u.join a b).find x = if u.find x = u.find b then u.find a else u.find x := rfl

/-- What a join puts together. -/
theorem find_join_iff (u : UnionFind α) (a b x y : α) :
    (u.join a b).find x = (u.join a b).find y ↔
      u.find x = u.find y ∨ (u.find x = u.find a ∧ u.find y = u.find b) ∨
        (u.find x = u.find b ∧ u.find y = u.find a) := by
  simp only [join]
  split_ifs with hx hy hy <;> grind

theorem find_join_of_find {u : UnionFind α} {x y : α} (a b : α) (h : u.find x = u.find y) :
    (u.join a b).find x = (u.join a b).find y :=
  (u.find_join_iff a b x y).2 (Or.inl h)

theorem find_join_self (u : UnionFind α) (a b : α) : (u.join a b).find a = (u.join a b).find b :=
  (u.find_join_iff a b a b).2 (Or.inr (Or.inl ⟨rfl, rfl⟩))

/-- Join pairs, one after the other. -/
def joinAll (u : UnionFind α) (l : List (α × α)) : UnionFind α :=
  l.foldl (fun u p => u.join p.1 p.2) u

theorem joinAll_cons (u : UnionFind α) (p : α × α) (l : List (α × α)) :
    u.joinAll (p :: l) = (u.join p.1 p.2).joinAll l := rfl

theorem joinAll_append (u : UnionFind α) (l m : List (α × α)) :
    u.joinAll (l ++ m) = (u.joinAll l).joinAll m :=
  List.foldl_append

omit [DecidableEq α] in
/-- What agrees on related elements agrees on equivalent ones. -/
theorem eq_of_eqvGen {r : α → α → Prop} {β : Type*} {f : α → β}
    (h : ∀ x y, r x y → f x = f y) {x y : α} (hxy : Relation.EqvGen r x y) : f x = f y := by
  induction hxy with
  | rel x y hr => exact h x y hr
  | refl x => rfl
  | symm x y _ ih => exact ih.symm
  | trans x y z _ _ ih₁ ih₂ => exact ih₁.trans ih₂

/-- Joining pairs gives the least equivalence relation that contains them and the partition before. -/
theorem find_joinAll_iff (l : List (α × α)) {u : UnionFind α} {x y : α} :
    (u.joinAll l).find x = (u.joinAll l).find y ↔
      Relation.EqvGen (fun a b => (a, b) ∈ l ∨ u.find a = u.find b) x y := by
  induction l generalizing u x y with
  | nil =>
    constructor
    · exact fun h => .rel _ _ (Or.inr h)
    · intro h
      exact eq_of_eqvGen (fun a b hab => hab.resolve_left List.not_mem_nil) h
  | cons p l ih =>
    rw [joinAll_cons, ih]
    constructor
    · intro h
      induction h with
      | rel a b hab =>
        rcases hab with hab | hab
        · exact .rel _ _ (Or.inl (List.mem_cons_of_mem p hab))
        · -- two elements that the join of `p` put together are connected through `p`
          have hp : Relation.EqvGen (fun a b => (a, b) ∈ p :: l ∨ u.find a = u.find b) p.1 p.2 :=
            .rel _ _ (Or.inl List.mem_cons_self)
          rcases (u.find_join_iff p.1 p.2 a b).1 hab with h | ⟨ha, hb⟩ | ⟨ha, hb⟩
          · exact .rel _ _ (Or.inr h)
          · exact .trans _ _ _ (.rel _ _ (Or.inr ha))
              (hp.trans _ _ _ (.rel _ _ (Or.inr hb.symm)))
          · exact .trans _ _ _ (.rel _ _ (Or.inr ha))
              ((hp.symm _ _).trans _ _ _ (.rel _ _ (Or.inr hb.symm)))
      | refl a => exact .refl a
      | symm a b _ ih => exact ih.symm _ _
      | trans a b c _ _ ih₁ ih₂ => exact ih₁.trans _ _ _ ih₂
    · intro h
      induction h with
      | rel a b hab =>
        rcases hab with hab | hab
        · rcases List.mem_cons.1 hab with rfl | hab
          · exact .rel _ _ (Or.inr (u.find_join_self a b))
          · exact .rel _ _ (Or.inl hab)
        · exact .rel _ _ (Or.inr (find_join_of_find _ _ hab))
      | refl a => exact .refl a
      | symm a b _ ih => exact ih.symm _ _
      | trans a b c _ _ ih₁ ih₂ => exact ih₁.trans _ _ _ ih₂

theorem find_joinAll_singletons_iff (l : List (α × α)) {x y : α} :
    (singletons.joinAll l).find x = (singletons.joinAll l).find y ↔
      Relation.EqvGen (fun a b => (a, b) ∈ l) x y := by
  rw [find_joinAll_iff]
  constructor
  · intro h
    induction h with
    | rel a b hab =>
      rcases hab with hab | rfl
      · exact .rel _ _ hab
      · exact .refl _
    | refl a => exact .refl a
    | symm a b _ ih => exact ih.symm _ _
    | trans a b c _ _ ih₁ ih₂ => exact ih₁.trans _ _ _ ih₂
  · exact fun h => h.mono fun a b hab => Or.inl hab

/-! ### Joins under the smaller leader -/

section Finer

variable [LinearOrder α]

omit [DecidableEq α] in
/-- The classes of `u` are parts of classes of `u'`, whose leaders are not larger. -/
structure Finer (u u' : UnionFind α) : Prop where
  same : ∀ {x y}, u.find x = u.find y → u'.find x = u'.find y
  le : ∀ x, u'.find x ≤ u.find x

omit [DecidableEq α] in
theorem Finer.refl (u : UnionFind α) : Finer u u := ⟨id, fun _ => le_rfl⟩

omit [DecidableEq α] in
theorem Finer.trans {u v w : UnionFind α} (h : Finer u v) (h' : Finer v w) : Finer u w :=
  ⟨fun hxy => h'.same (h.same hxy), fun x => (h'.le x).trans (h.le x)⟩

omit [DecidableEq α] in
/-- A leader that is the same at the end was the same in between. -/
theorem Finer.find_eq {u v w : UnionFind α} (h : Finer u v) (h' : Finer v w) {x : α}
    (hx : w.find x = u.find x) : v.find x = u.find x :=
  le_antisymm (h.le x) (hx ▸ h'.le x)

theorem finer_joinMin (u : UnionFind α) (a b : α) : Finer u (u.joinMin a b) := by
  rw [joinMin]
  split_ifs with hle
  · refine ⟨find_join_of_find a b, fun x => ?_⟩
    rw [find_join]
    split_ifs with hx
    · rwa [hx]
    · exact le_rfl
  · refine ⟨find_join_of_find b a, fun x => ?_⟩
    rw [find_join]
    split_ifs with hx
    · rw [hx]
      exact (not_le.1 hle).le
    · exact le_rfl

theorem find_joinMin_iff (u : UnionFind α) (a b x y : α) :
    (u.joinMin a b).find x = (u.joinMin a b).find y ↔
      u.find x = u.find y ∨ (u.find x = u.find a ∧ u.find y = u.find b) ∨
        (u.find x = u.find b ∧ u.find y = u.find a) := by
  rw [joinMin]
  split_ifs
  · exact u.find_join_iff a b x y
  · rw [u.find_join_iff b a x y]
    exact or_congr_right or_comm

theorem find_joinMin_self (u : UnionFind α) (a b : α) :
    (u.joinMin a b).find a = (u.joinMin a b).find b := by
  rw [joinMin]
  split_ifs
  · exact u.find_join_self a b
  · exact (u.find_join_self b a).symm

omit [DecidableEq α] in
theorem finer_foldl {β : Type*} {f : UnionFind α → β → UnionFind α} (hf : ∀ u b, Finer u (f u b)) :
    ∀ (l : List β) (u : UnionFind α), Finer u (l.foldl f u)
  | [], u => .refl u
  | b :: l, u => (hf u b).trans (finer_foldl hf l (f u b))

omit [DecidableEq α] in
/-- Each element of a loop of joins has its step, with the loop before and after it. -/
theorem foldl_mid {β : Type*} {f : UnionFind α → β → UnionFind α} (hf : ∀ u b, Finer u (f u b))
    {b : β} : ∀ {l : List β} (u : UnionFind α), b ∈ l →
      ∃ v, Finer u v ∧ Finer (f v b) (l.foldl f u)
  | c :: l, u, hb => by
    rcases List.mem_cons.1 hb with rfl | hb
    · exact ⟨u, .refl u, finer_foldl hf l (f u b)⟩
    · obtain ⟨v, huv, hv⟩ := foldl_mid hf (f u c) hb
      exact ⟨v, (hf u c).trans huv, hv⟩

end Finer

end UnionFind
