import Mathlib.Data.List.Basic

/-!
# A rule for loops

A loop over a list that keeps an invariant, and in which every element establishes something that the
later elements do not destroy.

* `foldl_establish`: the invariant holds at the end, and so does what each element established;
* `foldl_preserve`: the invariant alone;
* `foldl_collect`: a property that some elements make true, and that stays true;
* `foldlM_rule`: the rule for a loop that may fail;
* `foldlM_range_rule`: its instance for a loop over indices.
-/

namespace LoopRule

variable {σ α : Type*}

theorem foldl_establish {f : σ → α → σ} {I : σ → Prop} {Q : α → σ → Prop} (l : List α)
    (step : ∀ a ∈ l, ∀ s, I s → I (f s a) ∧ Q a (f s a))
    (stable : ∀ a ∈ l, ∀ b ∈ l, ∀ s, I s → Q b s → Q b (f s a)) {s : σ} (h : I s) :
    I (l.foldl f s) ∧ ∀ a ∈ l, Q a (l.foldl f s) := by
  -- what the elements before `t` have established stays established
  have key : ∀ (t done : List α) (s : σ), (∀ a ∈ t, a ∈ l) → (∀ a ∈ done, a ∈ l) → I s →
      (∀ a ∈ done, Q a s) →
      I (t.foldl f s) ∧ ∀ a, a ∈ t ∨ a ∈ done → Q a (t.foldl f s) := by
    intro t
    induction t with
    | nil => exact fun done s _ _ hs hd => ⟨hs, fun a ha => hd a (by simpa using ha)⟩
    | cons a t ih =>
      intro done s ht hdone hs hd
      have ha := ht a List.mem_cons_self
      obtain ⟨hs', hp⟩ := step a ha s hs
      obtain ⟨hI, hall⟩ := ih (a :: done) (f s a) (fun b hb => ht b (List.mem_cons_of_mem a hb))
        (fun b hb => by
          rcases List.mem_cons.1 hb with rfl | hb
          · exact ha
          · exact hdone b hb) hs'
        (fun b hb => by
          rcases List.mem_cons.1 hb with rfl | hb
          · exact hp
          · exact stable a ha b (hdone b hb) s hs (hd b hb))
      refine ⟨hI, fun b hb => hall b ?_⟩
      simp only [List.mem_cons] at hb ⊢
      tauto
  obtain ⟨hI, hall⟩ := key l [] s (fun _ h => h) (by simp) h (by simp)
  exact ⟨hI, fun a ha => hall a (Or.inl ha)⟩

theorem foldl_preserve {f : σ → α → σ} {I : σ → Prop} (l : List α)
    (step : ∀ a ∈ l, ∀ s, I s → I (f s a)) {s : σ} (h : I s) : I (l.foldl f s) :=
  (foldl_establish (Q := fun _ _ => True) l (fun a ha s hs => ⟨step a ha s hs, trivial⟩)
    (fun _ _ _ _ _ _ _ => trivial) h).1

theorem foldl_collect (I Q : σ → Prop) (R : α → Prop) {f : σ → α → σ} (l : List α)
    (hI : ∀ a ∈ l, ∀ s, I s → I (f s a)) (hQ : ∀ a ∈ l, ∀ s, I s → (Q (f s a) ↔ Q s ∨ R a)) {s : σ}
    (hs : I s) : Q (l.foldl f s) ↔ Q s ∨ ∃ a ∈ l, R a := by
  induction l generalizing s with
  | nil => simp
  | cons a l ih =>
    rw [List.foldl_cons, ih (fun b hb => hI b (List.mem_cons_of_mem a hb))
      (fun b hb => hQ b (List.mem_cons_of_mem a hb)) (hI a List.mem_cons_self s hs),
      hQ a List.mem_cons_self s hs, or_assoc]
    simp only [List.mem_cons, exists_eq_or_imp]

/-- A loop that may fail: an invariant of the elements visited and of the state. -/
theorem foldlM_rule {f : σ → α → Option σ} (I : List α → σ → Prop) (l : List α)
    (step : ∀ done a todo s, l = done ++ a :: todo → I done s →
      ∃ s', f s a = some s' ∧ I (done ++ [a]) s') {s : σ} (h : I [] s) :
    ∃ s', l.foldlM f s = some s' ∧ I l s' := by
  have key : ∀ (todo done : List α) (s : σ), l = done ++ todo → I done s →
      ∃ s', todo.foldlM f s = some s' ∧ I l s' := by
    intro todo
    induction todo with
    | nil =>
      intro done s hl hs
      rw [List.append_nil] at hl
      exact ⟨s, rfl, hl ▸ hs⟩
    | cons a todo ih =>
      intro done s hl hs
      obtain ⟨s₁, hs₁, hI⟩ := step done a todo s hl hs
      obtain ⟨s₂, hs₂, hI'⟩ := ih (done ++ [a]) s₁ (by rw [hl, List.append_assoc]; rfl) hI
      refine ⟨s₂, ?_, hI'⟩
      rw [List.foldlM_cons, hs₁]
      exact hs₂
  exact key l [] s rfl h

theorem foldlM_range_rule (f : σ → α → Option σ) (I : ℕ → σ → Prop) (g : ℕ → α) (n : ℕ)
    (step : ∀ k < n, ∀ s, I k s → ∃ s', f s (g k) = some s' ∧ I (k + 1) s') {s : σ} (h : I 0 s) :
    ∃ s', ((List.range n).map g).foldlM f s = some s' ∧ I n s' := by
  induction n with
  | zero => exact ⟨s, rfl, h⟩
  | succ n ih =>
    obtain ⟨s₁, hs₁, hI⟩ := ih fun k hk => step k (Nat.lt_succ_of_lt hk)
    obtain ⟨s₂, hs₂, hI'⟩ := step n (Nat.lt_succ_self n) s₁ hI
    refine ⟨s₂, ?_, hI'⟩
    rw [List.range_succ, List.map_append, List.foldlM_append, hs₁]
    show List.foldlM f s₁ [g n] = some s₂
    rw [List.foldlM_cons, hs₂]
    rfl

end LoopRule
