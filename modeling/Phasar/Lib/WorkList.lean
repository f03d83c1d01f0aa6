import Mathlib.Data.List.Basic

/-!
# Work lists

What a work list is for, in terms of the events of a run: items are pushed, and handed to a handler
that pushes more. An item is pending from a push until it is handed out.

* `Event`, `Pending`, `HandsOut`: what holds of every item when it is handed out;
* `Run`, `Run.pushAll`: a driver with the events so far;
* `Outcome`, `steps`: a loop, one step after the other.
-/

namespace Phasar.WorkList

inductive Event (T : Type*)
  | push (x : T)
  | hand (x : T)

variable {T σ : Type*} {es : List (Event T)} {x y : T}

/-- Pushed, and not handed out since. -/
def Pending (es : List (Event T)) (x : T) : Prop :=
  ∃ pre post, es = pre ++ .push x :: post ∧ Event.hand x ∉ post

/-- `P` holds of the events before each item that is handed out, and the item. -/
def HandsOut (P : List (Event T) → T → Prop) (es : List (Event T)) : Prop :=
  ∀ pre post x, es = pre ++ .hand x :: post → P pre x

/-- `P` holds of the events before each push, and the item. -/
def Pushes (P : List (Event T) → T → Prop) (es : List (Event T)) : Prop :=
  ∀ pre post x, es = pre ++ .push x :: post → P pre x

theorem not_pending_nil : ¬ Pending ([] : List (Event T)) x := by
  rintro ⟨pre, post, h, -⟩
  simp at h

/-- One more event comes last, or is the one that is looked for. -/
theorem append_singleton_eq {e e' : Event T} {pre post : List (Event T)}
    (h : es ++ [e] = pre ++ e' :: post) :
    (e' = e ∧ pre = es ∧ post = []) ∨ ∃ post', post = post' ++ [e] ∧ es = pre ++ e' :: post' := by
  rcases List.eq_nil_or_concat post with rfl | ⟨post', e'', rfl⟩
  · have := List.append_inj' h rfl
    exact Or.inl ⟨(List.cons.inj this.2).1.symm, this.1.symm, rfl⟩
  · have h' : es ++ [e] = (pre ++ e' :: post') ++ [e''] := by simpa using h
    have := List.append_inj' h' rfl
    exact Or.inr ⟨post', by rw [(List.cons.inj this.2).1, List.concat_eq_append], this.1⟩

@[simp] theorem pending_push : Pending (es ++ [.push y]) x ↔ x = y ∨ Pending es x := by
  constructor
  · rintro ⟨pre, post, h, hpost⟩
    rcases append_singleton_eq h with ⟨he, -, -⟩ | ⟨post', rfl, hes⟩
    · exact Or.inl (Event.push.inj he)
    · exact Or.inr ⟨pre, post', hes, fun hm => hpost (List.mem_append_left _ hm)⟩
  · rintro (rfl | ⟨pre, post, rfl, hpost⟩)
    · exact ⟨es, [], rfl, List.not_mem_nil⟩
    · exact ⟨pre, post ++ [.push y], by simp, by simpa using hpost⟩

@[simp] theorem pending_hand : Pending (es ++ [.hand y]) x ↔ x ≠ y ∧ Pending es x := by
  constructor
  · rintro ⟨pre, post, h, hpost⟩
    rcases append_singleton_eq h with ⟨he, -, -⟩ | ⟨post', rfl, hes⟩
    · cases he
    · refine ⟨?_, pre, post', hes, fun hm => hpost (List.mem_append_left _ hm)⟩
      rintro rfl
      exact hpost (List.mem_append_right _ (List.mem_singleton_self _))
  · rintro ⟨hne, pre, post, rfl, hpost⟩
    exact ⟨pre, post ++ [.hand y], by simp, by simpa [hne] using hpost⟩

section

variable {P : List (Event T) → T → Prop}

theorem handsOut_nil : HandsOut P [] := by
  intro pre post x h
  simp at h

theorem handsOut_push : HandsOut P (es ++ [.push y]) ↔ HandsOut P es := by
  constructor
  · rintro h pre post x rfl
    exact h pre (post ++ [.push y]) x (by simp)
  · intro h pre post x he
    rcases append_singleton_eq he with ⟨hev, -, -⟩ | ⟨post', -, hes⟩
    · cases hev
    · exact h pre post' x hes

theorem handsOut_hand : HandsOut P (es ++ [.hand y]) ↔ HandsOut P es ∧ P es y := by
  constructor
  · intro h
    refine ⟨?_, h es [] y rfl⟩
    rintro pre post x rfl
    exact h pre (post ++ [.hand y]) x (by simp)
  · rintro ⟨h, hy⟩ pre post x he
    rcases append_singleton_eq he with ⟨hev, rfl, -⟩ | ⟨post', -, hes⟩
    · exact Event.hand.inj hev ▸ hy
    · exact h pre post' x hes

theorem pushes_of_append {es' : List (Event T)} (h : Pushes P (es ++ es')) : Pushes P es := by
  rintro pre post x rfl
  exact h pre (post ++ es') x (by simp)

theorem Pushes.last (h : Pushes P (es ++ [.push y])) : P es y := h es [] y rfl

end

/-- A driver with what happened to it. -/
structure Run (σ T : Type*) where
  driver : σ
  events : List (Event T)

/-- Push items, one after the other. -/
def Run.pushAll (push : σ → T → σ) : Run σ T → List T → Run σ T :=
  List.foldl fun r x => ⟨push r.driver x, r.events ++ [.push x]⟩

theorem Run.events_pushAll (push : σ → T → σ) (r : Run σ T) (xs : List T) :
    (r.pushAll push xs).events = r.events ++ xs.map .push := by
  induction xs generalizing r with
  | nil => exact (List.append_nil _).symm
  | cons x xs ih => exact (ih _).trans (List.append_assoc _ _ _)

/-- A step of a loop: the loop goes on, or it is left. -/
inductive Outcome (α : Type*)
  | running (a : α)
  | returned (a : α)

/-- The first steps of a loop. -/
def steps {α : Type*} (step : α → Outcome α) : ℕ → α → Outcome α
  | 0, a => .running a
  | n + 1, a =>
    match step a with
    | .running a => steps step n a
    | .returned a => .returned a

section

variable {α : Type*} {step : α → Outcome α} {I C : α → Prop}

attribute [local simp] steps in
theorem steps_succ_of_running {a b : α} (h : step a = .running b) (n : ℕ) :
    steps step (n + 1) a = steps step n b := by
  simp [h]

theorem steps_add {a b : α} {m : ℕ} (n : ℕ) (h : steps step m a = .running b) :
    steps step (m + n) a = steps step n b := by
  induction m generalizing a with
  | zero =>
    cases h
    rw [Nat.zero_add]
  | succ m ih =>
    rw [Nat.succ_add]
    cases hs : step a with
    | running c =>
      rw [steps_succ_of_running hs] at h ⊢
      exact ih h
    | returned c =>
      rw [steps, hs] at h
      cases h

theorem steps_backward (hback : ∀ {a b}, step a = .running b → C b → C a) {n : ℕ} {a b : α}
    (h : steps step n a = .running b) (hb : C b) : C a := by
  induction n generalizing a with
  | zero =>
    cases h
    exact hb
  | succ n ih =>
    cases hs : step a with
    | running c =>
      rw [steps_succ_of_running hs] at h
      exact hback hs (ih h)
    | returned c =>
      rw [steps, hs] at h
      cases h

/-- An invariant of the steps that end in `C`, where `C` holds of earlier states too. -/
theorem steps_invariant (hback : ∀ {a b}, step a = .running b → C b → C a)
    (hstep : ∀ {a b}, I a → step a = .running b → C b → I b) {n : ℕ} {a b : α} (ha : I a)
    (h : steps step n a = .running b) (hb : C b) : I b := by
  induction n generalizing a with
  | zero =>
    cases h
    exact ha
  | succ n ih =>
    cases hs : step a with
    | running c =>
      rw [steps_succ_of_running hs] at h
      exact ih (hstep ha hs (steps_backward hback h hb)) h
    | returned c =>
      rw [steps, hs] at h
      cases h

/-- The step that leaves the loop. -/
theorem exists_step_of_returned {n : ℕ} {a b : α} (h : steps step n a = .returned b) :
    ∃ m c, steps step m a = .running c ∧ step c = .returned b := by
  induction n generalizing a with
  | zero => cases h
  | succ n ih =>
    cases hs : step a with
    | running c =>
      rw [steps_succ_of_running hs] at h
      obtain ⟨m, d, hd, hb⟩ := ih h
      exact ⟨m + 1, d, (steps_succ_of_running hs m).trans hd, hb⟩
    | returned c =>
      rw [steps, hs] at h
      cases h
      exact ⟨0, a, rfl, hs⟩

end

end Phasar.WorkList
