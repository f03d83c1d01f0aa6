import Phasar.MonoIfds.ArraySetDriver
import Mathlib.Data.Finset.Max
import Mathlib.Data.Fintype.Basic
import Mathlib.Data.List.FinRange

/-!
# `TopoFixpointDriver`

The work list over the items of a control-flow order: a bit for each item, and the greatest item
that is pending. `pop` looks for the next bit below, but never resets the bit of the item that it
hands out.

* `TopoFixpointDriver.push`, `pop`, `runStep`;
* `SafePush`: no item below the pushed one has been handed out;
* `InOrder`, `steps_runStep_inOrder`: then the bits up to the greatest are the pending items;
* `drivers_hand_out_pending`: both drivers.
-/

namespace Phasar.MonoIfds

open WorkList

/-- `TopoFixpointDriver`: the bits that are set, and `Max`, where `⊥` is -1. -/
structure TopoFixpointDriver (n : ℕ) where
  workList : Finset (Fin n)
  max : WithBot (Fin n)
  deriving DecidableEq

namespace TopoFixpointDriver

variable {n : ℕ} {T : Type*}

def new : TopoFixpointDriver n := ⟨∅, ⊥⟩

/-- `push`. The control-flow order numbers the items. -/
def push (order : T ≃ Fin n) (D : TopoFixpointDriver n) (item : T) : TopoFixpointDriver n where
  workList := insert (order item) D.workList
  max := if D.max < order item then order item else D.max

/-- `BitVector::find_prev`. -/
def findPrev (bits : Finset (Fin n)) (i : Fin n) : WithBot (Fin n) := (bits.filter (· < i)).max

/-- `pop`. The bit of the item stays set. -/
def pop (order : T ≃ Fin n) (D : TopoFixpointDriver n) : Option (T × TopoFixpointDriver n) :=
  match D.max with
  | none => none
  | some i => some (order.symm i, ⟨D.workList, findPrev D.workList i⟩)

def empty (D : TopoFixpointDriver n) : Bool := D.max = ⊥

/-- A step of the loop of `run`. -/
def runStep (order : T ≃ Fin n) (handler : List (Event T) → List T)
    (r : Run (TopoFixpointDriver n) T) : Outcome (Run (TopoFixpointDriver n) T) :=
  match r.driver.pop order with
  | none => .returned r
  | some (item, D) =>
    let events := r.events ++ [.hand item]
    .running (Run.pushAll (push order) ⟨D, events⟩ (handler events))

def start (order : T ≃ Fin n) (initial : List T) : Run (TopoFixpointDriver n) T :=
  Run.pushAll (push order) ⟨new, []⟩ initial

/-- The items whose bits are set up to the greatest, in the order in which `pop` yields them. -/
def queue (order : T ≃ Fin n) (D : TopoFixpointDriver n) : List T :=
  ((List.finRange n).reverse.filter fun i => i ∈ D.workList ∧ (i : WithBot (Fin n)) ≤ D.max).map
    order.symm

end TopoFixpointDriver

variable {n : ℕ} {T : Type*} {order : T ≃ Fin n} {D : TopoFixpointDriver n} {es : List (Event T)}
  {x : T}

/-- No pending item has a greater number. -/
def Greatest (order : T ≃ Fin n) (es : List (Event T)) (x : T) : Prop :=
  ∀ y, Pending es y → order y ≤ order x

/-- No item with a smaller number than `x` was pushed before and handed out since. -/
def SafePush (order : T ≃ Fin n) (es : List (Event T)) (x : T) : Prop :=
  ∀ y, .push y ∈ es → Pending es y ∨ order x ≤ order y

/-- The bits up to `Max` are the pending items, and each was handed out as the greatest of them. -/
structure InOrder (order : T ≃ Fin n) (D : TopoFixpointDriver n) (es : List (Event T)) : Prop where
  bits : ∀ x, order x ∈ D.workList ↔ .push x ∈ es
  max_mem : ∀ i : Fin n, D.max = i → i ∈ D.workList
  pending : ∀ x, Pending es x ↔ order x ∈ D.workList ∧ (order x : WithBot (Fin n)) ≤ D.max
  hands : HandsOut Pending es
  greatest : HandsOut (Greatest order) es

theorem inOrder_new : InOrder order .new [] where
  bits x := by simp [TopoFixpointDriver.new]
  max_mem i h := by cases h
  pending x := iff_of_false not_pending_nil (by simp [TopoFixpointDriver.new])
  hands := handsOut_nil
  greatest := handsOut_nil

theorem mem_workList_push {i : Fin n} :
    i ∈ (D.push order x).workList ↔ i = order x ∨ i ∈ D.workList := Finset.mem_insert

/-- After a safe push the pending items are the bits up to the new `Max`. -/
theorem InOrder.push (h : InOrder order D es) (hx : SafePush order es x) :
    InOrder order (D.push order x) (es ++ [.push x]) where
  bits y := by
    rw [mem_workList_push, h.bits, List.mem_append, List.mem_singleton, or_comm,
      order.injective.eq_iff, Event.push.injEq]
  max_mem i hi := by
    rw [mem_workList_push]
    unfold TopoFixpointDriver.push at hi
    split_ifs at hi
    · exact Or.inl (WithBot.coe_injective hi).symm
    · exact Or.inr (h.max_mem i hi)
  pending y := by
    rw [pending_push, mem_workList_push, h.pending, order.injective.eq_iff]
    unfold TopoFixpointDriver.push
    split_ifs with hmax
    · -- a bit between the old and the new `Max` is that of `x`
      constructor
      · rintro (rfl | ⟨hy, hle⟩)
        · exact ⟨Or.inl rfl, le_rfl⟩
        · exact ⟨Or.inr hy, hle.trans hmax.le⟩
      · rintro ⟨rfl | hy, hle⟩
        · exact Or.inl rfl
        · rcases hx y ((h.bits y).1 hy) with hp | hp
          · exact Or.inr ((h.pending y).1 hp)
          · exact Or.inl (order.injective (le_antisymm (WithBot.coe_le_coe.1 hle) hp))
    · constructor
      · rintro (rfl | hy)
        · exact ⟨Or.inl rfl, not_lt.1 hmax⟩
        · exact ⟨Or.inr hy.1, hy.2⟩
      · rintro ⟨rfl | hy, hle⟩
        · exact Or.inl rfl
        · exact Or.inr ⟨hy, hle⟩
  hands := handsOut_push.2 h.hands
  greatest := handsOut_push.2 h.greatest

/-- Only then: a smaller item that was handed out is taken for a pending one. -/
theorem safePush_of_pending (h : InOrder order D es)
    (hx : ∀ y, Pending (es ++ [.push x]) y ↔ order y ∈ (D.push order x).workList ∧
      (order y : WithBot (Fin n)) ≤ (D.push order x).max) : SafePush order es x := by
  intro y hy
  by_cases hlt : order y < order x
  · refine Or.inl ?_
    have hmax : (order x : WithBot (Fin n)) ≤ (D.push order x).max := by
      unfold TopoFixpointDriver.push
      split_ifs with h'
      · exact le_rfl
      · exact not_lt.1 h'
    have hp := (hx y).2 ⟨mem_workList_push.2 (Or.inr ((h.bits y).2 hy)),
      (WithBot.coe_lt_coe.2 hlt).le.trans hmax⟩
    rcases pending_push.1 hp with rfl | hp
    · exact absurd hlt (lt_irrefl _)
    · exact hp
  · exact Or.inr (not_lt.1 hlt)

/-- Handing out the item of `Max` leaves the bits below it. -/
theorem InOrder.hand (h : InOrder order D es) {i : Fin n} (hi : D.max = i) :
    InOrder order ⟨D.workList, TopoFixpointDriver.findPrev D.workList i⟩
      (es ++ [.hand (order.symm i)]) where
  bits x := by
    rw [h.bits, List.mem_append, List.mem_singleton]
    simp
  max_mem j hj := (Finset.mem_filter.1 (Finset.mem_of_max hj)).1
  pending y := by
    have hprev : order y ∈ D.workList → ((order y : WithBot (Fin n)) ≤
        TopoFixpointDriver.findPrev D.workList i ↔ order y < i) := by
      intro hy
      constructor
      · intro hle
        obtain ⟨j, hj, hyj⟩ := WithBot.coe_le_iff.1 hle
        exact hyj.trans_lt (Finset.mem_filter.1 (Finset.mem_of_max hj)).2
      · exact fun hlt => Finset.le_max (Finset.mem_filter.2 ⟨hy, hlt⟩)
    rw [pending_hand, h.pending, hi, WithBot.coe_le_coe, ne_eq, Equiv.eq_symm_apply]
    constructor
    · rintro ⟨hne, hy, hle⟩
      exact ⟨hy, (hprev hy).2 (lt_of_le_of_ne hle hne)⟩
    · rintro ⟨hy, hle⟩
      have hlt := (hprev hy).1 hle
      exact ⟨hlt.ne, hy, hlt.le⟩
  hands := by
    refine handsOut_hand.2 ⟨h.hands, (h.pending _).2 ?_⟩
    rw [order.apply_symm_apply, hi]
    exact ⟨h.max_mem i hi, le_rfl⟩
  greatest := by
    refine handsOut_hand.2 ⟨h.greatest, fun y hy => ?_⟩
    rw [order.apply_symm_apply, ← WithBot.coe_le_coe, ← hi]
    exact ((h.pending y).1 hy).2

/-! ### Runs -/

variable {handler : List (Event T) → List T} {r r' : Run (TopoFixpointDriver n) T}

theorem InOrder.pushAll (xs : List T) (h : InOrder order r.driver r.events)
    (hx : Pushes (SafePush order) (r.pushAll (TopoFixpointDriver.push order) xs).events) :
    InOrder order (r.pushAll (TopoFixpointDriver.push order) xs).driver
      (r.pushAll (TopoFixpointDriver.push order) xs).events := by
  induction xs generalizing r with
  | nil => exact h
  | cons x xs ih =>
    have hsafe : SafePush order r.events x := by
      rw [Run.events_pushAll, List.map_cons, List.append_cons] at hx
      exact (pushes_of_append hx).last
    exact ih (r := ⟨r.driver.push order x, r.events ++ [Event.push x]⟩) (h.push hsafe) hx

theorem runStep_of_bot (h : r.driver.max = ⊥) :
    TopoFixpointDriver.runStep order handler r = .returned r := by
  rw [TopoFixpointDriver.runStep, TopoFixpointDriver.pop, h]

theorem runStep_of_coe {i : Fin n} (h : r.driver.max = i) :
    TopoFixpointDriver.runStep order handler r =
      .running (Run.pushAll (TopoFixpointDriver.push order)
        ⟨⟨r.driver.workList, TopoFixpointDriver.findPrev r.driver.workList i⟩,
          r.events ++ [.hand (order.symm i)]⟩ (handler (r.events ++ [.hand (order.symm i)]))) := by
  rw [TopoFixpointDriver.runStep, TopoFixpointDriver.pop, h]

/-- A step of the loop hands out one item. -/
theorem runStep_running (hr : TopoFixpointDriver.runStep order handler r = .running r') :
    ∃ i : Fin n, r.driver.max = i ∧ r' = Run.pushAll (TopoFixpointDriver.push order)
      ⟨⟨r.driver.workList, TopoFixpointDriver.findPrev r.driver.workList i⟩,
        r.events ++ [.hand (order.symm i)]⟩ (handler (r.events ++ [.hand (order.symm i)])) := by
  induction hmax : r.driver.max using WithBot.recBotCoe with
  | bot =>
    rw [runStep_of_bot hmax] at hr
    cases hr
  | coe i =>
    rw [runStep_of_coe hmax] at hr
    cases hr
    exact ⟨i, rfl, rfl⟩

theorem pushes_of_runStep {P : List (Event T) → T → Prop}
    (hr : TopoFixpointDriver.runStep order handler r = .running r') (h : Pushes P r'.events) :
    Pushes P r.events := by
  obtain ⟨i, -, rfl⟩ := runStep_running hr
  rw [Run.events_pushAll, List.append_assoc] at h
  exact pushes_of_append h

/-- In a run whose pushes are safe the bits up to `Max` are the pending items. -/
theorem steps_runStep_inOrder {m : ℕ} (h : InOrder order r.driver r.events)
    (hr : steps (TopoFixpointDriver.runStep order handler) m r = .running r')
    (hsafe : Pushes (SafePush order) r'.events) : InOrder order r'.driver r'.events := by
  refine steps_invariant (I := fun r => InOrder order r.driver r.events)
    (C := fun r => Pushes (SafePush order) r.events) pushes_of_runStep ?_ h hr hsafe
  intro a b ha hab hb
  obtain ⟨i, hi, rfl⟩ := runStep_running hab
  exact InOrder.pushAll _ (ha.hand hi) hb

/-- The loop ends where no item is pending. -/
theorem runStep_returned (hr : TopoFixpointDriver.runStep order handler r = .returned r') :
    r' = r ∧ r.driver.max = ⊥ := by
  induction hmax : r.driver.max using WithBot.recBotCoe with
  | bot =>
    rw [runStep_of_bot hmax] at hr
    cases hr
    exact ⟨rfl, rfl⟩
  | coe i =>
    rw [runStep_of_coe hmax] at hr
    cases hr

theorem InOrder.not_pending (h : InOrder order D es) (hmax : D.max = ⊥) : ¬ Pending es x := by
  intro hx
  have hle := ((h.pending x).1 hx).2
  rw [hmax] at hle
  exact WithBot.not_coe_le_bot _ hle

theorem inOrder_start {initial : List T}
    (hsafe : Pushes (SafePush order) (TopoFixpointDriver.start order initial).events) :
    InOrder order (TopoFixpointDriver.start order initial).driver
      (TopoFixpointDriver.start order initial).events :=
  InOrder.pushAll (r := ⟨.new, []⟩) initial inOrder_new hsafe

theorem InOrder.inStep (h : InOrder order D es) : InStep (D.queue order) es where
  nodup := by
    refine List.Nodup.map order.symm.injective (List.Nodup.filter _ ?_)
    exact List.nodup_reverse.2 (List.nodup_finRange n)
  pending x := by
    rw [h.pending]
    unfold TopoFixpointDriver.queue
    simp only [List.mem_map, List.mem_filter, List.mem_reverse, List.mem_finRange, true_and,
      decide_eq_true_eq]
    constructor
    · rintro ⟨i, hi, rfl⟩
      rwa [order.apply_symm_apply]
    · exact fun hx => ⟨order x, hx, order.symm_apply_apply x⟩
  hands := h.hands

/-- While an item is pending, only items that come before it are handed out. -/
theorem hand_or_greater {e : List (Event T)} (h : HandsOut (Greatest order) (es ++ e))
    (hx : Pending es x) : .hand x ∈ e ∨ ∀ y, .hand y ∈ e → order x < order y := by
  by_cases hxe : Event.hand x ∈ e
  · exact Or.inl hxe
  refine Or.inr fun y hy => ?_
  obtain ⟨pre, post, rfl⟩ := List.append_of_mem hy
  have hpending : Pending (es ++ pre) x := by
    obtain ⟨first, rest, rfl, hrest⟩ := hx
    refine ⟨first, rest ++ pre, by simp, fun hm => ?_⟩
    rcases List.mem_append.1 hm with hm | hm
    · exact hrest hm
    · exact hxe (List.mem_append_left _ hm)
  have hle := h (es ++ pre) post y (by simp) x hpending
  refine lt_of_le_of_ne hle fun heq => hxe ?_
  rw [order.injective heq]
  exact hy

/-! ### Both drivers -/

/-- What `ArraySetDriver` promises of its runs. -/
structure ArraySet.Correct [DecidableEq T] (handler : List (Event T) → List T) (initial : List T) :
    Prop where
  /-- The queue holds each pending item once, and no other item was handed out. -/
  running : ∀ {m r}, steps (foreachStep handler) m (start initial) = .running r →
    InStep r.driver.queue r.events
  eventually : ∀ {m r x}, steps (foreachStep handler) m (start initial) = .running r →
    Pending r.events x → ∃ k r' e, steps (foreachStep handler) k r = .running r' ∧
      r'.events = r.events ++ e ∧ .hand x ∈ e
  returned : ∀ {m r}, steps (foreachStep handler) m (start initial) = .returned r →
    r.driver.empty = true ∧ HandsOut Pending r.events ∧ ∀ x, ¬ Pending r.events x

/-- What `TopoFixpointDriver` promises of its runs with safe pushes. -/
structure TopoFixpointDriver.Correct (order : T ≃ Fin n) (handler : List (Event T) → List T)
    (initial : List T) : Prop where
  running : ∀ {m r}, steps (runStep order handler) m (start order initial) = .running r →
    Pushes (SafePush order) r.events →
      InStep (r.driver.queue order) r.events ∧ HandsOut (Greatest order) r.events
  /-- A pending item is handed out, unless it waits for greater ones. -/
  eventually : ∀ {m k r r' e x}, steps (runStep order handler) m (start order initial) = .running r →
    steps (runStep order handler) k r = .running r' → r'.events = r.events ++ e →
      Pushes (SafePush order) r'.events → Pending r.events x →
        .hand x ∈ e ∨ ∀ y, .hand y ∈ e → order x < order y
  returned : ∀ {m r}, steps (runStep order handler) m (start order initial) = .returned r →
    Pushes (SafePush order) r.events → r.driver.empty = true ∧ HandsOut Pending r.events ∧
      HandsOut (Greatest order) r.events ∧ ∀ x, ¬ Pending r.events x

theorem pushes_start_of_steps {initial : List T} {m : ℕ} {P : List (Event T) → T → Prop}
    (hr : steps (TopoFixpointDriver.runStep order handler) m
      (TopoFixpointDriver.start order initial) = .running r) (h : Pushes P r.events) :
    Pushes P (TopoFixpointDriver.start order initial).events :=
  steps_backward (C := fun r => Pushes P r.events) pushes_of_runStep hr h

/-- Both drivers hand out exactly what is pending, `TopoFixpointDriver` while its pushes are safe. -/
theorem drivers_hand_out_pending [DecidableEq T] (order : T ≃ Fin n)
    (handler : List (Event T) → List T) (initial : List T) :
    ArraySet.Correct handler initial ∧ TopoFixpointDriver.Correct order handler initial := by
  constructor
  · refine ⟨fun hr => ?_, fun hr hx => ?_, fun hr => ?_⟩
    · exact steps_foreachStep_running (inStep_start initial) hr
    · exact exists_hand_of_pending (steps_foreachStep_running (inStep_start initial) hr) hx
    · obtain ⟨hempty, hin⟩ := steps_foreachStep_returned (inStep_start initial) hr
      exact ⟨hempty, hin.hands, fun x hx => List.not_mem_nil ((hin.pending x).2 hx)⟩
  · refine ⟨fun hr hsafe => ?_, fun {m k r r' e x} hr hk he hsafe hx => ?_, fun hr hsafe => ?_⟩
    · have hin := steps_runStep_inOrder (inOrder_start (pushes_start_of_steps hr hsafe)) hr hsafe
      exact ⟨hin.inStep, hin.greatest⟩
    · have hsafe' := hsafe
      rw [he] at hsafe'
      have hr' : steps (TopoFixpointDriver.runStep order handler) (m + k)
          (TopoFixpointDriver.start order initial) = .running r' := (steps_add k hr).trans hk
      have hin := steps_runStep_inOrder (inOrder_start (pushes_start_of_steps hr' hsafe)) hr' hsafe
      exact hand_or_greater (he ▸ hin.greatest) hx
    · obtain ⟨k, s, hs, hret⟩ := exists_step_of_returned hr
      obtain ⟨rfl, hmax⟩ := runStep_returned hret
      have hin := steps_runStep_inOrder (inOrder_start (pushes_start_of_steps hs hsafe)) hs hsafe
      exact ⟨decide_eq_true hmax, hin.hands, hin.greatest, fun x => hin.not_pending hmax⟩

/-- A handler that answers the first item with the item 2. -/
def pushTwo : List (Event (Fin 7)) → List (Fin 7)
  | [_, _, .hand _] => [2]
  | _ => []

/-- 0 and 1 are pushed, 1 is handed out and pushes 2. After 2 the bit of 1 is found again. -/
theorem handed_out_twice : ¬ ∀ (handler : List (Event (Fin 7)) → List (Fin 7))
    (initial : List (Fin 7)) (m : ℕ) (r : Run (TopoFixpointDriver 7) (Fin 7)),
      steps (TopoFixpointDriver.runStep (Equiv.refl _) handler) m
        (TopoFixpointDriver.start (Equiv.refl _) initial) = .running r →
          HandsOut Pending r.events := by
  intro h
  have hrun : ∃ D, steps (TopoFixpointDriver.runStep (Equiv.refl _) pushTwo) 3
      (TopoFixpointDriver.start (Equiv.refl _) [0, 1]) =
        .running ⟨D, [.push 0, .push 1, .hand 1, .push 2, .hand 2, .hand 1]⟩ := ⟨_, rfl⟩
  obtain ⟨D, hrun⟩ := hrun
  have hands := h pushTwo [0, 1] 3 _ hrun
  have hpending : Pending ([] ++ [.push 0] ++ [.push 1] ++ [.hand 1] ++ [.push 2] ++ [.hand 2])
      (1 : Fin 7) := hands _ [] 1 rfl
  simp only [pending_hand, pending_push, not_pending_nil] at hpending
  simp at hpending

end Phasar.MonoIfds
