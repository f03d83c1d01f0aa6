import Phasar.Lib.WorkList
import Mathlib.Data.List.Nodup
import Mathlib.Logic.Function.Basic

/-!
# `ArraySetDriver`

The work list of two vectors: one is traversed while the other takes what is pushed. Together they
are a queue without duplicates, and the traversal hands out its items from the front.

* `ArraySet`, `ArraySet.insert`, `ArraySet.foreachStep`;
* `ArraySet.queue`, `InStep`: the queue holds the pending items;
* `steps_foreachStep_inStep`, `exists_hand_of_pending`.
-/

namespace Phasar.MonoIfds

open WorkList

/-- `ArraySet`. The two vectors have the indices `false` and `true`. -/
structure ArraySet (T : Type*) where
  vecs : Bool → List T
  insertIndex : Bool
  iterIdx : ℕ

namespace ArraySet

variable {T : Type*}

def new : ArraySet T := ⟨fun _ => [], false, 0⟩

def empty (S : ArraySet T) : Bool := (S.vecs false).isEmpty && (S.vecs true).isEmpty

/-- The part of the traversed vector that comes after the current item. -/
def unvisited (S : ArraySet T) : List T := (S.vecs !S.insertIndex).drop (S.iterIdx + 1)

variable [DecidableEq T]

def insert (S : ArraySet T) (v : T) : ArraySet T :=
  if v ∈ S.vecs S.insertIndex ∨ v ∈ S.unvisited then S
  else { S with vecs := Function.update S.vecs S.insertIndex (S.vecs S.insertIndex ++ [v]) }

def advance (S : ArraySet T) : ArraySet T := { S with iterIdx := S.iterIdx + 1 }

/-- Clear the traversed vector, and let the vectors change their roles. -/
def swap (S : ArraySet T) : ArraySet T where
  vecs := Function.update S.vecs (!S.insertIndex) []
  insertIndex := !S.insertIndex
  iterIdx := 0

/-- A call of the body, whose pushes depend on all that happened before. -/
def visit (body : List (Event T) → List T) (r : Run (ArraySet T) T) (x : T) : Run (ArraySet T) T :=
  let events := r.events ++ [.hand x]
  let r := Run.pushAll insert ⟨r.driver, events⟩ (body events)
  ⟨r.driver.advance, r.events⟩

/-- A step of the loops of `foreach`. -/
def foreachStep (body : List (Event T) → List T) (r : Run (ArraySet T) T) :
    Outcome (Run (ArraySet T) T) :=
  let S := r.driver
  match (S.vecs !S.insertIndex)[S.iterIdx]? with
  | some x => .running (visit body r x)
  | none =>
    if (S.swap.vecs !S.swap.insertIndex).isEmpty then .returned ⟨S.swap, r.events⟩
    else .running ⟨S.swap, r.events⟩

/-- The items in the order in which they are handed out, between two calls of the body. -/
def queue (S : ArraySet T) : List T := (S.vecs !S.insertIndex).drop S.iterIdx ++ S.vecs S.insertIndex

/-- What `foreach` hands out after the call of the body that is going on. -/
def queueInBody (S : ArraySet T) : List T := S.unvisited ++ S.vecs S.insertIndex

theorem unvisited_insert (S : ArraySet T) (v : T) : (S.insert v).unvisited = S.unvisited := by
  unfold insert
  split_ifs with h
  · rfl
  · exact congrArg (List.drop (S.iterIdx + 1)) (Function.update_of_ne (by simp) _ _)

/-- `insert` appends an item to the queue that it does not hold. -/
theorem queueInBody_insert (S : ArraySet T) (v : T) : (S.insert v).queueInBody =
    if v ∈ S.queueInBody then S.queueInBody else S.queueInBody ++ [v] := by
  have hmem : v ∈ S.queueInBody ↔ v ∈ S.vecs S.insertIndex ∨ v ∈ S.unvisited := by
    rw [queueInBody, List.mem_append, or_comm]
  unfold queueInBody at hmem ⊢
  rw [unvisited_insert]
  by_cases h : v ∈ S.vecs S.insertIndex ∨ v ∈ S.unvisited
  · rw [if_pos (hmem.2 h), insert, if_pos h]
  · rw [if_neg fun hv => h (hmem.1 hv), insert, if_neg h, List.append_assoc]
    exact congrArg (S.unvisited ++ ·) (Function.update_self _ _ _)

end ArraySet

/-! ### The queue and the events -/

variable {T : Type*} {q : List T} {es : List (Event T)} {x : T}

/-- A queue without duplicates holds the pending items, and only pending items were handed out. -/
structure InStep (q : List T) (es : List (Event T)) : Prop where
  nodup : q.Nodup
  pending : ∀ x, x ∈ q ↔ Pending es x
  hands : HandsOut Pending es

theorem inStep_nil : InStep ([] : List T) [] where
  nodup := List.nodup_nil
  pending _ := iff_of_false List.not_mem_nil not_pending_nil
  hands := handsOut_nil

theorem InStep.hand (h : InStep (x :: q) es) : InStep q (es ++ [.hand x]) where
  nodup := h.nodup.of_cons
  pending y := by
    rw [pending_hand, ← h.pending, List.mem_cons]
    constructor
    · intro hy
      refine ⟨?_, Or.inr hy⟩
      rintro rfl
      exact h.nodup.notMem hy
    · rintro ⟨hne, rfl | hy⟩
      · exact absurd rfl hne
      · exact hy
  hands := handsOut_hand.2 ⟨h.hands, (h.pending x).1 List.mem_cons_self⟩

variable [DecidableEq T]

theorem InStep.push (h : InStep q es) (x : T) :
    InStep (if x ∈ q then q else q ++ [x]) (es ++ [.push x]) := by
  split_ifs with hx
  · refine ⟨h.nodup, fun y => ?_, handsOut_push.2 h.hands⟩
    rw [pending_push, ← h.pending]
    exact ⟨Or.inr, fun hy => hy.elim (fun hyx => hyx ▸ hx) id⟩
  · refine ⟨?_, fun y => ?_, handsOut_push.2 h.hands⟩
    · rw [← List.concat_eq_append]
      exact h.nodup.concat hx
    · rw [pending_push, ← h.pending, List.mem_append, List.mem_singleton, or_comm]

/-- What a body pushes is appended to the queue. -/
theorem pushAll_insert (xs : List T) {r : Run (ArraySet T) T}
    (h : InStep r.driver.queueInBody r.events) :
    InStep (r.pushAll ArraySet.insert xs).driver.queueInBody
        (r.pushAll ArraySet.insert xs).events ∧
      ∃ new, (r.pushAll ArraySet.insert xs).driver.queueInBody = r.driver.queueInBody ++ new := by
  induction xs generalizing r with
  | nil => exact ⟨h, [], (List.append_nil _).symm⟩
  | cons x xs ih =>
    have hx : InStep (r.driver.insert x).queueInBody (r.events ++ [.push x]) := by
      rw [ArraySet.queueInBody_insert]
      exact h.push x
    obtain ⟨hin, new, hnew⟩ := ih (r := ⟨r.driver.insert x, r.events ++ [.push x]⟩) hx
    have hfirst : ∃ first, (r.driver.insert x).queueInBody = r.driver.queueInBody ++ first := by
      rw [ArraySet.queueInBody_insert]
      split_ifs
      · exact ⟨[], (List.append_nil _).symm⟩
      · exact ⟨[x], rfl⟩
    obtain ⟨first, hfirst⟩ := hfirst
    refine ⟨hin, first ++ new, ?_⟩
    rw [← List.append_assoc, ← hfirst]
    exact hnew

/-! ### The traversal -/

variable {body : List (Event T) → List T} {r r' : Run (ArraySet T) T}

/-- The body is called for the front of the queue, and what it pushes is appended. -/
theorem foreachStep_visit (body : List (Event T) → List T) (h : InStep r.driver.queue r.events)
    (hx : (r.driver.vecs !r.driver.insertIndex)[r.driver.iterIdx]? = some x) :
    ∃ rest new e r', ArraySet.foreachStep body r = .running r' ∧ r.driver.queue = x :: rest ∧
      r'.driver.queue = rest ++ new ∧ r'.events = r.events ++ .hand x :: e ∧
        InStep r'.driver.queue r'.events := by
  have hqueue : r.driver.queue = x :: r.driver.queueInBody := by
    obtain ⟨hlt, hget⟩ := List.getElem?_eq_some_iff.1 hx
    rw [ArraySet.queue, List.drop_eq_getElem_cons hlt, hget]
    rfl
  rw [hqueue] at h
  obtain ⟨hin, new, hnew⟩ :=
    pushAll_insert (body (r.events ++ [.hand x])) (r := ⟨r.driver, r.events ++ [.hand x]⟩) h.hand
  refine ⟨r.driver.queueInBody, new, (body (r.events ++ [.hand x])).map .push,
    ArraySet.visit body r x, ?_, hqueue, hnew, ?_, hin⟩
  · rw [ArraySet.foreachStep, hx]
  · exact (Run.events_pushAll _ _ _).trans (List.append_assoc _ _ _)

omit [DecidableEq T] in
theorem queue_of_exhausted {S : ArraySet T} (hx : (S.vecs !S.insertIndex)[S.iterIdx]? = none) :
    S.queue = S.vecs S.insertIndex := by
  rw [ArraySet.queue, List.drop_eq_nil_of_le (List.getElem?_eq_none_iff.1 hx), List.nil_append]

omit [DecidableEq T] in
theorem vecs_swap (S : ArraySet T) :
    S.swap.vecs S.swap.insertIndex = [] ∧
      (S.swap.vecs !S.swap.insertIndex) = S.vecs S.insertIndex := by
  refine ⟨Function.update_self _ _ _, ?_⟩
  change Function.update S.vecs (!S.insertIndex) [] (!!S.insertIndex) = S.vecs S.insertIndex
  rw [Bool.not_not, Function.update_of_ne (by simp)]

omit [DecidableEq T] in
theorem queue_swap (S : ArraySet T) : S.swap.queue = S.vecs S.insertIndex := by
  rw [ArraySet.queue, (vecs_swap S).1, (vecs_swap S).2, List.append_nil]
  rfl

/-- The loop is left if both vectors are exhausted. -/
theorem foreachStep_swap
    (hx : (r.driver.vecs !r.driver.insertIndex)[r.driver.iterIdx]? = none) :
    ArraySet.foreachStep body r =
      if r.driver.queue = [] then .returned ⟨r.driver.swap, r.events⟩
      else .running ⟨r.driver.swap, r.events⟩ := by
  rw [queue_of_exhausted hx, ArraySet.foreachStep, hx]
  simp only [(vecs_swap r.driver).2, List.isEmpty_iff]

/-- `ArraySetDriver::push` of the items that are there from the start. -/
def ArraySet.start (initial : List T) : Run (ArraySet T) T :=
  Run.pushAll ArraySet.insert ⟨ArraySet.new, []⟩ initial

/-- Before the traversal, the traversed vector is empty. -/
theorem vecs_pushAll_insert (xs : List T) {r : Run (ArraySet T) T}
    (h : (r.driver.vecs !r.driver.insertIndex) = []) :
    ((Run.pushAll ArraySet.insert r xs).driver.vecs
      !(Run.pushAll ArraySet.insert r xs).driver.insertIndex) = [] := by
  induction xs generalizing r with
  | nil => exact h
  | cons x xs ih =>
    refine ih (r := ⟨r.driver.insert x, r.events ++ [.push x]⟩) ?_
    change ((r.driver.insert x).vecs !(r.driver.insert x).insertIndex) = []
    unfold ArraySet.insert
    split_ifs
    · exact h
    · exact (Function.update_of_ne (by simp) _ _).trans h

theorem inStep_start (initial : List T) :
    InStep (ArraySet.start initial).driver.queue (ArraySet.start initial).events := by
  have hnew : InStep (ArraySet.new (T := T)).queueInBody [] := inStep_nil
  have h := (pushAll_insert initial (r := ⟨ArraySet.new, []⟩) hnew).1
  have hvecs := vecs_pushAll_insert initial (r := ⟨ArraySet.new, []⟩) rfl
  unfold ArraySet.queueInBody ArraySet.unvisited at h
  unfold ArraySet.start ArraySet.queue
  rw [hvecs] at h ⊢
  rwa [List.drop_nil] at h ⊢

theorem foreachStep_running (h : InStep r.driver.queue r.events)
    (hr : ArraySet.foreachStep body r = .running r') : InStep r'.driver.queue r'.events := by
  cases hx : (r.driver.vecs !r.driver.insertIndex)[r.driver.iterIdx]? with
  | some x =>
    obtain ⟨rest, new, e, r'', hr'', -, -, -, hin⟩ := foreachStep_visit body h hx
    cases hr''.symm.trans hr
    exact hin
  | none =>
    rw [foreachStep_swap hx] at hr
    split_ifs at hr
    cases hr
    change InStep r.driver.swap.queue r.events
    rwa [queue_swap, ← queue_of_exhausted hx]

/-- In every state between two steps of the traversal the queue holds the pending items. -/
theorem steps_foreachStep_running {n : ℕ} (h : InStep r.driver.queue r.events)
    (hr : steps (ArraySet.foreachStep body) n r = .running r') :
    InStep r'.driver.queue r'.events :=
  steps_invariant (I := fun r => InStep r.driver.queue r.events) (C := fun _ => True)
    (fun _ _ => trivial) (fun h hs _ => foreachStep_running h hs) h hr trivial

/-- When the traversal ends, nothing is pending. -/
theorem steps_foreachStep_returned {n : ℕ} (h : InStep r.driver.queue r.events)
    (hr : steps (ArraySet.foreachStep body) n r = .returned r') :
    r'.driver.empty = true ∧ InStep [] r'.events := by
  obtain ⟨m, s, hs, hret⟩ := exists_step_of_returned hr
  have hin := steps_foreachStep_running h hs
  cases hx : (s.driver.vecs !s.driver.insertIndex)[s.driver.iterIdx]? with
  | some x =>
    obtain ⟨rest, new, e, r'', hr'', -⟩ := foreachStep_visit body hin hx
    cases hr''.symm.trans hret
  | none =>
    rw [foreachStep_swap hx] at hret
    split_ifs at hret with hq
    cases hret
    rw [hq] at hin
    refine ⟨?_, hin⟩
    have hswap := vecs_swap s.driver
    rw [← queue_of_exhausted hx, hq] at hswap
    unfold ArraySet.empty
    cases hi : s.driver.swap.insertIndex <;> rw [hi] at hswap <;> simp_all

/-- The front of the queue is handed out in one step, or in two if the vectors swap first. -/
theorem exists_steps_hand (body : List (Event T) → List T) (h : InStep r.driver.queue r.events)
    {rest : List T} (hq : r.driver.queue = x :: rest) :
    ∃ n r' new e, steps (ArraySet.foreachStep body) n r = .running r' ∧
      r'.driver.queue = rest ++ new ∧ r'.events = r.events ++ .hand x :: e ∧
        InStep r'.driver.queue r'.events := by
  have hvisit : ∀ {s : Run (ArraySet T) T} {y : T}, InStep s.driver.queue s.events →
      (s.driver.vecs !s.driver.insertIndex)[s.driver.iterIdx]? = some y →
        s.driver.queue = x :: rest → ∃ r' new e, ArraySet.foreachStep body s = .running r' ∧
          r'.driver.queue = rest ++ new ∧ r'.events = s.events ++ .hand x :: e ∧
            InStep r'.driver.queue r'.events := by
    intro s y hs hy hsq
    obtain ⟨rest', new, e, r', hr', hfront, hrest, he, hin⟩ := foreachStep_visit body hs hy
    obtain ⟨rfl, rfl⟩ := List.cons.inj (hfront.symm.trans hsq)
    exact ⟨r', new, e, hr', hrest, he, hin⟩
  cases hx : (r.driver.vecs !r.driver.insertIndex)[r.driver.iterIdx]? with
  | some y =>
    obtain ⟨r', new, e, hr', hrest⟩ := hvisit h hx hq
    exact ⟨1, r', new, e, (steps_succ_of_running hr' 0).trans rfl, hrest⟩
  | none =>
    have hswap : ArraySet.foreachStep body r = .running ⟨r.driver.swap, r.events⟩ := by
      rw [foreachStep_swap hx, if_neg (by simp [hq])]
    have hqueue : r.driver.swap.queue = r.driver.queue := by
      rw [queue_swap, queue_of_exhausted hx]
    have hfirst : (r.driver.swap.vecs !r.driver.swap.insertIndex)[r.driver.swap.iterIdx]? =
        some x := by
      rw [(vecs_swap r.driver).2, ← queue_of_exhausted hx, hq]
      rfl
    obtain ⟨r', new, e, hr', hrest⟩ :=
      hvisit (s := ⟨r.driver.swap, r.events⟩) (hqueue ▸ h) hfirst (hqueue.trans hq)
    refine ⟨2, r', new, e, ?_, hrest⟩
    rw [steps_succ_of_running hswap, steps_succ_of_running hr']
    rfl

/-- Every pending item is handed out after finitely many steps, whatever is pushed meanwhile. -/
theorem exists_hand_of_pending (h : InStep r.driver.queue r.events) (hx : Pending r.events x) :
    ∃ n r' e, steps (ArraySet.foreachStep body) n r = .running r' ∧ r'.events = r.events ++ e ∧
      .hand x ∈ e := by
  obtain ⟨pre, post, hq⟩ := List.append_of_mem ((h.pending x).2 hx)
  clear hx
  induction pre generalizing r post with
  | nil =>
    obtain ⟨n, r', new, e, hn, -, he, -⟩ := exists_steps_hand body h hq
    exact ⟨n, r', .hand x :: e, hn, he, List.mem_cons_self⟩
  | cons y pre ih =>
    obtain ⟨n, s, new, e, hn, hs, he, hin⟩ := exists_steps_hand body h hq
    obtain ⟨m, r', e', hm, he', hmem⟩ := ih hin (post ++ new) (by rw [hs]; simp)
    refine ⟨n + m, r', .hand y :: e ++ e', (steps_add m hn).trans hm, ?_, ?_⟩
    · rw [he', he, List.append_assoc]
    · exact List.mem_append_right _ hmem

end Phasar.MonoIfds
