import Phasar.Utils.StableVector

/-!
# The call-stack filter

`CallStackPathFilter` keeps the open calls of a path as a linked list whose nodes it owns. A node that
is popped stays where it is until the filter goes back to a state in which it did not exist.

* `isDirectSuccessorOf`: where a call returns to;
* `CallStackPathFilter`: `saveState`, `restoreState`, `saveEdge`, `saveFinalEdge`; reading a node that
  does not exist gives `none`;
* `callStackStep`: what an edge does to the open calls;
* `saveEdge_spec`, `restoreState_holds`, `saveFinalEdge_spec`: the filter knows the open calls.
-/

namespace Phasar.Z3BasedPathSensitivityManager

open StableVector

/-- What the filters read of instructions. -/
structure Instructions (N : Type) where
  /-- The instructions after this one in its block. -/
  nextNodes : N → List N
  isTerminator : N → Bool
  /-- The first instructions of the successors of a terminator. -/
  succFronts : N → List N
  isCallBase : N → Bool
  /-- A call whose called function is known and not only declared. -/
  callsDefinition : N → Bool
  /-- A `ReturnInst` or a `ResumeInst`. -/
  isExit : N → Bool

variable {N : Type}

namespace Instructions

variable [DecidableEq N] (I : Instructions N)

/-- The loop over the instructions after `of`. -/
def directSuccessorLoop (succ : N) : N → List N → Bool
  | of, [] => succ ∈ I.succFronts of
  | _, nxt :: rest =>
    if nxt = succ then true
    else if I.isTerminator nxt then succ ∈ I.succFronts nxt
    else if I.callsDefinition nxt then false
    else directSuccessorLoop succ nxt rest

def isDirectSuccessorOf (succ of : N) : Bool := I.directSuccessorLoop succ of (I.nextNodes of)

/-- What an edge does to the open calls: `none` if it returns to the wrong place. -/
def callStackStep (prev inst : N) (stack : List N) : Option (List N) :=
  if I.isCallBase prev ∧ I.isDirectSuccessorOf inst prev = false then some (prev :: stack)
  else if I.isExit prev then
    match stack with
    | [] => some []
    | cs :: stack => if I.isDirectSuccessorOf inst cs then some stack else none
  else some stack

end Instructions

structure CallStackNode (N : Type) where
  prev : Ptr
  cs : N

structure CallStackPathFilter (N : Type) where
  callStackOwner : StableVector (CallStackNode N) := {}
  callStackSafe : List (ℕ × Ptr) := []
  tos : Ptr := .null
  valid : Bool := true

namespace CallStackPathFilter

def saveState (f : CallStackPathFilter N) : CallStackPathFilter N :=
  { f with callStackSafe := (f.callStackOwner.size, f.tos) :: f.callStackSafe }

def restoreState (f : CallStackPathFilter N) : CallStackPathFilter N :=
  match f.callStackSafe with
  | [] => f
  | (saveCallStackSize, csSave) :: callStackSafe =>
    { callStackOwner := f.callStackOwner.popBackN (f.callStackOwner.size - saveCallStackSize)
      callStackSafe := callStackSafe
      tos := csSave
      valid := true }

def pushCS (cs : N) (f : CallStackPathFilter N) : CallStackPathFilter N :=
  { f with
    callStackOwner := f.callStackOwner.emplaceBack ⟨f.tos, cs⟩
    tos := f.callStackOwner.emplaceBackRef ⟨f.tos, cs⟩ }

/-- The deallocation is deferred. -/
def popCS (f : CallStackPathFilter N) : Option (N × CallStackPathFilter N) :=
  (f.callStackOwner.slots f.tos).map fun node => (node.cs, { f with tos := node.prev })

section

variable [DecidableEq N] (I : Instructions N)

def saveEdge (prev inst : N) (f : CallStackPathFilter N) : Option (CallStackPathFilter N) :=
  if f.valid = false then some f
  else if I.isCallBase prev ∧ I.isDirectSuccessorOf inst prev = false then some (f.pushCS prev)
  else if I.isExit prev then
    -- unbalanced returns are allowed
    if f.tos = .null then some f
    else f.popCS.map fun r =>
      if I.isDirectSuccessorOf inst r.1 then r.2 else { r.2 with valid := false }
  else some f

def saveFinalEdge (prev : Option N) (finalInst : N) (f : CallStackPathFilter N) :
    Option (Bool × CallStackPathFilter N) :=
  if f.valid = false then some (false, f)
  else
    match prev with
    | none => some (true, f)
    | some prev =>
      if I.isExit prev ∧ f.tos ≠ .null then
        f.popCS.map fun r => (I.isDirectSuccessorOf finalInst r.1, r.2)
      else some (true, f)

end

/-! ### The open calls -/

/-- The list of nodes that starts at `tos` holds these calls. -/
def Linked (nodes : List (CallStackNode N)) : Ptr → List N → Prop
  | tos, [] => tos = .null
  | tos, cs :: stack => ∃ (i : ℕ) (node : CallStackNode N), nodes[i]? = some node ∧
      tos = subscriptHelper i ∧ node.cs = cs ∧ Linked nodes node.prev stack

theorem Linked.mono {nodes nodes' : List (CallStackNode N)} (hle : nodes <+: nodes') :
    ∀ {tos : Ptr} {stack : List N}, Linked nodes tos stack → Linked nodes' tos stack
  | _, [], h => h
  | _, _ :: _, ⟨i, node, hi, htos, hcs, h⟩ => by
    obtain ⟨added, rfl⟩ := hle
    have hlt := (List.getElem?_eq_some_iff.1 hi).1
    exact ⟨i, node, (List.getElem?_append_left hlt).trans hi, htos, hcs, h.mono ⟨added, rfl⟩⟩

theorem Linked.null_iff {nodes : List (CallStackNode N)} {tos : Ptr} {stack : List N}
    (h : Linked nodes tos stack) : tos = .null ↔ stack = [] := by
  cases stack with
  | nil => exact iff_of_true h rfl
  | cons cs stack =>
    obtain ⟨i, -, -, rfl, -⟩ := h
    exact iff_of_false (subscriptHelper_ne_null i) (List.cons_ne_nil _ _)

/-- The filter owns the nodes, and knows the open calls unless the path is invalid. -/
structure Holds (f : CallStackPathFilter N) (nodes : List (CallStackNode N))
    (stack : Option (List N)) : Prop where
  owner : Inv nodes f.callStackOwner
  valid : f.valid = stack.isSome
  linked : ∀ calls ∈ stack, Linked nodes f.tos calls

variable {f : CallStackPathFilter N} {nodes nodes' : List (CallStackNode N)}
  {stack stack' : Option (List N)} {calls : List N}

theorem holds_init : Holds ({} : CallStackPathFilter N) [] (some []) :=
  ⟨inv_empty, rfl, fun _ h => by
    cases h
    rfl⟩

theorem Holds.saveState (h : Holds f nodes stack) : Holds f.saveState nodes stack :=
  ⟨h.owner, h.valid, h.linked⟩

theorem Holds.pushCS (h : Holds f nodes (some calls)) (cs : N) :
    Holds (f.pushCS cs) (nodes ++ [⟨f.tos, cs⟩]) (some (cs :: calls)) where
  owner := h.owner.emplaceBack _
  valid := h.valid
  linked calls' hcalls := by
    cases hcalls
    refine ⟨nodes.length, ⟨f.tos, cs⟩, List.getElem?_concat_length, ?_, rfl,
      (h.linked calls rfl).mono (List.prefix_append _ _)⟩
    rw [← h.owner.size]
    exact h.owner.emplaceBackRef_eq _

theorem Holds.popCS {cs : N} (h : Holds f nodes (some (cs :: calls))) :
    ∃ f', f.popCS = some (cs, f') ∧ Holds f' nodes (some calls) ∧
      f'.callStackSafe = f.callStackSafe := by
  obtain ⟨i, node, hi, htos, rfl, hlinked⟩ := h.linked _ rfl
  refine ⟨{ f with tos := node.prev }, ?_, ⟨h.owner, h.valid, ?_⟩, rfl⟩
  · rw [CallStackPathFilter.popCS, htos, h.owner.slots, hi]
    rfl
  · intro calls' hcalls
    cases hcalls
    exact hlinked

theorem Holds.tos_eq_null_iff (h : Holds f nodes (some calls)) : f.tos = .null ↔ calls = [] :=
  (h.linked calls rfl).null_iff

/-- Going back to a saved state: what was added is removed, and the calls that were open then are still
linked. -/
theorem Holds.restoreState {saved : Ptr} {safe : List (ℕ × Ptr)} (h : Holds f nodes' stack')
    (hsafe : f.callStackSafe = (nodes.length, saved) :: safe) (hle : nodes <+: nodes')
    (hlinked : Linked nodes saved calls) :
    Holds f.restoreState nodes (some calls) ∧ f.restoreState.callStackSafe = safe := by
  have hsize := hle.length_le
  have howner := h.owner.popBackN (n := f.callStackOwner.size - nodes.length) (Nat.sub_le _ _)
  rw [h.owner.size, Nat.sub_sub_self hsize, ← List.prefix_iff_eq_take.1 hle, ← h.owner.size] at howner
  rw [CallStackPathFilter.restoreState, hsafe]
  refine ⟨⟨howner, rfl, fun calls' hcalls => ?_⟩, rfl⟩
  cases hcalls
  exact hlinked

variable [DecidableEq N] (I : Instructions N)

theorem Holds.saveEdge (h : Holds f nodes stack) (prev inst : N) :
    ∃ f' nodes', f.saveEdge I prev inst = some f' ∧ nodes <+: nodes' ∧
      Holds f' nodes' (stack.bind (I.callStackStep prev inst)) ∧
      f'.callStackSafe = f.callStackSafe := by
  rw [CallStackPathFilter.saveEdge, h.valid]
  cases stack with
  | none => exact ⟨f, nodes, rfl, List.prefix_rfl, h, rfl⟩
  | some calls =>
    rw [if_neg (by simp), Option.bind_some]
    unfold Instructions.callStackStep
    split_ifs with hcall hexit htos
    · exact ⟨_, _, rfl, List.prefix_append _ _, h.pushCS prev, rfl⟩
    · obtain rfl := h.tos_eq_null_iff.1 htos
      exact ⟨f, nodes, rfl, List.prefix_rfl, h, rfl⟩
    · cases calls with
      | nil => exact absurd (h.tos_eq_null_iff.2 rfl) htos
      | cons cs calls =>
        obtain ⟨f', hpop, hf', hsafe⟩ := h.popCS
        rw [hpop, Option.map_some]
        dsimp only
        split_ifs with hsucc
        · exact ⟨f', nodes, rfl, List.prefix_rfl, hf', hsafe⟩
        · exact ⟨_, nodes, rfl, List.prefix_rfl, ⟨hf'.owner, rfl, fun _ h => by cases h⟩, hsafe⟩
    · exact ⟨f, nodes, rfl, List.prefix_rfl, h, rfl⟩

/-- The edge to the final instruction is in order: no open call returns to the wrong place. -/
def FinalReturnOk (prev finalInst : N) (calls : List N) : Prop :=
  I.isExit prev → ∀ cs ∈ calls.head?, I.isDirectSuccessorOf finalInst cs

theorem Holds.saveFinalEdge (h : Holds f nodes stack) (prev finalInst : N) :
    ∃ b f' calls', f.saveFinalEdge I (some prev) finalInst = some (b, f') ∧ Holds f' nodes calls' ∧
      f'.callStackSafe = f.callStackSafe ∧
      (b = true ↔ ∃ calls ∈ stack, FinalReturnOk I prev finalInst calls) := by
  rw [CallStackPathFilter.saveFinalEdge, h.valid]
  cases stack with
  | none => exact ⟨false, f, none, rfl, h, rfl, by simp⟩
  | some calls =>
    rw [if_neg (by simp)]
    split_ifs with hexit
    · cases calls with
      | nil => exact absurd (h.tos_eq_null_iff.2 rfl) hexit.2
      | cons cs calls =>
        obtain ⟨f', hpop, hf', hsafe⟩ := h.popCS
        refine ⟨_, f', some calls, by rw [hpop]; rfl, hf', hsafe, ?_⟩
        simp [FinalReturnOk, hexit.1]
    · refine ⟨true, f, some calls, rfl, h, rfl, iff_of_true rfl ⟨calls, rfl, fun hprev cs hcs => ?_⟩⟩
      have htos : f.tos = .null := by
        by_contra hne
        exact hexit ⟨hprev, hne⟩
      rw [h.tos_eq_null_iff.1 htos] at hcs
      cases hcs

end CallStackPathFilter

end Phasar.Z3BasedPathSensitivityManager
