import Phasar.CFLFieldSens.AccessPath

/-!
# The algebra of access paths

Without limits and with exact offsets, running steps on a path is a composition of paths: a path `p`
stands for its loads, then its kills, its offset and its stores, in this order.

* `exactStep`, `exactRun`: the steps on paths with integer offsets;
* `consume`, `compose`: what the loads of a path do to pending stores; the composition of two paths;
* `compose_exactRun`: running steps on a composition; `compose_assoc`: composition is associative;
* `SafeStep`, `SafeRun`: the code's computation stays below the limit and within the offsets;
* `applyTransformImpl_eq_compose`: the code composes with `replayed txn`, which is `txn` with its
  offset applied before its loads and kills.
-/

namespace Phasar.CFLFieldSens

/-! ### Kill sets -/

namespace KillSet

/-- All offsets moved by `o`. -/
def shift (K : KillSet) (o : ℤ) : KillSet where
  offsets := K.offsets.map (o + ·)
  sorted := List.pairwise_map.2 (K.sorted.imp fun h => by omega)

/-- The union of two kill sets. -/
def union (K K' : KillSet) : KillSet := K'.offsets.foldl insert K

instance : Union KillSet := ⟨union⟩

@[simp] theorem mem_shift {K : KillSet} {o x : ℤ} : x ∈ K.shift o ↔ x - o ∈ K := by
  show x ∈ K.offsets.map (o + ·) ↔ x - o ∈ K.offsets
  rw [List.mem_map]
  constructor
  · rintro ⟨y, hy, rfl⟩
    rwa [show o + y - o = y by omega]
  · intro h
    exact ⟨x - o, h, by omega⟩

theorem mem_foldl_insert {l : List ℤ} {K : KillSet} {x : ℤ} :
    x ∈ l.foldl insert K ↔ x ∈ K ∨ x ∈ l := by
  induction l generalizing K with
  | nil => simp
  | cons y l ih =>
    rw [List.foldl_cons, ih, mem_insert, List.mem_cons]
    tauto

@[simp] theorem mem_union {K K' : KillSet} {x : ℤ} : x ∈ K ∪ K' ↔ x ∈ K ∨ x ∈ K' :=
  mem_foldl_insert

@[simp] theorem shift_zero (K : KillSet) : K.shift 0 = K := ext fun x => by simp

@[simp] theorem shift_empty (o : ℤ) : empty.shift o = empty := ext fun x => by simp

@[simp] theorem union_empty (K : KillSet) : K ∪ empty = K := ext fun x => by simp

@[simp] theorem empty_union (K : KillSet) : empty ∪ K = K := ext fun x => by simp

theorem shift_injective (o : ℤ) {K K' : KillSet} (h : K.shift o = K'.shift o) : K = K' := by
  refine ext fun x => ?_
  have hx : x + o ∈ K.shift o ↔ x + o ∈ K'.shift o := by rw [h]
  simpa using hx

end KillSet

/-! ### Exact steps -/

/-- A step with exact offsets and no limit. -/
def exactStep (F : AccessPath) : Step → Option AccessPath
  | .gep field =>
    match F.stores with
    | [] => some { F with offset := F.offset + field }
    | head :: next => some { F with stores := (head - field) :: next }
  | .load field =>
    match F.stores with
    | [] =>
      if F.offset + field ∈ F.kills then none
      else some { F with offset := 0, loads := (F.offset + field) :: F.loads, kills := .empty }
    | head :: next => if head = field then some { F with stores := next } else none
  | .kill field =>
    match F.stores with
    | [] => some { F with kills := F.kills.insert (F.offset + field) }
    | head :: _ => if head = field then none else some F
  | .store field => some { F with stores := field :: F.stores }

/-- Exact steps one after another. -/
def exactRun (F : AccessPath) (steps : List Step) : Option AccessPath := steps.foldlM exactStep F

@[simp] theorem exactRun_nil (F : AccessPath) : exactRun F [] = some F := rfl

theorem exactRun_cons (F : AccessPath) (s : Step) (steps : List Step) :
    exactRun F (s :: steps) = (exactStep F s).bind fun F' => exactRun F' steps := rfl

theorem exactRun_append (F : AccessPath) (s t : List Step) :
    exactRun F (s ++ t) = (exactRun F s).bind fun F' => exactRun F' t := by
  simp [exactRun, List.foldlM_append, Option.bind_eq_bind]

/-! ### Composition -/

/-- How far a sequence of loads gets into the pending stores. -/
inductive Consumed
  | mismatch
  | inside (head : ℤ) (next : List ℤ)
  | exact
  | beyond (load : ℤ) (loads : List ℤ)
  deriving DecidableEq

/-- Match loads with stores. -/
def consume : List ℤ → List ℤ → Consumed
  | [], [] => .exact
  | [], head :: next => .inside head next
  | load :: loads, [] => .beyond load loads
  | load :: loads, head :: next => if head = load then consume loads next else .mismatch

/-- One more load. -/
theorem consume_concat (loads stores : List ℤ) (field : ℤ) :
    consume (loads ++ [field]) stores =
      match consume loads stores with
      | .mismatch => .mismatch
      | .inside head next => if head = field then consume [] next else .mismatch
      | .exact => .beyond field []
      | .beyond load loads => .beyond load (loads ++ [field]) := by
  induction loads generalizing stores with
  | nil => rcases stores with _ | ⟨head, next⟩ <;> rfl
  | cons load loads ih =>
    rcases stores with _ | ⟨head, next⟩
    · rfl
    · simp only [List.cons_append, consume]
      split_ifs
      · exact ih next
      · rfl

/-- `x` followed by the loads, kills, offset and stores of `p`. -/
def compose (x p : AccessPath) : Option AccessPath :=
  match consume p.loads.reverse x.stores with
  | .mismatch => none
  | .inside head next =>
    if head ∈ p.kills then none
    else some { x with stores := p.stores ++ (head - p.offset) :: next }
  | .exact => some
    { x with
      kills := x.kills ∪ p.kills.shift x.offset
      offset := x.offset + p.offset
      stores := p.stores }
  | .beyond load loads =>
    if x.offset + load ∈ x.kills then none
    else some { p with loads := loads.reverse ++ (x.offset + load) :: x.loads }

@[simp] theorem compose_epsilon (x : AccessPath) : compose x .epsilon = some x := by
  obtain ⟨loads, stores, kills, offset⟩ := x
  rcases stores with _ | ⟨head, next⟩ <;> simp [compose, consume, AccessPath.epsilon]

/-- The stores `S` on top of those of a path. -/
def AccessPath.push (F : AccessPath) (S : List ℤ) : AccessPath := { F with stores := S ++ F.stores }

/-- The stores of the second path end up on top, whatever the rest does. -/
theorem compose_push (x a : AccessPath) (S : List ℤ) :
    compose x { a with stores := S } = (compose x { a with stores := [] }).map (·.push S) := by
  unfold compose
  dsimp only
  rcases consume a.loads.reverse x.stores with _ | ⟨head, next⟩ | _ | ⟨load, loads⟩
  · rfl
  · dsimp only
    split_ifs
    · rfl
    · rfl
  · simp [AccessPath.push]
  · dsimp only
    split_ifs
    · rfl
    · simp [AccessPath.push]

section Steps

variable (x a : AccessPath) (field : ℤ)

theorem compose_step_stores {a : AccessPath} (s : Step) {head : ℤ} {next : List ℤ}
    (h : a.stores = head :: next) :
    (compose x a).bind (exactStep · s) = (exactStep a s).bind (compose x) := by
  have hx : ∀ S, compose x { a with stores := S } =
      (compose x { a with stores := [] }).map (·.push S) := compose_push x a
  have ha : compose x a = (compose x { a with stores := [] }).map (·.push (head :: next)) := by
    rw [← hx, ← h]
  rw [ha]
  -- all that the step changes is the stores on top
  cases s with
  | gep field =>
    simp only [exactStep, h, Option.bind_some]
    rw [hx ((head - field) :: next)]
    cases compose x { a with stores := [] } <;> rfl
  | load field =>
    simp only [exactStep, h]
    split_ifs with hf
    · rw [Option.bind_some, hx next]
      cases compose x { a with stores := [] }
      · rfl
      · simp [AccessPath.push, hf]
    · cases compose x { a with stores := [] }
      · rfl
      · simp [AccessPath.push, hf]
  | kill field =>
    simp only [exactStep, h]
    split_ifs with hf
    · cases compose x { a with stores := [] }
      · rfl
      · simp [AccessPath.push, hf]
    · simp only [Option.bind_some, ha]
      cases compose x { a with stores := [] }
      · rfl
      · simp [AccessPath.push, hf]
  | store field =>
    simp only [exactStep, h, Option.bind_some]
    rw [hx (field :: head :: next)]
    cases compose x { a with stores := [] } <;> rfl

variable {a} (h : a.stores = [])

include h

theorem compose_gep :
    (compose x a).bind (exactStep · (.gep field)) =
      (exactStep a (.gep field)).bind (compose x) := by
  simp only [exactStep, h, Option.bind_some, compose]
  rcases consume a.loads.reverse x.stores with _ | ⟨head, next⟩ | _ | ⟨load, loads⟩
  · rfl
  · dsimp only
    split_ifs
    · rfl
    · simp [sub_sub]
  · simp [add_assoc]
  · dsimp only
    split_ifs
    · rfl
    · simp

theorem compose_kill :
    (compose x a).bind (exactStep · (.kill field)) =
      (exactStep a (.kill field)).bind (compose x) := by
  simp only [exactStep, h, Option.bind_some, compose]
  rcases consume a.loads.reverse x.stores with _ | ⟨head, next⟩ | _ | ⟨load, loads⟩
  · rfl
  · simp only [List.nil_append, KillSet.mem_insert]
    by_cases hk : head ∈ a.kills
    · simp [hk]
    · by_cases hf : head = a.offset + field
      · have hf' : head - a.offset = field := by omega
        simp [hf]
      · have hf' : head - a.offset ≠ field := by omega
        simp [hk, hf, hf']
  · have hkills : (x.kills ∪ a.kills.shift x.offset).insert (x.offset + a.offset + field) =
        x.kills ∪ (a.kills.insert (a.offset + field)).shift x.offset := by
      refine KillSet.ext fun y => ?_
      have hy : y = x.offset + a.offset + field ↔ y - x.offset = a.offset + field := by omega
      simp only [KillSet.mem_insert, KillSet.mem_union, KillSet.mem_shift, hy]
      tauto
    simp [hkills]
  · dsimp only
    split_ifs
    · rfl
    · simp

theorem compose_load :
    (compose x a).bind (exactStep · (.load field)) =
      (exactStep a (.load field)).bind (compose x) := by
  have hcon := consume_concat a.loads.reverse x.stores (a.offset + field)
  rw [← List.reverse_cons] at hcon
  by_cases hk : a.offset + field ∈ a.kills
  · simp only [exactStep, h, hk, if_true, Option.bind_none, compose]
    rcases consume a.loads.reverse x.stores with _ | ⟨head, next⟩ | _ | ⟨load, loads⟩
    · rfl
    · by_cases hf : head = a.offset + field
      · simp [hf, hk]
      · have hf' : head - a.offset ≠ field := by omega
        simp [hf']
    · simp [hk, add_assoc]
    · simp [hk]
  · simp only [exactStep, h, hk, if_false, Option.bind_some, compose, hcon]
    rcases consume a.loads.reverse x.stores with _ | ⟨head, next⟩ | _ | ⟨load, loads⟩
    · rfl
    · by_cases hf : head = a.offset + field
      · have hf' : a.offset + field - a.offset = field := by omega
        subst hf
        rcases next with _ | ⟨head, next⟩ <;> simp [hk, hf', consume]
      · have hf' : head - a.offset ≠ field := by omega
        simp [hf, hf']
    · simp [hk, add_assoc]
    · dsimp only
      split_ifs
      · rfl
      · simp [hk]

end Steps

/-- A step after a composition is a step of its second path. -/
theorem compose_exactStep (x a : AccessPath) (s : Step) :
    (compose x a).bind (exactStep · s) = (exactStep a s).bind (compose x) := by
  rcases h : a.stores with _ | ⟨head, next⟩
  · cases s with
    | gep field => exact compose_gep x field h
    | load field => exact compose_load x field h
    | kill field => exact compose_kill x field h
    | store field =>
      have hstore := compose_push x a [field]
      have ha : compose x a = compose x { a with stores := [] } := by rw [← h]
      simp only [exactStep, h, Option.bind_some, ha, hstore]
      cases compose x { a with stores := [] } <;> rfl
  · exact compose_step_stores x s h

theorem compose_exactRun (x a : AccessPath) (steps : List Step) :
    (compose x a).bind (exactRun · steps) = (exactRun a steps).bind (compose x) := by
  induction steps generalizing a with
  | nil => simp
  | cons s steps ih =>
    have hL : (compose x a).bind (exactRun · (s :: steps)) =
        ((compose x a).bind (exactStep · s)).bind (exactRun · steps) := by
      simp only [exactRun_cons, Option.bind_assoc]
    rw [hL, compose_exactStep, Option.bind_assoc]
    simp only [ih, exactRun_cons, Option.bind_assoc]

/-- Running steps is composing with the path they build. -/
theorem exactRun_eq_compose {x p : AccessPath} {steps : List Step}
    (h : exactRun .epsilon steps = some p) : exactRun x steps = compose x p := by
  have hx := compose_exactRun x .epsilon steps
  rwa [compose_epsilon, Option.bind_some, h, Option.bind_some] at hx

/-! ### The steps of a path -/

theorem exactRun_gep (F : AccessPath) (field : ℤ) (h : F.stores = []) :
    exactRun F [.gep field] = some { F with offset := F.offset + field } := by
  simp [exactRun_cons, exactStep, h]

theorem exactRun_loads (L : List ℤ) (offset : ℤ) (loads : List ℤ) :
    exactRun ⟨L, [], .empty, offset⟩ (loads.map .load) =
      match loads with
      | [] => some ⟨L, [], .empty, offset⟩
      | load :: loads => some ⟨loads.reverse ++ (offset + load) :: L, [], .empty, 0⟩ := by
  rcases loads with _ | ⟨load, loads⟩
  · rfl
  · dsimp only
    induction loads generalizing L offset load with
    | nil => simp [exactRun_cons, exactStep]
    | cons load' loads ih =>
      have hstep : exactStep ⟨L, [], .empty, offset⟩ (.load load) =
          some ⟨(offset + load) :: L, [], .empty, 0⟩ := by simp [exactStep]
      rw [List.map_cons, exactRun_cons, hstep, Option.bind_some, ih]
      simp

theorem exactRun_kills (F : AccessPath) (kills : KillSet) (h : F.stores = []) :
    exactRun F (kills.offsets.map .kill) =
      some { F with kills := F.kills ∪ kills.shift F.offset } := by
  have hrun : ∀ (l : List ℤ) (F : AccessPath), F.stores = [] → exactRun F (l.map .kill) =
      some { F with kills := (l.map (F.offset + ·)).foldl KillSet.insert F.kills } := by
    intro l
    induction l with
    | nil => intro F _; rfl
    | cons k l ih =>
      intro F h
      have hstep : exactStep F (.kill k) =
          some { F with kills := F.kills.insert (F.offset + k) } := by simp [exactStep, h]
      rw [List.map_cons, exactRun_cons, hstep, Option.bind_some]
      exact ih _ h
  exact hrun kills.offsets F h

theorem exactRun_stores (F : AccessPath) (stores : List ℤ) :
    exactRun F (stores.map .store) = some (F.push stores.reverse) := by
  induction stores generalizing F with
  | nil => rfl
  | cons st stores ih =>
    rw [List.map_cons, exactRun_cons]
    simp [exactStep, ih, AccessPath.push]

/-- The steps a path stands for. -/
def AccessPath.steps (p : AccessPath) : List Step :=
  p.loads.reverse.map .load ++ (p.kills.offsets.map .kill ++
    ([.gep p.offset] ++ p.stores.reverse.map .store))

theorem exactRun_steps (p : AccessPath) : exactRun .epsilon p.steps = some p := by
  have hloads : exactRun .epsilon (p.loads.reverse.map .load) = some ⟨p.loads, [], .empty, 0⟩ := by
    rw [AccessPath.epsilon, exactRun_loads]
    rcases h : p.loads.reverse with _ | ⟨load, loads⟩
    · rw [List.reverse_eq_nil_iff.1 h]
    · have hp : p.loads = loads.reverse ++ [load] := by
        rw [← List.reverse_reverse p.loads, h, List.reverse_cons]
      simp [hp]
  rw [AccessPath.steps, exactRun_append, hloads, Option.bind_some, exactRun_append,
    exactRun_kills _ _ rfl, Option.bind_some, exactRun_append, exactRun_gep _ _ rfl,
    Option.bind_some, exactRun_stores]
  simp [AccessPath.push]

/-- Composition is associative. -/
theorem compose_assoc (x a b : AccessPath) :
    (compose x a).bind (compose · b) = (compose a b).bind (compose x) := by
  have hb : ∀ y, compose y b = exactRun y b.steps :=
    fun y => (exactRun_eq_compose (exactRun_steps b)).symm
  simp only [hb]
  exact compose_exactRun x a b.steps

/-! ### The code -/

/-- The steps that `applyTransformImpl` replays. -/
def replay (txn : AccessPath) : List Step :=
  (if txn.offset ≠ 0 then [.gep txn.offset] else []) ++ (txn.loads.reverse.map .load ++
    (txn.kills.offsets.map .kill ++ txn.stores.reverse.map .store))

/-- The path that the replayed steps build: the offset of `txn` has moved before its loads and
kills. -/
def replayed (txn : AccessPath) : AccessPath :=
  match txn.loads.reverse with
  | [] => { txn with kills := txn.kills.shift txn.offset }
  | load :: loads => { txn with loads := loads.reverse ++ [txn.offset + load], offset := 0 }

theorem exactRun_replay (txn : AccessPath) :
    exactRun .epsilon (replay txn) = some (replayed txn) := by
  have hgep : exactRun .epsilon (if txn.offset ≠ 0 then [.gep txn.offset] else []) =
      some ⟨[], [], .empty, txn.offset⟩ := by
    split_ifs with h
    · rw [exactRun_gep _ _ rfl]
      simp [AccessPath.epsilon]
    · rw [not_not.1 h]
      rfl
  rw [replay, exactRun_append, hgep, Option.bind_some, exactRun_append, exactRun_loads]
  unfold replayed
  rcases h : txn.loads.reverse with _ | ⟨load, loads⟩
  · rw [List.reverse_eq_nil_iff] at h
    dsimp only
    rw [Option.bind_some, exactRun_append, exactRun_kills _ _ rfl, Option.bind_some,
      exactRun_stores]
    simp [AccessPath.push, h]
  · dsimp only
    rw [Option.bind_some, exactRun_append, exactRun_kills _ _ rfl, Option.bind_some,
      exactRun_stores]
    simp [AccessPath.push]

theorem applyTransformImpl_eq_run (limit : Option ℕ) (F txn : AccessPath) :
    applyTransformImpl limit F txn = run limit F (replay txn) := by
  have hstores : ∀ (l : List ℤ) (F : AccessPath),
      run limit F (l.map .store) = some (l.foldl (applyOneGepAndStore limit) F) := by
    intro l
    induction l with
    | nil => intro F; rfl
    | cons st l ih => intro F; exact ih _
  have hgep : run limit F (if txn.offset ≠ 0 then [.gep txn.offset] else []) =
      some (if txn.offset ≠ 0 then applyOneGep F txn.offset else F) := by
    split_ifs <;> rfl
  have hloads : ∀ F, run limit F (txn.loads.reverse.map .load) =
      txn.loads.reverse.foldlM (applyOneGepAndLoad limit) F := fun F => by
    simp only [run, List.foldlM_map, applyStep]
  have hkills : ∀ F, run limit F (txn.kills.offsets.map .kill) =
      txn.kills.offsets.foldlM applyOneGepAndKill F := fun F => by
    simp only [run, List.foldlM_map, applyStep]
  rw [replay, run_append, hgep, Option.bind_some, run_append, hloads]
  simp only [run_append, hkills, hstores]
  rfl

/-- The step stays below the limit, and its offsets are known and do not overflow. -/
def SafeStep (limit : Option ℕ) (F : AccessPath) : Step → Prop
  | .gep field => Fits F field
  | .load field => (F.stores = [] → Concrete (F.offset + field) ∧ limit ≠ some F.loads.length) ∧
      ∀ head ∈ F.stores.head?, head ≠ topOffset
  | .kill field => field ≠ topOffset ∧
      (F.stores = [] → F.offset ≠ topOffset ∧ Concrete (F.offset + field))
  | .store _ => limit ≠ some F.stores.length

instance decidableSafeStep (limit : Option ℕ) (F : AccessPath) : ∀ s, Decidable (SafeStep limit F s)
  | .gep field => inferInstanceAs (Decidable (Fits F field))
  | .load field => inferInstanceAs (Decidable ((_ → Concrete (F.offset + field) ∧ _) ∧
      ∀ head ∈ F.stores.head?, head ≠ topOffset))
  | .kill field => inferInstanceAs (Decidable (_ ∧ (_ → _ ∧ Concrete (F.offset + field))))
  | .store _ => inferInstanceAs (Decidable (¬ _))

/-- All steps are safe. -/
def SafeRun (limit : Option ℕ) (F : AccessPath) : List Step → Prop
  | [] => True
  | s :: steps => SafeStep limit F s ∧ ∀ F' ∈ applyStep limit F s, SafeRun limit F' steps

instance decidableSafeRun (limit : Option ℕ) : ∀ F steps, Decidable (SafeRun limit F steps)
  | _, [] => inferInstanceAs (Decidable True)
  | F, s :: steps =>
    have := fun F' => decidableSafeRun limit F' steps
    inferInstanceAs (Decidable (SafeStep limit F s ∧
      ∀ F' ∈ applyStep limit F s, SafeRun limit F' steps))

theorem applyStep_of_safe {limit : Option ℕ} {F : AccessPath} {s : Step}
    (h : SafeStep limit F s) : applyStep limit F s = exactStep F s := by
  rcases hF : F.stores with _ | ⟨head, next⟩
  · cases s with
    | gep field =>
      simp only [SafeStep, Fits, hF] at h
      simp only [applyStep, applyOneGep_nil hF, exactStep, hF, addOffsets_of_concrete h.1 h.2.1 h.2.2]
    | load field =>
      obtain ⟨hsum, hlimit⟩ := h.1 hF
      have hk := KillSet.isKilledBy_iff (K := F.kills) hsum.ne_top
      simp only [applyStep, applyOneGepAndLoad_nil hF, exactStep, hF, int32_of_concrete hsum, hk,
        if_neg hlimit]
    | kill field =>
      obtain ⟨hfield, h⟩ := h
      obtain ⟨hoff, hsum⟩ := h hF
      simp only [applyStep, applyOneGepAndKill_nil hF, exactStep, hF, if_neg hfield,
        addOffsets_of_concrete hoff hfield hsum, KillSet.addKill, if_neg hsum.ne_top]
    | store field =>
      simp only [applyStep, applyOneGepAndStore, exactStep, if_neg h]
  · cases s with
    | gep field =>
      simp only [SafeStep, Fits, hF] at h
      have hhead : addOffsets head (-field) = head - field :=
        addOffsets_of_concrete h.1 h.2.1.ne_top h.2.2
      simp only [applyStep, applyOneGep_cons hF, exactStep, hF, int32_of_concrete h.2.1, hhead]
    | load field =>
      have hhead : head ≠ topOffset := h.2 head (by simp [hF])
      by_cases hf : head = field <;>
        simp [applyStep, applyOneGepAndLoad_cons hF, exactStep, hF, hf, hhead]
    | kill field =>
      by_cases hf : head = field <;>
        simp [applyStep, applyOneGepAndKill_cons hF, exactStep, hF, hf, h.1]
    | store field =>
      simp only [applyStep, applyOneGepAndStore, exactStep, if_neg h]

theorem run_of_safe {limit : Option ℕ} {F : AccessPath} {steps : List Step}
    (h : SafeRun limit F steps) : run limit F steps = exactRun F steps := by
  induction steps generalizing F with
  | nil => rfl
  | cons s steps ih =>
    rw [run_cons, exactRun_cons, applyStep_of_safe h.1]
    cases hs : exactStep F s with
    | none => rfl
    | some F' => exact ih (h.2 F' ((applyStep_of_safe h.1).trans hs))

/-- Replaying a path composes with it, its offset moved before its loads and kills. -/
theorem applyTransformImpl_eq_compose {limit : Option ℕ} {F txn : AccessPath}
    (h : SafeRun limit F (replay txn)) :
    applyTransformImpl limit F txn = compose F (replayed txn) := by
  rw [applyTransformImpl_eq_run, run_of_safe h, exactRun_eq_compose (exactRun_replay txn)]

end Phasar.CFLFieldSens
