import Mathlib.Data.Finset.Basic
import Mathlib.Data.Finset.Union
import Mathlib.Data.Int.Range
import Mathlib.Tactic

/-!
# Access paths of the CFL field-sensitive IFDS analysis

An access path holds pending loads, stores, kills and a pending pointer offset. Elementary gep, load,
kill and store steps transform it, or kill the fact it describes (`none`). Offsets are 32-bit
integers whose least value stands for an unknown offset.

* `KillSet`, `AccessPath`: field strings are lists with the most recent access first;
* `applyOneGepAndStore`, `applyOneGepAndLoad`, `applyOneGepAndKill`, `applyOneGep`;
* `applyTransformImpl`, `applyTransform`, `applyTransforms`: replaying paths on sets of paths;
* `Step`, `run`: sequences of elementary steps. A missing depth limit is `none`.
-/

namespace Phasar.CFLFieldSens

/-! ### Offsets -/

/-- `AccessPath::TopOffset`, the unknown offset: `INT32_MIN`. -/
def topOffset : ℤ := -2 ^ 31

/-- The value of a 32-bit signed computation. -/
def int32 (z : ℤ) : ℤ := Int.bmod z (2 ^ 32)

/-- `z` is an offset other than `topOffset`. -/
def Concrete (z : ℤ) : Prop := -2 ^ 31 < z ∧ z < 2 ^ 31

instance (z : ℤ) : Decidable (Concrete z) := inferInstanceAs (Decidable (_ ∧ _))

/-- The sum of two offsets; unknown if one of them is or if it overflows. -/
def addOffsets (l r : ℤ) : ℤ :=
  if l = topOffset ∨ r = topOffset then topOffset
  else if -2 ^ 31 ≤ l + r ∧ l + r < 2 ^ 31 then l + r
  else topOffset

theorem Concrete.ne_top {z : ℤ} (h : Concrete z) : z ≠ topOffset := by
  have h₁ := h.1
  unfold topOffset
  omega

theorem int32_of_concrete {z : ℤ} (h : Concrete z) : int32 z = z := by
  obtain ⟨h₁, h₂⟩ := h
  unfold int32
  rw [Int.bmod_def]
  split_ifs <;> omega

theorem addOffsets_of_concrete {l r : ℤ} (hl : l ≠ topOffset) (hr : r ≠ topOffset)
    (h : Concrete (l + r)) : addOffsets l r = l + r := by
  obtain ⟨h₁, h₂⟩ := h
  rw [addOffsets, if_neg (by tauto), if_pos (by omega)]

theorem addOffsets_of_ne_top {l r : ℤ} (h : addOffsets l r ≠ topOffset) :
    addOffsets l r = l + r := by
  unfold addOffsets at h ⊢
  split_ifs at h ⊢
  · exact absurd rfl h
  · rfl
  · exact absurd rfl h

theorem concrete_addOffsets {l r : ℤ} (h : addOffsets l r ≠ topOffset) :
    Concrete (addOffsets l r) := by
  unfold addOffsets at h ⊢
  split_ifs at h ⊢ with h₁ h₂
  · exact absurd rfl h
  · unfold topOffset at h
    exact ⟨by omega, h₂.2⟩
  · exact absurd rfl h

/-! ### Kill sets -/

/-- A set of killed offsets: a list in strictly ascending order. -/
structure KillSet where
  offsets : List ℤ
  sorted : offsets.Pairwise (· < ·)
  deriving DecidableEq

namespace KillSet

/-- Insert into an ascending list without repetitions. -/
def insertSorted (x : ℤ) : List ℤ → List ℤ
  | [] => [x]
  | y :: t => if x < y then x :: y :: t else if x = y then y :: t else y :: insertSorted x t

theorem mem_insertSorted (x y : ℤ) (l : List ℤ) : y ∈ insertSorted x l ↔ y = x ∨ y ∈ l := by
  induction l with
  | nil => simp [insertSorted]
  | cons z t ih =>
    unfold insertSorted
    split_ifs with h₁ h₂
    · simp
    · subst h₂
      simp
    · simp only [List.mem_cons, ih]
      tauto

theorem pairwise_insertSorted (x : ℤ) {l : List ℤ} (h : l.Pairwise (· < ·)) :
    (insertSorted x l).Pairwise (· < ·) := by
  induction l with
  | nil => simp [insertSorted]
  | cons z t ih =>
    obtain ⟨hz, ht⟩ := List.pairwise_cons.1 h
    unfold insertSorted
    split_ifs with h₁ h₂
    · refine List.pairwise_cons.2 ⟨fun y hy => ?_, h⟩
      rcases List.mem_cons.1 hy with rfl | hy
      · exact h₁
      · exact h₁.trans (hz y hy)
    · exact h
    · refine List.pairwise_cons.2 ⟨fun y hy => ?_, ih ht⟩
      rcases (mem_insertSorted x y t).1 hy with rfl | hy
      · omega
      · exact hz y hy

/-- The empty kill set. -/
def empty : KillSet := ⟨[], List.Pairwise.nil⟩

instance : Membership ℤ KillSet := ⟨fun K x => x ∈ K.offsets⟩

instance (x : ℤ) (K : KillSet) : Decidable (x ∈ K) := inferInstanceAs (Decidable (x ∈ K.offsets))

/-- The kill set with one more offset. -/
def insert (K : KillSet) (x : ℤ) : KillSet :=
  ⟨insertSorted x K.offsets, pairwise_insertSorted x K.sorted⟩

@[simp] theorem not_mem_empty (x : ℤ) : ¬ x ∈ empty := List.not_mem_nil

@[simp] theorem mem_insert {K : KillSet} {x y : ℤ} : y ∈ K.insert x ↔ y = x ∨ y ∈ K :=
  mem_insertSorted x y K.offsets

/-- A kill set is determined by its members. -/
theorem ext {K K' : KillSet} (h : ∀ x, x ∈ K ↔ x ∈ K') : K = K' := by
  obtain ⟨l, hl⟩ := K
  obtain ⟨l', hl'⟩ := K'
  have hperm : l.Perm l' := (List.perm_ext_iff_of_nodup (hl.imp fun h => ne_of_lt h)
    (hl'.imp fun h => ne_of_lt h)).2 h
  obtain rfl := hperm.eq_of_pairwise (fun _ _ _ _ h h' => absurd (h.trans h') (lt_irrefl _)) hl hl'
  rfl

/-- `FieldStringManager::addKill`: the unknown offset cannot be killed. -/
def addKill (K : KillSet) (offs : ℤ) : KillSet := if offs = topOffset then K else K.insert offs

theorem mem_addKill {K : KillSet} {x y : ℤ} :
    y ∈ K.addKill x ↔ x ≠ topOffset ∧ y = x ∨ y ∈ K := by
  unfold addKill
  split_ifs with h <;> simp [h]

/-- `FieldStringManager::isKilledBy`. -/
def isKilledBy (K : KillSet) (offs : ℤ) : Bool := offs ≠ topOffset && offs ∈ K

@[simp] theorem isKilledBy_empty (offs : ℤ) : empty.isKilledBy offs = false := by
  simp [isKilledBy]

theorem isKilledBy_iff {K : KillSet} {offs : ℤ} (h : offs ≠ topOffset) :
    K.isKilledBy offs = true ↔ offs ∈ K := by
  simp [isKilledBy, h]

end KillSet

/-! ### Access paths -/

/-- A field-access string. -/
structure AccessPath where
  loads : List ℤ
  stores : List ℤ
  kills : KillSet
  offset : ℤ
  deriving DecidableEq

namespace AccessPath

/-- The path without accesses, `ε`. -/
def epsilon : AccessPath := ⟨[], [], .empty, 0⟩

/-- `AccessPath::empty`. -/
def empty (F : AccessPath) : Bool := F = epsilon

end AccessPath

/-- A store; at the depth limit the oldest store is forgotten. -/
def applyOneGepAndStore (depthKLimit : Option ℕ) (F : AccessPath) (field : ℤ) : AccessPath :=
  let stores := if depthKLimit = some F.stores.length then F.stores.dropLast else F.stores
  { F with stores := field :: stores }

/-- A load. It consumes a matching pending store, or is recorded if there is none; at the depth limit
it is not recorded. -/
def applyOneGepAndLoad (depthKLimit : Option ℕ) (F : AccessPath) (field : ℤ) :
    Option AccessPath :=
  match F.stores with
  | [] =>
    let offs := int32 (F.offset + field)
    if F.kills.isKilledBy offs then none
    -- a load that is not recorded leaves the kills as they are
    else if depthKLimit = some F.loads.length then some { F with offset := 0 }
    else some { F with offset := 0, loads := offs :: F.loads, kills := .empty }
  | head :: next =>
    -- only the field of the store may be unknown
    if head ≠ field ∧ head ≠ topOffset then none
    else some { F with stores := next }

/-- A kill. -/
def applyOneGepAndKill (F : AccessPath) (field : ℤ) : Option AccessPath :=
  if field = topOffset then some F
  else
    match F.stores with
    | [] =>
      let offs := addOffsets F.offset field
      if offs = topOffset then some F else some { F with kills := F.kills.addKill offs }
    | head :: _ => if head = field then none else some F

/-- Pointer arithmetic. It moves the most recent pending store, or the path itself. -/
def applyOneGep (F : AccessPath) (field : ℤ) : AccessPath :=
  match F.stores with
  | [] => { F with offset := addOffsets F.offset field }
  | head :: next => { F with stores := addOffsets head (int32 (-field)) :: next }

/-! ### Steps on a path with stores, and on one without -/

section Equations

variable {F : AccessPath} {limit : Option ℕ} {field head : ℤ} {next : List ℤ}

theorem applyOneGep_nil (h : F.stores = []) :
    applyOneGep F field = { F with offset := addOffsets F.offset field } := by
  simp only [applyOneGep, h]

theorem applyOneGep_cons (h : F.stores = head :: next) :
    applyOneGep F field = { F with stores := addOffsets head (int32 (-field)) :: next } := by
  simp only [applyOneGep, h]

theorem applyOneGepAndLoad_nil (h : F.stores = []) :
    applyOneGepAndLoad limit F field =
      if F.kills.isKilledBy (int32 (F.offset + field)) then none
      else if limit = some F.loads.length then some { F with offset := 0 }
      else some { F with
        offset := 0, loads := int32 (F.offset + field) :: F.loads, kills := .empty } := by
  simp only [applyOneGepAndLoad, h]

theorem applyOneGepAndLoad_cons (h : F.stores = head :: next) :
    applyOneGepAndLoad limit F field =
      if head ≠ field ∧ head ≠ topOffset then none else some { F with stores := next } := by
  simp only [applyOneGepAndLoad, h]

theorem applyOneGepAndKill_nil (h : F.stores = []) :
    applyOneGepAndKill F field = some (if field = topOffset then F
      else { F with kills := F.kills.addKill (addOffsets F.offset field) }) := by
  unfold applyOneGepAndKill
  split_ifs with h₁
  · rfl
  · simp only [h]
    split_ifs with h₂
    · simp [KillSet.addKill, h₂, ← h]
    · rfl

theorem applyOneGepAndKill_cons (h : F.stores = head :: next) :
    applyOneGepAndKill F field =
      if field ≠ topOffset ∧ head = field then none else some F := by
  unfold applyOneGepAndKill
  by_cases h₁ : field = topOffset
  · simp [h₁]
  · simp [h, h₁]

end Equations

/-- Adding `field` to `F`'s pending offset, or to its most recent store, is exact. -/
def Fits (F : AccessPath) (field : ℤ) : Prop :=
  match F.stores with
  | [] => F.offset ≠ topOffset ∧ field ≠ topOffset ∧ Concrete (F.offset + field)
  | head :: _ => head ≠ topOffset ∧ Concrete (-field) ∧ Concrete (head - field)

instance (F : AccessPath) (field : ℤ) : Decidable (Fits F field) := by
  unfold Fits
  split <;> infer_instance

/-! ### Elementary steps -/

/-- An elementary transform. -/
inductive Step
  | gep (field : ℤ)
  | load (field : ℤ)
  | kill (field : ℤ)
  | store (field : ℤ)
  deriving DecidableEq

/-- Apply an elementary transform. -/
def applyStep (depthKLimit : Option ℕ) (F : AccessPath) : Step → Option AccessPath
  | .gep field => some (applyOneGep F field)
  | .load field => applyOneGepAndLoad depthKLimit F field
  | .kill field => applyOneGepAndKill F field
  | .store field => some (applyOneGepAndStore depthKLimit F field)

/-- Apply elementary transforms one after another. -/
def run (depthKLimit : Option ℕ) (F : AccessPath) (steps : List Step) : Option AccessPath :=
  steps.foldlM (applyStep depthKLimit) F

@[simp] theorem run_nil (K : Option ℕ) (F : AccessPath) : run K F [] = some F := rfl

theorem run_cons (K : Option ℕ) (F : AccessPath) (s : Step) (steps : List Step) :
    run K F (s :: steps) = (applyStep K F s).bind fun F' => run K F' steps := rfl

theorem run_append (K : Option ℕ) (F : AccessPath) (s t : List Step) :
    run K F (s ++ t) = (run K F s).bind fun F' => run K F' t := by
  simp [run, List.foldlM_append, Option.bind_eq_bind]

/-! ### Transforms between sets of paths -/

/-- Replay `txn` on `F`: its offset, its loads, its kills and its stores, in this order. -/
def applyTransformImpl (depthKLimit : Option ℕ) (F txn : AccessPath) : Option AccessPath := do
  let F := if txn.offset ≠ 0 then applyOneGep F txn.offset else F
  let F ← txn.loads.reverse.foldlM (applyOneGepAndLoad depthKLimit) F
  let F ← txn.kills.offsets.foldlM applyOneGepAndKill F
  some (txn.stores.reverse.foldl (applyOneGepAndStore depthKLimit) F)

/-- `IFDSEdgeValue::Paths`: a set of access paths. -/
abbrev Paths := Finset AccessPath

/-- `IFDSEdgeValue::isEpsilon`. -/
def isEpsilon (EV : Paths) : Bool := EV = {AccessPath.epsilon}

/-- Apply one path to a set of paths: nothing is done for `ε`, and on `ε` alone the path is taken over
verbatim. -/
def applyTransform (depthKLimit : Option ℕ) (EV : Paths) (txn : AccessPath) : Paths :=
  if EV = ∅ ∨ txn.empty then EV
  else if isEpsilon EV then {txn}
  else EV.biUnion fun F => (applyTransformImpl depthKLimit F txn).toFinset

/-- Apply all paths of a set, each to the same paths; without any path nothing is left. -/
def applyTransforms (depthKLimit : Option ℕ) (EV txns : Paths) : Paths :=
  txns.biUnion fun txn => applyTransform depthKLimit EV txn

end Phasar.CFLFieldSens
