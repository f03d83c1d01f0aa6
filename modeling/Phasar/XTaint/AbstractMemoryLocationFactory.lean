import Mathlib.Algebra.Ring.Nat
import Mathlib.Data.Int.Notation
import Mathlib.Data.List.Basic
import Mathlib.Logic.Function.Basic
import Mathlib.Tactic.Common

/-!
# Abstract memory locations

A memory location is a base pointer with offsets, one for each level of indirection, and a lifetime: how
many more levels there may be. The factory keeps one location for each base, offsets, and whether the
lifetime has run out.

* `Value`: the instructions that a location is computed from, with their operands;
* `AbstractMemoryLocation`, `Factory`, `getOrCreate`: the locations that have been created;
* `create`, `limit`, `withIndirectionOf`, `withOffset`, `withOffsets`, `withTransferTo`,
  `withTransferFrom`: an assertion that fails gives `none`;
* `call_bounded_canonical`: the locations are bounded, and their base, their offsets and whether their
  lifetime has run out do not depend on what the factory has created before.
-/

namespace Phasar.XTaint

/-- A value and its pointer operand, if the factory looks through it. The offset of a
`getelementptr` is the one that `computeOffset` finds, if its indices are constants. -/
inductive Value
  | leaf (id : ℕ) (definesItself : Bool)
  | load (id : ℕ) (pointerOperand : Value)
  | cast (id : ℕ) (operand : Value)
  | gep (id : ℕ) (isConstant : Bool) (pointerOperand : Value) (computeOffset : Option ℤ)
  deriving DecidableEq

/-- A constant, an `alloca`, an argument or a call. -/
def Value.definesItself : Value → Bool
  | .leaf _ definesItself => definesItself
  | .gep _ isConstant _ _ => isConstant
  | _ => false

structure AbstractMemoryLocation where
  base : Value
  offsets : List ℤ
  lifetime : ℕ
  deriving DecidableEq

namespace AbstractMemoryLocation

/-- `MakeProfile`: whether two locations are taken for one. -/
def sameProfile (m m' : AbstractMemoryLocation) : Bool :=
  decide (m.base = m'.base) && decide (m.offsets = m'.offsets) &&
    decide (m.lifetime = 0) == decide (m'.lifetime = 0)

/-- What a member of the factory does at its end: return a location that it was given, or call
`getOrCreateImpl`. -/
inductive Request
  | known (m : AbstractMemoryLocation)
  | getOrCreate (base : Value) (offsets : List ℤ) (lifetime : ℕ)

/-- `Offs.back() += d`. -/
def addToBack (d : ℤ) : List ℤ → List ℤ
  | [] => []
  | [off] => [off + d]
  | off :: offs => off :: addToBack d offs

/-- The loop of `createImpl`. The offsets are in reverse order, the last one first; the version counts
modulo the range of `unsigned`. -/
def followOperands (BOUND : ℕ) : Value → List ℤ → ℕ → Value × List ℤ × ℕ
  | .load _ pointerOperand, Offs, Ver => followOperands BOUND pointerOperand (0 :: Offs) ((Ver + 1) % 2 ^ 32)
  | .cast _ operand, Offs, Ver => followOperands BOUND operand Offs Ver
  | .gep _ _ pointerOperand (some GepOffs), off :: Offs, Ver =>
    followOperands BOUND pointerOperand ((off + GepOffs) :: Offs) Ver
  | .gep _ _ pointerOperand (some _), [], Ver => followOperands BOUND pointerOperand [] Ver
  -- everything until now is irrelevant
  | .gep _ _ pointerOperand none, _, _ => followOperands BOUND pointerOperand [0] BOUND
  | .leaf id definesItself, Offs, Ver => (.leaf id definesItself, Offs, Ver)

/-- `createImpl` of a value that is not in the cache. -/
def create (BOUND : ℕ) (V : Value) : Option Request :=
  if V.definesItself then some (.getOrCreate V [0] (if BOUND = 0 then 0 else BOUND - 1))
  else
    let (Baseptr, Offs, Ver) := followOperands BOUND V [0] 1
    let Lifetime := BOUND - min Ver BOUND
    if BOUND < Offs.length then
      if Lifetime = 0 then some (.getOrCreate Baseptr (Offs.take BOUND) Lifetime) else none
    else some (.getOrCreate Baseptr Offs Lifetime)

def limit (AML : AbstractMemoryLocation) : Option Request :=
  some (.getOrCreate AML.base AML.offsets.dropLast 0)

def withIndirectionOf (AML : AbstractMemoryLocation) (Ind : List ℤ) : Option Request :=
  if AML.lifetime = 0 then some (.known AML)
  else if Ind = [] then some (.getOrCreate AML.base (AML.offsets ++ [0]) (AML.lifetime - 1))
  else
    let Ind := if AML.lifetime < Ind.length then Ind.take AML.lifetime else Ind
    some (.getOrCreate AML.base (AML.offsets ++ Ind) (AML.lifetime - Ind.length))

/-- `GepOffs` is the constant offset of the `getelementptr`, if it has one. -/
def withOffset (AML : AbstractMemoryLocation) (GepOffs : Option ℤ) : Option Request :=
  if AML.lifetime = 0 then some (.known AML)
  else
    match GepOffs with
    | none => limit AML
    | some GepOffs =>
      if AML.offsets = [] then none
      else some (.getOrCreate AML.base (addToBack GepOffs AML.offsets) AML.lifetime)

def withOffsets (AML : AbstractMemoryLocation) : List ℤ → Option Request
  | [] => some (.known AML)
  | front :: Offs =>
    if AML.lifetime = 0 then some (.known AML)
    else if AML.offsets = [] then none
    else
      let Offs := if AML.lifetime < Offs.length then Offs.take AML.lifetime else Offs
      some (.getOrCreate AML.base (addToBack front AML.offsets ++ Offs)
        (AML.lifetime + 1 - (Offs.length + 1)))

def withTransferTo (AML From : AbstractMemoryLocation) (To : Value) : Option Request :=
  if AML.lifetime = 0 ∧ From.lifetime = 0 then some (.getOrCreate To [0] 0)
  else
    let (LargerOffs, SmallerOffs) :=
      if From.offsets.length ≤ AML.offsets.length then (AML.offsets, From.offsets)
      else (From.offsets, AML.offsets)
    let LargerOffs := if SmallerOffs = [] then LargerOffs else LargerOffs.drop (SmallerOffs.length - 1)
    let Offs := if LargerOffs = [] then [] else LargerOffs.dropLast ++ [0]
    some (.getOrCreate To Offs (min AML.lifetime From.lifetime))

def withTransferFrom (AML To : AbstractMemoryLocation) : Option Request :=
  if AML.lifetime = 0 then some (.known To)
  else
    let Offs :=
      match AML.offsets with
      | [] => To.offsets
      | off :: offs => addToBack off To.offsets ++ offs
    let MaximumSize := min (AML.offsets.length + AML.lifetime) (To.offsets.length + To.lifetime)
    let Offs := if MaximumSize < Offs.length then Offs.take MaximumSize else Offs
    some (.getOrCreate To.base Offs (min AML.lifetime (MaximumSize - Offs.length)))

end AbstractMemoryLocation

open AbstractMemoryLocation

/-- The locations that have been created, and what was returned for each value. -/
structure Factory where
  Pool : List AbstractMemoryLocation
  Cache : Value → Option AbstractMemoryLocation

namespace Factory

def init : Factory := ⟨[], fun _ => none⟩

/-- `getOrCreateImpl`: the location with the profile, a new one if there is none. -/
def getOrCreate (st : Factory) (base : Value) (offsets : List ℤ) (lifetime : ℕ) :
    Option (AbstractMemoryLocation × Factory) :=
  let mem : AbstractMemoryLocation := ⟨base, offsets, lifetime⟩
  if lifetime ≠ 0 ∧ offsets = [] then none
  else
    match st.Pool.find? mem.sameProfile with
    | some m => some (m, st)
    | none => some (mem, { st with Pool := st.Pool ++ [mem] })

def answer (st : Factory) : Request → Option (AbstractMemoryLocation × Factory)
  | .known m => some (m, st)
  | .getOrCreate base offsets lifetime => st.getOrCreate base offsets lifetime

/-- The calls of a factory. -/
inductive Call
  | create (V : Value)
  | limit (AML : AbstractMemoryLocation)
  | withIndirectionOf (AML : AbstractMemoryLocation) (Ind : List ℤ)
  | withOffset (AML : AbstractMemoryLocation) (GepOffs : Option ℤ)
  | withOffsets (AML : AbstractMemoryLocation) (Offs : List ℤ)
  | withTransferTo (AML From : AbstractMemoryLocation) (To : Value)
  | withTransferFrom (AML To : AbstractMemoryLocation)

/-- What a call asks for. -/
def Call.request (BOUND : ℕ) : Call → Option Request
  | .create V => AbstractMemoryLocation.create BOUND V
  | .limit AML => AbstractMemoryLocation.limit AML
  | .withIndirectionOf AML Ind => AbstractMemoryLocation.withIndirectionOf AML Ind
  | .withOffset AML GepOffs => AbstractMemoryLocation.withOffset AML GepOffs
  | .withOffsets AML Offs => AbstractMemoryLocation.withOffsets AML Offs
  | .withTransferTo AML From To => AbstractMemoryLocation.withTransferTo AML From To
  | .withTransferFrom AML To => AbstractMemoryLocation.withTransferFrom AML To

/-- `createImpl`: the location in the cache, if the value has been asked for before. -/
def createImpl (st : Factory) (BOUND : ℕ) (V : Value) : Option (AbstractMemoryLocation × Factory) :=
  match st.Cache V with
  | some m => some (m, st)
  | none => ((AbstractMemoryLocation.create BOUND V).bind st.answer).map fun (m, st) =>
    (m, { st with Cache := Function.update st.Cache V (some m) })

/-- A call, with the bound that `create` is given. -/
def call (st : Factory) (BOUND : ℕ) : Call → Option (AbstractMemoryLocation × Factory)
  | .create V => st.createImpl BOUND V
  | c => (c.request BOUND).bind st.answer

/-- The zero location, which is in no pool. -/
def zero : AbstractMemoryLocation := ⟨.leaf 0 true, [], 0⟩

/-- The locations that a call is given. -/
def Call.arguments : Call → List AbstractMemoryLocation
  | .create _ => []
  | .limit AML | .withIndirectionOf AML _ | .withOffset AML _ | .withOffsets AML _ => [AML]
  | .withTransferTo AML From _ => [AML, From]
  | .withTransferFrom AML To => [AML, To]

/-- The loads that the factory looks through. -/
def loads : Value → ℕ
  | .leaf _ _ => 0
  | .load _ pointerOperand => loads pointerOperand + 1
  | .cast _ operand => loads operand
  | .gep _ _ pointerOperand _ => loads pointerOperand

/-- The locations come from the factory, and the version of a value stays in the range of `unsigned`. -/
structure Call.Valid (c : Call) (BOUND : ℕ) (st : Factory) : Prop where
  arguments : ∀ m ∈ c.arguments, m ∈ st.Pool ∨ m = zero
  version : ∀ V, c = .create V → BOUND + loads V < 2 ^ 32

inductive Reachable (BOUND : ℕ) : Factory → Prop
  | init : Reachable BOUND init
  | call {st st' : Factory} {c : Call} {m : AbstractMemoryLocation} (hst : Reachable BOUND st)
      (hc : c.Valid BOUND st) (h : st.call BOUND c = some (m, st')) : Reachable BOUND st'

/-! ### Bounds -/

/-- The offsets and the lifetime together stay in the bound; a location without offsets has no
lifetime. -/
structure Bounded (BOUND : ℕ) (m : AbstractMemoryLocation) : Prop where
  offsets_ne : m.lifetime ≠ 0 → m.offsets ≠ []
  le : m.offsets.length + m.lifetime ≤ BOUND

/-- The location that is asked for. -/
def location : Request → AbstractMemoryLocation
  | .known m => m
  | .getOrCreate base offsets lifetime => ⟨base, offsets, lifetime⟩

variable {BOUND : ℕ} {AML From To : AbstractMemoryLocation}

theorem bounded_zero (BOUND : ℕ) : Bounded BOUND zero :=
  ⟨fun h => absurd rfl h, Nat.zero_le BOUND⟩

@[simp] theorem length_addToBack (d : ℤ) : ∀ offs : List ℤ, (addToBack d offs).length = offs.length
  | [] => rfl
  | [_] => rfl
  | off :: off' :: offs => by
    show (addToBack d (off' :: offs)).length + 1 = (off' :: offs).length + 1
    rw [length_addToBack d (off' :: offs)]

theorem addToBack_ne_nil {d : ℤ} {offs : List ℤ} (h : offs ≠ []) : addToBack d offs ≠ [] := by
  rw [← List.length_pos_iff] at h ⊢
  rwa [length_addToBack]

/-- Cutting a list where it is too long. -/
theorem ite_take_eq {α : Type*} (n : ℕ) (l : List α) : (if n < l.length then l.take n else l) = l.take n := by
  split_ifs with h
  · rfl
  · exact (List.take_of_length_le (Nat.le_of_not_lt h)).symm

/-- The version counts the offsets, or has reached the bound. -/
theorem followOperands_spec (hBOUND : 1 ≤ BOUND) (V : Value) {Offs : List ℤ} {Ver : ℕ} (hOffs : Offs ≠ [])
    (hVer : Offs.length ≤ Ver ∨ BOUND ≤ Ver) (hfits : Ver + loads V < 2 ^ 32)
    (hfits' : BOUND + loads V < 2 ^ 32) :
    (followOperands BOUND V Offs Ver).2.1 ≠ [] ∧
      ((followOperands BOUND V Offs Ver).2.1.length ≤ (followOperands BOUND V Offs Ver).2.2 ∨
        BOUND ≤ (followOperands BOUND V Offs Ver).2.2) := by
  induction V generalizing Offs Ver with
  | leaf id definesItself => exact ⟨hOffs, hVer⟩
  | load id pointerOperand ih =>
    rw [loads] at hfits hfits'
    rw [followOperands, Nat.mod_eq_of_lt (by omega)]
    refine ih (by simp) ?_ (by omega) (by omega)
    rw [List.length_cons]
    omega
  | cast id operand ih => exact ih hOffs hVer hfits hfits'
  | gep id isConstant pointerOperand computeOffset ih =>
    rw [loads] at hfits hfits'
    cases computeOffset with
    | none => exact ih (by simp) (Or.inr le_rfl) hfits' hfits'
    | some GepOffs =>
      cases Offs with
      | nil => exact absurd rfl hOffs
      | cons off Offs => exact ih (by simp) hVer hfits hfits'

theorem create_bounded (hBOUND : 1 ≤ BOUND) {V : Value} (hfits : BOUND + loads V < 2 ^ 32) :
    ∃ r, AbstractMemoryLocation.create BOUND V = some r ∧ Bounded BOUND (location r) := by
  unfold AbstractMemoryLocation.create
  split_ifs with hself hzero
  · omega
  · exact ⟨_, rfl, fun _ => by simp [location], by simp [location]; omega⟩
  · have hOffs : [(0 : ℤ)] ≠ [] := by simp
    have hVer : [(0 : ℤ)].length ≤ 1 ∨ BOUND ≤ 1 := Or.inl le_rfl
    obtain ⟨hne, hver⟩ := followOperands_spec hBOUND V hOffs hVer (by omega) hfits
    generalize followOperands BOUND V [0] 1 = result at hne hver ⊢
    obtain ⟨Baseptr, Offs, Ver⟩ := result
    dsimp only at hne hver ⊢
    split_ifs with hlong hlifetime
    · refine ⟨_, rfl, fun h => absurd hlifetime h, ?_⟩
      show (Offs.take BOUND).length + (BOUND - min Ver BOUND) ≤ BOUND
      rw [List.length_take]
      omega
    · omega
    · refine ⟨_, rfl, fun _ => hne, ?_⟩
      show Offs.length + (BOUND - min Ver BOUND) ≤ BOUND
      omega

theorem limit_bounded (h : Bounded BOUND AML) :
    ∃ r, AbstractMemoryLocation.limit AML = some r ∧ Bounded BOUND (location r) := by
  refine ⟨_, rfl, fun h => absurd rfl h, ?_⟩
  have hle := h.le
  show AML.offsets.dropLast.length + 0 ≤ BOUND
  rw [List.length_dropLast]
  omega

theorem withIndirectionOf_bounded (h : Bounded BOUND AML) (Ind : List ℤ) :
    ∃ r, AbstractMemoryLocation.withIndirectionOf AML Ind = some r ∧ Bounded BOUND (location r) := by
  have hle := h.le
  unfold AbstractMemoryLocation.withIndirectionOf
  rw [ite_take_eq]
  split_ifs with hlifetime hInd
  · exact ⟨_, rfl, h⟩
  · refine ⟨_, rfl, fun _ => by simp [location], ?_⟩
    show (AML.offsets ++ [0]).length + (AML.lifetime - 1) ≤ BOUND
    rw [List.length_append, List.length_singleton]
    omega
  · refine ⟨_, rfl, fun _ => by simp [location, h.offsets_ne hlifetime], ?_⟩
    dsimp only [location]
    rw [List.length_append, List.length_take]
    omega

theorem withOffset_bounded (h : Bounded BOUND AML) (GepOffs : Option ℤ) :
    ∃ r, AbstractMemoryLocation.withOffset AML GepOffs = some r ∧ Bounded BOUND (location r) := by
  unfold AbstractMemoryLocation.withOffset
  by_cases hlifetime : AML.lifetime = 0
  · rw [if_pos hlifetime]
    exact ⟨_, rfl, h⟩
  · rw [if_neg hlifetime]
    cases GepOffs with
    | none => exact limit_bounded h
    | some GepOffs =>
      have hne := h.offsets_ne hlifetime
      dsimp only
      rw [if_neg hne]
      refine ⟨_, rfl, fun _ => addToBack_ne_nil hne, ?_⟩
      show (addToBack GepOffs AML.offsets).length + AML.lifetime ≤ BOUND
      rw [length_addToBack]
      exact h.le

theorem withOffsets_bounded (h : Bounded BOUND AML) (Offs : List ℤ) :
    ∃ r, AbstractMemoryLocation.withOffsets AML Offs = some r ∧ Bounded BOUND (location r) := by
  have hle := h.le
  cases Offs with
  | nil => exact ⟨_, rfl, h⟩
  | cons front Offs =>
    unfold AbstractMemoryLocation.withOffsets
    dsimp only
    rw [ite_take_eq]
    split_ifs with hlifetime hoffsets
    · exact ⟨_, rfl, h⟩
    · exact absurd hoffsets (h.offsets_ne hlifetime)
    · refine ⟨_, rfl, fun _ => by simp [location, addToBack_ne_nil hoffsets], ?_⟩
      dsimp only [location]
      rw [List.length_append, length_addToBack, List.length_take]
      omega

theorem withTransferTo_bounded (hBOUND : 1 ≤ BOUND) (h : Bounded BOUND AML) (hFrom : Bounded BOUND From)
    (To : Value) :
    ∃ r, AbstractMemoryLocation.withTransferTo AML From To = some r ∧ Bounded BOUND (location r) := by
  unfold AbstractMemoryLocation.withTransferTo
  by_cases hlifetime : AML.lifetime = 0 ∧ From.lifetime = 0
  · rw [if_pos hlifetime]
    exact ⟨_, rfl, fun h => absurd rfl h, by simpa [location] using hBOUND⟩
  · rw [if_neg hlifetime]
    -- what is left of the longer list, when the shorter one is taken off
    have hkey : ∀ L S : AbstractMemoryLocation, Bounded BOUND L → Bounded BOUND S →
        S.offsets.length ≤ L.offsets.length →
        let Larger := if S.offsets = [] then L.offsets else L.offsets.drop (S.offsets.length - 1)
        let Offs := if Larger = [] then [] else Larger.dropLast ++ [0]
        (min L.lifetime S.lifetime ≠ 0 → Offs ≠ []) ∧
          Offs.length + min L.lifetime S.lifetime ≤ BOUND := by
      intro L S hL hS hlen Larger Offs
      have hle := hL.le
      have hlarger : Larger.length ≤ L.offsets.length := by
        dsimp only [Larger]
        split_ifs
        · exact le_rfl
        · rw [List.length_drop]
          exact Nat.sub_le _ _
      have hOffs : Offs.length = Larger.length := by
        dsimp only [Offs]
        split_ifs with hnil
        · rw [hnil]
        · have hpos := List.length_pos_iff.2 hnil
          rw [List.length_append, List.length_dropLast, List.length_singleton]
          omega
      refine ⟨fun hmin => ?_, by omega⟩
      have hneL := List.length_pos_iff.2 (hL.offsets_ne (by omega))
      have hneS := List.length_pos_iff.2 (hS.offsets_ne (by omega))
      rw [← List.length_pos_iff, hOffs]
      dsimp only [Larger]
      rw [if_neg (List.length_pos_iff.1 hneS), List.length_drop]
      omega
    by_cases hlen : From.offsets.length ≤ AML.offsets.length
    · rw [if_pos hlen]
      obtain ⟨hne, hle⟩ := hkey AML From h hFrom hlen
      exact ⟨_, rfl, hne, hle⟩
    · rw [if_neg hlen]
      obtain ⟨hne, hle⟩ := hkey From AML hFrom h (Nat.le_of_not_le hlen)
      rw [Nat.min_comm] at hne hle
      exact ⟨_, rfl, hne, hle⟩

theorem withTransferFrom_bounded (h : Bounded BOUND AML) (hTo : Bounded BOUND To) :
    ∃ r, AbstractMemoryLocation.withTransferFrom AML To = some r ∧ Bounded BOUND (location r) := by
  have hle := hTo.le
  unfold AbstractMemoryLocation.withTransferFrom
  by_cases hlifetime : AML.lifetime = 0
  · rw [if_pos hlifetime]
    exact ⟨_, rfl, hTo⟩
  · rw [if_neg hlifetime]
    have hne := h.offsets_ne hlifetime
    cases hoffsets : AML.offsets with
    | nil => exact absurd hoffsets hne
    | cons off offs =>
      dsimp only
      rw [ite_take_eq]
      have hToNe : To.lifetime ≠ 0 → 0 < To.offsets.length := fun h' =>
        List.length_pos_iff.2 (hTo.offsets_ne h')
      refine ⟨_, rfl, fun hpos => ?_, ?_⟩
      · dsimp only [location] at hpos ⊢
        rw [← List.length_pos_iff, List.length_take, List.length_append, length_addToBack]
        rw [List.length_take, List.length_append, length_addToBack] at hpos
        rw [List.length_cons] at hpos ⊢
        omega
      · dsimp only [location]
        rw [List.length_take]
        omega

/-- Every call asks for a bounded location, and no assertion fails. -/
theorem request_bounded (hBOUND : 1 ≤ BOUND) {c : Call} (hargs : ∀ m ∈ c.arguments, Bounded BOUND m)
    (hversion : ∀ V, c = .create V → BOUND + loads V < 2 ^ 32) :
    ∃ r, c.request BOUND = some r ∧ Bounded BOUND (location r) := by
  cases c with
  | create V => exact create_bounded hBOUND (hversion V rfl)
  | limit AML => exact limit_bounded (hargs AML (by simp [Call.arguments]))
  | withIndirectionOf AML Ind => exact withIndirectionOf_bounded (hargs AML (by simp [Call.arguments])) Ind
  | withOffset AML GepOffs => exact withOffset_bounded (hargs AML (by simp [Call.arguments])) GepOffs
  | withOffsets AML Offs => exact withOffsets_bounded (hargs AML (by simp [Call.arguments])) Offs
  | withTransferTo AML From To =>
    exact withTransferTo_bounded hBOUND (hargs AML (by simp [Call.arguments]))
      (hargs From (by simp [Call.arguments])) To
  | withTransferFrom AML To =>
    exact withTransferFrom_bounded (hargs AML (by simp [Call.arguments]))
      (hargs To (by simp [Call.arguments]))

/-! ### The pool -/

/-- The same base and offsets, and the lifetime has run out for both or for none. -/
structure SameProfile (m m' : AbstractMemoryLocation) : Prop where
  base : m.base = m'.base
  offsets : m.offsets = m'.offsets
  lifetime : m.lifetime = 0 ↔ m'.lifetime = 0

theorem sameProfile_iff {m m' : AbstractMemoryLocation} : m.sameProfile m' = true ↔ SameProfile m m' := by
  unfold AbstractMemoryLocation.sameProfile
  rw [Bool.and_eq_true, Bool.and_eq_true, decide_eq_true_iff, decide_eq_true_iff, beq_iff_eq,
    decide_eq_decide]
  exact ⟨fun ⟨⟨h, h'⟩, h''⟩ => ⟨h, h', h''⟩, fun h => ⟨⟨h.base, h.offsets⟩, h.lifetime⟩⟩

theorem SameProfile.refl (m : AbstractMemoryLocation) : SameProfile m m := ⟨rfl, rfl, Iff.rfl⟩

theorem SameProfile.symm {m m' : AbstractMemoryLocation} (h : SameProfile m m') : SameProfile m' m :=
  ⟨h.base.symm, h.offsets.symm, h.lifetime.symm⟩

theorem SameProfile.trans {m m' m'' : AbstractMemoryLocation} (h : SameProfile m m')
    (h' : SameProfile m' m'') : SameProfile m m'' :=
  ⟨h.base.trans h'.base, h.offsets.trans h'.offsets, h.lifetime.trans h'.lifetime⟩

/-- The locations are bounded, and a cached one has the profile of what `create` asks for. -/
structure Invariant (BOUND : ℕ) (st : Factory) : Prop where
  bounded : ∀ m ∈ st.Pool, Bounded BOUND m
  cached : ∀ V m, st.Cache V = some m → m ∈ st.Pool ∧
    ∃ r, AbstractMemoryLocation.create BOUND V = some r ∧ SameProfile m (location r)

variable {st : Factory} {r : Request} {c : Call}

/-- What is asked for is found, or created. -/
theorem getOrCreate_spec (hst : Invariant BOUND st) {base : Value} {offsets : List ℤ} {lifetime : ℕ}
    (h : Bounded BOUND ⟨base, offsets, lifetime⟩) :
    ∃ m st', st.getOrCreate base offsets lifetime = some (m, st') ∧
      SameProfile m ⟨base, offsets, lifetime⟩ ∧ m ∈ st'.Pool ∧ Invariant BOUND st' ∧
        st'.Cache = st.Cache := by
  unfold getOrCreate
  rw [if_neg fun hassert => h.offsets_ne hassert.1 hassert.2]
  split
  next m hfind =>
    exact ⟨m, st, rfl, (sameProfile_iff.1 (List.find?_some hfind)).symm, List.mem_of_find?_eq_some hfind,
      hst, rfl⟩
  next hnone =>
    refine ⟨_, _, rfl, .refl _, List.mem_append_right _ List.mem_cons_self, ⟨fun m hm => ?_, fun V m hV => ?_⟩,
      rfl⟩
    · rcases List.mem_append.1 hm with hm | hm
      · exact hst.bounded m hm
      · rwa [List.mem_singleton.1 hm]
    · obtain ⟨hm, hr⟩ := hst.cached V m hV
      exact ⟨List.mem_append_left _ hm, hr⟩

/-- The answer has the profile that is asked for. -/
theorem answer_spec (hst : Invariant BOUND st) (hr : Bounded BOUND (location r)) :
    ∃ m st', st.answer r = some (m, st') ∧ SameProfile m (location r) ∧ Bounded BOUND m ∧
      Invariant BOUND st' ∧ st'.Cache = st.Cache := by
  cases r with
  | known m => exact ⟨m, st, rfl, .refl m, hr, hst, rfl⟩
  | getOrCreate base offsets lifetime =>
    obtain ⟨m, st', hcall, hprofile, hmem, hst', hcache⟩ := getOrCreate_spec hst hr
    exact ⟨m, st', hcall, hprofile, hst'.bounded m hmem, hst', hcache⟩

/-- `create` asks for a location by its profile. -/
theorem create_eq_getOrCreate {V : Value} (h : AbstractMemoryLocation.create BOUND V = some r) :
    ∃ base offsets lifetime, r = .getOrCreate base offsets lifetime := by
  unfold AbstractMemoryLocation.create at h
  split_ifs at h
  · exact ⟨_, _, _, (Option.some.inj h).symm⟩
  · exact ⟨_, _, _, (Option.some.inj h).symm⟩
  · generalize followOperands BOUND V [0] 1 = result at h
    obtain ⟨Baseptr, Offs, Ver⟩ := result
    dsimp only at h
    split_ifs at h
    · exact ⟨_, _, _, (Option.some.inj h).symm⟩
    · exact ⟨_, _, _, (Option.some.inj h).symm⟩

/-- `create` returns what is in the cache, or puts its answer there. -/
theorem createImpl_spec (hst : Invariant BOUND st) {V : Value}
    (hr : AbstractMemoryLocation.create BOUND V = some r) (hbounded : Bounded BOUND (location r)) :
    ∃ m st', st.createImpl BOUND V = some (m, st') ∧ SameProfile m (location r) ∧ Bounded BOUND m ∧
      Invariant BOUND st' := by
  unfold createImpl
  cases hcache : st.Cache V with
  | some m =>
    obtain ⟨hm, r', hr', hprofile⟩ := hst.cached V m hcache
    obtain rfl := Option.some.inj (hr.symm.trans hr')
    exact ⟨m, st, rfl, hprofile, hst.bounded m hm, hst⟩
  | none =>
    obtain ⟨base, offsets, lifetime, rfl⟩ := create_eq_getOrCreate hr
    obtain ⟨m, st', hcall, hprofile, hmem, hst', -⟩ := getOrCreate_spec hst hbounded
    refine ⟨m, { st' with Cache := Function.update st'.Cache V (some m) }, ?_, hprofile,
      hst'.bounded m hmem, hst'.bounded, fun V' m' hV' => ?_⟩
    · rw [hr, Option.bind_some, answer, hcall]
      rfl
    · by_cases hVV' : V' = V
      · subst hVV'
        have hm' : some m = some m' := (Function.update_self V' (some m) st'.Cache).symm.trans hV'
        obtain rfl := Option.some.inj hm'
        exact ⟨hmem, _, hr, hprofile⟩
      · exact hst'.cached V' m' ((Function.update_of_ne hVV' (some m) st'.Cache).symm.trans hV')

theorem call_of_ne_create (h : ∀ V, c ≠ .create V) : st.call BOUND c = (c.request BOUND).bind st.answer := by
  cases c with
  | create V => exact absurd rfl (h V)
  | _ => rfl

/-- A call returns a bounded location, with the profile that is asked for. -/
theorem call_spec (hBOUND : 1 ≤ BOUND) (hst : Invariant BOUND st) (hc : c.Valid BOUND st) :
    ∃ r m st', c.request BOUND = some r ∧ st.call BOUND c = some (m, st') ∧ SameProfile m (location r) ∧
      Bounded BOUND m ∧ Invariant BOUND st' := by
  have hargs : ∀ m ∈ c.arguments, Bounded BOUND m := by
    intro m hm
    rcases hc.arguments m hm with hmem | rfl
    · exact hst.bounded m hmem
    · exact bounded_zero BOUND
  obtain ⟨r, hr, hbounded⟩ := request_bounded hBOUND hargs hc.version
  by_cases hcreate : ∃ V, c = .create V
  · obtain ⟨V, rfl⟩ := hcreate
    obtain ⟨m, st', hcall, hm⟩ := createImpl_spec hst hr hbounded
    exact ⟨r, m, st', hr, hcall, hm⟩
  · obtain ⟨m, st', hcall, hprofile, hm, hst', -⟩ := answer_spec hst hbounded
    refine ⟨r, m, st', hr, ?_, hprofile, hm, hst'⟩
    rw [call_of_ne_create fun V hV => hcreate ⟨V, hV⟩, hr, Option.bind_some, hcall]

theorem invariant_init (BOUND : ℕ) : Invariant BOUND init :=
  ⟨fun m hm => absurd hm (by simp [init]), fun V m hV => absurd hV (by simp [init])⟩

theorem Reachable.invariant (hBOUND : 1 ≤ BOUND) (h : Reachable BOUND st) : Invariant BOUND st := by
  induction h with
  | init => exact invariant_init BOUND
  | call _ hc hcall ih =>
    obtain ⟨r, m, st', -, hcall', -, -, hst'⟩ := call_spec hBOUND ih hc
    obtain ⟨-, rfl⟩ := Prod.mk.inj (Option.some.inj (hcall.symm.trans hcall'))
    exact hst'

/-- After any calls, a call returns a bounded location. Its base, its offsets, and whether its lifetime has
run out are the same after any other calls. -/
theorem call_bounded_canonical (hBOUND : 1 ≤ BOUND) (hst : Reachable BOUND st) (hc : c.Valid BOUND st) :
    ∃ m st', st.call BOUND c = some (m, st') ∧ (m.lifetime ≠ 0 → m.offsets ≠ []) ∧
      m.offsets.length + m.lifetime ≤ BOUND ∧
      ∀ st₂, Reachable BOUND st₂ → c.Valid BOUND st₂ → ∃ m₂ st₂', st₂.call BOUND c = some (m₂, st₂') ∧
        m₂.base = m.base ∧ m₂.offsets = m.offsets ∧ (m₂.lifetime = 0 ↔ m.lifetime = 0) := by
  obtain ⟨r, m, st', hr, hcall, hprofile, hm, -⟩ := call_spec hBOUND (hst.invariant hBOUND) hc
  refine ⟨m, st', hcall, hm.offsets_ne, hm.le, fun st₂ hst₂ hc₂ => ?_⟩
  obtain ⟨r₂, m₂, st₂', hr₂, hcall₂, hprofile₂, -⟩ := call_spec hBOUND (hst₂.invariant hBOUND) hc₂
  obtain rfl := Option.some.inj (hr.symm.trans hr₂)
  have hsame := hprofile₂.trans hprofile.symm
  exact ⟨m₂, st₂', hcall₂, hsame.base, hsame.offsets, hsame.lifetime⟩

/-- A global and a load through it. -/
def global : Value := .leaf 1 true

def loaded : Value := .load 2 (.leaf 3 true)

theorem call_create_loaded : ∃ m st', init.call 3 (.create loaded) = some (m, st') ∧
    (m.lifetime ≠ 0 → m.offsets ≠ []) ∧ m.offsets.length + m.lifetime ≤ 3 ∧
    ∀ st₂, Reachable 3 st₂ → (Call.create loaded).Valid 3 st₂ → ∃ m₂ st₂',
      st₂.call 3 (.create loaded) = some (m₂, st₂') ∧ m₂.base = m.base ∧ m₂.offsets = m.offsets ∧
        (m₂.lifetime = 0 ↔ m.lifetime = 0) :=
  call_bounded_canonical (by decide) .init
    ⟨fun m hm => absurd hm (by simp [Call.arguments]), fun V hV => by cases hV; decide⟩

/-- The locations of some calls, one after the other. -/
def run (BOUND : ℕ) : List Call → Factory → Option (List AbstractMemoryLocation)
  | [], _ => some []
  | c :: calls, st => (st.call BOUND c).bind fun p => (run BOUND calls p.2).map (p.1 :: ·)

/-- The lifetime is that of the first location with the profile: a global has two levels left, or one when
a shorter-lived location has been transferred to it before. With the largest bound, the version of a load
through an unknown offset starts again at zero, and the location is not bounded. -/
theorem run_not_canonical :
    run 3 [.create global] init = some [⟨global, [0], 2⟩] ∧
    run 3 [.create loaded, .withTransferTo ⟨.leaf 3 true, [0, 0], 1⟩ ⟨.leaf 3 true, [0, 0], 1⟩ global,
        .create global] init =
      some [⟨.leaf 3 true, [0, 0], 1⟩, ⟨global, [0], 1⟩, ⟨global, [0], 1⟩] ∧
    run (2 ^ 32 - 1) [.create (.gep 4 false loaded none)] init =
      some [⟨.leaf 3 true, [0, 0], 2 ^ 32 - 1⟩] := by
  decide

end Factory

end Phasar.XTaint
