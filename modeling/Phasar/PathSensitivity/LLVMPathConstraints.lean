import Phasar.Lib.SMTTerm
import Mathlib.Data.List.ReduceOption
import Mathlib.Tactic.Push
import Mathlib.Tactic.Ring

/-!
# Constraints of branches

`LLVMPathConstraints` turns the conditions of branches into terms over unbounded integers: a local
variable is a constant with the name of the variable, a cast is left out, and signed and unsigned
operations are the same. `none` is a fatal error, which is also what the solver makes of an ill-sorted
term.

* `Value`, `Value.eval`: integer values of a function, and what they evaluate to;
* `handleOperand`, `handleCondBrInst`, `getConstraintFromEdge`;
* `Exact`: the values whose term has their signed value, with what this means for the single operations;
* `translate_spec`: their term has the value of the program;
* `keepsExecution_iff`: executions that the constraints do not rule out.
-/

namespace Phasar.LLVMPathConstraints

open SMT

/-! ### Integer values -/

inductive BinaryOps
  | add | sub | mul | uDiv | sDiv | uRem | sRem | shl | lShr | aShr | and | or | xor
  deriving DecidableEq

inductive CastOps
  | trunc | zExt | sExt
  deriving DecidableEq

inductive Predicate
  | eq | ne | ugt | uge | ult | ule | sgt | sge | slt | sle
  deriving DecidableEq

/-- The flags of an operation whose violation makes the result poison. -/
structure Flags where
  nsw : Bool
  nuw : Bool
  exact : Bool

/-- Local variables, with their widths in bits and the names in `S` that `getVarName` finds. -/
structure Locals (A S : Type) where
  width : A → ℕ
  getVarName : A → S

/-- Values of a width, over loads of local variables and literals. -/
inductive Value {A : Type} (width : A → ℕ) : ℕ → Type
  | literal {w : ℕ} (v : BitVec w) : Value width w
  | load (a : A) : Value width (width a)
  | binary {w : ℕ} (op : BinaryOps) (flags : Flags) (lhs rhs : Value width w) : Value width w
  | cast {w : ℕ} (op : CastOps) (operand : Value width w) (w' : ℕ) : Value width w'
  | icmp {w : ℕ} (predicate : Predicate) (lhs rhs : Value width w) : Value width 1

/-- The result of an operation; `none` where it is undefined or poison. -/
def BinaryOps.eval {w : ℕ} (op : BinaryOps) (flags : Flags) (x y : BitVec w) : Option (BitVec w) :=
  match op with
  | .add =>
    if flags.nsw && x.saddOverflow y || flags.nuw && x.uaddOverflow y then none else some (x + y)
  | .sub =>
    if flags.nsw && x.ssubOverflow y || flags.nuw && x.usubOverflow y then none else some (x - y)
  | .mul =>
    if flags.nsw && x.smulOverflow y || flags.nuw && x.umulOverflow y then none else some (x * y)
  | .uDiv => if y = 0 || flags.exact && decide (x.umod y ≠ 0) then none else some (x.udiv y)
  | .sDiv =>
    if y = 0 || x.sdivOverflow y || flags.exact && decide (x.srem y ≠ 0) then none
    else some (x.sdiv y)
  | .uRem => if y = 0 then none else some (x.umod y)
  | .sRem => if y = 0 || x.sdivOverflow y then none else some (x.srem y)
  | .shl =>
    if w ≤ y.toNat || flags.nuw && decide ((x <<< y) >>> y ≠ x) ||
      flags.nsw && decide ((x <<< y).sshiftRight y.toNat ≠ x) then none else some (x <<< y)
  | .lShr =>
    if w ≤ y.toNat || flags.exact && decide ((x >>> y) <<< y ≠ x) then none else some (x >>> y)
  | .aShr =>
    if w ≤ y.toNat || flags.exact && decide ((x >>> y) <<< y ≠ x) then none
    else some (x.sshiftRight y.toNat)
  | .and => some (x &&& y)
  | .or => some (x ||| y)
  | .xor => some (x ^^^ y)

def CastOps.eval {w : ℕ} (op : CastOps) (x : BitVec w) (w' : ℕ) : BitVec w' :=
  match op with
  | .trunc | .zExt => x.setWidth w'
  | .sExt => x.signExtend w'

def Predicate.eval {w : ℕ} (p : Predicate) (x y : BitVec w) : Bool :=
  match p with
  | .eq => decide (x = y)
  | .ne => decide (x ≠ y)
  | .ugt => y.ult x
  | .uge => y.ule x
  | .ult => x.ult y
  | .ule => x.ule y
  | .sgt => y.slt x
  | .sge => y.sle x
  | .slt => x.slt y
  | .sle => x.sle y

/-- What a value evaluates to, with the given values of the local variables. -/
def Value.eval {A : Type} {width : A → ℕ} (σ : (a : A) → BitVec (width a)) :
    {w : ℕ} → Value width w → Option (BitVec w)
  | _, .literal v => some v
  | _, .load a => some (σ a)
  | _, .binary op flags lhs rhs => do
    let x ← lhs.eval σ
    let y ← rhs.eval σ
    op.eval flags x y
  | _, .cast op operand w' => (operand.eval σ).map (op.eval · w')
  | _, .icmp p lhs rhs => do
    let x ← lhs.eval σ
    let y ← rhs.eval σ
    some (BitVec.ofBool (p.eval x y))

/-! ### The constraints -/

variable {A S : Type} (L : Locals A S)

/-- The sort of the constant for a local variable. -/
def sortOfLocal (a : A) : Srt := if L.width a = 1 then .bool else .int

/-- `getAllocaInstAsZ3`. -/
def getAllocaInstAsZ3 (a : A) : Expr S := ⟨sortOfLocal L a, .const _ (L.getVarName a)⟩

/-- `getLiteralAsZ3`; `getSExtValue` asserts that the value has 64 bits. -/
def getLiteralAsZ3 {w : ℕ} (v : BitVec w) : Option (Expr S) :=
  if -2 ^ 63 ≤ v.toInt ∧ v.toInt < 2 ^ 63 then some ⟨.int, .intVal v.toInt⟩ else none

/-- The operation on integers. Shifts are for bit vectors only. -/
def BinaryOps.arith : BinaryOps → Option ArithOp
  | .add => some .add
  | .sub => some .sub
  | .mul => some .mul
  | .uDiv | .sDiv => some .div
  | .uRem | .sRem => some .rem
  | .shl | .lShr | .aShr | .and | .or | .xor => none

/-- The operation on truth values. -/
def BinaryOps.logic : BinaryOps → Option BoolOp
  | .and => some .and
  | .or => some .or
  | .xor => some .xor
  | _ => none

/-- The `switch` of `handleBinaryOperator`. -/
def binaryExpr (op : BinaryOps) : Expr S → Expr S → Option (Expr S)
  | ⟨.int, a⟩, ⟨.int, b⟩ => op.arith.map fun o => ⟨.int, .arith o a b⟩
  | ⟨.bool, a⟩, ⟨.bool, b⟩ => op.logic.map fun o => ⟨.bool, .logic o a b⟩
  | _, _ => none

/-- The comparison of integers; signed and unsigned ones are the same. -/
def Predicate.cmp : Predicate → Option CmpOp
  | .eq | .ne => none
  | .ugt | .sgt => some .gt
  | .uge | .sge => some .ge
  | .ult | .slt => some .lt
  | .ule | .sle => some .le

/-- The `switch` of `handleCmpInst`. -/
def cmpExpr (p : Predicate) : Expr S → Expr S → Option (Term S .bool)
  | ⟨.int, a⟩, ⟨.int, b⟩ =>
    match p with
    | .eq => some (.eq a b)
    | .ne => some (.not (.eq a b))
    | _ => p.cmp.map fun o => .cmp o a b
  | ⟨.bool, a⟩, ⟨.bool, b⟩ =>
    match p with
    | .eq => some (.eq a b)
    | .ne => some (.not (.eq a b))
    | _ => none
  | _, _ => none

/-- `HandleOperand` of `handleBinaryOperator` and `handleCmpInst`, together with the former: one cast is
left out, and neither another one nor a comparison is handled. -/
def handleOperand : (stripCast : Bool) → {w : ℕ} → Value L.width w → Option (Expr S)
  | _, _, .literal v => getLiteralAsZ3 v
  | _, _, .load a => some (getAllocaInstAsZ3 L a)
  | _, _, .binary op _ lhs rhs => do
    let l ← handleOperand true lhs
    let r ← handleOperand true rhs
    binaryExpr op l r
  | true, _, .cast _ operand _ => handleOperand false operand
  | false, _, .cast .. => none
  | _, _, .icmp .. => none

/-- `handleCmpInst`. -/
def handleCmpInst {w : ℕ} (p : Predicate) (lhs rhs : Value L.width w) : Option (Term S .bool) := do
  let l ← handleOperand L true lhs
  let r ← handleOperand L true rhs
  cmpExpr p l r

/-- A conditional branch between blocks. -/
structure BranchInst (A B : Type) (width : A → ℕ) where
  cond : Value width 1
  ifTrue : B
  ifFalse : B

/-- The negation of a constraint. -/
def negate : Expr S → Option (Expr S)
  | ⟨.bool, t⟩ => some ⟨.bool, .not t⟩
  | ⟨.int, _⟩ => none

section Constraints

variable {B : Type} [DecidableEq B]

/-- `handleCondBrInst`, for a successor that is one of the labels. -/
def handleCondBrInst (br : BranchInst A B L.width) (succ : B) : Option (Expr S) :=
  match br.cond with
  | .icmp p lhs rhs => (handleCmpInst L p lhs rhs).bind fun t =>
    if br.ifTrue = succ then some ⟨.bool, t⟩ else negate ⟨.bool, t⟩
  | .binary op flags lhs rhs => (handleOperand L true (.binary op flags lhs rhs)).bind fun e =>
    if br.ifTrue = succ then some e else negate e
  | .cast .trunc (.load a) _ =>
    match getAllocaInstAsZ3 L a with
    | ⟨.int, t⟩ => some ⟨.bool, .eq (.arith .mod t (.intVal 2)) (.intVal 1)⟩
    | ⟨.bool, _⟩ => none
  | _ => none

/-- `getConstraintFromEdge`: no constraint if the edge leads to no branch target. The edge is taken to
lead to the first instruction of the block that is not skipped, and a branch target is the first
instruction of a block. -/
def getConstraintFromEdge (skipsFront : B → Bool) (br : BranchInst A B L.width) (succ : B) :
    Option (Option (Expr S)) :=
  if (br.ifTrue = succ ∨ br.ifFalse = succ) ∧ skipsFront succ = false then
    (handleCondBrInst L br succ).map some
  else some none

end Constraints

/-! ### Values that are represented exactly -/

section Exact

variable {L}

/-- The sort of the term for a value. -/
def sortOf : {w : ℕ} → Value L.width w → Srt
  | _, .literal _ => .int
  | _, .load a => sortOfLocal L a
  | _, .binary _ _ lhs _ => sortOf lhs
  | _, .cast _ operand _ => sortOf operand
  | _, .icmp .. => .bool

/-- A bit vector as a signed integer or as a truth value. -/
def reading {w : ℕ} (x : BitVec w) : (s : Srt) → s.Denote
  | .int => x.toInt
  | .bool => decide (x ≠ 0)

/-- An operation on what is read. -/
def BinaryOps.apply (op : BinaryOps) : (s : Srt) → s.Denote → s.Denote → Option s.Denote
  | .int, x, y => op.arith.bind fun o => o.apply x y
  | .bool, x, y => op.logic.map fun o => o.apply x y

/-- A comparison of what is read. -/
def Predicate.apply (p : Predicate) : (s : Srt) → s.Denote → s.Denote → Option Bool
  | .int, x, y =>
    match p with
    | .eq => some (decide (x = y))
    | .ne => some (!decide (x = y))
    | _ => p.cmp.map fun o => o.apply x y
  | .bool, x, y =>
    match p with
    | .eq => some (decide (x = y))
    | .ne => some (!decide (x = y))
    | _ => none

/-- All literals fit into 64 bits, at most the outermost operation of an operand is a cast, casts keep
the signed value, and the signed value of the result of each operation is that of the operation on
unbounded integers, which must exist. Loads of variables with one bit are truth values instead. -/
def Exact (σ : (a : A) → BitVec (L.width a)) :
    (stripCast : Bool) → {w : ℕ} → Value L.width w → Prop
  | _, _, .literal v => -2 ^ 63 ≤ v.toInt ∧ v.toInt < 2 ^ 63
  | _, _, .load _ => True
  | _, _, .binary op flags lhs rhs => Exact σ true lhs ∧ Exact σ true rhs ∧ sortOf lhs = sortOf rhs ∧
    ∀ x y z, lhs.eval σ = some x → rhs.eval σ = some y → op.eval flags x y = some z →
      op.apply (sortOf lhs) (reading x _) (reading y _) = some (reading z _)
  | true, _, .cast op operand w' => Exact σ false operand ∧ ∀ x, operand.eval σ = some x →
    reading (op.eval x w') (sortOf operand) = reading x (sortOf operand)
  | false, _, .cast .. => False
  | _, _, .icmp .. => False

/-- The condition of a branch is a comparison of exact operands that does not depend on their
signedness, or an exact operation on truth values. If it is the last bit of a variable, it must be set. -/
def ExactCond (σ : (a : A) → BitVec (L.width a)) : Value L.width 1 → Prop
  | .icmp p lhs rhs => Exact σ true lhs ∧ Exact σ true rhs ∧ sortOf lhs = sortOf rhs ∧
    ∀ x y, lhs.eval σ = some x → rhs.eval σ = some y →
      p.apply (sortOf lhs) (reading x _) (reading y _) = some (p.eval x y)
  | .binary op flags lhs rhs => Exact σ true (.binary op flags lhs rhs) ∧ sortOf lhs = .bool
  | .cast .trunc (.load a) _ => L.width a ≠ 1 ∧ (σ a).setWidth 1 = 1
  | _ => False

/-! What exactness means for single operations. -/

theorem apply_add_iff {w : ℕ} (x y : BitVec w) :
    BinaryOps.add.apply .int (reading x _) (reading y _) = some (reading (x + y) .int) ↔
      x.saddOverflow y = false := by
  have hadd : BinaryOps.add.apply .int (reading x .int) (reading y .int) =
      some (x.toInt + y.toInt) := rfl
  rw [hadd, Option.some_inj]
  constructor
  · intro h
    change x.toInt + y.toInt = (x + y).toInt at h
    have hlt := BitVec.toInt_lt (x := x + y)
    have hle := BitVec.le_toInt (x := x + y)
    simp only [BitVec.saddOverflow, Bool.or_eq_false_iff, decide_eq_false_iff_not]
    omega
  · intro h
    exact (BitVec.toInt_add_of_not_saddOverflow (by simp [h])).symm

theorem apply_sDiv_iff {w : ℕ} (x y : BitVec w) (hy : y ≠ 0) (h : x.sdivOverflow y = false) :
    BinaryOps.sDiv.apply .int (reading x _) (reading y _) = some (reading (x.sdiv y) .int) ↔
      0 ≤ x.toInt ∨ y.toInt ∣ x.toInt := by
  have hy' : y.toInt ≠ 0 := fun h0 => hy (BitVec.toInt_inj.mp (by simpa using h0))
  have hdiv : BinaryOps.sDiv.apply .int (reading x .int) (reading y .int) =
      some (x.toInt / y.toInt) := by
    change (if y.toInt = 0 then none else some (x.toInt / y.toInt)) = _
    rw [if_neg hy']
  have hsdiv : (x.sdiv y).toInt = x.toInt.tdiv y.toInt := by
    refine BitVec.toInt_sdiv_of_ne_or_ne x y ?_
    by_contra hno
    push Not at hno
    obtain rfl | hw := Nat.eq_zero_or_pos w
    · exact hy (BitVec.of_length_zero)
    · rw [BitVec.sdivOverflow_eq, hno.1, hno.2, BitVec.neg_one_eq_allOnes] at h
      simp [hw] at h
  rw [hdiv, Option.some_inj]
  change x.toInt / y.toInt = (x.sdiv y).toInt ↔ _
  rw [hsdiv, Int.tdiv_eq_ediv]
  have hsign : Int.sign y.toInt ≠ 0 := by rwa [Ne, Int.sign_eq_zero_iff_zero]
  constructor
  · intro h
    by_contra hno
    rw [if_neg hno] at h
    omega
  · intro h
    rw [if_pos h, Int.add_zero]

theorem apply_slt {w : ℕ} (x y : BitVec w) :
    Predicate.slt.apply .int (reading x _) (reading y _) = some (x.slt y) := rfl

theorem apply_ult_iff {w : ℕ} (x y : BitVec w) :
    Predicate.ult.apply .int (reading x _) (reading y _) = some (x.ult y) ↔ x.msb = y.msb := by
  have hlt : Predicate.ult.apply .int (reading x .int) (reading y .int) = some (x.slt y) := rfl
  rw [hlt, Option.some_inj, BitVec.slt_eq_ult]
  cases x.msb <;> cases y.msb <;> cases x.ult y <;> decide

/-- The last bit of a bit vector is the remainder of its signed value. -/
theorem emod_two_of_setWidth {w : ℕ} {x : BitVec w} (h : x.setWidth 1 = 1) : x.toInt % 2 = 1 := by
  have hnat : x.toNat % 2 = 1 := by simpa using congrArg BitVec.toNat h
  have hw : w ≠ 0 := by
    rintro rfl
    simp [BitVec.of_length_zero] at hnat
  obtain ⟨k, rfl⟩ := Nat.exists_eq_succ_of_ne_zero hw
  have hpow : (2 : ℤ) ^ (k + 1) = 2 * 2 ^ k := by ring
  rw [BitVec.toInt_eq_msb_cond]
  split <;> push_cast <;> omega

end Exact

/-! ### The value of a term -/

section Translate

variable {L} {M : Model S}

theorem eval_binaryExpr {op : BinaryOps} : ∀ {s : Srt} (a b : Term S s) {z : s.Denote},
    op.apply s (a.eval M) (b.eval M) = some z →
    ∃ t : Term S s, binaryExpr op ⟨s, a⟩ ⟨s, b⟩ = some ⟨s, t⟩ ∧ t.eval M = z
  | .int, a, b, z, h => by
    obtain ⟨o, ho, hz⟩ := Option.bind_eq_some_iff.mp h
    refine ⟨.arith o a b, by simp [binaryExpr, ho], ?_⟩
    rw [Term.eval, hz, Option.getD_some]
  | .bool, a, b, z, h => by
    obtain ⟨o, ho, hz⟩ := Option.map_eq_some_iff.mp h
    exact ⟨.logic o a b, by simp [binaryExpr, ho], hz⟩

theorem eval_cmpExpr {p : Predicate} : ∀ {s : Srt} (a b : Term S s) {z : Bool},
    p.apply s (a.eval M) (b.eval M) = some z →
    ∃ t : Term S .bool, cmpExpr p ⟨s, a⟩ ⟨s, b⟩ = some t ∧ t.eval M = z
  | .int, a, b, z, h => by
    cases p <;> simp_all [Predicate.apply, cmpExpr, Predicate.cmp, Term.eval]
  | .bool, a, b, z, h => by
    cases p <;> simp_all [Predicate.apply, cmpExpr, Term.eval]

/-- The variables that a value loads. -/
def Value.loads {width : A → ℕ} : {w : ℕ} → Value width w → List A
  | _, .literal _ => []
  | _, .load a => [a]
  | _, .binary _ _ lhs rhs => lhs.loads ++ rhs.loads
  | _, .cast _ operand _ => operand.loads
  | _, .icmp _ lhs rhs => lhs.loads ++ rhs.loads

/-- The constants have the values of the given variables. -/
def Reads (M : Model S) (σ : (a : A) → BitVec (L.width a)) (as : List A) : Prop :=
  ∀ a ∈ as, M.value (sortOfLocal L a) (L.getVarName a) = reading (σ a) _

theorem Reads.mono {σ : (a : A) → BitVec (L.width a)} {as bs : List A} (h : Reads M σ bs)
    (hsub : as ⊆ bs) : Reads M σ as := fun a ha => h a (hsub ha)

variable {σ : (a : A) → BitVec (L.width a)}

/-- Variables with the same constant have the same value. -/
def NamesOk (σ : (a : A) → BitVec (L.width a)) (as : List A) : Prop :=
  ∀ a ∈ as, ∀ b ∈ as, L.getVarName a = L.getVarName b → (h : sortOfLocal L a = sortOfLocal L b) →
    reading (σ a) (sortOfLocal L b) = reading (σ b) (sortOfLocal L b)

theorem NamesOk.exists_model {as : List A} (h : NamesOk (L := L) σ as) :
    ∃ M : Model S, Reads M σ as := by
  classical
  let value : (s : Srt) → S → s.Denote := fun s name =>
    if hex : ∃ a ∈ as, L.getVarName a = name ∧ sortOfLocal L a = s then reading (σ hex.choose) s
    else reading 0#0 s
  refine ⟨⟨value, fun _ x => x⟩, fun a ha => ?_⟩
  have hex : ∃ b ∈ as, L.getVarName b = L.getVarName a ∧ sortOfLocal L b = sortOfLocal L a :=
    ⟨a, ha, rfl, rfl⟩
  have hvalue : value (sortOfLocal L a) (L.getVarName a) = reading (σ hex.choose) (sortOfLocal L a) :=
    dif_pos hex
  obtain ⟨hmem, hname, hsort⟩ := hex.choose_spec
  exact hvalue.trans (h _ hmem a ha hname hsort)

/-- The term of an exact value has its value. -/
theorem translate_spec {w : ℕ} (v : Value L.width w) : ∀ {stripCast : Bool} {x : BitVec w},
    Reads M σ v.loads → Exact σ stripCast v → v.eval σ = some x →
    ∃ t : Term S (sortOf v), handleOperand L stripCast v = some ⟨_, t⟩ ∧ t.eval M = reading x _ := by
  induction v with
  | literal v =>
    intro _ x _ hexact hv
    obtain rfl : v = x := Option.some_inj.mp hv
    refine ⟨.intVal v.toInt, ?_, rfl⟩
    rw [handleOperand]
    exact if_pos (by simpa only [Exact] using hexact)
  | load a =>
    intro _ x hM _ hv
    obtain rfl : σ a = x := Option.some_inj.mp hv
    refine ⟨.const _ (L.getVarName a), ?_, hM a (List.mem_singleton_self a)⟩
    rw [handleOperand]
    rfl
  | binary op flags lhs rhs ihl ihr =>
    intro b z hM hexact hv
    rw [Exact] at hexact
    obtain ⟨hl, hr, hsort, hop⟩ := hexact
    simp only [Value.eval, Option.bind_eq_bind, Option.bind_eq_some_iff] at hv
    obtain ⟨x, hx, y, hy, hz⟩ := hv
    obtain ⟨t, ht, htx⟩ := ihl (hM.mono (List.subset_append_left _ _)) hl hx
    obtain ⟨u, hu, huy⟩ := ihr (hM.mono (List.subset_append_right _ _)) hr hy
    have happ := hop x y z hx hy hz
    revert u
    rw [← hsort]
    intro u hu huy
    rw [← htx, ← huy] at happ
    obtain ⟨r, hr, hrz⟩ := eval_binaryExpr t u happ
    exact ⟨r, by rw [handleOperand, ht, hu]; exact hr, hrz⟩
  | cast op operand w' ih =>
    intro b z hM hexact hv
    cases b with
    | false => exact absurd hexact (by simp [Exact])
    | true =>
      rw [Exact] at hexact
      obtain ⟨ho, hcast⟩ := hexact
      obtain ⟨x, hx, rfl⟩ := Option.map_eq_some_iff.mp hv
      obtain ⟨t, ht, htx⟩ := ih hM ho hx
      exact ⟨t, by rw [handleOperand]; exact ht, htx.trans (hcast x hx).symm⟩
  | icmp p lhs rhs =>
    intro _ x _ hexact _
    exact absurd hexact (by simp [Exact])

/-- A condition that is the last bit of a variable. -/
def isTruncOfLoad {width : A → ℕ} : {w : ℕ} → Value width w → Bool
  | _, .cast .trunc (.load _) _ => true
  | _, _ => false

variable {B : Type} {br : BranchInst A B L.width} {succ : B}

/-- An edge that is taken when the variables have the values `σ`. -/
def Taken (σ : (a : A) → BitVec (L.width a)) (br : BranchInst A B L.width) (succ : B) : Prop :=
  ∃ c, br.cond.eval σ = some c ∧ succ = if c = 1 then br.ifTrue else br.ifFalse

theorem Taken.label (h : Taken σ br succ) : succ = br.ifTrue ∨ succ = br.ifFalse := by
  obtain ⟨c, -, rfl⟩ := h
  by_cases hc : c = 1
  · exact Or.inl (if_pos hc)
  · exact Or.inr (if_neg hc)

/-- One of the edges has no constraint, or the constraints of the two edges are different. -/
def Exclusive (skipsFront : B → Bool) (br : BranchInst A B L.width) : Prop :=
  skipsFront br.ifTrue = true ∨ skipsFront br.ifFalse = true ∨
    br.ifTrue ≠ br.ifFalse ∧ isTruncOfLoad br.cond = false

variable {skipsFront : B → Bool}

theorem Exclusive.labels_ne (h : Exclusive skipsFront br) (hsucc : succ = br.ifTrue ∨ succ = br.ifFalse)
    (hskip : skipsFront succ = false) : br.ifTrue ≠ br.ifFalse := by
  intro hlabels
  have hboth : skipsFront br.ifTrue = false ∧ skipsFront br.ifFalse = false := by
    obtain rfl | rfl := hsucc
    · exact ⟨hskip, hlabels ▸ hskip⟩
    · exact ⟨hlabels ▸ hskip, hskip⟩
  obtain h | h | h := h
  · simp [hboth.1] at h
  · simp [hboth.2] at h
  · exact h.1 hlabels

/-- The edges with a constraint. -/
def constrained (skipsFront : B → Bool) (edges : List (BranchInst A B L.width × B)) :
    List (BranchInst A B L.width × B) := edges.filter fun e => !skipsFront e.2

variable [DecidableEq B]

theorem handleCmpInst_spec {w : ℕ} {p : Predicate} {lhs rhs : Value L.width w} {c : BitVec 1}
    (hM : Reads M σ (Value.icmp p lhs rhs).loads) (hexact : ExactCond σ (.icmp p lhs rhs))
    (hc : (Value.icmp p lhs rhs).eval σ = some c) :
    ∃ t, handleCmpInst L p lhs rhs = some t ∧ t.eval M = decide (c ≠ 0) := by
  obtain ⟨hl, hr, hsort, hcmp⟩ := hexact
  simp only [Value.eval, Option.bind_eq_bind, Option.bind_eq_some_iff] at hc
  obtain ⟨x, hx, y, hy, hxy⟩ := hc
  obtain ⟨t, ht, htx⟩ := translate_spec lhs (hM.mono (List.subset_append_left _ _)) hl hx
  obtain ⟨u, hu, huy⟩ := translate_spec rhs (hM.mono (List.subset_append_right _ _)) hr hy
  have happ := hcmp x y hx hy
  revert u
  rw [← hsort]
  intro u hu huy
  rw [← htx, ← huy] at happ
  obtain ⟨r, hr, hrz⟩ := eval_cmpExpr t u happ
  refine ⟨r, by rw [handleCmpInst, ht, hu]; exact hr, ?_⟩
  rw [hrz, ← Option.some_inj.mp hxy]
  cases p.eval x y <;> rfl

/-- The term of a condition, which is negated for the other edge. -/
theorem exists_term_of_exactCond (br : BranchInst A B L.width) {c : BitVec 1}
    (hM : Reads M σ br.cond.loads) (hexact : ExactCond σ br.cond) (hc : br.cond.eval σ = some c)
    (htrunc : isTruncOfLoad br.cond = false) : ∃ t : Term S .bool, t.eval M = decide (c ≠ 0) ∧
      ∀ succ, handleCondBrInst L br succ =
        some (if br.ifTrue = succ then ⟨.bool, t⟩ else ⟨.bool, t.not⟩) := by
  obtain ⟨cond, ifTrue, ifFalse⟩ := br
  have hexact' := hexact
  unfold ExactCond at hexact
  dsimp only at *
  split at hexact
  case h_1 p lhs rhs =>
    obtain ⟨t, ht, hval⟩ := handleCmpInst_spec hM hexact' hc
    refine ⟨t, hval, fun succ => ?_⟩
    simp only [handleCondBrInst, ht, Option.bind_some, negate]
    split <;> rfl
  case h_2 op flags lhs rhs =>
    obtain ⟨t, ht, hval⟩ := translate_spec _ hM hexact.1 hc
    revert t
    rw [show sortOf (.binary op flags lhs rhs) = .bool from hexact.2]
    intro t ht hval
    refine ⟨t, hval, fun succ => ?_⟩
    simp only [handleCondBrInst, ht, Option.bind_some, negate]
    split <;> rfl
  case h_3 => exact absurd htrunc (by simp [isTruncOfLoad])
  case h_4 => exact hexact.elim

/-- The last bit of a variable is the same constraint for both edges. -/
theorem handleCondBrInst_trunc (br : BranchInst A B L.width) (hM : Reads M σ br.cond.loads)
    (hexact : ExactCond σ br.cond)
    (htrunc : isTruncOfLoad br.cond = true) :
    ∃ t : Term S .bool, t.eval M = true ∧ ∀ succ, handleCondBrInst L br succ = some ⟨.bool, t⟩ := by
  obtain ⟨cond, ifTrue, ifFalse⟩ := br
  unfold ExactCond at hexact
  dsimp only at *
  split at hexact
  case h_1 => exact absurd htrunc (by simp [isTruncOfLoad])
  case h_2 => exact absurd htrunc (by simp [isTruncOfLoad])
  case h_3 a =>
    have hsort : sortOfLocal L a = .int := if_neg hexact.1
    have hvalue := hM a (List.mem_singleton_self a)
    rw [hsort] at hvalue
    refine ⟨.eq (.arith .mod (.const .int (L.getVarName a)) (.intVal 2)) (.intVal 1), ?_, ?_⟩
    · simp [Term.eval, hvalue, ArithOp.apply, reading, emod_two_of_setWidth hexact.2]
    · intro succ
      simp only [handleCondBrInst, getAllocaInstAsZ3]
      rw [hsort]
  case h_4 => exact hexact.elim

/-- The constraint of a taken edge holds of the values of the program. -/
theorem holds_handleCondBrInst (hM : Reads M σ br.cond.loads) (hexact : ExactCond σ br.cond)
    (hlabels : br.ifTrue ≠ br.ifFalse) (htaken : Taken σ br succ) :
    ∃ e, handleCondBrInst L br succ = some e ∧ Holds M e := by
  obtain ⟨c, hc, rfl⟩ := htaken
  cases htrunc : isTruncOfLoad br.cond with
  | true =>
    obtain ⟨t, ht, hbr⟩ := handleCondBrInst_trunc br hM hexact htrunc
    exact ⟨_, hbr _, holds_bool.mpr ht⟩
  | false =>
    obtain ⟨t, ht, hbr⟩ := exists_term_of_exactCond br hM hexact hc htrunc
    refine ⟨_, hbr _, ?_⟩
    have hbit : ∀ b : BitVec 1, b = 0 ∨ b = 1 := by decide
    have hne : ¬(0 : BitVec 1) = 1 := by decide
    obtain rfl | rfl := hbit c
    · rw [if_neg hne, if_neg hlabels, holds_bool, Term.eval, ht]
      rfl
    · rw [if_pos rfl, if_pos rfl, holds_bool, ht]
      rfl

end Translate

/-! ### Executions -/

section Executions

variable {L} {M : Model S} {σ : (a : A) → BitVec (L.width a)} {B : Type} [DecidableEq B]
  {br : BranchInst A B L.width} {succ : B} {skipsFront : B → Bool}

theorem not_holds_both {e e' : Expr S} (hlabels : br.ifTrue ≠ br.ifFalse)
    (htrunc : isTruncOfLoad br.cond = false) (he : handleCondBrInst L br br.ifTrue = some e)
    (he' : handleCondBrInst L br br.ifFalse = some e') : ¬(Holds M e ∧ Holds M e') := by
  have hneg : negate e = some e' := by
    obtain ⟨cond, ifTrue, ifFalse⟩ := br
    unfold handleCondBrInst at he he'
    dsimp only at *
    split at he
    case h_1 p lhs rhs =>
      obtain ⟨t, ht, he⟩ := Option.bind_eq_some_iff.mp he
      dsimp only at he'
      rw [ht, Option.bind_some, if_neg hlabels] at he'
      rw [if_pos rfl, Option.some_inj] at he
      rwa [← he]
    case h_2 op flags lhs rhs =>
      obtain ⟨t, ht, he⟩ := Option.bind_eq_some_iff.mp he
      dsimp only at he'
      rw [ht, Option.bind_some, if_neg hlabels] at he'
      rw [if_pos rfl, Option.some_inj] at he
      rwa [← he]
    case h_3 => exact absurd htrunc (by simp [isTruncOfLoad])
    case h_4 => cases he
  rintro ⟨h, h'⟩
  obtain ⟨t, rfl, ht⟩ := h
  obtain rfl : (⟨.bool, t.not⟩ : Expr S) = e' := Option.some_inj.mp hneg
  exact not_holds_not (holds_bool.mpr ht) h'

theorem handleCondBrInst_ifFalse
    (h : ¬(br.ifTrue ≠ br.ifFalse ∧ isTruncOfLoad br.cond = false)) :
    handleCondBrInst L br br.ifTrue = handleCondBrInst L br br.ifFalse := by
  by_cases hlabels : br.ifTrue = br.ifFalse
  · rw [hlabels]
  · have htrunc : isTruncOfLoad br.cond ≠ false := fun htrunc => h ⟨hlabels, htrunc⟩
    obtain ⟨cond, ifTrue, ifFalse⟩ := br
    unfold handleCondBrInst
    dsimp only at *
    split
    case h_1 => exact absurd rfl htrunc
    case h_2 => exact absurd rfl htrunc
    all_goals rfl

/-- The constraints on the edges. -/
def getConstraints (L : Locals A S) (skipsFront : B → Bool) (edges : List (BranchInst A B L.width × B)) :
    Option (List (Option (Expr S))) :=
  edges.mapM fun e => getConstraintFromEdge L skipsFront e.1 e.2

/-- There are constraints on the edges, they can be satisfied, and no values satisfy those of both edges of
a branch. -/
structure KeepsExecution (skipsFront : B → Bool) (edges : List (BranchInst A B L.width × B)) : Prop where
  satisfiable : ∃ cs, getConstraints L skipsFront edges = some cs ∧ Satisfiable cs.reduceOption
  exclusive : ∀ e ∈ edges, ∀ t f, getConstraintFromEdge L skipsFront e.1 e.1.ifTrue = some (some t) →
    getConstraintFromEdge L skipsFront e.1 e.1.ifFalse = some (some f) →
    ∀ M : Model S, ¬(Holds M t ∧ Holds M f)

/-- Terms that exist for all elements, with a property. -/
theorem exists_mapM {α β : Type} {f : α → Option β} {P : β → Prop} {l : List α}
    (h : ∀ a ∈ l, ∃ b, f a = some b ∧ P b) : ∃ bs, l.mapM f = some bs ∧ ∀ b ∈ bs, P b := by
  induction l with
  | nil => exact ⟨[], rfl, by simp⟩
  | cons a l ih =>
    obtain ⟨b, hb, hPb⟩ := h a List.mem_cons_self
    obtain ⟨bs, hbs, hP⟩ := ih fun a' ha' => h a' (List.mem_cons_of_mem _ ha')
    exact ⟨b :: bs, by simp [hb, hbs], List.forall_mem_cons.mpr ⟨hPb, hP⟩⟩

theorem mem_of_mapM {α β : Type} {f : α → Option β} {l : List α} {bs : List β}
    (h : l.mapM f = some bs) {a : α} (ha : a ∈ l) : ∃ b ∈ bs, f a = some b := by
  induction l generalizing bs with
  | nil => cases ha
  | cons a' l ih =>
    simp only [List.mapM_cons, Option.bind_eq_bind, Option.bind_eq_some_iff, Option.pure_def,
      Option.some_inj] at h
    obtain ⟨b, hb, bs', hbs', rfl⟩ := h
    obtain rfl | ha := List.mem_cons.mp ha
    · exact ⟨b, List.mem_cons_self, hb⟩
    · obtain ⟨b', hb', hf⟩ := ih hbs' ha
      exact ⟨b', List.mem_cons_of_mem _ hb', hf⟩

variable {edges : List (BranchInst A B L.width × B)}

theorem getConstraintFromEdge_label (br : BranchInst A B L.width) (h : succ = br.ifTrue ∨ succ = br.ifFalse)
    (hskip : skipsFront succ = false) :
    getConstraintFromEdge L skipsFront br succ = (handleCondBrInst L br succ).map some :=
  if_pos ⟨h.imp Eq.symm Eq.symm, hskip⟩

theorem getConstraintFromEdge_of_skipsFront (hskip : skipsFront succ = true) :
    getConstraintFromEdge L skipsFront br succ = some none :=
  if_neg fun h => by simp [hskip] at h

/-- A branch whose edges have the same constraint is never kept. -/
theorem KeepsExecution.exclusive_of_taken (h : KeepsExecution skipsFront edges)
    {e : BranchInst A B L.width × B} (he : e ∈ edges) (htaken : Taken σ e.1 e.2) :
    Exclusive skipsFront e.1 := by
  obtain ⟨br, succ⟩ := e
  by_contra hexcl
  simp only [Exclusive, not_or, Bool.not_eq_true] at hexcl
  obtain ⟨hskipTrue, hskipFalse, hcond⟩ := hexcl
  have hsame := handleCondBrInst_ifFalse (L := L) hcond
  have hTrue := getConstraintFromEdge_label (L := L) br (Or.inl rfl) hskipTrue
  have hFalse := getConstraintFromEdge_label (L := L) br (Or.inr rfl) hskipFalse
  have hsucc : getConstraintFromEdge L skipsFront br succ =
      (handleCondBrInst L br br.ifTrue).map some := by
    obtain hlabel | hlabel : succ = br.ifTrue ∨ succ = br.ifFalse := htaken.label
    · rw [hlabel]
      exact hTrue
    · rw [hlabel, hsame]
      exact hFalse
  obtain ⟨cs, hcs, M, hM⟩ := h.satisfiable
  obtain ⟨oc, hoc, hbr⟩ := mem_of_mapM hcs he
  obtain ⟨c, hc, rfl⟩ := Option.map_eq_some_iff.mp (hsucc.symm.trans hbr)
  have hholds := hM c (List.reduceOption_mem_iff.mpr hoc)
  refine h.exclusive _ he c c ?_ ?_ M ⟨hholds, hholds⟩
  · rw [hTrue, hc, Option.map_some]
  · rw [hFalse, ← hsame, hc, Option.map_some]

theorem Exclusive.not_holds (h : Exclusive skipsFront br) {t f : Expr S}
    (ht : getConstraintFromEdge L skipsFront br br.ifTrue = some (some t))
    (hf : getConstraintFromEdge L skipsFront br br.ifFalse = some (some f)) :
    ¬(Holds M t ∧ Holds M f) := by
  have unskipped : ∀ {s : B} {c : Expr S}, getConstraintFromEdge L skipsFront br s = some (some c) →
      skipsFront s = false := by
    intro s c hs
    by_contra hskip
    rw [getConstraintFromEdge_of_skipsFront (by simpa using hskip)] at hs
    cases hs
  have hskipTrue := unskipped ht
  have hskipFalse := unskipped hf
  obtain h | h | ⟨hlabels, htrunc⟩ := h
  · simp [hskipTrue] at h
  · simp [hskipFalse] at h
  · rw [getConstraintFromEdge_label br (Or.inl rfl) hskipTrue] at ht
    rw [getConstraintFromEdge_label br (Or.inr rfl) hskipFalse] at hf
    exact not_holds_both hlabels htrunc (by simpa using ht) (by simpa using hf)

theorem satisfiable_of_exact (htaken : ∀ e ∈ edges, Taken σ e.1 e.2)
    (hexact : ∀ e ∈ edges, skipsFront e.2 = false → ExactCond σ e.1.cond)
    (hnames : NamesOk σ ((constrained skipsFront edges).flatMap fun e => e.1.cond.loads))
    (hexcl : ∀ e ∈ edges, Exclusive skipsFront e.1) :
    ∃ cs, getConstraints L skipsFront edges = some cs ∧ Satisfiable cs.reduceOption := by
  obtain ⟨M, hM⟩ := hnames.exists_model
  have hedge : ∀ e ∈ edges, ∃ oc, getConstraintFromEdge L skipsFront e.1 e.2 = some oc ∧
      ∀ c, oc = some c → Holds M c := by
    intro e he
    cases hskip : skipsFront e.2 with
    | true => exact ⟨none, getConstraintFromEdge_of_skipsFront hskip, by simp⟩
    | false =>
      have hreads : Reads M σ e.1.cond.loads := hM.mono fun a ha =>
        List.mem_flatMap.mpr ⟨e, List.mem_filter.mpr ⟨he, by simp [hskip]⟩, ha⟩
      have hlabel := (htaken e he).label
      obtain ⟨c, hc, hholds⟩ := holds_handleCondBrInst hreads (hexact e he hskip)
        ((hexcl e he).labels_ne hlabel hskip) (htaken e he)
      refine ⟨some c, ?_, fun c' hc' => Option.some_inj.mp hc' ▸ hholds⟩
      rw [getConstraintFromEdge_label e.1 hlabel hskip, hc, Option.map_some]
  obtain ⟨cs, hcs, hholds⟩ := exists_mapM hedge
  exact ⟨cs, hcs, M, fun c hc => hholds _ (List.reduceOption_mem_iff.mp hc) c rfl⟩

/-- The constraints of an execution can be satisfied if its conditions are exact and the names of its
variables tell them apart. Then both edges of a branch are told apart if and only if they differ. -/
theorem keepsExecution_iff (L : Locals A S) (skipsFront : B → Bool)
    (edges : List (BranchInst A B L.width × B)) (σ : (a : A) → BitVec (L.width a))
    (htaken : ∀ e ∈ edges, Taken σ e.1 e.2)
    (hexact : ∀ e ∈ edges, skipsFront e.2 = false → ExactCond σ e.1.cond)
    (hnames : NamesOk σ ((constrained skipsFront edges).flatMap fun e => e.1.cond.loads)) :
    KeepsExecution skipsFront edges ↔ ∀ e ∈ edges, Exclusive skipsFront e.1 := by
  constructor
  · exact fun h e he => h.exclusive_of_taken he (htaken e he)
  · intro hexcl
    exact ⟨satisfiable_of_exact htaken hexact hnames hexcl,
      fun e he t f ht hf M => (hexcl e he).not_holds ht hf⟩

/-- One variable `x` with 32 bits. -/
abbrev oneLocal : Locals Unit String := ⟨fun _ => 32, fun _ => "x"⟩

/-- `x > 5`, unsigned, and then `x < 0`, signed. -/
def overflowEdges (first second : ℕ) : List (BranchInst Unit ℕ oneLocal.width × ℕ) :=
  [(⟨.icmp .ugt (.load ()) (.literal 5#32), 1, 2⟩, first),
    (⟨.icmp .slt (.load ()) (.literal 0#32), 3, 4⟩, second)]

theorem keepsExecution_overflowEdges :
    KeepsExecution (L := oneLocal) (fun _ => false) (overflowEdges 1 4) := by
  refine (keepsExecution_iff oneLocal (fun _ => false) (overflowEdges 1 4) (fun _ => 7#32)
    ?_ ?_ ?_).mpr ?_
  · simp only [overflowEdges, List.forall_mem_cons]
    exact ⟨⟨1#1, rfl, rfl⟩, ⟨0#1, rfl, rfl⟩, by simp⟩
  · simp only [overflowEdges, List.forall_mem_cons]
    refine ⟨fun _ => ⟨trivial, ⟨by decide, by decide⟩, rfl, ?_⟩,
      fun _ => ⟨trivial, ⟨by decide, by decide⟩, rfl, ?_⟩, by simp⟩
    all_goals
      rintro x y ⟨rfl⟩ ⟨rfl⟩
      decide
  · exact fun _ _ _ _ _ _ => rfl
  · simp only [overflowEdges, List.forall_mem_cons]
    exact ⟨Or.inr (Or.inr ⟨by decide, rfl⟩), Or.inr (Or.inr ⟨by decide, rfl⟩), by simp⟩

/-- With all bits of `x` set, both branches are taken, but no integer is large and negative. -/
theorem not_keepsExecution_overflowEdges :
    (∀ e ∈ overflowEdges 1 3, Taken (L := oneLocal) (fun _ => BitVec.allOnes 32) e.1 e.2) ∧
      ¬KeepsExecution (L := oneLocal) (fun _ => false) (overflowEdges 1 3) := by
  constructor
  · simp only [overflowEdges, List.forall_mem_cons]
    exact ⟨⟨1#1, rfl, rfl⟩, ⟨1#1, rfl, rfl⟩, by simp⟩
  · intro h
    obtain ⟨cs, hcs, M, hM⟩ := h.satisfiable
    obtain rfl : [some ⟨.bool, .cmp .gt (.const .int "x") (.intVal 5)⟩,
      some ⟨.bool, .cmp .lt (.const .int "x") (.intVal 0)⟩] = cs := Option.some_inj.mp hcs
    have hgt : Holds M ⟨.bool, .cmp .gt (.const .int "x") (.intVal 5)⟩ := hM _ List.mem_cons_self
    have hlt : Holds M ⟨.bool, .cmp .lt (.const .int "x") (.intVal 0)⟩ :=
      hM _ (List.mem_cons_of_mem _ List.mem_cons_self)
    have hlarge : (5 : ℤ) < M.value .int "x" := of_decide_eq_true (holds_bool.mp hgt)
    have hneg : M.value .int "x" < (0 : ℤ) := of_decide_eq_true (holds_bool.mp hlt)
    exact absurd (lt_trans hlarge hneg : (5 : ℤ) < 0) (by decide)

end Executions

end Phasar.LLVMPathConstraints
