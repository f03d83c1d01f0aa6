import Phasar.Domain.LatticeDomain
import Mathlib.Tactic.Ring
import Mathlib.Tactic.Positivity
import Mathlib.Data.Int.Init

/-!
# Constant folding in the linear constant analysis

The analysis folds binary operations over `int64_t`, whatever the width of their LLVM type, with
each operand the sign extension of a constant of that type. The folded value is compared with what
LLVM defines at the width of the type.

Folding is exact or bottom for the bitwise operations only. For the others the operands decide:
a sum, difference or product must fit the width (or overflow `int64_t`), a signed division or
remainder must not overflow the width, and unsigned division and remainder are computed as if they
were signed.

* `executeBinOperation`, `llvmResult`;
* `FoldsExactly`, `exactOrBottom_iff`.
-/

namespace Phasar.LinearConstantAnalysis

open LatticeDomain

/-- The opcodes that are folded; `other` is any further opcode. -/
inductive Opcode
  | add | sub | mul
  | uDiv | sDiv | uRem | sRem
  | and | or | xor
  | other (opcode : ℕ)
  deriving DecidableEq

/-- `llvm::AddOverflow` and its like: the exact result, unless `int64_t` cannot hold it. -/
def overflowChecked (exact : ℤ) : Option Int64 :=
  if Int64.minValue.toInt ≤ exact ∧ exact ≤ Int64.maxValue.toInt then some (Int64.ofInt exact)
  else none

/-- Division of two `int64_t`; `none` where it is undefined. -/
def quotient (a b : Int64) : Option Int64 :=
  if b = 0 ∨ a = Int64.minValue ∧ b = -1 then none else some (a / b)

/-- Remainder of two `int64_t`; undefined where the quotient is. -/
def remainder (a b : Int64) : Option Int64 :=
  if b = 0 ∨ a = Int64.minValue ∧ b = -1 then none else some (a % b)

/-- A result of `overflowChecked`, or bottom. -/
def valueOrBottom : Option Int64 → LatticeDomain Int64
  | some res => value res
  | none => bottom

/-- `executeBinOperation`; `none` when it runs into an undefined operation. -/
def executeBinOperation (op : Opcode) (lVal rVal : LatticeDomain Int64) :
    Option (LatticeDomain Int64) :=
  match lVal, rVal with
  | value lop, value rop =>
    match op with
    | .add => some (valueOrBottom (overflowChecked (lop.toInt + rop.toInt)))
    | .sub => some (valueOrBottom (overflowChecked (lop.toInt - rop.toInt)))
    | .mul => some (valueOrBottom (overflowChecked (lop.toInt * rop.toInt)))
    -- unsigned operations share the branch of the signed ones
    | .uDiv | .sDiv =>
      if lop = Int64.minValue ∧ rop = -1 then some bottom
      else if rop = 0 then some bottom
      else (quotient lop rop).map value
    | .uRem | .sRem => if rop = 0 then some bottom else (remainder lop rop).map value
    | .and => some (value (lop &&& rop))
    | .or => some (value (lop ||| rop))
    | .xor => some (value (lop ^^^ rop))
    | .other _ => some bottom
  | _, _ => some bottom

/-- `ConstantInt::getSExtValue` of a constant of width `w`. -/
def getSExtValue {w : ℕ} (x : BitVec w) : Int64 := Int64.ofBitVec (x.signExtend 64)

/-- The result LLVM defines for two operands of width `w`; `none` where it defines none. Opcodes that
are not folded are left out. -/
def llvmResult {w : ℕ} (op : Opcode) (x y : BitVec w) : Option (BitVec w) :=
  match op with
  | .add => some (x + y)
  | .sub => some (x - y)
  | .mul => some (x * y)
  | .uDiv => if y = 0 then none else some (x / y)
  | .sDiv => if y = 0 ∨ x = BitVec.intMin w ∧ y = -1 then none else some (x.sdiv y)
  | .uRem => if y = 0 then none else some (x % y)
  | .sRem => if y = 0 ∨ x = BitVec.intMin w ∧ y = -1 then none else some (x.srem y)
  | .and => some (x &&& y)
  | .or => some (x ||| y)
  | .xor => some (x ^^^ y)
  | .other _ => none

/-- Folding two constants performs no undefined operation and gives bottom or the sign extension of
the result LLVM defines. -/
def ExactOrBottom {w : ℕ} (op : Opcode) (x y : BitVec w) : Prop :=
  ∃ res, executeBinOperation op (value (getSExtValue x)) (value (getSExtValue y)) = some res ∧
    (res = bottom ∨ ∃ r, llvmResult op x y = some r ∧ res = value (getSExtValue r))

/-- A result of width `w`, or one that overflows `int64_t`. -/
def FitsOrOverflows (w : ℕ) (exact : ℤ) : Prop :=
  (-2 ^ (w - 1) ≤ exact ∧ exact < 2 ^ (w - 1)) ∨ ¬(-2 ^ 63 ≤ exact ∧ exact < 2 ^ 63)

/-- When the operands `a` and `b` of width `w` are folded exactly. -/
def FoldsExactly (w : ℕ) (op : Opcode) (a b : ℤ) : Prop :=
  match op with
  | .add => FitsOrOverflows w (a + b)
  | .sub => FitsOrOverflows w (a - b)
  | .mul => FitsOrOverflows w (a * b)
  | .uDiv =>
    b = 0 ∨ (a = -2 ^ 63 ∧ b = -1) ∨ (0 ≤ a ∧ 0 < b) ∨ b = 1 ∨ (0 ≤ a ∧ a < -b) ∨ (a = b ∧ 1 < w)
  | .sDiv => ¬(w < 64 ∧ a = -2 ^ (w - 1) ∧ b = -1)
  | .uRem => b = 0 ∨ (0 ≤ a ∧ 0 < b) ∨ (0 < b ∧ b ∣ a ∧ b ∣ 2 ^ w) ∨ (0 ≤ a ∧ a < -b) ∨ a = b
  | .sRem => ¬(a = -2 ^ (w - 1) ∧ b = -1)
  | .and | .or | .xor | .other _ => True

/-! ### Sign extension -/

section SignExtension

variable {w : ℕ}

theorem toInt_getSExtValue (hw : w ≤ 64) (x : BitVec w) : (getSExtValue x).toInt = x.toInt := by
  rw [getSExtValue, Int64.toInt_ofBitVec, BitVec.toInt_signExtend_of_le hw]

theorem getSExtValue_eq_iff (hw : w ≤ 64) {c : Int64} {x : BitVec w} :
    c = getSExtValue x ↔ c.toInt = x.toInt := by
  rw [← Int64.toInt_inj, toInt_getSExtValue hw]

theorem toInt_bounds (x : BitVec w) : -2 ^ (w - 1) ≤ x.toInt ∧ x.toInt < 2 ^ (w - 1) :=
  ⟨x.le_toInt, BitVec.toInt_lt⟩

theorem getSExtValue_eq_zero_iff (hw : w ≤ 64) {x : BitVec w} :
    getSExtValue x = 0 ↔ x.toInt = 0 := by
  rw [← toInt_getSExtValue hw, ← Int64.toInt_inj]
  rfl

theorem getSExtValue_eq_neg_one_iff (hw : w ≤ 64) {x : BitVec w} :
    getSExtValue x = -1 ↔ x.toInt = -1 := by
  rw [← toInt_getSExtValue hw, ← Int64.toInt_inj]
  rfl

theorem getSExtValue_eq_minValue_iff (hw : w ≤ 64) {x : BitVec w} :
    getSExtValue x = Int64.minValue ↔ x.toInt = -2 ^ 63 := by
  rw [← toInt_getSExtValue hw, ← Int64.toInt_inj, Int64.toInt_minValue]

theorem eq_zero_iff_toInt {x : BitVec w} : x = 0 ↔ x.toInt = 0 := by
  rw [← BitVec.toInt_inj]
  simp

theorem eq_neg_one_iff_toInt (hw : 0 < w) {x : BitVec w} : x = -1 ↔ x.toInt = -1 := by
  have h : (-1 : BitVec w).toInt = -1 := by
    rw [show (-1 : BitVec w) = BitVec.allOnes w from BitVec.neg_one_eq_allOnes,
      BitVec.toInt_allOnes, if_pos hw]
  rw [← BitVec.toInt_inj, h]

theorem eq_intMin_iff_toInt (hw : 0 < w) {x : BitVec w} :
    x = BitVec.intMin w ↔ x.toInt = -2 ^ (w - 1) := by
  rw [← BitVec.toInt_inj, BitVec.toInt_intMin_of_pos hw]

end SignExtension

/-! ### Unsigned division and remainder, computed as signed -/

section Unsigned

variable {w : ℕ}

/-- A constant and its unsigned value, with `H` half the modulus. -/
theorem toInt_cases {H : ℕ} (hH : 2 ^ w = 2 * H) (x : BitVec w) :
    (x.toNat < H ∧ x.toInt = x.toNat) ∨
      ∃ m : ℕ, 0 < m ∧ m ≤ H ∧ x.toNat = 2 * H - m ∧ x.toInt = -(m : ℤ) := by
  have hlt := x.isLt
  rw [BitVec.toInt_eq_toNat_cond, hH]
  by_cases h : x.toNat < H
  · exact Or.inl ⟨h, if_pos (by omega)⟩
  · refine Or.inr ⟨2 * H - x.toNat, by omega, by omega, by omega, ?_⟩
    rw [if_neg (by omega)]
    omega

theorem toInt_of_toNat_lt {H : ℕ} (hH : 2 ^ w = 2 * H) {x : BitVec w} (h : x.toNat < H) :
    x.toInt = x.toNat := by
  rw [BitVec.toInt_eq_toNat_cond, hH, if_pos (by omega)]

theorem toInt_of_le_toNat {H : ℕ} (hH : 2 ^ w = 2 * H) {x : BitVec w} (h : H ≤ x.toNat) :
    x.toInt = x.toNat - 2 * H := by
  rw [BitVec.toInt_eq_toNat_cond, hH, if_neg (by omega)]
  push_cast
  ring

theorem exists_half (hw : 0 < w) : ∃ H : ℕ, 2 ^ w = 2 * H ∧ 0 < H ∧ (1 < w ↔ 1 < H) := by
  obtain ⟨k, rfl⟩ : ∃ k, w = k + 1 := ⟨w - 1, by omega⟩
  refine ⟨2 ^ k, by ring, by positivity, ?_⟩
  cases k with
  | zero => simp
  | succ k => exact iff_of_true (by omega) (Nat.one_lt_two_pow (by omega))

/-- Where a signed division computes the unsigned quotient. -/
theorem tdiv_eq_udiv_iff (hw : 0 < w) {x y : BitVec w} (hy : y ≠ 0) :
    x.toInt.tdiv y.toInt = (x / y).toInt ↔
      (0 ≤ x.toInt ∧ 0 < y.toInt) ∨ y.toInt = 1 ∨ (0 ≤ x.toInt ∧ x.toInt < -y.toInt) ∨
        (x.toInt = y.toInt ∧ 1 < w) := by
  obtain ⟨H, hH, hpos, hone⟩ := exists_half hw
  have hy0 : 0 < y.toNat := by
    rw [Nat.pos_iff_ne_zero]
    exact fun h => hy (BitVec.eq_of_toNat_eq (by simpa using h))
  have hq : (x / y).toNat = x.toNat / y.toNat := BitVec.toNat_udiv
  rcases toInt_cases hH x with ⟨hx, ha⟩ | ⟨m, hm0, hmH, hx, ha⟩ <;>
    rcases toInt_cases hH y with ⟨hy', hb⟩ | ⟨n, hn0, hnH, hy', hb⟩
  · -- no operand negative
    have hlt : (x / y).toNat < H := hq ▸ lt_of_le_of_lt (Nat.div_le_self _ _) hx
    rw [ha, hb, toInt_of_toNat_lt hH hlt, hq, Int.ofNat_tdiv]
    exact iff_of_true rfl (Or.inl ⟨by omega, by omega⟩)
  · -- only the divisor negative: the unsigned quotient is zero
    have hzero : (x / y).toNat = 0 := by rw [hq]; exact Nat.div_eq_of_lt (by omega)
    have hdiv : x.toNat / n = 0 ↔ x.toNat < n := by rw [Nat.div_eq_zero_iff]; omega
    rw [ha, hb, toInt_of_toNat_lt hH (by omega), hzero, Int.tdiv_neg, ← Int.ofNat_tdiv]
    omega
  · -- only the dividend negative: the signed quotient is not positive, the unsigned one is
    rw [ha, hb, Int.neg_tdiv, ← Int.ofNat_tdiv]
    rcases Nat.eq_or_lt_of_le hy0 with hy1 | hy2
    · rw [← hy1, Nat.div_one] at hq
      rw [toInt_of_le_toNat hH (by omega), hq, ← hy1, Nat.div_one]
      omega
    · have hlt : x.toNat / y.toNat < H := by
        apply Nat.div_lt_of_lt_mul
        calc x.toNat < 2 * H := hH ▸ x.isLt
          _ ≤ y.toNat * H := Nat.mul_le_mul_right H hy2
      have hposq : 0 < x.toNat / y.toNat := Nat.div_pos (by omega) hy0
      rw [toInt_of_toNat_lt hH (by omega), hq]
      generalize m / y.toNat = signedQuotient
      generalize x.toNat / y.toNat = unsignedQuotient at hposq
      omega
  · -- both operands negative: the unsigned quotient is at most one
    rw [ha, hb, Int.neg_tdiv_neg, ← Int.ofNat_tdiv]
    rcases lt_trichotomy m n with hmn | rfl | hmn
    · have hq1 : x.toNat / y.toNat = 1 := Nat.div_eq_of_lt_le (by omega) (by omega)
      have hz : m / n = 0 := Nat.div_eq_of_lt hmn
      have hne : (x / y).toInt ≠ 0 := by
        rw [Ne, ← eq_zero_iff_toInt]
        intro h
        rw [h] at hq
        simp [hq1] at hq
      omega
    · have hq1 : x.toNat / y.toNat = 1 := Nat.div_eq_of_lt_le (by omega) (by omega)
      have hz : m / m = 1 := Nat.div_self hm0
      by_cases hH1 : 1 < H
      · rw [toInt_of_toNat_lt hH (by omega), hq, hq1]
        omega
      · rw [toInt_of_le_toNat hH (by omega), hq, hq1]
        omega
    · have hq0 : x.toNat / y.toNat = 0 := Nat.div_eq_of_lt (by omega)
      have hz : 0 < m / n := Nat.div_pos hmn.le hn0
      rw [toInt_of_toNat_lt hH (by omega), hq, hq0]
      omega

/-- Where a signed remainder computes the unsigned one. -/
theorem tmod_eq_umod_iff (hw : 0 < w) {x y : BitVec w} (hy : y ≠ 0) :
    x.toInt.tmod y.toInt = (x % y).toInt ↔
      (0 ≤ x.toInt ∧ 0 < y.toInt) ∨ (0 < y.toInt ∧ y.toInt ∣ x.toInt ∧ y.toInt ∣ 2 ^ w) ∨
        (0 ≤ x.toInt ∧ x.toInt < -y.toInt) ∨ x.toInt = y.toInt := by
  obtain ⟨H, hH, hpos, hone⟩ := exists_half hw
  have hy0 : 0 < y.toNat := by
    rw [Nat.pos_iff_ne_zero]
    exact fun h => hy (BitVec.eq_of_toNat_eq (by simpa using h))
  have hr : (x % y).toNat = x.toNat % y.toNat := BitVec.toNat_umod
  have hlt : x.toNat % y.toNat < y.toNat := Nat.mod_lt _ hy0
  rcases toInt_cases hH x with ⟨hx, ha⟩ | ⟨m, hm0, hmH, hx, ha⟩ <;>
    rcases toInt_cases hH y with ⟨hy', hb⟩ | ⟨n, hn0, hnH, hy', hb⟩
  · -- no operand negative
    rw [ha, hb, toInt_of_toNat_lt hH (by omega), hr, Int.ofNat_tmod]
    exact iff_of_true rfl (Or.inl ⟨by omega, by omega⟩)
  · -- only the divisor negative: the unsigned remainder is the dividend
    have hself : x.toNat % y.toNat = x.toNat := Nat.mod_eq_of_lt (by omega)
    have hmod : x.toNat % n = x.toNat ↔ x.toNat < n := by
      constructor
      · intro h
        exact h ▸ Nat.mod_lt _ hn0
      · exact Nat.mod_eq_of_lt
    rw [ha, hb, toInt_of_toNat_lt hH (by omega), hr, hself, Int.tmod_neg, ← Int.ofNat_tmod]
    omega
  · -- only the dividend negative: both remainders must be zero
    have hsum : (x.toNat : ℤ) = 2 ^ w + -(m : ℤ) := by
      have h2 : (2 : ℤ) ^ w = 2 * H := by exact_mod_cast hH
      omega
    have hdvd : m % y.toNat = 0 ∧ x.toNat % y.toNat = 0 ↔
        (y.toNat : ℤ) ∣ -(m : ℤ) ∧ (y.toNat : ℤ) ∣ 2 ^ w := by
      rw [← Nat.dvd_iff_mod_eq_zero, ← Nat.dvd_iff_mod_eq_zero, ← Int.natCast_dvd_natCast,
        ← Int.natCast_dvd_natCast, hsum, Int.dvd_neg]
      constructor
      · rintro ⟨hm, hx⟩
        exact ⟨hm, (Int.dvd_add_left (Int.dvd_neg.2 hm)).1 hx⟩
      · rintro ⟨hm, hw⟩
        exact ⟨hm, Int.dvd_add hw (Int.dvd_neg.2 hm)⟩
    rw [ha, hb, toInt_of_toNat_lt hH (by omega), hr, Int.neg_tmod, ← Int.ofNat_tmod]
    generalize m % y.toNat = signedRemainder at hdvd
    generalize x.toNat % y.toNat = unsignedRemainder at hdvd
    constructor
    · intro h
      exact Or.inr (Or.inl ⟨by omega, hdvd.1 ⟨by omega, by omega⟩⟩)
    · rintro (h | h | h | h)
      · omega
      · have := hdvd.2 h.2
        omega
      · omega
      · omega
  · -- both operands negative: the unsigned remainder is the dividend or the difference
    rw [ha, hb, Int.neg_tmod, Int.tmod_neg, ← Int.ofNat_tmod]
    have hmod : m % n ≤ m := Nat.mod_le m n
    have hmodn : m % n < n := Nat.mod_lt m hn0
    rcases lt_or_ge m n with hmn | hmn
    · have hmm : m % n = m := Nat.mod_eq_of_lt hmn
      have hrr : x.toNat % y.toNat = x.toNat - y.toNat := by
        rw [Nat.mod_eq_sub_mod (by omega), Nat.mod_eq_of_lt (by omega)]
      rw [toInt_of_toNat_lt hH (by omega), hr, hrr]
      omega
    · rcases Nat.eq_or_lt_of_le hmn with rfl | hlt'
      · rw [show x.toNat = y.toNat by omega, Nat.mod_self] at hr
        rw [toInt_of_toNat_lt hH (by omega), hr, Nat.mod_self]
        omega
      · rw [Nat.mod_eq_of_lt (show x.toNat < y.toNat by omega)] at hr
        rw [toInt_of_le_toNat hH (by omega), hr]
        omega

end Unsigned

/-! ### Folding -/

section Folding

variable {w : ℕ}

theorem overflowChecked_eq (exact : ℤ) : overflowChecked exact =
    if -2 ^ 63 ≤ exact ∧ exact < 2 ^ 63 then some (Int64.ofInt exact) else none := by
  have hmax : Int64.maxValue.toInt = 2 ^ 63 - 1 := rfl
  rw [overflowChecked, Int64.toInt_minValue, hmax]
  congr 1
  exact propext ⟨fun h => ⟨h.1, by omega⟩, fun h => ⟨h.1, by omega⟩⟩

/-- Folding to a constant is exact when it is the signed value of what LLVM defines. -/
theorem value_exact_iff (hw : w ≤ 64) {c : Int64} {r : Option (BitVec w)} :
    (∃ res, some (value c) = some res ∧
      (res = bottom ∨ ∃ r', r = some r' ∧ res = value (getSExtValue r'))) ↔
      ∃ r', r = some r' ∧ c.toInt = r'.toInt := by
  simp [getSExtValue_eq_iff hw]

/-- Sums, differences and products: LLVM wraps around at the width, folding does not. -/
theorem checked_exact_iff (hw : 0 < w) (hw' : w ≤ 64) {exact : ℤ} {r : BitVec w}
    (hr : r.toInt = exact.bmod (2 ^ w)) :
    (∃ res, some (valueOrBottom (overflowChecked exact)) = some res ∧
      (res = bottom ∨ ∃ r', some r = some r' ∧ res = value (getSExtValue r'))) ↔
      FitsOrOverflows w exact := by
  rw [overflowChecked_eq, FitsOrOverflows]
  by_cases hfit : -2 ^ 63 ≤ exact ∧ exact < 2 ^ 63
  · rw [if_pos hfit, valueOrBottom, value_exact_iff hw', Int64.toInt_ofInt_of_le hfit.1 hfit.2]
    simp only [Option.some.injEq, exists_eq_left', hfit, not_true, or_false, and_self]
    constructor
    · intro h
      exact h ▸ toInt_bounds r
    · rintro ⟨h1, h2⟩
      rw [hr, ← BitVec.toInt_ofInt, BitVec.toInt_ofInt_eq_self hw h1 h2]
  · rw [if_neg hfit]
    exact iff_of_true ⟨bottom, rfl, Or.inl rfl⟩ (Or.inr hfit)

theorem quotient_eq {a b : Int64} (hb : b ≠ 0) (h : ¬(a = Int64.minValue ∧ b = -1)) :
    ∃ c, quotient a b = some c ∧ c.toInt = a.toInt.tdiv b.toInt := by
  refine ⟨a / b, if_neg (by tauto), ?_⟩
  by_cases ha : a = Int64.minValue
  · exact Int64.toInt_div_of_ne_right a b fun hb' => h ⟨ha, hb'⟩
  · exact Int64.toInt_div_of_ne_left a b ha

theorem remainder_eq {a b : Int64} (hb : b ≠ 0) (h : ¬(a = Int64.minValue ∧ b = -1)) :
    ∃ c, remainder a b = some c ∧ c.toInt = a.toInt.tmod b.toInt :=
  ⟨a % b, if_neg (by tauto), Int64.toInt_mod a b⟩

theorem exactOrBottom_uDiv_iff (hw : 0 < w) (hw' : w ≤ 64) (x y : BitVec w) :
    ExactOrBottom .uDiv x y ↔ FoldsExactly w .uDiv x.toInt y.toInt := by
  have hmin : getSExtValue x = Int64.minValue ∧ getSExtValue y = -1 ↔
      x.toInt = -2 ^ 63 ∧ y.toInt = -1 := by
    rw [getSExtValue_eq_minValue_iff hw', getSExtValue_eq_neg_one_iff hw']
  simp only [ExactOrBottom, executeBinOperation, FoldsExactly]
  by_cases hm : getSExtValue x = Int64.minValue ∧ getSExtValue y = -1
  · rw [if_pos hm]
    exact iff_of_true ⟨bottom, rfl, Or.inl rfl⟩ (Or.inr (Or.inl (hmin.1 hm)))
  by_cases h0 : getSExtValue y = 0
  · rw [if_neg hm, if_pos h0]
    exact iff_of_true ⟨bottom, rfl, Or.inl rfl⟩ (Or.inl ((getSExtValue_eq_zero_iff hw').1 h0))
  obtain ⟨c, hc, hval⟩ := quotient_eq h0 hm
  have hy : y ≠ 0 := fun h => h0 ((getSExtValue_eq_zero_iff hw').2 (eq_zero_iff_toInt.1 h))
  rw [if_neg hm, if_neg h0, hc]
  rw [Option.map_some, value_exact_iff hw', llvmResult, if_neg hy]
  simp only [Option.some.injEq, exists_eq_left', hval, toInt_getSExtValue hw',
    tdiv_eq_udiv_iff hw hy]
  rw [hmin] at hm
  rw [getSExtValue_eq_zero_iff hw'] at h0
  simp only [h0, hm, false_or]

theorem exactOrBottom_uRem_iff (hw : 0 < w) (hw' : w ≤ 64) (x y : BitVec w) :
    ExactOrBottom .uRem x y ↔ FoldsExactly w .uRem x.toInt y.toInt := by
  simp only [ExactOrBottom, executeBinOperation, FoldsExactly]
  by_cases h0 : getSExtValue y = 0
  · rw [if_pos h0]
    exact iff_of_true ⟨bottom, rfl, Or.inl rfl⟩ (Or.inl ((getSExtValue_eq_zero_iff hw').1 h0))
  have hy : y ≠ 0 := fun h => h0 ((getSExtValue_eq_zero_iff hw').2 (eq_zero_iff_toInt.1 h))
  by_cases hm : getSExtValue x = Int64.minValue ∧ getSExtValue y = -1
  · -- the remainder is undefined, and none of the conditions holds
    rw [if_neg h0, remainder, if_pos (Or.inr hm)]
    rw [getSExtValue_eq_minValue_iff hw', getSExtValue_eq_neg_one_iff hw'] at hm
    refine iff_of_false (by simp) ?_
    rw [hm.1, hm.2]
    omega
  obtain ⟨c, hc, hval⟩ := remainder_eq h0 hm
  rw [if_neg h0, hc]
  rw [Option.map_some, value_exact_iff hw', llvmResult, if_neg hy]
  simp only [Option.some.injEq, exists_eq_left', hval, toInt_getSExtValue hw',
    tmod_eq_umod_iff hw hy]
  rw [getSExtValue_eq_zero_iff hw'] at h0
  simp only [h0, false_or]

/-- At a width of less than 64 bits the least value is not that of `int64_t`. -/
theorem width_of_toInt_eq_min (hw : 0 < w) (hw' : w ≤ 64) {x : BitVec w}
    (h : x.toInt = -2 ^ 63) : w = 64 := by
  have hle : (-2 : ℤ) ^ 63 ≥ -2 ^ (w - 1) := by
    have := (toInt_bounds x).1
    omega
  by_contra hne
  have hlt : (2 : ℤ) ^ (w - 1) < 2 ^ 63 := pow_lt_pow_right₀ one_lt_two (by omega)
  omega

theorem signed_overflow_iff (hw : 0 < w) {x y : BitVec w} :
    x = BitVec.intMin w ∧ y = -1 ↔ x.toInt = -2 ^ (w - 1) ∧ y.toInt = -1 := by
  rw [eq_intMin_iff_toInt hw, eq_neg_one_iff_toInt hw]

theorem exactOrBottom_sDiv_iff (hw : 0 < w) (hw' : w ≤ 64) (x y : BitVec w) :
    ExactOrBottom .sDiv x y ↔ FoldsExactly w .sDiv x.toInt y.toInt := by
  simp only [ExactOrBottom, executeBinOperation, FoldsExactly]
  by_cases hm : getSExtValue x = Int64.minValue ∧ getSExtValue y = -1
  · rw [if_pos hm]
    refine iff_of_true ⟨bottom, rfl, Or.inl rfl⟩ fun h => ?_
    have := width_of_toInt_eq_min hw hw' ((getSExtValue_eq_minValue_iff hw').1 hm.1)
    omega
  by_cases h0 : getSExtValue y = 0
  · rw [if_neg hm, if_pos h0]
    rw [getSExtValue_eq_zero_iff hw'] at h0
    exact iff_of_true ⟨bottom, rfl, Or.inl rfl⟩ fun h => by omega
  obtain ⟨c, hc, hval⟩ := quotient_eq h0 hm
  have hy : y ≠ 0 := fun h => h0 ((getSExtValue_eq_zero_iff hw').2 (eq_zero_iff_toInt.1 h))
  rw [if_neg hm, if_neg h0, hc, Option.map_some, value_exact_iff hw', llvmResult]
  by_cases hov : x = BitVec.intMin w ∧ y = -1
  · rw [if_pos (Or.inr hov)]
    refine iff_of_false (by simp) (not_not.2 ⟨?_, (signed_overflow_iff hw).1 hov⟩)
    rw [signed_overflow_iff hw] at hov
    by_contra hlt
    obtain rfl : w = 64 := by omega
    exact hm ⟨(getSExtValue_eq_minValue_iff hw').2 hov.1,
      (getSExtValue_eq_neg_one_iff hw').2 hov.2⟩
  · rw [if_neg (by tauto)]
    refine iff_of_true ⟨x.sdiv y, rfl, ?_⟩ fun h => hov ((signed_overflow_iff hw).2 h.2)
    rw [hval, toInt_getSExtValue hw', toInt_getSExtValue hw',
      BitVec.toInt_sdiv_of_ne_or_ne x y (not_and_or.1 hov)]

theorem exactOrBottom_sRem_iff (hw : 0 < w) (hw' : w ≤ 64) (x y : BitVec w) :
    ExactOrBottom .sRem x y ↔ FoldsExactly w .sRem x.toInt y.toInt := by
  simp only [ExactOrBottom, executeBinOperation, FoldsExactly]
  by_cases h0 : getSExtValue y = 0
  · rw [if_pos h0]
    rw [getSExtValue_eq_zero_iff hw'] at h0
    exact iff_of_true ⟨bottom, rfl, Or.inl rfl⟩ fun h => by omega
  have hy : y ≠ 0 := fun h => h0 ((getSExtValue_eq_zero_iff hw').2 (eq_zero_iff_toInt.1 h))
  by_cases hm : getSExtValue x = Int64.minValue ∧ getSExtValue y = -1
  · rw [if_neg h0, remainder, if_pos (Or.inr hm)]
    rw [getSExtValue_eq_minValue_iff hw', getSExtValue_eq_neg_one_iff hw'] at hm
    obtain rfl := width_of_toInt_eq_min hw hw' hm.1
    exact iff_of_false (by simp) (not_not.2 hm)
  obtain ⟨c, hc, hval⟩ := remainder_eq h0 hm
  rw [if_neg h0, hc, Option.map_some, value_exact_iff hw', llvmResult]
  by_cases hov : x = BitVec.intMin w ∧ y = -1
  · rw [if_pos (Or.inr hov)]
    exact iff_of_false (by simp) (not_not.2 ((signed_overflow_iff hw).1 hov))
  · rw [if_neg (by tauto)]
    refine iff_of_true ⟨x.srem y, rfl, ?_⟩ fun h => hov ((signed_overflow_iff hw).2 h)
    rw [hval, toInt_getSExtValue hw', toInt_getSExtValue hw', BitVec.toInt_srem]

/-- Bitwise operations commute with sign extension. -/
theorem exactOrBottom_bitwise {op : Opcode} (hop : op = .and ∨ op = .or ∨ op = .xor)
    (x y : BitVec w) : ExactOrBottom op x y := by
  rcases hop with rfl | rfl | rfl
  · refine ⟨_, rfl, Or.inr ⟨x &&& y, rfl, ?_⟩⟩
    rw [getSExtValue, getSExtValue, getSExtValue, BitVec.signExtend_and]
    rfl
  · refine ⟨_, rfl, Or.inr ⟨x ||| y, rfl, ?_⟩⟩
    rw [getSExtValue, getSExtValue, getSExtValue, BitVec.signExtend_or]
    rfl
  · refine ⟨_, rfl, Or.inr ⟨x ^^^ y, rfl, ?_⟩⟩
    rw [getSExtValue, getSExtValue, getSExtValue, BitVec.signExtend_xor]
    rfl

/-- The exact condition for folding to be exact or bottom. -/
theorem exactOrBottom_iff (hw : 0 < w) (hw' : w ≤ 64) (op : Opcode) (x y : BitVec w) :
    ExactOrBottom op x y ↔ FoldsExactly w op x.toInt y.toInt := by
  cases op with
  | add =>
    simp only [ExactOrBottom, executeBinOperation, toInt_getSExtValue hw']
    exact checked_exact_iff hw hw' (BitVec.toInt_add x y)
  | sub =>
    simp only [ExactOrBottom, executeBinOperation, toInt_getSExtValue hw']
    exact checked_exact_iff hw hw' BitVec.toInt_sub
  | mul =>
    simp only [ExactOrBottom, executeBinOperation, toInt_getSExtValue hw']
    exact checked_exact_iff hw hw' (BitVec.toInt_mul x y)
  | uDiv => exact exactOrBottom_uDiv_iff hw hw' x y
  | sDiv => exact exactOrBottom_sDiv_iff hw hw' x y
  | uRem => exact exactOrBottom_uRem_iff hw hw' x y
  | sRem => exact exactOrBottom_sRem_iff hw hw' x y
  | and => exact iff_of_true (exactOrBottom_bitwise (Or.inl rfl) x y) trivial
  | or => exact iff_of_true (exactOrBottom_bitwise (Or.inr (Or.inl rfl)) x y) trivial
  | xor => exact iff_of_true (exactOrBottom_bitwise (Or.inr (Or.inr rfl)) x y) trivial
  | other opcode => exact iff_of_true ⟨bottom, rfl, Or.inl rfl⟩ trivial

theorem exactOrBottom_iff_uDiv :
    ExactOrBottom .uDiv (7 : BitVec 8) 2 ↔
      FoldsExactly 8 .uDiv (7 : BitVec 8).toInt (2 : BitVec 8).toInt :=
  exactOrBottom_iff (by decide) (by decide) .uDiv 7 2

/-- 255 / 2 at eight bits is 127, but -1 / 2 folds to 0. -/
theorem exactOrBottom_fails :
    ¬∀ w : ℕ, 0 < w → w ≤ 64 → ∀ (op : Opcode) (x y : BitVec w), ExactOrBottom op x y := by
  intro h
  obtain ⟨res, hres, hexact⟩ := h 8 (by decide) (by decide) .uDiv 255 2
  obtain rfl : value 0 = res := Option.some.inj hres
  rcases hexact with h | ⟨r, hr, h⟩
  · cases h
  · obtain rfl : 127 = r := Option.some.inj hr
    exact absurd h (by decide)

end Folding

end Phasar.LinearConstantAnalysis
