import Mathlib.Algebra.Ring.Nat
import Mathlib.Data.Finset.Card
import Mathlib.Data.List.ProdSigma

/-!
# Sets of values in the generalized constant analysis

`EdgeValue` and `EdgeValueSet` of the generalized linear constant analysis: binary operations on
all pairs of two sets, type casts, and joins up to a size limit. A set is kept as the list of its
elements in the order in which it is traversed.

* `EdgeValue.performBinOp`, `EdgeValue.typecast`;
* `EdgeValueSet.performBinOp`, `performTypecast`, `join`, `lt`;
* `performBinOp_sound_iff`: when all results that LLVM defines are in the set.
-/

namespace Phasar.GLCA

/-- `llvm::BinaryOperator::BinaryOps`. -/
inductive BinaryOps
  | add | fAdd | sub | fSub | mul | fMul
  | uDiv | sDiv | fDiv | uRem | sRem | fRem
  | shl | lShr | aShr | and | or | xor
  deriving DecidableEq

/-- `EdgeValue`. The bytes of a string are its value. Integers of different widths are told apart,
where `APInt::operator==` asserts equal widths. -/
inductive EdgeValue
  | top
  | integer (w : ℕ) (v : BitVec w)
  | string (s : List UInt8)
  deriving DecidableEq

namespace EdgeValue

/-- `EdgeValue::Type`. -/
inductive Kind
  | top | integer | string | floatingPoint
  deriving DecidableEq

def isTop : EdgeValue → Bool
  | top => true
  | _ => false

/-- An operator that is defined on integers. The operation asserts that they have one width. -/
def onIntegers (op : (w : ℕ) → BitVec w → BitVec w → Option (BitVec w)) :
    EdgeValue → EdgeValue → Option EdgeValue
  | integer w a, integer w' b =>
    if h : w' = w then (op w a (b.cast h)).map (integer w) else none
  | _, _ => some top

/-- A shift of integers, whose widths may differ. -/
def onShift (op : (w : ℕ) → BitVec w → ℕ → BitVec w) :
    EdgeValue → EdgeValue → Option EdgeValue
  | integer w a, integer _ b => some (integer w (op w a b.toNat))
  | _, _ => some top

def add : EdgeValue → EdgeValue → Option EdgeValue
  | string a, string b => some (string (a ++ b))
  | lhs, rhs => onIntegers (fun _ a b => some (a + b)) lhs rhs

/-- `operator-`, which takes both operands from its left side. -/
def sub : EdgeValue → EdgeValue → Option EdgeValue :=
  onIntegers fun _ a _ => some (a - a)

def mul : EdgeValue → EdgeValue → Option EdgeValue :=
  onIntegers fun _ a b => some (a * b)

def div : EdgeValue → EdgeValue → Option EdgeValue :=
  onIntegers fun _ a b => if b = 0 then none else some (a.sdiv b)

def rem : EdgeValue → EdgeValue → Option EdgeValue :=
  onIntegers fun _ a b => if b = 0 then none else some (a.srem b)

def and : EdgeValue → EdgeValue → Option EdgeValue :=
  onIntegers fun _ a b => some (a &&& b)

def or : EdgeValue → EdgeValue → Option EdgeValue :=
  onIntegers fun _ a b => some (a ||| b)

def xor : EdgeValue → EdgeValue → Option EdgeValue :=
  onIntegers fun _ a b => some (a ^^^ b)

def shl : EdgeValue → EdgeValue → Option EdgeValue :=
  onShift fun _ a n => a <<< n

def ashr : EdgeValue → EdgeValue → Option EdgeValue :=
  onShift fun _ a n => a.sshiftRight n

/-- `EdgeValue::performBinOp`; `none` where `APInt` fails an assertion. -/
def performBinOp (op : BinaryOps) (this other : EdgeValue) : Option EdgeValue :=
  match op with
  | .add | .fAdd => this.add other
  | .and => this.and other
  | .aShr => this.ashr other
  | .fDiv | .sDiv => this.div other
  | .lShr => onShift (fun _ a n => a >>> n) this other
  | .mul | .fMul => this.mul other
  | .or => this.or other
  | .shl => this.shl other
  | .sRem | .fRem => this.rem other
  | .sub | .fSub => this.sub other
  | .uDiv => onIntegers (fun _ a b => if b = 0 then none else some (a / b)) this other
  | .uRem => onIntegers (fun _ a b => if b = 0 then none else some (a % b)) this other
  | .xor => this.xor other

/-- `EdgeValue::typecast`; `none` where the mask `(1 << Bits) - 1` does not fit `int`, and for an
integer that becomes a floating-point value. -/
def typecast (dest : Kind) (bits : ℕ) : EdgeValue → Option EdgeValue
  | integer w v =>
    match dest with
    | .integer =>
      if w ≤ bits then some (integer w v)
      else if bits < 31 then some (integer w (v &&& BitVec.ofNat w (2 ^ bits - 1)))
      else none
    | .floatingPoint => none
    | _ => some top
  | _ => some top

end EdgeValue

open EdgeValue

/-- `EdgeValueSet`: the elements in the order of traversal. -/
structure EdgeValueSet where
  elements : List EdgeValue
  nodup : elements.Nodup
  deriving DecidableEq

namespace EdgeValueSet

instance : Membership EdgeValue EdgeValueSet := ⟨fun S e => e ∈ S.elements⟩

instance (e : EdgeValue) (S : EdgeValueSet) : Decidable (e ∈ S) :=
  inferInstanceAs (Decidable (e ∈ S.elements))

def size (S : EdgeValueSet) : ℕ := S.elements.length

def singleton (e : EdgeValue) : EdgeValueSet := ⟨[e], List.nodup_singleton e⟩

instance : EmptyCollection EdgeValueSet := ⟨⟨[], List.nodup_nil⟩⟩

def insert (S : EdgeValueSet) (e : EdgeValue) : EdgeValueSet :=
  if h : e ∈ S.elements then S
  else ⟨S.elements.concat e, by simpa using S.nodup.concat h⟩

/-- `operator==`: as many elements, and the same. -/
instance : BEq EdgeValueSet :=
  ⟨fun lhs rhs => lhs.size == rhs.size && lhs.elements.all fun e => decide (e ∈ rhs)⟩

def isTopValue (V : EdgeValueSet) : Bool :=
  match V.elements with
  | [v] => v.isTop
  | _ => false

/-- Insert values until there are too many. -/
def insertUpTo (maxSize : ℕ) : List EdgeValue → EdgeValueSet → EdgeValueSet
  | [], ret => ret
  | e :: es, ret =>
    if maxSize < (ret.insert e).size then singleton top else insertUpTo maxSize es (ret.insert e)

/-- The loops of `performBinOp` over the pairs of elements. -/
def binOpLoop (op : BinaryOps) (maxSize : ℕ) :
    List (EdgeValue × EdgeValue) → EdgeValueSet → Option EdgeValueSet
  | [], ret => some ret
  | p :: ps, ret =>
    match p.1.performBinOp op p.2 with
    | none => none
    | some v =>
      if maxSize < (ret.insert v).size then some (singleton top)
      else binOpLoop op maxSize ps (ret.insert v)

def performBinOp (op : BinaryOps) (lhs rhs : EdgeValueSet) (maxSize : ℕ) : Option EdgeValueSet :=
  if lhs.size = 0 ∨ lhs.isTopValue ∨ rhs.size = 0 ∨ rhs.isTopValue then some (singleton top)
  else binOpLoop op maxSize (lhs.elements ×ˢ rhs.elements) ∅

/-- The loop of `performTypecast`. -/
def typecastLoop (dest : Kind) (bits : ℕ) : List EdgeValue → EdgeValueSet → Option EdgeValueSet
  | [], ret => some ret
  | v :: vs, ret =>
    match v.typecast dest bits with
    | none => none
    | some tc => if tc.isTop then some (singleton top) else typecastLoop dest bits vs (ret.insert tc)

def performTypecast (ev : EdgeValueSet) (dest : Kind) (bits : ℕ) : Option EdgeValueSet :=
  if ev.size = 0 ∨ ev.isTopValue then some (singleton top) else typecastLoop dest bits ev.elements ∅

def join (lhs rhs : EdgeValueSet) (maxSize : ℕ) : EdgeValueSet :=
  if lhs.isTopValue ∨ rhs.isTopValue then singleton top else insertUpTo maxSize rhs.elements lhs

/-- `operator<`. -/
def lt (lhs rhs : EdgeValueSet) : Bool :=
  if rhs.size ≤ lhs.size then lhs != rhs && (lhs.size == 0 || rhs == singleton top)
  else lhs.elements.all fun e => decide (e ∈ rhs)

/-! ### Sets and their elements -/

variable {S : EdgeValueSet} {e : EdgeValue}

/-- The elements without their order. -/
def toFinset (S : EdgeValueSet) : Finset EdgeValue := S.elements.toFinset

@[simp] theorem mem_toFinset : e ∈ S.toFinset ↔ e ∈ S := List.mem_toFinset

@[simp] theorem card_toFinset (S : EdgeValueSet) : S.toFinset.card = S.size :=
  List.toFinset_card_of_nodup S.nodup

@[simp] theorem toFinset_singleton (e : EdgeValue) : (singleton e).toFinset = {e} := rfl

@[simp] theorem toFinset_empty : (∅ : EdgeValueSet).toFinset = ∅ := rfl

@[simp] theorem toFinset_insert (S : EdgeValueSet) (e : EdgeValue) :
    (S.insert e).toFinset = S.toFinset ∪ {e} := by
  unfold insert
  split_ifs with h
  · exact (Finset.union_eq_left.2 (Finset.singleton_subset_iff.2 (mem_toFinset.2 h))).symm
  · ext x
    simp [toFinset]

theorem size_insert (S : EdgeValueSet) (e : EdgeValue) :
    (S.insert e).size = (S.toFinset ∪ {e}).card := by
  rw [← card_toFinset, toFinset_insert]

theorem isTopValue_iff : S.isTopValue = true ↔ S.toFinset = {top} := by
  obtain ⟨l, hl⟩ := S
  constructor
  · intro h
    unfold isTopValue at h
    split at h
    next v hv =>
      obtain rfl : l = [v] := hv
      cases v with
      | top => rfl
      | integer w v => cases h
      | string s => cases h
    next => cases h
  · intro h
    have hlen : l.length = 1 := by
      rw [← List.toFinset_card_of_nodup hl]
      exact congrArg Finset.card h
    obtain ⟨v, rfl⟩ := List.length_eq_one_iff.1 hlen
    obtain rfl : v = top := by simpa [toFinset] using h
    rfl

theorem beq_iff {A B : EdgeValueSet} : (A == B) = true ↔ A.toFinset = B.toFinset := by
  change (A.size == B.size && A.elements.all fun e => decide (e ∈ B)) = true ↔ _
  rw [Bool.and_eq_true, beq_iff_eq, List.all_eq_true]
  constructor
  · rintro ⟨hsize, hsub⟩
    refine Finset.eq_of_subset_of_card_le (fun e he => ?_) (by simp [hsize])
    exact mem_toFinset.2 (of_decide_eq_true (hsub e (mem_toFinset.1 he)))
  · intro h
    refine ⟨by rw [← card_toFinset, h, card_toFinset], fun e he => decide_eq_true ?_⟩
    rw [← mem_toFinset, ← h, mem_toFinset]
    exact he

/-! ### Loops -/

/-- Inserting values collects them, or there are too many. -/
theorem insertUpTo_cases {n : ℕ} : ∀ (vs : List EdgeValue) {S : EdgeValueSet}, S.size ≤ n →
    (n < (S.toFinset ∪ vs.toFinset).card ∧ insertUpTo n vs S = singleton top) ∨
      ((S.toFinset ∪ vs.toFinset).card ≤ n ∧
        (insertUpTo n vs S).toFinset = S.toFinset ∪ vs.toFinset)
  | [], S, hS => Or.inr ⟨by simpa using hS, by simp [insertUpTo]⟩
  | e :: es, S, hS => by
    have hunion : S.toFinset ∪ (e :: es).toFinset = (S.insert e).toFinset ∪ es.toFinset := by
      ext x
      simp
    rw [hunion, insertUpTo]
    by_cases h : n < (S.insert e).size
    · refine Or.inl ⟨?_, if_pos h⟩
      calc n < (S.insert e).toFinset.card := by rwa [card_toFinset]
        _ ≤ ((S.insert e).toFinset ∪ es.toFinset).card := Finset.card_le_card Finset.subset_union_left
    · rw [if_neg h]
      exact insertUpTo_cases es (not_lt.1 h)

/-- While the operation is defined, its results are collected. -/
theorem binOpLoop_append {op : BinaryOps} {n : ℕ} {val : EdgeValue × EdgeValue → EdgeValue} :
    ∀ (pre post : List (EdgeValue × EdgeValue)) {S : EdgeValueSet},
      S.size ≤ n → (∀ p ∈ pre, p.1.performBinOp op p.2 = some (val p)) →
        (n < (S.toFinset ∪ (pre.map val).toFinset).card ∧
            binOpLoop op n (pre ++ post) S = some (singleton top)) ∨
          ((S.toFinset ∪ (pre.map val).toFinset).card ≤ n ∧
            binOpLoop op n (pre ++ post) S = binOpLoop op n post (insertUpTo n (pre.map val) S))
  | [], post, S, hS, _ => Or.inr ⟨by simpa using hS, rfl⟩
  | p :: pre, post, S, hS, hval => by
    have hp := hval p List.mem_cons_self
    have hunion : S.toFinset ∪ ((p :: pre).map val).toFinset =
        (S.insert (val p)).toFinset ∪ (pre.map val).toFinset := by
      ext x
      simp
    rw [hunion, List.cons_append, binOpLoop, hp, List.map_cons, insertUpTo]
    by_cases h : n < (S.insert (val p)).size
    · refine Or.inl ⟨?_, if_pos h⟩
      calc n < (S.insert (val p)).toFinset.card := by rwa [card_toFinset]
        _ ≤ _ := Finset.card_le_card Finset.subset_union_left
    · simp only [if_neg h]
      exact binOpLoop_append pre post (not_lt.1 h) fun q hq => hval q (List.mem_cons_of_mem _ hq)

/-! ### Integers of one width -/

/-- The integers of width `w`. -/
def OfWidth (w : ℕ) (S : EdgeValueSet) : Prop := ∀ e ∈ S, ∃ v : BitVec w, e = integer w v

/-- The operations that divide. -/
def divides : BinaryOps → Bool
  | .uDiv | .sDiv | .fDiv | .uRem | .sRem | .fRem => true
  | _ => false

/-- The result LLVM defines for two integers of width `w`; `none` where it defines none. -/
def llvmResult {w : ℕ} (op : BinaryOps) (a b : BitVec w) : Option (BitVec w) :=
  match op with
  | .add => some (a + b)
  | .sub => some (a - b)
  | .mul => some (a * b)
  | .uDiv => if b = 0 then none else some (a / b)
  | .sDiv => if b = 0 ∨ a = BitVec.intMin w ∧ b = -1 then none else some (a.sdiv b)
  | .uRem => if b = 0 then none else some (a % b)
  | .sRem => if b = 0 ∨ a = BitVec.intMin w ∧ b = -1 then none else some (a.srem b)
  | .shl => if b.toNat < w then some (a <<< b) else none
  | .lShr => if b.toNat < w then some (a >>> b) else none
  | .aShr => if b.toNat < w then some (a.sshiftRight' b) else none
  | .and => some (a &&& b)
  | .or => some (a ||| b)
  | .xor => some (a ^^^ b)
  | .fAdd | .fSub | .fMul | .fDiv | .fRem => none

/-- The operation divides by zero nowhere, and yields bottom or a set with all results. -/
def SoundBinOp (w : ℕ) (op : BinaryOps) (L R : EdgeValueSet) (maxSize : ℕ) : Prop :=
  ∃ ret, performBinOp op L R maxSize = some ret ∧
    ((ret == singleton top) = true ∨ ∀ a b r : BitVec w, integer w a ∈ L → integer w b ∈ R →
      llvmResult op a b = some r → integer w r ∈ ret)

/-- The first element of `L` comes to a zero in `R` before there are too many results. -/
def ReachesZero (w : ℕ) (op : BinaryOps) (L R : EdgeValueSet) (maxSize : ℕ) : Prop :=
  integer w 0 ∈ R ∧ ∃ a, L.elements.head? = some a ∧
    ((R.elements.takeWhile (· ≠ integer w 0)).map (a.performBinOp op)).toFinset.card ≤ maxSize

section Integers

variable {w : ℕ} {op : BinaryOps}

theorem onIntegers_same (f : (w : ℕ) → BitVec w → BitVec w → Option (BitVec w)) (a b : BitVec w) :
    onIntegers f (integer w a) (integer w b) = (f w a b).map (integer w) := by
  simp [onIntegers]

theorem performBinOp_eq_none_iff {a b : BitVec w} :
    (integer w a).performBinOp op (integer w b) = none ↔ divides op = true ∧ b = 0 := by
  cases op <;> simp [EdgeValue.performBinOp, EdgeValue.add, EdgeValue.sub, EdgeValue.mul,
    EdgeValue.div, EdgeValue.rem, EdgeValue.and, EdgeValue.or, EdgeValue.xor, EdgeValue.shl,
    EdgeValue.ashr, onIntegers_same, onShift, divides]

/-- Apart from subtraction, what LLVM defines is computed. -/
theorem performBinOp_of_llvmResult (hop : op ≠ .sub) {a b r : BitVec w}
    (h : llvmResult op a b = some r) :
    (integer w a).performBinOp op (integer w b) = some (integer w r) := by
  cases op <;> simp only [llvmResult, Option.ite_none_left_eq_some, Option.ite_none_right_eq_some,
    Option.some.injEq, reduceCtorEq, ne_eq, not_true] at h hop <;>
    simp_all [EdgeValue.performBinOp, EdgeValue.add, EdgeValue.mul, EdgeValue.div, EdgeValue.rem,
      EdgeValue.and, EdgeValue.or, EdgeValue.xor, EdgeValue.shl, EdgeValue.ashr, onIntegers_same,
      onShift]

theorem performBinOp_sub (a b : BitVec w) :
    (integer w a).performBinOp .sub (integer w b) = some (integer w 0) := by
  simp [EdgeValue.performBinOp, EdgeValue.sub, onIntegers_same]

variable {L R : EdgeValueSet} {n : ℕ}

theorem OfWidth.not_isTopValue (hS : OfWidth w S) : S.isTopValue = false := by
  rw [← Bool.not_eq_true, isTopValue_iff]
  intro h
  obtain ⟨v, hv⟩ := hS top (mem_toFinset.1 (h ▸ Finset.mem_singleton_self top))
  cases hv

theorem performBinOp_eq_loop (hL : OfWidth w L) (hR : OfWidth w R) (hL0 : L.elements ≠ [])
    (hR0 : R.elements ≠ []) :
    performBinOp op L R n = binOpLoop op n (L.elements ×ˢ R.elements) ∅ := by
  unfold performBinOp
  rw [hL.not_isTopValue, hR.not_isTopValue]
  simp [size, hL0, hR0]

/-- The result of a pair, where there is one. -/
def resultOf (op : BinaryOps) (p : EdgeValue × EdgeValue) : EdgeValue :=
  (p.1.performBinOp op p.2).getD top

theorem performBinOp_eq_resultOf (hL : OfWidth w L) (hR : OfWidth w R) {p : EdgeValue × EdgeValue}
    (hp₁ : p.1 ∈ L) (hp₂ : p.2 ∈ R) (hzero : divides op = true → p.2 ≠ integer w 0) :
    p.1.performBinOp op p.2 = some (resultOf op p) := by
  obtain ⟨x, y⟩ := p
  obtain ⟨a, rfl⟩ := hL x hp₁
  obtain ⟨b, rfl⟩ := hR y hp₂
  unfold resultOf
  cases h : (integer w a).performBinOp op (integer w b) with
  | some v => rfl
  | none =>
    obtain ⟨hop, rfl⟩ := performBinOp_eq_none_iff.1 h
    exact absurd rfl (hzero hop)

/-- Without a division by zero, all results are collected, or there are too many. -/
theorem performBinOp_of_nonzero (hL : OfWidth w L) (hR : OfWidth w R) (hL0 : L.elements ≠ [])
    (hR0 : R.elements ≠ []) (hzero : divides op = true → integer w 0 ∉ R) :
    ((n < ((L.elements ×ˢ R.elements).map (resultOf op)).toFinset.card) ∧
        performBinOp op L R n = some (singleton top)) ∨
      ((L.elements ×ˢ R.elements).map (resultOf op)).toFinset.card ≤ n ∧
        ∃ ret, performBinOp op L R n = some ret ∧
          ret.toFinset = ((L.elements ×ˢ R.elements).map (resultOf op)).toFinset := by
  have hval : ∀ p ∈ L.elements ×ˢ R.elements, p.1.performBinOp op p.2 = some (resultOf op p) := by
    rintro ⟨a, b⟩ hp
    obtain ⟨ha, hb⟩ := List.mem_product.1 hp
    exact performBinOp_eq_resultOf hL hR ha hb fun hop h => hzero hop (h ▸ hb)
  rw [performBinOp_eq_loop hL hR hL0 hR0]
  have hempty : (∅ : EdgeValueSet).size ≤ n := Nat.zero_le n
  have happend := binOpLoop_append _ [] hempty hval
  rw [List.append_nil, toFinset_empty, Finset.empty_union] at happend
  rcases happend with h | ⟨hcard, h⟩
  · exact Or.inl h
  · refine Or.inr ⟨hcard, _, h, ?_⟩
    rcases insertUpTo_cases ((L.elements ×ˢ R.elements).map (resultOf op)) hempty with
      ⟨hlt, -⟩ | ⟨-, heq⟩
    · rw [toFinset_empty, Finset.empty_union] at hlt
      exact absurd hlt (not_lt.2 hcard)
    · rw [heq, toFinset_empty, Finset.empty_union]

/-- With a zero among the divisors, the first row of pairs decides. -/
theorem performBinOp_of_zero (hL : OfWidth w L) (hR : OfWidth w R) (hL0 : L.elements ≠ [])
    (hop : divides op = true) (hzero : integer w 0 ∈ R) :
    (ReachesZero w op L R n ∧ performBinOp op L R n = none) ∨
      (¬ ReachesZero w op L R n ∧ performBinOp op L R n = some (singleton top)) := by
  obtain ⟨pre, post, hpre, hnot⟩ := List.eq_append_cons_of_mem hzero
  obtain ⟨a, rest, ha⟩ := List.exists_cons_of_ne_nil hL0
  have haL : a ∈ L := show a ∈ L.elements by rw [ha]; exact List.mem_cons_self
  have hpreR : ∀ b ∈ pre, b ∈ R := fun b hb =>
    show b ∈ R.elements by rw [hpre]; exact List.mem_append_left _ hb
  have hrow : L.elements ×ˢ R.elements = pre.map (Prod.mk a) ++
      ((a, integer w 0) :: (post.map (Prod.mk a) ++ rest ×ˢ R.elements)) := by
    rw [ha, List.product_cons, hpre]
    simp
  have hval : ∀ p ∈ pre.map (Prod.mk a), p.1.performBinOp op p.2 = some (resultOf op p) := by
    intro p hp
    obtain ⟨b, hb, rfl⟩ := List.mem_map.1 hp
    refine performBinOp_eq_resultOf hL hR haL (hpreR b hb) fun _ h => ?_
    exact hnot ((show b = integer w 0 from h) ▸ hb)
  have htake : R.elements.takeWhile (· ≠ integer w 0) = pre := by
    rw [hpre, List.takeWhile_append_of_pos, List.takeWhile_cons_of_neg (by simp), List.append_nil]
    intro b hb
    exact decide_eq_true fun h => hnot (h ▸ hb)
  have hcard : (((pre.map (Prod.mk a)).map (resultOf op)).toFinset).card =
      ((pre.map (a.performBinOp op)).toFinset).card := by
    rw [← Finset.card_image_of_injective _ (Option.some_injective _)]
    congr 1
    ext o
    simp only [Finset.mem_image, List.mem_toFinset, List.mem_map, exists_exists_and_eq_and]
    constructor
    · rintro ⟨b, hb, rfl⟩
      exact ⟨b, hb, hval _ (List.mem_map_of_mem hb)⟩
    · rintro ⟨b, hb, rfl⟩
      exact ⟨b, hb, (hval _ (List.mem_map_of_mem hb)).symm⟩
  have hreach : ReachesZero w op L R n ↔ ((pre.map (a.performBinOp op)).toFinset).card ≤ n := by
    unfold ReachesZero
    rw [htake, ha, List.head?_cons]
    constructor
    · rintro ⟨-, a', ha', h⟩
      exact Option.some.inj ha' ▸ h
    · exact fun h => ⟨hzero, a, rfl, h⟩
  obtain ⟨c, rfl⟩ := hL a haL
  have hnone : ∀ ret, binOpLoop op n ((integer w c, integer w 0) ::
      (post.map (Prod.mk (integer w c)) ++ rest ×ˢ R.elements)) ret = none := by
    intro ret
    rw [binOpLoop, performBinOp_eq_none_iff.2 ⟨hop, rfl⟩]
  have hR0 : R.elements ≠ [] := by simp [hpre]
  rw [hreach, performBinOp_eq_loop hL hR hL0 hR0, hrow]
  rcases binOpLoop_append _ ((integer w c, integer w 0) ::
      (post.map (Prod.mk (integer w c)) ++ rest ×ˢ R.elements))
      (show (∅ : EdgeValueSet).size ≤ n from Nat.zero_le n) hval with ⟨hlt, h⟩ | ⟨hle, h⟩
  · rw [toFinset_empty, Finset.empty_union, hcard] at hlt
    exact Or.inr ⟨not_le.2 hlt, h⟩
  · rw [toFinset_empty, Finset.empty_union, hcard] at hle
    exact Or.inl ⟨hle, h.trans (hnone _)⟩

theorem soundBinOp_of_top (h : performBinOp op L R n = some (singleton top)) :
    SoundBinOp w op L R n :=
  ⟨_, h, Or.inl (beq_iff.2 rfl)⟩

/-- Every difference is zero. -/
theorem toFinset_map_sub (hL : OfWidth w L) (hR : OfWidth w R) (hL0 : L.elements ≠ [])
    (hR0 : R.elements ≠ []) :
    ((L.elements ×ˢ R.elements).map (resultOf .sub)).toFinset = {integer w 0} := by
  have hzero : ∀ p ∈ L.elements ×ˢ R.elements, resultOf .sub p = integer w 0 := by
    rintro ⟨x, y⟩ hp
    obtain ⟨hx, hy⟩ := List.mem_product.1 hp
    obtain ⟨a, rfl⟩ := hL x hx
    obtain ⟨b, rfl⟩ := hR y hy
    rw [resultOf, performBinOp_sub, Option.getD_some]
  obtain ⟨x, hx⟩ := List.exists_mem_of_ne_nil _ hL0
  obtain ⟨y, hy⟩ := List.exists_mem_of_ne_nil _ hR0
  have hxy : (x, y) ∈ L.elements ×ˢ R.elements := List.mem_product.2 ⟨hx, hy⟩
  ext e
  rw [List.mem_toFinset, List.mem_map, Finset.mem_singleton]
  constructor
  · rintro ⟨p, hp, rfl⟩
    exact hzero p hp
  · rintro rfl
    exact ⟨(x, y), hxy, hzero _ hxy⟩

/-- All results that LLVM defines are in the set, exactly if no division by zero is reached and
subtraction is of equal elements only. -/
theorem performBinOp_sound_iff (hL : OfWidth w L) (hR : OfWidth w R) (op : BinaryOps) (n : ℕ) :
    SoundBinOp w op L R n ↔ (divides op = true → ¬ ReachesZero w op L R n) ∧
      (op = .sub → n = 0 ∨ ∀ a ∈ L, ∀ b ∈ R, a = b) := by
  by_cases hL0 : L.elements = []
  · have htop : performBinOp op L R n = some (singleton top) := if_pos (Or.inl (by simp [size, hL0]))
    refine iff_of_true (soundBinOp_of_top htop) ⟨?_, fun _ => Or.inr fun a ha => ?_⟩
    · rintro - ⟨-, a, ha, -⟩
      rw [hL0] at ha
      cases ha
    · cases (hL0 ▸ ha : a ∈ [])
  by_cases hR0 : R.elements = []
  · have htop : performBinOp op L R n = some (singleton top) :=
      if_pos (Or.inr (Or.inr (Or.inl (by simp [size, hR0]))))
    refine iff_of_true (soundBinOp_of_top htop) ⟨?_, fun _ => Or.inr fun a _ b hb => ?_⟩
    · rintro - ⟨hzero, -⟩
      cases (hR0 ▸ hzero : integer w 0 ∈ [])
    · cases (hR0 ▸ hb : b ∈ [])
  -- a division by zero fails unless the bound is reached before it
  by_cases hzero : divides op = true ∧ integer w 0 ∈ R
  · obtain ⟨hop, hzero⟩ := hzero
    rcases performBinOp_of_zero (n := n) hL hR hL0 hop hzero with ⟨hreach, hnone⟩ | ⟨hreach, htop⟩
    · refine iff_of_false ?_ fun h => h.1 hop hreach
      rintro ⟨ret, hret, -⟩
      cases hnone.symm.trans hret
    · refine iff_of_true (soundBinOp_of_top htop) ⟨fun _ => hreach, ?_⟩
      rintro rfl
      cases hop
  have hno : divides op = true → ¬ ReachesZero w op L R n := fun hop h => hzero ⟨hop, h.1⟩
  rw [and_iff_right hno]
  rcases performBinOp_of_nonzero (n := n) hL hR hL0 hR0 fun hop h => hzero ⟨hop, h⟩ with
    ⟨hlt, htop⟩ | ⟨hle, ret, hret, hresults⟩
  · refine iff_of_true (soundBinOp_of_top htop) ?_
    rintro rfl
    rw [toFinset_map_sub hL hR hL0 hR0, Finset.card_singleton] at hlt
    exact Or.inl (by omega)
  -- a subtraction computes zero whatever its operands are
  by_cases hop : op = .sub
  · subst hop
    rw [toFinset_map_sub hL hR hL0 hR0] at hle hresults
    have hn : n ≠ 0 := by
      rw [Finset.card_singleton] at hle
      omega
    have hmem : ∀ r : BitVec w, integer w r ∈ ret ↔ r = 0 := fun r => by
      rw [← mem_toFinset, hresults]
      simp
    constructor
    · rintro ⟨ret', hret', h⟩ -
      obtain rfl := Option.some.inj (hret.symm.trans hret')
      refine Or.inr fun x hx y hy => ?_
      obtain ⟨a, rfl⟩ := hL x hx
      obtain ⟨b, rfl⟩ := hR y hy
      rcases h with h | h
      · rw [beq_iff, hresults] at h
        cases Finset.singleton_injective h
      · have hab := BitVec.sub_eq_iff_eq_add.1 ((hmem _).1 (h a b _ hx hy rfl))
        rw [hab, BitVec.ofNat_eq_ofNat, BitVec.zero_add]
    · intro h
      refine ⟨ret, hret, Or.inr ?_⟩
      rintro a b r ha hb ⟨⟩
      cases (h rfl).resolve_left hn _ ha _ hb
      exact (hmem _).2 (BitVec.sub_self a)
  · refine iff_of_true ⟨ret, hret, Or.inr fun a b r ha hb hr => ?_⟩ fun h => absurd h hop
    have hpair : (integer w a, integer w b) ∈ L.elements ×ˢ R.elements := List.mem_product.2 ⟨ha, hb⟩
    have hresult : resultOf op (integer w a, integer w b) = integer w r := by
      rw [resultOf, performBinOp_of_llvmResult hop hr, Option.getD_some]
    rw [← mem_toFinset, hresults, ← hresult]
    exact List.mem_toFinset.2 (List.mem_map_of_mem hpair)

theorem OfWidth.singleton (v : BitVec w) : OfWidth w (singleton (integer w v)) := fun _ he =>
  ⟨v, List.mem_singleton.1 he⟩

theorem performBinOp_sound_iff_add : SoundBinOp 8 .add (singleton (integer 8 1))
      (singleton (integer 8 2)) 2 ↔
    (divides .add = true →
      ¬ ReachesZero 8 .add (singleton (integer 8 1)) (singleton (integer 8 2)) 2) ∧
      (BinaryOps.add = .sub → 2 = 0 ∨
        ∀ a ∈ singleton (integer 8 1), ∀ b ∈ singleton (integer 8 2), a = b) :=
  performBinOp_sound_iff (OfWidth.singleton 1) (OfWidth.singleton 2) .add 2

/-- 7 - 2 yields 0. -/
theorem sub_not_sound : ¬ ∀ (w : ℕ) (op : BinaryOps) (L R : EdgeValueSet) (n : ℕ), OfWidth w L →
    OfWidth w R → SoundBinOp w op L R n := by
  intro h
  obtain ⟨ret, hret, htop | hall⟩ := h 8 .sub (singleton (integer 8 7)) (singleton (integer 8 2)) 2
    (OfWidth.singleton 7) (OfWidth.singleton 2)
  · cases hret
    exact absurd htop (by decide)
  · have hmem := hall 7 2 5 (by decide) (by decide) rfl
    cases hret
    exact absurd hmem (by decide)

end Integers

end EdgeValueSet

end Phasar.GLCA
