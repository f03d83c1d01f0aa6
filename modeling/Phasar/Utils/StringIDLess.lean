import Mathlib.Data.List.TakeWhile
import Mathlib.Data.Int.Notation
import Mathlib.Data.Set.Basic
import Mathlib.Order.Lattice
import Mathlib.Tactic.Common

/-!
# The order of value ids

`getMetaDataID` gives a value its annotated number, an argument the name of its function and its
position, and everything else `-1`. `StringIDLess` compares two ids by what `strtol` reads from them.
Whether an id is no number is told by the end pointers; the one of the right id is compared with the
beginning of the left one, so two names are never ordered.

* `strtol`, `StringIDLess`, `getMetaDataID`, `LLVMValueIDLess`;
* `less_iff`: what the comparison computes;
* `strictTotalOrder_iff_distinguished`: the families of ids that are ordered.
-/

namespace Phasar

namespace StringID

/-! ### Reading a number -/

/-- `isspace` in the C locale. -/
def isSpace (c : Char) : Bool := c.toNat = 32 || (9 ≤ c.toNat && c.toNat ≤ 13)

def isSign (c : Char) : Bool := c = '+' || c = '-'

/-- `LONG_MAX`. -/
def longMax : ℤ := 9223372036854775807

/-- The sign behind the white space, if there is one. -/
def sign (str : List Char) : List Char := ((str.dropWhile isSpace).take 1).filter isSign

def digits (str : List Char) : List Char :=
  ((str.dropWhile isSpace).drop (sign str).length).takeWhile Char.isDigit

/-- `strtol` with base 10: the value, which is 0 where no digits are found, and the number of
characters read. -/
def strtol (str : List Char) : ℤ × ℕ :=
  if digits str = [] then (0, 0)
  else
    let n : ℤ := Nat.ofDigitChars 10 (digits str) 0
    (if sign str = ['-'] then max (-n) (-longMax - 1) else min n longMax,
      (str.takeWhile isSpace).length + (sign str).length + (digits str).length)

/-- The number that `strtol` reads, if it reads one. -/
def reads (str : List Char) : Option ℤ := if digits str = [] then none else some (strtol str).1

theorem strtol_of_reads_eq_none {str : List Char} (h : reads str = none) : strtol str = (0, 0) := by
  rw [strtol]
  refine if_pos ?_
  by_contra hne
  rw [reads, if_neg hne] at h
  cases h

theorem strtol_of_reads_eq_some {str : List Char} {v : ℤ} (h : reads str = some v) :
    (strtol str).1 = v ∧ (strtol str).2 ≠ 0 := by
  rw [reads] at h
  split_ifs at h with hne
  refine ⟨Option.some.inj h, ?_⟩
  have hpos := List.length_pos_iff.2 hne
  rw [strtol, if_neg hne]
  exact Nat.pos_iff_ne_zero.1 (Nat.lt_add_left _ hpos)

theorem isSpace_of_isDigit {c : Char} (h : c.isDigit = true) : isSpace c = false := by
  simp only [Char.isDigit, ge_iff_le, Bool.and_eq_true, decide_eq_true_eq, UInt32.le_iff_toNat_le] at h
  have hlow : 48 ≤ c.toNat := h.1
  simp only [isSpace, Bool.or_eq_false_iff, Bool.and_eq_false_iff, decide_eq_false_iff_not]
  omega

theorem isSign_of_isDigit {c : Char} (h : c.isDigit = true) : isSign c = false := by
  by_contra hsign
  rw [Bool.not_eq_false, isSign, Bool.or_eq_true, decide_eq_true_eq, decide_eq_true_eq] at hsign
  rcases hsign with rfl | rfl
  · cases h
  · cases h

/-- Nothing but digits. -/
theorem reads_of_forall_isDigit {str : List Char} (hne : str ≠ []) (h : ∀ c ∈ str, c.isDigit = true) :
    reads str = some (min (Nat.ofDigitChars 10 str 0 : ℤ) longMax) := by
  obtain ⟨c, cs, rfl⟩ := List.exists_cons_of_ne_nil hne
  have hc := h c List.mem_cons_self
  have hblanks : (c :: cs).dropWhile isSpace = c :: cs :=
    List.dropWhile_cons_of_neg (by simp [isSpace_of_isDigit hc])
  have hsign : sign (c :: cs) = [] := by
    rw [sign, hblanks, List.take_succ_cons, List.take_zero,
      List.filter_cons_of_neg (by simp [isSign_of_isDigit hc]), List.filter_nil]
  have hdigits : digits (c :: cs) = c :: cs := by
    rw [digits, hblanks, hsign]
    exact List.takeWhile_eq_self_iff.2 h
  rw [reads, if_neg (by simp [hdigits]), strtol, if_neg (by simp [hdigits]), hsign, hdigits]
  rfl

/-! ### The comparison -/

/-- A string object: where its characters are, and the characters. -/
structure StdString where
  buf : ℕ
  chars : List Char

/-- A pointer to a character: the buffer, and the position in it. -/
def StdString.c_str (s : StdString) : ℕ × ℕ := (s.buf, 0)

def StringIDLess (Lhs Rhs : StdString) : Bool :=
  let LhsVal := (strtol Lhs.chars).1
  let Endptr1 := (Lhs.buf, (strtol Lhs.chars).2)
  let RhsVal := (strtol Rhs.chars).1
  let Endptr2 := (Rhs.buf, (strtol Rhs.chars).2)
  -- the left text again, compared with an end in the right one
  if Lhs.c_str = Endptr1 ∧ Lhs.c_str = Endptr2 then decide (Lhs.chars < Rhs.chars)
  else if Lhs.c_str = Endptr1 ∧ Rhs.c_str ≠ Endptr2 then false
  else if Lhs.c_str ≠ Endptr1 ∧ Rhs.c_str = Endptr2 then true
  else decide (LhsVal < RhsVal)

/-- Two string objects are compared by what is read from them: nothing is not below anything. -/
theorem stringIDLess_iff {i j : ℕ} (hij : i ≠ j) (a b : List Char) :
    StringIDLess ⟨i, a⟩ ⟨j, b⟩ = true ↔ ∃ v, reads a = some v ∧ ∀ w, reads b = some w → v < w := by
  have hbuf : ∀ n m : ℕ, (i, n) ≠ (j, m) := fun n m h => hij (Prod.mk.inj h).1
  cases ha : reads a with
  | none =>
    refine iff_of_false ?_ (by simp)
    rw [Bool.not_eq_true]
    cases hb : reads b with
    | none =>
      -- the end of the right string is not the beginning of the left one
      simp [StringIDLess, StdString.c_str, strtol_of_reads_eq_none ha, strtol_of_reads_eq_none hb, hbuf]
    | some w =>
      simp [StringIDLess, StdString.c_str, strtol_of_reads_eq_none ha, hbuf,
        (strtol_of_reads_eq_some hb).2.symm]
  | some v =>
    obtain ⟨hv, hread⟩ := strtol_of_reads_eq_some ha
    cases hb : reads b with
    | none =>
      simp [StringIDLess, StdString.c_str, strtol_of_reads_eq_none hb, hread.symm]
    | some w =>
      obtain ⟨hw, hread'⟩ := strtol_of_reads_eq_some hb
      simp [StringIDLess, StdString.c_str, hread.symm, hread'.symm, hv, hw]

/-! ### Ids -/

/-- A value with what `getMetaDataID` reads of it. -/
inductive Value
  | instruction (metadata : Option (List Char))
  | globalVariable (metadata : Option (List Char))
  | argument (function : List Char) (argNo : ℕ)
  | other

def getMetaDataID : Value → List Char
  | .instruction (some metadata) => metadata
  | .globalVariable (some metadata) => metadata
  | .argument function argNo => function ++ '.' :: Nat.toDigits 10 argNo
  | _ => ['-', '1']

/-- `LLVMValueIDLess`, with the ids in two local strings. -/
def LLVMValueIDLess (Lhs Rhs : Value) : Bool :=
  StringIDLess ⟨0, getMetaDataID Lhs⟩ ⟨1, getMetaDataID Rhs⟩

/-- A character that the name of a function may begin with. -/
def beginsName (c : Char) : Bool := !c.isDigit && !isSign c

/-- The ids of the values of an annotated module. -/
inductive ValueID
  | number (n : ℕ)
  | minusOne
  | name (function : List Char) (begins : function.head?.all beginsName = true) (argNo : ℕ)

namespace ValueID

def val : ValueID → Value
  | number n => .instruction (some (Nat.toDigits 10 n))
  | minusOne => .other
  | name function _ argNo => .argument function argNo

def str (a : ValueID) : List Char := getMetaDataID a.val

/-- The number of an id that is not a name. -/
def number? : ValueID → Option ℤ
  | number n => some n
  | minusOne => some (-1)
  | name _ _ _ => none

/-- The comparison of two values with these ids. -/
def less (a b : ValueID) : Bool := LLVMValueIDLess a.val b.val

theorem less_iff (a b : ValueID) :
    less a b = true ↔ ∃ v, reads a.str = some v ∧ ∀ w, reads b.str = some w → v < w :=
  stringIDLess_iff (by decide) _ _

theorem reads_of_number? {a : ValueID} {x : ℤ} (h : a.number? = some x) :
    reads a.str = some (min x longMax) := by
  cases a with
  | number n =>
    obtain rfl := Option.some.inj h
    refine (reads_of_forall_isDigit (Nat.toDigits_ne_nil) fun c hc =>
      Nat.isDigit_of_mem_toDigits (by decide) (by decide) hc).trans ?_
    rw [Nat.ofDigitChars_ten_toDigits]
  | minusOne =>
    obtain rfl := Option.some.inj h
    decide
  | name function begins argNo => cases h

theorem str_of_number? {a b : ValueID} {x : ℤ} (ha : a.number? = some x) (hb : b.number? = some x) :
    a.str = b.str := by
  cases a with
  | number n =>
    cases b with
    | number m =>
      have hnm : (n : ℤ) = m := Option.some.inj (ha.trans hb.symm)
      rw [Int.ofNat_inj.1 hnm]
    | minusOne =>
      have hn : (n : ℤ) = -1 := Option.some.inj (ha.trans hb.symm)
      omega
    | name function begins argNo => cases hb
  | minusOne =>
    cases b with
    | number m =>
      have hm : -1 = (m : ℤ) := Option.some.inj (ha.trans hb.symm)
      omega
    | minusOne => rfl
    | name function begins argNo => cases hb
  | name function begins argNo => cases ha

end ValueID

open ValueID

variable {S : Set ValueID} {a b : ValueID}

/-- What the claim asks of the ids of a module. -/
structure StrictTotalOrder (S : Set ValueID) : Prop where
  irrefl : ∀ a ∈ S, less a a = false
  asymm : ∀ a ∈ S, ∀ b ∈ S, less a b = true → less b a = false
  trans : ∀ a ∈ S, ∀ b ∈ S, ∀ c ∈ S, less a b = true → less b c = true → less a c = true
  total : ∀ a ∈ S, ∀ b ∈ S, a.str ≠ b.str → less a b = true ∨ less b a = true
  numbers : ∀ a ∈ S, ∀ b ∈ S, ∀ x y, a.number? = some x → b.number? = some y → x < y → less a b = true
  names : ∀ a ∈ S, ∀ b ∈ S, ∀ x, a.number? = some x → b.number? = none → less a b = true

/-- At most one id is a name without a number to read. Otherwise different numbers are read: at most
one reaches `LONG_MAX`, and names that begin with white space and digits are behind the numbers and
differ in their digits. -/
structure Distinguished (S : Set ValueID) : Prop where
  unread : ∀ a ∈ S, ∀ b ∈ S, reads a.str = none → reads b.str = none → a.str = b.str
  long : ∀ m n : ℕ, .number m ∈ S → .number n ∈ S → longMax ≤ m → longMax ≤ n → m = n
  behind : ∀ a ∈ S, ∀ b ∈ S, ∀ x v, a.number? = some x → b.number? = none → reads b.str = some v →
    min x longMax < v
  digits : ∀ a ∈ S, ∀ b ∈ S, a.number? = none → b.number? = none → reads a.str ≠ none →
    reads a.str = reads b.str → a.str = b.str

theorem number?_cases {x : ℤ} (h : a.number? = some x) (hx : longMax ≤ x) :
    ∃ n : ℕ, a = .number n ∧ x = n := by
  cases a with
  | number n => exact ⟨n, rfl, (Option.some.inj h).symm⟩
  | minusOne =>
    obtain rfl := Option.some.inj h
    exact absurd hx (by decide)
  | name function begins argNo => cases h

/-- Numbers are read in their order. -/
theorem Distinguished.min_lt (hS : Distinguished S) (ha : a ∈ S) (hb : b ∈ S) {x y : ℤ}
    (hx : a.number? = some x) (hy : b.number? = some y) (hxy : x < y) :
    min x longMax < min y longMax := by
  by_contra hle
  have hmax : longMax ≤ x := by omega
  obtain ⟨m, rfl, rfl⟩ := number?_cases hx hmax
  obtain ⟨n, rfl, rfl⟩ := number?_cases hy (hmax.trans hxy.le)
  exact hxy.ne (congrArg _ (hS.long m n ha hb hmax (hmax.trans hxy.le)))

/-- What is read from different ids differs. -/
theorem Distinguished.reads_ne (hS : Distinguished S) (ha : a ∈ S) (hb : b ∈ S)
    (hne : a.str ≠ b.str) : reads a.str ≠ reads b.str := by
  intro heq
  cases hx : a.number? with
  | some x =>
    have hread := reads_of_number? hx
    cases hy : b.number? with
    | some y =>
      have hmin : min x longMax = min y longMax :=
        Option.some.inj (hread.symm.trans (heq.trans (reads_of_number? hy)))
      rcases lt_trichotomy x y with hlt | rfl | hgt
      · exact (hS.min_lt ha hb hx hy hlt).ne hmin
      · exact hne (str_of_number? hx hy)
      · exact (hS.min_lt hb ha hy hx hgt).ne hmin.symm
    | none => exact (hS.behind a ha b hb x _ hx hy (heq.symm.trans hread)).false
  | none =>
    cases hy : b.number? with
    | some y =>
      exact (hS.behind b hb a ha y _ hy hx (heq.trans (reads_of_number? hy))).false
    | none =>
      by_cases hread : reads a.str = none
      · exact hne (hS.unread a ha b hb hread (heq.symm.trans hread))
      · exact hne (hS.digits a ha b hb hx hy hread heq)

theorem Distinguished.strictTotalOrder (hS : Distinguished S) : StrictTotalOrder S where
  irrefl a _ := by
    rw [Bool.eq_false_iff, Ne, less_iff]
    rintro ⟨v, hv, h⟩
    exact (h v hv).false
  asymm a _ b _ hab := by
    rw [Bool.eq_false_iff, Ne, less_iff]
    rintro ⟨w, hw, h⟩
    obtain ⟨v, hv, h'⟩ := (less_iff a b).1 hab
    exact (h v hv).not_gt (h' w hw)
  trans a _ b _ c _ hab hbc := by
    obtain ⟨v, hv, h⟩ := (less_iff a b).1 hab
    obtain ⟨w, hw, h'⟩ := (less_iff b c).1 hbc
    exact (less_iff a c).2 ⟨v, hv, fun u hu => (h w hw).trans (h' u hu)⟩
  total a ha b hb hne := by
    have hreads := hS.reads_ne ha hb hne
    rw [less_iff, less_iff]
    cases hv : reads a.str with
    | none =>
      cases hw : reads b.str with
      | none => exact absurd (hv.trans hw.symm) hreads
      | some w => exact Or.inr ⟨w, rfl, fun v h => by cases h⟩
    | some v =>
      cases hw : reads b.str with
      | none => exact Or.inl ⟨v, rfl, fun w h => by cases h⟩
      | some w =>
        have hvw : v ≠ w := fun h => hreads (by rw [hv, hw, h])
        rcases lt_or_gt_of_ne hvw with hlt | hgt
        · exact Or.inl ⟨v, rfl, fun u hu => Option.some.inj hu ▸ hlt⟩
        · exact Or.inr ⟨w, rfl, fun u hu => Option.some.inj hu ▸ hgt⟩
  numbers a ha b hb x y hx hy hxy := by
    refine (less_iff a b).2 ⟨_, reads_of_number? hx, fun w hw => ?_⟩
    rw [reads_of_number? hy, Option.some.injEq] at hw
    exact hw ▸ hS.min_lt ha hb hx hy hxy
  names a ha b hb x hx hy :=
    (less_iff a b).2 ⟨_, reads_of_number? hx, fun w hw => hS.behind a ha b hb x w hx hy hw⟩

/-- **The ids of a family are strictly and totally ordered if and only if what is read from them tells
them apart.** In particular at most one of them is a name from which no number is read. -/
theorem strictTotalOrder_iff_distinguished (S : Set ValueID) : StrictTotalOrder S ↔ Distinguished S := by
  refine ⟨fun h => ⟨fun a ha b hb hra hrb => ?_, fun m n hm hn hmax hmax' => ?_,
    fun a ha b hb x v hx hy hv => ?_, fun a ha b hb _ _ hread heq => ?_⟩, fun h => h.strictTotalOrder⟩
  · by_contra hne
    rcases h.total a ha b hb hne with hless | hless
    · obtain ⟨v, hv, -⟩ := (less_iff a b).1 hless
      cases hra.symm.trans hv
    · obtain ⟨v, hv, -⟩ := (less_iff b a).1 hless
      cases hrb.symm.trans hv
  · -- both are read as `LONG_MAX`
    have hnot : ∀ m n : ℕ, ValueID.number m ∈ S → ValueID.number n ∈ S → longMax ≤ m → longMax ≤ n →
        ¬m < n := by
      intro m n hm hn hmax hmax' hlt
      obtain ⟨v, hv, hvw⟩ := (less_iff _ _).1
        (h.numbers _ hm _ hn m n rfl rfl (Int.ofNat_lt.2 hlt))
      rw [reads_of_number? (a := .number m) rfl, min_eq_right hmax, Option.some.injEq] at hv
      have hlong := hvw longMax (by rw [reads_of_number? (a := .number n) rfl, min_eq_right hmax'])
      exact hlong.ne hv.symm
    exact le_antisymm (not_lt.1 (hnot n m hn hm hmax' hmax)) (not_lt.1 (hnot m n hm hn hmax hmax'))
  · obtain ⟨u, hu, hlt⟩ := (less_iff a b).1 (h.names a ha b hb x hx hy)
    rw [reads_of_number? hx, Option.some.injEq] at hu
    exact hu ▸ hlt v hv
  · by_contra hne
    rcases h.total a ha b hb hne with hless | hless
    · obtain ⟨v, hv, hlt⟩ := (less_iff a b).1 hless
      exact (hlt v (heq.symm.trans hv)).false
    · obtain ⟨v, hv, hlt⟩ := (less_iff b a).1 hless
      exact (hlt v (heq.trans hv)).false

/-- The first arguments of two functions are not ordered. -/
theorem not_strictTotalOrder_names :
    ¬StrictTotalOrder {.name ['f'] rfl 0, .name ['g'] rfl 0} := by
  intro h
  have hne : (ValueID.name ['f'] rfl 0).str ≠ (ValueID.name ['g'] rfl 0).str := by decide
  rcases h.total _ (Or.inl rfl) _ (Or.inr rfl) hne with hless | hless
  · exact absurd hless (by decide)
  · exact absurd hless (by decide)

end StringID

end Phasar
