import Phasar.Lib.WhileLoop
import Mathlib.Algebra.Ring.Nat
import Mathlib.Data.Int.Notation
import Mathlib.Data.List.TakeWhile
import Mathlib.Order.Monotone.Basic
import Mathlib.Tactic.Common

/-!
# Special member functions

`getSpecialMemberFunctionType` looks for the codes of constructors, destructors and assignments in a
mangled name. A code that a number before it reaches is taken for a part of an identifier. The characters
are those of the name, positions are numbers, and what a pointer `C` into the name reads may lie outside.

* `searchStep`, `digitsStep`, `scanStep`: the three loops;
* `occurrences`, `Named`: what they compute, read off the name;
* `total_iff`: the names with which the function returns, and finds nothing in identifiers.
-/

namespace Phasar

inductive SpecialMemberFunctionType
  | None
  | Constructor
  | Destructor
  | CopyConstructor
  | MoveConstructor
  | CopyAssignment
  | MoveAssignment
  deriving DecidableEq

namespace SpecialMemberFunctionType

/-- Why there is no result: an exception, a character outside the name is read, or the steps are used up. -/
inductive Failure
  | outOfRange
  | lengthError
  | invalidArgument
  | readOutside
  | outOfSteps
  deriving DecidableEq

def Codes : List (List Char × SpecialMemberFunctionType) :=
  [(['C', '1'], .Constructor), (['C', '2'], .Constructor), (['C', '3'], .Constructor),
    (['D', '0'], .Destructor), (['D', '1'], .Destructor), (['D', '2'], .Destructor),
    (['a', 'S', 'E', 'R', 'K', 'S', '_'], .CopyAssignment),
    (['a', 'S', 'E', 'O', 'S', '_'], .MoveAssignment)]

/-! ### The search for codes -/

/-- `StringRef::find`; `none` is `npos`. -/
def find (FunctionName Str : List Char) (From : ℕ) : Option ℕ :=
  (List.range' From (FunctionName.length - From)).find? fun i => Str.isPrefixOf (FunctionName.drop i)

structure Search where
  It : List (List Char × SpecialMemberFunctionType)
  Blacklist : ℕ
  Found : List (ℕ × SpecialMemberFunctionType)

def searchStep (FunctionName : List Char) (s : Search) :
    Except Failure (Search ⊕ List (ℕ × SpecialMemberFunctionType)) :=
  match s.It with
  | [] => .ok (.inr s.Found)
  | code :: rest =>
    match find FunctionName code.1 s.Blacklist with
    | none => .ok (.inl ⟨rest, 0, s.Found⟩)
    -- an index of 0 counts as none
    | some 0 => .ok (.inl s)
    | some (k + 1) => .ok (.inl ⟨s.It, k + 2, s.Found ++ [(k + 1, code.2)]⟩)

/-! ### The number at a position -/

def charAt (FunctionName : List Char) (C : ℤ) : Option Char :=
  if C < 0 then none else FunctionName[C.toNat]?

/-- The loop over the digits at `C`; its counter is a `short`. -/
def digitsStep (FunctionName : List Char) (C : ℕ) (I : ℤ) : Except Failure (ℤ ⊕ ℤ) :=
  match charAt FunctionName (C + I) with
  | none => .error .readOutside
  | some c => if c.isDigit then .ok (.inl ((I + 1).bmod (2 ^ 16))) else .ok (.inr I)

/-- `std::string(C, C + I)` -/
def substring (FunctionName : List Char) (C : ℕ) (I : ℤ) : Except Failure (List Char) :=
  if I < 0 then .error .lengthError else .ok ((FunctionName.drop C).take I.toNat)

def decimal (digits : List Char) : ℕ := digits.foldl (fun n c => 10 * n + (c.toNat - '0'.toNat)) 0

/-- `std::stoul` of a string of digits -/
def stoul (ST : List Char) : Except Failure ℕ :=
  if ST = [] then .error .invalidArgument
  else if decimal ST < 2 ^ 64 then .ok (decimal ST)
  else .error .outOfRange

def readNumber (steps : ℕ) (FunctionName : List Char) (C : ℕ) : Except Failure ℕ := do
  let I ← WhileLoop.run .outOfSteps (digitsStep FunctionName C) steps 0
  let ST ← substring FunctionName C I
  stoul ST

/-! ### The scan for numbers -/

/-- Whether a number reaches from the position `C` to `Index`. -/
def scanStep (steps : ℕ) (FunctionName : List Char) (Index C : ℕ) : Except Failure (ℕ ⊕ Bool) :=
  if C < Index then
    match FunctionName[C]? with
    | none => .error .readOutside
    | some c =>
      if c.isDigit then do
        let number ← readNumber steps FunctionName C
        if Index ≤ (C + number) % 2 ^ 64 then .ok (.inr false)
        -- skips as many characters as the code of the digit
        else .ok (.inl (C + c.toNat + 1))
      else .ok (.inl (C + 1))
  else .ok (.inr true)

def classify (steps : ℕ) (FunctionName : List Char) :
    List (ℕ × SpecialMemberFunctionType) → Except Failure SpecialMemberFunctionType
  | [] => .ok .None
  | Index :: Found => do
    let NoName ← WhileLoop.run .outOfSteps (scanStep steps FunctionName Index.1) steps 0
    if NoName then .ok Index.2 else classify steps FunctionName Found

/-- The kind of a function, when each loop may take a number of steps; the pointer to the function can be
null. -/
def getSpecialMemberFunctionType (steps : ℕ) (Fun : Option (List Char)) :
    Except Failure SpecialMemberFunctionType :=
  match Fun with
  | none => .ok .None
  | some FunctionName => do
    let Found ← WhileLoop.run .outOfSteps (searchStep FunctionName) steps ⟨Codes, 0, []⟩
    classify steps FunctionName Found

variable (FunctionName : List Char)

/-! ### Numbers -/

/-- The digits from a position on. -/
def digitsAt (p : ℕ) : List Char := (FunctionName.drop p).takeWhile Char.isDigit

/-- The digits can be counted by a `short`, and the number is an `unsigned long`. -/
def Fits (p : ℕ) : Prop :=
  (digitsAt FunctionName p).length < 2 ^ 15 ∧ decimal (digitsAt FunctionName p) < 2 ^ 64

variable {FunctionName} {p i : ℕ} {c : Char}

theorem getElem?_of_lt_digitsAt {k : ℕ} (h : k < (digitsAt FunctionName p).length) :
    ∃ c, FunctionName[p + k]? = some c ∧ c.isDigit = true := by
  refine ⟨_, ?_, List.mem_takeWhile_imp (List.getElem_mem h)⟩
  rw [← List.getElem?_drop]
  exact List.prefix_iff_getElem?.1 (List.takeWhile_prefix _) k h

/-- Where the digits end, if there is no digit behind `p`. -/
theorem getElem?_behind_digitsAt (hp : p ≤ i) (hi : FunctionName[i]? = some c) (hc : c.isDigit = false) :
    ∃ c', FunctionName[p + (digitsAt FunctionName p).length]? = some c' ∧ c'.isDigit = false := by
  have hsplit : digitsAt FunctionName p ++ (FunctionName.drop p).dropWhile Char.isDigit = FunctionName.drop p :=
    List.takeWhile_append_dropWhile
  have hhead : (FunctionName.drop p)[(digitsAt FunctionName p).length]? =
      ((FunctionName.drop p).dropWhile Char.isDigit).head? := by
    rw [← hsplit, List.getElem?_append_right le_rfl, Nat.sub_self, ← List.head?_eq_getElem?, hsplit]
  rw [← List.getElem?_drop, hhead]
  cases hbehind : (FunctionName.drop p).dropWhile Char.isDigit with
  | nil =>
    have hmem : c ∈ FunctionName.drop p := by
      refine List.mem_of_getElem? (i := i - p) ?_
      rw [List.getElem?_drop, Nat.add_sub_cancel' hp, hi]
    exact absurd (List.dropWhile_eq_nil_iff.1 hbehind c hmem) (by simp [hc])
  | cons c' rest =>
    have hnot := List.head?_dropWhile_not Char.isDigit (FunctionName.drop p)
    rw [hbehind] at hnot
    exact ⟨c', rfl, hnot⟩

theorem charAt_add (k : ℕ) : charAt FunctionName (p + (k : ℤ)) = FunctionName[p + k]? := by
  rw [charAt, if_neg (by omega), ← Int.natCast_add, Int.toNat_natCast]

theorem digitsStep_of_lt {k : ℕ} (h : k < (digitsAt FunctionName p).length) :
    digitsStep FunctionName p k = .ok (.inl (((k : ℤ) + 1).bmod (2 ^ 16))) := by
  obtain ⟨c, hget, hc⟩ := getElem?_of_lt_digitsAt h
  rw [digitsStep, charAt_add, hget]
  exact if_pos hc

theorem digitsStep_inl {I J : ℤ} (hJ : digitsStep FunctionName p I = .ok (.inl J)) :
    J = (I + 1).bmod (2 ^ 16) := by
  unfold digitsStep at hJ
  split at hJ
  · cases hJ
  · split_ifs at hJ
    · exact (Sum.inl.inj (Except.ok.inj hJ)).symm
    · cases hJ

/-- The loop is not left at a digit. -/
theorem digitsStep_inr {I J : ℤ} (hJ : digitsStep FunctionName p I = .ok (.inr J)) :
    J = I ∧ ∀ k < (digitsAt FunctionName p).length, I ≠ k := by
  refine ⟨?_, fun k hk heq => ?_⟩
  · unfold digitsStep at hJ
    split at hJ
    · cases hJ
    · split_ifs at hJ
      · cases hJ
      · exact (Sum.inr.inj (Except.ok.inj hJ)).symm
  · rw [heq, digitsStep_of_lt hk] at hJ
    cases hJ

theorem substring_digits :
    substring FunctionName p ((digitsAt FunctionName p).length : ℤ) = .ok (digitsAt FunctionName p) := by
  rw [substring, if_neg (by omega), Int.toNat_natCast]
  exact congrArg Except.ok (List.prefix_iff_eq_take.1 (List.takeWhile_prefix _)).symm

section

variable (hp : p ≤ i) (hi : FunctionName[i]? = some c) (hc : c.isDigit = false)
include hp hi hc

theorem digitsStep_behind : digitsStep FunctionName p (digitsAt FunctionName p).length =
    .ok (.inr ((digitsAt FunctionName p).length : ℤ)) := by
  obtain ⟨c', hget, hc'⟩ := getElem?_behind_digitsAt hp hi hc
  rw [digitsStep, charAt_add, hget]
  exact if_neg (by simp [hc'])

/-- The loop counts the digits. -/
theorem digits_exists {steps : ℕ} (hfits : (digitsAt FunctionName p).length < 2 ^ 15)
    (hsteps : (digitsAt FunctionName p).length < steps) :
    WhileLoop.run .outOfSteps (digitsStep FunctionName p) steps 0 =
      .ok ((digitsAt FunctionName p).length : ℤ) := by
  obtain ⟨J, hJ, rfl⟩ := WhileLoop.exists_ok Failure.outOfSteps (digitsStep FunctionName p)
    (fun I => ∃ k : ℕ, k ≤ (digitsAt FunctionName p).length ∧ I = k)
    (fun J => J = (digitsAt FunctionName p).length)
    (fun I => (digitsAt FunctionName p).length - I.toNat) (by
      rintro I ⟨k, hk, rfl⟩
      rcases Nat.lt_or_eq_of_le hk with hlt | rfl
      · refine Or.inr ⟨_, digitsStep_of_lt hlt, ⟨k + 1, hlt, ?_⟩, ?_⟩
        · rw [Int.bmod_eq_of_le] <;> omega
        · rw [Int.bmod_eq_of_le] <;> omega
      · exact Or.inl ⟨_, digitsStep_behind hp hi hc, rfl⟩)
    ⟨0, Nat.zero_le _, rfl⟩ hsteps
  exact hJ

/-- It returns a negative counter, or the number of digits. -/
theorem digits_ok {steps : ℕ} {J : ℤ}
    (h : WhileLoop.run .outOfSteps (digitsStep FunctionName p) steps 0 = .ok J) :
    J < 0 ∨ ((digitsAt FunctionName p).length < 2 ^ 15 ∧ J = (digitsAt FunctionName p).length) := by
  -- as long as there are digits the counter wraps around
  refine WhileLoop.of_ok (fun I : ℤ => (2 ^ 15 ≤ (digitsAt FunctionName p).length ∧ I < 2 ^ 15) ∨
    ((digitsAt FunctionName p).length < 2 ^ 15 ∧ ∃ k : ℕ, k ≤ (digitsAt FunctionName p).length ∧ I = k))
    (fun J : ℤ => J < 0 ∨ ((digitsAt FunctionName p).length < 2 ^ 15 ∧ J = (digitsAt FunctionName p).length))
    ?_ ?_ ?_ h
  · rintro I J (⟨hlong, hI⟩ | ⟨hfits, k, hk, rfl⟩) hstep
    · left
      rw [digitsStep_inl hstep]
      exact ⟨hlong, Int.bmod_lt (by omega)⟩
    · right
      rw [digitsStep_inl hstep]
      rcases Nat.lt_or_eq_of_le hk with hlt | rfl
      · refine ⟨hfits, k + 1, hlt, ?_⟩
        rw [Int.bmod_eq_of_le] <;> omega
      · rw [digitsStep_behind hp hi hc] at hstep
        cases hstep
  · intro I J hI hstep
    obtain ⟨rfl, hnot⟩ := digitsStep_inr hstep
    rcases hI with ⟨hlong, hlt⟩ | ⟨hfits, k, hk, rfl⟩
    · left
      by_contra hneg
      exact hnot J.toNat (by omega) (by omega)
    · right
      refine ⟨hfits, ?_⟩
      rcases Nat.lt_or_eq_of_le hk with hlt | rfl
      · exact absurd rfl (hnot k hlt)
      · rfl
  · rcases Nat.lt_or_ge (digitsAt FunctionName p).length (2 ^ 15) with hlt | hge
    · exact Or.inr ⟨hlt, 0, Nat.zero_le _, rfl⟩
    · exact Or.inl ⟨hge, by omega⟩

theorem readNumber_of_fits {steps : ℕ} (hdigit : digitsAt FunctionName p ≠ []) (hfits : Fits FunctionName p)
    (hsteps : (digitsAt FunctionName p).length < steps) :
    readNumber steps FunctionName p = .ok (decimal (digitsAt FunctionName p)) := by
  rw [readNumber, digits_exists hp hi hc hfits.1 hsteps]
  show (substring FunctionName p (digitsAt FunctionName p).length >>= stoul) = .ok _
  rw [substring_digits]
  show stoul (digitsAt FunctionName p) = _
  rw [stoul, if_neg hdigit, if_pos hfits.2]

theorem readNumber_ok {steps number : ℕ} (h : readNumber steps FunctionName p = .ok number) :
    Fits FunctionName p ∧ number = decimal (digitsAt FunctionName p) := by
  rw [readNumber] at h
  cases hJ : WhileLoop.run .outOfSteps (digitsStep FunctionName p) steps 0 with
  | error e =>
    rw [hJ] at h
    cases h
  | ok J =>
    rw [hJ] at h
    replace h : (substring FunctionName p J >>= stoul) = .ok number := h
    rcases digits_ok hp hi hc hJ with hneg | ⟨hfits, rfl⟩
    · rw [substring, if_pos hneg] at h
      cases h
    · rw [substring_digits] at h
      replace h : stoul (digitsAt FunctionName p) = .ok number := h
      rw [stoul] at h
      split_ifs at h with hnil hlt
      · exact ⟨⟨hfits, hlt⟩, (Except.ok.inj h).symm⟩

end

/-! ### The numbers that the scan looks at -/

variable (FunctionName) in
/-- Where the scan goes on. -/
def next (p : ℕ) : ℕ :=
  match FunctionName[p]? with
  | some c => if c.isDigit then p + c.toNat + 1 else p + 1
  | none => p + 1

variable (FunctionName) in
def Scanned (p : ℕ) : Prop := ∃ n, (next FunctionName)^[n] 0 = p

variable (FunctionName) in
/-- The scan finds a digit at `p`. -/
def Visited (p : ℕ) : Prop := Scanned FunctionName p ∧ digitsAt FunctionName p ≠ []

variable (FunctionName) in
/-- The number at `p` reaches `i`. -/
def Reaches (p i : ℕ) : Prop := i ≤ (p + decimal (digitsAt FunctionName p)) % 2 ^ 64

variable (FunctionName) in
/-- A number before `i` reaches `i`. -/
def Named (i : ℕ) : Prop := ∃ p < i, Visited FunctionName p ∧ Reaches FunctionName p i

variable (FunctionName) in
/-- The numbers before `i` can be read, up to the first that reaches `i`. -/
def Readable (i : ℕ) : Prop := ∀ p < i, Visited FunctionName p →
  (∀ q < p, Visited FunctionName q → ¬Reaches FunctionName q i) → Fits FunctionName p

variable (FunctionName) in
theorem lt_next (p : ℕ) : p < next FunctionName p := by
  unfold next
  split
  · split_ifs <;> omega
  · omega

theorem Scanned.next (h : Scanned FunctionName p) : Scanned FunctionName (next FunctionName p) := by
  obtain ⟨n, rfl⟩ := h
  exact ⟨n + 1, Function.iterate_succ_apply' _ _ _⟩

/-- The scan leaves out what is between a position and the next. -/
theorem Scanned.le_of_lt_next {C : ℕ} (hC : Scanned FunctionName C) (hp : Scanned FunctionName p)
    (hlt : p < SpecialMemberFunctionType.next FunctionName C) : p ≤ C := by
  have hmono : StrictMono fun n => (SpecialMemberFunctionType.next FunctionName)^[n] 0 := by
    refine strictMono_nat_of_lt_succ fun n => ?_
    rw [Function.iterate_succ_apply']
    exact lt_next FunctionName _
  obtain ⟨n, rfl⟩ := hC
  obtain ⟨m, rfl⟩ := hp
  rw [← Function.iterate_succ_apply' (SpecialMemberFunctionType.next FunctionName)] at hlt
  exact hmono.monotone (Nat.le_of_lt_succ (hmono.lt_iff_lt.1 hlt))

theorem digitsAt_eq_nil (hget : FunctionName[p]? = some c) :
    digitsAt FunctionName p = [] ↔ c.isDigit = false := by
  rw [← List.head?_eq_none_iff, digitsAt, List.head?_takeWhile, List.head?_drop, hget]
  cases hc : c.isDigit <;> simp [Option.filter, hc]

variable (FunctionName) in
/-- The scan has come to `C`, and no number before reaches `i`. -/
structure Passed (i C : ℕ) : Prop where
  scanned : Scanned FunctionName C
  fits : ∀ p < C, p < i → Visited FunctionName p → Fits FunctionName p
  not_reaches : ∀ p < C, p < i → Visited FunctionName p → ¬Reaches FunctionName p i

theorem passed_zero (i : ℕ) : Passed FunctionName i 0 :=
  ⟨⟨0, rfl⟩, fun p hp => absurd hp (Nat.not_lt_zero p), fun p hp => absurd hp (Nat.not_lt_zero p)⟩

theorem Passed.next {C : ℕ} (h : Passed FunctionName i C) (hfits : Visited FunctionName C → Fits FunctionName C)
    (hnot : Visited FunctionName C → ¬Reaches FunctionName C i) :
    Passed FunctionName i (next FunctionName C) := by
  have hbefore : ∀ p < SpecialMemberFunctionType.next FunctionName C, Visited FunctionName p → p < C ∨ p = C :=
    fun p hp hvisited => Nat.lt_or_eq_of_le (h.scanned.le_of_lt_next hvisited.1 hp)
  refine ⟨h.scanned.next, fun p hp hpi hvisited => ?_, fun p hp hpi hvisited => ?_⟩
  · rcases hbefore p hp hvisited with hlt | rfl
    · exact h.fits p hlt hpi hvisited
    · exact hfits hvisited
  · rcases hbefore p hp hvisited with hlt | rfl
    · exact h.not_reaches p hlt hpi hvisited
    · exact hnot hvisited

section

variable {steps C : ℕ} (hi : FunctionName[i]? = some c) (hc : c.isDigit = false)
include hi

variable (steps) in
theorem scanStep_of_lt (hC : Scanned FunctionName C) (hlt : C < i) :
    (¬Visited FunctionName C ∧ scanStep steps FunctionName i C = .ok (.inl (next FunctionName C))) ∨
    (Visited FunctionName C ∧ scanStep steps FunctionName i C = (readNumber steps FunctionName C).bind
      fun number => if i ≤ (C + number) % 2 ^ 64 then .ok (.inr false) else .ok (.inl (next FunctionName C))) := by
  have hlen : C < FunctionName.length := hlt.trans (List.getElem?_eq_some_iff.1 hi).1
  have hget : FunctionName[C]? = some FunctionName[C] := List.getElem?_eq_getElem hlen
  cases hdigit : FunctionName[C].isDigit with
  | false =>
    left
    refine ⟨fun h => h.2 ((digitsAt_eq_nil hget).2 hdigit), ?_⟩
    simp [scanStep, next, hlt, hlen, hdigit]
  | true =>
    right
    refine ⟨⟨hC, fun h => ?_⟩, ?_⟩
    · rw [(digitsAt_eq_nil hget).1 h] at hdigit
      cases hdigit
    · rw [scanStep, if_pos hlt, next, hget]
      simp only [hdigit, if_true]
      rfl

include hc

theorem scanStep_ok {r : ℕ ⊕ Bool} (hC : Scanned FunctionName C) (h : scanStep steps FunctionName i C = .ok r) :
    (C < i ∧ r = .inl (next FunctionName C) ∧
      (Visited FunctionName C → Fits FunctionName C ∧ ¬Reaches FunctionName C i)) ∨
    (C < i ∧ r = .inr false ∧ Visited FunctionName C ∧ Fits FunctionName C ∧ Reaches FunctionName C i) ∨
    (i ≤ C ∧ r = .inr true) := by
  by_cases hlt : C < i
  · rcases scanStep_of_lt steps hi hC hlt with ⟨hnot, heq⟩ | ⟨hvisited, heq⟩
    · rw [heq] at h
      exact Or.inl ⟨hlt, (Except.ok.inj h).symm, fun hvisited => absurd hvisited hnot⟩
    · rw [heq] at h
      cases hread : readNumber steps FunctionName C with
      | error e =>
        rw [hread] at h
        cases h
      | ok number =>
        obtain ⟨hfits, rfl⟩ := readNumber_ok hlt.le hi hc hread
        rw [hread, Except.bind] at h
        split_ifs at h with hreach
        · exact Or.inr (Or.inl ⟨hlt, (Except.ok.inj h).symm, hvisited, hfits, hreach⟩)
        · exact Or.inl ⟨hlt, (Except.ok.inj h).symm, fun _ => ⟨hfits, hreach⟩⟩
  · rw [scanStep, if_neg hlt] at h
    exact Or.inr (Or.inr ⟨Nat.le_of_not_lt hlt, (Except.ok.inj h).symm⟩)

/-- What the scan returns. -/
theorem scan_ok {n : ℕ} {NoName : Bool}
    (h : WhileLoop.run .outOfSteps (scanStep steps FunctionName i) n 0 = .ok NoName) :
    Readable FunctionName i ∧ (NoName = false ↔ Named FunctionName i) := by
  refine WhileLoop.of_ok (Passed FunctionName i)
    (fun NoName => Readable FunctionName i ∧ (NoName = false ↔ Named FunctionName i)) ?_ ?_ (passed_zero i) h
  · intro C C' hpassed hstep
    rcases scanStep_ok hi hc hpassed.scanned hstep with ⟨-, heq, hC⟩ | ⟨-, heq, -⟩ | ⟨-, heq⟩
    · cases heq
      exact hpassed.next (fun hvis => (hC hvis).1) fun hvis => (hC hvis).2
    · cases heq
    · cases heq
  · intro C NoName hpassed hstep
    rcases scanStep_ok hi hc hpassed.scanned hstep with
      ⟨-, heq, -⟩ | ⟨hlt, heq, hvisited, hfits, hreach⟩ | ⟨hle, heq⟩
    · cases heq
    · cases heq
      refine ⟨fun p hp hvis hnot => ?_, iff_of_true rfl ⟨C, hlt, hvisited, hreach⟩⟩
      rcases lt_trichotomy p C with hpC | rfl | hCp
      · exact hpassed.fits p hpC hp hvis
      · exact hfits
      · exact absurd hreach (hnot C hCp hvisited)
    · cases heq
      refine ⟨fun p hp hvis _ => hpassed.fits p (hp.trans_le hle) hp hvis, iff_of_false (by simp) ?_⟩
      rintro ⟨p, hp, hvis, hreach⟩
      exact hpassed.not_reaches p (hp.trans_le hle) hp hvis hreach

/-- The scan returns if all it reads are numbers that fit. -/
theorem scan_exists {n : ℕ} (hreadable : Readable FunctionName i) (hsteps : FunctionName.length < steps)
    (hn : i < n) : ∃ NoName, WhileLoop.run .outOfSteps (scanStep steps FunctionName i) n 0 = .ok NoName := by
  obtain ⟨NoName, h, -⟩ := WhileLoop.exists_ok Failure.outOfSteps (scanStep steps FunctionName i)
    (Passed FunctionName i) (fun _ => True) (fun C => i - C) (by
      intro C hpassed
      by_cases hlt : C < i
      · have hmeasure : i - next FunctionName C < i - C := by
          have := lt_next FunctionName C
          omega
        rcases scanStep_of_lt steps hi hpassed.scanned hlt with ⟨hnot, heq⟩ | ⟨hvisited, heq⟩
        · exact Or.inr ⟨_, heq, hpassed.next (fun h => absurd h hnot) (fun h => absurd h hnot), hmeasure⟩
        · have hfits : Fits FunctionName C := hreadable C hlt hvisited fun q hq hvis =>
            hpassed.not_reaches q hq (hq.trans hlt) hvis
          have hlen : (digitsAt FunctionName C).length < steps :=
            ((List.takeWhile_prefix _).length_le.trans (List.drop_sublist _ _).length_le).trans_lt hsteps
          rw [heq, readNumber_of_fits hlt.le hi hc hvisited.2 hfits hlen, Except.bind]
          split_ifs with hreach
          · exact Or.inl ⟨false, rfl, trivial⟩
          · exact Or.inr ⟨_, rfl, hpassed.next (fun _ => hfits) (fun _ => hreach), hmeasure⟩
      · refine Or.inl ⟨true, ?_, trivial⟩
        rw [scanStep, if_neg hlt])
    (passed_zero i) hn
  exact ⟨NoName, h⟩

end

/-! ### The occurrences of codes -/

variable (FunctionName) in
def positions (code : List Char) (From : ℕ) : List ℕ :=
  (List.range' From (FunctionName.length - From)).filter fun i => code.isPrefixOf (FunctionName.drop i)

variable (FunctionName) in
/-- The occurrences of a code, from a position on. -/
def occurrencesFrom (From : ℕ) (code : List Char × SpecialMemberFunctionType) :
    List (ℕ × SpecialMemberFunctionType) :=
  (positions FunctionName code.1 From).map fun i => (i, code.2)

variable (FunctionName) in
def occurrences : List (ℕ × SpecialMemberFunctionType) := Codes.flatMap (occurrencesFrom FunctionName 0)

variable {code : List Char × SpecialMemberFunctionType} {From : ℕ}

theorem codes_spec : ∀ code ∈ Codes, code.2 ≠ .None ∧ code.1.head?.any (fun c => !c.isDigit) = true := by
  decide

/-- A code starts with a letter. -/
theorem exists_letter (hcode : code ∈ Codes) (h : code.1 <+: FunctionName.drop i) :
    ∃ c, FunctionName[i]? = some c ∧ c.isDigit = false := by
  obtain ⟨-, hhead⟩ := codes_spec code hcode
  obtain ⟨rest, hrest⟩ := h
  cases hchars : code.1 with
  | nil =>
    rw [hchars] at hhead
    cases hhead
  | cons c chars =>
    rw [hchars] at hhead hrest
    refine ⟨c, ?_, by simpa using hhead⟩
    rw [← List.head?_drop, ← hrest]
    rfl

theorem mem_positions (hcode : code ∈ Codes) :
    i ∈ positions FunctionName code.1 From ↔ From ≤ i ∧ code.1 <+: FunctionName.drop i := by
  rw [positions, List.mem_filter, List.mem_range'_1, List.isPrefixOf_iff_prefix]
  constructor
  · exact fun h => ⟨h.1.1, h.2⟩
  · rintro ⟨hle, hpre⟩
    obtain ⟨c, hget, -⟩ := exists_letter hcode hpre
    have hlt := (List.getElem?_eq_some_iff.1 hget).1
    exact ⟨⟨hle, by omega⟩, hpre⟩

theorem mem_occurrences {o : ℕ × SpecialMemberFunctionType} (h : o ∈ occurrences FunctionName) :
    o.2 ≠ .None ∧ ∃ c, FunctionName[o.1]? = some c ∧ c.isDigit = false := by
  obtain ⟨code, hcode, ho⟩ := List.mem_flatMap.1 h
  obtain ⟨k, hk, rfl⟩ := List.mem_map.1 ho
  exact ⟨(codes_spec code hcode).1, exists_letter hcode ((mem_positions hcode).1 hk).2⟩

theorem positions_of_find_none {Str : List Char} (h : find FunctionName Str From = none) :
    positions FunctionName Str From = [] := by
  rw [find, List.find?_eq_none] at h
  exact List.filter_eq_nil_iff.2 h

theorem positions_of_find_some {Str : List Char} {k : ℕ} (h : find FunctionName Str From = some k) :
    positions FunctionName Str From = k :: positions FunctionName Str (k + 1) := by
  obtain ⟨hk, before, behind, hsplit, hbefore⟩ := List.find?_eq_some_iff_append.1 h
  obtain ⟨m, hm, rfl, hcons⟩ := List.range'_eq_append_iff.1 hsplit
  obtain ⟨heq, hpos, rfl⟩ := List.range'_eq_cons_iff.1 hcons.symm
  have hnil : (List.range' From m).filter (fun i => Str.isPrefixOf (FunctionName.drop i)) = [] :=
    List.filter_eq_nil_iff.2 fun i hi => by
      simpa only [Bool.not_eq_true', Bool.not_eq_true] using hbefore i hi
  have hlen : FunctionName.length - From - m - 1 = FunctionName.length - (k + 1) := by omega
  rw [positions, hsplit, List.filter_append, hnil, List.nil_append, List.filter_cons, if_pos hk, hlen]
  rfl

/-! ### The search -/

/-- What the search has still to find. -/
def Search.remaining (FunctionName : List Char) (s : Search) : List (ℕ × SpecialMemberFunctionType) :=
  match s.It with
  | [] => []
  | code :: rest =>
    occurrencesFrom FunctionName s.Blacklist code ++ rest.flatMap (occurrencesFrom FunctionName 0)

variable (FunctionName) in
/-- The codes before `It` do not start the name, and what is found and what remains are all occurrences. -/
structure Searched (s : Search) : Prop where
  suffix : s.It <:+ Codes
  starts : ∀ code ∈ Codes, code.1 <+: FunctionName → code ∈ s.It
  blacklist : ∀ code ∈ s.It.head?, 0 < s.Blacklist → ¬code.1 <+: FunctionName
  found : s.Found ++ s.remaining FunctionName = occurrences FunctionName

theorem find_eq_zero_iff (hcode : code ∈ Codes) :
    find FunctionName code.1 0 = some 0 ↔ code.1 <+: FunctionName := by
  constructor
  · intro h
    have hmem : 0 ∈ positions FunctionName code.1 0 := by
      rw [positions_of_find_some h]
      exact List.mem_cons_self
    exact ((mem_positions hcode).1 hmem).2
  · intro h
    have hmem : 0 ∈ positions FunctionName code.1 0 := (mem_positions hcode).2 ⟨le_rfl, h⟩
    cases hfind : find FunctionName code.1 0 with
    | none =>
      rw [positions_of_find_none hfind] at hmem
      cases hmem
    | some k =>
      rw [positions_of_find_some hfind] at hmem
      rcases List.mem_cons.1 hmem with rfl | hlater
      · rfl
      · exact absurd ((mem_positions hcode).1 hlater).1 (Nat.not_succ_le_zero k)

theorem Searched.mem {s : Search} (h : Searched FunctionName s) {rest : List (List Char × SpecialMemberFunctionType)}
    (hIt : s.It = code :: rest) : code ∈ Codes :=
  h.suffix.subset (hIt ▸ List.mem_cons_self)

theorem Searched.not_prefix_of_find {s : Search} (h : Searched FunctionName s)
    {rest : List (List Char × SpecialMemberFunctionType)} (hIt : s.It = code :: rest)
    (hfind : find FunctionName code.1 s.Blacklist ≠ some 0) : ¬code.1 <+: FunctionName := by
  rcases Nat.eq_zero_or_pos s.Blacklist with hzero | hpos
  · rw [hzero, Ne, find_eq_zero_iff (h.mem hIt)] at hfind
    exact hfind
  · exact h.blacklist code (by rw [hIt]; rfl) hpos

theorem searched_init : Searched FunctionName ⟨Codes, 0, []⟩ :=
  ⟨List.suffix_refl _, fun _ hcode _ => hcode, fun _ _ h => absurd h (Nat.lt_irrefl 0), rfl⟩

theorem Searched.step {s s' : Search} (h : Searched FunctionName s)
    (hstep : searchStep FunctionName s = .ok (.inl s')) : Searched FunctionName s' := by
  obtain ⟨It, Blacklist, Found⟩ := s
  cases It with
  | nil => cases hstep
  | cons code rest =>
    have hnot := h.not_prefix_of_find rfl
    have hfound := h.found
    simp only [Search.remaining, occurrencesFrom] at hfound
    simp only [searchStep] at hstep
    cases hfind : find FunctionName code.1 Blacklist with
    | none =>
      rw [hfind] at hstep
      cases hstep
      rw [positions_of_find_none hfind] at hfound
      refine ⟨(List.suffix_cons _ _).trans h.suffix, fun c hc hpre => ?_, fun _ _ h => absurd h (Nat.lt_irrefl 0), ?_⟩
      · rcases List.mem_cons.1 (h.starts c hc hpre) with rfl | hmem
        · exact absurd hpre (hnot (by simp [hfind]))
        · exact hmem
      · cases rest <;> exact hfound
    | some k =>
      rw [hfind] at hstep
      cases k with
      | zero =>
        cases hstep
        exact h
      | succ k =>
        cases hstep
        rw [positions_of_find_some hfind] at hfound
        refine ⟨h.suffix, h.starts, fun c hc _ => ?_, ?_⟩
        · cases hc
          exact hnot (by simp [hfind])
        · simpa [Search.remaining, occurrencesFrom] using hfound

/-- The search finds all occurrences, and does not end at a name that starts with a code. -/
theorem search_ok {n : ℕ} {Found : List (ℕ × SpecialMemberFunctionType)}
    (h : WhileLoop.run .outOfSteps (searchStep FunctionName) n ⟨Codes, 0, []⟩ = .ok Found) :
    Found = occurrences FunctionName ∧ ∀ code ∈ Codes, ¬code.1 <+: FunctionName := by
  refine WhileLoop.of_ok (Searched FunctionName)
    (fun Found => Found = occurrences FunctionName ∧ ∀ code ∈ Codes, ¬code.1 <+: FunctionName)
    (fun hs hstep => hs.step hstep) ?_ searched_init h
  rintro ⟨It, Blacklist, Found⟩ Found' hs hstep
  cases It with
  | nil =>
    cases hstep
    refine ⟨?_, fun code hcode hpre => absurd (hs.starts code hcode hpre) List.not_mem_nil⟩
    rw [← hs.found]
    exact (List.append_nil _).symm
  | cons code rest =>
    simp only [searchStep] at hstep
    split at hstep <;> cases hstep

theorem search_exists {n : ℕ} (hstart : ∀ code ∈ Codes, ¬code.1 <+: FunctionName)
    (hn : 9 * (FunctionName.length + 2) ≤ n) :
    ∃ Found, WhileLoop.run .outOfSteps (searchStep FunctionName) n ⟨Codes, 0, []⟩ = .ok Found := by
  have hmeasure : Codes.length * (FunctionName.length + 2) + (FunctionName.length + 1 - 0) < n := by
    show 8 * (FunctionName.length + 2) + (FunctionName.length + 1 - 0) < n
    omega
  obtain ⟨Found, h, -⟩ := WhileLoop.exists_ok (s := ⟨Codes, 0, []⟩) Failure.outOfSteps (searchStep FunctionName)
    (fun s => s.It <:+ Codes) (fun _ => True)
    (fun s => s.It.length * (FunctionName.length + 2) + (FunctionName.length + 1 - s.Blacklist)) (by
      rintro ⟨It, Blacklist, Found⟩ hsuffix
      cases It with
      | nil => exact Or.inl ⟨Found, rfl, trivial⟩
      | cons code rest =>
        have hcode : code ∈ Codes := hsuffix.subset List.mem_cons_self
        right
        simp only [searchStep, List.length_cons, Nat.succ_mul]
        cases hfind : find FunctionName code.1 Blacklist with
        | none => exact ⟨_, rfl, (List.suffix_cons _ _).trans hsuffix, by simp only; omega⟩
        | some k =>
          have hmem : k ∈ positions FunctionName code.1 Blacklist := by
            rw [positions_of_find_some hfind]
            exact List.mem_cons_self
          obtain ⟨hle, hpre⟩ := (mem_positions hcode).1 hmem
          obtain ⟨c, hget, -⟩ := exists_letter hcode hpre
          have hlt := (List.getElem?_eq_some_iff.1 hget).1
          cases k with
          | zero => exact absurd hpre (hstart code hcode)
          | succ k => exact ⟨_, rfl, hsuffix, by simp only [List.length_cons, Nat.succ_mul]; omega⟩)
    (List.suffix_refl _) hmeasure
  exact ⟨Found, h⟩

/-! ### The classification -/

variable (FunctionName) in
/-- The numbers can be read up to the first occurrence that no number reaches. -/
def AllReadable : List (ℕ × SpecialMemberFunctionType) → Prop
  | [] => True
  | o :: rest => Readable FunctionName o.1 ∧ (Named FunctionName o.1 → AllReadable rest)

theorem classify_ok {steps : ℕ} {Found : List (ℕ × SpecialMemberFunctionType)}
    (hFound : ∀ o ∈ Found, o.2 ≠ .None ∧ ∃ c, FunctionName[o.1]? = some c ∧ c.isDigit = false)
    {type : SpecialMemberFunctionType} (h : classify steps FunctionName Found = .ok type) :
    AllReadable FunctionName Found ∧ (type = .None ↔ ∀ o ∈ Found, Named FunctionName o.1) := by
  induction Found with
  | nil =>
    cases h
    exact ⟨trivial, iff_of_true rfl fun _ ho => absurd ho List.not_mem_nil⟩
  | cons o Found ih =>
    obtain ⟨hne, c, hget, hc⟩ := hFound o List.mem_cons_self
    rw [classify] at h
    cases hscan : WhileLoop.run .outOfSteps (scanStep steps FunctionName o.1) steps 0 with
    | error e =>
      rw [hscan] at h
      cases h
    | ok NoName =>
      rw [hscan] at h
      obtain ⟨hreadable, hnamed⟩ := scan_ok hget hc hscan
      cases NoName with
      | true =>
        cases h
        have hnot : ¬Named FunctionName o.1 := fun hname => by simpa using hnamed.2 hname
        exact ⟨⟨hreadable, fun hname => absurd hname hnot⟩,
          iff_of_false hne fun hall => hnot (hall o List.mem_cons_self)⟩
      | false =>
        obtain ⟨hall, htype⟩ := ih (fun o ho => hFound o (List.mem_cons_of_mem _ ho)) h
        refine ⟨⟨hreadable, fun _ => hall⟩, htype.trans ?_⟩
        rw [List.forall_mem_cons]
        exact (and_iff_right (hnamed.1 rfl)).symm

theorem classify_exists {steps : ℕ} {Found : List (ℕ × SpecialMemberFunctionType)}
    (hFound : ∀ o ∈ Found, o.2 ≠ .None ∧ ∃ c, FunctionName[o.1]? = some c ∧ c.isDigit = false)
    (hreadable : AllReadable FunctionName Found) (hsteps : FunctionName.length < steps) :
    ∃ type, classify steps FunctionName Found = .ok type := by
  induction Found with
  | nil => exact ⟨.None, rfl⟩
  | cons o Found ih =>
    obtain ⟨-, c, hget, hc⟩ := hFound o List.mem_cons_self
    have hlt := (List.getElem?_eq_some_iff.1 hget).1
    obtain ⟨NoName, hscan⟩ := scan_exists hget hc hreadable.1 hsteps (hlt.trans hsteps)
    rw [classify, hscan]
    cases NoName with
    | true => exact ⟨o.2, rfl⟩
    | false =>
      have hnamed := (scan_ok hget hc hscan).2.1 rfl
      exact ih (fun o ho => hFound o (List.mem_cons_of_mem _ ho)) (hreadable.2 hnamed)

/-! ### Identifiers -/

variable (FunctionName) in
/-- The `n` characters at `i` lie in the identifier behind a number. -/
def InIdentifier (i n : ℕ) : Prop := ∃ before digits behind,
  FunctionName = before ++ digits ++ behind ∧ digits ≠ [] ∧ (∀ c ∈ digits, c.isDigit = true) ∧
  (∀ c ∈ before.getLast?, c.isDigit = false) ∧ (∀ c ∈ behind.head?, c.isDigit = false) ∧
  before.length + digits.length ≤ i ∧ i + n ≤ before.length + digits.length + decimal digits

variable (FunctionName) in
def AllInIdentifiers : Prop := ∀ code ∈ Codes, ∀ i, code.1 <+: FunctionName.drop i →
  InIdentifier FunctionName i code.1.length

variable (FunctionName) in
/-- The function returns, and finds nothing if all codes lie in identifiers. -/
def Total : Prop := ∃ steps type, getSpecialMemberFunctionType steps (some FunctionName) = .ok type ∧
  (AllInIdentifiers FunctionName → type = .None)

theorem of_total (h : Total FunctionName) : (∀ code ∈ Codes, ¬code.1 <+: FunctionName) ∧
    AllReadable FunctionName (occurrences FunctionName) ∧
    (AllInIdentifiers FunctionName → ∀ o ∈ occurrences FunctionName, Named FunctionName o.1) := by
  obtain ⟨steps, type, hok, hnone⟩ := h
  rw [getSpecialMemberFunctionType] at hok
  cases hsearch : WhileLoop.run .outOfSteps (searchStep FunctionName) steps ⟨Codes, 0, []⟩ with
  | error e =>
    rw [hsearch] at hok
    cases hok
  | ok Found =>
    rw [hsearch] at hok
    obtain ⟨rfl, hstart⟩ := search_ok hsearch
    obtain ⟨hreadable, htype⟩ := classify_ok (fun o => mem_occurrences) hok
    exact ⟨hstart, hreadable, fun hall => htype.1 (hnone hall)⟩

/-- It does for the names that do not start with a code, in which all numbers that it reads fit, and in
which it finds the numbers that reach the codes if these lie in identifiers. -/
theorem total_iff : Total FunctionName ↔ (∀ code ∈ Codes, ¬code.1 <+: FunctionName) ∧
    AllReadable FunctionName (occurrences FunctionName) ∧
    (AllInIdentifiers FunctionName → ∀ o ∈ occurrences FunctionName, Named FunctionName o.1) := by
  refine ⟨of_total, ?_⟩
  rintro ⟨hstart, hreadable, hnamed⟩
  have hsteps : FunctionName.length < 9 * (FunctionName.length + 2) := by omega
  obtain ⟨Found, hsearch⟩ := search_exists hstart le_rfl
  obtain ⟨rfl, -⟩ := search_ok hsearch
  obtain ⟨type, hclassify⟩ := classify_exists (fun o => mem_occurrences) hreadable hsteps
  refine ⟨9 * (FunctionName.length + 2), type, ?_, fun hall => ?_⟩
  · rw [getSpecialMemberFunctionType, hsearch]
    exact hclassify
  · exact (classify_ok (fun o => mem_occurrences) hclassify).2.2 (hnamed hall)

/-- `a::C1()` -/
def nested : List Char := ['_', 'Z', 'N', '1', 'a', '2', 'C', '1', 'E', 'v']

/-- The scan skips the number of `C1`. -/
theorem not_named_nested : ¬Named nested 6 := by
  rintro ⟨p, hp, ⟨hscanned, hdigit⟩, hreach⟩
  have hthree : Scanned nested 3 := ⟨3, by decide⟩
  have hnext : next nested 3 = 53 := by decide
  have hbefore : ∀ p < 4, digitsAt nested p = [] ∨ ¬6 ≤ (p + decimal (digitsAt nested p)) % 2 ^ 64 := by decide
  have hle : p ≤ 3 := hthree.le_of_lt_next hscanned (by omega)
  rcases hbefore p (Nat.lt_succ_of_le hle) with hnil | hnot
  · exact hdigit hnil
  · exact hnot hreach

theorem allInIdentifiers_nested : AllInIdentifiers nested := by
  intro code hcode i hpre
  have hall : ∀ code ∈ Codes, ∀ i ∈ positions nested code.1 0, i = 6 ∧ code.1.length = 2 := by decide
  obtain ⟨rfl, hlen⟩ := hall code hcode i ((mem_positions hcode).2 ⟨Nat.zero_le i, hpre⟩)
  rw [hlen]
  exact ⟨['_', 'Z', 'N', '1', 'a'], ['2'], ['C', '1', 'E', 'v'], rfl, by decide,
    List.forall_mem_singleton.2 rfl, fun c hc => by cases hc; rfl, fun c hc => by cases hc; rfl, by decide, by decide⟩

/-- A number that is no `unsigned long` -/
def large : List Char := '_' :: List.replicate 20 '9' ++ ['C', '1']

theorem not_readable_large : ¬Readable large 21 := by
  intro h
  have hzero : digitsAt large 0 = [] := by decide
  have hfits : Fits large 1 := h 1 (by decide) ⟨⟨1, by decide⟩, by decide⟩ fun q hq hvisited =>
    absurd (Nat.lt_one_iff.1 hq ▸ hvisited.2) (by simp [hzero])
  exact absurd hfits.2 (by decide)

/-- A name that starts with a code, one with a code in an identifier, and one with a large number. -/
theorem not_total_nested : ¬Total ['C', '1'] ∧ ¬Total nested ∧ ¬Total large := by
  refine ⟨fun h => ?_, fun h => ?_, fun h => ?_⟩
  · exact (of_total h).1 (['C', '1'], .Constructor) List.mem_cons_self (List.prefix_refl _)
  · have hmem : (6, SpecialMemberFunctionType.Constructor) ∈ occurrences nested := by decide
    exact not_named_nested ((of_total h).2.2 allInIdentifiers_nested _ hmem)
  · have hoccurrences : occurrences large = [(21, .Constructor)] := by decide
    have hreadable := (of_total h).2.1
    rw [hoccurrences] at hreadable
    exact not_readable_large hreadable.1

end SpecialMemberFunctionType

end Phasar
