import Mathlib.Algebra.Group.Nat.Defs
import Mathlib.Logic.Function.Basic
import Mathlib.Data.Int.Notation
import Mathlib.Data.List.Dedup
import Mathlib.Data.List.TakeWhile

/-!
# Ids of values

Global variables and instructions are numbered; an argument has the name of its function, a dot and its
number as its id. `fromMetaDataId` tells the two kinds of ids apart by the first dot.

* `preprocessModule`, `insertFunction`, `getMetaDataID`, `fromMetaDataId`;
* `Numbered`: each numbered value has its position as its id;
* `readBack_iff`: when the ids are read back;
* `not_readBack_dotted`: a function with a dotted suffix.
-/

namespace Phasar.LLVMProjectIRDB

inductive Value (G I F : Type*)
  | global (g : G)
  | inst (i : I)
  | arg (f : F) (argNo : ℕ)
  deriving DecidableEq

/-- A module. The names of the functions that have one are different. -/
structure Module (G I F : Type*) where
  globals : List G
  functions : List F
  instructions : F → List I
  name : F → List Char
  argSize : F → ℕ
  nodup_globals : globals.Nodup
  nodup_instructions : ∀ f, (instructions f).Nodup
  parent_unique : ∀ {f g i}, i ∈ instructions f → i ∈ instructions g → f = g
  name_unique : ∀ {f g}, f ∈ functions → g ∈ functions → name f ≠ [] → name f = name g → f = g

/-- The tables of the database, with the metadata of the values. -/
structure IRDB (G I F : Type*) where
  idToInst : List (Value G I F)
  instToId : Value G I F → Option ℕ
  metadata : Value G I F → Option (List Char)

section Model

variable {G I F : Type*} [DecidableEq G] [DecidableEq I] [DecidableEq F]

/-- `Module::getFunction`. Functions without a name are not in the symbol table. -/
def getFunction (M : Module G I F) (name : List Char) : Option F :=
  if name = [] then none else M.functions.find? (M.name · = name)

def empty : IRDB G I F := ⟨[], fun _ => none, fun _ => none⟩

/-- One round of the loops of `preprocessModule`. -/
def number (s : IRDB G I F × ℕ) (v : Value G I F) : IRDB G I F × ℕ :=
  (⟨s.1.idToInst ++ [v],
    if (s.1.instToId v).isSome then s.1.instToId else Function.update s.1.instToId v (some s.2),
    Function.update s.1.metadata v (some (Nat.toDigits 10 s.2))⟩, s.2 + 1)

/-- `preprocessModule`, for the functions that the module has then. -/
def preprocessModule (M : Module G I F) (functions : List F) : IRDB G I F :=
  (functions.foldl (fun s f => (M.instructions f).foldl (fun s i => number s (.inst i)) s)
    (M.globals.foldl (fun s g => number s (.global g)) (empty, 0))).1

/-- One round of the loop of `insertFunction`. -/
def insertInst (doPreprocessing : Bool) (s : IRDB G I F × ℕ) (i : I) : IRDB G I F × ℕ :=
  if (s.1.instToId (.inst i)).isSome then s
  else
    (⟨s.1.idToInst ++ [.inst i], Function.update s.1.instToId (.inst i) (some s.2),
      if doPreprocessing then Function.update s.1.metadata (.inst i) (some (Nat.toDigits 10 s.2))
      else s.1.metadata⟩, s.2 + 1)

def insertFunction (M : Module G I F) (doPreprocessing : Bool) (db : IRDB G I F) (f : F) : IRDB G I F :=
  ((M.instructions f).foldl (insertInst doPreprocessing) (db, db.idToInst.length)).1

/-- A preprocessed module after some calls of `insertFunction`. -/
def run (M : Module G I F) (functions inserted : List F) : IRDB G I F :=
  inserted.foldl (insertFunction M true) (preprocessModule M functions)

/-- `std::to_string`. -/
def toChars : ℤ → List Char
  | .ofNat n => Nat.toDigits 10 n
  | .negSucc n => '-' :: Nat.toDigits 10 (n + 1)

/-- `getFunctionArgumentNr`, an `int`. -/
def getFunctionArgumentNr (argNo : ℕ) : ℤ := (BitVec.ofNat 32 argNo).toInt

def getMetaDataID (M : Module G I F) (db : IRDB G I F) : Value G I F → List Char
  | .arg f argNo => M.name f ++ '.' :: toChars (getFunctionArgumentNr argNo)
  | v => (db.metadata v).getD ['-', '1']

/-- `std::from_chars` for an `unsigned`: the digits in front. -/
def parseInt (str : List Char) : Option ℕ :=
  if str.takeWhile Char.isDigit = [] then none
  else if Nat.ofDigitChars 10 (str.takeWhile Char.isDigit) 0 < 2 ^ 32 then
    some (Nat.ofDigitChars 10 (str.takeWhile Char.isDigit) 0)
  else none

def getNthFunctionArgument (M : Module G I F) (f : F) (argNo : ℕ) : Option (Value G I F) :=
  if argNo ≥ M.argSize f then none else some (.arg f argNo)

def fromMetaDataId (M : Module G I F) (db : IRDB G I F) (id : List Char) : Option (Value G I F) :=
  if id = [] ∨ id.head? = some '-' then none
  else if '.' ∈ id then
    -- split at the first dot
    match parseInt ((id.dropWhile (· ≠ '.')).drop 1) with
    | none => none
    | some argNr =>
      match getFunction M (id.takeWhile (· ≠ '.')) with
      | none => none
      | some f => getNthFunctionArgument M f argNr
  else (parseInt id).bind (db.idToInst[·]?)

end Model

/-! ### Numbers as strings -/

section Digits

theorem isDigit_of_mem_toDigits {n : ℕ} {c : Char} (hc : c ∈ Nat.toDigits 10 n) : c.isDigit :=
  Nat.isDigit_of_mem_toDigits (by decide) (by decide) hc

theorem not_mem_toDigits {n : ℕ} {c : Char} (hc : c.isDigit = false) : c ∉ Nat.toDigits 10 n := by
  intro hmem
  rw [isDigit_of_mem_toDigits hmem] at hc
  cases hc

theorem parseInt_toDigits (n : ℕ) : parseInt (Nat.toDigits 10 n) = if n < 2 ^ 32 then some n else none := by
  have htake : (Nat.toDigits 10 n).takeWhile Char.isDigit = Nat.toDigits 10 n :=
    List.takeWhile_eq_self_iff.mpr fun c hc => isDigit_of_mem_toDigits hc
  rw [parseInt, htake, if_neg Nat.toDigits_ne_nil, Nat.ofDigitChars_ten_toDigits]

theorem toDigits_head {n : ℕ} : (Nat.toDigits 10 n).head? ≠ some '-' := fun h =>
  not_mem_toDigits (by decide) (List.mem_of_mem_head? h)

/-- A number of an argument is read back if it is not negative as an `int`. -/
theorem parseInt_toChars_iff (n : ℕ) : parseInt (toChars (getFunctionArgumentNr n)) = some n ↔ n < 2 ^ 31 := by
  rw [getFunctionArgumentNr, BitVec.toInt_eq_toNat_cond, BitVec.toNat_ofNat]
  split_ifs with hlt
  · have hchars : toChars ((n % 2 ^ 32 : ℕ) : ℤ) = Nat.toDigits 10 (n % 2 ^ 32) := rfl
    rw [hchars, parseInt_toDigits, if_pos (Nat.mod_lt _ (by simp)), Option.some_inj]
    omega
  · obtain ⟨k, hk⟩ : ∃ k, ((n % 2 ^ 32 : ℕ) : ℤ) - ((2 ^ 32 : ℕ) : ℤ) = .negSucc k := by
      refine ⟨2 ^ 32 - n % 2 ^ 32 - 1, ?_⟩
      have hmod := Nat.mod_lt n (show 0 < 2 ^ 32 by simp)
      omega
    rw [hk]
    have hnone : parseInt (toChars (.negSucc k)) = none := by
      rw [toChars, parseInt, List.takeWhile_cons_of_neg (by decide), if_pos rfl]
    rw [hnone]
    constructor
    · intro h
      cases h
    · intro h
      omega

end Digits

/-! ### Numbered values -/

section Numbering

variable {G I F : Type*} [DecidableEq G] [DecidableEq I] [DecidableEq F] {M : Module G I F}

/-- Each numbered value has its position as its id. -/
structure Numbered (db : IRDB G I F) : Prop where
  nodup : db.idToInst.Nodup
  instToId : ∀ v k, db.instToId v = some k ↔ db.idToInst[k]? = some v
  metadata : ∀ v, db.metadata v = (db.instToId v).map (Nat.toDigits 10)

omit [DecidableEq G] [DecidableEq I] [DecidableEq F] in
theorem Numbered.isSome_iff {db : IRDB G I F} (h : Numbered db) (v : Value G I F) :
    (db.instToId v).isSome ↔ v ∈ db.idToInst := by
  rw [Option.isSome_iff_exists, List.mem_iff_getElem?]
  exact exists_congr fun k => h.instToId v k

/-- A value with the next id. -/
def IRDB.push (db : IRDB G I F) (v : Value G I F) : IRDB G I F :=
  ⟨db.idToInst ++ [v], Function.update db.instToId v (some db.idToInst.length),
    Function.update db.metadata v (some (Nat.toDigits 10 db.idToInst.length))⟩

theorem Numbered.push {db : IRDB G I F} (h : Numbered db) {v : Value G I F} (hv : v ∉ db.idToInst) :
    Numbered (db.push v) := by
  refine ⟨?_, fun w k => ?_, fun w => ?_⟩
  · have hconcat := List.Nodup.concat hv h.nodup
    rwa [List.concat_eq_append] at hconcat
  · rw [IRDB.push]
    dsimp only
    rw [Function.update_apply, List.getElem?_append]
    split_ifs with hw hk hk
    · subst hw
      constructor
      · intro heq
        cases heq
        exact absurd hk (lt_irrefl _)
      · intro hget
        exact absurd (List.mem_of_getElem? hget) hv
    · subst hw
      rw [Option.some_inj, List.getElem?_singleton]
      split_ifs with h0
      · simp only [iff_true]
        omega
      · simp only [iff_false]
        omega
    · exact h.instToId w k
    · rw [h.instToId, List.getElem?_eq_none (not_lt.mp hk), List.getElem?_singleton]
      split_ifs
      · simpa using fun heq : v = w => hw heq.symm
      · rfl
  · rw [IRDB.push]
    dsimp only
    rw [Function.update_apply, Function.update_apply]
    split_ifs
    · rfl
    · exact h.metadata w

theorem number_eq {db : IRDB G I F} (h : Numbered db) {v : Value G I F} (hv : v ∉ db.idToInst) :
    number (db, db.idToInst.length) v = (db.push v, (db.push v).idToInst.length) := by
  have hnone : ¬(db.instToId v).isSome := fun hsome => hv ((h.isSome_iff v).mp hsome)
  rw [number, if_neg hnone, IRDB.push]
  simp

theorem insertInst_eq {db : IRDB G I F} (h : Numbered db) {i : I} (hi : Value.inst i ∉ db.idToInst) :
    insertInst true (db, db.idToInst.length) i =
      (db.push (.inst i), (db.push (.inst i)).idToInst.length) := by
  have hnone : ¬(db.instToId (.inst i)).isSome := fun hsome => hi ((h.isSome_iff _).mp hsome)
  rw [insertInst, if_neg hnone, if_pos rfl, IRDB.push]
  simp

theorem foldl_number {vs : List (Value G I F)} : ∀ {db : IRDB G I F}, Numbered db → vs.Nodup →
    (∀ v ∈ vs, v ∉ db.idToInst) → ∃ db', vs.foldl number (db, db.idToInst.length) =
      (db', db'.idToInst.length) ∧ Numbered db' ∧ db'.idToInst = db.idToInst ++ vs := by
  induction vs with
  | nil =>
    intro db h _ _
    exact ⟨db, rfl, h, by simp⟩
  | cons v vs ih =>
    intro db h hnodup hnew
    obtain ⟨hv, hvs⟩ := List.forall_mem_cons.mp hnew
    obtain ⟨hvvs, hnodup⟩ := List.nodup_cons.mp hnodup
    obtain ⟨db', hfold, hnum, hids⟩ := ih (h.push hv) hnodup fun w hw hmem => by
      obtain hmem | hmem := List.mem_append.mp hmem
      · exact hvs w hw hmem
      · exact hvvs (List.mem_singleton.mp hmem ▸ hw)
    refine ⟨db', ?_, hnum, ?_⟩
    · rw [List.foldl_cons, number_eq h hv, hfold]
    · rw [hids, IRDB.push, List.append_assoc, List.singleton_append]

/-- The values that are numbered. -/
def numbered (M : Module G I F) (functions : List F) : List (Value G I F) :=
  M.globals.map .global ++ functions.flatMap fun f => (M.instructions f).map .inst

omit [DecidableEq G] [DecidableEq I] [DecidableEq F] in
theorem nodup_numbered {functions : List F} (hnodup : functions.Nodup) : (numbered M functions).Nodup := by
  refine List.Nodup.append (M.nodup_globals.map fun _ _ h => Value.global.inj h) ?_ ?_
  · rw [List.nodup_flatMap]
    refine ⟨fun f _ => (M.nodup_instructions f).map fun _ _ h => Value.inst.inj h, ?_⟩
    refine hnodup.imp fun {f g} hne => ?_
    intro v hf hg
    obtain ⟨i, hi, rfl⟩ := List.mem_map.mp hf
    obtain ⟨j, hj, hij⟩ := List.mem_map.mp hg
    cases hij
    exact hne (M.parent_unique hi hj)
  · intro v hglobal hinst
    obtain ⟨g, -, rfl⟩ := List.mem_map.mp hglobal
    obtain ⟨f, -, hmem⟩ := List.mem_flatMap.mp hinst
    obtain ⟨i, -, hi⟩ := List.mem_map.mp hmem
    cases hi

theorem numbered_preprocessModule {functions : List F} (hnodup : functions.Nodup) :
    Numbered (preprocessModule M functions) ∧
      (preprocessModule M functions).idToInst = numbered M functions := by
  have hempty : Numbered (empty : IRDB G I F) := ⟨List.nodup_nil, by simp [empty], by simp [empty]⟩
  obtain ⟨db, hfold, hnum, hids⟩ := foldl_number hempty (nodup_numbered (M := M) hnodup) (by simp [empty])
  have hrun : preprocessModule M functions =
      ((numbered M functions).foldl number (empty, (empty : IRDB G I F).idToInst.length)).1 := by
    rw [preprocessModule, numbered, List.foldl_append, List.foldl_map, List.foldl_flatMap]
    simp only [List.foldl_map]
    rfl
  rw [hrun, hfold]
  exact ⟨hnum, hids.trans (List.nil_append _)⟩

theorem foldl_insertInst (is : List I) : ∀ {db : IRDB G I F}, Numbered db →
    ∃ db', is.foldl (insertInst true) (db, db.idToInst.length) = (db', db'.idToInst.length) ∧
      Numbered db' ∧ ∀ v, v ∈ db'.idToInst ↔ v ∈ db.idToInst ∨ ∃ i ∈ is, v = .inst i := by
  induction is with
  | nil =>
    intro db h
    exact ⟨db, rfl, h, by simp⟩
  | cons i is ih =>
    intro db h
    by_cases hi : Value.inst i ∈ db.idToInst
    · obtain ⟨db', hfold, hnum, hmem⟩ := ih h
      refine ⟨db', ?_, hnum, fun v => ?_⟩
      · rw [List.foldl_cons, insertInst, if_pos ((h.isSome_iff _).mpr hi), hfold]
      · rw [hmem]
        simp only [List.mem_cons, exists_eq_or_imp]
        constructor
        · tauto
        · rintro (hv | rfl | hv)
          · exact .inl hv
          · exact .inl hi
          · exact .inr hv
    · obtain ⟨db', hfold, hnum, hmem⟩ := ih (h.push hi)
      refine ⟨db', ?_, hnum, fun v => ?_⟩
      · rw [List.foldl_cons, insertInst_eq h hi, hfold]
      · rw [hmem, IRDB.push]
        simp only [List.mem_append, List.mem_cons, List.not_mem_nil, or_false, exists_eq_or_imp, or_assoc]

theorem insertFunction_spec {db : IRDB G I F} (h : Numbered db) (f : F) :
    Numbered (insertFunction M true db f) ∧ ∀ v, v ∈ (insertFunction M true db f).idToInst ↔
      v ∈ db.idToInst ∨ ∃ i ∈ M.instructions f, v = .inst i := by
  obtain ⟨db', hfold, hnum, hmem⟩ := foldl_insertInst (M.instructions f) h
  rw [insertFunction, hfold]
  exact ⟨hnum, hmem⟩

/-- A run numbers each global variable and each instruction of its functions once. -/
theorem run_spec {functions : List F} (hnodup : functions.Nodup) (inserted : List F) :
    Numbered (run M functions inserted) ∧
      (run M functions inserted).idToInst.Perm (numbered M (functions ++ inserted).dedup) := by
  have hfold : ∀ (fs : List F) (db : IRDB G I F), Numbered db →
      Numbered (fs.foldl (insertFunction M true) db) ∧
      ∀ v, v ∈ (fs.foldl (insertFunction M true) db).idToInst ↔
        v ∈ db.idToInst ∨ ∃ f ∈ fs, ∃ i ∈ M.instructions f, v = .inst i := by
    intro fs
    induction fs with
    | nil => exact fun db h => ⟨h, by simp⟩
    | cons f fs ih =>
      intro db h
      obtain ⟨hnum, hmem⟩ := insertFunction_spec (M := M) h f
      obtain ⟨hnum', hmem'⟩ := ih _ hnum
      refine ⟨hnum', fun v => ?_⟩
      rw [List.foldl_cons, hmem', hmem, or_assoc]
      simp only [List.mem_cons, exists_eq_or_imp]
  obtain ⟨hnum, hids⟩ := numbered_preprocessModule (M := M) hnodup
  obtain ⟨hnum', hmem⟩ := hfold inserted _ hnum
  refine ⟨hnum', (List.perm_ext_iff_of_nodup hnum'.nodup (nodup_numbered (List.nodup_dedup _))).mpr fun v => ?_⟩
  rw [hmem, hids]
  simp only [numbered, List.mem_append, List.mem_map, List.mem_flatMap, List.mem_dedup, or_and_right,
    exists_or, or_assoc, eq_comm]

end Numbering

/-! ### Reading back -/

section ReadBack

variable {G I F : Type*} [DecidableEq G] [DecidableEq I] [DecidableEq F] {M : Module G I F}
  {db : IRDB G I F}

omit [DecidableEq G] [DecidableEq I] [DecidableEq F] in
theorem getFunction_eq_some_iff {name : List Char} {f : F} (hf : f ∈ M.functions) :
    getFunction M name = some f ↔ name ≠ [] ∧ M.name f = name := by
  rw [getFunction]
  split_ifs with hname
  · simp [hname]
  · constructor
    · intro hfind
      exact ⟨hname, by simpa using List.find?_some hfind⟩
    · rintro ⟨-, rfl⟩
      obtain ⟨g, hg⟩ := Option.isSome_iff_exists.mp
        (List.find?_isSome.mpr ⟨f, hf, by simp⟩ : (M.functions.find? (M.name · = M.name f)).isSome)
      have hgf : M.name g = M.name f := by simpa using List.find?_some hg
      rw [hg, M.name_unique hf (List.mem_of_find?_eq_some hg) hname hgf.symm]

omit [DecidableEq G] [DecidableEq I] [DecidableEq F] in
/-- A numbered value is read back if its id fits into an `unsigned`. -/
theorem fromMetaDataId_toDigits (k : ℕ) : fromMetaDataId M db (Nat.toDigits 10 k) =
    if k < 2 ^ 32 then db.idToInst[k]? else none := by
  rw [fromMetaDataId, if_neg (not_or.mpr ⟨Nat.toDigits_ne_nil, toDigits_head⟩),
    if_neg (not_mem_toDigits (by decide)), parseInt_toDigits]
  split_ifs <;> rfl

omit [DecidableEq G] [DecidableEq I] [DecidableEq F] in
/-- An argument is read back if the first dot of its id is the one behind the name of its function, and
the id does not look like a negative number. -/
theorem fromMetaDataId_arg_iff {f : F} (hf : f ∈ M.functions) {n : ℕ} (hn : n < M.argSize f) :
    fromMetaDataId M db (getMetaDataID M db (.arg f n)) = some (.arg f n) ↔
      M.name f ≠ [] ∧ (M.name f).head? ≠ some '-' ∧ '.' ∉ M.name f ∧ n < 2 ^ 31 := by
  rw [getMetaDataID, fromMetaDataId, if_pos (List.mem_append_right _ List.mem_cons_self)]
  generalize hnum : toChars (getFunctionArgumentNr n) = num
  by_cases hdot : '.' ∈ M.name f
  · -- the name up to its first dot is not the name of `f`
    simp only [hdot, not_true_eq_false, false_and, and_false, iff_false]
    intro h
    split_ifs at h
    split at h
    · cases h
    · split at h
      · cases h
      · rename_i g hg
        rw [getNthFunctionArgument] at h
        split_ifs at h
        obtain rfl : g = f := (Value.arg.inj (Option.some_inj.mp h)).1
        rw [((getFunction_eq_some_iff hf).mp hg).2] at hdot
        simpa using List.mem_takeWhile_imp hdot
  · have hall : ∀ c ∈ M.name f, decide (c ≠ '.') = true := by
      intro c hc
      simp only [decide_eq_true_eq]
      rintro rfl
      exact hdot hc
    have htake : (M.name f ++ '.' :: num).takeWhile (· ≠ '.') = M.name f := by
      rw [List.takeWhile_append_of_pos hall, List.takeWhile_cons_of_neg (by simp), List.append_nil]
    have hdrop : ((M.name f ++ '.' :: num).dropWhile (· ≠ '.')).drop 1 = num := by
      rw [List.dropWhile_append_of_pos hall, List.dropWhile_cons_of_neg (by simp)]
      rfl
    rw [htake, hdrop]
    cases hname : M.name f with
    | nil =>
      rw [getFunction, if_pos rfl]
      split_ifs
      · simp
      · cases parseInt num <;> simp
    | cons c cs =>
      by_cases hc : c = '-'
      · simp [hc]
      · have hfun : getFunction M (c :: cs) = some f := (getFunction_eq_some_iff hf).mpr ⟨by simp, hname⟩
        rw [if_neg (by simp [hc]), hfun, ← parseInt_toChars_iff, hnum]
        cases hparse : parseInt num with
        | none => simp
        | some m =>
          dsimp only
          rw [getNthFunctionArgument]
          constructor
          · intro h
            split_ifs at h
            obtain rfl : m = n := (Value.arg.inj (Option.some_inj.mp h)).2
            exact ⟨by simp, by simpa using hc, hname ▸ hdot, rfl⟩
          · rintro ⟨-, -, -, h⟩
            obtain rfl := Option.some_inj.mp h
            rw [if_neg (not_le.mpr hn)]

/-- The instructions, global variables and arguments of a module whose functions are preprocessed or inserted. -/
def IsValue (M : Module G I F) (fs : List F) : Value G I F → Prop
  | .arg f n => f ∈ M.functions ∧ n < M.argSize f
  | v => v ∈ numbered M fs.dedup

/-- The values have different ids, and are read back from them. -/
structure ReadBack (M : Module G I F) (functions inserted : List F) : Prop where
  injective : ∀ v w, IsValue M (functions ++ inserted) v → IsValue M (functions ++ inserted) w →
    getMetaDataID M (run M functions inserted) v = getMetaDataID M (run M functions inserted) w → v = w
  fromMetaDataId : ∀ v, IsValue M (functions ++ inserted) v → fromMetaDataId M (run M functions inserted)
    (getMetaDataID M (run M functions inserted) v) = some v

/-- Names that are told apart from numbers, and numbers that fit. -/
structure Readable (M : Module G I F) (functions inserted : List F) : Prop where
  size : (numbered M (functions ++ inserted).dedup).length ≤ 2 ^ 32
  name : ∀ f ∈ M.functions, 0 < M.argSize f →
    M.name f ≠ [] ∧ (M.name f).head? ≠ some '-' ∧ '.' ∉ M.name f ∧ M.argSize f ≤ 2 ^ 31

omit [DecidableEq G] [DecidableEq I] [DecidableEq F] in
theorem getMetaDataID_numbered (hnum : Numbered db) {v : Value G I F} {k : ℕ}
    (hv : db.idToInst[k]? = some v) (harg : ∀ f n, v ≠ .arg f n) :
    getMetaDataID M db v = Nat.toDigits 10 k := by
  have hmeta : db.metadata v = some (Nat.toDigits 10 k) := by
    rw [hnum.metadata, (hnum.instToId v k).mpr hv, Option.map_some]
  cases v with
  | arg f n => exact absurd rfl (harg f n)
  | global g => rw [getMetaDataID, hmeta, Option.getD_some]; simp
  | inst i => rw [getMetaDataID, hmeta, Option.getD_some]; simp

omit [DecidableEq G] [DecidableEq I] [DecidableEq F] in
theorem ne_arg_of_mem_numbered {fs : List F} {v : Value G I F} (hv : v ∈ numbered M fs) (f : F) (n : ℕ) :
    v ≠ .arg f n := by
  rintro rfl
  simp [numbered] at hv

omit [DecidableEq G] [DecidableEq I] in
theorem isValue_of_mem_numbered {fs : List F} {v : Value G I F} (hv : v ∈ numbered M fs.dedup) :
    IsValue M fs v := by
  cases v with
  | arg f n => exact absurd rfl (ne_arg_of_mem_numbered hv f n)
  | global g => exact hv
  | inst i => exact hv

/-- The ids of a preprocessed module are different and are read back if and only if the functions with
arguments have names without dots that do not start with a dash, and the numbers fit. -/
theorem readBack_iff {functions : List F} (hnodup : functions.Nodup) (inserted : List F) :
    ReadBack M functions inserted ↔ Readable M functions inserted := by
  obtain ⟨hnum, hperm⟩ := run_spec (M := M) hnodup inserted
  have hnumbered : ∀ v k, (run M functions inserted).idToInst[k]? = some v →
      v ∈ numbered M (functions ++ inserted).dedup := fun v k hv =>
    hperm.mem_iff.mp (List.mem_of_getElem? hv)
  constructor
  · rintro ⟨-, hread⟩
    refine ⟨?_, fun f hf hpos => ?_⟩
    · by_contra hsize
      rw [← hperm.length_eq, not_le] at hsize
      have hv := List.getElem?_eq_getElem hsize
      have hmem := hnumbered _ _ hv
      have h := hread _ (isValue_of_mem_numbered hmem)
      rw [getMetaDataID_numbered hnum hv (ne_arg_of_mem_numbered hmem), fromMetaDataId_toDigits,
        if_neg (lt_irrefl _)] at h
      cases h
    · have hlast := (fromMetaDataId_arg_iff hf (Nat.sub_one_lt_of_lt hpos)).mp
        (hread (.arg f (M.argSize f - 1)) ⟨hf, Nat.sub_one_lt_of_lt hpos⟩)
      exact ⟨hlast.1, hlast.2.1, hlast.2.2.1, by omega⟩
  · intro hr
    have hread : ∀ v, IsValue M (functions ++ inserted) v → fromMetaDataId M (run M functions inserted)
        (getMetaDataID M (run M functions inserted) v) = some v := by
      have hmem : ∀ v ∈ numbered M (functions ++ inserted).dedup, fromMetaDataId M
          (run M functions inserted) (getMetaDataID M (run M functions inserted) v) = some v := by
        intro v hv
        obtain ⟨k, hk⟩ := List.mem_iff_getElem?.mp (hperm.mem_iff.mpr hv)
        have hlt := (List.getElem?_eq_some_iff.mp hk).1
        rw [hperm.length_eq] at hlt
        rw [getMetaDataID_numbered hnum hk (ne_arg_of_mem_numbered hv), fromMetaDataId_toDigits,
          if_pos (hlt.trans_le hr.size), hk]
      intro v hv
      cases v with
      | global g => exact hmem _ hv
      | inst i => exact hmem _ hv
      | arg f n =>
        obtain ⟨hf, hn⟩ := hv
        obtain ⟨h1, h2, h3, h4⟩ := hr.name f hf (Nat.zero_lt_of_lt hn)
        exact (fromMetaDataId_arg_iff hf hn).mpr ⟨h1, h2, h3, hn.trans_le h4⟩
    refine ⟨fun v w hv hw heq => ?_, hread⟩
    have hvw := hread v hv
    rw [heq, hread w hw] at hvw
    exact (Option.some_inj.mp hvw).symm

end ReadBack

/-! ### Examples -/

/-- Two functions with one argument each. -/
def twoFunctions (name : Bool → List Char) (h : name true ≠ name false) : Module Unit ℕ Bool where
  globals := [()]
  functions := [true, false]
  instructions f := if f then [0] else [1]
  name := name
  argSize _ := 1
  nodup_globals := by simp
  nodup_instructions f := by cases f <;> simp
  parent_unique := by
    intro f g i hf hg
    cases f <;> cases g <;> simp_all
  name_unique := by
    intro f g _ _ _ hname
    cases f <;> cases g <;> first | rfl | exact absurd hname h | exact absurd hname.symm h

/-- The functions `foo` and `bar`. -/
theorem readBack_plain : ReadBack (twoFunctions (fun f => if f then ['f', 'o', 'o'] else ['b', 'a', 'r'])
      (by decide)) [true] [false] ↔
    Readable (twoFunctions (fun f => if f then ['f', 'o', 'o'] else ['b', 'a', 'r']) (by decide))
      [true] [false] :=
  readBack_iff (by decide) _

/-- The argument of `foo.1` has the id `foo.1.0`, which is not read back. -/
theorem not_readBack_dotted :
    ¬ReadBack (twoFunctions (fun f => if f then ['f', 'o', 'o'] else ['f', 'o', 'o', '.', '1']) (by decide))
      [true, false] [] := by
  intro h
  exact absurd (h.fromMetaDataId (.arg false 0) ⟨by decide, by decide⟩) (by decide)

end Phasar.LLVMProjectIRDB
