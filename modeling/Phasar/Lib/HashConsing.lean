import Mathlib.Data.List.Nodup

/-!
# Hash consing

A table gives every value an address. It is searched for values of the same hash and with the same key. The hash
is taken of the value, not of its key: what has the same key may have different hashes, and then gets different
addresses.

* `find`, `intern`, `get`;
* `Valid`: tables that were built from some values;
* `Valid.injective_iff`: keys have one address each exactly when the values of one key have one hash.
-/

namespace HashConsing

variable {A R K H : Type*}

/-- The values of a table, with their addresses. -/
abbrev Table (A R : Type*) := List (A × R)

/-- The value at an address. -/
def get [DecidableEq A] (t : Table A R) (a : A) : Option R := (t.find? fun e => e.1 = a).map Prod.snd

section Intern

variable [DecidableEq K] [DecidableEq H] (key : R → K) (hash : R → H)

def find (t : Table A R) (r : R) : Option (A × R) := t.find? fun e => hash e.2 = hash r ∧ key e.2 = key r

/-- The address of a value; a new value gets the address `a`. -/
def intern (a : A) (r : R) (t : Table A R) : A × Table A R :=
  match find key hash t r with
  | some e => (e.1, t)
  | none => (a, (a, r) :: t)

/-- A table of the values `requests`. -/
structure Valid (t : Table A R) (requests : List R) : Prop where
  nodup : (t.map Prod.fst).Nodup
  eq_of_hash : ∀ e ∈ t, ∀ e' ∈ t, hash e.2 = hash e'.2 → key e.2 = key e'.2 → e = e'
  found : ∀ r ∈ requests, ∃ e ∈ t, hash e.2 = hash r ∧ key e.2 = key r
  requested : ∀ e ∈ t, e.2 ∈ requests

end Intern

section Get

variable [DecidableEq A] {t : Table A R} {a : A} {r : R}

theorem get_of_mem (hnodup : (t.map Prod.fst).Nodup) (h : (a, r) ∈ t) : get t a = some r := by
  cases hfind : t.find? fun e => e.1 = a with
  | none => exact absurd (decide_eq_true rfl) (List.find?_eq_none.1 hfind _ h)
  | some e =>
    have ha : e.1 = a := by simpa using List.find?_some hfind
    have he : e = (a, r) := List.inj_on_of_nodup_map hnodup (List.mem_of_find?_eq_some hfind) h ha
    rw [get, hfind, he]
    rfl

end Get

section Cases

variable [DecidableEq K] [DecidableEq H] {key : R → K} {hash : R → H} {t : Table A R} {r : R}

theorem find_eq_none_iff : find key hash t r = none ↔ ∀ e ∈ t, hash e.2 = hash r → key e.2 ≠ key r := by
  rw [find, List.find?_eq_none]
  refine forall₂_congr fun e _ => ?_
  rw [decide_eq_true_iff, not_and]

/-- A value is interned at a new address, or at that of a value with its hash and its key. -/
theorem intern_cases (key : R → K) (hash : R → H) (t : Table A R) (a : A) (r : R) :
    (∃ e ∈ t, hash e.2 = hash r ∧ key e.2 = key r ∧ intern key hash a r t = (e.1, t)) ∨
      (∀ e ∈ t, hash e.2 = hash r → key e.2 ≠ key r) ∧ intern key hash a r t = (a, (a, r) :: t) := by
  cases hfind : find key hash t r with
  | some e =>
    have hfound : hash e.2 = hash r ∧ key e.2 = key r := by simpa using List.find?_some hfind
    refine .inl ⟨e, List.mem_of_find?_eq_some hfind, hfound.1, hfound.2, ?_⟩
    rw [intern, hfind]
  | none =>
    refine .inr ⟨find_eq_none_iff.1 hfind, ?_⟩
    rw [intern, hfind]

end Cases

namespace Valid

variable {key : R → K} {hash : R → H} {t : Table A R} {requests : List R} {a : A} {r : R}

theorem nil : Valid key hash ([] : Table A R) [] :=
  ⟨.nil, fun _ h => absurd h List.not_mem_nil, fun _ h => absurd h List.not_mem_nil,
    fun _ h => absurd h List.not_mem_nil⟩

theorem injective_iff (h : Valid key hash t requests) :
    (∀ e ∈ t, ∀ e' ∈ t, key e.2 = key e'.2 → e.1 = e'.1) ↔
      ∀ r ∈ requests, ∀ r' ∈ requests, key r = key r' → hash r = hash r' := by
  constructor
  · intro hinj r hr r' hr' hkey
    obtain ⟨e, he, hhash, hkey'⟩ := h.found r hr
    obtain ⟨e', he', hhash', hkey''⟩ := h.found r' hr'
    have haddress := hinj e he e' he' (hkey'.trans (hkey.trans hkey''.symm))
    have heq : e = e' := List.inj_on_of_nodup_map h.nodup he he' haddress
    rw [← hhash, heq, hhash']
  · intro hhash e he e' he' hkey
    exact congrArg Prod.fst
      (h.eq_of_hash e he e' he' (hhash _ (h.requested e he) _ (h.requested e' he') hkey) hkey)

variable [DecidableEq K] [DecidableEq H]

theorem intern (h : Valid key hash t requests) (ha : a ∉ t.map Prod.fst) (r : R) :
    Valid key hash (intern key hash a r t).2 (r :: requests) := by
  rcases intern_cases key hash t a r with ⟨e, he, hhash, hkey, heq⟩ | ⟨hnew, heq⟩
  · rw [heq]
    refine ⟨h.nodup, h.eq_of_hash, fun r' hr' => ?_, fun e' he' => .tail r (h.requested e' he')⟩
    rcases List.mem_cons.1 hr' with rfl | hr'
    · exact ⟨e, he, hhash, hkey⟩
    · exact h.found r' hr'
  · rw [heq]
    refine ⟨List.nodup_cons.2 ⟨ha, h.nodup⟩, ?_, fun r' hr' => ?_, fun e he => ?_⟩
    · intro e he e' he' hhash hkey
      rcases List.mem_cons.1 he with rfl | he <;> rcases List.mem_cons.1 he' with rfl | he'
      · rfl
      · exact absurd hkey.symm (hnew e' he' hhash.symm)
      · exact absurd hkey (hnew e he hhash)
      · exact h.eq_of_hash e he e' he' hhash hkey
    · rcases List.mem_cons.1 hr' with rfl | hr'
      · exact ⟨(a, r'), .head t, rfl, rfl⟩
      · obtain ⟨e, he, hfound⟩ := h.found r' hr'
        exact ⟨e, .tail _ he, hfound⟩
    · rcases List.mem_cons.1 he with rfl | he
      · exact .head requests
      · exact .tail r (h.requested e he)

end Valid

end HashConsing
