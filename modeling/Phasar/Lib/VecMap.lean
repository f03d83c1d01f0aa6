import Mathlib.Data.List.Nodup
import Mathlib.Data.List.Perm.Basic
import Mathlib.Tactic

/-!
# Vector maps

A finite map stored as a vector of key-value pairs without repeated keys: a lookup is a linear
search, an insertion overwrites the value of a present key in place and appends a new key at the
end. The keys' distinctness is a field, so a linear scan of the entries visits each key once.

* `VecMap`, `VecMap.get?`, `VecMap.set`, `VecMap.filterKeys`, `VecMap.alter`, `VecMap.tryEmplace`;
* `mem_entries_iff`: the scan and the lookup agree.
-/

/-- A vector of key-value pairs without repeated keys. -/
structure VecMap (K V : Type*) where
  entries : List (K × V)
  nodup : (entries.map Prod.fst).Nodup

namespace VecMap

variable {K V : Type*}

/-- The map without entries. -/
def empty : VecMap K V := ⟨[], List.nodup_nil⟩

instance : Inhabited (VecMap K V) := ⟨empty⟩

/-- The keys in the order of the vector. -/
def keys (m : VecMap K V) : List K := m.entries.map Prod.fst

variable [DecidableEq K]

/-- Linear search for a key. -/
def find : List (K × V) → K → Option V
  | [], _ => none
  | (k', v) :: t, k => if k' = k then some v else find t k

/-- Overwrite the value of a present key in place, append a new key at the end. -/
def put : List (K × V) → K → V → List (K × V)
  | [], k, v => [(k, v)]
  | (k', v') :: t, k, v => if k' = k then (k, v) :: t else (k', v') :: put t k v

theorem find_put (l : List (K × V)) (k k' : K) (v : V) :
    find (put l k v) k' = if k = k' then some v else find l k' := by
  induction l with
  | nil => simp [put, find]
  | cons p t ih =>
    obtain ⟨k₀, v₀⟩ := p
    by_cases h : k₀ = k
    · subst h
      by_cases h' : k₀ = k' <;> simp [put, find, h']
    · simp only [put, if_neg h, find, ih]
      by_cases h' : k₀ = k'
      · subst h'
        simp [Ne.symm h]
      · simp [h']

theorem keys_put (l : List (K × V)) (k : K) (v : V) :
    (put l k v).map Prod.fst = if k ∈ l.map Prod.fst then l.map Prod.fst
      else l.map Prod.fst ++ [k] := by
  induction l with
  | nil => simp [put]
  | cons p t ih =>
    obtain ⟨k₀, v₀⟩ := p
    by_cases h : k₀ = k
    · subst h
      simp [put]
    · simp only [put, if_neg h, List.map_cons, ih, List.mem_cons, Ne.symm h, false_or]
      split_ifs <;> simp

theorem nodup_put {l : List (K × V)} (h : (l.map Prod.fst).Nodup) (k : K) (v : V) :
    ((put l k v).map Prod.fst).Nodup := by
  rw [keys_put]
  split_ifs with hk
  · exact h
  · exact List.Nodup.append h (List.nodup_singleton k) (by simpa using hk)

theorem mem_iff_find {l : List (K × V)} (h : (l.map Prod.fst).Nodup) (k : K) (v : V) :
    (k, v) ∈ l ↔ find l k = some v := by
  induction l with
  | nil => simp [find]
  | cons p t ih =>
    obtain ⟨k₀, v₀⟩ := p
    obtain ⟨hk₀, ht⟩ := List.nodup_cons.1 h
    by_cases hk : k₀ = k
    · subst hk
      have hnot : (k₀, v) ∉ t := fun hm => hk₀ (List.mem_map.2 ⟨_, hm, rfl⟩)
      simp [find, hnot, eq_comm]
    · simp [find, hk, Ne.symm hk, ih ht]

/-- The value stored for a key. -/
def get? (m : VecMap K V) (k : K) : Option V := find m.entries k

/-- Store a value for a key. -/
def set (m : VecMap K V) (k : K) (v : V) : VecMap K V :=
  ⟨put m.entries k v, nodup_put m.nodup k v⟩

/-- Keep the entries whose key passes a test. -/
def filterKeys (p : K → Bool) (m : VecMap K V) : VecMap K V :=
  ⟨m.entries.filter (fun e => p e.1), by
    have h := m.nodup
    rw [List.nodup_map_iff_inj_on (List.Nodup.of_map _ h |>.filter _)]
    intro x hx y hy hxy
    exact List.inj_on_of_nodup_map h (List.mem_of_mem_filter hx) (List.mem_of_mem_filter hy) hxy⟩

/-- Store all entries of `m'`. -/
def insertAll (m m' : VecMap K V) : VecMap K V := m'.entries.foldl (fun m e => m.set e.1 e.2) m

/-- Replace the value of a key by a function of its current value. -/
def alter (m : VecMap K V) (k : K) (f : Option V → V) : VecMap K V := m.set k (f (m.get? k))

@[simp] theorem get?_empty (k : K) : (empty : VecMap K V).get? k = none := rfl

theorem get?_set (m : VecMap K V) (k k' : K) (v : V) :
    (m.set k v).get? k' = if k = k' then some v else m.get? k' := find_put m.entries k k' v

@[simp] theorem get?_set_self (m : VecMap K V) (k : K) (v : V) : (m.set k v).get? k = some v := by
  simp [get?_set]

theorem get?_set_ne (m : VecMap K V) {k k' : K} (h : k ≠ k') (v : V) :
    (m.set k v).get? k' = m.get? k' := by
  simp [get?_set, h]

/-- A scan of the vector meets exactly the pairs a lookup finds. -/
theorem mem_entries_iff (m : VecMap K V) (k : K) (v : V) :
    (k, v) ∈ m.entries ↔ m.get? k = some v := mem_iff_find m.nodup k v

theorem mem_keys_iff (m : VecMap K V) (k : K) : k ∈ m.keys ↔ m.get? k ≠ none := by
  rw [Option.ne_none_iff_exists']
  simp only [← mem_entries_iff, keys, List.mem_map, Prod.exists, exists_and_right, exists_eq_right]

theorem get?_filterKeys (p : K → Bool) (m : VecMap K V) (k : K) :
    (m.filterKeys p).get? k = if p k then m.get? k else none := by
  refine Option.ext fun v => ?_
  rw [← mem_entries_iff]
  by_cases h : p k
  · simp [filterKeys, h, mem_entries_iff]
  · simp [filterKeys, h]

theorem get?_foldl_set {l : List (K × V)} (h : (l.map Prod.fst).Nodup) (m : VecMap K V) (k : K) :
    (l.foldl (fun m e => m.set e.1 e.2) m).get? k = (find l k).or (m.get? k) := by
  induction l generalizing m with
  | nil => simp [find]
  | cons p t ih =>
    obtain ⟨k₀, v₀⟩ := p
    obtain ⟨hk₀, ht⟩ := List.nodup_cons.1 h
    rw [List.foldl_cons, ih ht, get?_set]
    by_cases hk : k₀ = k
    · subst hk
      have hnone : find t k₀ = none := Option.eq_none_iff_forall_ne_some.2 fun v hv =>
        hk₀ (List.mem_map.2 ⟨(k₀, v), (mem_iff_find ht k₀ v).2 hv, rfl⟩)
      simp [find, hnone]
    · simp [find, hk]

theorem get?_insertAll (m m' : VecMap K V) (k : K) :
    (m.insertAll m').get? k = (m'.get? k).or (m.get? k) :=
  get?_foldl_set m'.nodup m k

/-! ### Lookups that insert -/

/-- The value under the key, which is `make` if there was none, and the map. -/
def tryEmplace (m : VecMap K V) (k : K) (make : V) : V × VecMap K V :=
  match m.get? k with
  | some v => (v, m)
  | none => (make, m.set k make)

/-- The value that is found from then on was there, or is made. -/
theorem get?_tryEmplace (m : VecMap K V) (k : K) (make : V) :
    (m.tryEmplace k make).2.get? k = some (m.tryEmplace k make).1 ∧
      (m.get? k = some (m.tryEmplace k make).1 ∨ m.get? k = none ∧ (m.tryEmplace k make).1 = make) ∧
      ∀ k' ≠ k, (m.tryEmplace k make).2.get? k' = m.get? k' := by
  unfold tryEmplace
  cases hk : m.get? k with
  | some v => exact ⟨hk, Or.inl rfl, fun _ _ => rfl⟩
  | none => exact ⟨get?_set_self .., Or.inr ⟨rfl, rfl⟩, fun k' hne => get?_set_ne m hne.symm make⟩

theorem length_set_of_get?_eq_none {m : VecMap K V} {k : K} (h : m.get? k = none) (v : V) :
    (m.set k v).entries.length = m.entries.length + 1 := by
  have hkey : k ∉ m.entries.map Prod.fst := fun hmem => (m.mem_keys_iff k).1 hmem h
  have hlen := congrArg List.length (keys_put m.entries k v)
  rwa [if_neg hkey, List.length_map, List.length_append, List.length_map] at hlen

end VecMap
