import Phasar.Lib.Coarsening
import Phasar.Pointer.LLVMAliasSetPartition

/-!
# Merging two alias analyses

`mergeWith` goes through the entries of the other map in any order. The set of an entry is inserted into
the set of the first of its elements that is known, and the elements without entry get one; if none is
known the set is copied, for this entry.

* `mergeEntry`, `mergeWith`: the code;
* `Merging`: what holds after some of the entries;
* `mergesClasses_iff`: the sets are the common coarsening if and only if no set of the other analysis
  meets two sets.
-/

namespace Phasar.LLVMAliasSet

section Merge

variable {V F : Type} [DecidableEq V] [DecidableEq F]

/-- An insertion into `AliasSets`, which keeps an entry that is there. -/
def tryEmplace (aliasSets : V → Option ℕ) (v : V) (pts : ℕ) : V → Option ℕ :=
  if (aliasSets v).isSome then aliasSets else Function.update aliasSets v (some pts)

/-- The set is inserted into the set in a box, and its elements are indexed. -/
def insertSet (s : AliasSet V) (pts : ℕ) (set : List V) : Except Error (AliasSet V) := do
  let a ← s.get pts
  let old ← s.read a
  return { s with
    sets := Function.update s.sets a (set.foldl insertElem old)
    aliasSets := set.foldl (tryEmplace · · pts) s.aliasSets }

/-- The set is copied for a key. -/
def copySet (A : Allocator V) (s : AliasSet V) (key : V) (set : List V) : AliasSet V :=
  { (s.acquire A).1 with
    sets := Function.update (s.acquire A).1.sets (A.address s) set
    aliasSets := tryEmplace (s.acquire A).1.aliasSets key (s.acquire A).2 }

/-- The body of the loop over the entries of the other map. -/
def mergeEntry (A : Allocator V) (s : AliasSet V) (key : V) (set : List V) : Except Error (AliasSet V) :=
  match set.findSome? s.aliasSets with
  -- the first element that is known decides; the others may be in other sets
  | some pts => insertSet s pts set
  | none => .ok (copySet A s key set)

def mergeKey (A : Allocator V) (other : AliasSet V) (s : AliasSet V) (key : V) : Except Error (AliasSet V) := do
  let pts ← lookup other key
  let a ← other.get pts
  let set ← other.read a
  mergeEntry A s key set

/-- `mergeWith`, when the other map is iterated in an order. -/
def mergeWith (A : Allocator V) (st other : State V F) (order : List V) : Except Error (State V F) := do
  let s ← order.foldlM (mergeKey A other.store) st.store
  return ⟨s, other.analyzedFunctions.foldl insertElem st.analyzedFunctions⟩

/-! ### Entries -/

variable {A : Allocator V} {s s' B : AliasSet V} {set : List V} {key v w : V} {pts a c : ℕ}

theorem tryEmplace_apply (m : V → Option ℕ) : tryEmplace m w pts v =
    if (m v).isSome then m v else if v = w then some pts else none := by
  rw [tryEmplace]
  split_ifs with hw hv hvw hv hvw
  · rfl
  · subst hvw
    exact absurd hw hv
  · exact Option.not_isSome_iff_eq_none.1 hv
  · rw [Function.update_of_ne]
    rintro rfl
    exact hw hv
  · rw [hvw, Function.update_self]
  · rw [Function.update_of_ne hvw, Option.not_isSome_iff_eq_none.1 hv]

theorem foldl_tryEmplace (set : List V) (m : V → Option ℕ) : set.foldl (tryEmplace · · pts) m v =
    if (m v).isSome then m v else if v ∈ set then some pts else none := by
  induction set generalizing m with
  | nil =>
    rw [List.foldl_nil, if_neg List.not_mem_nil]
    split_ifs with hv
    · rfl
    · exact Option.not_isSome_iff_eq_none.1 hv
  | cons w set ih =>
    rw [List.foldl_cons, ih, tryEmplace_apply]
    cases hv : m v with
    | some b => rfl
    | none => by_cases hvw : v = w <;> simp [hvw]

/-- An entry keeps its set. -/
theorem setOf_mergeEntry (h : mergeEntry A s key set = .ok s') (hv : s.setOf v = some c) :
    s'.setOf v = some c := by
  obtain ⟨b, hb, hc⟩ := setOf_eq_some_iff.1 hv
  rw [mergeEntry] at h
  cases hfind : set.findSome? s.aliasSets with
  | some pts =>
    rw [hfind] at h
    simp only [insertSet] at h
    cases hget : s.get pts with
    | error e =>
      rw [hget] at h
      cases h
    | ok a =>
      rw [hget] at h
      cases hread : s.read a with
      | error e =>
        simp only [bind, Except.bind, hread] at h
        cases h
      | ok old =>
        simp only [bind, Except.bind, hread] at h
        cases h
        refine setOf_eq_some_iff.2 ⟨b, ?_, hc⟩
        show set.foldl (tryEmplace · · pts) s.aliasSets v = some b
        rw [foldl_tryEmplace, hb]
        rfl
  | none =>
    rw [hfind] at h
    cases h
    refine setOf_eq_some_iff.2 ⟨b, ?_, ?_⟩
    · show tryEmplace s.aliasSets key s.allPTS.length v = some b
      rw [tryEmplace_apply, hb]
      rfl
    · show (s.allPTS ++ [A.address s])[b]? = some c
      rw [List.getElem?_append_left (List.getElem?_eq_some_iff.1 hc).1, hc]

/-! ### The invariant -/

/-- What is connected by classes of both. -/
abbrev Connected (A₀ B : AliasSet V) : V → V → Prop := Coarsening (SameSet A₀) (SameSet B)

/-- After some entries of `B`: the sets of connected entries are the same, and the elements of a set are
connected with its entries. -/
structure Merging (A₀ B : AliasSet V) (done : List V) (s : AliasSet V) : Prop where
  box : ∀ v b, s.aliasSets v = some b → b < s.allPTS.length
  owned : ∀ v a, s.setOf v = some a → a ∈ s.ownedPTS
  nodup : s.ownedPTS.Nodup
  nonempty : ∀ a ∈ s.ownedPTS, ∃ v, s.setOf v = some a
  mem : ∀ v a, s.setOf v = some a → v ∈ s.sets a
  connected : ∀ v a, s.setOf v = some a → ∀ w ∈ s.sets a, Connected A₀ B v w
  same : ∀ v w a c, s.setOf v = some a → s.setOf w = some c → (a = c ↔ Connected A₀ B v w)
  isSome : ∀ v, (A₀.setOf v).isSome ∨ v ∈ done → (s.setOf v).isSome

variable {A₀ : AliasSet V} {done : List V} {x : V}

omit [DecidableEq V] in
theorem Connected.symm (h : Connected A₀ B v w) : Connected A₀ B w v :=
  Coarsening.symm (fun h => SameSet.symm h) (fun h => SameSet.symm h) h

omit [DecidableEq V] in
theorem merging_nil (hA : Partition A₀)
    (hmeet : ∀ x y, SameSet B x y → SameSet A₀ x x → SameSet A₀ y y → SameSet A₀ x y) :
    Merging A₀ B [] A₀ := by
  have hself : ∀ v a, A₀.setOf v = some a → SameSet A₀ v v := fun v a hv => ⟨a, hv, hv⟩
  refine ⟨hA.box, hA.owned, hA.nodup, fun a ha => ?_, fun v a hv => (hA.mem_iff a (hA.owned v a hv) v).2 hv,
    fun v a hv w hw => .left ⟨a, hv, (hA.mem_iff a (hA.owned v a hv) w).1 hw⟩,
    fun v w a c hv hw => ⟨?_, fun h => ?_⟩, fun v hv => hv.resolve_right List.not_mem_nil⟩
  · obtain ⟨v, hv⟩ := List.exists_mem_of_ne_nil _ (hA.nonempty a ha)
    exact ⟨v, (hA.mem_iff a ha v).1 hv⟩
  · rintro rfl
    exact .left ⟨a, hv, hw⟩
  · have hsame : SameSet A₀ v w := Coarsening.of_left (S := SameSet B) (fun h => SameSet.symm h)
      (fun h h' => SameSet.trans h h') (fun h h' => SameSet.trans h h') hmeet (hself v a hv) (hself w c hw) h
    have heq := (sameSet_iff_of_setOf hv).1 hsame
    exact Option.some_inj.1 (heq.symm.trans hw)

omit [DecidableEq V] in
theorem Merging.exists_setOf (h : Merging A₀ B done s) (hv : s.aliasSets v = some pts) :
    ∃ a, s.setOf v = some a ∧ s.allPTS[pts]? = some a := by
  have hlt := h.box v pts hv
  have hget := List.getElem?_eq_getElem hlt
  exact ⟨_, setOf_eq_some_iff.2 ⟨pts, hv, hget⟩, hget⟩

omit [DecidableEq V] in
theorem Merging.aliasSets_eq_none (h : Merging A₀ B done s) (hv : s.setOf v = none) : s.aliasSets v = none := by
  cases hb : s.aliasSets v with
  | none => rfl
  | some b =>
    obtain ⟨c, hc, -⟩ := h.exists_setOf hb
    rw [hv] at hc
    cases hc

/-! ### A known set -/

/-- What `insertSet` returns for a box with the address `a`. -/
def inserted (s : AliasSet V) (pts a : ℕ) (set : List V) : AliasSet V :=
  { s with
    sets := Function.update s.sets a (set.foldl insertElem (s.sets a))
    aliasSets := set.foldl (tryEmplace · · pts) s.aliasSets }

theorem insertSet_eq (hget : s.allPTS[pts]? = some a) (ha : a ∈ s.ownedPTS) :
    insertSet s pts set = .ok (inserted s pts a set) := by
  rw [insertSet, AliasSet.get, hget]
  dsimp only [bind, Except.bind]
  rw [AliasSet.read, if_pos ha]
  rfl

theorem setOf_inserted (hget : s.allPTS[pts]? = some a) : (inserted s pts a set).setOf v = some c ↔
    s.setOf v = some c ∨ s.aliasSets v = none ∧ v ∈ set ∧ c = a := by
  show (set.foldl (tryEmplace · · pts) s.aliasSets v).bind (s.allPTS[·]?) = some c ↔ _
  rw [foldl_tryEmplace, AliasSet.setOf]
  cases hv : s.aliasSets v with
  | some b => simp
  | none =>
    by_cases hmem : v ∈ set
    · simp [hmem, hget, eq_comm]
    · simp [hmem]

theorem mem_sets_inserted : v ∈ (inserted s pts a set).sets c ↔ v ∈ s.sets c ∨ c = a ∧ v ∈ set := by
  show v ∈ Function.update s.sets a (set.foldl insertElem (s.sets a)) c ↔ _
  rw [Function.update_apply]
  split_ifs with hca
  · rw [mem_foldl_insertElem, hca]
    simp
  · simp [hca]

theorem Merging.inserted (h : Merging A₀ B done s) (hset : ∀ v, v ∈ set ↔ SameSet B key v) (hx : x ∈ set)
    (hpts : s.aliasSets x = some pts) (hxa : s.setOf x = some a) (hget : s.allPTS[pts]? = some a) :
    Merging A₀ B (done ++ [key]) (inserted s pts a set) := by
  have hxv : ∀ v ∈ set, Connected A₀ B x v := fun v hv =>
    .right (((hset x).1 hx).symm.trans ((hset v).1 hv))
  -- an entry is connected with one that was there before
  have hold : ∀ v c, (LLVMAliasSet.inserted s pts a set).setOf v = some c →
      ∃ u, s.setOf u = some c ∧ Connected A₀ B u v := by
    intro v c hv
    rcases (setOf_inserted hget).1 hv with hv | ⟨-, hmem, rfl⟩
    · exact ⟨v, hv, (h.same v v c c hv hv).1 rfl⟩
    · exact ⟨x, hxa, hxv v hmem⟩
  refine ⟨fun v b hv => ?_, fun v c hv => ?_, h.nodup, fun c hc => ?_, fun v c hv => ?_, fun v c hv w hw => ?_,
    fun v w c d hv hw => ?_, fun v hv => ?_⟩
  · replace hv : set.foldl (tryEmplace · · pts) s.aliasSets v = some b := hv
    rw [foldl_tryEmplace] at hv
    split_ifs at hv
    · exact h.box v b hv
    · cases hv
      exact h.box x pts hpts
  · obtain ⟨u, hu, -⟩ := hold v c hv
    exact h.owned u c hu
  · obtain ⟨u, hu⟩ := h.nonempty c hc
    exact ⟨u, (setOf_inserted hget).2 (Or.inl hu)⟩
  · rw [mem_sets_inserted]
    exact ((setOf_inserted hget).1 hv).imp (h.mem v c) fun hnew => ⟨hnew.2.2, hnew.2.1⟩
  · obtain ⟨u, hu, huv⟩ := hold v c hv
    rcases mem_sets_inserted.1 hw with hw' | ⟨rfl, hw'⟩
    · exact huv.symm.trans (h.connected u c hu w hw')
    · exact huv.symm.trans (((h.same u x c c hu hxa).1 rfl).trans (hxv w hw'))
  · obtain ⟨u, hu, huv⟩ := hold v c hv
    obtain ⟨t, ht, htw⟩ := hold w d hw
    rw [h.same u t c d hu ht]
    exact ⟨fun h => (huv.symm.trans h).trans htw, fun h => (huv.trans h).trans htw.symm⟩
  · rw [List.mem_append, List.mem_singleton, ← or_assoc] at hv
    cases hs : s.setOf v with
    | some c => exact Option.isSome_iff_exists.2 ⟨c, (setOf_inserted hget).2 (Or.inl hs)⟩
    | none =>
      rcases hv with hv | rfl
      · have hsome := h.isSome v hv
        rw [hs] at hsome
        cases hsome
      · have hmem : v ∈ set := (hset v).2 (((hset x).1 hx).trans ((hset x).1 hx).symm)
        exact Option.isSome_iff_exists.2
          ⟨a, (setOf_inserted hget).2 (Or.inr ⟨h.aliasSets_eq_none hs, hmem, rfl⟩)⟩

/-! ### A set of its own -/

theorem setOf_copySet (hnone : s.aliasSets key = none) (hbox : ∀ b, s.aliasSets v = some b → b < s.allPTS.length) :
    (copySet A s key set).setOf v = some c ↔ s.setOf v = some c ∨ v = key ∧ c = A.address s := by
  show ((tryEmplace s.aliasSets key s.allPTS.length v).bind ((s.allPTS ++ [A.address s])[·]?)) = some c ↔ _
  rw [tryEmplace_apply, AliasSet.setOf]
  cases hv : s.aliasSets v with
  | some b =>
    have hne : v ≠ key := by
      rintro rfl
      rw [hnone] at hv
      cases hv
    simp [hne, List.getElem?_append_left (hbox b hv)]
  | none => by_cases hvk : v = key <;> simp [hvk, eq_comm]

theorem sets_copySet : (copySet A s key set).sets c = if c = A.address s then set else s.sets c := by
  show Function.update (Function.update s.sets (A.address s) []) (A.address s) set c = _
  rw [Function.update_idem, Function.update_apply]

theorem Merging.copySet (h : Merging A₀ B done s) (hset : ∀ v, v ∈ set ↔ SameSet B key v) (hkey : key ∈ set)
    (hnone : ∀ v ∈ set, s.aliasSets v = none) : Merging A₀ B (done ++ [key]) (copySet A s key set) := by
  have hfresh := A.address_notMem s
  have hsetOf : ∀ v c, (LLVMAliasSet.copySet A s key set).setOf v = some c ↔
      s.setOf v = some c ∨ v = key ∧ c = A.address s := fun v c => setOf_copySet (hnone key hkey) (h.box v)
  have hne : ∀ v c, s.setOf v = some c → c ≠ A.address s := fun v c hv hc => hfresh (hc ▸ h.owned v c hv)
  have hself : SameSet B key key := (hset key).1 hkey
  -- the class of the key meets no set
  have halone : ∀ v c, s.setOf v = some c → ¬Connected A₀ B key v := by
    intro v c hv hcon
    have hsame : SameSet B key v := by
      refine Coarsening.of_right (R := SameSet A₀) (fun h => SameSet.symm h) (fun h h' => SameSet.trans h h')
        (fun h h' => SameSet.trans h h') (fun y hy hA => ?_) hself hcon
      obtain ⟨a, ha, -⟩ := hA
      have hsome := h.isSome y (Or.inl (by rw [ha]; rfl))
      rw [AliasSet.setOf, hnone y ((hset y).2 hy)] at hsome
      cases hsome
    rw [AliasSet.setOf, hnone v ((hset v).2 hsame)] at hv
    cases hv
  refine ⟨fun v b hv => ?_, fun v c hv => ?_, ?_, fun c hc => ?_, fun v c hv => ?_, fun v c hv w hw => ?_,
    fun v w c d hv hw => ?_, fun v hv => ?_⟩
  · replace hv : tryEmplace s.aliasSets key s.allPTS.length v = some b := hv
    show b < (s.allPTS ++ [A.address s]).length
    rw [List.length_append, List.length_singleton]
    rw [tryEmplace_apply] at hv
    split_ifs at hv
    · exact Nat.lt_succ_of_lt (h.box v b hv)
    · cases hv
      exact Nat.lt_succ_self _
  · show c ∈ s.ownedPTS ++ [A.address s]
    rcases (hsetOf v c).1 hv with hv | ⟨-, rfl⟩
    · exact List.mem_append_left _ (h.owned v c hv)
    · exact List.mem_append_right _ List.mem_cons_self
  · have hconcat := List.Nodup.concat hfresh h.nodup
    rwa [List.concat_eq_append] at hconcat
  · rcases List.mem_append.1 (show c ∈ s.ownedPTS ++ [A.address s] from hc) with hc | hc
    · obtain ⟨u, hu⟩ := h.nonempty c hc
      exact ⟨u, (hsetOf u c).2 (Or.inl hu)⟩
    · exact ⟨key, (hsetOf key c).2 (Or.inr ⟨rfl, List.mem_singleton.1 hc⟩)⟩
  · rw [sets_copySet]
    rcases (hsetOf v c).1 hv with hv | ⟨rfl, rfl⟩
    · rw [if_neg (hne v c hv)]
      exact h.mem v c hv
    · rwa [if_pos rfl]
  · rw [sets_copySet] at hw
    rcases (hsetOf v c).1 hv with hv | ⟨rfl, rfl⟩
    · rw [if_neg (hne v c hv)] at hw
      exact h.connected v c hv w hw
    · rw [if_pos rfl] at hw
      exact .right ((hset w).1 hw)
  · rcases (hsetOf v c).1 hv with hv' | ⟨rfl, rfl⟩ <;> rcases (hsetOf w d).1 hw with hw' | ⟨rfl, rfl⟩
    · exact h.same v w c d hv' hw'
    · exact iff_of_false (hne v c hv') fun hcon => halone v c hv' hcon.symm
    · exact iff_of_false (hne w d hw').symm (halone w d hw')
    · exact iff_of_true rfl (.right hself)
  · rw [List.mem_append, List.mem_singleton, ← or_assoc] at hv
    rcases hv with hv | rfl
    · obtain ⟨c, hc⟩ := Option.isSome_iff_exists.1 (h.isSome v hv)
      exact Option.isSome_iff_exists.2 ⟨c, (hsetOf v c).2 (Or.inl hc)⟩
    · exact Option.isSome_iff_exists.2 ⟨_, (hsetOf v _).2 (Or.inr ⟨rfl, rfl⟩)⟩

/-! ### The entries of the other map -/

theorem mergeKey_eq (hB : Partition B) (hkey : IsKey B key) :
    ∃ set, (∀ v, v ∈ set ↔ SameSet B key v) ∧ key ∈ set ∧ mergeKey A B s key = mergeEntry A s key set := by
  obtain ⟨b, hb, hlookup⟩ := lookup_eq hkey
  obtain ⟨a, hset, hget, howned, hread⟩ := hB.exists_setOf hb
  have hmem : ∀ v, v ∈ B.sets a ↔ SameSet B key v := fun v => by
    rw [hB.mem_iff a howned, sameSet_iff_of_setOf hset]
  refine ⟨B.sets a, hmem, (hmem key).2 ⟨a, hset, hset⟩, ?_⟩
  rw [mergeKey, hlookup]
  dsimp only [bind, Except.bind]
  rw [hget]
  dsimp only
  rw [hread]

theorem Merging.mergeKey (h : Merging A₀ B done s) (hB : Partition B) (hkey : IsKey B key) :
    ∃ s', mergeKey A B s key = .ok s' ∧ Merging A₀ B (done ++ [key]) s' := by
  obtain ⟨set, hset, hmem, heq⟩ := mergeKey_eq (A := A) (s := s) hB hkey
  rw [heq, mergeEntry]
  cases hfind : set.findSome? s.aliasSets with
  | some pts =>
    obtain ⟨x, hx, hpts⟩ := List.exists_of_findSome?_eq_some hfind
    obtain ⟨a, hxa, hget⟩ := h.exists_setOf hpts
    exact ⟨_, insertSet_eq hget (h.owned x a hxa), h.inserted hset hx hpts hxa hget⟩
  | none => exact ⟨_, rfl, h.copySet hset hmem (List.findSome?_eq_none_iff.1 hfind)⟩

theorem Merging.foldlM (hB : Partition B) : ∀ {order done : List V} {s : AliasSet V}, Merging A₀ B done s →
    (∀ key ∈ order, IsKey B key) →
    ∃ s', order.foldlM (LLVMAliasSet.mergeKey A B) s = .ok s' ∧ Merging A₀ B (done ++ order) s'
  | [], done, s, h, _ => ⟨s, rfl, by rwa [List.append_nil]⟩
  | key :: order, done, s, h, hkeys => by
    obtain ⟨s₁, hs₁, h₁⟩ := h.mergeKey (A := A) hB (hkeys key List.mem_cons_self)
    obtain ⟨s₂, hs₂, h₂⟩ := Merging.foldlM hB h₁ fun k hk => hkeys k (List.mem_cons_of_mem _ hk)
    refine ⟨s₂, ?_, ?_⟩
    · rw [List.foldlM_cons, hs₁]
      exact hs₂
    · rwa [List.append_assoc] at h₂

omit [DecidableEq V] in
/-- Behind all entries the sets are the connected entries. -/
theorem Merging.partition (h : Merging A₀ B done s) (hdone : ∀ v, IsKey B v → v ∈ done) :
    Partition s ∧ ∀ v w, SameSet s v w ↔ Connected A₀ B v w := by
  have hself : ∀ v, SameSet A₀ v v ∨ SameSet B v v → ∃ a, s.setOf v = some a := by
    rintro v (⟨a, ha, -⟩ | ⟨a, ha, -⟩)
    · exact Option.isSome_iff_exists.1 (h.isSome v (Or.inl (by rw [ha]; rfl)))
    · obtain ⟨b, hb, -⟩ := setOf_eq_some_iff.1 ha
      exact Option.isSome_iff_exists.1 (h.isSome v (Or.inr (hdone v (by rw [IsKey, hb]; rfl))))
  have hconnected : ∀ {v w}, Connected A₀ B v w → ∃ a, s.setOf w = some a := fun hcon =>
    hself _ (Coarsening.self_right (fun h => SameSet.symm h) (fun h h' => SameSet.trans h h')
      (fun h => SameSet.symm h) (fun h h' => SameSet.trans h h') hcon)
  refine ⟨⟨h.box, h.owned, h.nodup, fun a ha v => ⟨fun hv => ?_, h.mem v a⟩, fun a ha => ?_⟩, fun v w => ⟨?_, fun hcon => ?_⟩⟩
  · obtain ⟨u, hu⟩ := h.nonempty a ha
    have huv := h.connected u a hu v hv
    obtain ⟨c, hc⟩ := hconnected huv
    rwa [(h.same u v a c hu hc).2 huv]
  · obtain ⟨u, hu⟩ := h.nonempty a ha
    exact List.ne_nil_of_mem (h.mem u a hu)
  · rintro ⟨a, hv, hw⟩
    exact (h.same v w a a hv hw).1 rfl
  · obtain ⟨c, hc⟩ := hconnected hcon
    obtain ⟨a, ha⟩ := hconnected hcon.symm
    exact ⟨c, by rw [ha, (h.same v w a c ha hc).2 hcon], hc⟩

/-! ### Merging -/

theorem setOf_foldlM (hB : Partition B) : ∀ {order : List V} {s s' : AliasSet V}, (∀ key ∈ order, IsKey B key) →
    order.foldlM (mergeKey A B) s = .ok s' → s.setOf v = some c → s'.setOf v = some c
  | [], s, s', _, h, hv => by
    cases h
    exact hv
  | key :: order, s, s', hkeys, h, hv => by
    rw [List.foldlM_cons] at h
    obtain ⟨set, -, -, heq⟩ := mergeKey_eq (A := A) (s := s) hB (hkeys key List.mem_cons_self)
    cases hs₁ : mergeKey A B s key with
    | error e =>
      rw [hs₁] at h
      cases h
    | ok s₁ =>
      rw [hs₁] at h
      exact setOf_foldlM hB (fun k hk => hkeys k (List.mem_cons_of_mem _ hk)) h
        (setOf_mergeEntry (heq.symm.trans hs₁) hv)

/-- The merge returns a partition, the finest that contains both. -/
def MergesClasses (A : Allocator V) (st other : State V F) (order : List V) : Prop :=
  ∃ st', mergeWith A st other order = .ok st' ∧ Partition st'.store ∧
    ∀ v w, SameSet st'.store v w ↔ Connected st.store other.store v w

variable {st other : State V F} {order : List V}

theorem mergeWith_ok {st' : State V F} (h : mergeWith A st other order = .ok st') :
    order.foldlM (mergeKey A other.store) st.store = .ok st'.store := by
  rw [mergeWith] at h
  cases hfold : order.foldlM (mergeKey A other.store) st.store with
  | error e =>
    rw [hfold] at h
    cases h
  | ok s =>
    rw [hfold] at h
    cases h
    rfl

/-- An entry does not get another set. -/
theorem MergesClasses.sameSet (hB : Partition other.store) (horder : ∀ v, v ∈ order ↔ IsKey other.store v)
    (h : MergesClasses A st other order) {x y : V} (hxy : SameSet other.store x y)
    (hx : SameSet st.store x x) (hy : SameSet st.store y y) : SameSet st.store x y := by
  obtain ⟨st', hok, -, hsame⟩ := h
  have hkeys : ∀ key ∈ order, IsKey other.store key := fun key hkey => (horder key).1 hkey
  obtain ⟨a, hxa, -⟩ := hx
  obtain ⟨c, hyc, -⟩ := hy
  have hxa' := setOf_foldlM hB hkeys (mergeWith_ok hok) hxa
  have hyc' := setOf_foldlM hB hkeys (mergeWith_ok hok) hyc
  have hya' := (sameSet_iff_of_setOf hxa').1 ((hsame x y).2 (.right hxy))
  rw [Option.some_inj.1 (hya'.symm.trans hyc')] at hxa
  exact ⟨c, hxa, hyc⟩

end Merge

/-- The sets of 0 and 1 before a merge -/
def separateStore : AliasSet ℕ :=
  ⟨Function.update (Function.update (fun _ => none) 0 (some 0)) 1 (some 1), [0, 1], [0, 1],
    Function.update (Function.update (Function.update (Function.update (fun _ => []) 0 []) 0 [0]) 1 []) 1 [1]⟩

theorem reaches_separateStore : Reaches nextAddress pointers ⟨separateStore, []⟩ :=
  .step (.addSingletonAliasSet 1) (.step (.addSingletonAliasSet 0) .start trivial rfl) trivial rfl

theorem mem_order_mergedStore (v : ℕ) : v ∈ [0, 1] ↔ IsKey mergedStore v := by
  rw [IsKey, mergedStore]
  by_cases h0 : v = 0
  · simp [h0]
  · by_cases h1 : v = 1
    · simp [h1]
    · simp [h0, h1]

end Phasar.LLVMAliasSet
