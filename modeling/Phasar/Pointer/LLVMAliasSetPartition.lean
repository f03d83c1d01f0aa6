import Phasar.Pointer.LLVMAliasSet

/-!
# Alias sets as a partition

* `Partition`: the owned sets are the classes of the keys;
* `Glued`: an operation makes one class of some pointers;
* `mergeBoxes_spec`, `addSingletonAliasSet_spec`, `join_spec`, `addPointer_spec`: what the operations do;
* `reaches_spec`: the sets after any sequence of operations.
-/

namespace Phasar.LLVMAliasSet

section Partition

variable {V : Type}

/-- The address that is read through a pointer. -/
def AliasSet.setOf (s : AliasSet V) (v : V) : Option ℕ := (s.aliasSets v).bind (s.allPTS[·]?)

/-- Two pointers with the same set. -/
def SameSet (s : AliasSet V) (v w : V) : Prop := ∃ a, s.setOf v = some a ∧ s.setOf w = some a

/-- The keys of `AliasSets`. -/
def IsKey (s : AliasSet V) (v : V) : Prop := (s.aliasSets v).isSome

/-- The owned sets are the classes of the keys, and each key has one of them. -/
structure Partition (s : AliasSet V) : Prop where
  box : ∀ v b, s.aliasSets v = some b → b < s.allPTS.length
  owned : ∀ v a, s.setOf v = some a → a ∈ s.ownedPTS
  nodup : s.ownedPTS.Nodup
  mem_iff : ∀ a ∈ s.ownedPTS, ∀ v, v ∈ s.sets a ↔ s.setOf v = some a
  nonempty : ∀ a ∈ s.ownedPTS, s.sets a ≠ []

theorem setOf_eq_some_iff {s : AliasSet V} {v : V} {a : ℕ} :
    s.setOf v = some a ↔ ∃ b, s.aliasSets v = some b ∧ s.allPTS[b]? = some a := by
  rw [AliasSet.setOf, Option.bind_eq_some_iff]

theorem Partition.exists_setOf {s : AliasSet V} (h : Partition s) {v : V} {b : ℕ}
    (hb : s.aliasSets v = some b) : ∃ a, s.setOf v = some a ∧ s.get b = .ok a ∧ a ∈ s.ownedPTS ∧
      s.read a = .ok (s.sets a) := by
  have hlt := h.box v b hb
  have hget := List.getElem?_eq_getElem hlt
  have hset : s.setOf v = some s.allPTS[b] := setOf_eq_some_iff.mpr ⟨b, hb, hget⟩
  have howned := h.owned v _ hset
  exact ⟨_, hset, by rw [AliasSet.get, hget], howned, by rw [AliasSet.read, if_pos howned]⟩

theorem Partition.isKey_iff {s : AliasSet V} (h : Partition s) (v : V) : IsKey s v ↔ (s.setOf v).isSome := by
  rw [IsKey, Option.isSome_iff_exists, Option.isSome_iff_exists]
  constructor
  · rintro ⟨b, hb⟩
    obtain ⟨a, ha, -⟩ := h.exists_setOf hb
    exact ⟨a, ha⟩
  · rintro ⟨a, ha⟩
    obtain ⟨b, hb, -⟩ := setOf_eq_some_iff.mp ha
    exact ⟨b, hb⟩

theorem partition_empty : Partition (empty : AliasSet V) := by
  constructor <;> simp [empty, AliasSet.setOf]

theorem SameSet.symm {s : AliasSet V} {v w : V} : SameSet s v w → SameSet s w v := fun ⟨a, hv, hw⟩ => ⟨a, hw, hv⟩

theorem SameSet.trans {s : AliasSet V} {u v w : V} (huv : SameSet s u v) (hvw : SameSet s v w) : SameSet s u w := by
  obtain ⟨a, hu, hv⟩ := huv
  obtain ⟨a', hv', hw⟩ := hvw
  obtain rfl : a = a' := Option.some_inj.mp (hv.symm.trans hv')
  exact ⟨a, hu, hw⟩

theorem sameSet_iff_of_setOf {s : AliasSet V} {v w : V} {a : ℕ} (hv : s.setOf v = some a) :
    SameSet s v w ↔ s.setOf w = some a := by
  constructor
  · rintro ⟨a', hv', hw⟩
    rw [← hv, hv', hw]
  · exact fun hw => ⟨a, hv, hw⟩

/-- An operation makes one class of the pointers of `J`. -/
structure Glued (s s' : AliasSet V) (J : V → Prop) : Prop where
  partition : Partition s'
  sameSet_iff : ∀ v w, SameSet s' v w ↔ SameSet s v w ∨ J v ∧ J w

variable [DecidableEq V]

theorem mem_insertElem {set : List V} {v w : V} : w ∈ insertElem set v ↔ w ∈ set ∨ w = v := by
  rw [insertElem]
  split_ifs with hv
  · constructor
    · exact .inl
    · rintro (hw | rfl)
      · exact hw
      · exact hv
  · rw [List.mem_append, List.mem_singleton]

theorem mem_foldl_insertElem {vs set : List V} {w : V} :
    w ∈ vs.foldl insertElem set ↔ w ∈ set ∨ w ∈ vs := by
  induction vs generalizing set with
  | nil => simp
  | cons v vs ih => rw [List.foldl_cons, ih, mem_insertElem, List.mem_cons, or_assoc]

omit [DecidableEq V] in
theorem redirect_eq {s : AliasSet V} {v : V} {b a small large : ℕ} (hb : s.aliasSets v = some b)
    (hget : s.get b = .ok a) : s.redirect small large v =
      .ok (if a = small then { s with allPTS := s.allPTS.set b large } else s) := by
  rw [AliasSet.redirect, hb]
  dsimp only
  rw [hget]
  rfl

omit [DecidableEq V] in
/-- The loop over the smaller set redirects the boxes of its elements. -/
theorem foldlM_redirect {small large : ℕ} {vs : List V} : ∀ {s : AliasSet V},
    (∀ v ∈ vs, ∃ b, s.aliasSets v = some b ∧ b < s.allPTS.length) →
    ∃ boxes : List ℕ, vs.foldlM (AliasSet.redirect · small large) s = .ok { s with allPTS := boxes } ∧
      ∀ b, boxes[b]? = if s.allPTS[b]? = some small ∧ ∃ v ∈ vs, s.aliasSets v = some b then some large
        else s.allPTS[b]? := by
  induction vs with
  | nil =>
    intro s _
    exact ⟨s.allPTS, rfl, by simp⟩
  | cons v vs ih =>
    intro s hvs
    obtain ⟨⟨b₀, hb₀, hlt⟩, hvs⟩ := List.forall_mem_cons.mp hvs
    have hget : s.get b₀ = .ok s.allPTS[b₀] := by
      rw [AliasSet.get, List.getElem?_eq_getElem hlt]
    have hother : ∀ b, b ≠ b₀ →
        ((∃ w ∈ v :: vs, s.aliasSets w = some b) ↔ ∃ w ∈ vs, s.aliasSets w = some b) := by
      intro b hb
      simp only [List.mem_cons, exists_eq_or_imp, hb₀, Option.some_inj, hb.symm, false_or]
    by_cases hsmall : s.allPTS[b₀] = small
    · obtain ⟨boxes, hfold, hboxes⟩ := @ih { s with allPTS := s.allPTS.set b₀ large } fun w hw => by
        obtain ⟨b, hb, hblt⟩ := hvs w hw
        exact ⟨b, hb, by rwa [List.length_set]⟩
      refine ⟨boxes, ?_, fun b => ?_⟩
      · rw [List.foldlM_cons, redirect_eq hb₀ hget, if_pos hsmall]
        exact hfold
      · rw [hboxes]
        dsimp only
        by_cases hb : b = b₀
        -- the box of `v` is redirected here, and not again
        · subst hb
          have hold : s.allPTS[b]? = some small := by rw [List.getElem?_eq_getElem hlt, hsmall]
          have hnew : (s.allPTS.set b large)[b]? = some large := List.getElem?_set_self hlt
          rw [hnew, hold, if_pos (⟨rfl, v, List.mem_cons_self, hb₀⟩ : _ ∧ _)]
          split_ifs <;> rfl
        · rw [List.getElem?_set_ne (Ne.symm hb)]
          simp only [hother b hb]
    · obtain ⟨boxes, hfold, hboxes⟩ := ih hvs
      refine ⟨boxes, ?_, fun b => ?_⟩
      · rw [List.foldlM_cons, redirect_eq hb₀ hget, if_neg hsmall]
        exact hfold
      · rw [hboxes]
        by_cases hb : b = b₀
        · subst hb
          have hold : s.allPTS[b]? ≠ some small := by
            rw [List.getElem?_eq_getElem hlt]
            simpa using hsmall
          rw [if_neg fun h => hold h.1, if_neg fun h => hold h.1]
        · simp only [hother b hb]

/-- The smaller set becomes a part of the larger one and is freed. -/
theorem mergeInto_spec {s : AliasSet V} (h : Partition s) {small large : ℕ} (hsmall : small ∈ s.ownedPTS)
    (hlarge : large ∈ s.ownedPTS) (hne : small ≠ large) : ∃ s', mergeInto s small large = .ok s' ∧
      s'.aliasSets = s.aliasSets ∧ Partition s' ∧
      ∀ v, s'.setOf v = if s.setOf v = some small then some large else s.setOf v := by
  obtain ⟨boxes, hfold, hboxes⟩ := @foldlM_redirect V small large (s.sets small)
    { s with sets := Function.update s.sets large ((s.sets small).foldl insertElem (s.sets large)) }
    fun v hv => by
      obtain ⟨b, hb, -⟩ := setOf_eq_some_iff.mp ((h.mem_iff small hsmall v).mp hv)
      exact ⟨b, hb, h.box v b hb⟩
  dsimp only at hboxes
  have hlen : ∀ b, b < boxes.length ↔ b < s.allPTS.length := by
    intro b
    rw [← not_le, ← not_le, ← List.getElem?_eq_none_iff, ← List.getElem?_eq_none_iff, hboxes]
    split_ifs with hb
    · simp [hb.1]
    · rfl
  have hsetOf : ∀ v, (s.aliasSets v).bind (boxes[·]?) =
      if s.setOf v = some small then some large else s.setOf v := by
    intro v
    cases hv : s.aliasSets v with
    | none => simp [AliasSet.setOf, hv]
    | some b =>
      have hset : s.setOf v = s.allPTS[b]? := by rw [AliasSet.setOf, hv, Option.bind_some]
      rw [Option.bind_some, hboxes, hset]
      by_cases hb : s.allPTS[b]? = some small
      · have hmem : v ∈ s.sets small := (h.mem_iff small hsmall v).mpr (hset.trans hb)
        rw [if_pos ⟨hb, v, hmem, hv⟩, if_pos hb]
      · rw [if_neg fun hb' => hb hb'.1, if_neg hb]
  -- no pointer reads the address of the freed set any more
  refine ⟨⟨s.aliasSets, boxes, s.ownedPTS.erase small,
    Function.update s.sets large ((s.sets small).foldl insertElem (s.sets large))⟩, ?_, rfl, ?_, hsetOf⟩
  · rw [mergeInto, hfold]
    dsimp only [bind, Except.bind]
    rw [AliasSet.release, if_pos hsmall]
  · refine ⟨fun v b hb => (hlen b).mpr (h.box v b hb), fun v a hv => ?_, h.nodup.erase small,
      fun a ha v => ?_, fun a ha => ?_⟩
    · have hv' : (if s.setOf v = some small then some large else s.setOf v) = some a := (hsetOf v).symm.trans hv
      split_ifs at hv' with hs
      · cases hv'
        exact (List.mem_erase_of_ne hne.symm).mpr hlarge
      · refine (List.mem_erase_of_ne ?_).mpr (h.owned v a hv')
        rintro rfl
        exact hs hv'
    · obtain ⟨has, ha⟩ := h.nodup.mem_erase_iff.mp ha
      rw [AliasSet.setOf]
      dsimp only
      rw [hsetOf, Function.update_apply]
      split_ifs with hal hs hs
      · rw [mem_foldl_insertElem, h.mem_iff large hlarge, h.mem_iff small hsmall, hs, hal]
        simp
      · rw [mem_foldl_insertElem, h.mem_iff large hlarge, h.mem_iff small hsmall, hal]
        exact or_iff_left hs
      · rw [h.mem_iff a ha, hs, Option.some_inj, Option.some_inj]
        exact ⟨fun heq => absurd heq.symm has, fun heq => absurd heq.symm hal⟩
      · exact h.mem_iff a ha v
    · obtain ⟨has, ha⟩ := h.nodup.mem_erase_iff.mp ha
      dsimp only
      rw [Function.update_apply]
      split_ifs
      · obtain ⟨v, hv⟩ := List.exists_mem_of_ne_nil _ (h.nonempty large hlarge)
        exact List.ne_nil_of_mem (mem_foldl_insertElem.mpr (.inl hv))
      · exact h.nonempty a ha

omit [DecidableEq V] in
/-- One set takes the pointers of another one. -/
theorem Glued.of_setOf {s s' : AliasSet V} {small large : ℕ} (h : Partition s')
    (hsetOf : ∀ v, s'.setOf v = if s.setOf v = some small then some large else s.setOf v) :
    Glued s s' fun z => s.setOf z = some small ∨ s.setOf z = some large := by
  refine ⟨h, fun v w => ?_⟩
  rw [SameSet, SameSet]
  simp only [hsetOf]
  constructor
  · rintro ⟨a, hv, hw⟩
    split_ifs at hv hw with hvs hws hws
    · exact .inr ⟨.inl hvs, .inl hws⟩
    · cases hv
      exact .inr ⟨.inl hvs, .inr hw⟩
    · cases hw
      exact .inr ⟨.inr hv, .inl hws⟩
    · exact .inl ⟨a, hv, hw⟩
  · have hjoin : ∀ z, s.setOf z = some small ∨ s.setOf z = some large →
        (if s.setOf z = some small then some large else s.setOf z) = some large := by
      rintro z (hz | hz)
      · rw [if_pos hz]
      · split_ifs
        · rfl
        · exact hz
    rintro (⟨a, hv, hw⟩ | ⟨hv, hw⟩)
    · rw [hv, hw]
      split_ifs
      · exact ⟨large, rfl, rfl⟩
      · exact ⟨a, rfl, rfl⟩
    · exact ⟨large, hjoin v hv, hjoin w hw⟩

omit [DecidableEq V] in
theorem Glued.congr {s s' : AliasSet V} {J K : V → Prop} (h : Glued s s' J) (hJK : ∀ z, J z ↔ K z) :
    Glued s s' K :=
  ⟨h.partition, fun v w => by rw [h.sameSet_iff, hJK, hJK]⟩

/-- A merge makes one class of the classes of two keys. -/
theorem mergeBoxes_spec {s : AliasSet V} (h : Partition s) {x y : V} {b₁ b₂ : ℕ}
    (hx : s.aliasSets x = some b₁) (hy : s.aliasSets y = some b₂) :
    ∃ s', mergeBoxes s b₁ b₂ = .ok s' ∧ s'.aliasSets = s.aliasSets ∧
      Glued s s' fun z => SameSet s x z ∨ SameSet s y z := by
  obtain ⟨a₁, hset₁, hget₁, howned₁, hread₁⟩ := h.exists_setOf hx
  obtain ⟨a₂, hset₂, hget₂, howned₂, hread₂⟩ := h.exists_setOf hy
  -- the keys may have one set already, in one box or in two
  have hsame : a₁ = a₂ → Glued s s fun z => SameSet s x z ∨ SameSet s y z := by
    rintro rfl
    refine ⟨h, fun v w => ⟨.inl, ?_⟩⟩
    rintro (hvw | ⟨hv, hw⟩)
    · exact hvw
    · rw [sameSet_iff_of_setOf hset₁, sameSet_iff_of_setOf hset₂, or_self] at hv hw
      exact ⟨_, hv, hw⟩
  rw [mergeBoxes]
  by_cases hb : b₁ = b₂
  · subst hb
    refine ⟨s, by rw [if_pos rfl], rfl, hsame ?_⟩
    exact Option.some_inj.mp (hset₁.symm.trans (by rw [AliasSet.setOf, hx, ← hy, ← AliasSet.setOf, hset₂]))
  · rw [if_neg hb, hget₁]
    dsimp only [bind, Except.bind]
    rw [hget₂]
    dsimp only
    by_cases ha : a₁ = a₂
    · exact ⟨s, by rw [if_pos ha]; rfl, rfl, hsame ha⟩
    · rw [if_neg ha, hread₁]
      dsimp only
      rw [hread₂]
      dsimp only
      split_ifs
      · obtain ⟨s', hmerge, haliasSets, hp, hsetOf⟩ := mergeInto_spec h howned₂ howned₁ (Ne.symm ha)
        refine ⟨s', hmerge, haliasSets, (Glued.of_setOf hp hsetOf).congr fun z => ?_⟩
        rw [sameSet_iff_of_setOf hset₁, sameSet_iff_of_setOf hset₂, or_comm]
      · obtain ⟨s', hmerge, haliasSets, hp, hsetOf⟩ := mergeInto_spec h howned₁ howned₂ ha
        refine ⟨s', hmerge, haliasSets, (Glued.of_setOf hp hsetOf).congr fun z => ?_⟩
        rw [sameSet_iff_of_setOf hset₁, sameSet_iff_of_setOf hset₂]

omit [DecidableEq V] in
/-- A new key joins the set at an address. -/
theorem glued_of_newKey {s s' : AliasSet V} (h : Partition s) {v : V} {a : ℕ} (hv : s.setOf v = none)
    (hset : ∀ z, z ≠ v → s'.setOf z = s.setOf z) (hsetv : s'.setOf v = some a)
    (hbox : ∀ z b, s'.aliasSets z = some b → b < s'.allPTS.length)
    (howned : ∀ c, c ∈ s'.ownedPTS ↔ c ∈ s.ownedPTS ∨ c = a) (hnodup : s'.ownedPTS.Nodup)
    (hmem : ∀ c ∈ s'.ownedPTS, ∀ z, z ∈ s'.sets c ↔ s.setOf z = some c ∨ c = a ∧ z = v) :
    Glued s s' fun z => z = v ∨ s.setOf z = some a := by
  have hsetOf : ∀ z c, s'.setOf z = some c ↔ s.setOf z = some c ∨ c = a ∧ z = v := by
    intro z c
    by_cases hz : z = v
    · subst hz
      rw [hsetv, hv, Option.some_inj]
      simp [eq_comm]
    · rw [hset z hz]
      simp [hz]
  refine ⟨⟨hbox, fun z c hz => ?_, hnodup, fun c hc z => ?_, fun c hc => ?_⟩, fun z w => ?_⟩
  · obtain hz | ⟨rfl, rfl⟩ := (hsetOf z c).mp hz
    · exact (howned c).mpr (.inl (h.owned z c hz))
    · exact (howned c).mpr (.inr rfl)
  · rw [hmem c hc, hsetOf]
  · obtain hc' | rfl := (howned c).mp hc
    · obtain ⟨z, hz⟩ := List.exists_mem_of_ne_nil _ (h.nonempty c hc')
      exact List.ne_nil_of_mem ((hmem c hc z).mpr (.inl ((h.mem_iff c hc' z).mp hz)))
    · exact List.ne_nil_of_mem ((hmem c hc v).mpr (.inr ⟨rfl, rfl⟩))
  · rw [SameSet, SameSet]
    simp only [hsetOf]
    constructor
    · rintro ⟨c, hz | ⟨rfl, rfl⟩, hw | ⟨hca, rfl⟩⟩
      · exact .inl ⟨c, hz, hw⟩
      · exact .inr ⟨.inr (hca ▸ hz), .inl rfl⟩
      · exact .inr ⟨.inl rfl, .inr hw⟩
      · exact .inr ⟨.inl rfl, .inl rfl⟩
    · have hjoin : ∀ z, z = v ∨ s.setOf z = some a → s.setOf z = some a ∨ a = a ∧ z = v := by
        rintro z (rfl | hz)
        · exact .inr ⟨rfl, rfl⟩
        · exact .inl hz
      rintro (⟨c, hz, hw⟩ | ⟨hz, hw⟩)
      · exact ⟨c, .inl hz, .inl hw⟩
      · exact ⟨a, hjoin z hz, hjoin w hw⟩

theorem insertInto_eq {s : AliasSet V} {b a : ℕ} {set : List V} (hget : s.get b = .ok a)
    (hread : s.read a = .ok set) (v : V) :
    insertInto s b v = .ok { s with sets := Function.update s.sets a (insertElem set v) } := by
  rw [insertInto, hget]
  dsimp only [bind, Except.bind]
  rw [hread]
  rfl

theorem addSingletonAliasSet_spec (A : Allocator V) {s : AliasSet V} (h : Partition s) (v : V) :
    ∃ s', addSingletonAliasSet A s v = .ok s' ∧ Glued s s' (· = v) := by
  rw [addSingletonAliasSet]
  cases hv : s.aliasSets v with
  | some b =>
    obtain ⟨a, hset, hget, howned, hread⟩ := h.exists_setOf hv
    refine ⟨s, ?_, h, fun x y => ⟨.inl, ?_⟩⟩
    · dsimp only
      rw [hget]
      dsimp only [bind, Except.bind]
      rw [hread]
      dsimp only
      rw [if_pos ((h.mem_iff a howned v).mpr hset)]
      rfl
    · rintro (hxy | ⟨rfl, rfl⟩)
      · exact hxy
      · exact ⟨a, hset, hset⟩
  | none =>
    -- a new set, whose address is none of the owned ones
    have hfresh := A.address_notMem s
    have hsetv : s.setOf v = none := by rw [AliasSet.setOf, hv, Option.bind_none]
    have hget : (s.acquire A).1.get (s.acquire A).2 = .ok (A.address s) := by
      simp [AliasSet.get, AliasSet.acquire]
    have hread : (s.acquire A).1.read (A.address s) = .ok [] := by
      rw [AliasSet.read, if_pos (by simp [AliasSet.acquire]), AliasSet.acquire]
      dsimp only
      rw [Function.update_self]
    refine ⟨⟨Function.update s.aliasSets v (some s.allPTS.length), s.allPTS ++ [A.address s],
      s.ownedPTS ++ [A.address s],
      Function.update (Function.update s.sets (A.address s) []) (A.address s) (insertElem [] v)⟩, ?_, ?_⟩
    · dsimp only
      rw [insertInto_eq hget hread]
      rfl
    · refine (glued_of_newKey h (a := A.address s) hsetv ?_ ?_ ?_ ?_ ?_ ?_).congr fun z => ?_
      · intro z hz
        rw [AliasSet.setOf, AliasSet.setOf]
        dsimp only
        rw [Function.update_of_ne hz]
        cases hb : s.aliasSets z with
        | none => rfl
        | some b => rw [Option.bind_some, Option.bind_some, List.getElem?_append_left (h.box z b hb)]
      · simp [AliasSet.setOf]
      · intro z b hb
        dsimp only at hb ⊢
        rw [List.length_append, List.length_singleton]
        rw [Function.update_apply] at hb
        split_ifs at hb
        · cases hb
          exact Nat.lt_succ_self _
        · exact Nat.lt_succ_of_lt (h.box z b hb)
      · simp
      · have hconcat := List.Nodup.concat hfresh h.nodup
        rwa [List.concat_eq_append] at hconcat
      · intro c hc z
        dsimp only at hc ⊢
        obtain hc | hc := List.mem_append.mp hc
        · have hne : c ≠ A.address s := fun heq => hfresh (heq ▸ hc)
          rw [Function.update_of_ne hne, Function.update_of_ne hne, h.mem_iff c hc]
          simp [hne]
        · obtain rfl := List.mem_singleton.mp hc
          have hnot : ¬s.setOf z = some (A.address s) := fun hz => hfresh (h.owned z _ hz)
          rw [Function.update_self, mem_insertElem]
          simp [hnot]
      · have hnot : ¬s.setOf z = some (A.address s) := fun hz => hfresh (h.owned z _ hz)
        simp [hnot]

/-- A pointer joins the class of a key. -/
theorem join_spec {s : AliasSet V} (h : Partition s) {x : V} {b : ℕ} (hx : s.aliasSets x = some b) (v : V) :
    ∃ s', join s b v = .ok s' ∧ Glued s s' fun z => z = v ∨ SameSet s v z ∨ SameSet s x z := by
  rw [join]
  cases hv : s.aliasSets v with
  | some b' =>
    -- both pointers have a set: these are merged
    obtain ⟨s', hmerge, -, hglued⟩ := mergeBoxes_spec h hx hv
    obtain ⟨a, hset, -⟩ := h.exists_setOf hv
    refine ⟨s', hmerge, hglued.congr fun z => ⟨fun hz => .inr hz.symm, ?_⟩⟩
    rintro (rfl | hz)
    · exact .inr ⟨a, hset, hset⟩
    · exact hz.symm
  | none =>
    -- the new pointer gets the box of the key
    obtain ⟨a, hset, hget, howned, hread⟩ := h.exists_setOf hx
    have hsetv : s.setOf v = none := by rw [AliasSet.setOf, hv, Option.bind_none]
    have hbox := h.box x b hx
    refine ⟨⟨Function.update s.aliasSets v (some b), s.allPTS, s.ownedPTS,
      Function.update s.sets a (insertElem (s.sets a) v)⟩, ?_, ?_⟩
    · exact @insertInto_eq V _ { s with aliasSets := Function.update s.aliasSets v (some b) } b a _
        hget hread v
    · refine (glued_of_newKey h (a := a) hsetv ?_ ?_ ?_ ?_ ?_ ?_).congr fun z => ?_
      · intro z hz
        rw [AliasSet.setOf, AliasSet.setOf]
        dsimp only
        rw [Function.update_of_ne hz]
      · rw [AliasSet.setOf]
        dsimp only
        rw [Function.update_self, Option.bind_some]
        exact (setOf_eq_some_iff.mp hset).elim fun b' hb' => by
          rw [hx] at hb'
          cases hb'.1
          exact hb'.2
      · intro z c hc
        dsimp only at hc ⊢
        rw [Function.update_apply] at hc
        split_ifs at hc
        · cases hc
          exact hbox
        · exact h.box z c hc
      · exact fun c => ⟨.inl, fun hc => hc.elim id fun heq => heq ▸ howned⟩
      · exact h.nodup
      · intro c hc z
        dsimp only
        rw [Function.update_apply]
        split_ifs with hca
        · rw [mem_insertElem, h.mem_iff a howned, hca]
          simp
        · rw [h.mem_iff c hc]
          simp [hca]
      · rw [sameSet_iff_of_setOf hset]
        have hnot : ¬SameSet s v z := fun ⟨_, hs, _⟩ => by rw [hsetv] at hs; cases hs
        simp [hnot]

omit [DecidableEq V] in
theorem Glued.refl_of_subset {s : AliasSet V} (h : Partition s) {J : V → Prop}
    (hJ : ∀ v w, J v → J w → SameSet s v w) : Glued s s J :=
  ⟨h, fun v w => ⟨.inl, fun hvw => hvw.elim id fun ⟨hv, hw⟩ => hJ v w hv hw⟩⟩

omit [DecidableEq V] in
theorem Glued.trans {s s₁ s₂ : AliasSet V} {J K : V → Prop} (h₁ : Glued s s₁ J) (h₂ : Glued s₁ s₂ K)
    (hJK : ∀ z, J z → K z) : Glued s s₂ K := by
  refine ⟨h₂.partition, fun v w => ?_⟩
  rw [h₂.sameSet_iff, h₁.sameSet_iff, or_assoc]
  refine or_congr_right ⟨?_, .inr⟩
  rintro (⟨hv, hw⟩ | hvw)
  · exact ⟨hJK v hv, hJK w hw⟩
  · exact hvw

omit [DecidableEq V] in
theorem Partition.sameSet_self_iff {s : AliasSet V} (h : Partition s) (v : V) : SameSet s v v ↔ IsKey s v := by
  rw [h.isKey_iff, Option.isSome_iff_exists]
  exact exists_congr fun a => and_self_iff

omit [DecidableEq V] in
theorem Glued.isKey_iff {s s' : AliasSet V} (h : Partition s) {J : V → Prop} (hg : Glued s s' J) (v : V) :
    IsKey s' v ↔ IsKey s v ∨ J v := by
  rw [← hg.partition.sameSet_self_iff, hg.sameSet_iff, h.sameSet_self_iff, and_self_iff]

omit [DecidableEq V] in
theorem lookup_eq {s : AliasSet V} {v : V} (hv : IsKey s v) :
    ∃ b, s.aliasSets v = some b ∧ lookup s v = .ok b := by
  obtain ⟨b, hb⟩ := Option.isSome_iff_exists.mp hv
  exact ⟨b, hb, by rw [lookup, hb]⟩

theorem mergeAliasSets_spec {s : AliasSet V} (h : Partition s) {v w : V} (hv : IsKey s v) (hw : IsKey s w) :
    ∃ s', mergeAliasSets s v w = .ok s' ∧ Glued s s' fun z => SameSet s v z ∨ SameSet s w z := by
  obtain ⟨b₁, hb₁⟩ := Option.isSome_iff_exists.mp hv
  obtain ⟨b₂, hb₂⟩ := Option.isSome_iff_exists.mp hw
  rw [mergeAliasSets]
  split_ifs with heq
  · subst heq
    refine ⟨s, rfl, .refl_of_subset h fun x y hx hy => ?_⟩
    rw [or_self] at hx hy
    exact hx.symm.trans hy
  · obtain ⟨s', hmerge, -, hglued⟩ := mergeBoxes_spec h hb₁ hb₂
    rw [hb₁, hb₂]
    exact ⟨s', hmerge, hglued⟩

/-! ### Representatives -/

variable {T : Type} [DecidableEq T]

theorem mergeReps_spec {s₀ : AliasSet V} (type : V → T) {x : V} {pts : ℕ} (hx : s₀.aliasSets x = some pts) :
    ∀ (reps : List (V × ℕ)) {s : AliasSet V} {J : V → Prop} (types : List T) (toRemove : List ℕ),
    s.aliasSets = s₀.aliasSets → Glued s₀ s J → J x → (∀ z, SameSet s₀ x z → J z) →
    (∀ p ∈ reps, IsKey s₀ p.1) → ∃ s' types' idxs, mergeReps type pts reps s types toRemove =
        .ok (s', types', toRemove ++ idxs) ∧ s'.aliasSets = s₀.aliasSets ∧
      idxs.Sublist (reps.map Prod.snd) ∧ Glued s₀ s' fun z => J z ∨ ∃ p ∈ reps, SameSet s₀ p.1 z := by
  intro reps
  induction reps with
  | nil =>
    intro s J types toRemove haliasSets hg _ _ _
    exact ⟨s, types, [], by rw [mergeReps, List.append_nil], haliasSets, .slnil, hg.congr fun z => by simp⟩
  | cons p reps ih =>
    obtain ⟨r, idx⟩ := p
    intro s J types toRemove haliasSets hg hJx hJ hkeys
    obtain ⟨hr, hkeys⟩ := List.forall_mem_cons.mp hkeys
    have hrs : IsKey s r := by rw [IsKey, haliasSets]; exact hr
    obtain ⟨rpts, hrpts, hlookup⟩ := lookup_eq hrs
    obtain ⟨s₁, hmerge, haliasSets₁, hglued⟩ := mergeBoxes_spec hg.partition (haliasSets ▸ hx) hrpts
    -- the class of `x` has taken those of the earlier representatives, and takes that of `r`
    have hg₁ : Glued s₀ s₁ fun z => J z ∨ SameSet s₀ r z := by
      refine hg.trans (hglued.congr fun z => ?_) fun z => .inl
      rw [hg.sameSet_iff, hg.sameSet_iff]
      constructor
      · rintro ((hz | ⟨-, hz⟩) | hz | ⟨-, hz⟩)
        · exact .inl (hJ z hz)
        · exact .inl hz
        · exact .inr hz
        · exact .inl hz
      · rintro (hz | hz)
        · exact .inl (.inr ⟨hJx, hz⟩)
        · exact .inr (.inl hz)
    have hnext : ∀ types' toRemove', ∃ s' types'' idxs, mergeReps type pts reps s₁ types' toRemove' =
        .ok (s', types'', toRemove' ++ idxs) ∧ s'.aliasSets = s₀.aliasSets ∧
        idxs.Sublist (reps.map Prod.snd) ∧ Glued s₀ s' fun z => J z ∨ ∃ p ∈ (r, idx) :: reps, SameSet s₀ p.1 z := by
      intro types' toRemove'
      obtain ⟨s', types'', idxs, hrun, hsame, hsub, hg'⟩ := ih types' toRemove'
        (haliasSets₁.trans haliasSets) hg₁ (.inl hJx) (fun z hz => .inl (hJ z hz)) hkeys
      refine ⟨s', types'', idxs, hrun, hsame, hsub, hg'.congr fun z => ?_⟩
      simp only [List.mem_cons, exists_eq_or_imp, or_assoc]
    rw [mergeReps, hlookup]
    dsimp only [bind, Except.bind]
    rw [hmerge]
    dsimp only
    split_ifs
    · obtain ⟨s', types', idxs, hrun, hsame, hsub, hg'⟩ := hnext types (toRemove ++ [idx])
      refine ⟨s', types', idx :: idxs, ?_, hsame, hsub.cons_cons idx, hg'⟩
      rw [hrun, List.append_assoc, List.singleton_append]
    · obtain ⟨s', types', idxs, hrun, hsame, hsub, hg'⟩ := hnext (types ++ [type r]) toRemove
      exact ⟨s', types', idxs, hrun, hsame, hsub.cons idx, hg'⟩

omit [DecidableEq V] in
theorem mem_toMerge_iff {mayAlias : V → V → Bool} {v : V} {reps : List V} {p : V × ℕ} :
    p ∈ toMerge mayAlias v reps ↔ reps[p.2]? = some p.1 ∧ mayAlias v p.1 := by
  rw [toMerge, List.mem_filter, List.mem_zipIdx_iff_getElem?]

omit [DecidableEq V] in
theorem pairwise_toMerge (mayAlias : V → V → Bool) (v : V) (reps : List V) :
    ((toMerge mayAlias v reps).map Prod.snd).Pairwise (· < ·) := by
  have hsub : ((toMerge mayAlias v reps).map Prod.snd).Sublist (reps.zipIdx.map Prod.snd) :=
    List.filter_sublist.map _
  rw [List.zipIdx_map_snd, ← List.range_eq_range'] at hsub
  exact List.pairwise_lt_range.sublist hsub

/-- The pointers that are in one set after a pointer is added. -/
def Joined (s : AliasSet V) (mayAlias : V → V → Bool) (reps : List V) (v z : V) : Prop :=
  z = v ∨ SameSet s v z ∨ ∃ r ∈ reps, mayAlias v r ∧ SameSet s r z

omit [DecidableEq V] in
theorem joined_iff {s : AliasSet V} {mayAlias : V → V → Bool} {reps : List V} {v z : V} :
    Joined s mayAlias reps v z ↔
      z = v ∨ SameSet s v z ∨ ∃ p ∈ toMerge mayAlias v reps, SameSet s p.1 z := by
  refine or_congr_right (or_congr_right ?_)
  constructor
  · rintro ⟨r, hmem, hr, hz⟩
    obtain ⟨i, hi⟩ := List.mem_iff_getElem?.mp hmem
    exact ⟨(r, i), mem_toMerge_iff.mpr ⟨hi, hr⟩, hz⟩
  · rintro ⟨p, hp, hz⟩
    obtain ⟨hi, hr⟩ := mem_toMerge_iff.mp hp
    exact ⟨p.1, List.mem_of_getElem? hi, hr, hz⟩

/-- What happens to the representatives: those that go may alias the new pointer, and so does one that stays,
unless it is the new pointer. -/
structure Represented (mayAlias : V → V → Bool) (v : V) (reps reps' : List V) : Prop where
  subset : ∀ r ∈ reps', r ∈ reps ∨ r = v
  stays : ∀ r ∈ reps, r ∈ reps' ∨ mayAlias v r
  rep : ∃ r ∈ reps', r = v ∨ r ∈ reps ∧ mayAlias v r

omit [DecidableEq V] in
/-- The representatives that are kept, when those behind the first one to be merged are removed. -/
theorem represented_keep {mayAlias : V → V → Bool} {v r : V} {reps : List V} {i : ℕ} {rs : List (V × ℕ)}
    {idxs : List ℕ} (hmerge : toMerge mayAlias v reps = (r, i) :: rs) (hsub : idxs.Sublist (rs.map Prod.snd)) :
    Represented mayAlias v reps (Utilities.keep idxs reps) := by
  have hfirst := mem_toMerge_iff.mp (hmerge ▸ List.mem_cons_self : (r, i) ∈ toMerge mayAlias v reps)
  have hlt : i ∉ idxs := by
    intro hi
    have hsorted := pairwise_toMerge mayAlias v reps
    rw [hmerge, List.map_cons, List.pairwise_cons] at hsorted
    exact lt_irrefl i (hsorted.1 i (hsub.subset hi))
  have hold : ∀ r' ∈ Utilities.keep idxs reps, r' ∈ reps := by
    intro r' hr'
    obtain ⟨j, hj, -⟩ := Utilities.mem_keep_iff.mp hr'
    exact List.mem_of_getElem? hj
  have hrep : r ∈ Utilities.keep idxs reps := Utilities.mem_keep_iff.mpr ⟨i, hfirst.1, hlt⟩
  refine ⟨fun r' hr' => .inl (hold r' hr'), fun r' hr' => ?_, r, hrep, .inr ⟨hold r hrep, hfirst.2⟩⟩
  obtain ⟨j, hj⟩ := List.mem_iff_getElem?.mp hr'
  by_cases hjdx : j ∈ idxs
  · obtain ⟨p, hp, rfl⟩ := List.mem_map.mp (hsub.subset hjdx)
    have hp' : p ∈ toMerge mayAlias v reps := hmerge ▸ List.mem_cons_of_mem _ hp
    obtain ⟨hp₁, hp₂⟩ := mem_toMerge_iff.mp hp'
    rw [hj, Option.some_inj] at hp₁
    exact .inr (hp₁ ▸ hp₂)
  · exact .inl (Utilities.mem_keep_iff.mpr ⟨j, hj, hjdx⟩)

omit [DecidableEq V] in
/-- The new pointer as a further representative. -/
theorem Represented.append {mayAlias : V → V → Bool} {v : V} {reps reps' : List V}
    (h : Represented mayAlias v reps reps') : Represented mayAlias v reps (reps' ++ [v]) := by
  obtain ⟨r, hr, hrep⟩ := h.rep
  refine ⟨fun r' hr' => ?_, fun r' hr' => (h.stays r' hr').imp_left (List.mem_append_left _), r,
    List.mem_append_left _ hr, hrep⟩
  obtain hr' | hr' := List.mem_append.mp hr'
  · exact h.subset r' hr'
  · exact .inr (List.mem_singleton.mp hr')

/-- A new pointer joins the classes of the representatives that it may alias. -/
theorem addPointer_spec (A : Allocator V) (type : V → T) (mayAlias : V → V → Bool) {s : AliasSet V}
    (h : Partition s) {reps : List V} (hreps : ∀ r ∈ reps, IsKey s r) (v : V) :
    ∃ s' reps', addPointer A type mayAlias s reps v = .ok (s', reps') ∧
      Glued s s' (Joined s mayAlias reps v) ∧ Represented mayAlias v reps reps' := by
  have hkeys : ∀ p ∈ toMerge mayAlias v reps, IsKey s p.1 := fun p hp =>
    hreps _ (List.mem_of_getElem? (mem_toMerge_iff.mp hp).1)
  rw [addPointer]
  split
  · rename_i hmerge
    -- no representative may alias the pointer, which becomes one itself
    obtain ⟨s', hadd, hg⟩ := addSingletonAliasSet_spec A h v
    refine ⟨s', reps ++ [v], by rw [hadd]; rfl, ?_, by simp, fun r hr => .inl (List.mem_append_left _ hr), v,
      by simp, .inl rfl⟩
    refine (Glued.refl_of_subset h (J := SameSet s v) fun x y hx hy => hx.symm.trans hy).trans ?_ fun z hz =>
      joined_iff.mpr (.inr (.inl hz))
    refine ⟨hg.partition, fun x y => ?_⟩
    rw [hg.sameSet_iff, joined_iff, joined_iff, hmerge]
    simp only [List.not_mem_nil, false_and, exists_false, or_false]
    constructor
    · rintro (hxy | ⟨rfl, rfl⟩)
      · exact .inl hxy
      · exact .inr ⟨.inl rfl, .inl rfl⟩
    · rintro (hxy | ⟨rfl | hx, rfl | hy⟩)
      · exact .inl hxy
      · exact .inr ⟨rfl, rfl⟩
      · exact .inl hy
      · exact .inl hx.symm
      · exact .inl (hx.symm.trans hy)
  · rename_i r i hmerge
    -- one representative: the pointer joins its class
    obtain ⟨pts, hpts, hlookup⟩ := lookup_eq (hkeys (r, i) (hmerge ▸ List.mem_cons_self))
    obtain ⟨s', hjoin, hg⟩ := join_spec h hpts v
    refine ⟨s', _, by rw [hlookup]; dsimp only [bind, Except.bind]; rw [hjoin]; rfl, hg.congr fun z => ?_, ?_⟩
    · rw [joined_iff, hmerge]
      simp
    · have hr := mem_toMerge_iff.mp (hmerge ▸ List.mem_cons_self : (r, i) ∈ toMerge mayAlias v reps)
      have hmem := List.mem_of_getElem? hr.1
      have hkept : Represented mayAlias v reps reps :=
        ⟨fun r' hr' => .inl hr', fun r' hr' => .inl hr', r, hmem, .inr ⟨hmem, hr.2⟩⟩
      split_ifs
      · exact hkept.append
      · exact hkept
  · rename_i r i rs _ hmerge
    -- several ones: their classes are merged first, and those of a type that is there already are dropped
    have hkey : IsKey s r := hkeys (r, i) (hmerge ▸ List.mem_cons_self)
    obtain ⟨pts, hpts, hlookup⟩ := lookup_eq hkey
    have hclass : Glued s s (SameSet s r) := .refl_of_subset h fun x y hx hy => hx.symm.trans hy
    obtain ⟨s₁, types, idxs, hrun, hsame, hsub, hg₁⟩ := mergeReps_spec type hpts rs [type r] [] rfl hclass
      ((h.sameSet_self_iff r).mpr hkey) (fun z hz => hz)
      fun p hp => hkeys p (hmerge ▸ List.mem_cons_of_mem _ hp)
    rw [List.nil_append] at hrun
    obtain ⟨s', hjoin, hg₂⟩ := join_spec hg₁.partition (hsame.symm ▸ hpts) v
    have hidxs : idxs.Sublist ((toMerge mayAlias v reps).map Prod.snd) := by
      rw [hmerge, List.map_cons]
      exact hsub.cons i
    have hkeep : (Utilities.removeByIndex reps idxs).1.take (Utilities.removeByIndex reps idxs).2 =
        Utilities.keep idxs reps := by
      refine Utilities.take_removeByIndex ((pairwise_toMerge mayAlias v reps).sublist hidxs) fun idx hidx => ?_
      obtain ⟨p, hp, rfl⟩ := List.mem_map.mp (hidxs.subset hidx)
      exact (List.getElem?_eq_some_iff.mp (mem_toMerge_iff.mp hp).1).1
    refine ⟨s', if type v ∈ types then Utilities.keep idxs reps else Utilities.keep idxs reps ++ [v], ?_,
      hg₁.trans (hg₂.congr fun z => ?_) fun z hz => ?_, ?_⟩
    · rw [hlookup]
      dsimp only [bind, Except.bind]
      rw [hrun]
      dsimp only
      rw [hjoin]
      dsimp only
      rw [hkeep]
      rfl
    · rw [hg₁.sameSet_iff, hg₁.sameSet_iff, joined_iff, hmerge, List.exists_mem_cons_iff]
      have hr := (h.sameSet_self_iff r).mpr hkey
      tauto
    · rw [joined_iff, hmerge, List.exists_mem_cons_iff]
      exact .inr (.inr hz)
    · have hkept := represented_keep hmerge hsub
      split_ifs
      · exact hkept
      · exact hkept.append

end Partition

/-! ### Sequences of operations -/

section Operations

variable {V F T : Type} [DecidableEq V] [DecidableEq F] [DecidableEq T]

/-- A result that satisfies a predicate, or a failed assertion. -/
def Fine {α : Type} (P : α → Prop) : Except Error α → Prop
  | .ok x => P x
  | .error e => e = .assertion

theorem Fine.bind {α β : Type} {P : α → Prop} {Q : β → Prop} {r : Except Error α} {f : α → Except Error β}
    (h : Fine P r) (hf : ∀ x, P x → Fine Q (f x)) : Fine Q (r >>= f) := by
  cases r with
  | ok x => exact hf x h
  | error e => exact h

theorem Fine.foldlM {α β : Type} {P : α → Prop} {f : α → β → Except Error α} (l : List β)
    (hf : ∀ x b, P x → Fine P (f x b)) : ∀ x, P x → Fine P (l.foldlM f x) := by
  induction l with
  | nil => exact fun _ h => h
  | cons b l ih => exact fun x h => (hf x b h).bind ih

theorem fine_addSingletonAliasSet (A : Allocator V) {s : AliasSet V} (h : Partition s) (v : V) :
    Fine (fun s' => Partition s' ∧ ∀ z, IsKey s z → IsKey s' z) (addSingletonAliasSet A s v) := by
  obtain ⟨s', hrun, hg⟩ := addSingletonAliasSet_spec A h v
  rw [hrun]
  exact ⟨hg.partition, fun z hz => (hg.isKey_iff h z).mpr (.inl hz)⟩

theorem fine_mergeAliasSets {s : AliasSet V} (h : Partition s) (v w : V) :
    Fine (fun s' => Partition s' ∧ ∀ z, IsKey s z → IsKey s' z) (mergeAliasSets s v w) := by
  by_cases hkeys : IsKey s v ∧ IsKey s w
  · obtain ⟨s', hrun, hg⟩ := mergeAliasSets_spec h hkeys.1 hkeys.2
    rw [hrun]
    exact ⟨hg.partition, fun z hz => (hg.isKey_iff h z).mpr (.inl hz)⟩
  · rw [mergeAliasSets]
    split_ifs
    · exact ⟨h, fun z hz => hz⟩
    · split
      · rename_i hv hw
        exact absurd ⟨by rw [IsKey, hv]; rfl, by rw [IsKey, hw]; rfl⟩ hkeys
      · rfl

omit [DecidableEq F] in
/-- The representatives of a function are keys. -/
theorem fine_exec (A : Allocator V) (M : Module V F T) (f : F) (p : AliasSet V × List V) (c : Command V)
    (h : Partition p.1 ∧ ∀ r ∈ p.2, IsKey p.1 r) :
    Fine (fun p' => Partition p'.1 ∧ ∀ r ∈ p'.2, IsKey p'.1 r) (exec A M f p c) := by
  obtain ⟨hp, hreps⟩ := h
  cases c with
  | pointer v =>
    obtain ⟨s', reps', hrun, hg, hr'⟩ := addPointer_spec A M.type (M.mayAlias f) hp hreps v
    rw [exec, hrun]
    refine ⟨hg.partition, fun r hr => (hg.isKey_iff hp r).mpr ?_⟩
    obtain hr | rfl := hr'.subset r hr
    · exact .inl (hreps r hr)
    · exact .inr (.inl rfl)
  | singleton v =>
    exact (fine_addSingletonAliasSet A hp v).bind fun s' hs' => ⟨hs'.1, fun r hr => hs'.2 r (hreps r hr)⟩
  | merge v w =>
    exact (fine_mergeAliasSets hp v w).bind fun s' hs' => ⟨hs'.1, fun r hr => hs'.2 r (hreps r hr)⟩

theorem fine_computeFunctionsAliasSet (A : Allocator V) (M : Module V F T) {st : State V F}
    (h : Partition st.store) (f : F) :
    Fine (fun st' => Partition st'.store) (computeFunctionsAliasSet A M st f) := by
  rw [computeFunctionsAliasSet]
  split_ifs
  · exact h
  · exact h
  · refine Fine.bind (Fine.foldlM _ (fine_exec A M f) (st.store, []) ⟨h, by simp⟩) fun p hp => hp.1

theorem fine_computeUser (A : Allocator V) (M : Module V F T) (g : V) (st : State V F)
    (user : F × Instruction V) (h : Partition st.store) :
    Fine (fun st' => Partition st'.store) (computeUser A M g st user) := by
  refine (fine_computeFunctionsAliasSet A M h user.1).bind fun st' h' => ?_
  split_ifs
  · exact (fine_mergeAliasSets h' _ _).bind fun s' hs' => hs'.1
  · split
    · split_ifs
      · exact (fine_mergeAliasSets h' _ _).bind fun s' hs' => hs'.1
      · exact h'
    · exact h'

theorem fine_computeValuesAliasSet (A : Allocator V) (M : Module V F T) {st : State V F}
    (h : Partition st.store) (v : V) :
    Fine (fun st' => Partition st'.store) (computeValuesAliasSet A M st v) := by
  rw [computeValuesAliasSet]
  split_ifs
  · exact (fine_addSingletonAliasSet A h v).bind fun s' hs' => Fine.foldlM _ (fine_computeUser A M v) _ hs'.1
  · refine (fine_addSingletonAliasSet A h v).bind fun s' hs' => ?_
    split
    · exact fine_computeFunctionsAliasSet A M hs'.1 _
    · exact hs'.1
  · exact h

theorem fine_introduceAlias (A : Allocator V) (M : Module V F T) {st : State V F}
    (h : Partition st.store) (v w : V) :
    Fine (fun st' => Partition st'.store) (introduceAlias A M st v w) := by
  rw [introduceAlias]
  split_ifs
  · refine (fine_computeValuesAliasSet A M h v).bind fun st₁ h₁ => ?_
    refine (fine_computeValuesAliasSet A M h₁ w).bind fun st₂ h₂ => ?_
    exact (fine_mergeAliasSets h₂ v w).bind fun s' hs' => hs'.1
  · exact h

/-- The operations; `addPointer` has the alias analysis and the representatives of its caller. -/
inductive Operation (V : Type)
  | addSingletonAliasSet (v : V)
  | addPointer (mayAlias : V → V → Bool) (reps : List V) (v : V)
  | mergeAliasSets (v w : V)
  | introduceAlias (v w : V)

def Operation.apply (A : Allocator V) (M : Module V F T) (st : State V F) : Operation V → Except Error (State V F)
  | .addSingletonAliasSet v => do
    let s' ← LLVMAliasSet.addSingletonAliasSet A st.store v
    return { st with store := s' }
  | .addPointer mayAlias reps v => do
    let p ← LLVMAliasSet.addPointer A M.type mayAlias st.store reps v
    return { st with store := p.1 }
  | .mergeAliasSets v w => do
    let s' ← LLVMAliasSet.mergeAliasSets st.store v w
    return { st with store := s' }
  | .introduceAlias v w => LLVMAliasSet.introduceAlias A M st v w

/-- What the assertions ask for: representatives and merged pointers are keys. -/
def Operation.Asserted (s : AliasSet V) : Operation V → Prop
  | .addSingletonAliasSet _ => True
  | .addPointer _ reps _ => ∀ r ∈ reps, IsKey s r
  | .mergeAliasSets v w => IsKey s v ∧ IsKey s w
  | .introduceAlias _ _ => True

/-- The states after sequences of operations. -/
inductive Reaches (A : Allocator V) (M : Module V F T) : State V F → Prop
  | start : Reaches A M ⟨empty, []⟩
  | step {st st' : State V F} (op : Operation V) : Reaches A M st → op.Asserted st.store →
      op.apply A M st = .ok st' → Reaches A M st'

theorem fine_apply (A : Allocator V) (M : Module V F T) {st : State V F} (h : Partition st.store)
    {op : Operation V} (hop : op.Asserted st.store) :
    Fine (fun st' => Partition st'.store) (op.apply A M st) := by
  cases op with
  | addSingletonAliasSet v => exact (fine_addSingletonAliasSet A h v).bind fun s' hs' => hs'.1
  | addPointer mayAlias reps v =>
    obtain ⟨s', reps', hrun, hg, -⟩ := addPointer_spec A M.type mayAlias h hop v
    rw [Operation.apply, hrun]
    exact hg.partition
  | mergeAliasSets v w => exact (fine_mergeAliasSets h v w).bind fun s' hs' => hs'.1
  | introduceAlias v w => exact fine_introduceAlias A M h v w

theorem Reaches.partition {A : Allocator V} {M : Module V F T} {st : State V F} (h : Reaches A M st) :
    Partition st.store := by
  induction h with
  | start => exact partition_empty
  | step _ _ hop hrun ih =>
    have hfine := fine_apply A M ih hop
    rwa [hrun] at hfine

/-- The sets of the keys are owned once each, a key is an element of its set, and two keys have one set
if one of them is an element of the other's set. -/
structure OwnsSets (s : AliasSet V) : Prop where
  mem : ∀ v, IsKey s v → ∃ a ∈ s.ownedPTS, s.setOf v = some a ∧ v ∈ s.sets a
  same_iff : ∀ v w a b, s.setOf v = some a → s.setOf w = some b → (a = b ↔ w ∈ s.sets a)
  nodup : s.ownedPTS.Nodup

omit [DecidableEq V] in
theorem Partition.ownsSets {s : AliasSet V} (h : Partition s) : OwnsSets s := by
  refine ⟨fun v hv => ?_, fun v w a b hv hw => ?_, h.nodup⟩
  · obtain ⟨a, ha⟩ := Option.isSome_iff_exists.mp ((h.isKey_iff v).mp hv)
    exact ⟨a, h.owned v a ha, ha, (h.mem_iff a (h.owned v a ha) v).mpr ha⟩
  · rw [h.mem_iff a (h.owned v a hv), hw, Option.some_inj, eq_comm]

/-- After any sequence of operations the sets are a partition behind the boxes, no operation reads or frees
a set that is gone, and a merge makes exactly one class of two. -/
theorem reaches_spec (A : Allocator V) (M : Module V F T) : ∀ st, Reaches A M st → OwnsSets st.store ∧
    (∀ op : Operation V, op.Asserted st.store → op.apply A M st ≠ .error .badPointer) ∧
    ∀ v w, IsKey st.store v → IsKey st.store w → ∃ s', mergeAliasSets st.store v w = .ok s' ∧ OwnsSets s' ∧
      (∀ z, IsKey s' z ↔ IsKey st.store z) ∧
      ∀ x y, SameSet s' x y ↔ SameSet st.store x y ∨
        (SameSet st.store v x ∨ SameSet st.store w x) ∧ (SameSet st.store v y ∨ SameSet st.store w y) := by
  intro st hst
  have h := hst.partition
  refine ⟨h.ownsSets, fun op hop hbad => ?_, fun v w hv hw => ?_⟩
  · have hfine := fine_apply A M h hop
    rw [hbad] at hfine
    cases hfine
  · obtain ⟨s', hrun, hg⟩ := mergeAliasSets_spec h hv hw
    refine ⟨s', hrun, hg.partition.ownsSets, fun z => ?_, hg.sameSet_iff⟩
    rw [hg.isKey_iff h]
    refine or_iff_left_of_imp ?_
    rintro (⟨a, -, hz⟩ | ⟨a, -, hz⟩) <;> rw [h.isKey_iff, hz] <;> rfl

end Operations

/-! ### Examples -/

/-- The address behind all owned ones. -/
def nextAddress : Allocator ℕ where
  address s := s.ownedPTS.foldr (fun a b => max (a + 1) b) 0
  address_notMem s := by
    have hlt : ∀ l : List ℕ, ∀ a ∈ l, a < l.foldr (fun a b => max (a + 1) b) 0 := by
      intro l
      induction l with
      | nil => simp
      | cons b l ih =>
        intro a ha
        rw [List.foldr_cons]
        obtain rfl | ha := List.mem_cons.mp ha
        · exact Nat.lt_of_lt_of_le (Nat.lt_succ_self _) (le_max_left _ _)
        · exact Nat.lt_of_lt_of_le (ih a ha) (le_max_right _ _)
    exact fun h => lt_irrefl _ (hlt _ _ h)

/-- A module of pointers without functions. -/
def pointers : Module ℕ Unit Unit where
  isPointerTy _ := true
  isNull _ := false
  isInstruction _ := true
  isFunction _ := false
  isGlobalObject _ := false
  castOperand _ := none
  type _ := ()
  isDeclaration _ := true
  instructions _ := []
  args _ := []
  usedGlobals _ := []
  users _ := []
  retrieveFunction _ := none
  mayAlias _ _ _ := false

/-- The sets of 0 and 1 after a merge, behind two boxes. -/
def mergedStore : AliasSet ℕ :=
  ⟨Function.update (Function.update (fun _ => none) 0 (some 0)) 1 (some 1), [1, 1], [1],
    Function.update (Function.update (Function.update (Function.update (Function.update (fun _ => []) 0 [])
      0 [0]) 1 []) 1 [1]) 1 [1, 0]⟩

theorem reaches_mergedStore : Reaches nextAddress pointers ⟨mergedStore, []⟩ :=
  .step (.mergeAliasSets 0 1) (.step (.addSingletonAliasSet 1)
    (.step (.addSingletonAliasSet 0) .start trivial rfl) trivial rfl) ⟨rfl, rfl⟩ rfl

theorem reaches_spec_mergedStore : OwnsSets mergedStore ∧
    (∀ op : Operation ℕ, op.Asserted mergedStore →
      op.apply nextAddress pointers ⟨mergedStore, []⟩ ≠ .error .badPointer) ∧
    ∀ v w, IsKey mergedStore v → IsKey mergedStore w → ∃ s', mergeAliasSets mergedStore v w = .ok s' ∧
      OwnsSets s' ∧ (∀ z, IsKey s' z ↔ IsKey mergedStore z) ∧
      ∀ x y, SameSet s' x y ↔ SameSet mergedStore x y ∨
        (SameSet mergedStore v x ∨ SameSet mergedStore w x) ∧
          (SameSet mergedStore v y ∨ SameSet mergedStore w y) :=
  reaches_spec nextAddress pointers ⟨mergedStore, []⟩ reaches_mergedStore

end Phasar.LLVMAliasSet
