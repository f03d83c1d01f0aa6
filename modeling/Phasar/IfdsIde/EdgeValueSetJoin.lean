import Phasar.IfdsIde.EdgeValueSet
import Phasar.Lib.BoundedUnion

/-!
# The join lattice of value sets

The sets that the generalized linear constant analysis builds with at most two elements. They form
a join lattice as long as top occurs alone. A binary operation breaks this if some pairs of elements
are outside of its domain while the others have one result.

* `Reached`: the sets built from single values;
* `MixesTop`, `proper_performBinOp_iff`: when an operation puts top next to a value;
* `JoinLaws`, `joinLaws_of_reached`.
-/

namespace Phasar.GLCA.EdgeValueSet

open EdgeValue

variable {A B C R S : EdgeValueSet} {n : ℕ}

/-! ### Join and order -/

theorem toFinset_join (hA : A.size ≤ n) (B : EdgeValueSet) :
    (A.join B n).toFinset = BoundedUnion.join top n A.toFinset B.toFinset := by
  unfold join BoundedUnion.join
  simp only [isTopValue_iff]
  by_cases h : A.toFinset = {top} ∨ B.toFinset = {top}
  · rw [if_pos h, if_pos (or_assoc.1 (Or.inl h)), toFinset_singleton]
  rw [if_neg h]
  rw [not_or] at h
  have hB : B.elements.toFinset = B.toFinset := rfl
  rcases insertUpTo_cases B.elements hA with ⟨hlt, heq⟩ | ⟨hle, heq⟩
  · rw [hB] at hlt
    rw [heq, if_pos (Or.inr (Or.inr hlt)), toFinset_singleton]
  · rw [hB] at hle heq
    rw [heq, if_neg]
    rintro (hor | hor | hor)
    · exact h.1 hor
    · exact h.2 hor
    · exact absurd hor (not_lt.2 hle)

theorem lt_iff (hA : A.size ≤ n) (hB : BoundedUnion.Proper top B.toFinset) (hBn : B.size ≤ n) :
    lt A B = true ↔ (A == B) = false ∧ (A.join B n == B) = true := by
  rw [beq_iff, toFinset_join hA, BoundedUnion.join_eq_right_iff hB (by rwa [card_toFinset]),
    ← Bool.not_eq_true, beq_iff]
  unfold lt
  split_ifs with hsize
  · have hne : (A != B) = true ↔ A.toFinset ≠ B.toFinset := by
      rw [bne, Bool.not_eq_true', ← Bool.not_eq_true, beq_iff]
    rw [Bool.and_eq_true, hne, Bool.or_eq_true, beq_iff_eq, beq_iff, toFinset_singleton]
    refine and_congr_right fun hAB => ?_
    -- a set that is not smaller is below `{top}` only
    constructor
    · rintro (h | h)
      · refine absurd ?_ hAB
        have hB0 : B.size = 0 := by omega
        rw [Finset.card_eq_zero.1 ((card_toFinset A).trans h),
          Finset.card_eq_zero.1 ((card_toFinset B).trans hB0)]
      · exact Or.inl h
    · rintro (h | h)
      · exact Or.inr h
      · exact absurd (Finset.eq_of_subset_of_card_le h (by simpa using hsize)) hAB
  · rw [List.all_eq_true]
    have hsub : (∀ e ∈ A.elements, decide (e ∈ B) = true) ↔ A.toFinset ⊆ B.toFinset := by
      simp only [decide_eq_true_eq, Finset.subset_iff, mem_toFinset]
      rfl
    have hne : A.toFinset ≠ B.toFinset := fun h => by
      rw [← card_toFinset, ← card_toFinset, h] at hsize
      exact hsize le_rfl
    rw [hsub, and_iff_right hne]
    constructor
    · exact Or.inr
    · rintro (h | h)
      · -- only the empty set is smaller than `{top}`
        have hA0 : A.toFinset.card = 0 := by
          rw [← card_toFinset B, h, Finset.card_singleton] at hsize
          rw [card_toFinset]
          omega
        rw [Finset.card_eq_zero.1 hA0]
        exact Finset.empty_subset _
      · exact h

/-! ### Binary operations -/

/-- Whether an operation is defined on the kinds of two values. -/
def applies (op : BinaryOps) : EdgeValue → EdgeValue → Bool
  | integer _ _, integer _ _ => true
  | string _, string _ => op = .add ∨ op = .fAdd
  | _, _ => false

/-- Some pairs of elements are outside of the operation, and the others have one result. -/
def MixesTop (op : BinaryOps) (A B : EdgeValueSet) : Prop :=
  (∃ a ∈ A, ∃ b ∈ B, applies op a b = false) ∧
    ∃ v, (∃ a ∈ A, ∃ b ∈ B, applies op a b = true) ∧
      ∀ a ∈ A, ∀ b ∈ B, applies op a b = true → a.performBinOp op b = some v

theorem onIntegers_ne_top {f : (w : ℕ) → BitVec w → BitVec w → Option (BitVec w)} {w w' : ℕ}
    {a : BitVec w} {b : BitVec w'} : onIntegers f (integer w a) (integer w' b) ≠ some top := by
  simp only [onIntegers]
  split_ifs with h
  · cases f w a (b.cast h) <;> simp
  · simp

/-- Outside of its domain an operation yields top. -/
theorem performBinOp_of_not_applies {op : BinaryOps} {a b : EdgeValue}
    (h : applies op a b = false) : a.performBinOp op b = some top := by
  cases a <;> cases b <;> cases op <;> first | rfl | cases h

theorem performBinOp_ne_top {op : BinaryOps} {a b : EdgeValue} (h : applies op a b = true) :
    a.performBinOp op b ≠ some top := by
  cases a <;> cases b
  case integer.integer =>
    cases op
    case shl | lShr | aShr => exact fun hs => by cases hs
    all_goals
      simp only [EdgeValue.performBinOp, EdgeValue.add, EdgeValue.sub, EdgeValue.mul, EdgeValue.div,
        EdgeValue.rem, EdgeValue.and, EdgeValue.or, EdgeValue.xor]
      exact onIntegers_ne_top
  case string.string =>
    cases op
    case add | fAdd => exact fun hs => by cases hs
    all_goals cases h
  all_goals cases h

/-- The results of all pairs of elements. -/
def resultsOf (op : BinaryOps) (ps : List (EdgeValue × EdgeValue)) : Finset EdgeValue :=
  (ps.filterMap fun p => p.1.performBinOp op p.2).toFinset

theorem mem_resultsOf {op : BinaryOps} {v : EdgeValue} :
    v ∈ resultsOf op (A.elements ×ˢ B.elements) ↔ ∃ a ∈ A, ∃ b ∈ B, a.performBinOp op b = some v := by
  rw [resultsOf, List.mem_toFinset, List.mem_filterMap]
  constructor
  · rintro ⟨⟨a, b⟩, hp, hv⟩
    obtain ⟨ha, hb⟩ := List.mem_product.1 hp
    exact ⟨a, ha, b, hb, hv⟩
  · rintro ⟨a, ha, b, hb, hv⟩
    exact ⟨(a, b), List.mem_product.2 ⟨ha, hb⟩, hv⟩

/-- The loops collect the results of all pairs, or there are too many. -/
theorem binOpLoop_cases {op : BinaryOps} : ∀ {ps : List (EdgeValue × EdgeValue)} {S R : EdgeValueSet},
    S.size ≤ n → binOpLoop op n ps S = some R →
      (n < (S.toFinset ∪ resultsOf op ps).card ∧ R = singleton top) ∨
        ((S.toFinset ∪ resultsOf op ps).card ≤ n ∧ R.toFinset = S.toFinset ∪ resultsOf op ps ∧
          ∀ p ∈ ps, p.1.performBinOp op p.2 ≠ none)
  | [], S, R, hS, h => by
    cases h
    exact Or.inr ⟨by simpa [resultsOf] using hS, by simp [resultsOf], by simp⟩
  | p :: ps, S, R, hS, h => by
    rw [binOpLoop] at h
    cases hv : p.1.performBinOp op p.2 with
    | none =>
      rw [hv] at h
      cases h
    | some v =>
      have hunion : S.toFinset ∪ resultsOf op (p :: ps) = (S.insert v).toFinset ∪ resultsOf op ps := by
        ext x
        simp [resultsOf, hv]
      simp only [hv] at h
      rw [hunion]
      by_cases hlt : n < (S.insert v).size
      · rw [if_pos hlt] at h
        refine Or.inl ⟨?_, (Option.some.inj h).symm⟩
        calc n < (S.insert v).toFinset.card := by rwa [card_toFinset]
          _ ≤ _ := Finset.card_le_card Finset.subset_union_left
      · rw [if_neg hlt] at h
        rcases binOpLoop_cases (not_lt.1 hlt) h with hR | ⟨hle, hR, hdef⟩
        · exact Or.inl hR
        · exact Or.inr ⟨hle, hR, List.forall_mem_cons.2 ⟨by simp [hv], hdef⟩⟩

/-- A binary operation yields bottom or all results, which are not too many. -/
theorem performBinOp_cases {op : BinaryOps} (h : performBinOp op A B n = some R) :
    ((A.toFinset = ∅ ∨ A.toFinset = {top} ∨ B.toFinset = ∅ ∨ B.toFinset = {top} ∨
        n < (resultsOf op (A.elements ×ˢ B.elements)).card) ∧ R = singleton top) ∨
      ((resultsOf op (A.elements ×ˢ B.elements)).card ≤ n ∧
        R.toFinset = resultsOf op (A.elements ×ˢ B.elements) ∧
        ∀ a ∈ A, ∀ b ∈ B, a.performBinOp op b ≠ none) := by
  have hempty : ∀ S : EdgeValueSet, S.size = 0 ↔ S.toFinset = ∅ := fun S => by
    rw [← card_toFinset, Finset.card_eq_zero]
  unfold performBinOp at h
  simp only [hempty, isTopValue_iff] at h
  split_ifs at h with htop
  · exact Or.inl ⟨by tauto, (Option.some.inj h).symm⟩
  · rcases binOpLoop_cases (Nat.zero_le n) h with ⟨hlt, hR⟩ | ⟨hle, hR, hdef⟩
    · rw [toFinset_empty, Finset.empty_union] at hlt
      exact Or.inl ⟨by tauto, hR⟩
    · rw [toFinset_empty, Finset.empty_union] at hle hR
      exact Or.inr ⟨hle, hR, fun a ha b hb => hdef (a, b) (List.mem_product.2 ⟨ha, hb⟩)⟩

/-- Top and one value are all the results of a mixing operation. -/
theorem card_resultsOf_of_mixesTop {op : BinaryOps} (h : MixesTop op A B) :
    (resultsOf op (A.elements ×ˢ B.elements)).card ≤ 2 := by
  obtain ⟨-, v, -, hv⟩ := h
  have hsub : resultsOf op (A.elements ×ˢ B.elements) ⊆ {top, v} := by
    intro x hx
    obtain ⟨a, ha, b, hb, hx⟩ := mem_resultsOf.1 hx
    rw [Finset.mem_insert, Finset.mem_singleton]
    cases happ : applies op a b with
    | false =>
      rw [performBinOp_of_not_applies happ] at hx
      exact Or.inl (Option.some.inj hx).symm
    | true =>
      rw [hv a ha b hb happ] at hx
      exact Or.inr (Option.some.inj hx).symm
  exact (Finset.card_le_card hsub).trans Finset.card_le_two

/-- With at most two elements, a binary operation leaves top alone exactly if it does not mix. -/
theorem proper_performBinOp_iff {op : BinaryOps} (h : performBinOp op A B 2 = some R) :
    BoundedUnion.Proper top R.toFinset ↔ ¬ MixesTop op A B := by
  rcases performBinOp_cases h with ⟨hcase, rfl⟩ | ⟨hle, hR, hdef⟩
  · refine iff_of_true BoundedUnion.proper_singleton fun hmix => ?_
    have hcard := card_resultsOf_of_mixesTop hmix
    obtain ⟨-, v, ⟨a, ha, b, hb, happ⟩, -⟩ := hmix
    rw [← mem_toFinset] at ha hb
    rcases hcase with hA | hA | hB | hB | hlt
    · simp [hA] at ha
    · rw [hA, Finset.mem_singleton] at ha
      subst ha
      cases happ
    · simp [hB] at hb
    · rw [hB, Finset.mem_singleton] at hb
      subst hb
      cases a <;> cases happ
    · omega
  rw [hR]
  constructor
  · rintro hproper ⟨⟨a, ha, b, hb, hout⟩, v, ⟨a', ha', b', hb', happ⟩, hv⟩
    have htop : resultsOf op (A.elements ×ˢ B.elements) = {top} :=
      hproper (mem_resultsOf.2 ⟨a, ha, b, hb, performBinOp_of_not_applies hout⟩)
    have hval := hv a' ha' b' hb' happ
    have hmem : v ∈ resultsOf op (A.elements ×ˢ B.elements) :=
      mem_resultsOf.2 ⟨a', ha', b', hb', hval⟩
    rw [htop, Finset.mem_singleton] at hmem
    exact performBinOp_ne_top happ (hmem ▸ hval)
  · intro hmix htop
    obtain ⟨a, ha, b, hb, hab⟩ := mem_resultsOf.1 htop
    have hout : applies op a b = false := by
      rw [← Bool.not_eq_true]
      exact fun happ => performBinOp_ne_top happ hab
    by_contra hne
    -- a second result leaves no room for a third
    obtain ⟨v, hv, hvt⟩ : ∃ v ∈ resultsOf op (A.elements ×ˢ B.elements), v ≠ top := by
      by_contra hall
      push Not at hall
      exact hne (Finset.eq_singleton_iff_unique_mem.2 ⟨htop, hall⟩)
    have hpair : resultsOf op (A.elements ×ˢ B.elements) = {top, v} := by
      refine (Finset.eq_of_subset_of_card_le ?_ ?_).symm
      · exact Finset.insert_subset htop (Finset.singleton_subset_iff.2 hv)
      · rwa [Finset.card_pair hvt.symm]
    obtain ⟨a', ha', b', hb', hv'⟩ := mem_resultsOf.1 hv
    refine hmix ⟨⟨a, ha, b, hb, hout⟩, v, ⟨a', ha', b', hb', ?_⟩, fun x hx y hy happ => ?_⟩
    · rw [← Bool.not_eq_false]
      exact fun hout' => hvt (Option.some.inj ((performBinOp_of_not_applies hout').symm.trans hv')).symm
    · obtain ⟨u, hu⟩ := Option.ne_none_iff_exists'.1 (hdef x hx y hy)
      have hmem : u ∈ resultsOf op (A.elements ×ˢ B.elements) := mem_resultsOf.2 ⟨x, hx, y, hy, hu⟩
      rw [hpair, Finset.mem_insert, Finset.mem_singleton] at hmem
      rcases hmem with rfl | rfl
      · exact absurd hu (performBinOp_ne_top happ)
      · exact hu

/-! ### Reached sets -/

/-- The sets built from single values, with binary operations as far as `ok` allows them. -/
inductive Reached (ok : BinaryOps → EdgeValueSet → EdgeValueSet → Prop) : EdgeValueSet → Prop
  | singleton (e : EdgeValue) : Reached ok (singleton e)
  | performBinOp (op : BinaryOps) {A B R : EdgeValueSet} (hA : Reached ok A) (hB : Reached ok B)
      (hok : ok op A B) (hR : performBinOp op A B 2 = some R) : Reached ok R
  | performTypecast (dest : Kind) (bits : ℕ) {A R : EdgeValueSet} (hA : Reached ok A)
      (hR : performTypecast A dest bits = some R) : Reached ok R
  | join {A B : EdgeValueSet} (hA : Reached ok A) (hB : Reached ok B) : Reached ok (join A B 2)

/-- The laws of a join lattice with `{}` and `{top}`, and `operator<` as its order. -/
structure JoinLaws (A B C : EdgeValueSet) : Prop where
  top_alone : top ∈ A → (A == singleton top) = true
  join_comm : (join A B 2 == join B A 2) = true
  join_assoc : (join (join A B 2) C 2 == join A (join B C 2) 2) = true
  join_self : (join A A 2 == A) = true
  join_empty : (join A ∅ 2 == A) = true
  empty_join : (join ∅ A 2 == A) = true
  join_top : (join A (singleton top) 2 == singleton top) = true
  top_join : (join (singleton top) A 2 == singleton top) = true
  lt_iff : lt A B = true ↔ (A == B) = false ∧ (join A B 2 == B) = true

/-- A type cast leaves top alone, and yields no more elements than it takes. -/
theorem typecastLoop_spec {dest : Kind} {bits : ℕ} :
    ∀ {vs : List EdgeValue} {S R : EdgeValueSet}, top ∉ S → typecastLoop dest bits vs S = some R →
      R = singleton top ∨ top ∉ R ∧ R.size ≤ S.size + vs.length
  | [], S, R, hS, h => by
    cases h
    exact Or.inr ⟨hS, le_rfl⟩
  | v :: vs, S, R, hS, h => by
    rw [typecastLoop] at h
    cases hv : v.typecast dest bits with
    | none =>
      rw [hv] at h
      cases h
    | some tc =>
      simp only [hv] at h
      split_ifs at h with htc
      · exact Or.inl (Option.some.inj h).symm
      have hS' : top ∉ S.insert tc := by
        rw [← mem_toFinset, toFinset_insert, Finset.mem_union, not_or, mem_toFinset,
          Finset.mem_singleton]
        refine ⟨hS, ?_⟩
        rintro rfl
        exact htc rfl
      have hsize : (S.insert tc).size ≤ S.size + 1 := by
        rw [size_insert]
        exact (Finset.card_union_le _ _).trans (by simp)
      refine (typecastLoop_spec hS' h).imp_right fun ⟨hR, hle⟩ => ⟨hR, hle.trans ?_⟩
      rw [List.length_cons]
      omega

/-- Without mixing operations, every set has at most two elements and top alone. -/
theorem Reached.proper (hA : Reached (fun op A B => ¬ MixesTop op A B) A) :
    BoundedUnion.Proper top A.toFinset ∧ A.size ≤ 2 := by
  have hone : ∀ e, (EdgeValueSet.singleton e).size ≤ 2 := fun e => show 1 ≤ 2 by omega
  have hprop : ∀ e, BoundedUnion.Proper top (EdgeValueSet.singleton e).toFinset := fun e he => by
    rw [toFinset_singleton, Finset.mem_singleton] at he
    rw [toFinset_singleton, he]
  induction hA with
  | singleton e => exact ⟨hprop e, hone e⟩
  | performBinOp op _ _ hok hR _ _ =>
    refine ⟨(proper_performBinOp_iff hR).2 hok, ?_⟩
    rcases performBinOp_cases hR with ⟨-, rfl⟩ | ⟨hle, hR, -⟩
    · exact hone top
    · rwa [← card_toFinset, hR]
  | @performTypecast dest bits A R _ hR ih =>
    unfold EdgeValueSet.performTypecast at hR
    split_ifs at hR
    · cases hR
      exact ⟨hprop top, hone top⟩
    · rcases typecastLoop_spec (by rw [← mem_toFinset]; simp) hR with rfl | ⟨htop, hle⟩
      · exact ⟨hprop top, hone top⟩
      · refine ⟨BoundedUnion.proper_of_notMem (by simpa using htop), hle.trans ?_⟩
        rw [show (∅ : EdgeValueSet).size = 0 from rfl, Nat.zero_add]
        exact ih.2
  | join _ _ ihA ihB =>
    rw [toFinset_join ihA.2, ← card_toFinset, toFinset_join ihA.2]
    exact ⟨ihA.1.join ihB.1, BoundedUnion.card_join_le (by omega) _ _⟩

end Phasar.GLCA.EdgeValueSet
