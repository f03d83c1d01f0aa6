import Phasar.IfdsIde.IDEInstInteractionAnalysis
import Mathlib.Data.Nat.Size

/-!
# The edge functions of the feature-taint analysis

`IDEFeatureTaintAnalysis` keeps label sets as small bit vectors. Edge functions add labels or generate them,
each in one class for sets that fit into a machine word, and in one for larger sets.

* `SmallBitVector`, `IDEFeatureTaintEdgeFact`: the sets;
* `FeatureTaintEF`, `unionTaints`, `extend`, `combine`: the edge functions;
* `refines`: they add and replace label sets;
* `labelLaws`: the laws that the edge functions of both analyses satisfy.
-/

namespace Phasar

/-! ### Small bit vectors -/

/-- The bits, and whether they are kept in a word beside their number. -/
structure SmallBitVector where
  isSmall : Bool
  Bits : List Bool
  length_le : isSmall = true → Bits.length ≤ 63
  deriving DecidableEq

namespace SmallBitVector

/-- `SmallNumDataBits`. -/
def SmallNumDataBits : ℕ := 57

theorem length_le_of_small {N : ℕ} (h : N ≤ SmallNumDataBits) : N ≤ 63 := h.trans (by decide)

/-- `N` zeros. -/
def zeros (N : ℕ) : SmallBitVector :=
  ⟨decide (N ≤ SmallNumDataBits), List.replicate N false, fun h => by
    rw [List.length_replicate]
    exact length_le_of_small (of_decide_eq_true h)⟩

/-- `invalid`: all bits of the word are set, those of the size among them. -/
def invalid : SmallBitVector := ⟨true, List.replicate 63 true, fun _ => le_rfl⟩

def isInvalid (s : SmallBitVector) : Bool := decide (s = invalid)

def none (s : SmallBitVector) : Bool := BitVector.none s.Bits

theorem length_resize (bits : List Bool) (N : ℕ) : (BitVector.resize bits N).length = N := by
  rw [BitVector.resize, List.length_append, List.length_take, List.length_replicate]
  omega

/-- A large vector stays large. -/
def resize (s : SmallBitVector) (N : ℕ) : SmallBitVector :=
  ⟨s.isSmall && decide (N ≤ SmallNumDataBits), BitVector.resize s.Bits N, fun h => by
    rw [length_resize]
    exact length_le_of_small (of_decide_eq_true (Bool.and_eq_true_iff.1 h).2)⟩

theorem length_orBits (bits rhs : List Bool) :
    (BitVector.orBits bits rhs).length = max bits.length rhs.length := by
  rw [BitVector.orBits, List.length_map, List.length_range]

/-- `operator|=`, which resizes. -/
def or (s RHS : SmallBitVector) : SmallBitVector :=
  ⟨(s.resize (max s.Bits.length RHS.Bits.length)).isSmall, BitVector.orBits s.Bits RHS.Bits, fun h => by
    have hle := (s.resize (max s.Bits.length RHS.Bits.length)).length_le h
    rw [length_orBits]
    rwa [resize, length_resize] at hle⟩

/-- The bits of a mask that are below the size. -/
def setBitsInMask (s : SmallBitVector) (Mask : BitVec 64) : SmallBitVector :=
  ⟨s.isSmall, s.Bits.mapIdx fun i b => b || Mask.getLsbD i, fun h => by
    rw [List.length_mapIdx]
    exact s.length_le h⟩

/-- `getData` of a small vector. -/
def getSmallBits (s : SmallBitVector) : BitVec 64 := (BitVec.ofBoolListLE s.Bits).setWidth 64

/-- `getData`. -/
def getWords (s : SmallBitVector) : List (List Bool) :=
  if s.isSmall then [BitVector.word s.Bits 0] else BitVector.getWords s.Bits

end SmallBitVector

/-- A set of labels, or top. -/
structure IDEFeatureTaintEdgeFact where
  Taints : SmallBitVector

namespace IDEFeatureTaintEdgeFact

/-- `llvm::bit_width`. -/
def bitWidth (Bits : BitVec 64) : ℕ := Nat.size Bits.toNat

def fromBits (Bits : BitVec 64) : IDEFeatureTaintEdgeFact :=
  ⟨(SmallBitVector.zeros (bitWidth Bits)).setBitsInMask Bits⟩

def isTop (Fact : IDEFeatureTaintEdgeFact) : Bool := Fact.Taints.isInvalid

/-- `unionWith` of the facts in a word. -/
def unionWithBits (Fact : IDEFeatureTaintEdgeFact) (Facts : BitVec 64) : IDEFeatureTaintEdgeFact :=
  let RequiredSize := bitWidth Facts
  let Taints :=
    if RequiredSize > Fact.Taints.Bits.length then Fact.Taints.resize RequiredSize else Fact.Taints
  ⟨Taints.setBitsInMask Facts⟩

def unionWith (Fact Facts : IDEFeatureTaintEdgeFact) : IDEFeatureTaintEdgeFact :=
  if Facts.isTop then Fact else ⟨Fact.Taints.or Facts.Taints⟩

/-- `operator==`. -/
def eq (Lhs Rhs : IDEFeatureTaintEdgeFact) : Bool :=
  BitVectorSet.eqWords Lhs.Taints.none Rhs.Taints.none Lhs.Taints.getWords Rhs.Taints.getWords

/-- The positions of the labels; of top, those in its word. -/
def labels (Fact : IDEFeatureTaintEdgeFact) : Finset ℕ := BitVector.elems Fact.Taints.Bits

end IDEFeatureTaintEdgeFact

/-- The classes `AddFactsEF`, `GenerateEF`, `AddSmallFactsEF` and `GenerateSmallEF`. -/
inductive FeatureTaintEF
  | addFactsEF (Facts : IDEFeatureTaintEdgeFact)
  | generateEF (Facts : IDEFeatureTaintEdgeFact)
  | addSmallFactsEF (Facts : BitVec 64)
  | generateSmallEF (Facts : BitVec 64)

namespace IDEFeatureTaintAnalysis

open FeatureTaintEF LabelEdgeFunction IDEFeatureTaintEdgeFact

/-- The values, which constant edge functions store as they are. -/
def domain : LabelDomain FeatureTaintEF IDEFeatureTaintEdgeFact IDEFeatureTaintEdgeFact (Finset ℕ) where
  top := ⟨SmallBitVector.invalid⟩
  bottom := fromBits 0
  eq := IDEFeatureTaintEdgeFact.eq
  ofValue Value := Value
  unwrap := some
  labels := labels
  computeOwn
    | addFactsEF Facts, Source => ⟨Source.Taints.or Facts.Taints⟩
    | generateEF Facts, _ => Facts
    | addSmallFactsEF Facts, Source => Source.unionWithBits Facts
    | generateSmallEF Facts, _ => fromBits Facts
  isConstantOwn
    | generateEF _ | generateSmallEF _ => true
    | _ => false

abbrev FeatureTaintFunction := LabelEdgeFunction FeatureTaintEF IDEFeatureTaintEdgeFact

def genEF (Facts : IDEFeatureTaintEdgeFact) : FeatureTaintFunction :=
  if Facts.Taints.isSmall then own (generateSmallEF Facts.Taints.getSmallBits) else own (generateEF Facts)

def addEF (Facts : IDEFeatureTaintEdgeFact) : FeatureTaintFunction :=
  if Facts.Taints.isSmall then own (addSmallFactsEF Facts.Taints.getSmallBits) else own (addFactsEF Facts)

/-- `none`: another class, which is unreachable. -/
def extractFacts : FeatureTaintFunction → Option (BitVec 64 × Option IDEFeatureTaintEdgeFact)
  | own (generateSmallEF Facts) => some (Facts, none)
  | own (addSmallFactsEF Facts) => some (Facts, none)
  | own (generateEF Facts) => some (0, some Facts)
  | own (addFactsEF Facts) => some (0, some Facts)
  | _ => none

def unionTaints (FirstEF OtherEF : FeatureTaintFunction) : Option IDEFeatureTaintEdgeFact :=
  (extractFacts FirstEF).bind fun First => (extractFacts OtherEF).map fun Other =>
    match First, Other with
    | (_, some FirstLargeFacts), (_, some OtherLargeFacts) => FirstLargeFacts.unionWith OtherLargeFacts
    | (_, some FirstLargeFacts), (OtherSmallFacts, none) => FirstLargeFacts.unionWithBits OtherSmallFacts
    | (FirstSmallFacts, none), (_, some OtherLargeFacts) => OtherLargeFacts.unionWithBits FirstSmallFacts
    | (FirstSmallFacts, none), (OtherSmallFacts, none) => fromBits (FirstSmallFacts ||| OtherSmallFacts)

/-- `extend`, where no default decides. -/
def extendOwn (FirstEF SecondEF : FeatureTaintFunction) : Option FeatureTaintFunction :=
  let Val := domain.computeTarget SecondEF (domain.computeTarget FirstEF (fromBits 0))
  if domain.isConstant FirstEF then some (genEF Val) else some (addEF Val)

/-- `combine`, where no default decides. -/
def combineOwn (FirstEF OtherEF : FeatureTaintFunction) : Option FeatureTaintFunction :=
  (unionTaints FirstEF OtherEF).map fun ThisFacts =>
    if domain.isConstant FirstEF && domain.isConstant OtherEF then genEF ThisFacts else addEF ThisFacts

/-- `EdgeFunction::referenceEquals`: it may take equal functions apart, but never confuses two. -/
structure ReferenceEquals where
  equals : FeatureTaintFunction → FeatureTaintFunction → Bool
  eq_of_equals : ∀ f g, equals f g = true → f = g

/-- The labels in a word. -/
def smallLabels (Facts : BitVec 64) : Finset ℕ := (Finset.range 64).filter fun i => Facts.getLsbD i

/-- The functions with a set of labels, the map of each of them. -/
def toMap : FeatureTaintEF → Option (JoinMap (Finset ℕ))
  | addFactsEF Facts => if Facts.isTop then none else some (.add Facts.labels)
  | generateEF Facts => if Facts.isTop then none else some (.const Facts.labels)
  | addSmallFactsEF Facts => some (.add (smallLabels Facts))
  | generateSmallEF Facts => some (.const (smallLabels Facts))

/-- The analysis; it starts from functions that add a set of labels, or generate one. -/
def problem (referenceEquals : ReferenceEquals) :
    LabelProblem FeatureTaintEF IDEFeatureTaintEdgeFact IDEFeatureTaintEdgeFact (Finset ℕ) where
  toLabelDomain := domain
  isBasic EF := (toMap EF).isSome
  isSame := referenceEquals.equals
  extendOwn := extendOwn
  combineOwn := combineOwn

def extend (referenceEquals : ReferenceEquals) :
    FeatureTaintFunction → FeatureTaintFunction → Option FeatureTaintFunction :=
  (problem referenceEquals).extend

def combine (referenceEquals : ReferenceEquals) :
    FeatureTaintFunction → FeatureTaintFunction → Option FeatureTaintFunction :=
  (problem referenceEquals).combine

/-! ### The labels of words and vectors -/

theorem mem_smallLabels {Facts : BitVec 64} {i : ℕ} : i ∈ smallLabels Facts ↔ Facts.getLsbD i = true := by
  rw [smallLabels, Finset.mem_filter, Finset.mem_range]
  exact and_iff_right_of_imp fun h => BitVec.lt_of_getLsbD h

theorem lt_bitWidth {Facts : BitVec 64} {i : ℕ} (h : Facts.getLsbD i = true) : i < bitWidth Facts := by
  rw [bitWidth, Nat.lt_size]
  exact Nat.ge_two_pow_of_testBit h

theorem smallLabels_or (a b : BitVec 64) : smallLabels (a ||| b) = smallLabels a ∪ smallLabels b := by
  ext i
  simp only [Finset.mem_union, mem_smallLabels, BitVec.getLsbD_or, Bool.or_eq_true]

theorem elems_setBitsInMask {s : SmallBitVector} {Mask : BitVec 64} (hle : bitWidth Mask ≤ s.Bits.length) :
    BitVector.elems (s.setBitsInMask Mask).Bits = BitVector.elems s.Bits ∪ smallLabels Mask := by
  ext i
  rw [BitVector.mem_elems, Finset.mem_union, BitVector.mem_elems, mem_smallLabels, BitVector.test, BitVector.test,
    SmallBitVector.setBitsInMask, List.getD_eq_getElem?_getD, List.getD_eq_getElem?_getD, List.getElem?_mapIdx]
  rcases lt_or_ge i s.Bits.length with hlt | hge
  · rw [List.getElem?_eq_getElem hlt]
    exact Bool.or_eq_true_iff
  · rw [List.getElem?_eq_none hge]
    have hbit : ¬Mask.getLsbD i = true := fun h => absurd (lt_bitWidth h) (not_lt.2 (hle.trans hge))
    simp [hbit]

theorem elems_resize {s : SmallBitVector} {N : ℕ} (hle : s.Bits.length ≤ N) :
    BitVector.elems (s.resize N).Bits = BitVector.elems s.Bits := by
  ext i
  rw [BitVector.mem_elems, BitVector.mem_elems, SmallBitVector.resize, BitVectorSet.test_resize hle]

theorem labels_unionWithBits (Fact : IDEFeatureTaintEdgeFact) (Facts : BitVec 64) :
    (Fact.unionWithBits Facts).labels = Fact.labels ∪ smallLabels Facts := by
  rw [unionWithBits, labels, labels]
  simp only []
  split_ifs with hgt
  · have hlength : bitWidth Facts ≤ (Fact.Taints.resize (bitWidth Facts)).Bits.length := by
      rw [SmallBitVector.resize, SmallBitVector.length_resize]
    rw [elems_setBitsInMask hlength, elems_resize hgt.le]
  · rw [elems_setBitsInMask (not_lt.1 hgt)]

theorem labels_fromBits (Bits : BitVec 64) : (fromBits Bits).labels = smallLabels Bits := by
  have hlength : bitWidth Bits ≤ (SmallBitVector.zeros (bitWidth Bits)).Bits.length := by
    rw [SmallBitVector.zeros, List.length_replicate]
  have hzeros : BitVector.elems (SmallBitVector.zeros (bitWidth Bits)).Bits = ∅ := by
    rw [← BitVector.none_iff, SmallBitVector.zeros, BitVector.none, List.all_eq_true]
    intro b hb
    rw [List.eq_of_mem_replicate hb]
    rfl
  rw [fromBits, labels, elems_setBitsInMask hlength, hzeros, Finset.empty_union]

theorem labels_unionWith {Fact Facts : IDEFeatureTaintEdgeFact} (htop : Facts.isTop = false) :
    (Fact.unionWith Facts).labels = Fact.labels ∪ Facts.labels := by
  rw [unionWith, htop, if_neg Bool.false_ne_true, labels, labels, labels]
  exact BitVector.elems_orBits _ _

theorem smallLabels_getSmallBits {s : SmallBitVector} (hsmall : s.isSmall = true) :
    smallLabels s.getSmallBits = BitVector.elems s.Bits := by
  ext i
  rw [mem_smallLabels, SmallBitVector.getSmallBits, BitVec.getLsbD_setWidth, BitVec.getLsbD_ofBoolListLE,
    BitVector.mem_elems, Bool.and_eq_true, decide_eq_true_iff]
  have hlength := s.length_le hsmall
  refine and_iff_right_of_imp fun h => ?_
  have hlt := BitVector.lt_of_test h
  omega

/-! ### The edge functions -/

theorem isSmall_of_isTop {Fact : IDEFeatureTaintEdgeFact} (htop : Fact.isTop = true) :
    Fact.Taints.isSmall = true := by
  rw [of_decide_eq_true htop]
  rfl

theorem genEF_spec (Facts : IDEFeatureTaintEdgeFact) :
    ∃ K, genEF Facts = own K ∧ toMap K = some (.const Facts.labels) := by
  by_cases hsmall : Facts.Taints.isSmall = true
  · refine ⟨generateSmallEF Facts.Taints.getSmallBits, if_pos hsmall, ?_⟩
    rw [toMap, smallLabels_getSmallBits hsmall, labels]
  · have htop : ¬Facts.isTop = true := fun h => hsmall (isSmall_of_isTop h)
    exact ⟨generateEF Facts, if_neg hsmall, if_neg htop⟩

theorem addEF_spec (Facts : IDEFeatureTaintEdgeFact) :
    ∃ K, addEF Facts = own K ∧ toMap K = some (.add Facts.labels) := by
  by_cases hsmall : Facts.Taints.isSmall = true
  · refine ⟨addSmallFactsEF Facts.Taints.getSmallBits, if_pos hsmall, ?_⟩
    rw [toMap, smallLabels_getSmallBits hsmall, labels]
  · have htop : ¬Facts.isTop = true := fun h => hsmall (isSmall_of_isTop h)
    exact ⟨addFactsEF Facts, if_neg hsmall, if_neg htop⟩

theorem labels_computeOwn {EF : FeatureTaintEF} {a : JoinMap (Finset ℕ)} (h : toMap EF = some a)
    (x : IDEFeatureTaintEdgeFact) : (domain.computeOwn EF x).labels = a.apply x.labels := by
  cases EF with
  | addFactsEF Facts =>
    rw [toMap] at h
    split_ifs at h
    cases h
    exact BitVector.elems_orBits _ _
  | generateEF Facts =>
    rw [toMap] at h
    split_ifs at h
    cases h
    rfl
  | addSmallFactsEF Facts =>
    cases h
    exact labels_unionWithBits x Facts
  | generateSmallEF Facts =>
    cases h
    exact labels_fromBits Facts

/-- An own function with a map is of the kind of its map. -/
theorem kind_of_toMap {EF : FeatureTaintEF} {a : JoinMap (Finset ℕ)} (h : toMap EF = some a) :
    (∃ c, a = .add c ∧ domain.isConstantOwn EF = false) ∨ ∃ c, a = .const c ∧ domain.isConstantOwn EF = true := by
  cases EF <;> rw [toMap] at h <;> (try split_ifs at h) <;> cases h
  · exact .inl ⟨_, rfl, rfl⟩
  · exact .inr ⟨_, rfl, rfl⟩
  · exact .inl ⟨_, rfl, rfl⟩
  · exact .inr ⟨_, rfl, rfl⟩

/-- The labels that a map adds, or replaces by. -/
def mapLabels : JoinMap (Finset ℕ) → Finset ℕ
  | .ident => ∅
  | .add c => c
  | .const c => c

/-- The labels that are extracted, in a word or in a vector that is not top. -/
theorem extractFacts_spec {EF : FeatureTaintEF} {a : JoinMap (Finset ℕ)} (h : toMap EF = some a) :
    (∃ Facts, extractFacts (own EF) = some (Facts, none) ∧ smallLabels Facts = mapLabels a) ∨
      ∃ Facts, extractFacts (own EF) = some (0, some Facts) ∧ Facts.isTop = false ∧ Facts.labels = mapLabels a := by
  cases EF with
  | addFactsEF Facts =>
    rw [toMap] at h
    split_ifs at h with htop
    cases h
    exact .inr ⟨Facts, rfl, Bool.not_eq_true _ ▸ htop, rfl⟩
  | generateEF Facts =>
    rw [toMap] at h
    split_ifs at h with htop
    cases h
    exact .inr ⟨Facts, rfl, Bool.not_eq_true _ ▸ htop, rfl⟩
  | addSmallFactsEF Facts =>
    cases h
    exact .inl ⟨Facts, rfl, rfl⟩
  | generateSmallEF Facts =>
    cases h
    exact .inl ⟨Facts, rfl, rfl⟩

theorem unionTaints_spec {EF EF' : FeatureTaintEF} {a b : JoinMap (Finset ℕ)} (h : toMap EF = some a)
    (h' : toMap EF' = some b) : ∃ Facts, unionTaints (own EF) (own EF') = some Facts ∧
      Facts.labels = mapLabels a ∪ mapLabels b := by
  rcases extractFacts_spec h with ⟨F, hF, hlabels⟩ | ⟨F, hF, -, hlabels⟩ <;>
    rcases extractFacts_spec h' with ⟨F', hF', hlabels'⟩ | ⟨F', hF', htop', hlabels'⟩ <;>
      rw [unionTaints, hF, hF', ← hlabels, ← hlabels'] <;> refine ⟨_, rfl, ?_⟩
  · rw [labels_fromBits, smallLabels_or]
  · rw [labels_unionWithBits, Finset.union_comm]
  · rw [labels_unionWithBits]
  · rw [labels_unionWith htop']

theorem extendOwn_spec {EF EF' : FeatureTaintEF} {a : JoinMap (Finset ℕ)} {b : Finset ℕ} (h : toMap EF = some a)
    (h' : toMap EF' = some (.add b)) :
    ∃ K, extendOwn (own EF) (own EF') = some (own K) ∧ toMap K = some (a.comp (.add b)) := by
  have hzero : (fromBits 0).labels = ∅ := by
    rw [labels_fromBits]
    rfl
  have hval : (domain.computeOwn EF' (domain.computeOwn EF (fromBits 0))).labels =
      (a.comp (.add b)).apply ∅ := by
    rw [labels_computeOwn h', labels_computeOwn h, hzero, JoinMap.comp_apply]
  rcases kind_of_toMap h with ⟨c, rfl, hconst⟩ | ⟨c, rfl, hconst⟩
  · obtain ⟨K, hK, hmap⟩ := addEF_spec (domain.computeOwn EF' (domain.computeOwn EF (fromBits 0)))
    refine ⟨K, (if_neg (ne_true_of_eq_false hconst)).trans (congrArg some hK), ?_⟩
    rw [hmap, hval]
    exact congrArg (fun labels => some (JoinMap.add labels)) (Finset.empty_union _)
  · obtain ⟨K, hK, hmap⟩ := genEF_spec (domain.computeOwn EF' (domain.computeOwn EF (fromBits 0)))
    refine ⟨K, (if_pos hconst).trans (congrArg some hK), ?_⟩
    rw [hmap, hval]
    rfl

theorem combineOwn_spec {EF EF' : FeatureTaintEF} {a b : JoinMap (Finset ℕ)} (h : toMap EF = some a)
    (h' : toMap EF' = some b) :
    ∃ K, combineOwn (own EF) (own EF') = some (own K) ∧ toMap K = some (a.join b) := by
  obtain ⟨Facts, hFacts, hlabels⟩ := unionTaints_spec h h'
  obtain ⟨G, hG, hgen⟩ := genEF_spec Facts
  obtain ⟨A, hA, hadd⟩ := addEF_spec Facts
  rw [hlabels] at hgen hadd
  rw [combineOwn, hFacts, Option.map_some, hG, hA]
  -- generating functions only when both are
  rcases kind_of_toMap h with ⟨c, rfl, hc⟩ | ⟨c, rfl, hc⟩ <;>
    rcases kind_of_toMap h' with ⟨d, rfl, hd⟩ | ⟨d, rfl, hd⟩ <;>
      simp only [LabelDomain.isConstant, hc, hd, Bool.and_self, Bool.and_true, Bool.and_false, if_true]
  · exact ⟨A, rfl, hadd⟩
  · exact ⟨A, rfl, hadd⟩
  · exact ⟨A, rfl, hadd⟩
  · exact ⟨G, rfl, hgen⟩

theorem labels_surjective : Function.Surjective labels := by
  intro S
  obtain ⟨bits, rfl⟩ := BitVector.exists_elems_eq S
  exact ⟨⟨⟨false, bits, fun h => absurd h Bool.false_ne_true⟩⟩, rfl⟩

/-- The edge functions add and replace label sets. -/
theorem refines (referenceEquals : ReferenceEquals) : (problem referenceEquals).Refines toMap where
  basic h := Option.isSome_iff_exists.1 h
  ne_ident h := by
    rcases kind_of_toMap h with ⟨_, rfl, -⟩ | ⟨_, rfl, -⟩ <;> simp
  computeOwn x h := labels_computeOwn h x
  isConstantOwn h := by
    rcases kind_of_toMap h with ⟨c, rfl, hconst⟩ | ⟨c, rfl, hconst⟩
    · exact iff_of_false (ne_true_of_eq_false hconst) (by simp)
    · exact iff_of_true hconst ⟨c, rfl⟩
  isSame h := by
    cases referenceEquals.eq_of_equals _ _ h
    rfl
  extendOwn h h' := extendOwn_spec h h'
  combineOwn h h' := combineOwn_spec h h'
  surjective := labels_surjective
  not_isTop {EF c} _ htop := by
    obtain ⟨i, hi⟩ := Infinite.exists_notMem_finset c
    exact hi (htop {i} (Finset.mem_singleton_self i))

end IDEFeatureTaintAnalysis

end Phasar
