import Phasar.WPDS.WPDSSolverResults

/-!
# Which results have the right weights

The memoised recursion over the records of calls is right when no seed is pushed and no entry is
pushed again before it is popped. For all other rules there are weights with which it is wrong: a
pushed seed forgets its callers, and an entry in progress adds the identity.

* `Correct`: the weights of all queries, in any order;
* `Transfer`: the weights that show a difference;
* `computeWeightAt_iff`: `Correct` for the rules without recursion, and only for them.
-/

set_option linter.unusedSectionVars false

namespace Phasar.WPDS

open WPDSSolver Deduction

section Correct

variable {CL SE W : Type*} [DecidableEq CL] [DecidableEq SE] [SemilatticeSup W]

/-- Every query returns the combine over the realizable sequences, whatever was queried before. -/
def Correct (RP : RuleProvider CL SE W) (SR : SemiRing W) (S : WPDSSolver CL SE W) : Prop :=
  ∀ cache, Queried SR S cache → ∀ n, (∃ src e, S.stored (src, n) = some e) →
    ∃ w cache', Returns SR S n cache w cache' ∧ IsFiniteJoin (weightsAt RP SR n) w

variable [DecidableEq W] {RP : RuleProvider CL SE W} {SR : SemiRing W} {S : WPDSSolver CL SE W}

theorem entries_ne_nil_iff {n : Node CL SE} :
    (S.pathEdges n).entries ≠ [] ↔ ∃ src e, S.stored (src, n) = some e := by
  constructor
  · intro h
    obtain ⟨⟨src, e⟩, hmem⟩ := List.exists_mem_of_ne_nil _ h
    exact ⟨src, e, (VecMap.mem_entries_iff _ _ _).1 hmem⟩
  · rintro ⟨src, e, he⟩
    exact List.ne_nil_of_mem ((VecMap.mem_entries_iff _ _ _).2 he)

variable (law : SR.Lawful) (hsup : ∀ a b, SR.combine a b = a ⊔ b)

include law hsup

theorem goodCache_init (h : WPDSSolver.Reachable RP SR S) (hrec : NonRecursive RP SR) :
    GoodCache RP SR S.createWeightCache ∧ ∀ p, S.createWeightCache p ≠ some none := by
  refine ⟨⟨fun s w hs => ?_, fun src v hv => ?_⟩, fun p hp => ?_⟩
  · cases hget : S.seeds.get? s with
    | none => exact absurd hs ((seeds_of_reachable hsup h s).1 hget w)
    | some v => exact ⟨v, by rw [createWeightCache, hget]; rfl⟩
  · obtain ⟨v', hget, hv'⟩ := Option.map_eq_some_iff.1 hv
    obtain rfl := Option.some.inj hv'
    have hjoin := (seeds_of_reachable hsup h src).2 v' hget
    obtain ⟨w, hw⟩ := hjoin.nonempty
    exact hjoin.congr (contextWeights_seed law hrec hw)
  · obtain ⟨v, -, hv⟩ := Option.map_eq_some_iff.1 hp
    cases hv

theorem correct_of_nonRecursive [Finite CL] [Finite SE] (h : WPDSSolver.Reachable RP SR S)
    (hempty : S.workList = [])
    (hrec : NonRecursive RP SR) : Correct RP SR S := by
  have hgood : ∀ cache, Queried SR S cache → GoodCache RP SR cache ∧ ∀ p, cache p ≠ some none := by
    intro cache hq
    induction hq with
    | init => exact goodCache_init law hsup h hrec
    | @query cache cache' n w _ hret ih =>
      obtain ⟨k, hk⟩ := hret
      by_cases hn : (S.pathEdges n).entries = []
      · have hres := hk k le_rfl
        rw [computeWeightAt, hn] at hres
        obtain ⟨-, rfl⟩ := Prod.mk.inj (Option.some.inj hres)
        exact ih
      · obtain ⟨k', hk'⟩ := computeWeightAt_good law hsup h hempty hrec hn
        obtain ⟨w', c', hw', -, hI⟩ := hk' (max k k') (le_max_right k k') cache ih
        rw [hk (max k k') (le_max_left k k')] at hw'
        obtain ⟨-, rfl⟩ := Prod.mk.inj (Option.some.inj hw')
        exact hI
  intro cache hq n hn
  obtain ⟨k, hk⟩ := computeWeightAt_good law hsup h hempty hrec (entries_ne_nil_iff.2 hn)
  obtain ⟨w, cache', hw, hjoin, -⟩ := hk k le_rfl cache (hgood cache hq)
  exact ⟨w, cache', ⟨k, fun fuel hfuel => computeWeightAt_mono SR hfuel hw⟩, hjoin⟩

end Correct

/-! ### Weights that show a difference -/

/-- The monotone functions on two values: a constant, the identity, the other constant. -/
inductive Transfer
  | bottom
  | identity
  | top
  deriving DecidableEq

namespace Transfer

instance : Fintype Transfer := ⟨{.bottom, .identity, .top}, fun t => by cases t <;> decide⟩

/-- The first function, then the second. -/
def extend (a : Transfer) : Transfer → Transfer
  | .identity => a
  | b => b

def combine : Transfer → Transfer → Transfer
  | .top, _ => .top
  | .identity, .top => .top
  | .identity, _ => .identity
  | .bottom, b => b

def ring : SemiRing Transfer := ⟨extend, combine, identity⟩

theorem lawful : ring.Lawful := by
  constructor <;> decide

instance : SemilatticeSup Transfer := lawful.semilattice

theorem le_identity_iff {a : Transfer} : a ≤ .identity ↔ a ≠ .top := by
  have key : ∀ a : Transfer, combine a .identity = .identity ↔ a ≠ .top := by decide
  exact key a

theorem extend_le_identity {a b : Transfer} (ha : a ≤ .identity) (hb : b ≤ .identity) :
    extend a b ≤ .identity := by
  have key : ∀ a b : Transfer, combine a .identity = .identity → combine b .identity = .identity →
      combine (extend a b) .identity = .identity := by decide
  exact key a b ha hb

theorem identity_le_extend {a b : Transfer} (ha : .identity ≤ a) (hb : .identity ≤ b) :
    .identity ≤ extend a b := by
  have key : ∀ a b : Transfer, combine .identity a = a → combine .identity b = b →
      combine .identity (extend a b) = extend a b := by decide
  exact key a b ha hb

end Transfer

/-- The rules without their weights. -/
def RuleProvider.forget {CL SE W : Type*} (RP : RuleProvider CL SE W) : RuleProvider CL SE Unit where
  getNormalRules n := (RP.getNormalRules n).map fun rule => (rule.1, ())
  getPushRules n := (RP.getPushRules n).map fun p => ⟨p.succFact, p.retSite, p.entrySE, ()⟩
  hasPopRules := RP.hasPopRules
  getPopRules n ret entry := (RP.getPopRules n ret entry).map fun pop => (pop.1, ())
  initialSeeds := RP.initialSeeds.map fun seed => (seed.1, ())
  makeSrcFacts := RP.makeSrcFacts

/-- The same rules with other weights: seeds are constant, pushes depend on the pushed node. -/
def RuleProvider.reweigh {CL SE W : Type*} (RP : RuleProvider CL SE W) (push : Node CL SE → Transfer)
    (pop : Transfer) : RuleProvider CL SE Transfer where
  getNormalRules n := (RP.getNormalRules n).map fun rule => (rule.1, .identity)
  getPushRules n := (RP.getPushRules n).map fun p =>
    ⟨p.succFact, p.retSite, p.entrySE, push (p.succFact, p.entrySE)⟩
  hasPopRules := RP.hasPopRules
  getPopRules n ret entry := (RP.getPopRules n ret entry).map fun rule => (rule.1, pop)
  initialSeeds := RP.initialSeeds.map fun seed => (seed.1, .bottom)
  makeSrcFacts := RP.makeSrcFacts

section Reweigh

variable {CL SE W : Type*} {RP : RuleProvider CL SE W} {SR : SemiRing W}
    {push : Node CL SE → Transfer} {pop : Transfer}

theorem forget_reweigh : (RP.reweigh push pop).forget = RP.forget := by
  simp [RuleProvider.forget, RuleProvider.reweigh, Function.comp_def]

theorem mem_pushes_reweigh {n : Node CL SE} {q : PushRule CL SE Transfer} {real : CL} :
    (q, real) ∈ pushes (RP.reweigh push pop) n ↔ ∃ p, (p, real) ∈ pushes RP n ∧
      q = ⟨p.succFact, p.retSite, p.entrySE, push (p.succFact, p.entrySE)⟩ := by
  simp only [pushes, RuleProvider.reweigh, RuleProvider.srcFacts, List.mem_flatMap, List.mem_map,
    Prod.mk.injEq]
  constructor
  · rintro ⟨_, ⟨p, hp, rfl⟩, real, hreal, rfl, rfl⟩
    exact ⟨p, ⟨p, hp, real, hreal, rfl, rfl⟩, rfl⟩
  · rintro ⟨p, ⟨p, hp, real, hreal, rfl, rfl⟩, rfl⟩
    exact ⟨_, ⟨p, hp, rfl⟩, real, hreal, rfl, rfl⟩

theorem SameLevel.reweigh {src n : Node CL SE} {w : W} (push : Node CL SE → Transfer) (pop : Transfer)
    (h : SameLevel RP SR src n w) :
    ∃ v, SameLevel (RP.reweigh push pop) Transfer.ring src n v := by
  induction h with
  | seed hseed => exact ⟨_, .seed (List.mem_map.2 ⟨_, hseed, rfl⟩)⟩
  | entry _ hp ih =>
    obtain ⟨v, hv⟩ := ih
    exact ⟨_, hv.entry (mem_pushes_reweigh.2 ⟨_, hp, rfl⟩)⟩
  | normal _ hrule ih =>
    obtain ⟨v, hv⟩ := ih
    exact ⟨_, hv.normal (List.mem_map.2 ⟨_, hrule, rfl⟩)⟩
  | call _ hp _ hpop hmem ih₁ ih₂ =>
    obtain ⟨v₁, hv₁⟩ := ih₁
    obtain ⟨v₂, hv₂⟩ := ih₂
    exact ⟨_, hv₁.call (mem_pushes_reweigh.2 ⟨_, hp, rfl⟩) hv₂ hpop (List.mem_map.2 ⟨_, hmem, rfl⟩)⟩

theorem Calls.reweigh {src entry : Node CL SE} (push : Node CL SE → Transfer) (pop : Transfer)
    (h : Calls RP SR src entry) :
    Calls (RP.reweigh push pop) Transfer.ring src entry := by
  obtain ⟨n, w, p, real, hs, hp, rfl⟩ := h
  obtain ⟨v, hv⟩ := hs.reweigh push pop
  exact ⟨n, v, _, real, hv, mem_pushes_reweigh.2 ⟨p, hp, rfl⟩, rfl⟩

end Reweigh

/-! ### Bounds of the computed weights -/

section Bounds

variable {CL SE W : Type*} [DecidableEq CL] [DecidableEq SE] [SemilatticeSup W] {SR : SemiRing W}
  (hsup : ∀ a b, SR.combine a b = a ⊔ b)

include hsup

/-- The result of `mapCombine` is above the values of all elements, and below every bound of them and the
identity. -/
theorem mapCombine_bounds {α C : Type*} {transform : α → C → Option (W × C)} {I : C → Prop}
    {P : α → W → Prop}
    {l : List α} (h : ∀ a ∈ l, ∀ c w c', I c → transform a c = some (w, c') → I c' ∧ P a w)
      {c c' : C} {w : W}
    (hc : I c) (hw : mapCombine SR transform l c = some (w, c')) :
    I c' ∧ (∀ a ∈ l, ∃ v, P a v ∧ v ≤ w) ∧ ∀ b, SR.identity ≤ b →
      (∀ a ∈ l, ∀ v, P a v → v ≤ b) → w ≤ b := by
  have key : ∀ (l : List α) (ret : W) (c : C),
    (∀ a ∈ l, ∀ c w c', I c → transform a c = some (w, c') → I c' ∧ P a w) →
      I c → combineRest SR transform l ret c = some (w, c') →
      I c' ∧ ret ≤ w ∧ (∀ a ∈ l, ∃ v, P a v ∧ v ≤ w) ∧ ∀ b, ret ≤ b →
        (∀ a ∈ l, ∀ v, P a v → v ≤ b) → w ≤ b := by
    intro l
    induction l with
    | nil =>
      intro ret c _ hc hw
      obtain ⟨rfl, rfl⟩ := Prod.mk.inj (Option.some.inj hw)
      exact ⟨hc, le_rfl, by simp, fun b hb _ => hb⟩
    | cons a l ih =>
      intro ret c h hc hw
      obtain ⟨ha, hl⟩ := List.forall_mem_cons.1 h
      obtain ⟨⟨v, c₁⟩, hv, hrest⟩ := Option.bind_eq_some_iff.1 hw
      obtain ⟨hc₁, hPv⟩ := ha c v c₁ hc hv
      obtain ⟨hc', hle, hall, hub⟩ := ih (SR.combine ret v) c₁ hl hc₁ hrest
      rw [hsup] at hle
      refine ⟨hc', le_sup_left.trans hle, List.forall_mem_cons.2 ⟨⟨v, hPv, le_sup_right.trans hle⟩, hall⟩,
        fun b hb hP => ?_⟩
      obtain ⟨hPa, hPl⟩ := List.forall_mem_cons.1 hP
      exact hub b (by rw [hsup]; exact sup_le hb (hPa v hPv)) hPl
  cases l with
  | nil =>
    obtain ⟨rfl, rfl⟩ := Prod.mk.inj (Option.some.inj hw)
    exact ⟨hc, by simp, fun b hb _ => hb⟩
  | cons a l =>
    obtain ⟨ha, hl⟩ := List.forall_mem_cons.1 h
    obtain ⟨⟨v, c₁⟩, hv, hrest⟩ := Option.bind_eq_some_iff.1 hw
    obtain ⟨hc₁, hPv⟩ := ha c v c₁ hc hv
    obtain ⟨hc', hle, hall, hub⟩ := key l v c₁ hl hc₁ hrest
    refine ⟨hc', List.forall_mem_cons.2 ⟨⟨v, hPv, hle⟩, hall⟩, fun b _ hP => ?_⟩
    obtain ⟨hPa, hPl⟩ := List.forall_mem_cons.1 hP
    exact hub b (hPa v hPv) hPl

/-- An invariant of the cache, and of the weights of the sources. -/
theorem computeWeightAtRec_rule {S : WPDSSolver CL SE W} {I : ComputeWeightsCache CL SE W → Prop}
    {Q : Node CL SE → W → Prop}
    (hcached : ∀ cache src w, I cache → cache src = some (some w) → Q src w)
    (hprogress : ∀ cache src, I cache → cache src = some none → Q src SR.identity)
    (henter : ∀ cache src, I cache → cache src = none → I (Function.update cache src (some none)))
    (hleave : ∀ cache src w, I cache → Q src w → I (Function.update cache src (some (some w))))
    (hcombine : ∀ cache src w, I cache → cache src = none →
      (∀ inc ∈ (S.incoming src).entries, ∃ v, Q inc.1.1 v ∧ SR.extend v inc.2 ≤ w) →
      (∀ b, SR.identity ≤ b →
        (∀ inc ∈ (S.incoming src).entries, ∀ v, Q inc.1.1 v → SR.extend v inc.2 ≤ b) → w ≤ b) →
      Q src w)
    {fuel : ℕ} {src : Node CL SE} {cache cache' : ComputeWeightsCache CL SE W} {w : W} (hI : I cache)
    (h : computeWeightAtRec SR S fuel src cache = some (w, cache')) : I cache' ∧ Q src w := by
  induction fuel generalizing src cache cache' w with
  | zero => cases h
  | succ fuel ih =>
    rw [computeWeightAtRec] at h
    rcases hc : cache src with _ | _ | v
    · simp only [hc] at h
      obtain ⟨⟨ret, c'⟩, hret, heq⟩ := Option.map_eq_some_iff.1 h
      obtain ⟨rfl, rfl⟩ := Prod.mk.inj heq
      obtain ⟨hI', hge, hle⟩ := mapCombine_bounds hsup (I := I)
        (P := fun inc x => ∃ v, Q inc.1.1 v ∧ x = SR.extend v inc.2) (fun inc _ c x c'' hIc hx => by
          obtain ⟨⟨v, c₁⟩, hv, heq⟩ := Option.map_eq_some_iff.1 hx
          obtain ⟨rfl, rfl⟩ := Prod.mk.inj heq
          obtain ⟨hI₁, hQ⟩ := ih hIc hv
          exact ⟨hI₁, v, hQ, rfl⟩) (henter _ _ hI hc) hret
      have hQ : Q src ret := by
        refine hcombine cache src ret hI hc (fun inc hinc => ?_) fun b hb hall =>
          hle b hb fun inc hinc x hx => ?_
        · obtain ⟨x, ⟨v, hv, rfl⟩, hx⟩ := hge inc hinc
          exact ⟨v, hv, hx⟩
        · obtain ⟨v, hv, rfl⟩ := hx
          exact hall inc hinc v hv
      exact ⟨hleave _ _ _ hI' hQ, hQ⟩
    · simp only [hc, Option.some.injEq, Prod.mk.injEq] at h
      obtain ⟨rfl, rfl⟩ := h
      exact ⟨hI, hprogress _ _ hI hc⟩
    · simp only [hc, Option.some.injEq, Prod.mk.injEq] at h
      obtain ⟨rfl, rfl⟩ := h
      exact ⟨hI, hcached _ _ _ hI hc⟩

end Bounds

/-! ### Rules with recursion -/

section Recursive

variable {CL SE W : Type*} [DecidableEq CL] [DecidableEq SE] [DecidableEq W] {RP : RuleProvider CL SE W}
  {SR : SemiRing W}

omit [DecidableEq CL] [DecidableEq SE] [DecidableEq W] in
theorem exists_context {src n : Node CL SE} {w : W} (h : SameLevel RP SR src n w) :
    ∃ s ws u, (s, ws) ∈ RP.initialSeeds ∧ Context RP SR s src u := by
  induction h with
  | seed hseed => exact ⟨_, _, _, hseed, .nil hseed⟩
  | entry hs hp ih =>
    obtain ⟨s, ws, u, hseed, hctx⟩ := ih
    exact ⟨s, ws, _, hseed, hctx.push hs hp⟩
  | normal _ _ ih => exact ih
  | call _ _ _ _ _ ih => exact ih

variable {push : Node CL SE → Transfer} {pop : Transfer} {S : WPDSSolver CL SE Transfer}

omit [DecidableEq CL] [DecidableEq SE] [DecidableEq W] in
theorem mem_seeds_reweigh {s : Node CL SE} {w : Transfer} :
    (s, w) ∈ (RP.reweigh push pop).initialSeeds ↔ w = .bottom ∧ ∃ v, (s, v) ∈ RP.initialSeeds := by
  constructor
  · intro h
    obtain ⟨⟨s', v⟩, hmem, heq⟩ := List.mem_map.1 h
    obtain ⟨rfl, rfl⟩ := Prod.mk.inj heq
    exact ⟨rfl, v, hmem⟩
  · rintro ⟨rfl, v, hv⟩
    exact List.mem_map.2 ⟨_, hv, rfl⟩

/-- The fresh cache has the seeds, with the weight of the seeds. -/
theorem createWeightCache_reweigh (hS : WPDSSolver.Reachable (RP.reweigh push pop) Transfer.ring S)
    (src : Node CL SE) :
    (∀ v, S.createWeightCache src = some (some v) → v = .bottom ∧ ∃ w, (src, w) ∈ RP.initialSeeds) ∧
      ∀ w, (src, w) ∈ RP.initialSeeds → ∃ v, S.createWeightCache src = some (some v) := by
  refine ⟨fun v hv => ?_, fun w hw => ?_⟩
  · obtain ⟨v', hget, hv'⟩ := Option.map_eq_some_iff.1 hv
    obtain rfl := Option.some.inj hv'
    have hjoin := (seeds_of_reachable (fun _ _ => rfl) hS src).2 v' hget
    obtain ⟨w, hw⟩ := hjoin.nonempty
    have hbot : IsFiniteJoin {Transfer.bottom} v' := hjoin.congr fun w' =>
      ⟨fun h => (mem_seeds_reweigh.1 h).1, fun h => mem_seeds_reweigh.2 ⟨h, (mem_seeds_reweigh.1 hw).2⟩⟩
    exact ⟨hbot.unique (IsFiniteJoin.singleton _), (mem_seeds_reweigh.1 hw).2⟩
  · cases hget : S.seeds.get? src with
    | none =>
      exact absurd (mem_seeds_reweigh.2 ⟨rfl, w, hw⟩)
        ((seeds_of_reachable (fun _ _ => rfl) hS src).1 hget .bottom)
    | some v => exact ⟨v, by rw [createWeightCache, hget]; rfl⟩

/-- A pushed seed: its pushes have the weight `top`, which its own weight hides. -/
theorem not_correct_of_pushed_seed (hplain : RP.makeSrcFacts = none) {src s : Node CL SE} {w₀ : W}
    (hs : (s, w₀) ∈ RP.initialSeeds) (hcall : Calls RP SR src s)
    (hS : WPDSSolver.Reachable
      (RP.reweigh (fun n => if n = s then .top else .identity) .bottom) Transfer.ring S)
    (hempty : S.workList = []) :
    ¬ Correct (RP.reweigh (fun n => if n = s then .top else .identity) .bottom) Transfer.ring S := by
  set RP' := RP.reweigh (fun n => if n = s then .top else .identity) .bottom with hRP'
  have hexact := exact_of_reachable Transfer.lawful hS hempty
  have hpush : ∀ {n q real}, (q, real) ∈ pushes RP' n →
      q.weight = if (real, q.entrySE) = s then Transfer.top else .identity := by
    intro n q real hq
    obtain ⟨p, hp, rfl⟩ := mem_pushes_reweigh.1 hq
    rw [((mem_pushes_iff hplain).1 hp).2]
  have hlevel : ∀ {a n v}, SameLevel RP' Transfer.ring a n v → v ≤ .identity := by
    intro a n v hv
    induction hv with
    | seed => exact le_rfl
    | entry => exact le_rfl
    | normal _ hrule ih =>
      obtain ⟨rule, -, heq⟩ := List.mem_map.1 hrule
      obtain ⟨-, rfl⟩ := Prod.mk.inj heq
      exact Transfer.extend_le_identity ih le_rfl
    | call _ _ _ _ hmem _ _ =>
      obtain ⟨rule, -, rfl⟩ := List.mem_map.1 hmem
      exact (show Transfer.bottom ≤ .identity from rfl)
  have hrecord : ∀ a, a ≠ s → ∀ inc ∈ (S.incoming a).entries, inc.2 ≤ .identity := by
    rintro a ha ⟨⟨csSrc, ret⟩, i⟩ hinc
    have hjoin := incoming_of_reachable Transfer.lawful (fun _ _ => rfl) hS hempty
      ((VecMap.mem_entries_iff _ _ _).1 hinc)
    refine (isLUB_le_iff hjoin.isLUB).2 ?_
    intro x hx
    obtain ⟨n, p, v, hsl, hp, hentry, -, rfl⟩ := mem_callWeights.1 hx
    have hweight := hpush hp
    rw [← hentry, if_neg ha] at hweight
    rw [hweight]
    exact Transfer.extend_le_identity (hlevel hsl) le_rfl
  -- the seed is cached for good
  set I : ComputeWeightsCache CL SE Transfer → Prop := fun c =>
    (∃ v, c s = some (some v)) ∧ ∀ a v, c a = some (some v) → v ≤ Transfer.identity with hI
  have hrec : ∀ {fuel a c w c'}, I c → computeWeightAtRec Transfer.ring S fuel a c = some (w, c') →
      I c' ∧ w ≤ Transfer.identity := by
    intro fuel a c w c' hc h
    refine computeWeightAtRec_rule (fun _ _ => rfl) (I := I) (Q := fun _ v => v ≤ Transfer.identity)
      (fun c a v hc hv => hc.2 a v hv) (fun _ _ _ _ => le_rfl) (fun c a hc ha => ?_)
        (fun c a v hc hv => ?_)
      (fun c a v hc ha _ hle => ?_) hc h
    · obtain ⟨v, hv⟩ := hc.1
      have hne : s ≠ a := by
        rintro rfl
        rw [ha] at hv
        cases hv
      refine ⟨⟨v, by rw [Function.update_of_ne hne, hv]⟩, fun a' v' hv' => ?_⟩
      by_cases haa : a' = a
      · rw [haa, Function.update_self] at hv'
        cases hv'
      · rw [Function.update_of_ne haa] at hv'
        exact hc.2 a' v' hv'
    · refine ⟨?_, fun a' v' hv' => ?_⟩
      · by_cases hsa : s = a
        · exact ⟨v, by rw [hsa, Function.update_self]⟩
        · obtain ⟨v', hv'⟩ := hc.1
          exact ⟨v', by rw [Function.update_of_ne hsa, hv']⟩
      · by_cases haa : a' = a
        · rw [haa, Function.update_self, Option.some.injEq, Option.some.injEq] at hv'
          exact hv' ▸ hv
        · rw [Function.update_of_ne haa] at hv'
          exact hc.2 a' v' hv'
    · have hne : a ≠ s := by
        rintro rfl
        obtain ⟨v, hv⟩ := hc.1
        rw [ha] at hv
        cases hv
      exact hle _ le_rfl fun inc hinc x hx => Transfer.extend_le_identity hx (hrecord a hne inc hinc)
  have hinit : I S.createWeightCache := by
    refine ⟨(createWeightCache_reweigh hS s).2 w₀ hs, fun a v hv => ?_⟩
    rw [((createWeightCache_reweigh hS a).1 v hv).1]
    exact (show Transfer.bottom ≤ .identity from rfl)
  intro hcorrect
  have hss : SameLevel RP' Transfer.ring s s .identity := .seed (mem_seeds_reweigh.2 ⟨rfl, w₀, hs⟩)
  obtain ⟨e, he⟩ := Option.ne_none_iff_exists'.1 ((hexact s s).1.2 ⟨_, hss⟩)
  obtain ⟨w, cache', ⟨k, hk⟩, hjoin⟩ := hcorrect _ .init s ⟨s, e, he⟩
  have hw : w ≤ Transfer.identity := by
    refine (mapCombine_bounds (fun _ _ => rfl) (I := I) (P := fun _ x => x ≤ Transfer.identity)
      (fun edge hedge c x c' hc hx => ?_) hinit (hk k le_rfl)).2.2 _ le_rfl fun _ _ _ hx => hx
    obtain ⟨⟨v, c₁⟩, hv, heq⟩ := Option.map_eq_some_iff.1 hx
    obtain ⟨rfl, rfl⟩ := Prod.mk.inj heq
    obtain ⟨hc₁, hv'⟩ := hrec hc hv
    have hstored : S.stored (edge.1, s) = some edge.2 := (VecMap.mem_entries_iff _ _ _).1 hedge
    exact ⟨hc₁, Transfer.extend_le_identity hv'
      ((isLUB_le_iff ((hexact edge.1 s).2 _ hstored).isLUB).2 fun v hv =>
      hlevel hv)⟩
  -- the callers of the seed give `top`
  obtain ⟨n, v, p, real, hsl, hp, heq⟩ :=
    hcall.reweigh (fun n => if n = s then .top else .identity) .bottom
  obtain ⟨s₀, ws, u, hs₀, hctx⟩ := exists_context hsl
  have htop : p.weight = .top := by rw [hpush hp, ← heq, if_pos rfl]
  have hpushed := hctx.push hsl hp
  rw [← heq, htop] at hpushed
  have hmem : Transfer.top ∈ weightsAt RP' Transfer.ring s :=
    ⟨s₀, ws, _, hs₀, ⟨s, _, _, hpushed, hss, rfl⟩, rfl⟩
  exact absurd ((hjoin.le _ hmem).trans hw) (by rw [Transfer.le_identity_iff]; simp)

section Identity

variable {RP : RuleProvider CL SE W} {n src : Node CL SE} {w : Transfer}

omit [DecidableEq CL] [DecidableEq SE] [DecidableEq W]

theorem weight_pushes_identity {q : PushRule CL SE Transfer} {real : CL}
    (h : (q, real) ∈ pushes (RP.reweigh (fun _ => .identity) .identity) n) : q.weight = .identity := by
  obtain ⟨p, -, rfl⟩ := mem_pushes_reweigh.1 h
  rfl

theorem SameLevel.eq_identity
    (h : SameLevel (RP.reweigh (fun _ => .identity) .identity) Transfer.ring src n w) :
    w = .identity := by
  induction h with
  | seed => rfl
  | entry => rfl
  | normal _ hrule ih =>
    obtain ⟨rule, -, heq⟩ := List.mem_map.1 hrule
    obtain ⟨-, rfl⟩ := Prod.mk.inj heq
    exact ih
  | call _ hp _ _ hmem ih₁ ih₂ =>
    obtain ⟨rule, -, rfl⟩ := List.mem_map.1 hmem
    rw [ih₁, ih₂, weight_pushes_identity hp]
    rfl

theorem Context.eq_identity {s : Node CL SE}
    (h : Context (RP.reweigh (fun _ => .identity) .identity) Transfer.ring s src w) : w = .identity := by
  induction h with
  | nil => rfl
  | push _ hsl hp ih =>
    rw [ih, hsl.eq_identity, weight_pushes_identity hp]
    rfl

/-- Without other weights the constant weight of the seed stays. -/
theorem eq_bottom_of_mem_weightsAt
    (h : w ∈ weightsAt (RP.reweigh (fun _ => .identity) .identity) Transfer.ring n) : w = .bottom := by
  obtain ⟨s, ws, _, hs, ⟨src, u, v, hctx, hsl, rfl⟩, rfl⟩ := h
  rw [hctx.eq_identity, hsl.eq_identity, (mem_seeds_reweigh.1 hs).1]
  rfl

end Identity

/-- A cycle of calls without pushed seeds: all weights are the identity, which an entry in progress
adds to the constant weights of the seeds. -/
theorem not_correct_of_cycle (hseeds : ∀ src s w, (s, w) ∈ RP.initialSeeds → ¬ Calls RP SR src s)
    {a : Node CL SE}
    (hcycle : Relation.TransGen (Calls RP SR) a a)
    (hS : WPDSSolver.Reachable (RP.reweigh (fun _ => .identity) .identity) Transfer.ring S)
      (hempty : S.workList = []) :
    ¬ Correct (RP.reweigh (fun _ => .identity) .identity) Transfer.ring S := by
  set RP' := RP.reweigh (fun _ => .identity) .identity with hRP'
  have hexact := exact_of_reachable Transfer.lawful hS hempty
  -- the entries of the cycle and of the calls between them
  set X : Set (Node CL SE) :=
    {y | Relation.ReflTransGen (Calls RP SR) y a ∧ Relation.TransGen (Calls RP SR) a y} with hX
  have hnoseed : ∀ y ∈ X, ∀ w, (y, w) ∉ RP.initialSeeds := by
    rintro y ⟨-, hy⟩ w hw
    obtain ⟨z, -, hz⟩ := Relation.TransGen.tail'_iff.1 hy
    exact hseeds z y w hw hz
  have hpred : ∀ y ∈ X, ∃ inc ∈ (S.incoming y).entries, inc.1.1 ∈ X ∧ Transfer.identity ≤ inc.2 := by
    rintro y ⟨hya, hay⟩
    obtain ⟨z, haz, hz⟩ := Relation.TransGen.tail'_iff.1 hay
    have hzX : z ∈ X := by
      refine ⟨.head hz hya, ?_⟩
      rcases Relation.reflTransGen_iff_eq_or_transGen.1 haz with rfl | haz
      · exact hcycle
      · exact haz
    obtain ⟨n, v, p, real, hsl, hp, rfl⟩ := hz.reweigh (fun _ => .identity) .identity
    obtain ⟨i, hi⟩ := exists_incoming Transfer.lawful (fun _ _ => rfl) hS hempty hsl hp
    have hjoin := incoming_of_reachable Transfer.lawful (fun _ _ => rfl) hS hempty hi
    refine ⟨((z, p.retSite), i), (VecMap.mem_entries_iff _ _ _).2 hi, hzX, ?_⟩
    have hle := hjoin.le _ (mem_callWeights.2 ⟨n, p, v, hsl, hp, rfl, rfl, rfl⟩)
    rwa [hsl.eq_identity, weight_pushes_identity hp] at hle
  set I : ComputeWeightsCache CL SE Transfer → Prop := fun c =>
    ∀ y ∈ X, ∀ v, c y = some (some v) → Transfer.identity ≤ v with hI
  have hrec : ∀ {fuel y c w c'}, I c → computeWeightAtRec Transfer.ring S fuel y c = some (w, c') →
      I c' ∧ (y ∈ X → Transfer.identity ≤ w) := by
    intro fuel y c w c' hc h
    refine computeWeightAtRec_rule (fun _ _ => rfl) (I := I)
      (Q := fun y v => y ∈ X → Transfer.identity ≤ v)
      (fun c y v hc hv hy => hc y hy v hv) (fun _ _ _ _ _ => le_rfl) (fun c y hc _ y' hy' v hv => ?_)
      (fun c y v hc hv y' hy' v' hv' => ?_) (fun c y v _ _ hge _ hy => ?_) hc h
    · by_cases hyy : y' = y
      · rw [hyy, Function.update_self] at hv
        cases hv
      · rw [Function.update_of_ne hyy] at hv
        exact hc y' hy' v hv
    · by_cases hyy : y' = y
      · rw [hyy, Function.update_self, Option.some.injEq, Option.some.injEq] at hv'
        exact hv' ▸ hv (hyy ▸ hy')
      · rw [Function.update_of_ne hyy] at hv'
        exact hc y' hy' v' hv'
    · obtain ⟨inc, hinc, hincX, hle⟩ := hpred y hy
      obtain ⟨x, hx, hxv⟩ := hge inc hinc
      exact (Transfer.identity_le_extend (hx hincX) hle).trans hxv
  have hinit : I S.createWeightCache := by
    intro y hy v hv
    obtain ⟨-, w, hw⟩ := (createWeightCache_reweigh hS y).1 v hv
    exact absurd hw (hnoseed y hy w)
  intro hcorrect
  -- the node that an entry of the cycle starts with
  have haX : a ∈ X := ⟨.refl, hcycle⟩
  obtain ⟨z, -, hz⟩ := Relation.TransGen.tail'_iff.1 hcycle
  obtain ⟨n, v, p, real, hsl, hp, rfl⟩ := hz.reweigh (fun _ => .identity) .identity
  have hstart := hsl.entry hp
  obtain ⟨e, he⟩ := Option.ne_none_iff_exists'.1 ((hexact _ _).1.2 ⟨_, hstart⟩)
  obtain ⟨w, cache', ⟨k, hk⟩, hjoin⟩ := hcorrect _ .init (p.succFact, p.entrySE) ⟨_, e, he⟩
  obtain ⟨x, hx, hxw⟩ := (mapCombine_bounds (fun _ _ => rfl) (I := I)
    (P := fun edge x => edge.1 ∈ X → Transfer.identity ≤ edge.2 → Transfer.identity ≤ x)
    (fun edge hedge c x c' hc hx => by
      obtain ⟨⟨v, c₁⟩, hv, heq⟩ := Option.map_eq_some_iff.1 hx
      obtain ⟨rfl, rfl⟩ := Prod.mk.inj heq
      obtain ⟨hc₁, hv'⟩ := hrec hc hv
      exact ⟨hc₁, fun hX he => Transfer.identity_le_extend (hv' hX) he⟩) hinit (hk k le_rfl)).2.1 _
    ((VecMap.mem_entries_iff _ _ _).2 he)
  have hw : Transfer.identity ≤ w := (hx haX (((hexact _ _).2 e he).le _ hstart)).trans hxw
  obtain ⟨x, hx⟩ := hjoin.nonempty
  have hbottom : IsFiniteJoin {Transfer.bottom} w := hjoin.congr fun y =>
    ⟨eq_bottom_of_mem_weightsAt,
      fun hy => by rwa [Set.mem_singleton_iff.1 hy, ← eq_bottom_of_mem_weightsAt hx]⟩
  rw [hbottom.unique (IsFiniteJoin.singleton _)] at hw
  cases (show Transfer.identity = .bottom from hw)

end Recursive

/-- A call of a function; with `recursive` it calls itself. The seed is constant. -/
def callRules (recursive : Bool) : RuleProvider Unit Place Transfer where
  getNormalRules n := if n.2 = .entry then [(((), .exit), .identity)] else []
  getPushRules n := if n.2 = .call then [⟨(), .ret, .entry, .identity⟩]
    else if n.2 = .entry ∧ recursive then [⟨(), .exit, .entry, .identity⟩] else []
  hasPopRules n := n.2 = .exit
  getPopRules _ _ _ := [((), .identity)]
  initialSeeds := [(((), .call), .bottom)]
  makeSrcFacts := none

theorem mem_pushes_callRules {recursive : Bool} {n : Node Unit Place}
    {p : PushRule Unit Place Transfer}
    {real : Unit} (h : (p, real) ∈ pushes (callRules recursive) n) :
    (n.2 = .call ∨ n.2 = .entry ∧ recursive = true) ∧ p.entrySE = .entry ∧
      (n.2 = .call → p.retSite = .ret) := by
  have hp := ((mem_pushes_iff rfl).1 h).1
  simp only [callRules] at hp
  split_ifs at hp with h₀ h₂
  · rw [List.mem_singleton.1 hp]
    exact ⟨Or.inl h₀, rfl, fun _ => rfl⟩
  · rw [List.mem_singleton.1 hp]
    exact ⟨Or.inr h₂, rfl, fun h => absurd h h₀⟩
  · cases hp

theorem nonRecursive_callRules : NonRecursive (callRules false) Transfer.ring := by
  -- a path stays in the caller, or in the callee
  have hlevel : ∀ {src n w}, SameLevel (callRules false) Transfer.ring src n w →
      (src.2 = .call ∧ (n.2 = .call ∨ n.2 = .ret)) ∨
        (src.2 = .entry ∧ (n.2 = .entry ∨ n.2 = .exit)) := by
    intro src n w h
    induction h with
    | seed hs =>
      obtain ⟨rfl, -⟩ := Prod.mk.inj (List.mem_singleton.1 hs)
      exact Or.inl ⟨rfl, Or.inl rfl⟩
    | entry _ hp _ =>
      have hentry := (mem_pushes_callRules hp).2.1
      exact Or.inr ⟨hentry, Or.inl hentry⟩
    | normal _ hrule ih =>
      simp only [callRules] at hrule
      split_ifs at hrule with h₂
      · obtain ⟨rfl, -⟩ := Prod.mk.inj (List.mem_singleton.1 hrule)
        rcases ih with ⟨-, h | h⟩ | ⟨hsrc, -⟩
        · rw [h] at h₂
          cases h₂
        · rw [h] at h₂
          cases h₂
        · exact Or.inr ⟨hsrc, Or.inr rfl⟩
      · cases hrule
    | call _ hp _ _ _ ih _ =>
      obtain ⟨hn, -, hret⟩ := mem_pushes_callRules hp
      have hn : _ = Place.call := hn.resolve_right (by simp)
      rcases ih with ⟨hsrc, -⟩ | ⟨-, h | h⟩
      · exact Or.inl ⟨hsrc, Or.inr (hret hn)⟩
      · rw [h] at hn
        cases hn
      · rw [h] at hn
        cases hn
  -- so calls lead from the caller to the callee only
  have hcalls : ∀ {src entry}, Calls (callRules false) Transfer.ring src entry →
      src.2 = .call ∧ entry.2 = .entry := by
    rintro src _ ⟨n, w, p, real, hsl, hp, rfl⟩
    obtain ⟨hn, hentry, -⟩ := mem_pushes_callRules hp
    have hn : n.2 = .call := hn.resolve_right (by simp)
    refine ⟨?_, hentry⟩
    rcases hlevel hsl with ⟨hsrc, -⟩ | ⟨-, h | h⟩
    · exact hsrc
    · rw [h] at hn
      cases hn
    · rw [h] at hn
      cases hn
  refine ⟨fun src s w hs hcall => ?_, fun src h => ?_⟩
  · obtain ⟨rfl, -⟩ := Prod.mk.inj (List.mem_singleton.1 hs)
    cases (hcalls hcall).2
  · obtain ⟨z, hz, -⟩ := Relation.TransGen.head'_iff.1 h
    obtain ⟨z', -, hz'⟩ := Relation.TransGen.tail'_iff.1 h
    have h₀ := (hcalls hz).1
    rw [(hcalls hz').2] at h₀
    cases h₀

theorem sameLevel_callRules : SameLevel (callRules true) Transfer.ring ((), .call) ((), .call) .identity :=
  .seed (List.mem_singleton.2 rfl)

theorem pushes_callRules : (⟨(), .ret, .entry, .identity⟩, ()) ∈ pushes (callRules true) ((), .call) :=
  (mem_pushes_iff rfl).2 ⟨List.mem_singleton.2 rfl, rfl⟩

theorem cycle_callRules : Relation.TransGen (Calls (callRules true) Transfer.ring) ((), .entry) ((), .entry) := by
  have hagain : (⟨(), .exit, .entry, .identity⟩, ()) ∈ pushes (callRules true) ((), .entry) :=
    (mem_pushes_iff rfl).2 ⟨List.mem_singleton.2 rfl, rfl⟩
  exact .single ⟨_, _, _, _, sameLevel_callRules.entry pushes_callRules, hagain, rfl⟩

theorem not_nonRecursive_callRules : ¬ NonRecursive (callRules true) Transfer.ring :=
  fun h => h.acyclic _ cycle_callRules

theorem reweigh_callRules : (callRules true).reweigh (fun _ => .identity) .identity = callRules true := by
  simp only [RuleProvider.reweigh, callRules, RuleProvider.mk.injEq, List.map_cons, List.map_nil,
    and_self, and_true]
  constructor
  · funext n
    split_ifs <;> rfl
  · funext n
    split_ifs <;> rfl

end Phasar.WPDS
