import Phasar.WPDS.SameLevel

/-!
# The weights of the results

`computeWeightAt` multiplies the weights of the path edges of a pair with the weights of their
sources, which `computeWeightAtRec` computes backwards over `Incoming`. Seeds answer with their own
weight, and a source in progress answers with the identity.

* `ComputeWeightsCache`, `computeWeightAtRec`, `computeWeightAt`;
* `Context`, `Realizable`: sequences of rules with pending pushes;
* `computeWeightAt_good`: the weight is the combine over all realizable sequences, for systems without
  recursion and without calls of seeds.
-/

set_option linter.unusedSectionVars false

namespace Phasar.WPDS

open WPDSSolver Deduction

/-- The computed weights; `some none` is a source in progress. -/
abbrev ComputeWeightsCache (CL SE W : Type*) := Node CL SE → Option (Option W)

namespace WPDSSolver

variable {CL SE W : Type*} [DecidableEq CL] [DecidableEq SE] (SR : SemiRing W)

def createWeightCache (S : WPDSSolver CL SE W) : ComputeWeightsCache CL SE W :=
  fun src => (S.seeds.get? src).map some

section MapCombine

variable {α C : Type*} (transform : α → C → Option (W × C))

/-- The loop of `mapCombine` after the first element. -/
def combineRest : List α → W → C → Option (W × C)
  | [], ret, cache => some (ret, cache)
  | a :: as, ret, cache => (transform a cache).bind fun res => combineRest as (SR.combine ret res.1) res.2

def mapCombine (range : List α) (cache : C) : Option (W × C) :=
  match range with
  | [] => some (SR.identity, cache)
  | a :: as => (transform a cache).bind fun first => combineRest SR transform as first.1 first.2

theorem mapCombine_mono {transform transform' : α → C → Option (W × C)}
    (h : ∀ a c res, transform a c = some res → transform' a c = some res) {l : List α} {c : C}
      {res : W × C}
    (hl : mapCombine SR transform l c = some res) : mapCombine SR transform' l c = some res := by
  have key : ∀ (l : List α) (ret : W) (c : C), combineRest SR transform l ret c = some res →
      combineRest SR transform' l ret c = some res := by
    intro l
    induction l with
    | nil => exact fun _ _ h => h
    | cons a l ih =>
      intro ret c hl
      obtain ⟨first, ha, hl⟩ := Option.bind_eq_some_iff.1 hl
      exact Option.bind_eq_some_iff.2 ⟨first, h a c first ha, ih _ _ hl⟩
  cases l with
  | nil => exact hl
  | cons a l =>
    obtain ⟨first, ha, hl⟩ := Option.bind_eq_some_iff.1 hl
    exact Option.bind_eq_some_iff.2 ⟨first, h a c first ha, key l _ _ hl⟩

end MapCombine

def computeWeightAtRec (S : WPDSSolver CL SE W) :
    ℕ → Node CL SE → ComputeWeightsCache CL SE W → Option (W × ComputeWeightsCache CL SE W)
  | 0, _, _ => none
  | fuel + 1, src, cache =>
    match cache src with
    | some (some weight) => some (weight, cache)
    -- cycle detection
    | some none => some (SR.identity, cache)
    | none =>
      (mapCombine SR (fun inc cache => (computeWeightAtRec S fuel inc.1.1 cache).map fun incVal =>
          (SR.extend incVal.1 inc.2, incVal.2)) (S.incoming src).entries
            (Function.update cache src (some none))).map
        fun ret => (ret.1, Function.update ret.2 src (some (some ret.1)))

def computeWeightAt (S : WPDSSolver CL SE W) (fuel : ℕ) (factAt : Node CL SE)
    (cache : ComputeWeightsCache CL SE W) :
    Option (W × ComputeWeightsCache CL SE W) :=
  mapCombine SR (fun edge cache => (computeWeightAtRec SR S fuel edge.1 cache).map fun incVal =>
    (SR.extend incVal.1 edge.2, incVal.2)) (S.pathEdges factAt).entries cache

theorem computeWeightAtRec_mono {S : WPDSSolver CL SE W} {fuel fuel' : ℕ} (hle : fuel ≤ fuel')
    {src : Node CL SE}
    {cache : ComputeWeightsCache CL SE W} {res : W × ComputeWeightsCache CL SE W}
    (h : computeWeightAtRec SR S fuel src cache = some res) :
      computeWeightAtRec SR S fuel' src cache = some res := by
  induction fuel generalizing fuel' src cache res with
  | zero => cases h
  | succ fuel ih =>
    obtain ⟨fuel', rfl⟩ := Nat.exists_eq_add_of_le' (Nat.le_of_add_left_le hle)
    rw [computeWeightAtRec] at h ⊢
    match hc : cache src with
    | some (some w) => simpa only [hc] using h
    | some none => simpa only [hc] using h
    | none =>
      simp only [hc] at h ⊢
      obtain ⟨ret, hret, rfl⟩ := Option.map_eq_some_iff.1 h
      refine Option.map_eq_some_iff.2 ⟨ret, mapCombine_mono SR (fun inc c res hres => ?_) hret, rfl⟩
      obtain ⟨incVal, hrec, rfl⟩ := Option.map_eq_some_iff.1 hres
      exact Option.map_eq_some_iff.2 ⟨incVal, ih (Nat.le_of_succ_le_succ hle) hrec, rfl⟩

theorem computeWeightAt_mono {S : WPDSSolver CL SE W} {fuel fuel' : ℕ} (hle : fuel ≤ fuel')
    {n : Node CL SE}
    {cache : ComputeWeightsCache CL SE W} {res : W × ComputeWeightsCache CL SE W}
    (h : computeWeightAt SR S fuel n cache = some res) :
      computeWeightAt SR S fuel' n cache = some res := by
  refine mapCombine_mono SR (fun edge c res hres => ?_) h
  obtain ⟨incVal, hrec, rfl⟩ := Option.map_eq_some_iff.1 hres
  exact Option.map_eq_some_iff.2 ⟨incVal, computeWeightAtRec_mono SR hle hrec, rfl⟩

/-- `computeWeightAt` returns, with the cache that it leaves. -/
def Returns (S : WPDSSolver CL SE W) (factAt : Node CL SE)
    (cache : ComputeWeightsCache CL SE W) (weight : W)
    (cache' : ComputeWeightsCache CL SE W) : Prop :=
  ∃ n, ∀ fuel ≥ n, computeWeightAt SR S fuel factAt cache = some (weight, cache')

/-- The caches after any queries. -/
inductive Queried (S : WPDSSolver CL SE W) : ComputeWeightsCache CL SE W → Prop
  | init : Queried S S.createWeightCache
  | query {cache cache' : ComputeWeightsCache CL SE W} {factAt : Node CL SE} {weight : W} :
      Queried S cache → Returns SR S factAt cache weight cache' → Queried S cache'

end WPDSSolver

/-! ### Realizable sequences -/

variable {CL SE W : Type*}

/-- `Context RP SR s src u`: from the seed `s` pushes lead to the source `src`, each behind a same-level
sequence; `u` is the extend-product of all these rules. -/
inductive Context (RP : RuleProvider CL SE W) (SR : SemiRing W) : Node CL SE → Node CL SE → W → Prop
  | nil {s : Node CL SE} {w : W} : (s, w) ∈ RP.initialSeeds → Context RP SR s s SR.identity
  | push {s src n : Node CL SE} {u v : W} {p : PushRule CL SE W} {real : CL} : Context RP SR s src u →
      SameLevel RP SR src n v → (p, real) ∈ pushes RP n →
      Context RP SR s (real, p.entrySE) (SR.extend u (SR.extend v p.weight))

/-- A sequence of rules from a seed, with pending pushes and a same-level sequence behind them. -/
def Realizable (RP : RuleProvider CL SE W) (SR : SemiRing W) (s n : Node CL SE) (w : W) : Prop :=
  ∃ src u v, Context RP SR s src u ∧ SameLevel RP SR src n v ∧ w = SR.extend u v

/-- The weights of all realizable sequences to a pair, with the weights of their seeds. -/
def weightsAt (RP : RuleProvider CL SE W) (SR : SemiRing W) (n : Node CL SE) : Set W :=
  {x | ∃ s ws w, (s, ws) ∈ RP.initialSeeds ∧ Realizable RP SR s n w ∧ x = SR.extend ws w}

/-- The weights of the contexts of a source. -/
def contextWeights (RP : RuleProvider CL SE W) (SR : SemiRing W) (src : Node CL SE) : Set W :=
  {x | ∃ s ws u, (s, ws) ∈ RP.initialSeeds ∧ Context RP SR s src u ∧ x = SR.extend ws u}

/-- A same-level sequence from `src` ends at a push of `entry`. -/
def Calls (RP : RuleProvider CL SE W) (SR : SemiRing W) (src entry : Node CL SE) : Prop :=
  ∃ n w p real, SameLevel RP SR src n w ∧ (p, real) ∈ pushes RP n ∧ entry = (real, p.entrySE)

/-- No seed is pushed, and no pushed entry is pushed again before it is popped. -/
structure NonRecursive (RP : RuleProvider CL SE W) (SR : SemiRing W) : Prop where
  seeds : ∀ src s w, (s, w) ∈ RP.initialSeeds → ¬ Calls RP SR src s
  acyclic : ∀ src, ¬ Relation.TransGen (Calls RP SR) src src

section Solved

variable [DecidableEq CL] [DecidableEq SE] {RP : RuleProvider CL SE W} {SR : SemiRing W}

theorem seed_or_calls {src n : Node CL SE} {w : W} (h : SameLevel RP SR src n w) :
    (∃ w, (src, w) ∈ RP.initialSeeds) ∨ ∃ caller, Calls RP SR caller src := by
  induction h with
  | seed hseed => exact Or.inl ⟨_, hseed⟩
  | entry hs hp => exact Or.inr ⟨_, _, _, _, _, hs, hp, rfl⟩
  | normal _ _ ih => exact ih
  | call _ _ _ _ _ ih => exact ih

/-! ### The seeds of a run -/

theorem propagate_seeds [DecidableEq W] (S : WPDSSolver CL SE W) (k : PathEdge CL SE) (w : W) :
    (propagate SR S k w).seeds = S.seeds := by
  unfold propagate
  split
  · rfl
  · split_ifs <;> rfl

theorem propagateAll_seeds [DecidableEq W] (S : WPDSSolver CL SE W) (items : List (PathEdge CL SE × W)) :
    (propagateAll SR S items).seeds = S.seeds := by
  induction items generalizing S with
  | nil => rfl
  | cons item items ih => exact (ih _).trans (propagate_seeds S _ _)

theorem processPathEdge_seeds [DecidableEq W] (S : WPDSSolver CL SE W) (k : PathEdge CL SE) (w : W) :
    (processPathEdge RP SR S k w).seeds = S.seeds := by
  have hpush : ∀ (l : List (PushRule CL SE W × CL)) (S : WPDSSolver CL SE W),
      (l.foldl (processPush RP SR k.1 w) S).seeds = S.seeds := by
    intro l
    induction l with
    | nil => exact fun _ => rfl
    | cons push l ih =>
      intro S
      refine (ih _).trans ((propagateAll_seeds _ _).trans ?_)
      exact propagate_seeds S _ _
  have hpop : ∀ S : WPDSSolver CL SE W, (processPop RP SR S k.1 k.2 w).seeds = S.seeds := by
    intro S
    have hadd : (addEndSummary SR S k.1 k.2 w).1.seeds = S.seeds := by
      unfold addEndSummary
      split
      · rfl
      · split_ifs <;> rfl
    unfold processPop
    split_ifs with hp
    · show (if _ then _ else _ : WPDSSolver CL SE W).seeds = S.seeds
      split_ifs
      · exact (propagateAll_seeds _ _).trans hadd
      · exact hadd
    · rfl
  exact (hpop _).trans ((hpush _ _).trans (propagateAll_seeds _ _))

variable [SemilatticeSup W] (law : SR.Lawful) (hsup : ∀ a b, SR.combine a b = a ⊔ b)

include hsup

/-- The table of seeds has the combine of the weights of a node in the seeds before. -/
structure Submitted (before : List (Node CL SE × W)) (S : WPDSSolver CL SE W) (s : Node CL SE) : Prop where
  absent : S.seeds.get? s = none → ∀ w, (s, w) ∉ before
  joined : ∀ v, S.seeds.get? s = some v → IsFiniteJoin {w | (s, w) ∈ before} v

theorem get?_submitSeed [DecidableEq W] (S : WPDSSolver CL SE W) (seed : Node CL SE × W) (s : Node CL SE) :
    (submitSeed SR S seed).seeds.get? s =
      if seed.1 = s then some (joinInto (S.seeds.get? seed.1) seed.2) else S.seeds.get? s := by
  simp only [submitSeed, propagate_seeds, VecMap.alter, VecMap.get?_set]
  split_ifs
  · cases S.seeds.get? seed.1 <;> simp [joinInto, hsup]
  · rfl

theorem Submitted.submitSeed [DecidableEq W] {before : List (Node CL SE × W)} {S : WPDSSolver CL SE W}
    {s : Node CL SE} (h : Submitted before S s) (seed : Node CL SE × W) :
    Submitted (before ++ [seed]) (submitSeed SR S seed) s := by
  obtain ⟨s', w'⟩ := seed
  by_cases hs : s' = s
  · subst hs
    refine ⟨fun hnone => ?_, fun v hv => ?_⟩
    · rw [get?_submitSeed hsup, if_pos rfl] at hnone
      cases hnone
    · rw [get?_submitSeed hsup, if_pos rfl, Option.some.injEq] at hv
      have hset : ∀ w, (s', w) ∈ before ++ [(s', w')] ↔ (s', w) ∈ before ∨ w = w' := by simp
      cases hold : S.seeds.get? s' with
      -- the first weight of the node
      | none =>
        rw [hold, joinInto] at hv
        subst hv
        refine (IsFiniteJoin.singleton w').congr fun w => ?_
        simp [h.absent hold w]
      | some old =>
        rw [hold, joinInto] at hv
        subst hv
        exact ((h.joined old hold).union (IsFiniteJoin.singleton w')).congr fun w => (hset w).symm
  · have hset : ∀ w, (s, w) ∈ before ++ [(s', w')] ↔ (s, w) ∈ before := by simp [Ne.symm hs]
    have hget : (WPDSSolver.submitSeed SR S (s', w')).seeds.get? s = S.seeds.get? s := by
      rw [get?_submitSeed hsup, if_neg hs]
    refine ⟨fun hnone w hw => ?_, fun v hv => ?_⟩
    · rw [hget] at hnone
      exact h.absent hnone w ((hset w).1 hw)
    · rw [hget] at hv
      exact (h.joined v hv).congr fun w => (hset w).symm

theorem Submitted.foldl [DecidableEq W] {s : Node CL SE} (l : List (Node CL SE × W)) :
    ∀ {before : List (Node CL SE × W)} {S : WPDSSolver CL SE W}, Submitted before S s →
      Submitted (before ++ l) (l.foldl (WPDSSolver.submitSeed SR) S) s := by
  induction l with
  | nil =>
    intro before S h
    rwa [List.append_nil]
  | cons seed l ih =>
    intro before S h
    rw [List.foldl_cons, List.append_cons]
    exact ih (h.submitSeed hsup seed)

/-- The table of seeds has the combine of the weights of each seed. -/
theorem seeds_of_reachable [DecidableEq W] {S : WPDSSolver CL SE W} (h : WPDSSolver.Reachable RP SR S)
    (s : Node CL SE) :
    (S.seeds.get? s = none → ∀ w, (s, w) ∉ RP.initialSeeds) ∧
      ∀ v, S.seeds.get? s = some v → IsFiniteJoin {w | (s, w) ∈ RP.initialSeeds} v := by
  induction h with
  | init =>
    have hempty : Submitted ([] : List (Node CL SE × W)) WPDSSolver.empty s :=
      ⟨fun _ _ => List.not_mem_nil, fun v hv => by cases hv⟩
    have hall := Submitted.foldl hsup RP.initialSeeds hempty
    exact ⟨hall.absent, hall.joined⟩
  | @step S S' _ hstep ih =>
    obtain ⟨l, r, k, w, -, rfl⟩ := hstep
    rw [processPathEdge_seeds]
    exact ih

/-! ### The records of a solved system -/

include law

/-- The table of calls has the combine of the weights of each call. -/
theorem incoming_of_reachable [DecidableEq W] {S : WPDSSolver CL SE W} (h : WPDSSolver.Reachable RP SR S)
    (hempty : S.workList = []) {entry csSrc : Node CL SE} {ret : SE} {i : W}
    (hi : (S.incoming entry).get? (csSrc, ret) = some i) :
      IsFiniteJoin (CallWeights RP SR entry csSrc ret) i := by
  have hinv := inv_of_reachable law hsup h
  refine ⟨hinv.sound.incoming _ _ _ _ hi, ?_⟩
  rintro _ ⟨n, p, w, hp, hentry, rfl, hw, rfl⟩
  obtain ⟨hclosed, -⟩ := exact_of_empty law hsup h hempty
  obtain ⟨v, hv, hle⟩ := hclosed.covers (dropped_least (W := W)) (distributive_rules law hsup) hw
  have hdone := (hinv.served _ _ hv).resolve_left (by simp [hempty])
  have hcov := hdone.incoming _ hp
  obtain ⟨real, entrySE⟩ := entry
  obtain rfl : entrySE = p.entrySE := hentry
  rw [hi, covers_some] at hcov
  refine le_trans ?_ hcov
  rw [← sup_of_le_right hle, ← hsup, law.combine_extend, hsup]
  exact le_sup_left

theorem exists_incoming [DecidableEq W] {S : WPDSSolver CL SE W} (h : WPDSSolver.Reachable RP SR S)
    (hempty : S.workList = []) {src n : Node CL SE} {w : W} {p : PushRule CL SE W} {real : CL}
    (hs : SameLevel RP SR src n w) (hp : (p, real) ∈ pushes RP n) :
    ∃ i, (S.incoming (real, p.entrySE)).get? (src, p.retSite) = some i := by
  have hinv := inv_of_reachable law hsup h
  obtain ⟨hclosed, -⟩ := exact_of_empty law hsup h hempty
  obtain ⟨v, hv, -⟩ := hclosed.covers (dropped_least (W := W)) (distributive_rules law hsup)
    (sameLevel_iff_deriv.1 hs)
  have hdone := (hinv.served _ _ hv).resolve_left (by simp [hempty])
  obtain ⟨i, hi, -⟩ := hdone.incoming _ hp
  exact ⟨i, hi⟩

omit law hsup in
theorem mem_callWeights {entry csSrc : Node CL SE} {ret : SE} {x : W} :
    x ∈ CallWeights RP SR entry csSrc ret ↔ ∃ n p v, SameLevel RP SR csSrc n v ∧
      (p, entry.1) ∈ pushes RP n ∧
      entry.2 = p.entrySE ∧ ret = p.retSite ∧ x = SR.extend v p.weight := by
  constructor
  · rintro ⟨n, p, v, hp, he, hr, hd, rfl⟩
    exact ⟨n, p, v, sameLevel_iff_deriv.2 hd, hp, he, hr, rfl⟩
  · rintro ⟨n, p, v, hd, hp, he, hr, rfl⟩
    exact ⟨n, p, v, hp, he, hr, sameLevel_iff_deriv.1 hd, rfl⟩

/-! ### `mapCombine` -/

omit law in
/-- The combine over a range that is not empty, for a transformation that keeps an invariant of the
cache. -/
theorem mapCombine_spec {α C : Type*} {T : α → C → Option (W × C)} {I : C → Prop} {A : α → Set W}
    {l : List α} (hne : l ≠ [])
    (h : ∀ a ∈ l, ∀ c, I c → ∃ w c', T a c = some (w, c') ∧ IsFiniteJoin (A a) w ∧ I c')
      {c : C} (hc : I c) :
    ∃ w c', mapCombine SR T l c = some (w, c') ∧ IsFiniteJoin {x | ∃ a ∈ l, x ∈ A a} w ∧ I c' := by
  have key : ∀ (l : List α) (B : Set W) (ret : W) (c : C), IsFiniteJoin B ret → I c →
      (∀ a ∈ l, ∀ c, I c → ∃ w c', T a c = some (w, c') ∧ IsFiniteJoin (A a) w ∧ I c') →
      ∃ w c', combineRest SR T l ret c = some (w, c') ∧
        IsFiniteJoin (B ∪ {x | ∃ a ∈ l, x ∈ A a}) w ∧ I c' := by
    intro l
    induction l with
    | nil => exact fun B ret c hB hc _ => ⟨ret, c, rfl, hB.congr (by simp), hc⟩
    | cons a l ih =>
      intro B ret c hB hc h
      obtain ⟨ha, hl⟩ := List.forall_mem_cons.1 h
      obtain ⟨w, c₁, hw, hA, hc₁⟩ := ha c hc
      obtain ⟨w', c', hw', hA', hc'⟩ :=
        ih (B ∪ A a) (SR.combine ret w) c₁ (by rw [hsup]; exact hB.union hA) hc₁ hl
      refine ⟨w', c', by rw [combineRest, hw]; exact hw', hA'.congr fun x => ?_, hc'⟩
      simp [or_assoc]
  cases l with
  | nil => exact absurd rfl hne
  | cons a l =>
    obtain ⟨ha, hl⟩ := List.forall_mem_cons.1 h
    obtain ⟨w, c₁, hw, hA, hc₁⟩ := ha c hc
    obtain ⟨w', c', hw', hA', hc'⟩ := key l (A a) w c₁ hA hc₁ hl
    refine ⟨w', c', by rw [mapCombine, hw]; exact hw', hA'.congr fun x => ?_, hc'⟩
    simp


/-! ### `computeWeightAtRec` -/

/-- What the cache knows of the sources: all seeds, and only weights of their contexts. -/
structure GoodCache (RP : RuleProvider CL SE W) (SR : SemiRing W)
    (cache : ComputeWeightsCache CL SE W) : Prop where
  seeds : ∀ s w, (s, w) ∈ RP.initialSeeds → ∃ v, cache s = some (some v)
  computed : ∀ src v, cache src = some (some v) → IsFiniteJoin (contextWeights RP SR src) v

omit law hsup in
/-- A source that is no seed goes into the cache as one in progress. -/
theorem GoodCache.progress {cache : ComputeWeightsCache CL SE W} {src : Node CL SE}
    (h : GoodCache RP SR cache) (hseed : ∀ w, (src, w) ∉ RP.initialSeeds) :
    GoodCache RP SR (Function.update cache src (some none)) := by
  constructor
  · intro s w hs
    obtain ⟨v, hv⟩ := h.seeds s w hs
    have hne : s ≠ src := by
      rintro rfl
      exact hseed w hs
    exact ⟨v, (Function.update_of_ne hne ..).trans hv⟩
  · intro p v hv
    by_cases hp : p = src
    · rw [hp, Function.update_self] at hv
      cases hv
    · rw [Function.update_of_ne hp] at hv
      exact h.computed p v hv

omit law hsup in
/-- The weight of a source goes into the cache. -/
theorem GoodCache.store {cache : ComputeWeightsCache CL SE W} {src : Node CL SE} {w : W}
    (h : GoodCache RP SR cache) (hw : IsFiniteJoin (contextWeights RP SR src) w) :
    GoodCache RP SR (Function.update cache src (some (some w))) := by
  constructor
  · intro s v hs
    by_cases hp : s = src
    · exact ⟨w, by rw [hp, Function.update_self]⟩
    · rw [Function.update_of_ne hp]
      exact h.seeds s v hs
  · intro p v hv
    by_cases hp : p = src
    · rw [hp, Function.update_self, Option.some.injEq, Option.some.injEq] at hv
      exact hp ▸ hv ▸ hw
    · rw [Function.update_of_ne hp] at hv
      exact h.computed p v hv

omit [DecidableEq CL] [DecidableEq SE] law hsup in
/-- The contexts of a seed that is never pushed. -/
theorem contextWeights_seed (law : SR.Lawful) (hrec : NonRecursive RP SR) {s : Node CL SE} {w : W}
    (hs : (s, w) ∈ RP.initialSeeds) (x : W) : x ∈ {w | (s, w) ∈ RP.initialSeeds} ↔
      x ∈ contextWeights RP SR s := by
  constructor
  · intro hx
    exact ⟨s, x, SR.identity, hx, .nil hx, (law.extend_identity x).symm⟩
  · rintro ⟨s', ws, u, hmem, hctx, rfl⟩
    cases hctx with
    | nil => simpa [law.extend_identity] using hmem
    | push _ hsl hp => exact absurd ⟨_, _, _, _, hsl, hp, rfl⟩ (hrec.seeds _ _ _ hs)

theorem contextWeights_pushed [DecidableEq W] {S : WPDSSolver CL SE W} (h : WPDSSolver.Reachable RP SR S)
    (hempty : S.workList = []) {src : Node CL SE} (hsrc : ∀ w, (src, w) ∉ RP.initialSeeds) (x : W) :
    x ∈ contextWeights RP SR src ↔ ∃ inc ∈ (S.incoming src).entries,
      x ∈ Set.image2 SR.extend (contextWeights RP SR inc.1.1)
        (CallWeights RP SR src inc.1.1 inc.1.2) := by
  constructor
  · rintro ⟨s, ws, u, hs, hctx, rfl⟩
    cases hctx with
    | nil hs' => exact absurd hs' (hsrc _)
    | @push csSrc n u v p real hctx hsl hp =>
      obtain ⟨i, hi⟩ := exists_incoming law hsup h hempty hsl hp
      refine ⟨((csSrc, p.retSite), i), (VecMap.mem_entries_iff _ _ _).2 hi, SR.extend ws u,
        ⟨s, ws, u, hs, hctx, rfl⟩,
        SR.extend v p.weight, mem_callWeights.2 ⟨n, p, v, hsl, hp, rfl, rfl, rfl⟩, ?_⟩
      exact law.extend_assoc ws u (SR.extend v p.weight)
  · rintro ⟨⟨⟨csSrc, ret⟩, i⟩, -, _, ⟨s, ws, u, hs, hctx, rfl⟩, y, hy, rfl⟩
    obtain ⟨n, p, v, hsl, hp, hentry, -, rfl⟩ := mem_callWeights.1 hy
    obtain ⟨real, entrySE⟩ := src
    obtain rfl : entrySE = p.entrySE := hentry
    exact ⟨s, ws, SR.extend u (SR.extend v p.weight), hs, hctx.push hsl hp, law.extend_assoc ws u _⟩

omit law hsup in
/-- A bound on the fuel for all elements of a list. -/
theorem exists_fuel {α : Type*} {P : α → ℕ → Prop} (l : List α) (h : ∀ a ∈ l, ∃ n, ∀ fuel ≥ n, P a fuel) :
    ∃ n, ∀ fuel ≥ n, ∀ a ∈ l, P a fuel := by
  induction l with
  | nil => exact ⟨0, by simp⟩
  | cons a l ih =>
    obtain ⟨ha, hl⟩ := List.forall_mem_cons.1 h
    obtain ⟨n₁, h₁⟩ := ha
    obtain ⟨n₂, h₂⟩ := ih hl
    exact ⟨max n₁ n₂, fun fuel hfuel => List.forall_mem_cons.2
      ⟨h₁ fuel ((le_max_left n₁ n₂).trans hfuel), h₂ fuel ((le_max_right n₁ n₂).trans hfuel)⟩⟩

/-- **The weight of a source is the combine over its contexts.** The sources in progress are entered
from this one. -/
theorem computeWeightAtRec_spec [DecidableEq W] [Finite CL] [Finite SE] {S : WPDSSolver CL SE W}
    (h : WPDSSolver.Reachable RP SR S) (hempty : S.workList = []) (hrec : NonRecursive RP SR)
      (src : Node CL SE)
    (hsrc : ∃ n w, SameLevel RP SR src n w) :
    ∃ n, ∀ fuel ≥ n, ∀ cache, GoodCache RP SR cache →
      (∀ p, cache p = some none → Relation.TransGen (Calls RP SR) src p) →
      ∃ w cache', computeWeightAtRec SR S fuel src cache = some (w, cache') ∧
        IsFiniteJoin (contextWeights RP SR src) w ∧ GoodCache RP SR cache' ∧
        ∀ p, cache' p = some none ↔ cache p = some none := by
  have hirrefl : Std.Irrefl (Relation.TransGen (Calls RP SR)) := ⟨hrec.acyclic⟩
  have hwf : WellFounded (Relation.TransGen (Calls RP SR)) := Finite.wellFounded_of_trans_of_irrefl _
  induction src using hwf.induction with
  | _ src ih =>
    -- the callers of `src`
    have hcallers : ∀ inc ∈ (S.incoming src).entries, Calls RP SR inc.1.1 src := by
      rintro ⟨⟨csSrc, ret⟩, i⟩ hinc
      obtain ⟨x, hx⟩ := (incoming_of_reachable law hsup h hempty
        ((VecMap.mem_entries_iff _ _ _).1 hinc)).nonempty
      obtain ⟨n, p, v, hsl, hp, hentry, -, -⟩ := mem_callWeights.1 hx
      exact ⟨n, v, p, src.1, hsl, hp, Prod.ext rfl hentry⟩
    obtain ⟨n, hn⟩ := exists_fuel (S.incoming src).entries
      (fun inc hinc => ih inc.1.1 (.single (hcallers inc hinc)) (by
      obtain ⟨n, v, p, real, hsl, -, -⟩ := hcallers inc hinc
      exact ⟨n, v, hsl⟩))
    refine ⟨n + 1, fun fuel hfuel cache hgood hprog => ?_⟩
    obtain ⟨fuel, rfl⟩ := Nat.exists_eq_add_of_le' (Nat.le_of_add_left_le hfuel)
    have hfuel' : fuel ≥ n := Nat.le_of_succ_le_succ hfuel
    rw [computeWeightAtRec]
    match hc : cache src with
    | some (some w) => exact ⟨w, cache, rfl, hgood.computed src w hc, hgood, fun p => Iff.rfl⟩
    | some none => exact absurd (hprog src hc) (hrec.acyclic src)
    | none =>
      have hseed : ∀ w, (src, w) ∉ RP.initialSeeds := by
        intro w hw
        obtain ⟨v, hv⟩ := hgood.seeds src w hw
        rw [hc] at hv
        cases hv
      have hne : (S.incoming src).entries ≠ [] := by
        obtain ⟨n, w, hsl⟩ := hsrc
        rcases seed_or_calls hsl with ⟨w, hw⟩ | ⟨caller, n', w', p, real, hsl', hp, rfl⟩
        · exact absurd hw (hseed w)
        · obtain ⟨i, hi⟩ := exists_incoming law hsup h hempty hsl' hp
          exact List.ne_nil_of_mem ((VecMap.mem_entries_iff _ _ _).2 hi)
      -- while `src` is in progress
      obtain ⟨w, cache', hw, hjoin, hgood', hprog'⟩ :=
        mapCombine_spec hsup (C := ComputeWeightsCache CL SE W)
        (T := fun inc cache => (computeWeightAtRec SR S fuel inc.1.1 cache).map fun incVal =>
          (SR.extend incVal.1 inc.2, incVal.2))
        (I := fun c => GoodCache RP SR c ∧ ∀ p, c p = some none ↔
          Function.update cache src (some none) p = some none)
        (A := fun inc => Set.image2 SR.extend (contextWeights RP SR inc.1.1)
          (CallWeights RP SR src inc.1.1 inc.1.2))
        hne (fun inc hinc c hI => by
          obtain ⟨w, c', hw, hjoin, hgood', hprog'⟩ := hn fuel hfuel' inc hinc c hI.1 (fun p hp => by
            have hp' := (hI.2 p).1 hp
            by_cases hps : p = src
            · exact hps ▸ .single (hcallers inc hinc)
            · rw [Function.update_of_ne hps] at hp'
              exact .head (hcallers inc hinc) (hprog p hp'))
          have hcall := incoming_of_reachable law hsup h hempty ((VecMap.mem_entries_iff _ _ _).1 hinc)
          refine ⟨SR.extend w inc.2, c', by rw [hw]; rfl, hjoin.image2 ?_ ?_ hcall, hgood', fun p =>
            (hprog' p).trans (hI.2 p)⟩
          · intro a a' b
            rw [← hsup, ← hsup, law.combine_extend]
          · intro a b b'
            rw [← hsup, ← hsup, law.extend_combine])
        (c := Function.update cache src (some none)) ⟨hgood.progress hseed, fun p => Iff.rfl⟩
      have hval := hjoin.congr fun x => (contextWeights_pushed law hsup h hempty hseed x).symm
      refine ⟨w, Function.update cache' src (some (some w)), by rw [hw]; rfl, hval, hgood'.store hval, fun p => ?_⟩
      by_cases hps : p = src
      · rw [hps, Function.update_self, hc]
        simp
      · rw [Function.update_of_ne hps, hprog', Function.update_of_ne hps]


/-! ### `computeWeightAt` -/

theorem weightsAt_iff [DecidableEq W] {S : WPDSSolver CL SE W} (h : WPDSSolver.Reachable RP SR S)
    (hempty : S.workList = []) {n : Node CL SE} (x : W) :
    x ∈ weightsAt RP SR n ↔ ∃ edge ∈ (S.pathEdges n).entries,
      x ∈ Set.image2 SR.extend (contextWeights RP SR edge.1) {v | SameLevel RP SR edge.1 n v} := by
  obtain ⟨hclosed, -⟩ := exact_of_empty law hsup h hempty
  constructor
  · rintro ⟨s, ws, _, hs, ⟨src, u, v, hctx, hsl, rfl⟩, rfl⟩
    obtain ⟨e, he, -⟩ := hclosed.covers (dropped_least (W := W)) (distributive_rules law hsup)
      (sameLevel_iff_deriv.1 hsl)
    exact ⟨(src, e), (VecMap.mem_entries_iff _ _ _).2 he, SR.extend ws u,
      ⟨s, ws, u, hs, hctx, rfl⟩, v, hsl,
      law.extend_assoc ws u v⟩
  · rintro ⟨⟨src, e⟩, -, _, ⟨s, ws, u, hs, hctx, rfl⟩, v, hsl, rfl⟩
    exact ⟨s, ws, SR.extend u v, hs, ⟨src, u, v, hctx, hsl, rfl⟩, law.extend_assoc ws u v⟩

/-- The path edges of a pair, in a cache between two queries. -/
theorem computeWeightAt_good [DecidableEq W] [Finite CL] [Finite SE] {S : WPDSSolver CL SE W}
    (h : WPDSSolver.Reachable RP SR S) (hempty : S.workList = []) (hrec : NonRecursive RP SR)
      {n : Node CL SE}
    (hn : (S.pathEdges n).entries ≠ []) :
    ∃ k, ∀ fuel ≥ k, ∀ cache, (GoodCache RP SR cache ∧ ∀ p, cache p ≠ some none) →
      ∃ w cache', computeWeightAt SR S fuel n cache = some (w, cache') ∧
        IsFiniteJoin (weightsAt RP SR n) w ∧
        GoodCache RP SR cache' ∧ ∀ p, cache' p ≠ some none := by
  have hedges : ∀ edge ∈ (S.pathEdges n).entries,
    IsFiniteJoin {v | SameLevel RP SR edge.1 n v} edge.2 := by
    rintro ⟨src, e⟩ hedge
    have he : S.stored (src, n) = some e := (VecMap.mem_entries_iff _ _ _).1 hedge
    obtain ⟨hclosed, hsound⟩ := exact_of_empty law hsup h hempty
    have hjoin : IsFiniteJoin {v | Deriv (rules RP SR) (Dropped W) (src, n) v} e :=
      ⟨hsound _ e he, (isLUB_of_closed (dropped_least (W := W))
        (distributive_rules law hsup) hclosed hsound he).1⟩
    exact hjoin.congr fun v => sameLevel_iff_deriv.symm
  obtain ⟨k, hk⟩ := exists_fuel (S.pathEdges n).entries (fun edge hedge =>
    computeWeightAtRec_spec law hsup h hempty hrec edge.1 ⟨n, (hedges edge hedge).nonempty⟩)
  refine ⟨k, fun fuel hfuel cache hI => ?_⟩
  obtain ⟨w, cache', hw, hjoin, hI'⟩ := mapCombine_spec hsup (C := ComputeWeightsCache CL SE W)
    (T := fun edge cache => (computeWeightAtRec SR S fuel edge.1 cache).map fun incVal =>
      (SR.extend incVal.1 edge.2, incVal.2))
    (I := fun c => GoodCache RP SR c ∧ ∀ p, c p ≠ some none)
    (A := fun edge => Set.image2 SR.extend (contextWeights RP SR edge.1)
      {v | SameLevel RP SR edge.1 n v}) hn
    (fun edge hedge c hc => by
      obtain ⟨w, c', hw, hjoin, hgood, hprog⟩ := hk fuel hfuel edge hedge c hc.1 fun p hp =>
        absurd hp (hc.2 p)
      refine ⟨SR.extend w edge.2, c', by rw [hw]; rfl, hjoin.image2 ?_ ?_ (hedges edge hedge), hgood,
        fun p hp => hc.2 p ((hprog p).1 hp)⟩
      · intro a a' b
        rw [← hsup, ← hsup, law.combine_extend]
      · intro a b b'
        rw [← hsup, ← hsup, law.extend_combine]) hI
  exact ⟨w, cache', hw, hjoin.congr fun x => (weightsAt_iff law hsup h hempty x).symm, hI'⟩

end Solved

end Phasar.WPDS
