import Phasar.Pointer.RawAAResult

/-!
# Combined and cached alias results

Alias results are intersected, and wrapped in a cache for alias sets. With `ShouldCacheMayAlias` the
wrapper looks the second value up in the alias set of the first one.

* `RawAAResult`: `getRawAliasSet` and `mayAlias` of combined results; a query may fill caches;
* `UnionFindAnalysis`: the analyses that a result comes from, and `SharesClass` for them;
* `getRawAliasSet_spec`, `mayAlias_spec`: what a result answers, after any queries;
* `agrees_iff`: the two kinds of queries agree precisely if no value is looked up that the filter
  leaves out although it shares a class with a listed one.
-/

namespace Phasar

/-- An alias result: one of a single analysis, `RawAAResultIntersection` or `CachedUnionFindAAResult`. -/
inductive RawAAResult
  | basic (result : BasicUnionFindAAResult)
  | ctxSens (result : CallingContextSensUnionFindAAResult)
  | intersection (first second : RawAAResult)
  | cached (shouldCacheMayAlias : Bool) (cache : ℕ → Option RawAliasSet) (aaRes : RawAAResult)

namespace RawAAResult

/-- The alias set, and the result with what was cached on the way. -/
def getRawAliasSet (var : ℕ) : RawAAResult → RawAliasSet × RawAAResult
  | basic result => (result.getRawAliasSet var, basic result)
  | ctxSens result => (result.getRawAliasSet var, ctxSens result)
  | intersection first second =>
    ((first.getRawAliasSet var).1 ∩ (second.getRawAliasSet var).1,
      intersection (first.getRawAliasSet var).2 (second.getRawAliasSet var).2)
  | cached mode cache aaRes => match cache var with
    | some set => (set, cached mode cache aaRes)
    | none => ((aaRes.getRawAliasSet var).1, cached mode
        (Function.update cache var (some (aaRes.getRawAliasSet var).1)) (aaRes.getRawAliasSet var).2)

def mayAlias (var1 var2 : ℕ) : RawAAResult → Bool × RawAAResult
  | basic result => (result.mayAlias var1 var2, basic result)
  | ctxSens result => (result.mayAlias var1 var2, ctxSens result)
  | intersection first second =>
    if (first.mayAlias var1 var2).1 then
      ((second.mayAlias var1 var2).1,
        intersection (first.mayAlias var1 var2).2 (second.mayAlias var1 var2).2)
    else (false, intersection (first.mayAlias var1 var2).2 second)
  | cached true cache aaRes =>
    -- alias sets list the values of the filter only
    let answer := (cached true cache aaRes).getRawAliasSet var1
    (decide (var2 ∈ answer.1), answer.2)
  | cached false cache aaRes =>
    ((aaRes.mayAlias var1 var2).1, cached false cache (aaRes.mayAlias var1 var2).2)

end RawAAResult

/-- A query that a client makes. -/
inductive AliasQuery
  | getRawAliasSet (var : ℕ)
  | mayAlias (var1 var2 : ℕ)

namespace AliasQuery

def InBounds (size : ℕ) : AliasQuery → Prop
  | getRawAliasSet var => var < size
  | mayAlias var1 var2 => var1 < size ∧ var2 < size

/-- The result after a query. -/
def after (result : RawAAResult) : AliasQuery → RawAAResult
  | getRawAliasSet var => (result.getRawAliasSet var).2
  | mayAlias var1 var2 => (result.mayAlias var1 var2).2

end AliasQuery

/-- The analyses of a result, before `consumeAAResults`. -/
inductive UnionFindAnalysis (numVars : ℕ) : Type 1
  | basic {Obj : Type} [DecidableEq Obj] (ana : BasicUnionFindAA Obj numVars)
  | ctxSens {Obj : Type} [DecidableEq Obj] (ana : CallingContextSensAA Obj numVars)
  | combinator (first second : UnionFindAnalysis numVars)
  | cached (shouldCacheMayAlias : Bool) (ana : UnionFindAnalysis numVars)

namespace UnionFindAnalysis

variable {numVars : ℕ}

def consumeAAResults (shouldInclude : ℕ → Bool) : UnionFindAnalysis numVars → RawAAResult
  | basic ana => .basic (ana.consumeAAResults shouldInclude)
  | ctxSens ana => .ctxSens (ana.consumeAAResults shouldInclude)
  | combinator first second =>
    .intersection (first.consumeAAResults shouldInclude) (second.consumeAAResults shouldInclude)
  | cached mode ana => .cached mode (fun _ => none) (ana.consumeAAResults shouldInclude)

/-- Two values have objects in one class, in every combined analysis. -/
def SharesClass (v w : ℕ) : UnionFindAnalysis numVars → Prop
  | basic ana => ana.SharesClass v w
  | ctxSens ana => ana.SharesClass v w
  | combinator first second => first.SharesClass v w ∧ second.SharesClass v w
  | cached _ ana => ana.SharesClass v w

/-- Some part of the result answers `mayAlias` from its alias sets. -/
def asksAliasSets : UnionFindAnalysis numVars → Bool
  | basic _ => false
  | ctxSens _ => false
  | combinator first second => first.asksAliasSets || second.asksAliasSets
  | cached mode ana => mode || ana.asksAliasSets

theorem sharesClass_self (ana : UnionFindAnalysis numVars) {v : ℕ} (hv : v < numVars) :
    ana.SharesClass v v := by
  induction ana with
  | basic ana => exact rfl
  | ctxSens ana => exact ana.sharesClass_self hv
  | combinator first second ihf ihs => exact ⟨ihf, ihs⟩
  | cached mode ana ih => exact ih

theorem sharesClass_comm (ana : UnionFindAnalysis numVars) (v w : ℕ) :
    ana.SharesClass v w ↔ ana.SharesClass w v := by
  induction ana with
  | basic ana => exact eq_comm
  | ctxSens ana =>
    constructor <;> exact fun ⟨x, hx, y, hy, heq⟩ => ⟨y, hy, x, hx, heq.symm⟩
  | combinator first second ihf ihs => exact and_congr ihf ihs
  | cached mode ana ih => exact ih

/-- The alias set of a value: the listed values that share a class with it. -/
def IsAliasSet (ana : UnionFindAnalysis numVars) (shouldInclude : ℕ → Bool) (v : ℕ) (set : RawAliasSet) :
    Prop :=
  ∀ w, w ∈ set ↔ w < numVars ∧ shouldInclude w = true ∧ ana.SharesClass v w

/-- A result of the analyses, with caches that hold alias sets only. -/
inductive Represents (shouldInclude : ℕ → Bool) : UnionFindAnalysis numVars → RawAAResult → Prop
  | basic {Obj : Type} [DecidableEq Obj] (ana : BasicUnionFindAA Obj numVars) :
    Represents shouldInclude (.basic ana) (.basic (ana.consumeAAResults shouldInclude))
  | ctxSens {Obj : Type} [DecidableEq Obj] (ana : CallingContextSensAA Obj numVars) :
    Represents shouldInclude (.ctxSens ana) (.ctxSens (ana.consumeAAResults shouldInclude))
  | combinator {first second : UnionFindAnalysis numVars} {r s : RawAAResult}
    (hfirst : Represents shouldInclude first r) (hsecond : Represents shouldInclude second s) :
    Represents shouldInclude (.combinator first second) (.intersection r s)
  | cached {mode : Bool} {cache : ℕ → Option RawAliasSet} {ana : UnionFindAnalysis numVars}
    {r : RawAAResult} (hana : Represents shouldInclude ana r)
    (hcache : ∀ v < numVars, ∀ set, cache v = some set → ana.IsAliasSet shouldInclude v set) :
    Represents shouldInclude (.cached mode ana) (.cached mode cache r)

theorem represents_consumeAAResults (ana : UnionFindAnalysis numVars) (shouldInclude : ℕ → Bool) :
    Represents shouldInclude ana (ana.consumeAAResults shouldInclude) := by
  induction ana with
  | basic ana => exact .basic ana
  | ctxSens ana => exact .ctxSens ana
  | combinator first second ihf ihs => exact .combinator ihf ihs
  | cached mode ana ih => exact .cached ih fun v _ set hset => absurd hset (Option.some_ne_none set).symm

variable {shouldInclude : ℕ → Bool} {ana : UnionFindAnalysis numVars} {r : RawAAResult}

theorem getRawAliasSet_spec (h : Represents shouldInclude ana r) {v : ℕ} (hv : v < numVars) :
    ana.IsAliasSet shouldInclude v (r.getRawAliasSet v).1 ∧
      Represents shouldInclude ana (r.getRawAliasSet v).2 := by
  induction h with
  | basic ana => exact ⟨fun w => ana.mem_getRawAliasSet shouldInclude hv, .basic ana⟩
  | ctxSens ana => exact ⟨fun w => ana.mem_getRawAliasSet shouldInclude hv, .ctxSens ana⟩
  | combinator _ _ ihf ihs =>
    refine ⟨fun w => ?_, .combinator ihf.2 ihs.2⟩
    rw [RawAAResult.getRawAliasSet, Finset.mem_inter, ihf.1 w, ihs.1 w, SharesClass]
    tauto
  | @cached mode cache ana r hana hcache ih =>
    rw [RawAAResult.getRawAliasSet]
    cases hget : cache v with
    | some set => exact ⟨hcache v hv set hget, .cached hana hcache⟩
    | none =>
      refine ⟨ih.1, .cached ih.2 fun u hu set hset => ?_⟩
      by_cases huv : u = v
      · subst huv
        rw [Function.update_self] at hset
        obtain rfl := Option.some.inj hset
        exact ih.1
      · rw [Function.update_of_ne huv] at hset
        exact hcache u hu set hset

theorem mayAlias_spec (h : Represents shouldInclude ana r) {v w : ℕ} (hv : v < numVars)
    (hw : w < numVars) :
    ((r.mayAlias v w).1 = true ↔
      ana.SharesClass v w ∧ (ana.asksAliasSets = true → shouldInclude w = true)) ∧
      Represents shouldInclude ana (r.mayAlias v w).2 := by
  induction h with
  | basic ana =>
    refine ⟨?_, .basic ana⟩
    rw [RawAAResult.mayAlias, ana.mayAlias_iff shouldInclude hv hw]
    simp [SharesClass, asksAliasSets]
  | ctxSens ana =>
    refine ⟨?_, .ctxSens ana⟩
    rw [RawAAResult.mayAlias, ana.mayAlias_iff shouldInclude hv hw]
    simp [SharesClass, asksAliasSets]
  | @combinator first second r s hfirst hsecond ihf ihs =>
    rw [RawAAResult.mayAlias, SharesClass, asksAliasSets, Bool.or_eq_true]
    by_cases halias : (r.mayAlias v w).1 = true
    · rw [if_pos halias]
      refine ⟨?_, .combinator ihf.2 ihs.2⟩
      have hfst := ihf.1.1 halias
      rw [ihs.1]
      tauto
    · rw [if_neg halias]
      refine ⟨iff_of_false Bool.false_ne_true fun hboth => halias (ihf.1.2 ?_), .combinator ihf.2 hsecond⟩
      exact ⟨hboth.1.1, fun hasks => hboth.2 (Or.inl hasks)⟩
  | @cached mode cache ana r hana hcache ih =>
    cases mode with
    | false =>
      refine ⟨?_, .cached ih.2 hcache⟩
      rw [asksAliasSets, Bool.false_or]
      exact ih.1
    | true =>
      have hcached : Represents shouldInclude (.cached true ana) (.cached true cache r) :=
        .cached hana hcache
      obtain ⟨hset, hrep⟩ := getRawAliasSet_spec hcached hv
      refine ⟨?_, hrep⟩
      rw [RawAAResult.mayAlias, decide_eq_true_eq, hset w, asksAliasSets, Bool.true_or]
      tauto

/-- Queries keep the caches sound. -/
theorem Represents.run (h : Represents shouldInclude ana r) {queries : List AliasQuery}
    (hq : ∀ q ∈ queries, q.InBounds numVars) :
    Represents shouldInclude ana (queries.foldl AliasQuery.after r) := by
  induction queries generalizing r with
  | nil => exact h
  | cons q queries ih =>
    refine ih ?_ fun q' hq' => hq q' (List.mem_cons_of_mem q hq')
    have hbounds := hq q List.mem_cons_self
    cases q with
    | getRawAliasSet v => exact (getRawAliasSet_spec h hbounds).2
    | mayAlias v w => exact (mayAlias_spec h hbounds.1 hbounds.2).2

/-- The result after some queries. -/
def afterQueries (ana : UnionFindAnalysis numVars) (shouldInclude : ℕ → Bool)
    (queries : List AliasQuery) : RawAAResult :=
  queries.foldl AliasQuery.after (ana.consumeAAResults shouldInclude)

/-- `mayAlias` agrees with the alias sets, after any queries, for all values `v` and all listed values
`w`. It is symmetric, and a wrapper answers as what it wraps. -/
def Agrees (ana : UnionFindAnalysis numVars) (shouldInclude : ℕ → Bool) : Prop :=
  ∀ queries : List AliasQuery, (∀ q ∈ queries, q.InBounds numVars) →
    ∀ v < numVars, ∀ w < numVars, shouldInclude w = true →
      ((((ana.afterQueries shouldInclude queries).mayAlias v w).1 = true ↔
        w ∈ ((ana.afterQueries shouldInclude queries).getRawAliasSet v).1 ∨ v = w) ∧
      ((ana.afterQueries shouldInclude queries).mayAlias v w).1 =
        ((ana.afterQueries shouldInclude queries).mayAlias w v).1 ∧
      ∀ mode wrapped, ana = .cached mode wrapped →
        ∀ queries' : List AliasQuery, (∀ q ∈ queries', q.InBounds numVars) →
          ((ana.afterQueries shouldInclude queries).mayAlias v w).1 =
            ((wrapped.afterQueries shouldInclude queries').mayAlias v w).1 ∧
          ((ana.afterQueries shouldInclude queries).getRawAliasSet v).1 =
            ((wrapped.afterQueries shouldInclude queries').getRawAliasSet v).1)

theorem represents_afterQueries (ana : UnionFindAnalysis numVars) (shouldInclude : ℕ → Bool)
    {queries : List AliasQuery} (hq : ∀ q ∈ queries, q.InBounds numVars) :
    Represents shouldInclude ana (ana.afterQueries shouldInclude queries) :=
  (represents_consumeAAResults ana shouldInclude).run hq

/-- The queries agree precisely if no part of the result answers `mayAlias` from alias sets, or the
filter lists every value that shares a class with a listed value. -/
theorem agrees_iff (ana : UnionFindAnalysis numVars) (shouldInclude : ℕ → Bool) :
    ana.Agrees shouldInclude ↔
      (ana.asksAliasSets = true → ∀ v < numVars, ∀ w < numVars, shouldInclude w = true →
        ana.SharesClass v w → shouldInclude v = true) := by
  constructor
  · intro h hasks v hv w hw hinc hshares
    have hrep := represents_consumeAAResults ana shouldInclude
    have hsymm := (h [] (fun q hq => absurd hq List.not_mem_nil) v hv w hw hinc).2.1
    have hvw : ((ana.afterQueries shouldInclude []).mayAlias v w).1 = true :=
      (mayAlias_spec hrep hv hw).1.2 ⟨hshares, fun _ => hinc⟩
    rw [hvw] at hsymm
    exact ((mayAlias_spec hrep hw hv).1.1 hsymm.symm).2 hasks
  · intro h queries hq v hv w hw hinc
    have hrep := represents_afterQueries ana shouldInclude hq
    have hvw := (mayAlias_spec hrep hv hw).1
    have hwv := (mayAlias_spec hrep hw hv).1
    have hset := (getRawAliasSet_spec hrep hv).1
    refine ⟨?_, ?_, fun mode wrapped hana queries' hq' => ?_⟩
    · rw [hvw, hset w]
      constructor
      · exact fun halias => Or.inl ⟨hw, hinc, halias.1⟩
      · rintro (hmem | rfl)
        · exact ⟨hmem.2.2, fun _ => hinc⟩
        · exact ⟨ana.sharesClass_self hv, fun _ => hinc⟩
    · rw [Bool.eq_iff_iff, hvw, hwv, ana.sharesClass_comm w v]
      constructor
      · exact fun halias => ⟨halias.1, fun hasks => h hasks v hv w hw hinc halias.1⟩
      · exact fun halias => ⟨halias.1, fun _ => hinc⟩
    · subst hana
      have hrep' := represents_afterQueries wrapped shouldInclude hq'
      constructor
      · rw [Bool.eq_iff_iff, hvw, (mayAlias_spec hrep' hv hw).1]
        exact and_congr_right fun _ => iff_of_true (fun _ => hinc) fun _ => hinc
      · ext u
        rw [hset u, (getRawAliasSet_spec hrep' hv).1 u]
        rfl

/-- Two values in one class, of which only the second one is listed. -/
def oneListed : UnionFindAnalysis 2 :=
  .cached true (.basic ⟨UnionFind.singletons.join 0 1, [0, 1], id, by decide⟩)

/-- The wrapper finds the listed value in the alias set of the other one, but not the other way round. -/
theorem oneListed_not_agrees : ¬oneListed.Agrees fun vid => decide (vid = 1) := by
  intro h
  have hsymm := (h [] (fun q hq => absurd hq List.not_mem_nil) 0 (by decide) 1 (by decide) (by decide)).2.1
  exact absurd hsymm (by decide)

end UnionFindAnalysis

end Phasar
