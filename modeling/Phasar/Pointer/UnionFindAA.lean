import Phasar.Lib.UnionFind
import Phasar.Pointer.CallingContext
import Mathlib.Data.List.FinRange

/-!
# Context-sensitive union-find aliasing

`CallingContextSensUnionFindAA`: a variable has one object for each calling context of its function,
and edges join objects. An object is its entry of `Obj2Var`, a variable with a context.

* `Assignments`: the values and edges that the analysis is told;
* `var2Obj`, `edgeJoins`, `mayAlias`: the analysis;
* `CloneEdge`, `Connected`: what is connected when variables are cloned for full call strings;
* `sound_iff`: the analysis is sound precisely for the call graphs whose contexts are all visited, if
  values without a function are passed at call sites without calling contexts only.
-/

namespace Phasar

/-- An edge of the pointer assignment graph. `assign` stands for all edges that neither enter nor
leave a function. -/
inductive PAGEdge (N V : Type*)
  | assign (src dst : V)
  | call (callSite : N) (src dst : V)
  | ret (callSite : N) (src dst : V)

/-- The values, with their functions, and then the edges that the analysis is told. -/
structure Assignments (N F : Type*) where
  numVars : ℕ
  getFunction : Fin numVars → Option F
  edges : List (PAGEdge N (Fin numVars))

namespace CallingContextSensUnionFindAA

open CallString CallingContext

variable {N F : Type*} [DecidableEq N] (K : ℕ) (G : CallGraph N F) (A : Assignments N F)

/-- A variable with a context. -/
abbrev CtxObject := Fin A.numVars × CallingContext N K

/-- The contexts that `onAddValue` creates objects of a variable for. -/
def var2Obj (v : Fin A.numVars) : List (CallingContext N K) :=
  match A.getFunction v with
  | some fn =>
    let visited := (visitAllCallingContexts K G fn).foldl (fun ctxs ctx => ctxs.insert ctx) []
    if (G.getCallersOf fn).isEmpty then visited.insert null else visited
  | none => [null]

def getObjectOrNull (v : Fin A.numVars) (ctx : CallingContext N K) : Option (CtxObject K A) :=
  if (var2Obj K G A v).contains ctx then some (v, ctx)
  else if (var2Obj K G A v).contains null then some (v, null)
  else none

/-- The pairs of objects that `onAddEdge` joins. -/
def edgeJoins : PAGEdge N (Fin A.numVars) → List (CtxObject K A × CtxObject K A)
  | .call callSite src dst => (var2Obj K G A src).flatMap fun ctx =>
      (getObjectOrNull K G A dst (withPrefix callSite ctx)).toList.map fun obj => ((src, ctx), obj)
  | .ret callSite src dst => (var2Obj K G A dst).flatMap fun ctx =>
      (getObjectOrNull K G A src (withPrefix callSite ctx)).toList.map fun obj => (obj, (dst, ctx))
  | .assign src dst => (var2Obj K G A src).flatMap fun ctx =>
      if ctx = null then (var2Obj K G A dst).map fun ctx' => ((src, ctx), (dst, ctx'))
      else (getObjectOrNull K G A dst ctx).toList.map fun obj => ((src, ctx), obj)

/-- The alias sets after all edges. -/
def aliasSets : UnionFind (CtxObject K A) :=
  A.edges.foldl (fun sets edge => sets.joinAll (edgeJoins K G A edge)) UnionFind.singletons

/-- `Var2Rep` of the result. -/
def var2Rep (v : Fin A.numVars) : List (CtxObject K A) :=
  (var2Obj K G A v).foldl (fun reps ctx => reps.insert ((aliasSets K G A).find (v, ctx))) []

/-- `mayAlias` of the result. -/
def mayAlias (v w : Fin A.numVars) : Bool :=
  decide (v = w) || (var2Rep K G A v).any fun rep => (var2Rep K G A w).contains rep

variable {K G A}

omit [DecidableEq N] in
theorem mem_foldl_insert {α β : Type*} [BEq β] [LawfulBEq β] (f : α → β) (l : List α)
    (acc : List β) (b : β) : b ∈ l.foldl (fun acc a => acc.insert (f a)) acc ↔ b ∈ acc ∨ ∃ a ∈ l, f a = b := by
  induction l generalizing acc with
  | nil => simp
  | cons a l ih =>
    rw [List.foldl_cons, ih, List.mem_insert_iff, List.exists_mem_cons_iff]
    grind

theorem mem_var2Obj_of_some {v : Fin A.numVars} {fn : F} (h : A.getFunction v = some fn)
    {ctx : CallingContext N K} :
    ctx ∈ var2Obj K G A v ↔ ctx ∈ visitAllCallingContexts K G fn := by
  have hvisited : ctx ∈ (visitAllCallingContexts K G fn).foldl
      (fun ctxs ctx => ctxs.insert ctx) [] ↔ ctx ∈ visitAllCallingContexts K G fn := by
    simpa using mem_foldl_insert id (visitAllCallingContexts K G fn) [] ctx
  simp only [var2Obj, h]
  split_ifs with hempty
  · rw [List.mem_insert_iff, hvisited, visit_of_callers_nil (List.isEmpty_iff.1 hempty)]
    simp
  · exact hvisited

theorem mem_var2Obj_of_none {v : Fin A.numVars} (h : A.getFunction v = none)
    {ctx : CallingContext N K} : ctx ∈ var2Obj K G A v ↔ ctx = null := by
  simp [var2Obj, h]

theorem aliasSets_eq :
    aliasSets K G A = UnionFind.singletons.joinAll (A.edges.flatMap (edgeJoins K G A)) := by
  rw [UnionFind.joinAll, List.foldl_flatMap]
  rfl

variable (K G A) in
/-- Some edge joins the two objects. -/
def Joins (a b : CtxObject K A) : Prop := ∃ edge ∈ A.edges, (a, b) ∈ edgeJoins K G A edge

/-- Two variables may alias if they have objects that joins connect. -/
theorem mayAlias_iff {v w : Fin A.numVars} : mayAlias K G A v w = true ↔ v = w ∨
    ∃ ctx ∈ var2Obj K G A v, ∃ ctx' ∈ var2Obj K G A w,
      Relation.EqvGen (Joins K G A) (v, ctx) (w, ctx') := by
  have hrep : ∀ {v : Fin A.numVars} {rep}, rep ∈ var2Rep K G A v ↔
      ∃ ctx ∈ var2Obj K G A v, (aliasSets K G A).find (v, ctx) = rep := by
    intro v rep
    rw [var2Rep, mem_foldl_insert (fun ctx => (aliasSets K G A).find (v, ctx))]
    simp
  have hfind : ∀ {a b}, (aliasSets K G A).find a = (aliasSets K G A).find b ↔
      Relation.EqvGen (Joins K G A) a b := by
    intro a b
    rw [aliasSets_eq, UnionFind.find_joinAll_singletons_iff]
    simp only [List.mem_flatMap]
    rfl
  rw [mayAlias, Bool.or_eq_true, decide_eq_true_eq, List.any_eq_true]
  refine or_congr_right ?_
  simp only [List.contains_iff_mem, hrep]
  constructor
  · rintro ⟨_, ⟨ctx, hctx, rfl⟩, ctx', hctx', heq⟩
    exact ⟨ctx, hctx, ctx', hctx', hfind.1 heq.symm⟩
  · rintro ⟨ctx, hctx, ctx', hctx', heq⟩
    exact ⟨_, ⟨ctx, hctx, rfl⟩, ctx', hctx', (hfind.2 heq).symm⟩

/-! ### Cloning for full call strings -/

variable (G A)

/-- The clones of a variable; a value without a function exists once. -/
def IsClone (v : Fin A.numVars) (c : CallString N) : Prop :=
  match A.getFunction v with
  | some fn => FullString G fn c
  | none => c = empty

/-- A clone stands for a call string, the single clone of a value without a function for all. -/
def StandsFor (v : Fin A.numVars) (c d : CallString N) : Prop := A.getFunction v = none ∨ c = d

/-- The clones that an edge connects. -/
def CloneEdge : PAGEdge N (Fin A.numVars) → Fin A.numVars × CallString N →
    Fin A.numVars × CallString N → Prop
  | .assign src dst, a, b => a.1 = src ∧ b.1 = dst ∧
      ∃ c, StandsFor A src a.2 c ∧ StandsFor A dst b.2 c
  | .call callSite src dst, a, b => a.1 = src ∧ b.1 = dst ∧
      ∃ c, StandsFor A src a.2 c ∧ StandsFor A dst b.2 (push callSite c)
  | .ret callSite src dst, a, b => a.1 = src ∧ b.1 = dst ∧
      ∃ c, StandsFor A src a.2 (push callSite c) ∧ StandsFor A dst b.2 c

/-- One edge connects two clones. -/
def CloneStep (a b : Fin A.numVars × CallString N) : Prop :=
  IsClone G A a.1 a.2 ∧ IsClone G A b.1 b.2 ∧ ∃ edge ∈ A.edges, CloneEdge A edge a b

/-- Two variables are connected if some of their clones are. -/
def Connected (v w : Fin A.numVars) : Prop :=
  ∃ c d, IsClone G A v c ∧ IsClone G A w d ∧ Relation.EqvGen (CloneStep G A) (v, c) (w, d)

variable (K)

/-- Connected variables may alias. -/
def Sound : Prop := ∀ v w, Connected G A v w → mayAlias K G A v w = true

/-- The enumeration visits the contexts of all call strings. -/
def ContextsVisited : Prop :=
  ∀ fn, ∀ p ∈ callChains G K fn, Reached (callChains G K fn) p

variable {K}

/-- Values without a function are arguments and call results at the call sites `B` only. -/
def PassesAt (B : N → Prop) : Prop :=
  ∀ edge ∈ A.edges, match edge with
    | .assign _ _ => True
    | .call callSite src _ => A.getFunction src = none → B callSite
    | .ret callSite _ dst => A.getFunction dst = none → B callSite

variable {G A}

/-! ### Soundness -/

/-- The object of a clone exists. -/
theorem trunc_mem_var2Obj (hvis : ContextsVisited K G) {v : Fin A.numVars} {c : CallString N}
    (h : IsClone G A v c) : trunc K c ∈ var2Obj K G A v := by
  rw [IsClone] at h
  cases hfn : A.getFunction v with
  | none =>
    rw [hfn] at h
    rw [mem_var2Obj_of_none hfn, h, trunc_empty]
  | some fn =>
    rw [hfn] at h
    obtain ⟨p, hp, heq⟩ := h.exists_chain K
    rw [mem_var2Obj_of_some hfn, ← heq]
    exact (mem_visit_iff hp).2 (hvis fn p hp)

/-- A lookup finds the object of a clone. -/
theorem getObjectOrNull_of_standsFor (hvis : ContextsVisited K G) {v : Fin A.numVars}
    {c d : CallString N} (h : IsClone G A v c) (hd : StandsFor A v c d) :
    getObjectOrNull K G A v (trunc K d) = some (v, trunc K c) := by
  have hmem := trunc_mem_var2Obj hvis h
  rw [getObjectOrNull]
  rcases hd with hnone | rfl
  · have hiff : ∀ ctx : CallingContext N K, ctx ∈ var2Obj K G A v ↔ ctx = null :=
      fun ctx => mem_var2Obj_of_none hnone
    rw [hiff] at hmem
    simp only [List.contains_iff_mem, hiff, hmem, if_true]
    split_ifs with hctx
    · rw [hctx]
    · rfl
  · rw [if_pos (List.contains_iff_mem.2 hmem)]

/-- A lookup for a call from a clone finds the object of the clone inside the callee. -/
theorem getObjectOrNull_enter (hvis : ContextsVisited K G) {src dst : Fin A.numVars} {cs : N}
    {c d e : CallString N} (hc : IsClone G A src c) (hd : IsClone G A dst d)
    (hce : StandsFor A src c e) (hde : StandsFor A dst d (push cs e))
    (hcs : A.getFunction src = none → K ≤ 1 ∨ ∀ fn, cs ∈ G.getCallersOf fn →
      G.getCallersOf (G.getFunctionOf cs) = []) :
    getObjectOrNull K G A dst (withPrefix cs (trunc K c)) = some (dst, trunc K d) := by
  rw [← trunc_push]
  rcases hce with hsrc | rfl
  · rcases hde with hdst | rfl
    · exact getObjectOrNull_of_standsFor hvis hd (Or.inl hdst)
    · cases hfn : A.getFunction dst with
      | none => exact getObjectOrNull_of_standsFor hvis hd (Or.inl hfn)
      | some fn =>
        -- the string of the argument is lost, but the context of the callee does not need it
        have hc' : c = empty := by
          rw [IsClone, hsrc] at hc
          exact hc
        have hfull : FullString G fn (push cs e) := by
          rw [IsClone, hfn] at hd
          exact hd
        obtain ⟨hmem, hfull⟩ := fullString_push.1 hfull
        have heq : trunc K (push cs c) = trunc K (push cs e) := by
          rcases hcs hsrc with hK | hroot
          · funext ⟨j, hj⟩
            obtain rfl : j = 0 := by omega
            rfl
          · rcases hfull.cases with ⟨rfl, -⟩ | ⟨cs', c', -, hcs', -⟩
            · rw [hc']
            · rw [hroot fn hmem] at hcs'
              cases hcs'
        rw [heq]
        exact getObjectOrNull_of_standsFor hvis hd (Or.inr rfl)
  · exact getObjectOrNull_of_standsFor hvis hd hde

/-- The condition on the call sites of values without a function. -/
def PlainCallSites (K : ℕ) (G : CallGraph N F) (B : N → Prop) : Prop :=
  K ≤ 1 ∨ ∀ cs, B cs → ∀ fn, cs ∈ G.getCallersOf fn → G.getCallersOf (G.getFunctionOf cs) = []

/-- An edge joins the objects of the clones that it connects. -/
theorem joins_of_cloneStep {B : N → Prop} (hvis : ContextsVisited K G) (hB : PlainCallSites K G B)
    (hpass : PassesAt A B) {a b : Fin A.numVars × CallString N} (h : CloneStep G A a b) :
    Joins K G A (a.1, trunc K a.2) (b.1, trunc K b.2) := by
  obtain ⟨ha, hb, edge, hedge, hab⟩ := h
  have hsite : ∀ {cs}, B cs → K ≤ 1 ∨ ∀ fn, cs ∈ G.getCallersOf fn →
      G.getCallersOf (G.getFunctionOf cs) = [] := fun hcs => hB.imp_right fun h => h _ hcs
  have hmema := trunc_mem_var2Obj hvis ha
  have hmemb := trunc_mem_var2Obj hvis hb
  obtain ⟨src, c⟩ := a
  obtain ⟨dst, d⟩ := b
  refine ⟨edge, hedge, ?_⟩
  cases edge with
  | assign =>
    obtain ⟨rfl, rfl, e, hc, hd⟩ := hab
    refine List.mem_flatMap.2 ⟨trunc K c, hmema, ?_⟩
    split_ifs with hnull
    · exact List.mem_map.2 ⟨trunc K d, hmemb, rfl⟩
    · rcases hc with hnone | rfl
      · exact absurd ((mem_var2Obj_of_none hnone).1 hmema) hnull
      · rw [getObjectOrNull_of_standsFor hvis hb hd]
        simp
  | call cs =>
    obtain ⟨rfl, rfl, e, hc, hd⟩ := hab
    refine List.mem_flatMap.2 ⟨trunc K c, hmema, ?_⟩
    rw [getObjectOrNull_enter hvis ha hb hc hd fun hnone => hsite (hpass _ hedge hnone)]
    simp
  | ret cs =>
    obtain ⟨rfl, rfl, e, hc, hd⟩ := hab
    refine List.mem_flatMap.2 ⟨trunc K d, hmemb, ?_⟩
    rw [getObjectOrNull_enter hvis hb ha hd hc fun hnone => hsite (hpass _ hedge hnone)]
    simp

theorem sound_of_contextsVisited {B : N → Prop} (hvis : ContextsVisited K G)
    (hB : PlainCallSites K G B) (hpass : PassesAt A B) : Sound K G A := by
  rintro v w ⟨c, d, hc, hd, hconn⟩
  refine mayAlias_iff.2 (Or.inr ⟨_, trunc_mem_var2Obj hvis hc, _, trunc_mem_var2Obj hvis hd, ?_⟩)
  have hmap : ∀ {a b : Fin A.numVars × CallString N}, Relation.EqvGen (CloneStep G A) a b →
      Relation.EqvGen (Joins K G A) (a.1, trunc K a.2) (b.1, trunc K b.2) := by
    intro a b h
    induction h with
    | rel a b h => exact .rel _ _ (joins_of_cloneStep hvis hB hpass h)
    | refl a => exact .refl _
    | symm a b _ ih => exact ih.symm _ _
    | trans a b c _ _ ih₁ ih₂ => exact ih₁.trans _ _ _ ih₂
  exact hmap hconn

/-! ### Where it is not sound -/

/-- Without the fallback, a lookup finds only what was asked for. -/
theorem getObjectOrNull_iff {v : Fin A.numVars} {fn : F} {ctx : CallingContext N K}
    {obj : CtxObject K A} (hK : 0 < K) (hfn : A.getFunction v = some fn)
    (hcallers : G.getCallersOf fn ≠ []) : getObjectOrNull K G A v ctx = some obj ↔
      ctx ∈ visitAllCallingContexts K G fn ∧ obj = (v, ctx) := by
  have hnull := null_notMem_visit hK hcallers
  simp only [getObjectOrNull, List.contains_iff_mem, mem_var2Obj_of_some hfn, hnull, if_false]
  split_ifs with h
  · simp [h, eq_comm]
  · simp [h]

/-- A value without a function is passed at `cs` to a parameter of `fn`. -/
def passGlobal (fn : F) (cs : N) : Assignments N F where
  numVars := 2
  getFunction v := if v.val = 0 then none else some fn
  edges := [.call cs ⟨0, Nat.two_pos⟩ ⟨1, Nat.one_lt_two⟩]

/-- The parameter is connected with the argument, but the lookup of its object fails. -/
theorem not_sound_passGlobal {fn : F} {cs : N} (hK : 1 < K) (hcs : cs ∈ G.getCallersOf fn)
    (hcallers : G.getCallersOf (G.getFunctionOf cs) ≠ []) : ¬Sound K G (passGlobal fn cs) := by
  intro hsound
  have hfn : G.getCallersOf fn ≠ [] := List.ne_nil_of_mem hcs
  obtain ⟨c, hc⟩ := exists_fullString G (G.getFunctionOf cs)
  have hconn : Connected G (passGlobal fn cs) (0 : Fin 2) (1 : Fin 2) := by
    have h0 : IsClone G (passGlobal fn cs) (0 : Fin 2) empty := rfl
    have h1 : IsClone G (passGlobal fn cs) (1 : Fin 2) (push cs c) := fullString_push.2 ⟨hcs, hc⟩
    refine ⟨_, _, h0, h1, .rel _ _ ⟨h0, h1, _, List.mem_cons_self, rfl, rfl, c, ?_, ?_⟩⟩
    · exact Or.inl rfl
    · exact Or.inr rfl
  rcases mayAlias_iff.1 (hsound _ _ hconn) with heq | ⟨ctx, -, ctx', -, hjoin⟩
  · cases heq
  · -- nothing is joined, so that only equal objects are connected
    have hnone : ∀ a b, Joins K G (passGlobal fn cs) a b → a = b := by
      rintro a b ⟨edge, hedge, hab⟩
      obtain rfl := List.mem_singleton.1 hedge
      obtain ⟨ctx, hctx, hab⟩ := List.mem_flatMap.1 hab
      obtain rfl := (mem_var2Obj_of_none (K := K) (G := G) rfl).1 hctx
      obtain ⟨obj, hobj, -⟩ := List.mem_map.1 hab
      have hmem := ((getObjectOrNull_iff (by omega) rfl hfn).1 (Option.mem_toList.1 hobj)).1
      exact absurd (callers_eq_nil_of_single hK hfn hmem) hcallers
    have heq := UnionFind.eq_of_eqvGen (f := id) hnone hjoin
    cases congrArg Prod.fst heq

/-- A value is passed down a call chain that ends in `fn`. -/
def passDown (G : CallGraph N F) (fn : F) (p : List N) : Assignments N F where
  numVars := p.length + 1
  getFunction i := some (funAt G fn (ofChain p) i.val)
  edges := (List.finRange p.length).map fun i => .call (p.get i) i.succ i.castSucc

omit [DecidableEq N] in
theorem fullString_drop {fn : F} {p : List N} (h : FullString G fn (ofChain p)) :
    ∀ {i : ℕ}, i ≤ p.length → FullString G (funAt G fn (ofChain p) i) (ofChain (p.drop i)) := by
  intro i
  induction i with
  | zero => exact fun _ => h
  | succ i ih =>
    intro hi
    have hdrop := ih (by omega)
    rw [List.drop_eq_getElem_cons (by omega), ofChain_cons, fullString_push] at hdrop
    have hfun : funAt G fn (ofChain p) (i + 1) = G.getFunctionOf p[i] := by
      have hi' : ofChain p i = some p[i] := List.getElem?_eq_getElem (by omega)
      rw [funAt, hi']
    rw [hfun]
    exact hdrop.2

/-- The value that is passed down is connected with the last parameter, but its object is not. -/
theorem not_sound_passDown {fn : F} {p : List N} (hp : p ∈ callChains G K fn)
    (hreach : ¬Reached (callChains G K fn) p) : ¬Sound K G (passDown G fn p) := by
  intro hsound
  have hlt : p.length < K := by
    by_contra hlt
    obtain ⟨before, after, heq⟩ := List.append_of_mem hp
    refine hreach ⟨before, after, heq, fun q hq => ?_⟩
    have hq' : q ∈ callChains G K fn := heq ▸ by simp [hq]
    have := length_le_of_mem_callChains hq'
    omega
  have hfull := fullString_ofChain hp hlt
  have hclone : ∀ i : Fin (p.length + 1), IsClone G (passDown G fn p) i (ofChain (p.drop i.val)) :=
    fun i => fullString_drop hfull (by omega)
  have hdrop : ∀ i : Fin p.length, ofChain (p.drop i.val) = push (p.get i) (ofChain (p.drop (i.val + 1))) :=
    fun i => by rw [List.drop_eq_getElem_cons i.isLt, ofChain_cons, List.get_eq_getElem]
  have hconn : ∀ i : Fin (p.length + 1), Relation.EqvGen (CloneStep G (passDown G fn p))
      (i, ofChain (p.drop i.val)) ((0 : Fin (p.length + 1)), ofChain p) := by
    intro i
    induction i using Fin.induction with
    | zero => exact .refl _
    | succ i ih =>
      refine .trans _ _ _ (.rel _ _ ⟨hclone i.succ, hclone i.castSucc, _,
        List.mem_map_of_mem (List.mem_finRange i), rfl, rfl, _, Or.inr rfl, Or.inr (hdrop i)⟩) ih
  -- the objects of the contexts that are passed down are joined only among themselves
  have hjoins : ∀ a b, Joins K G (passDown G fn p) a b →
      (a.2 = trunc K (ofChain (p.drop a.1.val))) = (b.2 = trunc K (ofChain (p.drop b.1.val))) := by
    rintro a b ⟨edge, hedge, hab⟩
    obtain ⟨i, -, rfl⟩ := List.mem_map.1 hedge
    obtain ⟨ctx, hctx, hab⟩ := List.mem_flatMap.1 hab
    obtain ⟨obj, hobj, heq⟩ := List.mem_map.1 hab
    obtain ⟨rfl, rfl⟩ := Prod.mk.inj heq
    have hcaller : G.getCallersOf (funAt G fn (ofChain p) i.val) ≠ [] :=
      List.ne_nil_of_mem ((hfull i.val).1 (p.get i) (List.getElem?_eq_getElem i.isLt))
    obtain ⟨-, rfl⟩ := (getObjectOrNull_iff (by omega) rfl hcaller).1 (Option.mem_toList.1 hobj)
    have hctx' : ctx ∈ visitAllCallingContexts K G (funAt G fn (ofChain p) (i.val + 1)) :=
      (mem_var2Obj_of_some rfl).1 hctx
    show (ctx = trunc K (ofChain (p.drop (i.val + 1)))) =
      (withPrefix (p.get i) ctx = trunc K (ofChain (p.drop i.val)))
    rw [hdrop i, trunc_push]
    refine propext ⟨fun h => by rw [h], fun h => ?_⟩
    exact eq_of_withPrefix hctx' (by simp; omega) h
  rcases mayAlias_iff.1 (hsound _ _ ⟨_, _, hclone (Fin.last _), hclone 0, hconn (Fin.last _)⟩) with
    heq | ⟨ctx, hctx, ctx', hctx', hjoin⟩
  · -- the empty chain is visited first
    obtain rfl : p = [] := List.length_eq_zero_iff.1 (congrArg Fin.val heq)
    have hfn := List.isEmpty_iff.2 (callers_eq_nil_of_chain (by omega) hp)
    rw [callChains_of_isEmpty hfn] at hreach
    exact hreach ⟨[], [], rfl, by simp⟩
  · have hroot : G.getCallersOf (funAt G fn (ofChain p) p.length) = [] :=
      (hfull p.length).2 (List.getElem?_eq_none le_rfl)
    have hnull : ctx ∈ visitAllCallingContexts K G (funAt G fn (ofChain p) p.length) :=
      (mem_var2Obj_of_some rfl).1 hctx
    rw [visit_of_callers_nil hroot, List.mem_singleton] at hnull
    have heq : ctx' = trunc K (ofChain p) := by
      refine (UnionFind.eq_of_eqvGen hjoins hjoin).mp ?_
      rw [hnull]
      show null = trunc K (ofChain (p.drop p.length))
      rw [List.drop_length, ofChain_nil, trunc_empty]
    have hmem : ctx' ∈ visitAllCallingContexts K G fn := (mem_var2Obj_of_some rfl).1 hctx'
    exact hreach ((mem_visit_iff hp).1 (heq ▸ hmem))

/-- For every call graph and every set `B` of call sites: the analysis is sound for all values and edges
that pass values without a function at `B` only, precisely if the enumeration visits all contexts and
the call sites `B` are in functions without callers, or contexts have one call site at most. -/
theorem sound_iff (K : ℕ) (G : CallGraph N F) (B : N → Prop) :
    (∀ A : Assignments N F, PassesAt A B → Sound K G A) ↔
      ContextsVisited K G ∧ PlainCallSites K G B := by
  constructor
  · intro h
    constructor
    · intro fn p hp
      by_contra hreach
      refine not_sound_passDown hp hreach (h _ fun edge hedge => ?_)
      obtain ⟨i, -, rfl⟩ := List.mem_map.1 hedge
      exact fun hnone => absurd hnone (Option.some_ne_none _)
    · rw [PlainCallSites, or_iff_not_imp_left, not_le]
      intro hK cs hcs fn hmem
      by_contra hcallers
      refine not_sound_passGlobal hK hmem hcallers (h _ fun edge hedge => ?_)
      obtain rfl := List.mem_singleton.1 hedge
      exact fun _ => hcs
  · rintro ⟨hvis, hB⟩ A hpass
    exact sound_of_contextsVisited hvis hB hpass

/-- Function 0 calls function 1 at the call site 2 and function 2 at the call site 1. Function 1 calls
function 2 at the call site 0. -/
def staleGraph : CallGraph ℕ ℕ where
  getCallersOf fn := if fn = 2 then [0, 1] else if fn = 1 then [2] else []
  getFunctionOf cs := if cs = 0 then 1 else 0

/-- The longer chain of function 2 leaves its second call in the context of the shorter one, and a value
without a function loses the second call. -/
theorem not_sound_staleGraph : ¬Sound 2 staleGraph (passDown staleGraph 2 [1]) ∧
    ¬Sound 2 staleGraph (passGlobal 2 0) := by
  constructor
  · refine not_sound_passDown (by decide) ?_
    rintro ⟨before, after, heq, hle⟩
    rw [show callChains staleGraph 2 2 = [[0, 2], [1]] by decide] at heq
    rcases before with _ | ⟨q, before⟩
    · cases heq
    · obtain ⟨rfl, -⟩ := List.cons.inj heq
      exact absurd (hle [0, 2] List.mem_cons_self) (by decide)
  · exact not_sound_passGlobal (by decide) (by decide) (by decide)

end CallingContextSensUnionFindAA

end Phasar
