import Mathlib.Data.Fintype.Pi
import Mathlib.Data.List.Basic
import Mathlib.Tactic.Common

/-!
# Calling contexts

Call strings of a call graph, and their `K` most recent call sites as `CallingContextConstructor`
enumerates them. The enumeration writes every call chain into one array and never clears it.

* `CallGraph`, `CallingContext`, `visitAllCallingContexts`;
* `FullString`: the full call strings of a function, endless ones of recursive functions included;
* `callChains`, `mem_visit_iff`: the context of a chain is visited exactly if some occurrence of the
  chain comes after no longer chain.
-/

namespace Phasar

/-- The callers of the functions, and the functions of the call sites. -/
structure CallGraph (N F : Type*) where
  getCallersOf : F → List N
  getFunctionOf : N → F

/-- The `K` most recent call sites, the most recent first; null is `none`. -/
abbrev CallingContext (N : Type*) (K : ℕ) := Fin K → Option N

namespace CallingContext

variable {N : Type*} {K : ℕ}

/-- `CallingContextId::None`. -/
def null : CallingContext N K := fun _ => none

/-- Put `firstCS` first, and drop the last call site. -/
def withPrefix (firstCS : N) (ctx : CallingContext N K) : CallingContext N K
  | ⟨0, _⟩ => some firstCS
  | ⟨i + 1, h⟩ => ctx ⟨i, Nat.lt_of_succ_lt h⟩

/-- `Callers[idx] = cs`. -/
def setCaller (idx : ℕ) (cs : N) (ctx : CallingContext N K) : CallingContext N K :=
  fun j => if j.val = idx then some cs else ctx j

end CallingContext

/-- The contexts that were visited, and the array that the enumeration writes to. -/
structure ContextVisit (N : Type*) (K : ℕ) where
  visited : List (CallingContext N K)
  currCtx : CallingContext N K

namespace ContextVisit

variable {N : Type*} {K : ℕ}

def record (s : ContextVisit N K) : ContextVisit N K :=
  { s with visited := s.visited ++ [s.currCtx] }

def setCaller (idx : ℕ) (cs : N) (s : ContextVisit N K) : ContextVisit N K :=
  { s with currCtx := s.currCtx.setCaller idx cs }

end ContextVisit

variable {N F : Type*} {K : ℕ}

/-- `visitAllCallingContextsImpl` at the index `K - left`. -/
def visitAllCallingContextsImpl (G : CallGraph N F) :
    ℕ → F → ContextVisit N K → ContextVisit N K
  | 0, _, s => s.record
  | left + 1, fn, s =>
    -- behind a chain that ends early stays what an earlier chain has written
    if (G.getCallersOf fn).isEmpty then s.record
    else (G.getCallersOf fn).foldl (fun s cs =>
      visitAllCallingContextsImpl G left (G.getFunctionOf cs) (s.setCaller (K - (left + 1)) cs)) s

/-- The contexts of a function, in the order of the visits. -/
def visitAllCallingContexts (K : ℕ) (G : CallGraph N F) (fn : F) : List (CallingContext N K) :=
  (visitAllCallingContextsImpl G K fn ⟨[], CallingContext.null⟩).visited

/-! ### Full call strings -/

/-- An unlimited call string, the most recent call first; `none` from its end on. -/
abbrev CallString (N : Type*) := ℕ → Option N

namespace CallString

/-- The string without calls. -/
def empty : CallString N := fun _ => none

/-- The string `cs.c`. -/
def push (cs : N) (c : CallString N) : CallString N
  | 0 => some cs
  | i + 1 => c i

/-- The `K` most recent calls. -/
def trunc (K : ℕ) (c : CallString N) : CallingContext N K := fun j => c j

@[simp] theorem trunc_empty : trunc K (empty : CallString N) = CallingContext.null := rfl

@[simp] theorem trunc_push (cs : N) (c : CallString N) :
    trunc K (push cs c) = CallingContext.withPrefix cs (trunc K c) := by
  funext j
  obtain ⟨_ | j, hj⟩ := j <;> rfl

end CallString

open CallString CallingContext

/-- The function that the first `i` calls of the string are reached from. -/
def funAt (G : CallGraph N F) (fn : F) (c : CallString N) : ℕ → F
  | 0 => fn
  | i + 1 => match c i with
    | some cs => G.getFunctionOf cs
    | none => funAt G fn c i

/-- A full call string of `fn`: it ends only at a function without callers. -/
def FullString (G : CallGraph N F) (fn : F) (c : CallString N) : Prop :=
  ∀ i, (∀ cs, c i = some cs → cs ∈ G.getCallersOf (funAt G fn c i)) ∧
    (c i = none → G.getCallersOf (funAt G fn c i) = [])

variable {G : CallGraph N F} {fn : F}

theorem funAt_push (cs : N) (c : CallString N) (i : ℕ) :
    funAt G fn (push cs c) (i + 1) = funAt G (G.getFunctionOf cs) c i := by
  induction i with
  | zero => rfl
  | succ i ih =>
    rw [funAt, ih]
    rfl

theorem fullString_push {cs : N} {c : CallString N} :
    FullString G fn (push cs c) ↔ cs ∈ G.getCallersOf fn ∧ FullString G (G.getFunctionOf cs) c := by
  constructor
  · intro h
    refine ⟨(h 0).1 cs rfl, fun i => ?_⟩
    have hi := h (i + 1)
    rwa [funAt_push] at hi
  · rintro ⟨hcs, h⟩ i
    cases i with
    | zero =>
      refine ⟨fun cs' hcs' => ?_, fun hnone => ?_⟩
      · obtain rfl := Option.some.inj hcs'
        exact hcs
      · cases hnone
    | succ i =>
      rw [funAt_push]
      exact h i

theorem funAt_empty (i : ℕ) : funAt G fn empty i = fn := by
  induction i with
  | zero => rfl
  | succ i ih => exact ih

theorem fullString_empty : FullString G fn empty ↔ G.getCallersOf fn = [] := by
  constructor
  · exact fun h => (h 0).2 rfl
  · intro h i
    rw [funAt_empty]
    exact ⟨fun cs hcs => (Option.some_ne_none cs hcs.symm).elim, fun _ => h⟩

theorem eq_push_of_some {cs : N} {c : CallString N} (h : c 0 = some cs) :
    c = push cs fun i => c (i + 1) := by
  funext i
  cases i with
  | zero => exact h
  | succ i => rfl

/-- A full string ends at once, or goes on with a caller. -/
theorem FullString.cases {c : CallString N} (h : FullString G fn c) :
    (c = empty ∧ G.getCallersOf fn = []) ∨
      ∃ cs c', c = push cs c' ∧ cs ∈ G.getCallersOf fn ∧ FullString G (G.getFunctionOf cs) c' := by
  cases h0 : c 0 with
  | none =>
    left
    have hfn : G.getCallersOf fn = [] := (h 0).2 h0
    refine ⟨?_, hfn⟩
    have hall : ∀ i, funAt G fn c i = fn ∧ c i = none := by
      intro i
      induction i with
      | zero => exact ⟨rfl, h0⟩
      | succ i ih =>
        have hfun : funAt G fn c (i + 1) = fn := by
          rw [funAt, ih.2]
          exact ih.1
        refine ⟨hfun, Option.eq_none_iff_forall_not_mem.2 fun cs hcs => ?_⟩
        have hmem := (h (i + 1)).1 cs hcs
        rw [hfun, hfn] at hmem
        cases hmem
    exact funext fun i => (hall i).2
  | some cs =>
    right
    have hc := eq_push_of_some h0
    rw [hc, fullString_push] at h
    exact ⟨cs, _, hc, h⟩

/-- The string that follows the first caller of each function. -/
def firstFun (G : CallGraph N F) (fn : F) : ℕ → F
  | 0 => fn
  | i + 1 => match (G.getCallersOf (firstFun G fn i)).head? with
    | some cs => G.getFunctionOf cs
    | none => firstFun G fn i

theorem exists_fullString (G : CallGraph N F) (fn : F) : ∃ c, FullString G fn c := by
  refine ⟨fun i => (G.getCallersOf (firstFun G fn i)).head?, fun i => ?_⟩
  have hfun : funAt G fn (fun i => (G.getCallersOf (firstFun G fn i)).head?) i =
      firstFun G fn i := by
    induction i with
    | zero => rfl
    | succ i ih => rw [funAt, firstFun, ih]
  rw [hfun]
  exact ⟨fun cs hcs => List.mem_of_head? hcs, fun hnone => List.head?_eq_none_iff.1 hnone⟩

/-! ### Call chains -/

/-- The chains of at most `k` calls that lead to a function, in the order of the enumeration. Only a
chain of `k` calls ends at a function with callers. -/
def callChains (G : CallGraph N F) : ℕ → F → List (List N)
  | 0, _ => [[]]
  | k + 1, fn =>
    if (G.getCallersOf fn).isEmpty then [[]]
    else (G.getCallersOf fn).flatMap fun cs => (callChains G k (G.getFunctionOf cs)).map (cs :: ·)

attribute [local simp] callChains in
theorem callChains_of_isEmpty {k : ℕ} (h : (G.getCallersOf fn).isEmpty = true) :
    callChains G k fn = [[]] := by
  cases k with
  | zero => rfl
  | succ k => simp [h]

theorem mem_callChains_succ {k : ℕ} (h : ¬(G.getCallersOf fn).isEmpty = true) {p : List N} :
    p ∈ callChains G (k + 1) fn ↔ ∃ cs ∈ G.getCallersOf fn,
      ∃ p' ∈ callChains G k (G.getFunctionOf cs), p = cs :: p' := by
  rw [callChains, if_neg h]
  simp only [List.mem_flatMap, List.mem_map, eq_comm]

theorem length_le_of_mem_callChains {k : ℕ} {p : List N} (hp : p ∈ callChains G k fn) :
    p.length ≤ k := by
  induction k generalizing fn p with
  | zero => simp_all [callChains]
  | succ k ih =>
    by_cases h : (G.getCallersOf fn).isEmpty = true
    · rw [callChains_of_isEmpty h, List.mem_singleton] at hp
      simp [hp]
    · obtain ⟨cs, -, p', hp', rfl⟩ := (mem_callChains_succ h).1 hp
      exact Nat.succ_le_succ (ih hp')

/-- No chain goes on where another one ends. -/
theorem eq_of_prefix {k : ℕ} {p q : List N} (hp : p ∈ callChains G k fn)
    (hq : q ∈ callChains G k fn) (hpq : p <+: q) : p = q := by
  induction k generalizing fn p q with
  | zero => simp_all [callChains]
  | succ k ih =>
    by_cases h : (G.getCallersOf fn).isEmpty = true
    · rw [callChains_of_isEmpty h, List.mem_singleton] at hp hq
      rw [hp, hq]
    · obtain ⟨cs, -, p', hp', rfl⟩ := (mem_callChains_succ h).1 hp
      obtain ⟨cs', -, q', hq', rfl⟩ := (mem_callChains_succ h).1 hq
      obtain ⟨rfl, hpq'⟩ := List.cons_prefix_cons.1 hpq
      rw [ih hp' hq' hpq']

theorem callChains_ne_nil (G : CallGraph N F) (k : ℕ) (fn : F) : callChains G k fn ≠ [] := by
  induction k generalizing fn with
  | zero => simp [callChains]
  | succ k ih =>
    by_cases h : (G.getCallersOf fn).isEmpty = true
    · simp [callChains_of_isEmpty h]
    · obtain ⟨cs, hcs⟩ := List.exists_mem_of_ne_nil _ fun hnil => h (List.isEmpty_iff.2 hnil)
      obtain ⟨p, hp⟩ := List.exists_mem_of_ne_nil _ (ih (G.getFunctionOf cs))
      exact List.ne_nil_of_mem ((mem_callChains_succ h).2 ⟨cs, hcs, p, hp, rfl⟩)

/-- The calls of a chain as a string. -/
def ofChain (p : List N) : CallString N := fun i => p[i]?

@[simp] theorem ofChain_nil : ofChain ([] : List N) = empty := rfl

@[simp] theorem ofChain_cons (cs : N) (p : List N) : ofChain (cs :: p) = push cs (ofChain p) := by
  funext i
  cases i <;> rfl

/-- The first `k` calls of a full string are a chain. -/
theorem FullString.exists_chain {c : CallString N} (h : FullString G fn c) (k : ℕ) :
    ∃ p ∈ callChains G k fn, trunc k (ofChain p) = trunc k c := by
  induction k generalizing fn c with
  | zero => exact ⟨[], by simp [callChains], funext fun j => j.elim0⟩
  | succ k ih =>
    rcases h.cases with ⟨rfl, hfn⟩ | ⟨cs, c', rfl, hcs, hc'⟩
    · exact ⟨[], by simp [callChains_of_isEmpty (List.isEmpty_iff.2 hfn)], rfl⟩
    · obtain ⟨p, hp, heq⟩ := ih hc'
      have hne : ¬(G.getCallersOf fn).isEmpty = true := fun hnil => by
        rw [List.isEmpty_iff.1 hnil] at hcs
        cases hcs
      refine ⟨cs :: p, (mem_callChains_succ hne).2 ⟨cs, hcs, p, hp, rfl⟩, ?_⟩
      rw [ofChain_cons]
      funext ⟨j, hj⟩
      cases j with
      | zero => rfl
      | succ j => exact congrFun heq ⟨j, by omega⟩

/-- A chain that ends early is a full string. -/
theorem fullString_ofChain {k : ℕ} {p : List N} (hp : p ∈ callChains G k fn) (hlt : p.length < k) :
    FullString G fn (ofChain p) := by
  induction k generalizing fn p with
  | zero => omega
  | succ k ih =>
    by_cases h : (G.getCallersOf fn).isEmpty = true
    · rw [callChains_of_isEmpty h, List.mem_singleton] at hp
      rw [hp, ofChain_nil, fullString_empty]
      exact List.isEmpty_iff.1 h
    · obtain ⟨cs, hcs, p', hp', rfl⟩ := (mem_callChains_succ h).1 hp
      rw [ofChain_cons, fullString_push]
      rw [List.length_cons] at hlt
      exact ⟨hcs, ih hp' (by omega)⟩

/-! ### What the enumeration visits -/

/-- Write a chain into the array, from the index `idx` on. -/
def overlay (idx : ℕ) (p : List N) (ctx : CallingContext N K) : CallingContext N K :=
  fun j => if idx ≤ j.val then (p[j.val - idx]?).or (ctx j) else ctx j

/-- Write a chain into the array and visit the result. -/
def extend (idx : ℕ) (s : ContextVisit N K) (p : List N) : ContextVisit N K :=
  ⟨s.visited ++ [overlay idx p s.currCtx], overlay idx p s.currCtx⟩

theorem overlay_nil (idx : ℕ) (ctx : CallingContext N K) : overlay idx [] ctx = ctx := by
  funext j
  simp [overlay]

theorem overlay_cons (idx : ℕ) (cs : N) (p : List N) (ctx : CallingContext N K) :
    overlay idx (cs :: p) ctx = overlay (idx + 1) p (ctx.setCaller idx cs) := by
  funext j
  simp only [overlay, CallingContext.setCaller]
  rcases lt_trichotomy j.val idx with hlt | heq | hgt
  · rw [if_neg (by omega), if_neg (by omega), if_neg (by omega)]
  · rw [if_pos (by omega), if_neg (by omega), if_pos heq, heq]
    simp
  · rw [if_pos (by omega), if_pos (by omega), if_neg (by omega)]
    rw [show j.val - idx = (j.val - (idx + 1)) + 1 by omega, List.getElem?_cons_succ]

theorem extend_nil (idx : ℕ) (s : ContextVisit N K) : extend idx s [] = s.record := by
  simp [extend, overlay_nil, ContextVisit.record]

theorem extend_cons (idx : ℕ) (cs : N) (p : List N) (s : ContextVisit N K) :
    extend idx s (cs :: p) = extend (idx + 1) (s.setCaller idx cs) p := by
  simp [extend, overlay_cons, ContextVisit.setCaller]

theorem setCaller_extend (idx : ℕ) (cs : N) (p : List N) (s : ContextVisit N K) :
    (extend idx s (cs :: p)).setCaller idx cs = extend idx s (cs :: p) := by
  simp only [ContextVisit.setCaller, extend]
  congr 1
  funext j
  simp only [CallingContext.setCaller, overlay]
  by_cases hj : j.val = idx
  · simp [hj]
  · simp [hj]

theorem foldl_extend_cons (idx : ℕ) (cs : N) :
    ∀ {chains : List (List N)} (s : ContextVisit N K), chains ≠ [] →
      (chains.map (cs :: ·)).foldl (extend idx) s =
        chains.foldl (extend (idx + 1)) (s.setCaller idx cs)
  | [], _, h => absurd rfl h
  | [p], s, _ => extend_cons idx cs p s
  | p :: q :: chains, s, _ => by
    rw [List.map_cons, List.foldl_cons, List.foldl_cons, foldl_extend_cons idx cs _ (by simp),
      setCaller_extend, extend_cons]

/-- The enumeration writes all chains, one after the other, into the array. -/
theorem visitAllCallingContextsImpl_eq {left : ℕ} (hleft : left ≤ K) (s : ContextVisit N K) :
    visitAllCallingContextsImpl G left fn s =
      (callChains G left fn).foldl (extend (K - left)) s := by
  induction left generalizing fn s with
  | zero => exact (extend_nil _ s).symm
  | succ left ih =>
    rw [visitAllCallingContextsImpl]
    split_ifs with h
    · rw [callChains_of_isEmpty h]
      exact (extend_nil _ s).symm
    · rw [callChains, if_neg h, List.foldl_flatMap]
      congr 1
      funext s cs
      rw [foldl_extend_cons _ _ _ (callChains_ne_nil G left _), ih (by omega),
        show K - (left + 1) + 1 = K - left by omega]

/-- The array after some chains: what a chain did not overwrite is still there. -/
def stale (chains : List (List N)) (ctx : CallingContext N K) : CallingContext N K :=
  chains.foldl (fun ctx p => overlay 0 p ctx) ctx

theorem stale_eq_none_iff (chains : List (List N)) {ctx : CallingContext N K} {j : Fin K} :
    stale chains ctx j = none ↔ ctx j = none ∧ ∀ q ∈ chains, q.length ≤ j.val := by
  induction chains generalizing ctx with
  | nil => simp [stale]
  | cons p chains ih =>
    have hstep : overlay 0 p ctx j = none ↔ p.length ≤ j.val ∧ ctx j = none := by
      simp [overlay, Option.or_eq_none_iff]
    rw [stale, List.foldl_cons, ← stale, ih, hstep, List.forall_mem_cons]
    tauto

theorem mem_foldl_extend (chains : List (List N)) {s : ContextVisit N K}
    {ctx : CallingContext N K} :
    ctx ∈ (chains.foldl (extend 0) s).visited ↔ ctx ∈ s.visited ∨
      ∃ before p after, chains = before ++ p :: after ∧ ctx = overlay 0 p (stale before s.currCtx) := by
  induction chains generalizing s with
  | nil => simp
  | cons q chains ih =>
    rw [List.foldl_cons, ih]
    simp only [extend, List.mem_append, List.mem_singleton, or_assoc]
    refine or_congr_right ?_
    constructor
    · rintro (rfl | ⟨before, p, after, rfl, rfl⟩)
      · exact ⟨[], q, chains, rfl, rfl⟩
      · exact ⟨q :: before, p, after, rfl, rfl⟩
    · rintro ⟨_ | ⟨q', before⟩, p, after, heq, rfl⟩
      · obtain ⟨rfl, rfl⟩ := List.cons.inj heq
        exact Or.inl rfl
      · obtain ⟨rfl, rfl⟩ := List.cons.inj heq
        exact Or.inr ⟨before, p, after, rfl, rfl⟩

theorem mem_visit_iff_exists {ctx : CallingContext N K} :
    ctx ∈ visitAllCallingContexts K G fn ↔ ∃ before p after,
      callChains G K fn = before ++ p :: after ∧
        ctx = overlay 0 p (stale before CallingContext.null) := by
  rw [visitAllCallingContexts, visitAllCallingContextsImpl_eq le_rfl, Nat.sub_self,
    mem_foldl_extend]
  simp

/-- After no longer chain, nothing of the chains before is left behind a chain. -/
theorem overlay_stale_eq {before : List (List N)} {p : List N}
    (hle : ∀ q ∈ before, q.length ≤ p.length) :
    overlay 0 p (stale before CallingContext.null) = trunc K (ofChain p) := by
  funext j
  have hstale : p.length ≤ j.val → stale before CallingContext.null j = none := fun hj =>
    (stale_eq_none_iff before).2 ⟨rfl, fun q hq => (hle q hq).trans hj⟩
  show overlay 0 p _ j = p[j.val]?
  rcases lt_or_ge j.val p.length with hj | hj
  · simp [overlay, hj]
  · simp [overlay, hj, hstale hj]

/-- What is written for a chain is the context of a chain only if nothing is left behind it. -/
theorem eq_of_overlay_stale {before after : List (List N)} {p q : List N}
    (heq : callChains G K fn = before ++ q :: after) (hp : p ∈ callChains G K fn)
    (hctx : overlay 0 q (stale before CallingContext.null) = trunc K (ofChain p)) :
    q = p ∧ ∀ q' ∈ before, q'.length ≤ q.length := by
  have hval : ∀ j (hj : j < K),
      (q[j]?).or (stale before CallingContext.null (⟨j, hj⟩ : Fin K)) = p[j]? := by
    intro j hj
    simpa [overlay, trunc, ofChain] using congrFun hctx ⟨j, hj⟩
  have hmem : ∀ q' ∈ before ++ q :: after, q'.length ≤ K := fun q' hq' =>
    length_le_of_mem_callChains (heq ▸ hq')
  -- what was written is an extension of `q`, and no chain extends another one
  have hprefix : q <+: p := by
    refine List.prefix_iff_getElem?.2 fun j hj => ?_
    have hjK : j < K := by
      have := hmem q (by simp)
      omega
    rw [← hval j hjK, List.getElem?_eq_getElem hj, Option.some_or]
  obtain rfl := eq_of_prefix (heq ▸ by simp) hp hprefix
  refine ⟨rfl, fun q' hq' => ?_⟩
  by_contra hlt
  have hjK : q.length < K := by
    have := hmem q' (by simp [hq'])
    omega
  have hnone := hval q.length hjK
  rw [List.getElem?_eq_none le_rfl, Option.none_or] at hnone
  exact hlt (((stale_eq_none_iff before).1 hnone).2 q' hq')

/-- Some occurrence of the chain comes after no longer chain. -/
def Reached (chains : List (List N)) (p : List N) : Prop :=
  ∃ before after, chains = before ++ p :: after ∧ ∀ q ∈ before, q.length ≤ p.length

/-- The context of a chain is visited exactly if some occurrence of it comes after no longer chain. -/
theorem mem_visit_iff {p : List N} (hp : p ∈ callChains G K fn) :
    trunc K (ofChain p) ∈ visitAllCallingContexts K G fn ↔ Reached (callChains G K fn) p := by
  rw [mem_visit_iff_exists]
  constructor
  · rintro ⟨before, q, after, heq, hctx⟩
    obtain ⟨rfl, hle⟩ := eq_of_overlay_stale heq hp hctx.symm
    exact ⟨before, after, heq, hle⟩
  · rintro ⟨before, after, heq, hle⟩
    exact ⟨before, p, after, heq, (overlay_stale_eq hle).symm⟩

/-- What every visited context is like, stale or not: it starts with some chain, and it has no gap. -/
theorem shape_of_mem_visit {ctx : CallingContext N K} (h : ctx ∈ visitAllCallingContexts K G fn) :
    (∃ p ∈ callChains G K fn, ∀ j : Fin K, j.val < p.length → ctx j = p[j.val]?) ∧
      ∀ i j : Fin K, i.val ≤ j.val → ctx i = none → ctx j = none := by
  obtain ⟨before, p, after, heq, rfl⟩ := mem_visit_iff_exists.1 h
  refine ⟨⟨p, heq ▸ by simp, fun j hj => by simp [overlay, hj]⟩, fun i j hij hi => ?_⟩
  have hiff : ∀ j : Fin K, overlay 0 p (stale before CallingContext.null) j = none ↔
      ∀ q ∈ before ++ [p], q.length ≤ j.val := by
    intro j
    have hstep : overlay 0 p (stale before CallingContext.null) =
        stale (before ++ [p]) (CallingContext.null : CallingContext N K) := by
      simp [stale]
    rw [hstep, stale_eq_none_iff]
    simp [CallingContext.null]
  rw [hiff] at hi ⊢
  exact fun q hq => (hi q hq).trans hij

/-- A chain is empty only if its function has no callers. -/
theorem callers_eq_nil_of_chain {k : ℕ} (hk : 0 < k) (h : [] ∈ callChains G k fn) :
    G.getCallersOf fn = [] := by
  obtain ⟨k, rfl⟩ : ∃ j, k = j + 1 := ⟨k - 1, by omega⟩
  by_contra hne
  obtain ⟨cs, -, p, -, heq⟩ := (mem_callChains_succ fun hnil => hne (List.isEmpty_iff.1 hnil)).1 h
  cases heq

theorem null_notMem_visit (hK : 0 < K) (h : G.getCallersOf fn ≠ []) :
    CallingContext.null ∉ visitAllCallingContexts K G fn := by
  intro hmem
  obtain ⟨⟨p, hp, hval⟩, -⟩ := shape_of_mem_visit hmem
  cases p with
  | nil => exact h (callers_eq_nil_of_chain hK hp)
  | cons cs p => simpa [CallingContext.null] using hval ⟨0, hK⟩ (by simp)

theorem visit_of_callers_nil (h : G.getCallersOf fn = []) :
    visitAllCallingContexts K G fn = [CallingContext.null] := by
  have hempty := List.isEmpty_iff.2 h
  rw [visitAllCallingContexts, visitAllCallingContextsImpl_eq le_rfl, callChains_of_isEmpty hempty]
  simp [extend, overlay_nil]

/-- A context with a single call is visited only if the caller has no callers. -/
theorem callers_eq_nil_of_single {cs : N} (hK : 1 < K) (h : G.getCallersOf fn ≠ [])
    (hmem : CallingContext.withPrefix cs CallingContext.null ∈ visitAllCallingContexts K G fn) :
    G.getCallersOf (G.getFunctionOf cs) = [] := by
  obtain ⟨⟨p, hp, hval⟩, -⟩ := shape_of_mem_visit hmem
  obtain ⟨k, rfl⟩ : ∃ j, K = j + 1 := ⟨K - 1, by omega⟩
  obtain ⟨cs', -, p', hp', rfl⟩ :=
    (mem_callChains_succ fun hnil => h (List.isEmpty_iff.1 hnil)).1 hp
  have h0 := hval ⟨0, by omega⟩ (by simp)
  obtain rfl : cs = cs' := by simpa [CallingContext.withPrefix] using h0
  cases p' with
  | nil => exact callers_eq_nil_of_chain (by omega) hp'
  | cons cs' p' => simpa [CallingContext.withPrefix, CallingContext.null] using hval ⟨1, hK⟩ (by simp)

/-- The last call site that a prefix drops does not matter after a short chain. -/
theorem eq_of_withPrefix {cs : N} {ctx : CallingContext N K} {p : List N}
    (hctx : ctx ∈ visitAllCallingContexts K G fn) (hp : p.length + 1 < K)
    (h : CallingContext.withPrefix cs ctx = CallingContext.withPrefix cs (trunc K (ofChain p))) :
    ctx = trunc K (ofChain p) := by
  have hval : ∀ j (hj : j + 1 < K), ctx ⟨j, by omega⟩ = p[j]? := fun j hj => congrFun h ⟨j + 1, hj⟩
  have hend : ctx ⟨p.length, by omega⟩ = none := by simp [hval p.length hp]
  funext j
  by_cases hj : j.val + 1 < K
  · exact hval j.val hj
  · rw [(shape_of_mem_visit hctx).2 _ j (by show p.length ≤ j.val; omega) hend]
    exact (List.getElem?_eq_none (by omega)).symm

end Phasar
