import Phasar.Lib.TopologicalOrder
import Phasar.PathSensitivity.PathTracing

/-!
# What the reconstruction of paths keeps

A vertex is finished when it left the current path. Edges lead to finished vertices only, so the
finished vertices can be listed with the targets of their edges before them. A call that fails leaves
the graph as it was: whatever it entered was popped again.

* `Inv`: the graph and the cache between two calls;
* `CacheExt`: what a call adds to the cache;
* `Live`: a node whose search finds a vertex, read off the cache before it;
* `pathsToImplLA_spec`.
-/

namespace Phasar.PathSensitivityManager

open TopologicalOrder

section

variable {T : Type*} {g : AdjacencyList T} {base news : List (DagVertex T)} {d d' : DagVertex T}

theorem AdjacencyList.mem_outEdges {k t : ℕ} :
    t ∈ g.outEdges k ↔ ∃ d, g.vertices[k]? = some d ∧ t ∈ d.outEdges := by
  rw [AdjacencyList.outEdges]
  cases g.vertices[k]? <;> simp

theorem getElem?_replace {k : ℕ} (hk : k ≠ base.length) :
    (base ++ d :: news)[k]? = (base ++ d' :: news)[k]? := by
  rcases lt_or_gt_of_ne hk with hlt | hgt
  · rw [List.getElem?_append_left hlt, List.getElem?_append_left hlt]
  · obtain ⟨j, hj⟩ : ∃ j, k - base.length = j + 1 := ⟨k - base.length - 1, by omega⟩
    rw [List.getElem?_append_right hgt.le, List.getElem?_append_right hgt.le, hj,
      List.getElem?_cons_succ, List.getElem?_cons_succ]

end

variable {V N : Type*} (G : ExplodedSuperGraph V N) (F : PathTracingFilter V)

/-- The search from `v` was started, and everything its chain leads to is cached. -/
def Explored (s : TraceState V N) (v : V) : Prop :=
  ∃ labels ending, Chain G F v labels ending ∧
    ∀ c ∈ ending.continuations G F, s.cache c ≠ none

/-- The finished vertex `k` of `v`. -/
def Entry (s : TraceState V N) (v : V) (k : ℕ) : Prop :=
  ∃ labels ending es, Chain G F v labels ending ∧ s.dag.vertices[k]? = some ⟨labels, es⟩ ∧
    (∀ t ∈ es, ∃ c ∈ ending.continuations G F, s.cache c = some (some t) ∧ t ∉ s.currPath) ∧
    (es = [] → ending.reachesEnd G F = true)

/-- A removed vertex is referenced no more, and nothing else happens to vertices that lead nowhere. -/
def TraceEvent.Clean : TraceEvent V N → Prop
  | .removed vtx dag cache =>
    (∀ k, vtx ∉ dag.outEdges k) ∧ ∀ v, cache v ≠ some (some vtx)
  | _ => False

/-- A list of the finished vertices of cached nodes, the targets of edges among them. -/
structure Order (s : TraceState V N) (order : List ℕ) : Prop where
  closed : Closed s.dag.outEdges order
  nodup : order.Nodup
  finished : ∀ k ∈ order, (∃ v, s.cache v = some (some k)) ∧ k ∉ s.currPath
  mem : ∀ v k, s.cache v = some (some k) → k ∉ s.currPath → k ∈ order
  target : ∀ k, ∀ t ∈ s.dag.outEdges k, t ∈ order

/-- The graph and the context between two calls. -/
structure TraceInv (s : TraceState V N) : Prop where
  path_lt : ∀ k ∈ s.currPath, k < s.dag.size
  cached_lt : ∀ v k, s.cache v = some (some k) → k < s.dag.size
  entry : ∀ v k, s.cache v = some (some k) → k ∉ s.currPath → Entry G F s v k
  explored : ∀ v r, s.cache v = some r → (∀ k, r = some k → k ∉ s.currPath) → Explored G F s v
  order : ∃ order, Order s order
  events : ∀ e ∈ s.events, e.Clean

/-- The search from the node finds a vertex: it has one that is finished, or it is not cached and
its chain reaches an end or such a node. -/
inductive Live (s : TraceState V N) : V → Prop
  | cached {v k} : s.cache v = some (some k) → k ∉ s.currPath → Live s v
  | ended {v labels ending} : s.cache v = none → Chain G F v labels ending →
      ending.reachesEnd G F = true → Live s v
  | next {v c labels ending} : s.cache v = none → Chain G F v labels ending →
      c ∈ ending.continuations G F → Live s c → Live s v

/-- What a part of the search adds to the cache. -/
structure CacheExt (s s' : TraceState V N) : Prop where
  path : s'.currPath = s.currPath
  size_le : s.dag.size ≤ s'.dag.size
  old : ∀ v r, s.cache v = some r → s'.cache v = some r
  fresh : ∀ v k, s.cache v = none → s'.cache v = some (some k) → s.dag.size ≤ k
  invalid : ∀ v, s.cache v = none → s'.cache v = some none → ∀ labels ending,
    Chain G F v labels ending → ending.reachesEnd G F = false ∧
      ∀ c ∈ ending.continuations G F, ∀ k, s.cache c = some (some k) → k ∈ s.currPath
  live : ∀ v k, s.cache v = none → s'.cache v = some (some k) → Live G F s v

/-- No vertex was added. -/
def Quiet (s s' : TraceState V N) : Prop :=
  ∀ v r, s.cache v = none → s'.cache v = some r → r = none

/-- What a call of `pathsToImplLA` establishes. -/
structure CallPost (s : TraceState V N) (v : V) (r : Option ℕ) (s' : TraceState V N) : Prop where
  inv : TraceInv G F s'
  ext : CacheExt G F s s'
  vertices : s.dag.vertices <+: s'.dag.vertices
  roots : s'.dag.roots = s.dag.roots
  cached : s'.cache v = some r
  quiet : (s.cache v = none → r = none) → s'.dag = s.dag ∧ Quiet s s'

variable {G F} {s s' s'' : TraceState V N}

theorem Order.lt {order : List ℕ} (h : Order s order) (hinv : TraceInv G F s) {k : ℕ}
    (hk : k ∈ order) : k < s.dag.size := by
  obtain ⟨⟨v, hv⟩, -⟩ := h.finished k hk
  exact hinv.cached_lt v k hv

theorem CacheExt.none_of_none (h : CacheExt G F s s') {v : V} (hv : s'.cache v = none) :
    s.cache v = none := by
  cases hs : s.cache v with
  | none => rfl
  | some r => exact absurd (h.old v r hs) (by simp [hv])

theorem CacheExt.live_of_live (h : CacheExt G F s s') {v : V} (hv : Live G F s' v) :
    Live G F s v := by
  induction hv with
  | @cached v k hv hk =>
    cases hs : s.cache v with
    | none => exact h.live v k hs hv
    | some r =>
      obtain rfl : r = some k := Option.some.inj ((h.old v r hs).symm.trans hv)
      exact .cached hs (h.path ▸ hk)
  | ended hv hchain hend => exact .ended (h.none_of_none hv) hchain hend
  | next hv hchain hc _ ih => exact .next (h.none_of_none hv) hchain hc ih

theorem CacheExt.refl (s : TraceState V N) : CacheExt G F s s where
  path := rfl
  size_le := le_rfl
  old _ _ h := h
  fresh v k h h' := by rw [h] at h'; exact absurd h' (by simp)
  invalid v h h' := by rw [h] at h'; exact absurd h' (by simp)
  live v k h h' := by rw [h] at h'; exact absurd h' (by simp)

theorem CacheExt.trans (h : CacheExt G F s s') (h' : CacheExt G F s' s'') : CacheExt G F s s'' where
  path := h'.path.trans h.path
  size_le := h.size_le.trans h'.size_le
  old v r hv := h'.old v r (h.old v r hv)
  fresh v k hv hk := by
    cases hs : s'.cache v with
    | none => exact h.size_le.trans (h'.fresh v k hs hk)
    | some r =>
      obtain rfl : r = some k := Option.some.inj ((h'.old v r hs).symm.trans hk)
      exact h.fresh v k hv hs
  invalid v hv hk labels ending hchain := by
    cases hs : s'.cache v with
    | none =>
      obtain ⟨hend, hcont⟩ := h'.invalid v hs hk labels ending hchain
      exact ⟨hend, fun c hc k hck => h.path ▸ hcont c hc k (h.old c _ hck)⟩
    | some r =>
      obtain rfl : r = none := Option.some.inj ((h'.old v r hs).symm.trans hk)
      exact h.invalid v hv hs labels ending hchain
  live v k hv hk := by
    cases hs : s'.cache v with
    | none => exact h.live_of_live (h'.live v k hs hk)
    | some r =>
      obtain rfl : r = some k := Option.some.inj ((h'.old v r hs).symm.trans hk)
      exact h.live v k hv hs

theorem Quiet.trans (h : Quiet s s') (h' : Quiet s' s'') (hext : CacheExt G F s' s'') :
    Quiet s s'' := by
  intro v r hv hr
  cases hs : s'.cache v with
  | none => exact h' v r hs hr
  | some r' =>
    obtain rfl : r' = r := Option.some.inj ((hext.old v r' hs).symm.trans hr)
    exact h v r' hv hs

/-- A search that adds no vertex found nothing on any of the nodes that are cached after it. -/
theorem not_live_of_quiet (hext : CacheExt G F s s') (hquiet : Quiet s s')
    (hexplored : ∀ v, s.cache v = none → s'.cache v ≠ none → Explored G F s' v) {v : V}
    (hv : Live G F s v) : s.cache v = none → s'.cache v = none := by
  intro hnone
  induction hv with
  | cached hk => exact absurd hk (by simp [hnone])
  | @ended v labels ending _ hchain hend =>
    cases hs : s'.cache v with
    | none => rfl
    | some r =>
      obtain rfl := hquiet v r hnone hs
      have hfalse := (hext.invalid v hnone hs labels ending hchain).1
      exact absurd hend (by rw [hfalse]; exact Bool.false_ne_true)
  | @next v c labels ending _ hchain hc hlive ih =>
    cases hs : s'.cache v with
    | none => rfl
    | some r =>
      obtain rfl := hquiet v r hnone hs
      obtain ⟨labels', ending', hchain', hall⟩ := hexplored v hnone (by simp [hs])
      obtain ⟨rfl, rfl⟩ := hchain.unique hchain'
      cases hcs : s.cache c with
      | none => exact absurd (ih hcs) (hall c hc)
      | some rc =>
        obtain ⟨hck, hnot⟩ : ∃ k, s.cache c = some (some k) ∧ k ∉ s.currPath := by
          cases hlive with
          | cached hk hnot => exact ⟨_, hk, hnot⟩
          | ended hn => exact absurd hcs (by simp [hn])
          | next hn => exact absurd hcs (by simp [hn])
        exact absurd ((hext.invalid v hnone hs labels ending hchain).2 c hc hck hnot.1) hnot.2

/-! ### Changes of the graph -/

/-- The edges of a vertex that is not finished may change, as long as they lead to finished ones. -/
theorem TraceInv.setEdges (h : TraceInv G F s) {base news : List (DagVertex (List N))}
    {d d' : DagVertex (List N)} (hs : s.dag.vertices = base ++ d :: news)
    (hs' : s'.dag.vertices = base ++ d' :: news) (hcache : s'.cache = s.cache)
    (hpath : s'.currPath = s.currPath) (hevents : s'.events = s.events)
    (hret : ∀ v, s.cache v = some (some base.length) → base.length ∈ s.currPath)
    (hedges : ∀ t ∈ d'.outEdges, t ∈ d.outEdges ∨
      ∃ c, s.cache c = some (some t) ∧ t ∉ s.currPath) : TraceInv G F s' := by
  have hsize : s'.dag.size = s.dag.size := by
    rw [AdjacencyList.size, AdjacencyList.size, hs, hs', List.length_append, List.length_append,
      List.length_cons, List.length_cons]
  have hget : ∀ k, k ≠ base.length → s'.dag.vertices[k]? = s.dag.vertices[k]? := by
    intro k hk
    rw [hs, hs']
    exact getElem?_replace hk
  have hout : ∀ k, k ≠ base.length → s'.dag.outEdges k = s.dag.outEdges k := by
    intro k hk
    rw [AdjacencyList.outEdges, AdjacencyList.outEdges, hget k hk]
  have hmid : s.dag.vertices[base.length]? = some d ∧ s'.dag.vertices[base.length]? = some d' := by
    constructor
    · rw [hs]
      simp
    · rw [hs']
      simp
  refine ⟨?_, ?_, ?_, ?_, ?_, ?_⟩
  · rw [hpath, hsize]
    exact h.path_lt
  · rw [hcache, hsize]
    exact h.cached_lt
  · intro v k hv hk
    rw [hcache] at hv
    rw [hpath] at hk
    obtain ⟨labels, ending, es, hchain, hk', hes, hend⟩ := h.entry v k hv hk
    have hne : k ≠ base.length := by
      rintro rfl
      exact hk (hret v hv)
    refine ⟨labels, ending, es, hchain, by rw [hget k hne, hk'], ?_, hend⟩
    rw [hcache, hpath]
    exact hes
  · intro v r hv hr
    rw [hcache] at hv
    rw [hpath] at hr
    obtain ⟨labels, ending, hchain, hall⟩ := h.explored v r hv hr
    exact ⟨labels, ending, hchain, by rwa [hcache]⟩
  · obtain ⟨order, hord⟩ := h.order
    -- the changed vertex is on the current path, so it is not finished
    have hnot : ∀ k ∈ order, k ≠ base.length := by
      rintro k hk rfl
      obtain ⟨⟨v, hv⟩, hnot⟩ := hord.finished _ hk
      exact hnot (hret v hv)
    refine ⟨order, hord.closed.congr fun k hk => hout k (hnot k hk), hord.nodup, ?_, ?_, ?_⟩
    · rw [hcache, hpath]
      exact hord.finished
    · rw [hcache, hpath]
      exact hord.mem
    · intro k t ht
      by_cases hk : k = base.length
      · obtain ⟨e, he, ht⟩ := AdjacencyList.mem_outEdges.1 ht
        rw [hk, hmid.2, Option.some.injEq] at he
        subst he
        rcases hedges t ht with ht | ⟨c, hc, hct⟩
        · exact hord.target base.length t (AdjacencyList.mem_outEdges.2 ⟨d, hmid.1, ht⟩)
        · exact hord.mem c t hc hct
      · rw [hout k hk] at ht
        exact hord.target k t ht
  · rw [hevents]
    exact h.events

/-- Entering a vertex keeps the invariant. -/
theorem TraceInv.enter [DecidableEq V] (h : TraceInv G F s) {v : V} (hv : s.cache v = none)
    (labels : List N) : TraceInv G F (enter v labels s) := by
  have hcache : ∀ w, w ≠ v → (PathSensitivityManager.enter v labels s).cache w = s.cache w := fun w hw =>
    Function.update_of_ne hw _ _
  have hself : (PathSensitivityManager.enter v labels s).cache v = some (some s.dag.size) := Function.update_self ..
  have hpath : (PathSensitivityManager.enter v labels s).currPath = s.dag.size :: s.currPath := rfl
  have hsize : (PathSensitivityManager.enter v labels s).dag.size = s.dag.size + 1 := by
    simp [PathSensitivityManager.enter, AdjacencyList.addNode, AdjacencyList.size]
  have hget : ∀ k, k < s.dag.size → (PathSensitivityManager.enter v labels s).dag.vertices[k]? =
      s.dag.vertices[k]? := fun k hk => List.getElem?_append_left hk
  have hold : ∀ w r, s.cache w = some r → (PathSensitivityManager.enter v labels s).cache w = some r := by
    intro w r hw
    rw [hcache w (fun heq => by rw [heq, hv] at hw; exact absurd hw (by simp)), hw]
  -- a finished vertex was finished before
  have hfinished : ∀ w k, (PathSensitivityManager.enter v labels s).cache w = some (some k) →
      k ∉ s.dag.size :: s.currPath → s.cache w = some (some k) ∧ k ∉ s.currPath := by
    intro w k hw hk
    rw [List.mem_cons, not_or] at hk
    by_cases hwv : w = v
    · rw [hwv, hself] at hw
      simp only [Option.some.injEq] at hw
      exact absurd hw.symm hk.1
    · rw [hcache w hwv] at hw
      exact ⟨hw, hk.2⟩
  have hnew : ∀ k t, t ∈ (PathSensitivityManager.enter v labels s).dag.outEdges k → t ∈ s.dag.outEdges k := by
    intro k t ht
    obtain ⟨d, hd, ht⟩ := AdjacencyList.mem_outEdges.1 ht
    rcases StronglyConnected.getElem?_concat hd with hd | ⟨-, rfl⟩
    · exact AdjacencyList.mem_outEdges.2 ⟨d, hd, ht⟩
    · exact absurd ht List.not_mem_nil
  refine ⟨?_, ?_, ?_, ?_, ?_, h.events⟩
  · intro k hk
    rw [hpath] at hk
    rw [hsize]
    rcases List.mem_cons.1 hk with rfl | hk
    · exact Nat.lt_succ_self _
    · exact (h.path_lt k hk).trans (Nat.lt_succ_self _)
  · intro w k hw
    rw [hsize]
    by_cases hwv : w = v
    · rw [hwv, hself] at hw
      simp only [Option.some.injEq] at hw
      omega
    · rw [hcache w hwv] at hw
      exact (h.cached_lt w k hw).trans (Nat.lt_succ_self _)
  · intro w k hw hk
    obtain ⟨hw, hk⟩ := hfinished w k hw hk
    obtain ⟨labels', ending, es, hchain, hk', hes, hend⟩ := h.entry w k hw hk
    refine ⟨labels', ending, es, hchain, by rw [hget k (h.cached_lt w k hw), hk'], ?_, hend⟩
    intro t ht
    obtain ⟨c, hc, hct, htp⟩ := hes t ht
    refine ⟨c, hc, hold c _ hct, ?_⟩
    rw [hpath, List.mem_cons, not_or]
    exact ⟨(h.cached_lt c t hct).ne, htp⟩
  · intro w r hw hr
    have hwv : w ≠ v := by
      rintro rfl
      rw [hself] at hw
      exact hr s.dag.size (Option.some.inj hw).symm List.mem_cons_self
    rw [hcache w hwv] at hw
    obtain ⟨labels', ending, hchain, hall⟩ := h.explored w r hw fun k hk hkp =>
      hr k hk (List.mem_cons_of_mem _ hkp)
    refine ⟨labels', ending, hchain, fun c hc hnone => ?_⟩
    obtain ⟨rc, hrc⟩ := Option.ne_none_iff_exists'.1 (hall c hc)
    rw [hold c rc hrc] at hnone
    exact absurd hnone (by simp)
  · obtain ⟨order, hord⟩ := h.order
    refine ⟨order, hord.closed.congr fun k hk => ?_, hord.nodup, ?_, ?_, ?_⟩
    · rw [AdjacencyList.outEdges, AdjacencyList.outEdges, hget k (hord.lt h hk)]
    · intro k hk
      obtain ⟨⟨w, hw⟩, hnot⟩ := hord.finished k hk
      refine ⟨⟨w, hold w _ hw⟩, ?_⟩
      rw [hpath, List.mem_cons, not_or]
      exact ⟨(h.cached_lt w k hw).ne, hnot⟩
    · intro w k hw hk
      obtain ⟨hw, hk⟩ := hfinished w k hw hk
      exact hord.mem w k hw hk
    · exact fun k t ht => hord.target k t (hnew k t ht)

/-- A vertex that leaves the path is finished. -/
theorem TraceInv.leave (h : TraceInv G F s) {v : V} {ret : ℕ} {rest : List ℕ}
    (hpath : s.currPath = ret :: rest) (hnot : ret ∉ rest) (hv : s.cache v = some (some ret))
    (honly : ∀ w, s.cache w = some (some ret) → w = v) (hentry : Entry G F s v ret)
    (hexplored : Explored G F s v) : TraceInv G F { s with currPath := rest } := by
  have hmem : ∀ k, k ∉ rest → k ≠ ret → k ∉ s.currPath := by
    intro k hk hne
    rw [hpath, List.mem_cons, not_or]
    exact ⟨hne, hk⟩
  have hrest : ∀ k, k ∉ s.currPath → k ∉ rest := by
    intro k hk hkr
    exact hk (hpath ▸ List.mem_cons_of_mem _ hkr)
  refine ⟨?_, h.cached_lt, ?_, ?_, ?_, h.events⟩
  · exact fun k hk => h.path_lt k (hpath ▸ List.mem_cons_of_mem _ hk)
  · intro w k hw hk
    have hold : Entry G F s w k := by
      by_cases hret : k = ret
      · rw [hret] at hw ⊢
        rw [honly w hw]
        exact hentry
      · exact h.entry w k hw (hmem k hk hret)
    obtain ⟨labels, ending, es, hchain, hk', hes, hend⟩ := hold
    refine ⟨labels, ending, es, hchain, hk', fun t ht => ?_, hend⟩
    obtain ⟨c, hc, hct, htp⟩ := hes t ht
    exact ⟨c, hc, hct, hrest t htp⟩
  · intro w r hw hr
    by_cases hret : r = some ret
    · rw [hret] at hw
      rw [honly w hw]
      exact hexplored
    · refine h.explored w r hw fun k hk => hmem k (hr k hk) ?_
      rintro rfl
      exact hret hk
  · obtain ⟨order, hord⟩ := h.order
    refine ⟨order ++ [ret], hord.closed.concat (hord.target ret), ?_, ?_, ?_, ?_⟩
    · refine List.nodup_append.2 ⟨hord.nodup, List.nodup_singleton ret, ?_⟩
      rintro k hk _ hret rfl
      rw [List.mem_singleton] at hret
      exact (hord.finished k hk).2 (by rw [hpath, hret]; exact List.mem_cons_self)
    · intro k hk
      rcases List.mem_append.1 hk with hk | hk
      · exact ⟨(hord.finished k hk).1, hrest k (hord.finished k hk).2⟩
      · rw [List.mem_singleton.1 hk]
        exact ⟨⟨v, hv⟩, hnot⟩
    · intro w k hw hk
      by_cases hret : k = ret
      · exact List.mem_append_right _ (List.mem_singleton.2 hret)
      · exact List.mem_append_left _ (hord.mem w k hw (hmem k hk hret))
    · exact fun k t ht => List.mem_append_left _ (hord.target k t ht)

/-! ### The traversal -/

/-- What the traversal of `cs` does to a vertex with the edges `es`, followed by `news`. -/
structure LoopPost (cs : List V) (s : TraceState V N) (es : List ℕ) (news : List (DagVertex (List N)))
    (s' : TraceState V N) (es' : List ℕ) (news' : List (DagVertex (List N))) : Prop where
  inv : TraceInv G F s'
  ext : CacheExt G F s s'
  roots : s'.dag.roots = s.dag.roots
  cached : ∀ c ∈ cs, s'.cache c ≠ none
  kept : ∀ t ∈ es, t ∈ es'
  edge : ∀ t ∈ es', t ∈ es ∨ ∃ c ∈ cs, s'.cache c = some (some t) ∧ t ∉ s'.currPath
  quiet : es' = [] → news' = news ∧ Quiet s s' ∧
    ∀ c ∈ cs, ∀ k, s'.cache c = some (some k) → k ∈ s'.currPath

theorem LoopPost.nil (h : TraceInv G F s) (es : List ℕ) (news : List (DagVertex (List N))) :
    LoopPost (G := G) (F := F) [] s es news s es news where
  inv := h
  ext := .refl s
  roots := rfl
  cached := by simp
  kept _ ht := ht
  edge _ ht := Or.inl ht
  quiet _ := ⟨rfl, fun v r hv hr => by rw [hv] at hr; exact absurd hr (by simp), by simp⟩

theorem LoopPost.cons {c : V} {cs : List V} {es es' es'' : List ℕ}
    {news news' news'' : List (DagVertex (List N))}
    (h : LoopPost (G := G) (F := F) [c] s es news s' es' news')
    (h' : LoopPost (G := G) (F := F) cs s' es' news' s'' es'' news'') :
    LoopPost (G := G) (F := F) (c :: cs) s es news s'' es'' news'' := by
  obtain ⟨r, hr⟩ := Option.ne_none_iff_exists'.1 (h.cached c List.mem_cons_self)
  refine ⟨h'.inv, h.ext.trans h'.ext, h'.roots.trans h.roots, ?_, fun t ht => h'.kept t (h.kept t ht),
    ?_, ?_⟩
  · intro d hd
    rcases List.mem_cons.1 hd with rfl | hd
    · rw [h'.ext.old d r hr]
      simp
    · exact h'.cached d hd
  · intro t ht
    rcases h'.edge t ht with ht | ⟨d, hd, hdt, htp⟩
    · rcases h.edge t ht with ht | ⟨d, hd, hdt, htp⟩
      · exact Or.inl ht
      · rw [List.mem_singleton.1 hd] at hdt
        exact Or.inr ⟨c, List.mem_cons_self, h'.ext.old c _ hdt, h'.ext.path ▸ htp⟩
    · exact Or.inr ⟨d, List.mem_cons_of_mem c hd, hdt, htp⟩
  · intro hnil
    obtain ⟨hnews', hquiet', hcs⟩ := h'.quiet hnil
    have hnil' : es' = [] := List.eq_nil_iff_forall_not_mem.2 fun t ht => by
      have hmem := h'.kept t ht
      rw [hnil] at hmem
      exact absurd hmem List.not_mem_nil
    obtain ⟨hnews, hquiet, hc⟩ := h.quiet hnil'
    refine ⟨hnews'.trans hnews, hquiet.trans hquiet' h'.ext, fun d hd k hk => ?_⟩
    rcases List.mem_cons.1 hd with rfl | hd
    · rw [h'.ext.old d r hr, Option.some.injEq] at hk
      rw [h'.ext.path]
      exact hc d List.mem_cons_self k (hk ▸ hr)
    · exact hcs d hd k hk

/-- A vertex under construction stays one. -/
theorem CacheExt.building (h : CacheExt G F s s') {ret : ℕ} (hlt : ret < s.dag.size)
    (hret : ∀ v, s.cache v = some (some ret) → ret ∈ s.currPath) :
    ∀ v, s'.cache v = some (some ret) → ret ∈ s'.currPath := by
  intro v hv
  cases hvs : s.cache v with
  | none => exact absurd (h.fresh v ret hvs hv) (by omega)
  | some r =>
    obtain rfl := Option.some.inj ((h.old v r hvs).symm.trans hv)
    rw [h.path]
    exact hret v hvs

variable {rec : V → TraceState V N → Option (Option ℕ × TraceState V N)}

theorem traverseNext_spec
    (hrec : ∀ {v s r s'}, rec v s = some (r, s') → TraceInv G F s → CallPost G F s v r s')
    {base news : List (DagVertex (List N))} {labels : List N} {es : List ℕ} {c : V}
    (hs : s.dag.vertices = base ++ ⟨labels, es⟩ :: news) (hinv : TraceInv G F s)
    (hret : ∀ v, s.cache v = some (some base.length) → base.length ∈ s.currPath)
    (h : traverseNext rec base.length c s = some s') :
    ∃ es' news', s'.dag.vertices = base ++ ⟨labels, es'⟩ :: news' ∧
      LoopPost (G := G) (F := F) [c] s es news s' es' news' := by
  obtain ⟨⟨r, s₁⟩, hcall, hs'⟩ := Option.map_eq_some_iff.1 h
  have hpost := hrec hcall hinv
  -- without a new edge nothing happened to the graph
  have hsame : (∀ k, r = some k → k ∈ s₁.currPath) → s' = s₁ → ∃ es' news',
      s'.dag.vertices = base ++ ⟨labels, es'⟩ :: news' ∧
        LoopPost (G := G) (F := F) [c] s es news s' es' news' := by
    rintro hr rfl
    have hquiet : s.cache c = none → r = none := by
      intro hc
      cases r with
      | none => rfl
      | some k =>
        have hlt := hinv.path_lt k (hpost.ext.path ▸ hr k rfl)
        exact absurd (hpost.ext.fresh c k hc hpost.cached) (by omega)
    obtain ⟨hdag, hquiet⟩ := hpost.quiet hquiet
    refine ⟨es, news, by rw [hdag, hs], hpost.inv, hpost.ext, hpost.roots, ?_, fun t ht => ht,
      fun t ht => Or.inl ht, fun _ => ⟨rfl, hquiet, ?_⟩⟩
    · intro d hd
      rw [List.mem_singleton.1 hd, hpost.cached]
      simp
    · intro d hd k hk
      rw [List.mem_singleton.1 hd, hpost.cached] at hk
      exact hr k (Option.some.inj hk)
  cases r with
  | none => exact hsame (fun k hk => absurd hk (by simp)) hs'.symm
  | some k =>
    simp only at hs'
    split_ifs at hs' with hk
    · exact hsame (fun j hj => Option.some.inj hj ▸ hk) hs'.symm
    · obtain ⟨more, hmore⟩ := hpost.vertices
      rw [hs, List.append_assoc, List.cons_append] at hmore
      have hs₁ : s'.dag.vertices = base ++ ⟨labels, es ++ [k]⟩ :: (news ++ more) := by
        rw [← hs', AdjacencyList.addEdge, ← hmore, modify_mid]
      have hlt : base.length < s.dag.size := by
        rw [AdjacencyList.size, hs, List.length_append, List.length_cons]
        omega
      refine ⟨es ++ [k], news ++ more, hs₁, ?_, ?_, ?_, ?_, fun t ht => List.mem_append_left _ ht, ?_,
        fun hnil => absurd hnil (by simp)⟩
      · refine hpost.inv.setEdges hmore.symm hs₁ (by rw [← hs']) (by rw [← hs']) (by rw [← hs'])
          (hpost.ext.building hlt hret) fun t ht => ?_
        rcases List.mem_append.1 ht with ht | ht
        · exact Or.inl ht
        · rw [List.mem_singleton.1 ht]
          exact Or.inr ⟨c, hpost.cached, hk⟩
      · have hsize : s₁.dag.size = s'.dag.size := by
          rw [AdjacencyList.size, AdjacencyList.size, ← hmore, hs₁, List.length_append,
            List.length_append, List.length_cons, List.length_cons]
        have hext := hpost.ext
        rw [← hs'] at hsize ⊢
        exact ⟨hext.path, hext.size_le.trans hsize.le, hext.old, hext.fresh, hext.invalid, hext.live⟩
      · rw [← hs']
        exact hpost.roots
      · intro d hd
        rw [List.mem_singleton.1 hd, ← hs', hpost.cached]
        simp
      · intro t ht
        rcases List.mem_append.1 ht with ht | ht
        · exact Or.inl ht
        · rw [List.mem_singleton.1 ht, ← hs']
          exact Or.inr ⟨c, List.mem_cons_self, hpost.cached, hk⟩

theorem traverseAll_spec
    (hrec : ∀ {v s r s'}, rec v s = some (r, s') → TraceInv G F s → CallPost G F s v r s')
    {base : List (DagVertex (List N))} {labels : List N} :
    ∀ {cs : List V} {s s' : TraceState V N} {es : List ℕ} {news : List (DagVertex (List N))},
      s.dag.vertices = base ++ ⟨labels, es⟩ :: news → TraceInv G F s →
      (∀ v, s.cache v = some (some base.length) → base.length ∈ s.currPath) →
      traverseAll rec base.length cs s = some s' →
      ∃ es' news', s'.dag.vertices = base ++ ⟨labels, es'⟩ :: news' ∧
        LoopPost (G := G) (F := F) cs s es news s' es' news'
  | [], s, s', es, news, hs, hinv, _, h => by
    obtain rfl := Option.some.inj h
    exact ⟨es, news, hs, .nil hinv es news⟩
  | c :: cs, s, s', es, news, hs, hinv, hret, h => by
    obtain ⟨s₁, hnext, hrest⟩ := Option.bind_eq_some_iff.1 h
    obtain ⟨es₁, news₁, hs₁, hpost₁⟩ := traverseNext_spec hrec hs hinv hret hnext
    have hlt : base.length < s.dag.size := by
      rw [AdjacencyList.size, hs, List.length_append, List.length_cons]
      omega
    obtain ⟨es₂, news₂, hs₂, hpost₂⟩ := traverseAll_spec hrec hs₁ hpost₁.inv
      (hpost₁.ext.building hlt hret) hrest
    exact ⟨es₂, news₂, hs₂, hpost₁.cons hpost₂⟩

/-! ### The search from a node -/

variable [DecidableEq V] {v : V} {labels : List N} {ending : ChainEnd V} {es : List ℕ}
  {news : List (DagVertex (List N))}

theorem enter_cache_of_ne {w : V} (hw : w ≠ v) : (enter v labels s).cache w = s.cache w :=
  Function.update_of_ne hw _ _

theorem enter_cache_self : (enter v labels s).cache v = some (some s.dag.size) :=
  Function.update_self ..

theorem enter_old (hv : s.cache v = none) {w : V} {r : Option ℕ} (hw : s.cache w = some r) :
    (enter v labels s).cache w = some r := by
  rw [enter_cache_of_ne fun heq => by rw [heq, hv] at hw; exact absurd hw (by simp), hw]

theorem live_of_enter (hv : s.cache v = none) {w : V} (hw : Live G F (enter v labels s) w) :
    Live G F s w := by
  have hnone : ∀ {x}, (enter v labels s).cache x = none → s.cache x = none := by
    intro x hx
    have hxv : x ≠ v := by
      rintro rfl
      rw [enter_cache_self] at hx
      exact absurd hx (by simp)
    rwa [enter_cache_of_ne hxv] at hx
  induction hw with
  | @cached w k hw hk =>
    have hk' : k ∉ s.dag.size :: s.currPath := hk
    rw [List.mem_cons, not_or] at hk'
    by_cases hwv : w = v
    · rw [hwv, enter_cache_self] at hw
      simp only [Option.some.injEq] at hw
      exact absurd hw.symm hk'.1
    · rw [enter_cache_of_ne hwv] at hw
      exact .cached hw hk'.2
  | ended hw hchain hend => exact .ended (hnone hw) hchain hend
  | next hw hchain hc _ ih => exact .next (hnone hw) hchain hc ih

/-- What the search below a new vertex adds, and what the search from its node adds on top. -/
theorem CacheExt.of_enter {s₁ : TraceState V N} (hinv : TraceInv G F s) (hv : s.cache v = none)
    (h : CacheExt G F (enter v labels s) s₁) (hcache : ∀ w, w ≠ v → s'.cache w = s₁.cache w)
    (hpath : s'.currPath = s.currPath) (hsize : s.dag.size ≤ s'.dag.size)
    (hself : (s'.cache v = some (some s.dag.size) ∧ Live G F s v) ∨ (s'.cache v = some none ∧
      ∀ labels ending, Chain G F v labels ending → ending.reachesEnd G F = false ∧
        ∀ c ∈ ending.continuations G F, ∀ k, s.cache c = some (some k) → k ∈ s.currPath)) :
    CacheExt G F s s' := by
  have hne : ∀ {w r}, s.cache w = some r → w ≠ v := by
    rintro w r hw rfl
    rw [hv] at hw
    exact absurd hw (by simp)
  have hbelow : ∀ {w : V}, w ≠ v → s.cache w = none → (enter v labels s).cache w = none := by
    intro w hwv hw
    rw [enter_cache_of_ne hwv, hw]
  refine ⟨hpath, hsize, ?_, ?_, ?_, ?_⟩
  · intro w r hw
    rw [hcache w (hne hw)]
    exact h.old w r (enter_old hv hw)
  · intro w k hw hk
    by_cases hwv : w = v
    · rcases hself with ⟨hself, -⟩ | ⟨hself, -⟩
      · rw [hwv, hself] at hk
        simp only [Option.some.injEq] at hk
        exact hk.le
      · rw [hwv, hself] at hk
        exact absurd hk (by simp)
    · rw [hcache w hwv] at hk
      have hlt := h.fresh w k (hbelow hwv hw) hk
      rw [enter, AdjacencyList.size, AdjacencyList.addNode, List.length_append] at hlt
      exact (Nat.le_add_right _ _).trans hlt
  · intro w hw hk
    by_cases hwv : w = v
    · rcases hself with ⟨hself, -⟩ | ⟨-, hinvalid⟩
      · rw [hwv, hself] at hk
        exact absurd hk (by simp)
      · rw [hwv]
        exact hinvalid
    · rw [hcache w hwv] at hk
      intro labels' ending hchain
      obtain ⟨hend, hcont⟩ := h.invalid w (hbelow hwv hw) hk labels' ending hchain
      refine ⟨hend, fun c hc k hck => ?_⟩
      -- the vertex of `v` was on the path; what was cached before is another one
      have hmem : k ∈ s.dag.size :: s.currPath := hcont c hc k (enter_old hv hck)
      exact (List.mem_cons.1 hmem).resolve_left (hinv.cached_lt c k hck).ne
  · intro w k hw hk
    by_cases hwv : w = v
    · rcases hself with ⟨-, hlive⟩ | ⟨hself, -⟩
      · rw [hwv]
        exact hlive
      · rw [hwv, hself] at hk
        exact absurd hk (by simp)
    · rw [hcache w hwv] at hk
      exact live_of_enter hv (h.live w k (hbelow hwv hw) hk)

/-- Only `v` has the vertex that was entered for it. -/
theorem eq_of_entered {s₁ : TraceState V N} (hinv : TraceInv G F s)
    (h : CacheExt G F (enter v labels s) s₁) {w : V} (hw : s₁.cache w = some (some s.dag.size)) :
    w = v := by
  by_contra hwv
  cases hws : s.cache w with
  | none =>
    have hlt := h.fresh w s.dag.size (by rw [enter_cache_of_ne hwv, hws]) hw
    rw [enter, AdjacencyList.size, AdjacencyList.addNode, List.length_append] at hlt
    exact absurd hlt (Nat.not_succ_le_self _)
  | some r =>
    obtain rfl := Option.some.inj
      ((h.old w r (by rw [enter_cache_of_ne hwv, hws])).symm.trans hw)
    exact (hinv.cached_lt w _ hws).ne rfl

theorem mem_dedup_insertionSort {l : List ℕ} {t : ℕ} :
    t ∈ (l.insertionSort (· ≤ ·)).dedup ↔ t ∈ l := by
  rw [List.mem_dedup, List.mem_insertionSort]

theorem callPost_of_found {s₁ : TraceState V N} (hinv : TraceInv G F s) (hv : s.cache v = none)
    (hchain : Chain G F v labels ending)
    (hs₁ : s₁.dag.vertices = s.dag.vertices ++ ⟨labels, es⟩ :: news)
    (h : LoopPost (G := G) (F := F) (ending.continuations G F) (enter v labels s) [] [] s₁ es news)
    (hok : ending.reachesEnd G F = true ∨ es ≠ []) :
    CallPost G F s v (some s.dag.size) (finish s.dag.size s₁) := by
  have hself : s₁.cache v = some (some s.dag.size) := h.ext.old v _ enter_cache_self
  have hpath : s₁.currPath = s.dag.size :: s.currPath := h.ext.path
  have hnot : s.dag.size ∉ s.currPath := fun hmem => (hinv.path_lt _ hmem).ne rfl
  set es' := (es.insertionSort (· ≤ ·)).dedup with hes'
  set s₂ : TraceState V N := { s₁ with dag := s₁.dag.dedupOutEdges s.dag.size } with hs₂
  have hvertices : s₂.dag.vertices = s.dag.vertices ++ ⟨labels, es'⟩ :: news := by
    simp only [hs₂, AdjacencyList.dedupOutEdges, hs₁, AdjacencyList.size, modify_mid, hes']
  have hfinish : finish s.dag.size s₁ = { s₂ with currPath := s.currPath } := by
    rw [finish, hpath, List.tail_cons]
  have hedge : ∀ t ∈ es', ∃ c ∈ ending.continuations G F, s₁.cache c = some (some t) ∧
      t ∉ s₁.currPath := fun t ht =>
    (h.edge t (mem_dedup_insertionSort.1 ht)).resolve_left List.not_mem_nil
  have hnil : es' = [] → es = [] := fun hnil => List.eq_nil_iff_forall_not_mem.2 fun t ht =>
    List.eq_nil_iff_forall_not_mem.1 hnil t (mem_dedup_insertionSort.2 ht)
  have hinv₂ : TraceInv G F s₂ := by
    refine h.inv.setEdges hs₁ hvertices rfl rfl rfl (fun w hw => ?_) fun t ht => ?_
    · rw [hpath]
      exact List.mem_cons_self
    · exact Or.inl (mem_dedup_insertionSort.1 ht)
  have hentry : Entry G F s₂ v s.dag.size := by
    refine ⟨labels, ending, es', hchain, ?_, hedge, fun h => hok.resolve_right (not_not.2 (hnil h))⟩
    rw [hvertices, AdjacencyList.size, List.getElem?_append_right le_rfl, Nat.sub_self,
      List.getElem?_cons_zero]
  have hsize : s.dag.size ≤ (finish s.dag.size s₁).dag.size := by
    rw [hfinish, AdjacencyList.size, AdjacencyList.size, hvertices, List.length_append]
    exact Nat.le_add_right _ _
  have hlive : Live G F s v := by
    by_cases hend : ending.reachesEnd G F = true
    · exact .ended hv hchain hend
    · obtain ⟨t, ht⟩ := List.exists_mem_of_ne_nil es (hok.resolve_left hend)
      obtain ⟨c, hc, hct, htp⟩ := hedge t (mem_dedup_insertionSort.2 ht)
      exact .next hv hchain hc (live_of_enter hv (h.ext.live_of_live (.cached hct htp)))
  refine ⟨?_, ?_, ?_, ?_, hself, fun hq => absurd (hq hv) (by simp)⟩
  · rw [hfinish]
    exact hinv₂.leave hpath hnot hself (fun w hw => eq_of_entered hinv h.ext hw) hentry
      ⟨labels, ending, hchain, h.cached⟩
  · exact .of_enter hinv hv h.ext (fun _ _ => rfl) (by rw [hfinish]) hsize
      (Or.inl ⟨hself, hlive⟩)
  · rw [hfinish]
    exact ⟨⟨labels, es'⟩ :: news, hvertices.symm⟩
  · rw [hfinish]
    exact h.roots

theorem callPost_of_failed {s₁ : TraceState V N} (hinv : TraceInv G F s) (hv : s.cache v = none)
    (hchain : Chain G F v labels ending)
    (hs₁ : s₁.dag.vertices = s.dag.vertices ++ ⟨labels, []⟩ :: news)
    (h : LoopPost (G := G) (F := F) (ending.continuations G F) (enter v labels s) [] [] s₁ [] news)
    (hend : ending.reachesEnd G F = false) :
    CallPost G F s v none (discard s.dag.size v (finish s.dag.size s₁)) := by
  obtain ⟨rfl, hquiet, hfailed⟩ := h.quiet rfl
  have hpath : s₁.currPath = s.dag.size :: s.currPath := h.ext.path
  have hnot : s.dag.size ∉ s.currPath := fun hmem => (hinv.path_lt _ hmem).ne rfl
  set cache' := Function.update s₁.cache v (some none) with hcache'
  -- the vertex is the last one, and what is left is the old graph
  have hdiscard : discard s.dag.size v (finish s.dag.size s₁) = ⟨s.dag, cache', s.currPath,
      .removed s.dag.size s.dag cache' :: s₁.events⟩ := by
    have hdag : s₁.dag.dedupOutEdges s.dag.size =
        ⟨s.dag.vertices ++ [⟨labels, []⟩], s.dag.roots⟩ := by
      have hroots : s₁.dag.roots = s.dag.roots := h.roots
      simp only [AdjacencyList.dedupOutEdges, hs₁, AdjacencyList.size, modify_mid, hroots]
      rfl
    have hpop : (⟨s.dag.vertices ++ [⟨labels, []⟩], s.dag.roots⟩ : AdjacencyList (List N)).pop
        s.dag.size = some s.dag := by
      simp [AdjacencyList.pop, AdjacencyList.size]
    rw [discard, finish, hpath, List.tail_cons, hdag]
    simp only [if_neg hnot, hpop, hcache']
  have hcache : ∀ w, w ≠ v → cache' w = s₁.cache w := fun w hw => Function.update_of_ne hw _ _
  have hself : cache' v = some none := Function.update_self ..
  -- no vertex is cached that was not before
  have hvalid : ∀ w k, cache' w = some (some k) → s.cache w = some (some k) := by
    intro w k hw
    have hwv : w ≠ v := by
      rintro rfl
      rw [hself] at hw
      exact absurd hw (by simp)
    rw [hcache w hwv] at hw
    cases hws : s.cache w with
    | none => exact absurd (hquiet w _ (by rw [enter_cache_of_ne hwv, hws]) hw) (by simp)
    | some r => rw [← hw, h.ext.old w r (enter_old hv hws)]
  have hold : ∀ w r, s.cache w = some r → cache' w = some r := by
    intro w r hw
    rw [hcache w fun heq => by rw [heq, hv] at hw; exact absurd hw (by simp)]
    exact h.ext.old w r (enter_old hv hw)
  have hsome : ∀ w, s₁.cache w ≠ none → cache' w ≠ none := by
    intro w hw
    by_cases hwv : w = v
    · rw [hwv, hself]
      simp
    · rwa [hcache w hwv]
  obtain ⟨order, hord⟩ := hinv.order
  rw [hdiscard]
  refine ⟨⟨hinv.path_lt, ?_, ?_, ?_, ⟨order, hord.closed, hord.nodup, ?_, ?_, hord.target⟩, ?_⟩, ?_,
    List.prefix_rfl, rfl, hself, fun _ => ⟨rfl, ?_⟩⟩
  · exact fun w k hw => hinv.cached_lt w k (hvalid w k hw)
  · intro w k hw hk
    obtain ⟨labels', ending', es', hchain', hk', hes, hend'⟩ := hinv.entry w k (hvalid w k hw) hk
    refine ⟨labels', ending', es', hchain', hk', fun t ht => ?_, hend'⟩
    obtain ⟨c, hc, hct, htp⟩ := hes t ht
    exact ⟨c, hc, hold c _ hct, htp⟩
  · intro w r hw hr
    by_cases hwv : w = v
    · rw [hwv]
      exact ⟨labels, ending, hchain, fun c hc => hsome c (h.cached c hc)⟩
    · have hw' : s₁.cache w = some r := (hcache w hwv).symm.trans hw
      obtain ⟨labels', ending', hchain', hall⟩ := h.inv.explored w r hw' fun k hk hkp => by
        rw [hpath, List.mem_cons] at hkp
        rcases hkp with rfl | hkp
        · rw [hk] at hw
          exact (hinv.cached_lt w _ (hvalid w _ hw)).ne rfl
        · exact hr k hk hkp
      exact ⟨labels', ending', hchain', fun c hc => hsome c (hall c hc)⟩
  · intro k hk
    obtain ⟨⟨w, hw⟩, hkp⟩ := hord.finished k hk
    exact ⟨⟨w, hold w _ hw⟩, hkp⟩
  · exact fun w k hw hk => hord.mem w k (hvalid w k hw) hk
  · intro e he
    rcases List.mem_cons.1 he with rfl | he
    · refine ⟨fun k hk => (hord.lt hinv (hord.target k _ hk)).ne rfl, fun w hw => ?_⟩
      exact (hinv.cached_lt w _ (hvalid w _ hw)).ne rfl
    · exact h.inv.events e he
  · refine .of_enter hinv hv h.ext hcache rfl le_rfl (Or.inr ⟨hself, ?_⟩)
    intro labels' ending' hchain'
    obtain ⟨rfl, rfl⟩ := hchain.unique hchain'
    refine ⟨hend, fun c hc k hck => ?_⟩
    have hmem := hfailed c hc k (h.ext.old c _ (enter_old hv hck))
    rw [hpath] at hmem
    exact (List.mem_cons.1 hmem).resolve_left (hinv.cached_lt c k hck).ne
  · intro w r hw hr
    cases r with
    | none => rfl
    | some k => exact absurd (hvalid w k hr) (by simp [hw])

/-- What a call of `pathsToImplLA` establishes. -/
theorem pathsToImplLA_spec : ∀ {fuel : ℕ} {v : V} {s s' : TraceState V N} {r : Option ℕ},
    pathsToImplLA G F fuel v s = some (r, s') → TraceInv G F s → CallPost G F s v r s'
  | 0, _, _, _, _, h, _ => absurd h.symm (Option.some_ne_none _)
  | fuel + 1, v, s, s', r, h, hinv => by
    cases hv : s.cache v with
    | some r' =>
      rw [pathsToImplLA, hv] at h
      obtain ⟨rfl, rfl⟩ := Prod.mk.inj (Option.some.inj h)
      refine ⟨hinv, .refl s, List.prefix_rfl, rfl, hv, fun _ => ⟨rfl, fun w r hw hr => ?_⟩⟩
      rw [hw] at hr
      exact absurd hr (by simp)
    | none =>
      have hnot : s.dag.size ∉ s.currPath := fun hmem => (hinv.path_lt _ hmem).ne rfl
      obtain ⟨labels, ending, s₁, hchain, hall, hfound, hfailed⟩ := pathsToImplLA_new hv hnot h
      obtain ⟨es, news, hs₁, hpost⟩ := traverseAll_spec pathsToImplLA_spec
        (rfl : (enter v labels s).dag.vertices = s.dag.vertices ++ ⟨labels, []⟩ :: [])
        (hinv.enter hv labels) (fun _ _ => List.mem_cons_self) hall
      have hedges : (finish s.dag.size s₁).dag.outEdges s.dag.size =
          (es.insertionSort (· ≤ ·)).dedup := by
        rw [finish, AdjacencyList.outEdges]
        simp [AdjacencyList.dedupOutEdges, hs₁, AdjacencyList.size, modify_mid]
      have hnil : (es.insertionSort (· ≤ ·)).dedup = [] ↔ es = [] := by
        rw [List.eq_nil_iff_forall_not_mem, List.eq_nil_iff_forall_not_mem]
        exact forall_congr' fun t => not_congr mem_dedup_insertionSort
      rw [hedges, ne_eq, hnil] at hfound
      rw [hedges, hnil] at hfailed
      by_cases hok : ending.reachesEnd G F = true ∨ es ≠ []
      · obtain ⟨rfl, rfl⟩ := hfound hok
        exact callPost_of_found hinv hv hchain hs₁ hpost hok
      · rw [not_or, not_not] at hok
        obtain ⟨rfl, rfl⟩ := hfailed (Bool.eq_false_of_not_eq_true hok.1) hok.2
        rw [hok.2] at hs₁ hpost
        exact callPost_of_failed hinv hv hchain hs₁ hpost (Bool.eq_false_of_not_eq_true hok.1)

end Phasar.PathSensitivityManager
