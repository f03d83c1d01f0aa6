import Phasar.PathSensitivity.PathTracingInvariant
import Mathlib.Data.Finset.Lattice.Fold
import Mathlib.Data.Fintype.Card

/-!
# What the reconstructed graph offers

The paths of the graph from the vertex of a query to a vertex without out-edges are backward walks
through the exploded supergraph, and there is one for a query exactly if its search finds a vertex.

* `Walk`: backward walks that respect the filters;
* `DagPath`: paths of the graph, with the instructions along them;
* `Continues`: a queried node from which the search finds a vertex, read off the state before it;
* `soundDag_iff`: when the reconstruction ends with a graph that only offers walks;
* `keepsFacts_iff`: when it ends with a graph that loses no queried fact.
-/

namespace Phasar.PathSensitivityManager

open TopologicalOrder

section Definitions

variable {V N : Type*} (G : ExplodedSuperGraph V N) (F : PathTracingFilter V)

/-- A node offers its own predecessor and those of its neighbors. -/
def alternatives (v : V) : List V := G.neighbors v ++ [v]

/-- Where one step back from `v` leads to; `none` is the end of the graph. -/
def transitions (v : V) : List (Option V) :=
  match G.predecessor v with
  | none => [none]
  | some p => (alternatives G p).map some

/-- A backward walk from `v`, with the sources it meets. It ends at a seed or at a transition that the
first filter accepts, which is not taken, and takes no transition that the second one rejects. -/
inductive Walk : V → List N → Prop
  | seed {v} : none ∈ transitions G v → F.isErrorneousTransition v none = false →
      Walk v [G.source v]
  | ended {v t} : t ∈ transitions G v → F.hasReachedEnd v t = true → Walk v [G.source v]
  | step {v w l} : some w ∈ transitions G v → F.hasReachedEnd v (some w) = false →
      F.isErrorneousTransition v (some w) = false → Walk w l → Walk v (G.source v :: l)

/-- The paths of the graph, with the instructions of their vertices. -/
inductive DagPath (g : AdjacencyList (List N)) : ℕ → ℕ → List N → Prop
  | refl {k d} : g.vertices[k]? = some d → DagPath g k k d.node
  | step {k t x d l} : g.vertices[k]? = some d → t ∈ d.outEdges → DagPath g t x l →
      DagPath g k x (d.node ++ l)

/-- The nodes that the search can start from. -/
inductive Reached (nods : List V) : V → Prop
  | query {nod w} : nod ∈ nods → w ∈ alternatives G nod → Reached nods w
  | next {v c labels ending} : Reached nods v → Chain G F v labels ending →
      c ∈ ending.continuations G F → Reached nods c

/-- The search from one of the alternatives of a queried node finds a vertex. -/
def Continues (s : TraceState V N) (nod : V) : Prop := ∃ w ∈ alternatives G nod, Live G F s w

/-- The `do`-loop ends wherever the search gets to. -/
def ChainsEnd (nods : List V) : Prop :=
  ∀ v, Reached G F nods v → ∃ labels ending, Chain G F v labels ending

/-- The graph built for the queried nodes offers only walks. Vertices were removed without failure and
are not referenced. -/
structure SoundDag (inst : N) (nods : List V) (s : TraceState V N) : Prop where
  clean : ∀ e ∈ s.events, e.Clean
  target_lt : ∀ k, ∀ t ∈ s.dag.outEdges k, t < s.dag.size
  cached_lt : ∀ v k, s.cache v = some (some k) → k < s.dag.size
  acyclic : ∀ k, ¬Relation.TransGen (fun k t => t ∈ s.dag.outEdges k) k k
  roots : s.dag.roots.length = nods.length
  walk : ∀ (i : ℕ) nod q, nods[i]? = some nod → s.dag.roots[i]? = some q → ∀ x l,
    DagPath s.dag q x l → s.dag.outEdges x = [] →
      ∃ l', l = inst :: l' ∧ ∃ w ∈ alternatives G nod, Walk G F w l'

/-- A queried node from which there is a walk has a path to a vertex where such a walk ends. -/
structure KeepsFacts (inst : N) (nods : List V) (s : TraceState V N) : Prop where
  roots : s.dag.roots.length = nods.length
  path : ∀ (i : ℕ) nod q, nods[i]? = some nod → s.dag.roots[i]? = some q →
    (∃ w ∈ alternatives G nod, ∃ l, Walk G F w l) →
      ∃ x l, DagPath s.dag q x (inst :: l) ∧ ∃ w ∈ alternatives G nod, Walk G F w l

end Definitions

variable {V N : Type*} {G : ExplodedSuperGraph V N} {F : PathTracingFilter V}

/-! ### Chains and walks -/

theorem Walk.ne_nil {v : V} {l : List N} (h : Walk G F v l) : l ≠ [] := by
  cases h <;> simp

theorem mem_transitions {v p w : V} (hp : G.predecessor v = some p) :
    some w ∈ transitions G v ↔ w = p ∨ w ∈ G.neighbors p := by
  rw [transitions, hp]
  simp [alternatives, or_comm]

/-- A chain is the beginning of a walk. -/
theorem chain_walk : ∀ {fuel : ℕ} {v : V} {labels : List N} {ending : ChainEnd V},
    chain G F fuel v = some (labels, ending) →
      (ending.reachesEnd G F = true → Walk G F v labels) ∧
        ∀ c ∈ ending.continuations G F, ∀ l, Walk G F c l → Walk G F v (labels ++ l)
  | 0, _, _, _, h => absurd h.symm (Option.some_ne_none _)
  | fuel + 1, v, labels, ending, h => by
    rw [chain] at h
    cases hp : G.predecessor v with
    | none =>
      simp only [hp, Option.some.injEq, Prod.mk.injEq] at h
      obtain ⟨rfl, rfl⟩ := h
      refine ⟨fun hend => ?_, fun c hc => absurd hc List.not_mem_nil⟩
      have hnone : none ∈ transitions G v := by simp [transitions, hp]
      cases hreached : F.hasReachedEnd v none with
      | true => exact .ended hnone hreached
      | false => exact .seed hnone (by simpa [ChainEnd.reachesEnd, hreached] using hend)
    | some p =>
      have hmem : ∀ w, w = p ∨ w ∈ G.neighbors p → some w ∈ transitions G v := fun w =>
        (mem_transitions hp).2
      simp only [hp] at h
      split_ifs at h with hstop
      · obtain ⟨rfl, rfl⟩ := Prod.mk.inj (Option.some.inj h)
        constructor
        · intro hend
          simp only [ChainEnd.reachesEnd, Bool.or_eq_true, List.any_eq_true, Bool.and_eq_true] at hend
          rcases hend with hend | ⟨w, hw, -, hend⟩
          · exact .ended (hmem p (Or.inl rfl)) hend
          · exact .ended (hmem w (Or.inr hw)) hend
        · intro c hc l hl
          rw [ChainEnd.continuations, List.mem_append, List.mem_filter, Bool.and_eq_true,
            Bool.not_eq_true', Bool.not_eq_true'] at hc
          rcases hc with hc | ⟨hc, herr, hend⟩
          · split_ifs at hc with hflags
            · exact absurd hc List.not_mem_nil
            · obtain rfl := List.mem_singleton.1 hc
              have hend : F.hasReachedEnd v (some c) = false := by
                cases hreached : F.hasReachedEnd v (some c) <;> simp [hreached] at hflags ⊢
              exact .step (hmem c (Or.inl rfl)) hend (by simpa [hend] using hflags) hl
          · exact .step (hmem c (Or.inr hc)) hend herr hl
      · obtain ⟨⟨labels', ending'⟩, hrest, heq⟩ := Option.map_eq_some_iff.1 h
        obtain ⟨rfl, rfl⟩ := Prod.mk.inj heq
        obtain ⟨hwalk, hcont⟩ := chain_walk hrest
        have hend : F.hasReachedEnd v (some p) = false := by
          cases hreached : F.hasReachedEnd v (some p) <;> simp [hreached] at hstop ⊢
        have herr : F.isErrorneousTransition v (some p) = false := by
          cases herr : F.isErrorneousTransition v (some p) <;> simp [herr, hend] at hstop ⊢
        have hstep : ∀ l, Walk G F p l → Walk G F v (G.source v :: l) := fun l hl =>
          .step (hmem p (Or.inl rfl)) hend herr hl
        exact ⟨fun hreach => hstep _ (hwalk hreach), fun c hc l hl => hstep _ (hcont c hc l hl)⟩

/-- Nothing follows the vertex of a query without edges. -/
theorem nil_of_dagPath {g : AdjacencyList (List N)} {q x : ℕ} {inst : N} {l : List N}
    (hget : g.vertices[q]? = some ⟨[inst], []⟩) (h : DagPath g q x (inst :: l)) : l = [] := by
  generalize hl : inst :: l = labels at h
  cases h with
  | refl hk =>
    rw [hget, Option.some.injEq] at hk
    subst hk
    simpa using hl
  | step hk hj _ =>
    rw [hget, Option.some.injEq] at hk
    subst hk
    exact absurd hj List.not_mem_nil

/-- A path from a finished vertex to one without out-edges is a walk. -/
theorem walk_of_dagPath {s : TraceState V N} (hinv : TraceInv G F s) {k x : ℕ} {l : List N}
    (h : DagPath s.dag k x l) (hx : s.dag.outEdges x = []) :
    ∀ {v : V}, s.cache v = some (some k) → k ∉ s.currPath → Walk G F v l := by
  induction h with
  | @refl k d hk =>
    intro v hv hkp
    obtain ⟨labels, ending, es, ⟨fuel, hchain⟩, hk', -, hend⟩ := hinv.entry v k hv hkp
    rw [hk', Option.some.injEq] at hk
    subst hk
    have hes : es = [] := by simpa [AdjacencyList.outEdges, hk'] using hx
    exact (chain_walk hchain).1 (hend hes)
  | @step k t x d l hk ht _ ih =>
    intro v hv hkp
    obtain ⟨labels, ending, es, ⟨fuel, hchain⟩, hk', hes, -⟩ := hinv.entry v k hv hkp
    rw [hk', Option.some.injEq] at hk
    subst hk
    obtain ⟨c, hc, hct, htp⟩ := hes t ht
    exact (chain_walk hchain).2 c hc l (ih hx hct htp)

/-- From every finished vertex there is a path to one without out-edges. -/
theorem exists_dagPath {g : AdjacencyList (List N)} {order : List ℕ}
    (h : Closed g.outEdges order) (hlt : ∀ k ∈ order, k < g.size) :
    ∀ k ∈ order, ∃ x l, DagPath g k x l ∧ g.outEdges x = [] := by
  induction h with
  | nil => simp
  | @concat order v _ hc ih =>
    intro k hk
    rcases List.mem_append.1 hk with hk | hk
    · exact ih (fun j hj => hlt j (List.mem_append_left _ hj)) k hk
    · obtain rfl := List.mem_singleton.1 hk
      obtain ⟨d, hd⟩ : ∃ d, g.vertices[k]? = some d :=
        ⟨_, List.getElem?_eq_getElem (hlt k (List.mem_append_right _ hk))⟩
      have hout : g.outEdges k = d.outEdges := by simp [AdjacencyList.outEdges, hd]
      cases hes : d.outEdges with
      | nil => exact ⟨k, d.node, .refl hd, hout.trans hes⟩
      | cons t ts =>
        have ht : t ∈ d.outEdges := by
          rw [hes]
          exact List.mem_cons_self
        obtain ⟨x, l, hpath, hx⟩ := ih (fun j hj => hlt j (List.mem_append_left _ hj)) t
          (hc t (hout ▸ ht))
        exact ⟨x, d.node ++ l, .step hd ht hpath, hx⟩

/-! ### Queries -/

variable {inst : N} {nods : List V} {s s' : TraceState V N}

theorem Live.congr (hcache : s'.cache = s.cache) (hpath : s'.currPath = s.currPath) {v : V}
    (h : Live G F s v) : Live G F s' v := by
  induction h with
  | cached hv hk => exact .cached (by rw [hcache, hv]) (by rwa [hpath])
  | ended hv hchain hend => exact .ended (by rw [hcache, hv]) hchain hend
  | next hv hchain hc _ ih => exact .next (by rw [hcache, hv]) hchain hc ih

/-- A vertex without edges that nothing refers to. -/
theorem TraceInv.addNode (h : TraceInv G F s) (labels : List N) :
    TraceInv G F { s with dag := s.dag.addNode labels } := by
  have hsize : (s.dag.addNode labels).size = s.dag.size + 1 := by
    simp [AdjacencyList.addNode, AdjacencyList.size]
  have hget : ∀ k, k < s.dag.size → (s.dag.addNode labels).vertices[k]? = s.dag.vertices[k]? :=
    fun k hk => List.getElem?_append_left hk
  obtain ⟨order, hord⟩ := h.order
  refine ⟨?_, ?_, ?_, h.explored, ⟨order, hord.closed.congr fun k hk => ?_, hord.nodup, hord.finished,
    hord.mem, fun k t ht => ?_⟩, h.events⟩
  · exact fun k hk => hsize ▸ (h.path_lt k hk).trans (Nat.lt_succ_self _)
  · exact fun v k hv => hsize ▸ (h.cached_lt v k hv).trans (Nat.lt_succ_self _)
  · intro v k hv hk
    obtain ⟨labels', ending, es, hchain, hk', hes, hend⟩ := h.entry v k hv hk
    exact ⟨labels', ending, es, hchain, by rw [hget k (h.cached_lt v k hv), hk'], hes, hend⟩
  · rw [AdjacencyList.outEdges, AdjacencyList.outEdges, hget k (hord.lt h hk)]
  · obtain ⟨d, hd, ht⟩ := AdjacencyList.mem_outEdges.1 ht
    rcases StronglyConnected.getElem?_concat hd with hd | ⟨-, rfl⟩
    · exact hord.target k t (AdjacencyList.mem_outEdges.2 ⟨d, hd, ht⟩)
    · exact absurd ht List.not_mem_nil

variable [DecidableEq V]

omit [DecidableEq V] in
theorem TraceInv.init : TraceInv G F (.init V N) where
  path_lt := by simp [TraceState.init]
  cached_lt _ _ h := absurd h.symm (Option.some_ne_none _)
  entry _ _ h := absurd h.symm (Option.some_ne_none _)
  explored _ _ h := absurd h.symm (Option.some_ne_none _)
  order := ⟨[], .nil, List.nodup_nil, by simp, fun _ _ h => absurd h.symm (Option.some_ne_none _), fun k t ht => by
    simp [TraceState.init, AdjacencyList.outEdges] at ht⟩
  events := by simp [TraceState.init]

theorem linkAll_spec {fuel : ℕ} {base : List (DagVertex (List N))} {labels : List N} :
    ∀ {cs : List V} {s s' : TraceState V N} {es : List ℕ} {news : List (DagVertex (List N))},
      s.dag.vertices = base ++ ⟨labels, es⟩ :: news → TraceInv G F s → s.currPath = [] →
      (∀ v, s.cache v ≠ some (some base.length)) →
      linkAll G F fuel base.length cs s = some s' →
      ∃ es' news', s'.dag.vertices = base ++ ⟨labels, es'⟩ :: news' ∧
        LoopPost (G := G) (F := F) cs s es news s' es' news'
  | [], s, s', es, news, hs, hinv, _, _, h => by
    obtain rfl := Option.some.inj h
    exact ⟨es, news, hs, .nil hinv es news⟩
  | c :: cs, s, s', es, news, hs, hinv, hpath, hret, h => by
    obtain ⟨⟨r, s₁⟩, hcall, hrest⟩ := Option.bind_eq_some_iff.1 h
    have hpost := pathsToImplLA_spec hcall hinv
    -- off the path a new edge is never refused
    obtain ⟨s₂, hnext, hlink⟩ : ∃ s₂, traverseNext (pathsToImplLA G F fuel) base.length c s =
        some s₂ ∧ linkAll G F fuel base.length cs s₂ = some s' := by
      cases r with
      | none => exact ⟨s₁, by rw [traverseNext, hcall, Option.map_some], hrest⟩
      | some k =>
        refine ⟨_, ?_, hrest⟩
        rw [traverseNext, hcall, Option.map_some]
        simp [hpost.ext.path, hpath]
    have hlt : base.length < s.dag.size := by
      rw [AdjacencyList.size, hs, List.length_append, List.length_cons]
      omega
    have hbuild : ∀ v, s.cache v = some (some base.length) → base.length ∈ s.currPath :=
      fun v hv => absurd hv (hret v)
    obtain ⟨es₁, news₁, hs₁, hpost₁⟩ := traverseNext_spec pathsToImplLA_spec hs hinv hbuild hnext
    have hpath₁ := hpost₁.ext.path.trans hpath
    have hret₁ := hpost₁.ext.building hlt hbuild
    obtain ⟨es₂, news₂, hs₂, hpost₂⟩ := linkAll_spec hs₁ hpost₁.inv hpath₁
      (fun v hv => by rw [hpath₁] at hret₁; exact List.not_mem_nil (hret₁ v hv)) hlink
    exact ⟨es₂, news₂, hs₂, hpost₁.cons hpost₂⟩

/-- What `pathsToImpl` establishes for the vertex of a query. -/
structure QueryPost (inst : N) (nod : V) (s : TraceState V N) (es : List ℕ) (s' : TraceState V N) :
    Prop where
  inv : TraceInv G F s'
  ext : CacheExt G F s s'
  roots : s'.dag.roots = s.dag.roots
  vertices : ∃ news, s'.dag.vertices = s.dag.vertices ++ ⟨[inst], es⟩ :: news
  cached : ∀ w ∈ alternatives G nod, s'.cache w ≠ none
  edge : ∀ t ∈ es, ∃ w ∈ alternatives G nod, s'.cache w = some (some t)
  continues : es ≠ [] ↔ Continues G F s nod

theorem pathsToImpl_spec {fuel q : ℕ} {nod : V} (h : pathsToImpl G F fuel inst nod s = some (q, s'))
    (hinv : TraceInv G F s) (hpath : s.currPath = []) :
    q = s.dag.size ∧ ∃ es, QueryPost (G := G) (F := F) inst nod s es s' := by
  obtain ⟨s₁, hs₁, heq⟩ := Option.map_eq_some_iff.1 h
  obtain ⟨rfl, rfl⟩ := Prod.mk.inj heq
  refine ⟨rfl, ?_⟩
  set s₀ : TraceState V N := { s with dag := s.dag.addNode [inst] } with hs₀
  have hsize₀ : s₀.dag.size = s.dag.size + 1 := by
    simp [hs₀, AdjacencyList.addNode, AdjacencyList.size]
  have hfresh : ∀ v, s₀.cache v ≠ some (some s.dag.size) := fun v hv =>
    (hinv.cached_lt v _ hv).ne rfl
  obtain ⟨es, news, hvertices, hpost⟩ := linkAll_spec
    (rfl : s₀.dag.vertices = s.dag.vertices ++ ⟨[inst], []⟩ :: []) (hinv.addNode [inst]) hpath hfresh
    hs₁
  have hpath₁ : s₁.currPath = [] := hpost.ext.path.trans hpath
  set es' := (es.insertionSort (· ≤ ·)).dedup with hes'
  have hvertices' : (s₁.dag.dedupOutEdges s.dag.size).vertices =
      s.dag.vertices ++ ⟨[inst], es'⟩ :: news := by
    simp only [AdjacencyList.dedupOutEdges, hvertices, AdjacencyList.size, modify_mid, hes']
  have hsize : (s₁.dag.dedupOutEdges s.dag.size).size = s₁.dag.size := by
    simp [AdjacencyList.size, AdjacencyList.dedupOutEdges]
  have hext : CacheExt G F s s₁ := by
    have hle := hpost.ext.size_le
    refine ⟨hpost.ext.path, by omega, hpost.ext.old, fun v k hv hk => ?_, hpost.ext.invalid, ?_⟩
    · have hlt := hpost.ext.fresh v k hv hk
      omega
    · exact fun v k hv hk =>
        Live.congr (show s.cache = s₀.cache from rfl) rfl (hpost.ext.live v k hv hk)
  have hedge : ∀ t ∈ es, ∃ w ∈ alternatives G nod, s₁.cache w = some (some t) := by
    intro t ht
    obtain ⟨w, hw, hwt, -⟩ := (hpost.edge t ht).resolve_left List.not_mem_nil
    exact ⟨w, hw, hwt⟩
  have hnil : es' ≠ [] ↔ es ≠ [] := by
    rw [ne_eq, ne_eq, not_iff_not, List.eq_nil_iff_forall_not_mem, List.eq_nil_iff_forall_not_mem]
    exact forall_congr' fun t => not_congr mem_dedup_insertionSort
  refine ⟨es', ?_, ?_, hpost.roots, ⟨news, hvertices'⟩, hpost.cached,
    fun t ht => hedge t (mem_dedup_insertionSort.1 ht), hnil.trans ⟨?_, ?_⟩⟩
  · refine hpost.inv.setEdges hvertices hvertices' rfl rfl rfl (fun v hv => ?_) fun t ht =>
      Or.inl (mem_dedup_insertionSort.1 ht)
    exact hpost.ext.building (hsize₀ ▸ Nat.lt_succ_self _) (fun w hw => absurd hw (hfresh w)) v hv
  · exact ⟨hext.path, hext.size_le.trans hsize.ge, hext.old, hext.fresh, hext.invalid, hext.live⟩
  · intro hne
    obtain ⟨t, ht⟩ := List.exists_mem_of_ne_nil es hne
    obtain ⟨w, hw, hwt⟩ := hedge t ht
    refine ⟨w, hw, hext.live_of_live (.cached hwt ?_)⟩
    rw [hpath₁]
    exact List.not_mem_nil
  · rintro ⟨w, hw, hlive⟩ hnil'
    -- if nothing was found, the alternatives are cached as invalid
    obtain ⟨-, hquiet, hinvalid⟩ := hpost.quiet hnil'
    have hwc := hpost.cached w hw
    cases hws : s.cache w with
    | none =>
      refine hwc (not_live_of_quiet hext hquiet (fun v _ hv => ?_) hlive hws)
      obtain ⟨r, hr⟩ := Option.ne_none_iff_exists'.1 hv
      refine hpost.inv.explored v r hr fun k _ => ?_
      rw [hpath₁]
      exact List.not_mem_nil
    | some r =>
      cases hlive with
      | @cached _ k hk _ =>
        have hmem := hinvalid w hw k (hpost.ext.old w _ hk)
        rw [hpath₁] at hmem
        exact List.not_mem_nil hmem
      | ended hn => exact absurd hn (by simp [hws])
      | next hn => exact absurd hn (by simp [hws])

/-! ### The run over all queries -/

/-- What a part of the run establishes. -/
structure RunPost (nods : List V) (s s' : TraceState V N) : Prop where
  inv : TraceInv G F s'
  path : s'.currPath = []
  ext : CacheExt G F s s'
  vertices : s.dag.vertices <+: s'.dag.vertices
  roots : ∃ qs, s'.dag.roots = s.dag.roots ++ qs ∧ qs.length = nods.length
  cached : ∀ nod ∈ nods, ∀ w ∈ alternatives G nod, s'.cache w ≠ none

omit [DecidableEq V] in
theorem TraceInv.addRoot (h : TraceInv G F s) (q : ℕ) :
    TraceInv G F { s with dag := s.dag.addRoot q } :=
  ⟨h.path_lt, h.cached_lt, h.entry, h.explored,
    h.order.imp fun _ hord => ⟨hord.closed, hord.nodup, hord.finished, hord.mem, hord.target⟩, h.events⟩

theorem pathsDagToAll_spec {fuel : ℕ} : ∀ {nods : List V} {s s' : TraceState V N},
    pathsDagToAll G F fuel inst nods s = some s' → TraceInv G F s → s.currPath = [] →
      RunPost (G := G) (F := F) nods s s'
  | [], s, s', h, hinv, hpath => by
    obtain rfl := Option.some.inj h
    exact ⟨hinv, hpath, .refl s, List.prefix_rfl, ⟨[], by simp, rfl⟩, by simp⟩
  | nod :: nods, s, s', h, hinv, hpath => by
    obtain ⟨⟨q, s₁⟩, hquery, hrest⟩ := Option.bind_eq_some_iff.1 h
    obtain ⟨-, es, hpost⟩ := pathsToImpl_spec hquery hinv hpath
    have hrun := pathsDagToAll_spec hrest (hpost.inv.addRoot q) (hpost.ext.path.trans hpath)
    obtain ⟨news, hvertices⟩ := hpost.vertices
    obtain ⟨qs, hqs, hlength⟩ := hrun.roots
    have hext : CacheExt G F s₁ s' := by
      refine ⟨hrun.ext.path, hrun.ext.size_le, hrun.ext.old, hrun.ext.fresh, hrun.ext.invalid, ?_⟩
      exact fun v k hv hk => Live.congr
        (show s₁.cache = ({ s₁ with dag := s₁.dag.addRoot q } : TraceState V N).cache from rfl) rfl
        (hrun.ext.live v k hv hk)
    refine ⟨hrun.inv, hrun.path, hpost.ext.trans hext,
      (List.prefix_append _ _).trans (hvertices ▸ hrun.vertices), ⟨q :: qs, ?_, by simp [hlength]⟩, ?_⟩
    · have hroots : s'.dag.roots = (s₁.dag.roots ++ [q]) ++ qs := hqs
      rw [hroots, hpost.roots, List.append_assoc, List.singleton_append]
    · intro nod' hnod w hw
      rcases List.mem_cons.1 hnod with rfl | hnod
      · obtain ⟨r, hr⟩ := Option.ne_none_iff_exists'.1 (hpost.cached w hw)
        rw [hext.old w r hr]
        simp
      · exact hrun.cached nod' hnod w hw

theorem pathsDagToAll_append {fuel : ℕ} : ∀ {l l' : List V} {s : TraceState V N},
    pathsDagToAll G F fuel inst (l ++ l') s =
      (pathsDagToAll G F fuel inst l s).bind (pathsDagToAll G F fuel inst l')
  | [], _, _ => rfl
  | nod :: l, l', s => by
    rw [List.cons_append, pathsDagToAll, pathsDagToAll]
    cases pathsToImpl G F fuel inst nod s with
    | none => rfl
    | some r => exact pathsDagToAll_append

/-- The state in which a query starts, and what its vertex looks like in the end. -/
theorem pathsDagToAll_query {fuel i q : ℕ} {nod : V}
    (h : pathsDagToAll G F fuel inst nods (.init V N) = some s') (hnod : nods[i]? = some nod)
    (hq : s'.dag.roots[i]? = some q) :
    ∃ s es, pathsDagToAll G F fuel inst (nods.take i) (.init V N) = some s ∧
      s'.dag.vertices[q]? = some ⟨[inst], es⟩ ∧
      (∀ t ∈ es, ∃ w ∈ alternatives G nod, s'.cache w = some (some t)) ∧
      (es ≠ [] ↔ Continues G F s nod) := by
  obtain ⟨hlt, hget⟩ := List.getElem?_eq_some_iff.1 hnod
  have hsplit : nods = nods.take i ++ nod :: nods.drop (i + 1) := by
    rw [← hget, List.cons_getElem_drop_succ, List.take_append_drop]
  rw [hsplit, pathsDagToAll_append] at h
  obtain ⟨s, hs, h⟩ := Option.bind_eq_some_iff.1 h
  obtain ⟨⟨q', s₁⟩, hquery, hrest⟩ := Option.bind_eq_some_iff.1 h
  have hbefore := pathsDagToAll_spec hs .init rfl
  obtain ⟨hq', es, hpost⟩ := pathsToImpl_spec hquery hbefore.inv hbefore.path
  have hafter := pathsDagToAll_spec hrest (hpost.inv.addRoot q')
    (hpost.ext.path.trans hbefore.path)
  obtain ⟨news, hvertices⟩ := hpost.vertices
  obtain ⟨qs, hqs, hlength⟩ := hbefore.roots
  obtain ⟨qs', hqs', -⟩ := hafter.roots
  have hroots : s'.dag.roots = qs ++ q' :: qs' := by
    have hnil : s.dag.roots = qs := hqs
    have hroots₁ : s'.dag.roots = (s₁.dag.roots ++ [q']) ++ qs' := hqs'
    rw [hroots₁, hpost.roots, hnil, List.append_assoc, List.singleton_append]
  have hqq : q' = q := by
    rw [List.length_take, min_eq_left hlt.le] at hlength
    rw [hroots, List.getElem?_append_right hlength.le, hlength, Nat.sub_self,
      List.getElem?_cons_zero] at hq
    exact Option.some.inj hq
  refine ⟨s, es, hs, ?_, fun t ht => ?_, hpost.continues⟩
  · obtain ⟨more, hmore⟩ := hafter.vertices
    have hmore' : s₁.dag.vertices ++ more = s'.dag.vertices := hmore
    rw [← hmore', hvertices, ← hqq, hq', AdjacencyList.size, List.append_assoc,
      List.getElem?_append_right le_rfl, Nat.sub_self]
    rfl
  · obtain ⟨w, hw, hwt⟩ := hpost.edge t ht
    exact ⟨w, hw, hafter.ext.old w _ hwt⟩

/-! ### The end of the recursion -/

section Termination

variable [Fintype V] {bound m : ℕ}

/-- The nodes that the search has not seen. -/
def uncached (s : TraceState V N) : Finset V := Finset.univ.filter fun v => (s.cache v).isNone

omit [DecidableEq V] in
theorem mem_uncached {v : V} : v ∈ uncached s ↔ s.cache v = none := by
  rw [uncached, Finset.mem_filter, Option.isNone_iff_eq_none]
  exact and_iff_right (Finset.mem_univ v)

omit [DecidableEq V] in
theorem CacheExt.card_uncached_le (h : CacheExt G F s s') :
    (uncached s').card ≤ (uncached s).card :=
  Finset.card_le_card fun _ hv => mem_uncached.2 (h.none_of_none (mem_uncached.1 hv))

theorem card_uncached_enter {v : V} (hv : s.cache v = none) (labels : List N) :
    (uncached (enter v labels s)).card < (uncached s).card := by
  refine Finset.card_lt_card (Finset.ssubset_iff_of_subset (fun w hw => ?_) |>.2 ⟨v, ?_, ?_⟩)
  · rw [mem_uncached] at hw ⊢
    by_cases hwv : w = v
    · rwa [hwv]
    · rwa [enter_cache_of_ne hwv] at hw
  · exact mem_uncached.2 hv
  · rw [mem_uncached, enter_cache_self]
    simp

omit [DecidableEq V] in
theorem traverseAll_total {rec : V → TraceState V N → Option (Option ℕ × TraceState V N)}
    (hrec : ∀ {v s r s'}, rec v s = some (r, s') → TraceInv G F s → CallPost G F s v r s')
    {base : List (DagVertex (List N))} {labels : List N} :
    ∀ {cs : List V} {s : TraceState V N} {es : List ℕ} {news : List (DagVertex (List N))},
      (∀ c ∈ cs, ∀ s, TraceInv G F s → (uncached s).card ≤ m → ∃ r, rec c s = some r) →
      s.dag.vertices = base ++ ⟨labels, es⟩ :: news → TraceInv G F s →
      (∀ v, s.cache v = some (some base.length) → base.length ∈ s.currPath) →
      (uncached s).card ≤ m → ∃ s', traverseAll rec base.length cs s = some s'
  | [], s, _, _, _, _, _, _, _ => ⟨s, rfl⟩
  | c :: cs, s, es, news, htotal, hs, hinv, hret, hm => by
    obtain ⟨r, hr⟩ := htotal c List.mem_cons_self s hinv hm
    obtain ⟨s₁, hnext⟩ : ∃ s₁, traverseNext rec base.length c s = some s₁ := by
      rw [traverseNext, hr]
      exact ⟨_, rfl⟩
    obtain ⟨es₁, news₁, hs₁, hpost⟩ := traverseNext_spec hrec hs hinv hret hnext
    have hlt : base.length < s.dag.size := by
      rw [AdjacencyList.size, hs, List.length_append, List.length_cons]
      omega
    obtain ⟨s', hs'⟩ := traverseAll_total hrec (fun d hd => htotal d (List.mem_cons_of_mem c hd)) hs₁
      hpost.inv (hpost.ext.building hlt hret) (hpost.ext.card_uncached_le.trans hm)
    exact ⟨s', by rw [traverseAll, hnext, Option.bind_some, hs']⟩

theorem pathsToImplLA_total
    (hbound : ∀ v, Reached G F nods v → ∃ c, chain G F bound v = some c) :
    ∀ {fuel m : ℕ} {v : V} {s : TraceState V N}, TraceInv G F s → (uncached s).card ≤ m →
      bound + m < fuel → Reached G F nods v → ∃ r, pathsToImplLA G F fuel v s = some r
  | 0, _, _, _, _, _, hfuel, _ => absurd hfuel (Nat.not_lt_zero _)
  | fuel + 1, m, v, s, hinv, hm, hfuel, hv => by
    rw [pathsToImplLA]
    cases hvs : s.cache v with
    | some r => exact ⟨_, rfl⟩
    | none =>
      obtain ⟨⟨labels, ending⟩, hc⟩ := hbound v hv
      have hchain := chain_mono (by omega : bound ≤ fuel) hc
      have hlt := card_uncached_enter hvs labels
      have hnot : s.dag.size ∉ s.currPath := fun hmem => (hinv.path_lt _ hmem).ne rfl
      have hfuel' : bound + (m - 1) < fuel := by omega
      obtain ⟨s₁, hs₁⟩ := traverseAll_total (m := m - 1) (fun hcall => pathsToImplLA_spec hcall)
        (fun c (hc : c ∈ ending.continuations G F) t hinv hcard =>
          pathsToImplLA_total hbound hinv hcard hfuel' (hv.next ⟨fuel, hchain⟩ hc))
        (rfl : (enter v labels s).dag.vertices = s.dag.vertices ++ ⟨labels, []⟩ :: [])
        (hinv.enter hvs labels) (fun _ _ => List.mem_cons_self) (by omega)
      obtain ⟨r, hr⟩ : ∃ r, pathsToImplLAInvoke G F (pathsToImplLA G F fuel) s.dag.size ending
          { s with
            dag := s.dag.addNode labels
            cache := Function.update s.cache v (some (some s.dag.size)) } = some r := by
        cases ending with
        | root isError => exact ⟨_, rfl⟩
        | stop prev vtx isEnd isError =>
          refine ⟨_, (pathsToImplLAInvoke_stop _ ?_).trans (congrArg (Option.map _) hs₁)⟩
          exact hnot
      simp only [hchain, Option.bind_some, hr, Option.map_some]
      exact ⟨_, rfl⟩

theorem linkAll_total (hbound : ∀ v, Reached G F nods v → ∃ c, chain G F bound v = some c)
    {fuel : ℕ} (hfuel : bound + m < fuel) {base : List (DagVertex (List N))} {labels : List N} :
    ∀ {cs : List V} {s : TraceState V N} {es : List ℕ} {news : List (DagVertex (List N))},
      (∀ c ∈ cs, Reached G F nods c) → s.dag.vertices = base ++ ⟨labels, es⟩ :: news →
      TraceInv G F s → s.currPath = [] → (∀ v, s.cache v ≠ some (some base.length)) →
      (uncached s).card ≤ m → ∃ s', linkAll G F fuel base.length cs s = some s'
  | [], s, _, _, _, _, _, _, _, _ => ⟨s, rfl⟩
  | c :: cs, s, es, news, hcs, hs, hinv, hpath, hret, hm => by
    obtain ⟨r, hr⟩ := pathsToImplLA_total hbound hinv hm hfuel (hcs c List.mem_cons_self)
    obtain ⟨s₁, hs₁⟩ : ∃ s₁, linkAll G F fuel base.length [c] s = some s₁ := by
      rw [linkAll, hr]
      exact ⟨_, rfl⟩
    obtain ⟨es₁, news₁, hvertices, hpost⟩ := linkAll_spec hs hinv hpath hret hs₁
    have hlt : base.length < s.dag.size := by
      rw [AdjacencyList.size, hs, List.length_append, List.length_cons]
      omega
    have hpath₁ : s₁.currPath = [] := hpost.ext.path.trans hpath
    have hret₁ := hpost.ext.building hlt fun v hv => absurd hv (hret v)
    obtain ⟨s', hs'⟩ := linkAll_total hbound hfuel (fun d hd => hcs d (List.mem_cons_of_mem c hd))
      hvertices hpost.inv hpath₁
      (fun v hv => by rw [hpath₁] at hret₁; exact List.not_mem_nil (hret₁ v hv))
      (hpost.ext.card_uncached_le.trans hm)
    refine ⟨s', ?_⟩
    rw [linkAll, hr, Option.bind_some] at hs₁ ⊢
    rw [linkAll] at hs₁
    rw [Option.some.inj hs₁, hs']

theorem pathsDagToAll_total (hbound : ∀ v, Reached G F nods v → ∃ c, chain G F bound v = some c)
    {fuel : ℕ} (hfuel : bound + Fintype.card V < fuel) :
    ∀ {l : List V} {s : TraceState V N}, (∀ nod ∈ l, nod ∈ nods) → TraceInv G F s →
      s.currPath = [] → ∃ s', pathsDagToAll G F fuel inst l s = some s'
  | [], s, _, _, _ => ⟨s, rfl⟩
  | nod :: l, s, hl, hinv, hpath => by
    have hvertices : (s.dag.addNode [inst]).vertices = s.dag.vertices ++ ⟨[inst], []⟩ :: [] := rfl
    obtain ⟨s₁, hs₁⟩ := linkAll_total (s := { s with dag := s.dag.addNode [inst] }) hbound hfuel
      (fun c (hc : c ∈ alternatives G nod) => .query (hl nod List.mem_cons_self) hc) hvertices
      (hinv.addNode [inst]) hpath (fun v hv => (hinv.cached_lt v _ hv).ne rfl)
      (Finset.card_le_univ _)
    have hquery : ∃ r, pathsToImpl G F fuel inst nod s = some r := by
      have hs₁' : linkAll G F fuel s.dag.size (G.neighbors nod ++ [nod])
          { s with dag := s.dag.addNode [inst] } = some s₁ := hs₁
      rw [pathsToImpl]
      simp only [hs₁', Option.map_some]
      exact ⟨_, rfl⟩
    obtain ⟨⟨q, s₂⟩, hq⟩ := hquery
    obtain ⟨-, es, hpost⟩ := pathsToImpl_spec hq hinv hpath
    obtain ⟨s', hs'⟩ := pathsDagToAll_total hbound hfuel
      (fun n hn => hl n (List.mem_cons_of_mem nod hn)) (hpost.inv.addRoot q)
      (hpost.ext.path.trans hpath)
    exact ⟨s', by rw [pathsDagToAll, hq, Option.bind_some, hs']⟩

end Termination

/-- After the run every node that the search can start from is cached. -/
theorem cached_of_reached {fuel : ℕ}
    (h : pathsDagToAll G F fuel inst nods (.init V N) = some s) {v : V} (hv : Reached G F nods v) :
    s.cache v ≠ none := by
  have hpost := pathsDagToAll_spec h .init rfl
  induction hv with
  | query hnod hw => exact hpost.cached _ hnod _ hw
  | @next v c labels ending _ hchain hc ih =>
    obtain ⟨r, hr⟩ := Option.ne_none_iff_exists'.1 ih
    obtain ⟨labels', ending', hchain', hall⟩ := hpost.inv.explored v r hr fun k _ => by
      rw [hpost.path]
      exact List.not_mem_nil
    obtain ⟨rfl, rfl⟩ := hchain.unique hchain'
    exact hall c hc

/-- The run ends if and only if the loop ends for every node that the search can start from. -/
theorem pathsDagToAll_terminates_iff [Fintype V] :
    (∃ fuel s, pathsDagToAll G F fuel inst nods (.init V N) = some s) ↔ ChainsEnd G F nods := by
  constructor
  · rintro ⟨fuel, s, h⟩ v hv
    have hpost := pathsDagToAll_spec h .init rfl
    obtain ⟨r, hr⟩ := Option.ne_none_iff_exists'.1 (cached_of_reached h hv)
    obtain ⟨labels, ending, hchain, -⟩ := hpost.inv.explored v r hr fun k _ => by
      rw [hpost.path]
      exact List.not_mem_nil
    exact ⟨labels, ending, hchain⟩
  · intro hchains
    have hfuels : ∀ v, ∃ fuel, Reached G F nods v → ∃ c, chain G F fuel v = some c := by
      intro v
      by_cases hv : Reached G F nods v
      · obtain ⟨labels, ending, fuel, hfuel⟩ := hchains v hv
        exact ⟨fuel, fun _ => ⟨_, hfuel⟩⟩
      · exact ⟨0, fun h => absurd h hv⟩
    choose fuels hfuels using hfuels
    have hbound : ∀ v, Reached G F nods v →
        ∃ c, chain G F (Finset.univ.sup fuels) v = some c := by
      intro v hv
      obtain ⟨c, hc⟩ := hfuels v hv
      exact ⟨c, chain_mono (Finset.le_sup (f := fuels) (Finset.mem_univ v)) hc⟩
    exact ⟨_, pathsDagToAll_total hbound (Nat.lt_succ_self _) (fun _ h => h) .init rfl⟩

/-- A query whose search finds nothing leaves a vertex without edges. -/
theorem continues_of_path {fuel i q : ℕ} {nod : V}
    (h : pathsDagToAll G F fuel inst nods (.init V N) = some s) (hnod : nods[i]? = some nod)
    (hq : s.dag.roots[i]? = some q)
    (hpath : ∀ es, s.dag.vertices[q]? = some ⟨[inst], es⟩ → es ≠ []) {fuel' : ℕ}
    {t : TraceState V N} (ht : pathsDagToAll G F fuel' inst (nods.take i) (.init V N) = some t) :
    Continues G F t nod := by
  obtain ⟨t', es, ht', hget, -, hcont⟩ := pathsDagToAll_query h hnod hq
  rw [pathsDagToAll_unique ht ht']
  exact hcont.1 (hpath es hget)

/-- The reconstruction ends, builds an acyclic graph without dangling references and offers nothing but
walks if and only if the loop ends for every node it gets to and each queried node still has an
alternative from which the search finds a vertex when its turn comes. -/
theorem soundDag_iff [Fintype V] :
    (∃ fuel s, pathsDagToAll G F fuel inst nods (.init V N) = some s ∧ SoundDag G F inst nods s) ↔
      ChainsEnd G F nods ∧ ∀ (i : ℕ) nod, nods[i]? = some nod → ∀ fuel s,
        pathsDagToAll G F fuel inst (nods.take i) (.init V N) = some s → Continues G F s nod := by
  constructor
  · rintro ⟨fuel, s, h, hsound⟩
    refine ⟨pathsDagToAll_terminates_iff.1 ⟨fuel, s, h⟩, fun i nod hnod fuel' t ht => ?_⟩
    obtain ⟨hlt, -⟩ := List.getElem?_eq_some_iff.1 hnod
    have hq := List.getElem?_eq_getElem (hsound.roots.symm ▸ hlt)
    refine continues_of_path h hnod hq (fun es hget hnil => ?_) ht
    -- the path that consists of the vertex of the query is no walk
    obtain ⟨l', hl', w, -, hwalk⟩ := hsound.walk i nod _ hnod hq _ _ (.refl hget)
      (by simp [AdjacencyList.outEdges, hget, hnil])
    exact hwalk.ne_nil (by simpa using hl'.symm)
  · rintro ⟨hchains, hcontinues⟩
    obtain ⟨fuel, s, h⟩ := pathsDagToAll_terminates_iff.2 hchains
    have hpost := pathsDagToAll_spec h .init rfl
    obtain ⟨order, hord⟩ := hpost.inv.order
    refine ⟨fuel, s, h, hpost.inv.events, fun k t ht => hord.lt hpost.inv (hord.target k t ht),
      hpost.inv.cached_lt, fun k hk => ?_, ?_, ?_⟩
    · obtain ⟨j, -, hjk⟩ := Relation.TransGen.tail'_iff.1 hk
      exact hord.closed.acyclic hord.nodup k (hord.target j k hjk) hk
    · obtain ⟨qs, hqs, hlength⟩ := hpost.roots
      rw [hqs]
      exact hlength
    · intro i nod q hnod hq x l hpath hx
      obtain ⟨t, es, ht, hget, hedge, hcont⟩ := pathsDagToAll_query h hnod hq
      have hes := hcont.2 (hcontinues i nod hnod fuel t ht)
      cases hpath with
      | refl hk =>
        refine absurd ?_ hes
        simpa [AdjacencyList.outEdges, hget] using hx
      | @step _ j _ d l' hk hj hpath =>
        rw [hget, Option.some.injEq] at hk
        subst hk
        obtain ⟨w, hw, hwj⟩ := hedge j hj
        refine ⟨l', rfl, w, hw, walk_of_dagPath hpost.inv hpath hx hwj ?_⟩
        rw [hpost.path]
        exact List.not_mem_nil

/-- A seed. -/
def seedGraph : ExplodedSuperGraph Unit ℕ := ⟨fun _ => 1, fun _ => none, fun _ => []⟩

/-- A filter that rejects all transitions. -/
def rejectAll : PathTracingFilter Unit := ⟨fun _ _ => false, fun _ _ => true⟩

theorem seedGraph_dag : (pathsDagToAll seedGraph rejectAll 3 0 [()] (.init Unit ℕ)).map
    TraceState.dag = some ⟨[⟨[0], []⟩], [0]⟩ := by decide

/-- The vertex of a query whose only walk is rejected stays in the graph. -/
theorem not_soundDag_rejectAll :
    ¬∃ fuel s, pathsDagToAll seedGraph rejectAll fuel 0 [()] (.init Unit ℕ) = some s ∧
      SoundDag seedGraph rejectAll 0 [()] s := by
  rintro ⟨fuel, s, h, hsound⟩
  obtain ⟨t, ht, hdag⟩ := Option.map_eq_some_iff.1 seedGraph_dag
  rw [pathsDagToAll_unique ht h] at hdag
  have hget : s.dag.vertices[0]? = some ⟨[0], []⟩ := by rw [hdag]; rfl
  obtain ⟨l', hl', w, -, hwalk⟩ := hsound.walk 0 () 0 rfl (by rw [hdag]; rfl) 0 [0] (.refl hget)
    (by rw [hdag]; rfl)
  exact hwalk.ne_nil (by simpa using hl'.symm)

/-- The reconstruction ends and loses no queried fact if and only if the loop ends for every node it
gets to and each queried node with a walk still has an alternative from which the search finds a vertex
when its turn comes. -/
theorem keepsFacts_iff [Fintype V] :
    (∃ fuel s, pathsDagToAll G F fuel inst nods (.init V N) = some s ∧ KeepsFacts G F inst nods s) ↔
      ChainsEnd G F nods ∧ ∀ (i : ℕ) nod, nods[i]? = some nod →
        (∃ w ∈ alternatives G nod, ∃ l, Walk G F w l) → ∀ fuel s,
          pathsDagToAll G F fuel inst (nods.take i) (.init V N) = some s → Continues G F s nod := by
  constructor
  · rintro ⟨fuel, s, h, hkeeps⟩
    refine ⟨pathsDagToAll_terminates_iff.1 ⟨fuel, s, h⟩, fun i nod hnod hwalk fuel' t ht => ?_⟩
    obtain ⟨hlt, -⟩ := List.getElem?_eq_some_iff.1 hnod
    have hq := List.getElem?_eq_getElem (hkeeps.roots.symm ▸ hlt)
    refine continues_of_path h hnod hq (fun es hget hnil => ?_) ht
    obtain ⟨x, l, hpath, w, -, hwalk⟩ := hkeeps.path i nod _ hnod hq hwalk
    rw [hnil] at hget
    exact hwalk.ne_nil (nil_of_dagPath hget hpath)
  · rintro ⟨hchains, hcontinues⟩
    obtain ⟨fuel, s, h⟩ := pathsDagToAll_terminates_iff.2 hchains
    have hpost := pathsDagToAll_spec h .init rfl
    obtain ⟨order, hord⟩ := hpost.inv.order
    refine ⟨fuel, s, h, ?_, ?_⟩
    · obtain ⟨qs, hqs, hlength⟩ := hpost.roots
      rw [hqs]
      exact hlength
    · intro i nod q hnod hq hwalk
      obtain ⟨t, es, ht, hget, hedge, hcont⟩ := pathsDagToAll_query h hnod hq
      obtain ⟨j, hj⟩ := List.exists_mem_of_ne_nil es
        (hcont.2 (hcontinues i nod hnod hwalk fuel t ht))
      obtain ⟨w, hw, hwj⟩ := hedge j hj
      have hnot : j ∉ s.currPath := by
        rw [hpost.path]
        exact List.not_mem_nil
      obtain ⟨x, l, hpath, hx⟩ := exists_dagPath hord.closed (fun k hk => hord.lt hpost.inv hk) j
        (hord.mem w j hwj hnot)
      exact ⟨x, l, .step hget hj hpath, w, hw, walk_of_dagPath hpost.inv hpath hx hwj hnot⟩

/-- The nodes of three pairs with two predecessors each, and a seed. -/
inductive LoopNode
  | j | jn | r | rn | q | qn | seed
  deriving DecidableEq

/-- The pair `q` leads back to the pair `j`, which leads to the seed past `r`. -/
def loopGraph : ExplodedSuperGraph LoopNode ℕ where
  source
    | .j => 1
    | .jn => 2
    | .r => 3
    | .rn => 4
    | .q => 5
    | .qn => 6
    | .seed => 7
  predecessor
    | .j => some .r
    | .jn => some .j
    | .r => some .q
    | .rn => some .seed
    | .q => some .j
    | .qn => some .q
    | .seed => none
  neighbors
    | .j => [.jn]
    | .r => [.rn]
    | .q => [.qn]
    | _ => []

theorem loopGraph_dag : (pathsDagToAll loopGraph (.default LoopNode) 8 0 [.j, .q] (.init LoopNode ℕ)).map
    TraceState.dag = some ⟨[⟨[0], [1, 2]⟩, ⟨[2], [2]⟩, ⟨[1], [3]⟩, ⟨[4, 7], []⟩, ⟨[0], []⟩], [0, 4]⟩ := by
  decide

theorem walk_loopGraph : Walk loopGraph (.default LoopNode) .q [5, 1, 4, 7] := by
  refine .step (w := .j) (by decide) rfl rfl ?_
  refine .step (w := .rn) (by decide) rfl rfl ?_
  refine .step (w := .seed) (by decide) rfl rfl ?_
  exact .seed (by decide) rfl

/-- While `j` is traced, `q` is cached as invalid, since all it leads to is on the current path. -/
theorem not_keepsFacts_loopGraph :
    ¬∃ fuel s, pathsDagToAll loopGraph (.default LoopNode) fuel 0 [.j, .q] (.init LoopNode ℕ) = some s ∧
      KeepsFacts loopGraph (.default LoopNode) 0 [.j, .q] s := by
  rintro ⟨fuel, s, h, hkeeps⟩
  obtain ⟨t, ht, hdag⟩ := Option.map_eq_some_iff.1 loopGraph_dag
  rw [pathsDagToAll_unique ht h] at hdag
  have hget : s.dag.vertices[4]? = some ⟨[0], []⟩ := by rw [hdag]; rfl
  obtain ⟨x, l, hpath, w, -, hwalk⟩ := hkeeps.path 1 .q 4 rfl (by rw [hdag]; rfl)
    ⟨.q, by decide, _, walk_loopGraph⟩
  exact hwalk.ne_nil (nil_of_dagPath hget hpath)

end Phasar.PathSensitivityManager
