import Mathlib.Data.List.Dedup
import Mathlib.Data.List.Sort
import Mathlib.Logic.Function.Basic

/-!
# Reconstruction of paths

`PathSensitivityManagerMixin` walks back through the exploded supergraph from the queried pairs and
collects the instructions it meets in the vertices of a graph. The search looks one predecessor ahead:
a vertex of the graph stands for a chain of nodes up to the first one with neighbors. Vertices are
cached by the node they start in, `Invalid` (here `none`) included; the vertex of a chain that leads
nowhere is popped again.

* `ExplodedSuperGraph`, `PathTracingFilter`, `AdjacencyList`;
* `chain`: the `do`-loop of `pathsToImplLAInvoke`;
* `pathsToImplLA`, `pathsToImpl`, `pathsDagToAll`: `none` when the fuel runs out;
* `TraceEvent`: what happened to popped vertices.
-/

namespace Phasar.PathSensitivityManager

/-- The nodes of an exploded supergraph, as a `NodeRef` reads them. -/
structure ExplodedSuperGraph (V N : Type*) where
  source : V → N
  predecessor : V → Option V
  neighbors : V → List V

/-- The two filters; the second argument is `none` for a node without predecessor. -/
structure PathTracingFilter (V : Type*) where
  hasReachedEnd : V → Option V → Bool
  isErrorneousTransition : V → Option V → Bool

/-- `DefaultPathTracingFilter`. -/
def PathTracingFilter.default (V : Type*) : PathTracingFilter V :=
  ⟨fun _ _ => false, fun _ _ => false⟩

/-- A vertex of a graph: its tag and its out-edges. -/
structure DagVertex (T : Type*) where
  node : T
  outEdges : List ℕ
  deriving DecidableEq

/-- A graph. The vectors `Nodes` and `Adj` always have the same length. -/
structure AdjacencyList (T : Type*) where
  vertices : List (DagVertex T)
  roots : List ℕ
  deriving DecidableEq

namespace AdjacencyList

variable {T : Type*} (g : AdjacencyList T)

def size : ℕ := g.vertices.length

/-- The new vertex is the old `size`. -/
def addNode (val : T) : AdjacencyList T := { g with vertices := g.vertices ++ [⟨val, []⟩] }

def addRoot (vtx : ℕ) : AdjacencyList T := { g with roots := g.roots ++ [vtx] }

/-- Change the tag of a vertex. -/
def modifyNode (vtx : ℕ) (f : T → T) : AdjacencyList T :=
  { g with vertices := g.vertices.modify vtx fun d => { d with node := f d.node } }

def addEdge (src tgt : ℕ) : AdjacencyList T :=
  { g with vertices := g.vertices.modify src fun d => { d with outEdges := d.outEdges ++ [tgt] } }

/-- Sort the out-edges and keep one of each. -/
def dedupOutEdges (vtx : ℕ) : AdjacencyList T :=
  { g with
    vertices := g.vertices.modify vtx fun d =>
      { d with outEdges := (d.outEdges.insertionSort (· ≤ ·)).dedup } }

def outEdges (vtx : ℕ) : List ℕ := (g.vertices[vtx]?).elim [] DagVertex.outEdges

/-- Remove the last vertex; fails for any other. -/
def pop (vtx : ℕ) : Option (AdjacencyList T) :=
  if vtx + 1 = g.size then some { g with vertices := g.vertices.dropLast } else none

end AdjacencyList

/-- What `pathsToImplLA` does with a vertex that leads nowhere: it is on the current path already, it
cannot be popped, or it is popped, which leaves a graph and a cache. -/
inductive TraceEvent (V N : Type*)
  | alreadyOnPath (vtx : ℕ)
  | cannotRemove (vtx : ℕ)
  | removed (vtx : ℕ) (dag : AdjacencyList (List N)) (cache : V → Option (Option ℕ))

/-- The graph that is built, and `PathsToContext`; the last vertex of `currPath` comes first. -/
structure TraceState (V N : Type*) where
  dag : AdjacencyList (List N)
  cache : V → Option (Option ℕ)
  currPath : List ℕ
  events : List (TraceEvent V N)

/-- The empty graph and context. -/
def TraceState.init (V N : Type*) : TraceState V N := ⟨⟨[], []⟩, fun _ => none, [], []⟩

/-- How the `do`-loop of `pathsToImplLAInvoke` ends: at a node without predecessor, or with the last
two nodes and the flags `IsEnd` and `IsError`. -/
inductive ChainEnd (V : Type*)
  | root (isError : Bool)
  | stop (prev vtx : V) (isEnd isError : Bool)
  deriving DecidableEq

section Search

variable {V N : Type*} [DecidableEq V] (G : ExplodedSuperGraph V N) (F : PathTracingFilter V)

/-- The `do`-loop of `pathsToImplLAInvoke`: the instructions it collects, and how it ends. -/
def chain : ℕ → V → Option (List N × ChainEnd V)
  | 0, _ => none
  | fuel + 1, prev =>
    let isEnd := F.hasReachedEnd prev (G.predecessor prev)
    let isError := !isEnd && F.isErrorneousTransition prev (G.predecessor prev)
    match G.predecessor prev with
    | none => some ([G.source prev], .root isError)
    | some vtx =>
      if isEnd || isError || !(G.neighbors vtx).isEmpty then
        some ([G.source prev], .stop prev vtx isEnd isError)
      else (chain fuel vtx).map fun r => (G.source prev :: r.1, r.2)

/-- The lambda `traverseNext`; `rec` is the recursive call of `pathsToImplLA`. -/
def traverseNext (rec : V → TraceState V N → Option (Option ℕ × TraceState V N)) (ret : ℕ) (nxt : V)
    (s : TraceState V N) : Option (TraceState V N) :=
  (rec nxt s).map fun r =>
    match r.1 with
    | some succ =>
      if succ ∈ r.2.currPath then r.2 else { r.2 with dag := r.2.dag.addEdge ret succ }
    | none => r.2

/-- The loop over the neighbors, with the flag `IsEnd`. -/
def traverseNeighbors (rec : V → TraceState V N → Option (Option ℕ × TraceState V N)) (ret : ℕ)
    (prev : V) : List V → Bool → TraceState V N → Option (Bool × TraceState V N)
  | [], isEnd, s => some (isEnd, s)
  | nxt :: rest, isEnd, s =>
    if F.isErrorneousTransition prev (some nxt) then traverseNeighbors rec ret prev rest isEnd s
    else if F.hasReachedEnd prev (some nxt) then traverseNeighbors rec ret prev rest true s
    else (traverseNext rec ret nxt s).bind (traverseNeighbors rec ret prev rest isEnd)

/-- `pathsToImplLAInvoke` after its `do`-loop. -/
def pathsToImplLAInvoke (rec : V → TraceState V N → Option (Option ℕ × TraceState V N)) (ret : ℕ) :
    ChainEnd V → TraceState V N → Option (Bool × TraceState V N)
  | .root isError, s => some (!isError, s)
  | .stop prev vtx isEnd isError, s =>
    if ret ∈ s.currPath then some (false, { s with events := .alreadyOnPath ret :: s.events })
    else
      let s := { s with currPath := ret :: s.currPath }
      ((if isEnd || isError then some s else traverseNext rec ret vtx s).bind
        (traverseNeighbors F rec ret prev (G.neighbors vtx) isEnd)).map fun r =>
          let s := { r.2 with dag := r.2.dag.dedupOutEdges ret }
          (r.1 || !(s.dag.outEdges ret).isEmpty, { s with currPath := s.currPath.tail })

/-- The end of `pathsToImplLA`, when nothing was found. -/
def discard (ret : ℕ) (vtx : V) (s : TraceState V N) : TraceState V N :=
  let s := { s with cache := Function.update s.cache vtx (some none) }
  let failed : TraceState V N :=
    { s with
      dag := s.dag.modifyNode ret fun _ => []
      events := .cannotRemove ret :: s.events }
  if ret ∈ s.currPath then failed
  else
    match s.dag.pop ret with
    | some dag => { s with dag := dag, events := .removed ret dag s.cache :: s.events }
    | none => failed

/-- `pathsToImplLA`; the fuel also bounds the `do`-loop. -/
def pathsToImplLA : ℕ → V → TraceState V N → Option (Option ℕ × TraceState V N)
  | 0, _, _ => none
  | fuel + 1, vtx, s =>
    match s.cache vtx with
    | some r => some (r, s)
    | none =>
      let ret := s.dag.size
      (chain G F fuel vtx).bind fun c =>
        (pathsToImplLAInvoke G F (pathsToImplLA fuel) ret c.2
          { s with
            dag := s.dag.addNode c.1
            cache := Function.update s.cache vtx (some (some ret)) }).map fun r =>
          if r.1 then (some ret, r.2) else (none, discard ret vtx r.2)

/-- Link the vertex `ret` of a query to those of the given nodes. -/
def linkAll (fuel ret : ℕ) : List V → TraceState V N → Option (TraceState V N)
  | [], s => some s
  | nb :: rest, s =>
    (pathsToImplLA G F fuel nb s).bind fun r =>
      linkAll fuel ret rest
        (match r.1 with
        | some nbNode => { r.2 with dag := r.2.dag.addEdge ret nbNode }
        | none => r.2)

/-- `pathsToImpl`: first the neighbors, then the node. The returned vertex, never `Invalid`, is the
old size of the graph. -/
def pathsToImpl (fuel : ℕ) (queryInst : N) (vtx : V) (s : TraceState V N) :
    Option (ℕ × TraceState V N) :=
  let ret := s.dag.size
  (linkAll G F fuel ret (G.neighbors vtx ++ [vtx])
    { s with dag := s.dag.addNode [queryInst] }).map fun s =>
      (ret, { s with dag := s.dag.dedupOutEdges ret })

/-- The loop of `pathsDagToAll` over the nodes of the queried facts. -/
def pathsDagToAll (fuel : ℕ) (inst : N) : List V → TraceState V N → Option (TraceState V N)
  | [], s => some s
  | nod :: rest, s =>
    (pathsToImpl G F fuel inst nod s).bind fun r =>
      pathsDagToAll fuel inst rest { r.2 with dag := r.2.dag.addRoot r.1 }

/-! ### What a chain leads to -/

/-- The nodes that are traversed after a chain. -/
def ChainEnd.continuations : ChainEnd V → List V
  | .root _ => []
  | .stop prev vtx isEnd isError =>
    (if isEnd || isError then [] else [vtx]) ++ (G.neighbors vtx).filter fun nxt =>
      !F.isErrorneousTransition prev (some nxt) && !F.hasReachedEnd prev (some nxt)

/-- The flag `IsEnd` after the loop over the neighbors. -/
def ChainEnd.reachesEnd : ChainEnd V → Bool
  | .root isError => !isError
  | .stop prev vtx isEnd _ => isEnd || (G.neighbors vtx).any fun nxt =>
      !F.isErrorneousTransition prev (some nxt) && F.hasReachedEnd prev (some nxt)

/-- The loop ends, with these instructions. -/
def Chain (v : V) (labels : List N) (ending : ChainEnd V) : Prop :=
  ∃ fuel, chain G F fuel v = some (labels, ending)

/-- The traversal of several nodes. -/
def traverseAll (rec : V → TraceState V N → Option (Option ℕ × TraceState V N)) (ret : ℕ) :
    List V → TraceState V N → Option (TraceState V N)
  | [], s => some s
  | nxt :: rest, s => (traverseNext rec ret nxt s).bind (traverseAll rec ret rest)

variable {G F}

omit [DecidableEq V] in
/-- More fuel does not change a chain. -/
theorem chain_mono {fuel fuel' : ℕ} (hle : fuel ≤ fuel') {v : V} {c : List N × ChainEnd V}
    (h : chain G F fuel v = some c) : chain G F fuel' v = some c := by
  induction fuel generalizing fuel' v c with
  | zero => exact absurd h (by simp [chain])
  | succ fuel ih =>
    obtain ⟨fuel', rfl⟩ : ∃ m, fuel' = m + 1 := ⟨fuel' - 1, by omega⟩
    rw [chain] at h ⊢
    cases hp : G.predecessor v with
    | none => simpa only [hp] using h
    | some p =>
      simp only [hp] at h ⊢
      split_ifs at h ⊢ with hstop
      · exact h
      · obtain ⟨d, hd, rfl⟩ := Option.map_eq_some_iff.1 h
        rw [ih (by omega) hd, Option.map_some]

omit [DecidableEq V] in
theorem Chain.unique {v : V} {labels labels' : List N} {ending ending' : ChainEnd V}
    (h : Chain G F v labels ending) (h' : Chain G F v labels' ending') :
    labels = labels' ∧ ending = ending' := by
  obtain ⟨fuel, h⟩ := h
  obtain ⟨fuel', h'⟩ := h'
  have heq := (chain_mono (le_max_left fuel fuel') h).symm.trans
    (chain_mono (le_max_right fuel fuel') h')
  simpa using heq

omit [DecidableEq V] in
theorem traverseNeighbors_eq (rec : V → TraceState V N → Option (Option ℕ × TraceState V N)) (ret : ℕ)
    (prev : V) : ∀ (nbs : List V) (isEnd : Bool) (s : TraceState V N),
      traverseNeighbors F rec ret prev nbs isEnd s =
        (traverseAll rec ret (nbs.filter fun nxt =>
            !F.isErrorneousTransition prev (some nxt) && !F.hasReachedEnd prev (some nxt)) s).map
          fun s => (isEnd || nbs.any fun nxt =>
            !F.isErrorneousTransition prev (some nxt) && F.hasReachedEnd prev (some nxt), s)
  | [], isEnd, s => by simp [traverseNeighbors, traverseAll]
  | nxt :: rest, isEnd, s => by
    rw [traverseNeighbors]
    split_ifs with herr hend
    · rw [traverseNeighbors_eq rec ret prev rest, List.filter_cons_of_neg (by simp [herr])]
      simp [herr]
    · rw [traverseNeighbors_eq rec ret prev rest, List.filter_cons_of_neg (by simp [hend])]
      simp [herr, hend]
    · rw [List.filter_cons_of_pos (by simp [herr, hend]), traverseAll]
      cases traverseNext rec ret nxt s with
      | none => rfl
      | some s' =>
        rw [Option.bind_some, Option.bind_some, traverseNeighbors_eq rec ret prev rest]
        simp [hend]

/-- Changing the element after `base`. -/
theorem modify_mid {α : Type*} (f : α → α) (a : α) (news : List α) :
    ∀ base : List α, (base ++ a :: news).modify base.length f = base ++ f a :: news
  | [] => List.modify_zero_cons ..
  | b :: base => by
    rw [List.cons_append, List.length_cons, List.modify_succ_cons, modify_mid f a news base,
      List.cons_append]

/-- The vertex `dag.size` is entered for `vtx` and put on the path. -/
def enter (vtx : V) (labels : List N) (s : TraceState V N) : TraceState V N :=
  { s with
    dag := s.dag.addNode labels
    cache := Function.update s.cache vtx (some (some s.dag.size))
    currPath := s.dag.size :: s.currPath }

/-- The edges of `ret` are sorted, and it leaves the path. -/
def finish (ret : ℕ) (s : TraceState V N) : TraceState V N :=
  { s with
    dag := s.dag.dedupOutEdges ret
    currPath := s.currPath.tail }

omit [DecidableEq V] in
/-- The invocation with the last two nodes of a chain. -/
theorem pathsToImplLAInvoke_stop (rec : V → TraceState V N → Option (Option ℕ × TraceState V N))
    {ret : ℕ} {prev vtx : V} {isEnd isError : Bool} {s : TraceState V N} (hpath : ret ∉ s.currPath) :
    pathsToImplLAInvoke G F rec ret (.stop prev vtx isEnd isError) s =
      (traverseAll rec ret ((ChainEnd.stop prev vtx isEnd isError).continuations G F)
        { s with currPath := ret :: s.currPath }).map fun s₁ =>
          ((ChainEnd.stop prev vtx isEnd isError).reachesEnd G F ||
            !((finish ret s₁).dag.outEdges ret).isEmpty, finish ret s₁) := by
  rw [pathsToImplLAInvoke, if_neg hpath, ChainEnd.continuations]
  by_cases hflags : (isEnd || isError) = true
  · simp only [if_pos hflags, Option.bind_some, List.nil_append, traverseNeighbors_eq,
      Option.map_map]
    rfl
  · simp only [if_neg hflags, List.singleton_append, traverseAll]
    cases traverseNext rec ret vtx { s with currPath := ret :: s.currPath } with
    | none => rfl
    | some t =>
      simp only [Option.bind_some, traverseNeighbors_eq, Option.map_map]
      rfl

/-- The search from a node that is not cached. -/
theorem pathsToImplLA_new {fuel : ℕ} {vtx : V} {s s' : TraceState V N} {r : Option ℕ}
    (hcache : s.cache vtx = none) (hpath : s.dag.size ∉ s.currPath)
    (h : pathsToImplLA G F (fuel + 1) vtx s = some (r, s')) :
    ∃ labels ending s₁, Chain G F vtx labels ending ∧
      traverseAll (pathsToImplLA G F fuel) s.dag.size (ending.continuations G F)
        (enter vtx labels s) = some s₁ ∧
      (ending.reachesEnd G F = true ∨ (finish s.dag.size s₁).dag.outEdges s.dag.size ≠ [] →
        r = some s.dag.size ∧ s' = finish s.dag.size s₁) ∧
      (ending.reachesEnd G F = false → (finish s.dag.size s₁).dag.outEdges s.dag.size = [] →
        r = none ∧ s' = discard s.dag.size vtx (finish s.dag.size s₁)) := by
  rw [pathsToImplLA, hcache] at h
  obtain ⟨⟨labels, ending⟩, hchain, hrest⟩ := Option.bind_eq_some_iff.1 h
  clear h
  obtain ⟨⟨ok, s₂⟩, hinvoke, h⟩ := Option.map_eq_some_iff.1 hrest
  clear hrest
  have hloop : ∃ s₁, traverseAll (pathsToImplLA G F fuel) s.dag.size (ending.continuations G F)
      (enter vtx labels s) = some s₁ ∧ finish s.dag.size s₁ = s₂ ∧
        ok = (ending.reachesEnd G F || !(s₂.dag.outEdges s.dag.size).isEmpty) := by
    cases ending with
    | root isError =>
      have hedges : (s.dag.addNode labels).dedupOutEdges s.dag.size = s.dag.addNode labels := by
        simp only [AdjacencyList.dedupOutEdges, AdjacencyList.addNode, AdjacencyList.size, modify_mid]
        rfl
      obtain ⟨rfl, rfl⟩ := Prod.mk.inj (Option.some.inj hinvoke)
      refine ⟨enter vtx labels s, rfl, ?_, ?_⟩
      · simp only [finish, enter, hedges, List.tail_cons]
      · simp [ChainEnd.reachesEnd, AdjacencyList.outEdges, AdjacencyList.addNode,
          AdjacencyList.size]
    | stop prev vtx' isEnd isError =>
      obtain ⟨s₁, hs₁, heq⟩ := Option.map_eq_some_iff.1
        ((pathsToImplLAInvoke_stop _ (by exact hpath)).symm.trans hinvoke)
      obtain ⟨rfl, rfl⟩ := Prod.mk.inj heq
      exact ⟨s₁, hs₁, rfl, rfl⟩
  obtain ⟨s₁, hs₁, rfl, rfl⟩ := hloop
  refine ⟨labels, ending, s₁, ⟨fuel, hchain⟩, hs₁, ?_, ?_⟩
  · intro hok
    rw [if_pos] at h
    · simpa using h.symm
    · rcases hok with hend | hne
      · simp [hend]
      · simp [hne]
  · intro hend hnil
    rw [if_neg (by simp [hend, hnil])] at h
    simpa using h.symm

/-! ### More fuel -/

/-- The second call finds whatever the first one does. -/
def Extends (rec rec' : V → TraceState V N → Option (Option ℕ × TraceState V N)) : Prop :=
  ∀ v s r, rec v s = some r → rec' v s = some r

section Mono

variable {rec rec' : V → TraceState V N → Option (Option ℕ × TraceState V N)}

omit [DecidableEq V] in
theorem traverseNext_mono (h : Extends rec rec') {ret : ℕ} {v : V} {s s' : TraceState V N}
    (hs : traverseNext rec ret v s = some s') : traverseNext rec' ret v s = some s' := by
  obtain ⟨r, hr, rfl⟩ := Option.map_eq_some_iff.1 hs
  rw [traverseNext, h v s r hr, Option.map_some]

omit [DecidableEq V] in
theorem traverseAll_mono (h : Extends rec rec') {ret : ℕ} :
    ∀ {vs : List V} {s s' : TraceState V N}, traverseAll rec ret vs s = some s' →
      traverseAll rec' ret vs s = some s'
  | [], _, _, hs => hs
  | v :: vs, s, s', hs => by
    obtain ⟨s₁, hnext, hrest⟩ := Option.bind_eq_some_iff.1 hs
    rw [traverseAll, traverseNext_mono h hnext, Option.bind_some]
    exact traverseAll_mono h hrest

omit [DecidableEq V] in
theorem pathsToImplLAInvoke_mono (h : Extends rec rec') {ret : ℕ} {ending : ChainEnd V}
    {s : TraceState V N} {r : Bool × TraceState V N}
    (hr : pathsToImplLAInvoke G F rec ret ending s = some r) :
    pathsToImplLAInvoke G F rec' ret ending s = some r := by
  cases ending with
  | root isError => exact hr
  | stop prev vtx isEnd isError =>
    by_cases hpath : ret ∈ s.currPath
    · rw [pathsToImplLAInvoke, if_pos hpath] at hr ⊢
      exact hr
    · rw [pathsToImplLAInvoke_stop _ hpath] at hr ⊢
      obtain ⟨s₁, hs₁, rfl⟩ := Option.map_eq_some_iff.1 hr
      rw [traverseAll_mono h hs₁, Option.map_some]

theorem pathsToImplLA_mono {fuel fuel' : ℕ} (hle : fuel ≤ fuel') :
    Extends (pathsToImplLA G F fuel) (pathsToImplLA G F fuel') := by
  induction fuel generalizing fuel' with
  | zero => exact fun _ _ _ hr => absurd hr.symm (Option.some_ne_none _)
  | succ fuel ih =>
    obtain ⟨fuel', rfl⟩ : ∃ m, fuel' = m + 1 := ⟨fuel' - 1, by omega⟩
    intro v s r hr
    rw [pathsToImplLA] at hr ⊢
    cases hv : s.cache v with
    | some r' => simpa only [hv] using hr
    | none =>
      simp only [hv] at hr ⊢
      obtain ⟨c, hc, hrest⟩ := Option.bind_eq_some_iff.1 hr
      obtain ⟨t, ht, rfl⟩ := Option.map_eq_some_iff.1 hrest
      rw [chain_mono (by omega : fuel ≤ fuel') hc, Option.bind_some,
        pathsToImplLAInvoke_mono (ih (by omega)) ht, Option.map_some]

theorem linkAll_mono {fuel fuel' : ℕ} (hle : fuel ≤ fuel') {ret : ℕ} :
    ∀ {vs : List V} {s s' : TraceState V N}, linkAll G F fuel ret vs s = some s' →
      linkAll G F fuel' ret vs s = some s'
  | [], _, _, hs => hs
  | v :: vs, s, s', hs => by
    obtain ⟨r, hr, hrest⟩ := Option.bind_eq_some_iff.1 hs
    rw [linkAll, pathsToImplLA_mono hle v s r hr, Option.bind_some]
    exact linkAll_mono hle hrest

theorem pathsDagToAll_mono {fuel fuel' : ℕ} (hle : fuel ≤ fuel') {inst : N} :
    ∀ {nods : List V} {s s' : TraceState V N}, pathsDagToAll G F fuel inst nods s = some s' →
      pathsDagToAll G F fuel' inst nods s = some s'
  | [], _, _, hs => hs
  | nod :: nods, s, s', hs => by
    obtain ⟨r, hr, hrest⟩ := Option.bind_eq_some_iff.1 hs
    obtain ⟨t, ht, rfl⟩ := Option.map_eq_some_iff.1 hr
    rw [pathsDagToAll, pathsToImpl, linkAll_mono hle ht, Option.map_some, Option.bind_some]
    exact pathsDagToAll_mono hle hrest

/-- The result does not depend on the fuel. -/
theorem pathsDagToAll_unique {fuel fuel' : ℕ} {inst : N} {nods : List V}
    {s s₁ s₂ : TraceState V N} (h₁ : pathsDagToAll G F fuel inst nods s = some s₁)
    (h₂ : pathsDagToAll G F fuel' inst nods s = some s₂) : s₁ = s₂ :=
  Option.some.inj ((pathsDagToAll_mono (le_max_left fuel fuel') h₁).symm.trans
    (pathsDagToAll_mono (le_max_right fuel fuel') h₂))

end Mono

end Search

end Phasar.PathSensitivityManager
