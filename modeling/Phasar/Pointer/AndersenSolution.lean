import Phasar.Pointer.AndersenTermination
import Mathlib.Order.Bounds.Basic

/-!
# The solution of the Andersen solver

Whatever solves all constraints of a run contains every points-to set, and every edge of the solver
is sound for it. The points-to sets solve the constraints when nothing is pending and no edge was
lost. Together: they are the least solution.

* `Below`: the state is below a solution;
* `run_least`: a run ends with the least solution;
* `reach_invariant`, `merge_eq_assign`: the invariant along runs, and merging as two assign edges.
-/

namespace Phasar.Andersen

open SolverData

variable {n : ℕ} {s s' : SolverData n} {X : Fin n → Fin n → Prop}

/-! ### States below a solution -/

/-- The solution `X` has the edges of a constraint. -/
def SoundDeref (X : Fin n → Fin n → Prop) (kind : DerefKind) (v x : Fin n) : Prop :=
  ∀ o, X v o → ∀ xPts : List (Fin n), (∀ o' ∈ xPts, X x o') → ∀ e ∈ derefEdges kind [o] x xPts,
    ∀ z, X e.1 z → X e.2 z

/-- All that the state has is in the solution `X`. -/
structure Below (X : Fin n → Fin n → Prop) (s : SolverData n) : Prop where
  rep : ∀ v o, X (s.rep v) o ↔ X v o
  ptsSet : ∀ v, ∀ o ∈ (s.nodes v).ptsSet, X v o
  pendingPts : ∀ v, ∀ o ∈ (s.nodes v).pendingPts, X v o
  assignDsts : ∀ v, ∀ d ∈ (s.nodes v).assignDsts, ∀ o, X v o → X d o
  derefs : ∀ v kind, ∀ x ∈ (s.nodes v).derefs kind, SoundDeref X kind v x

namespace Below

theorem init (X : Fin n → Fin n → Prop) : Below X (SolverData.init n) where
  rep _ _ := Iff.rfl
  ptsSet _ _ h := by cases h
  pendingPts _ _ h := by cases h
  assignDsts _ _ h := by cases h
  derefs _ _ _ h := by cases h

theorem setNode (h : Below X s) {v : Fin n} {f : NodeInfo n → NodeInfo n}
    (hpts : ∀ o ∈ (f (s.nodes v)).ptsSet, X v o)
    (hpending : ∀ o ∈ (f (s.nodes v)).pendingPts, X v o)
    (hassign : ∀ d ∈ (f (s.nodes v)).assignDsts, ∀ o, X v o → X d o)
    (hderefs : ∀ kind, ∀ x ∈ (f (s.nodes v)).derefs kind, SoundDeref X kind v x) :
    Below X (s.setNode v f) where
  rep := h.rep
  ptsSet w o ho := by
    by_cases hw : w = v
    · rw [hw, setNode_self] at ho
      exact hw ▸ hpts o ho
    · rw [setNode_of_ne hw] at ho
      exact h.ptsSet w o ho
  pendingPts w o ho := by
    by_cases hw : w = v
    · rw [hw, setNode_self] at ho
      exact hw ▸ hpending o ho
    · rw [setNode_of_ne hw] at ho
      exact h.pendingPts w o ho
  assignDsts w d hd := by
    by_cases hw : w = v
    · rw [hw, setNode_self] at hd
      exact hw ▸ hassign d hd
    · rw [setNode_of_ne hw] at hd
      exact h.assignDsts w d hd
  derefs w kind x hx := by
    by_cases hw : w = v
    · rw [hw, setNode_self] at hx
      exact hw ▸ hderefs kind x hx
    · rw [setNode_of_ne hw] at hx
      exact h.derefs w kind x hx

theorem push (h : Below X s) (v : Fin n) : Below X (s.push v) := { h with }

theorem addPts (h : Below X s) {v : Fin n} {objs : Finset (Fin n)} (hobjs : ∀ o ∈ objs, X v o) :
    Below X (s.addPts v objs) :=
  h.setNode (fun o ho => (Finset.mem_union.1 ho).elim (h.ptsSet v o) (hobjs o))
    (fun o ho => (Finset.mem_union.1 ho).elim (h.pendingPts v o) (hobjs o)) (h.assignDsts v)
    (h.derefs v)

theorem addDeref (h : Below X s) {kind : DerefKind} {v x : Fin n} (hx : SoundDeref X kind v x) :
    Below X (s.addDeref kind v x) where
  rep w := by
    rw [(s.addDeref_frame kind v x).rep]
    exact h.rep w
  ptsSet w := by
    rw [(s.addDeref_node kind v x w).1]
    exact h.ptsSet w
  pendingPts w := by
    rw [(s.addDeref_node kind v x w).2.1]
    exact h.pendingPts w
  assignDsts w := by
    rw [(s.addDeref_node kind v x w).2.2]
    exact h.assignDsts w
  derefs w kind' y hy := by
    rcases mem_addDeref.1 hy with hy | ⟨rfl, rfl, rfl⟩
    · exact h.derefs w kind' y hy
    · exact hx

theorem addAssignEdge (h : Below X s) {a b : Fin n} (hab : ∀ o, X a o → X b o) :
    Below X (s.addAssignEdge a b) := by
  have hnew : Below X (s.setNode (s.rep a) fun info =>
      { info with assignDsts := info.assignDsts ++ [s.rep b] }) := by
    refine h.setNode (h.ptsSet _) (h.pendingPts _) (fun d hd o ho => ?_) (h.derefs _)
    rcases List.mem_append.1 hd with hd | hd
    · exact h.assignDsts _ d hd o ho
    · rw [List.mem_singleton.1 hd, h.rep]
      exact hab o ((h.rep a o).1 ho)
  rw [SolverData.addAssignEdge]
  split_ifs
  · exact h
  · exact h
  · exact hnew
  · exact (hnew.addPts (h.ptsSet (s.rep a))).push _

theorem addAssignEdges (h : Below X s) {edges : List (Fin n × Fin n)}
    (hedges : ∀ e ∈ edges, ∀ o, X e.1 o → X e.2 o) : Below X (s.addAssignEdges edges) := by
  induction edges generalizing s with
  | nil => exact h
  | cons e edges ih =>
    exact ih (h.addAssignEdge (hedges e List.mem_cons_self))
      fun e' he' => hedges e' (List.mem_cons_of_mem e he')

/-- The edges of a constraint for many pointees. -/
theorem derefEdges {kind : DerefKind} {v x : Fin n} {objs xPts : List (Fin n)}
    (hx : SoundDeref X kind v x) (hobjs : ∀ o ∈ objs, X v o) (hpts : ∀ o ∈ xPts, X x o) :
    ∀ e ∈ Andersen.derefEdges kind objs x xPts, ∀ z, X e.1 z → X e.2 z := by
  intro e he
  obtain ⟨o, ho, he⟩ := mem_derefEdges.1 he
  exact hx o (hobjs o ho) xPts hpts e he

theorem elems_ptsSet (h : Below X s) {v : Fin n} : ∀ o ∈ elems (s.nodes v).ptsSet, X v o :=
  fun o ho => h.ptsSet v o (mem_elems.1 ho)

theorem onNewPointee (h : Below X s) {v o : Fin n} (ho : X v o) : Below X (s.onNewPointee v o) := by
  have hlist : ∀ kind, ∀ e ∈ s.listEdges kind [o] ((s.nodes v).derefs kind), ∀ z,
      X e.1 z → X e.2 z := by
    intro kind e he
    obtain ⟨x, hx, he⟩ := List.mem_flatMap.1 he
    exact derefEdges (h.derefs v kind x hx) (by simpa using ho) h.elems_ptsSet e he
  refine h.addAssignEdges fun e he => ?_
  simp only [List.mem_append] at he
  rcases he with ((he | he) | he) | he
  all_goals exact hlist _ e he

theorem mergeWithDiff (h : Below X s) {v : Fin n} {other : Finset (Fin n)}
    (hother : ∀ o ∈ other, X v o) : Below X (s.mergeWithDiff v other).1 := by
  simp only [SolverData.mergeWithDiff]
  split_ifs
  · exact h
  · have hdiff : ∀ o ∈ other \ (s.nodes v).ptsSet, X v o := fun o ho =>
      hother o (Finset.mem_sdiff.1 ho).1
    exact List.foldlRecOn _ _ (h.addPts hdiff) fun s hs o ho =>
      hs.onNewPointee (hdiff o (mem_elems.1 ho))
  · refine List.foldlRecOn (motive := fun r : SolverData n × Bool => Below X r.1) _ _ h
      fun r hr o ho => ?_
    have ho' := hother o (mem_elems.1 ho)
    split_ifs
    · exact hr
    · exact (hr.addPts (by simpa using ho')).onNewPointee ho'

theorem transfer (h : Below X s) {kind : DerefKind} {v x : Fin n} {objs : List (Fin n)}
    (hx : SoundDeref X kind v x) (hobjs : ∀ o ∈ objs, X v o) :
    Below X (SolverData.transfer kind v objs s x) := by
  rw [SolverData.transfer]
  split_ifs
  · exact h
  · exact (h.addDeref hx).addAssignEdges (derefEdges hx hobjs h.elems_ptsSet)

theorem transferAll (h : Below X s) {v : Fin n} {info : NodeInfo n}
    (hinfo : ∀ kind, ∀ x ∈ info.derefs kind, SoundDeref X kind v x) :
    Below X (s.transferAll v info) := by
  have hmove : ∀ kind s', Below X s' → Below X ((info.derefs kind).foldl
      (SolverData.transfer kind v (elems (s.nodes v).ptsSet)) s') := fun kind s' hs' =>
    List.foldlRecOn _ _ hs' fun s'' hs'' x hx => hs''.transfer (hinfo kind x hx) h.elems_ptsSet
  exact hmove _ _ (hmove _ _ (hmove _ _ (hmove _ _ h)))

theorem wipe (h : Below X s) (v k : Fin n) : Below X (s.wipe v k) := by
  have hset : Below X (s.setNode k fun _ => {}) :=
    h.setNode (fun _ ho => by cases ho) (fun _ ho => by cases ho) (fun _ hd => by cases hd)
      fun _ _ hx => by cases hx
  simp only [SolverData.wipe]
  split_ifs
  · exact hset
  · exact hset.push v

theorem mergeReps (h : Below X s) {a b : Fin n} (ha : s.rep a = a) (hb : s.rep b = b)
    (hab : a ≠ b) (hX : ∀ o, X a o ↔ X b o) : Below X (s.mergeReps a b) := by
  obtain ⟨hpair, hfind⟩ := joined_spec ha hb hab
  obtain ⟨r, k, hjoined⟩ : ∃ r k, s.joined a b = (r, k) := ⟨_, _, rfl⟩
  have hrk : ∀ o, X k o ↔ X r o := by
    rw [hjoined, Prod.mk.injEq, Prod.mk.injEq] at hpair
    rcases hpair with ⟨rfl, rfl⟩ | ⟨rfl, rfl⟩
    · exact fun o => (hX o).symm
    · exact hX
  rw [hjoined] at hfind
  simp only [SolverData.mergeReps, hjoined]
  have hjoin : Below X { s with sccUf := s.sccUf.joinMin a b } := by
    refine { h with rep := fun v o => ?_ }
    show X ((s.sccUf.joinMin a b).find v) o ↔ X v o
    rw [hfind]
    split_ifs with hv
    · rw [← h.rep v o, hv, hrk]
    · exact h.rep v o
  have h₁ : Below X ({ s with sccUf := s.sccUf.joinMin a b }.setNode k fun info =>
      { info with assignDsts := [], derefs := fun _ => [] }) :=
    hjoin.setNode (h.ptsSet k) (h.pendingPts k) (fun _ hd => by cases hd) fun _ _ hx => by cases hx
  refine wipe (transferAll (mergeWithDiff (h₁.addAssignEdges ?_) fun o ho => ?_) ?_) r k
  · intro e he o ho
    obtain ⟨d, hd, rfl⟩ := List.mem_map.1 he
    rw [h₁.rep]
    exact h.assignDsts k d (List.mem_filter.1 hd).1 o ((hrk o).2 ho)
  · exact (hrk o).1 (h.ptsSet k o ho)
  · intro kind x hx o ho
    exact h.derefs k kind x hx o ((hrk o).2 ho)

theorem merge (h : Below X s) {a b : Fin n} (hX : ∀ o, X a o ↔ X b o) : Below X (s.merge a b) := by
  rw [SolverData.merge]
  split_ifs with hab
  · exact h
  · refine h.mergeReps (s.rep_rep a) (s.rep_rep b) hab fun o => ?_
    rw [h.rep, h.rep, hX]

/-- A destination: what is sent there is in its set, and nodes on a cycle have the same set. -/
theorem visitDst {objs : Finset (Fin n)} {u d : Fin n} (h : Below X s) (hobjs : ∀ o ∈ objs, X u o)
    (hd : ∀ o, X u o → X d o) : Below X (SolverData.visitDst objs (u, s) d).2 ∧
      ∀ o, X (SolverData.visitDst objs (u, s) d).1 o ↔ X u o := by
  have hrep : ∀ o, X u o → X (s.rep d) o := fun o ho => (h.rep d o).2 (hd o ho)
  rcases visitDst_cases objs u s d with ⟨heq, -⟩ | ⟨-, -, heq⟩ | ⟨-, -, hcycle, heq⟩
  · rw [heq]
    exact ⟨h, fun _ => Iff.rfl⟩
  · rw [heq]
    exact ⟨(h.mergeWithDiff fun o ho => hrep o (hobjs o ho)).push _, fun _ => Iff.rfl⟩
  · have hmerge := h.merge (a := u) (b := s.rep d) fun o =>
      ⟨hrep o, h.assignDsts (s.rep d) u hcycle o⟩
    rw [heq]
    exact ⟨hmerge, hmerge.rep u⟩

theorem visits {objs : Finset (Fin n)} {dsts : List (Fin n)} {u : Fin n} (h : Below X s)
    (hobjs : ∀ o ∈ objs, X u o) (hdsts : ∀ d ∈ dsts, ∀ o, X u o → X d o) :
    Below X (dsts.foldl (SolverData.visitDst objs) (u, s)).2 := by
  induction dsts generalizing u s with
  | nil => exact h
  | cons d dsts ih =>
    obtain ⟨hbelow, hiff⟩ := h.visitDst hobjs (hdsts d List.mem_cons_self)
    refine ih hbelow (fun o ho => (hiff o).2 (hobjs o ho)) fun d' hd' o ho => ?_
    exact hdsts d' (List.mem_cons_of_mem d hd') o ((hiff o).1 ho)

theorem propagateRound (h : Below X s) (w : Fin n) : Below X (s.propagateRound w) := by
  simp only [SolverData.propagateRound]
  split_ifs
  · exact h
  · have htaken : Below X (s.setNode (s.rep w) fun info => { info with pendingPts := ∅ }) :=
      h.setNode (h.ptsSet _) (fun _ ho => by cases ho) (h.assignDsts _) (h.derefs _)
    refine htaken.visits (h.pendingPts (s.rep w)) fun d hd o ho => ?_
    obtain ⟨x, hx, rfl⟩ := List.mem_map.1 hd
    exact (h.rep x o).2 (h.assignDsts (s.rep w) x hx o ho)

theorem propagate {fuel : ℕ} (h : Below X s) (hs' : s.propagate fuel = some s') : Below X s' := by
  induction fuel generalizing s with
  | zero => cases hs'
  | succ fuel ih =>
    rw [SolverData.propagate] at hs'
    split at hs'
    · cases hs'
      exact h
    · next w rest _ =>
      have hrest : Below X { s with propWorklist := rest } := { h with }
      exact ih (hrest.propagateRound w) hs'

theorem insert (h : Below X s) {c : Constraint n} (hc : c.Holds X) : Below X (c.insert s) := by
  -- a constraint between nodes is one between their representatives
  have hload : ∀ {ptr dst}, (Constraint.addLoad ptr dst).Holds X →
      SoundDeref X .loadDsts (s.rep ptr) (s.rep dst) := by
    intro ptr dst hc o ho xPts _ e he z hz
    obtain rfl : e = (o, s.rep dst) := by simpa [Andersen.derefEdges] using he
    exact (h.rep dst z).2 (hc o ((h.rep ptr o).1 ho) z hz)
  have hstore : ∀ {ptr src}, (Constraint.addStore ptr src).Holds X →
      SoundDeref X .storeSrcs (s.rep ptr) (s.rep src) := by
    intro ptr src hc o ho xPts _ e he z hz
    obtain rfl : e = (s.rep src, o) := by simpa [Andersen.derefEdges] using he
    exact hc o ((h.rep ptr o).1 ho) z ((h.rep src z).1 hz)
  have hsrc : ∀ {src dst}, (Constraint.addMemCopy src dst).Holds X →
      SoundDeref X .memCopyAsSrc (s.rep src) (s.rep dst) := by
    intro src dst hc o ho xPts hpts e he z hz
    obtain ⟨o₂, ho₂, rfl⟩ : ∃ o₂ ∈ xPts, (o, o₂) = e := by simpa [Andersen.derefEdges] using he
    exact hc o o₂ ((h.rep src o).1 ho) ((h.rep dst o₂).1 (hpts o₂ ho₂)) z hz
  have hdst : ∀ {src dst}, (Constraint.addMemCopy src dst).Holds X →
      SoundDeref X .memCopyAsDst (s.rep dst) (s.rep src) := by
    rintro src dst hc o ho xPts hpts ⟨o₁, o₂⟩ he z hz
    obtain ⟨ho₁, rfl⟩ : o₁ ∈ xPts ∧ o₂ = o := by simpa [Andersen.derefEdges] using he
    exact hc o₁ o₂ ((h.rep src o₁).1 (hpts o₁ ho₁)) ((h.rep dst o₂).1 ho) z hz
  cases c with
  | addPointee ptr obj =>
    simp only [Constraint.insert, SolverData.addPointee]
    split_ifs
    · exact h
    · refine (h.addPts fun o ho => ?_).push _
      rw [Finset.mem_singleton.1 ho, h.rep]
      exact hc
  | addAssignEdge src dst => exact h.addAssignEdge hc
  | addLoad ptr dst =>
    exact (h.addAssignEdges (derefEdges (hload hc) h.elems_ptsSet (by simp))).addDeref (hload hc)
  | addStore ptr src =>
    exact (h.addAssignEdges (derefEdges (hstore hc) h.elems_ptsSet (by simp))).addDeref (hstore hc)
  | addMemCopy srcPtr dstPtr =>
    exact ((h.addAssignEdges (derefEdges (hsrc hc) h.elems_ptsSet h.elems_ptsSet)).addDeref
      (hsrc hc)).addDeref (hdst hc)
  | merge a b => exact h.merge hc

end Below

/-! ### Reachable states -/

/-- The states that insertions and rounds of `propagate` reach, with the constraints inserted so far.
If `careful`, no step loses an edge. -/
inductive Reach (careful : Prop) : List (Constraint n) → SolverData n → Prop
  | init : Reach careful [] (SolverData.init n)
  | insert {cs s} (c : Constraint n) : Reach careful cs s → (careful → c.InsertOk s) →
      Reach careful (cs ++ [c]) (c.insert s)
  | round {cs s w rest} : Reach careful cs s → s.propWorklist = w :: rest →
      (careful → RoundOk w { s with propWorklist := rest }) →
      Reach careful cs (propagateRound w { s with propWorklist := rest })

/-- The edges that a constraint implies for what the operands point to are there. -/
def Constraint.Present (s : SolverData n) : Constraint n → Prop
  | addPointee ptr obj => obj ∈ (s.nodes (s.rep ptr)).ptsSet
  | addAssignEdge src dst => Edge s src dst
  | addLoad ptr dst => ∀ o ∈ (s.nodes (s.rep ptr)).ptsSet, Edge s o dst
  | addStore ptr src => ∀ o ∈ (s.nodes (s.rep ptr)).ptsSet, Edge s src o
  | addMemCopy srcPtr dstPtr => ∀ o₁ ∈ (s.nodes (s.rep srcPtr)).ptsSet,
      ∀ o₂ ∈ (s.nodes (s.rep dstPtr)).ptsSet, Edge s o₁ o₂
  | merge a b => s.rep a = s.rep b

/-- The points-to relation, read through the representatives. -/
def SolverData.solution (s : SolverData n) (v o : Fin n) : Prop := o ∈ (s.nodes (s.rep v)).ptsSet

instance (a b : Fin n) (s : SolverData n) : Decidable (Edge s a b) :=
  inferInstanceAs (Decidable (s.rep a = s.rep b ∨
    ∃ d ∈ (s.nodes (s.rep a)).assignDsts, s.rep d = s.rep b))

instance (s : SolverData n) (v o : Fin n) : Decidable (s.solution v o) :=
  inferInstanceAs (Decidable (o ∈ (s.nodes (s.rep v)).ptsSet))

instance (s : SolverData n) : ∀ c : Constraint n, Decidable (c.Present s)
  | .addPointee ptr obj => inferInstanceAs (Decidable (obj ∈ (s.nodes (s.rep ptr)).ptsSet))
  | .addAssignEdge src dst => inferInstanceAs (Decidable (Edge s src dst))
  | .addLoad ptr dst =>
    inferInstanceAs (Decidable (∀ o ∈ (s.nodes (s.rep ptr)).ptsSet, Edge s o dst))
  | .addStore ptr src =>
    inferInstanceAs (Decidable (∀ o ∈ (s.nodes (s.rep ptr)).ptsSet, Edge s src o))
  | .addMemCopy srcPtr dstPtr =>
    inferInstanceAs (Decidable (∀ o₁ ∈ (s.nodes (s.rep srcPtr)).ptsSet,
      ∀ o₂ ∈ (s.nodes (s.rep dstPtr)).ptsSet, Edge s o₁ o₂))
  | .merge a b => inferInstanceAs (Decidable (s.rep a = s.rep b))

namespace Reach

variable {careful : Prop} {cs : List (Constraint n)}

theorem scheduled_links (h : Reach careful cs s) : Scheduled s ∧ Links s := by
  induction h with
  | init =>
    refine ⟨⟨fun _ _ o ho => ?_, fun _ _ hne => ?_⟩, fun _ _ _ _ _ x hx => ?_⟩
    · cases ho
    · cases hne.ne_empty rfl
    · cases hx
  | @insert _ s c _ _ ih =>
    have hkept := (c.insert_spec s).1
    exact ⟨hkept.scheduled ih.1, hkept.links ih.2⟩
  | round _ hlist _ ih =>
    have hkept := propagateRound_kept ih.1 hlist
    exact ⟨hkept.scheduled ih.1, hkept.links ih.2⟩

theorem derefs (h : Reach careful cs s) (hcareful : careful) : Derefs s := by
  induction h with
  | init => exact fun _ _ _ x hx => by cases hx
  | insert c h hok ih =>
    exact (c.insert_spec _).1.derefs (hok hcareful) ih h.scheduled_links.2
  | round h hlist hok ih =>
    obtain ⟨hsched, hlinks⟩ := h.scheduled_links
    exact (propagateRound_kept hsched hlist).derefs (hok hcareful) ih hlinks

theorem recorded (h : Reach careful cs s) : ∀ c ∈ cs, c.Recorded s := by
  induction h with
  | init => simp
  | @insert _ s c _ _ ih =>
    obtain ⟨hkept, hrecorded⟩ := c.insert_spec s
    intro c' hc'
    rcases List.mem_append.1 hc' with hc' | hc'
    · exact hkept.ext.recorded (ih c' hc')
    · rw [List.mem_singleton.1 hc']
      exact hrecorded
  | round h hlist _ ih =>
    exact fun c hc => (propagateRound_kept h.scheduled_links.1 hlist).ext.recorded (ih c hc)

theorem below_solution (h : Reach careful cs s) (hX : ∀ c ∈ cs, c.Holds X) : Below X s := by
  induction h with
  | init => exact Below.init X
  | insert c _ _ ih =>
    refine (ih fun c' hc' => hX c' (List.mem_append_left _ hc')).insert (hX c ?_)
    exact List.mem_append_right _ (List.mem_singleton_self c)
  | @round _ s w rest _ _ _ ih =>
    have hs := ih hX
    have hrest : Below X { s with propWorklist := rest } := { hs with }
    exact hrest.propagateRound w

/-- All edges of all constraints are there if no step lost one. -/
theorem present (h : Reach careful cs s) (hcareful : careful) : ∀ c ∈ cs, c.Present s := by
  intro c hc
  have hderefs := h.derefs hcareful
  have hrecorded := h.recorded c hc
  cases c with
  | addPointee ptr obj => exact hrecorded
  | addAssignEdge src dst => exact hrecorded
  | addLoad ptr dst =>
    obtain ⟨y, hy, hyd⟩ := hrecorded
    intro o ho
    exact (hderefs _ (s.rep_rep ptr) _ y hy trivial o ho (o, y) (by simp [derefEdges])).congr rfl hyd
  | addStore ptr src =>
    obtain ⟨y, hy, hyd⟩ := hrecorded
    intro o ho
    exact (hderefs _ (s.rep_rep ptr) _ y hy trivial o ho (y, o) (by simp [derefEdges])).congr hyd rfl
  | addMemCopy srcPtr dstPtr =>
    obtain ⟨y, hy, hyd⟩ := hrecorded
    intro o₁ ho₁ o₂ ho₂
    rw [← hyd] at ho₂
    exact hderefs _ (s.rep_rep srcPtr) _ y hy trivial o₁ ho₁ (o₁, o₂) (by simp [derefEdges, ho₂])
  | merge a b => exact hrecorded

end Reach

/-- With an empty work list, an edge is an inclusion. -/
theorem SolverData.Scheduled.solution_subset (h : Scheduled s) (hlist : s.propWorklist = [])
    {a b : Fin n} (hab : Edge s a b) {o : Fin n} (ho : s.solution a o) : s.solution b o := by
  rcases hab with hab | ⟨d, hd, hdb⟩
  · rwa [solution, ← hab]
  · have hpending : o ∉ (s.nodes (s.rep a)).pendingPts := by
      intro hmem
      obtain ⟨w, hw, -⟩ := (h.queued _ (s.rep_rep a) ⟨o, hmem⟩).resolve_left id
      rw [hlist] at hw
      cases hw
    rw [solution, ← hdb]
    exact (h.sent _ (s.rep_rep a) o ho hpending d hd).resolve_right id

/-- A finished state with all edges is a solution. -/
theorem Constraint.Present.holds (h : Scheduled s) (hlist : s.propWorklist = []) {c : Constraint n}
    (hc : c.Present s) : c.Holds s.solution := by
  cases c with
  | addPointee ptr obj => exact hc
  | addAssignEdge src dst => exact fun x hx => h.solution_subset hlist hc hx
  | addLoad ptr dst => exact fun o ho x hx => h.solution_subset hlist (hc o ho) hx
  | addStore ptr src => exact fun o ho x hx => h.solution_subset hlist (hc o ho) hx
  | addMemCopy srcPtr dstPtr =>
    exact fun o₁ o₂ ho₁ ho₂ x hx => h.solution_subset hlist (hc o₁ ho₁ o₂ ho₂) hx
  | merge a b =>
    intro x
    rw [solution, solution, show s.rep a = s.rep b from hc]

/-- A finished state that was reached without losing an edge is the least solution. -/
theorem Reach.isLeast {cs : List (Constraint n)} (h : Reach True cs s) (hlist : s.propWorklist = []) :
    IsLeast {X : Fin n → Fin n → Prop | ∀ c ∈ cs, c.Holds X} s.solution := by
  refine ⟨fun c hc => (h.present trivial c hc).holds h.scheduled_links.1 hlist, fun X hX v o ho => ?_⟩
  have hbelow := h.below_solution hX
  exact (hbelow.rep v o).1 (hbelow.ptsSet _ o ho)

/-! ### Runs -/

theorem reach_propagate {careful : Prop} {cs : List (Constraint n)} {fuel : ℕ}
    (h : Reach careful cs s) (hok : careful → s.PropagateOk fuel)
    (hs' : s.propagate fuel = some s') : Reach careful cs s' ∧ s'.propWorklist = [] := by
  induction fuel generalizing s with
  | zero => cases hs'
  | succ fuel ih =>
    rw [propagate] at hs'
    rw [PropagateOk] at hok
    split at hs'
    · next hlist =>
      cases hs'
      exact ⟨h, hlist⟩
    · next w rest hlist =>
      simp only [hlist] at hok
      exact ih (h.round hlist fun hc => (hok hc).1) (fun hc => (hok hc).2) hs'

theorem reach_run {careful : Prop} {fuel : ℕ} {ops : List (Op n)} {cs : List (Constraint n)}
    (h : Reach careful cs s) (hok : careful → RunOk fuel ops s) (hs' : run fuel ops s = some s') :
    Reach careful (cs ++ constraints ops) s' ∧ s'.propWorklist = [] := by
  induction ops generalizing s cs with
  | nil =>
    rw [constraints, List.filterMap_nil, List.append_nil]
    exact reach_propagate h hok hs'
  | cons op ops ih =>
    cases op with
    | insert c =>
      have hcons : cs ++ constraints (.insert c :: ops) = (cs ++ [c]) ++ constraints ops := by
        simp [constraints]
      rw [hcons]
      exact ih (h.insert c fun hc => (hok hc).1) (fun hc => (hok hc).2) hs'
    | propagate =>
      obtain ⟨s₁, hs₁, hs'⟩ := Option.bind_eq_some_iff.1 hs'
      exact ih (reach_propagate h (fun hc => (hok hc).1) hs₁).1 (fun hc => (hok hc).2 s₁ hs₁) hs'

theorem run_terminates (ops : List (Op n)) (s : SolverData n) :
    ∃ bound s', ∀ fuel, bound ≤ fuel → run fuel ops s = some s' := by
  induction ops generalizing s with
  | nil => exact s.propagate_terminates
  | cons op ops ih =>
    cases op with
    | insert c => exact ih (c.insert s)
    | propagate =>
      obtain ⟨bound₁, s₁, h₁⟩ := s.propagate_terminates
      obtain ⟨bound₂, s₂, h₂⟩ := ih s₁
      refine ⟨max bound₁ bound₂, s₂, fun fuel hfuel => ?_⟩
      rw [run, h₁ fuel (le_of_max_le_left hfuel), Option.bind_some]
      exact h₂ fuel (le_of_max_le_right hfuel)

theorem isLeast_of_run {ops : List (Op n)} {fuel : ℕ} {s : SolverData n}
    (h : run fuel ops (SolverData.init n) = some s) (hok : RunOk fuel ops (SolverData.init n)) :
    IsLeast {X : Fin n → Fin n → Prop | ∀ c ∈ constraints ops, c.Holds X} s.solution := by
  obtain ⟨hreach, hlist⟩ := reach_run (.init : Reach True _ _) (fun _ => hok) h
  exact hreach.isLeast hlist

/-- Insertions in any order, with `propagate` in between and at the end, terminate, and compute the
least solution if no step loses an edge. -/
theorem run_least (ops : List (Op n)) : ∃ bound, ∀ fuel, bound ≤ fuel →
    ∃ s, run fuel ops (SolverData.init n) = some s ∧ (RunOk fuel ops (SolverData.init n) →
      IsLeast {X : Fin n → Fin n → Prop | ∀ c ∈ constraints ops, c.Holds X} s.solution) := by
  obtain ⟨bound, s, h⟩ := run_terminates ops (SolverData.init n)
  exact ⟨bound, fun fuel hfuel => ⟨s, h fuel hfuel, isLeast_of_run (h fuel hfuel)⟩⟩

-- loads, a memcpy and a cycle that is collapsed while it propagates
example : RunOk 8 [.insert (.addPointee (0 : Fin 4) 2), .insert (.addPointee 2 3),
    .insert (.addLoad 0 1), .propagate, .insert (.addMemCopy 0 1), .insert (.addAssignEdge 2 1),
    .insert (.addAssignEdge 1 2)] (SolverData.init 4) := by decide +kernel

theorem propagate_mono {fuel fuel' : ℕ} (hle : fuel ≤ fuel') (h : s.propagate fuel = some s') :
    s.propagate fuel' = some s' := by
  induction fuel generalizing s fuel' with
  | zero => cases h
  | succ fuel ih =>
    obtain ⟨fuel', rfl⟩ := Nat.exists_eq_add_of_le' (Nat.le_of_add_left_le hle)
    rw [propagate] at h ⊢
    split at h
    · exact h
    · exact ih (Nat.le_of_succ_le_succ hle) h

theorem run_mono {fuel fuel' : ℕ} (hle : fuel ≤ fuel') {ops : List (Op n)}
    (h : run fuel ops s = some s') : run fuel' ops s = some s' := by
  induction ops generalizing s with
  | nil => exact propagate_mono hle h
  | cons op ops ih =>
    cases op with
    | insert c => exact ih h
    | propagate =>
      obtain ⟨s₁, hs₁, h⟩ := Option.bind_eq_some_iff.1 h
      exact Option.bind_eq_some_iff.2 ⟨s₁, propagate_mono hle hs₁, ih h⟩

theorem exists_of_any {α : Type*} {p : α → Bool} : ∀ {o : Option α}, o.any p = true →
    ∃ x, o = some x ∧ p x = true
  | none, h => by cases h
  | some x, h => ⟨x, rfl, h⟩

/-- A load that is inserted before the pointee of its pointer is never applied to it. -/
theorem run_not_least_latePointee : ¬∃ bound, ∀ fuel, bound ≤ fuel → ∃ s,
    run fuel [.insert (.addLoad (0 : Fin 4) 1), .insert (.addPointee 0 2),
      .insert (.addPointee 2 3)] (SolverData.init 4) = some s ∧
    IsLeast {X : Fin 4 → Fin 4 → Prop | ∀ c ∈ constraints [.insert (.addLoad (0 : Fin 4) 1),
      .insert (.addPointee 0 2), .insert (.addPointee 2 3)], c.Holds X} s.solution := by
  rintro ⟨bound, h⟩
  have hrun : ((run 8 [.insert (.addLoad (0 : Fin 4) 1), .insert (.addPointee 0 2),
      .insert (.addPointee 2 3)] (SolverData.init 4)).any fun s =>
      decide (s.solution 0 2 ∧ s.solution 2 3 ∧ ¬s.solution 1 3)) = true := by decide +kernel
  obtain ⟨s, hs, hpts⟩ := exists_of_any hrun
  obtain ⟨s', hs', hleast⟩ := h (max bound 8) (le_max_left _ _)
  obtain rfl := Option.some.inj ((run_mono (le_max_right bound 8) hs).symm.trans hs')
  obtain ⟨hp, ho, hload⟩ := of_decide_eq_true hpts
  have hholds : (Constraint.addLoad (0 : Fin 4) 1).Holds s.solution :=
    hleast.1 _ List.mem_cons_self
  exact hload (hholds 2 hp 3 ho)

/-! ### Merging -/

/-- The invariant of pending pointees holds in every reachable state, all edges of all constraints are
there if no step loses an edge, and merging is the same as two assign edges then. -/
theorem merge_preserves (n : ℕ) :
    (∀ cs (s : SolverData n), Reach False cs s → Scheduled s) ∧
      (∀ cs (s : SolverData n), Reach True cs s → ∀ c ∈ cs, c.Present s) ∧
      ∀ (ops₁ ops₂ : List (Op n)) (a b : Fin n), ∃ bound, ∀ fuel, bound ≤ fuel → ∃ s s',
        run fuel (ops₁ ++ .insert (.merge a b) :: ops₂) (SolverData.init n) = some s ∧
        run fuel (ops₁ ++ .insert (.addAssignEdge a b) :: .insert (.addAssignEdge b a) :: ops₂)
          (SolverData.init n) = some s' ∧
        (RunOk fuel (ops₁ ++ .insert (.merge a b) :: ops₂) (SolverData.init n) →
          RunOk fuel (ops₁ ++ .insert (.addAssignEdge a b) :: .insert (.addAssignEdge b a) :: ops₂)
            (SolverData.init n) → s.solution = s'.solution) := by
  refine ⟨fun cs s h => h.scheduled_links.1, fun cs s h => h.present trivial,
    fun ops₁ ops₂ a b => ?_⟩
  obtain ⟨bound, s, hs⟩ := run_terminates (ops₁ ++ .insert (.merge a b) :: ops₂) (SolverData.init n)
  obtain ⟨bound', s', hs'⟩ := run_terminates
    (ops₁ ++ .insert (.addAssignEdge a b) :: .insert (.addAssignEdge b a) :: ops₂) (SolverData.init n)
  refine ⟨max bound bound', fun fuel hfuel => ?_⟩
  have hrun := hs fuel (le_of_max_le_left hfuel)
  have hrun' := hs' fuel (le_of_max_le_right hfuel)
  refine ⟨s, s', hrun, hrun', fun hok hok' => IsLeast.unique (isLeast_of_run hrun hok) ?_⟩
  have hiff : ∀ X : Fin n → Fin n → Prop,
      (∀ c ∈ constraints (ops₁ ++ .insert (.merge a b) :: ops₂), c.Holds X) ↔
        ∀ c ∈ constraints (ops₁ ++ .insert (.addAssignEdge a b) :: .insert (.addAssignEdge b a) ::
          ops₂), c.Holds X := by
    intro X
    simp only [constraints, List.filterMap_append, List.filterMap_cons, List.forall_mem_append,
      List.forall_mem_cons, Constraint.Holds]
    refine and_congr_right fun _ => ⟨fun ⟨hab, hrest⟩ => ?_, fun ⟨hab, hba, hrest⟩ => ?_⟩
    · exact ⟨fun x => (hab x).1, fun x => (hab x).2, hrest⟩
    · exact ⟨fun x => ⟨hab x, hba x⟩, hrest⟩
  simp only [hiff]
  exact isLeast_of_run hrun' hok'

/-- A node that was merged into a smaller one stays an operand of the memcpy that named it, and a
pointee that reaches the other operand later finds it empty. -/
theorem not_present_staleOperand :
    ¬∀ cs (s : SolverData 6), Reach False cs s → ∀ c ∈ cs, c.Present s := by
  intro h
  have hrun : ((run 8 [.insert (.addMemCopy (0 : Fin 6) 2), .insert (.addPointee 1 4),
      .insert (.merge 2 1), .insert (.addPointee 5 3), .insert (.addAssignEdge 5 0)]
      (SolverData.init 6)).any fun s => decide (¬(Constraint.addMemCopy 0 2).Present s)) = true := by
    decide +kernel
  obtain ⟨s, hs, hmissing⟩ := exists_of_any hrun
  have hreach := (reach_run (.init : Reach False _ _) (fun h => h.elim) hs).1
  exact of_decide_eq_true hmissing (h _ s hreach _ List.mem_cons_self)

end Phasar.Andersen
