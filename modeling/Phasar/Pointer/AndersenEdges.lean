import Phasar.Pointer.AndersenSolver

/-!
# Edges and pending pointees of the Andersen solver

What adding assign edges and pointees keeps: nothing that was found is lost, and every pointee that
was not sent along all edges of its node is pending, in a node that is queued.

* `Edge`: an assign edge between two nodes, up to representatives;
* `Frame`, `Sched`: what a step leaves alone, and the invariant of pending pointees;
* `addAssignEdges_spec`, `mergeWithDiff_spec`.
-/

namespace Phasar.Andersen

open SolverData

variable {n : ℕ}

namespace SolverData

variable {s s' s'' : SolverData n}

@[simp] theorem rep_rep (s : SolverData n) (v : Fin n) : s.rep (s.rep v) = s.rep v :=
  s.sccUf.find_find v

@[simp] theorem setNode_self (v : Fin n) (f : NodeInfo n → NodeInfo n) (s : SolverData n) :
    (s.setNode v f).nodes v = f (s.nodes v) := Function.update_self ..

theorem setNode_of_ne {v w : Fin n} (h : w ≠ v) (f : NodeInfo n → NodeInfo n) (s : SolverData n) :
    (s.setNode v f).nodes w = s.nodes w := Function.update_of_ne h _ _

@[simp] theorem setNode_rep (v : Fin n) (f : NodeInfo n → NodeInfo n) (s : SolverData n) (w : Fin n) :
    (s.setNode v f).rep w = s.rep w := rfl

@[simp] theorem push_rep (v : Fin n) (s : SolverData n) (w : Fin n) :
    (s.push v).rep w = s.rep w := rfl

@[simp] theorem push_nodes (v : Fin n) (s : SolverData n) : (s.push v).nodes = s.nodes := rfl

@[simp] theorem addPts_rep (v : Fin n) (objs : Finset (Fin n)) (s : SolverData n) (w : Fin n) :
    (s.addPts v objs).rep w = s.rep w := rfl

theorem addPts_ptsSet (v : Fin n) (objs : Finset (Fin n)) (s : SolverData n) (w : Fin n) :
    ((s.addPts v objs).nodes w).ptsSet =
      if w = v then (s.nodes w).ptsSet ∪ objs else (s.nodes w).ptsSet := by
  split_ifs with h
  · subst h
    simp [addPts]
  · rw [addPts, setNode_of_ne h]

theorem addPts_pendingPts (v : Fin n) (objs : Finset (Fin n)) (s : SolverData n) (w : Fin n) :
    ((s.addPts v objs).nodes w).pendingPts =
      if w = v then (s.nodes w).pendingPts ∪ objs else (s.nodes w).pendingPts := by
  split_ifs with h
  · subst h
    simp [addPts]
  · rw [addPts, setNode_of_ne h]

@[simp] theorem addPts_assignDsts (v : Fin n) (objs : Finset (Fin n)) (s : SolverData n)
    (w : Fin n) : ((s.addPts v objs).nodes w).assignDsts = (s.nodes w).assignDsts := by
  by_cases h : w = v
  · subst h
    simp [addPts]
  · rw [addPts, setNode_of_ne h]

@[simp] theorem addPts_derefs (v : Fin n) (objs : Finset (Fin n)) (s : SolverData n) (w : Fin n) :
    ((s.addPts v objs).nodes w).derefs = (s.nodes w).derefs := by
  by_cases h : w = v
  · subst h
    simp [addPts]
  · rw [addPts, setNode_of_ne h]

/-! ### Edges -/

/-- There is an assign edge from `a` to `b`, up to representatives. -/
def Edge (s : SolverData n) (a b : Fin n) : Prop :=
  s.rep a = s.rep b ∨ ∃ d ∈ (s.nodes (s.rep a)).assignDsts, s.rep d = s.rep b

/-- A step that adds edges, and no pointees. -/
structure EdgeFrame (s s' : SolverData n) : Prop where
  sccUf : s'.sccUf = s.sccUf
  ptsSet : ∀ v, (s'.nodes v).ptsSet = (s.nodes v).ptsSet
  assignDsts : ∀ v, ∀ d ∈ (s.nodes v).assignDsts, d ∈ (s'.nodes v).assignDsts

namespace EdgeFrame

theorem refl (s : SolverData n) : EdgeFrame s s :=
  ⟨rfl, fun _ => rfl, fun _ _ h => h⟩

theorem trans (h : EdgeFrame s s') (h' : EdgeFrame s' s'') : EdgeFrame s s'' where
  sccUf := h'.sccUf.trans h.sccUf
  ptsSet v := (h'.ptsSet v).trans (h.ptsSet v)
  assignDsts v d hd := h'.assignDsts v d (h.assignDsts v d hd)

theorem rep (h : EdgeFrame s s') (v : Fin n) : s'.rep v = s.rep v := by
  rw [SolverData.rep, h.sccUf, SolverData.rep]

theorem edge (h : EdgeFrame s s') {a b : Fin n} (hab : Edge s a b) : Edge s' a b := by
  rw [Edge, h.rep, h.rep]
  refine hab.imp_right fun ⟨d, hd, heq⟩ => ⟨d, h.assignDsts _ d hd, ?_⟩
  rw [h.rep, heq]

end EdgeFrame

/-- A step that only adds edges and pending pointees. -/
structure Frame (s s' : SolverData n) : Prop extends EdgeFrame s s' where
  derefs : ∀ v, (s'.nodes v).derefs = (s.nodes v).derefs

namespace Frame

theorem refl (s : SolverData n) : Frame s s := ⟨EdgeFrame.refl s, fun _ => rfl⟩

theorem trans (h : Frame s s') (h' : Frame s' s'') : Frame s s'' :=
  ⟨h.toEdgeFrame.trans h'.toEdgeFrame, fun v => (h'.derefs v).trans (h.derefs v)⟩

end Frame

/-- Every pointee of a representative is sent along all its edges or pending, apart from `P`, and
every representative with pending pointees is queued, apart from `Q`. -/
structure Sched (P : Fin n → Fin n → Fin n → Prop) (Q : Fin n → Prop) (s : SolverData n) : Prop where
  sent : ∀ u, s.rep u = u → ∀ o ∈ (s.nodes u).ptsSet, o ∉ (s.nodes u).pendingPts →
    ∀ d ∈ (s.nodes u).assignDsts, o ∈ (s.nodes (s.rep d)).ptsSet ∨ P u o d
  queued : ∀ u, s.rep u = u → (s.nodes u).pendingPts.Nonempty →
    Q u ∨ ∃ w ∈ s.propWorklist, s.rep w = u

variable {P P' : Fin n → Fin n → Fin n → Prop} {Q Q' : Fin n → Prop}

theorem Sched.mono (h : Sched P Q s) (hP : ∀ u o d, s.rep u = u → o ∈ (s.nodes u).ptsSet →
    d ∈ (s.nodes u).assignDsts → P u o d → o ∈ (s.nodes (s.rep d)).ptsSet ∨ P' u o d)
    (hQ : ∀ u, Q u → Q' u) : Sched P' Q' s where
  sent u hu o ho hpend d hd := (h.sent u hu o ho hpend d hd).elim Or.inl (hP u o d hu ho hd)
  queued u hu hne := (h.queued u hu hne).imp_left (hQ u)

/-- Queue a node. -/
theorem Sched.push (h : Sched P Q s) {v : Fin n} (hQ : ∀ u, s.rep u = u → Q u → Q' u ∨ u = s.rep v) :
    Sched P Q' (s.push v) where
  sent := h.sent
  queued u hu hne := by
    rcases h.queued u hu hne with hq | ⟨w, hw, hrep⟩
    · rcases hQ u hu hq with hq | rfl
      · exact Or.inl hq
      · exact Or.inr ⟨v, List.mem_cons_self, rfl⟩
    · exact Or.inr ⟨w, List.mem_cons_of_mem v hw, hrep⟩

/-- Pointees that are added are pending. -/
theorem Sched.addPts (h : Sched P Q s) (v : Fin n) (objs : Finset (Fin n)) :
    Sched P (fun u => Q u ∨ u = v) (s.addPts v objs) where
  sent u hu o ho hpend d hd := by
    rw [addPts_ptsSet] at ho
    rw [addPts_pendingPts] at hpend
    rw [addPts_assignDsts] at hd
    have hgrow : ∀ w, (s.nodes w).ptsSet ⊆ ((s.addPts v objs).nodes w).ptsSet := by
      intro w
      rw [addPts_ptsSet]
      split_ifs
      · exact Finset.subset_union_left
      · exact Finset.Subset.refl _
    have hold : o ∈ (s.nodes u).ptsSet ∧ o ∉ (s.nodes u).pendingPts := by
      split_ifs at ho hpend with huv
      · rw [Finset.mem_union, not_or] at hpend
        exact ⟨(Finset.mem_union.1 ho).resolve_right hpend.2, hpend.1⟩
      · exact ⟨ho, hpend⟩
    exact (h.sent u hu o hold.1 hold.2 d hd).imp_left fun ho => hgrow _ ho
  queued u hu hne := by
    rw [addPts_pendingPts] at hne
    split_ifs at hne with huv
    · exact Or.inl (Or.inr huv)
    · exact (h.queued u hu hne).imp_left Or.inl

/-- What adding an edge does: nothing if it is there, else all pointees of its source become pending. -/
theorem addAssignEdge_cases (s : SolverData n) (a b : Fin n) :
    (s.addAssignEdge a b = s ∧ Edge s a b) ∨
      (s.rep b ∉ (s.nodes (s.rep a)).assignDsts ∧ s.rep a ≠ s.rep b ∧
        ∃ s₁, s₁ = s.setNode (s.rep a) (fun info =>
            { info with assignDsts := info.assignDsts ++ [s.rep b] }) ∧
          (((s.nodes (s.rep a)).ptsSet = ∅ ∧ s.addAssignEdge a b = s₁) ∨
            s.addAssignEdge a b =
              (s₁.addPts (s.rep a) (s.nodes (s.rep a)).ptsSet).push (s.rep a))) := by
  rw [addAssignEdge]
  split_ifs with hab hmem hpts
  · exact Or.inl ⟨rfl, Or.inl hab⟩
  · exact Or.inl ⟨rfl, Or.inr ⟨_, hmem, s.rep_rep b⟩⟩
  · exact Or.inr ⟨hmem, hab, _, rfl, Or.inl ⟨hpts, rfl⟩⟩
  · exact Or.inr ⟨hmem, hab, _, rfl, Or.inr rfl⟩

theorem frame_addDst (s : SolverData n) (v d : Fin n) :
    Frame s (s.setNode v fun info => { info with assignDsts := info.assignDsts ++ [d] }) := by
  refine ⟨⟨rfl, fun w => ?_, fun w x hx => ?_⟩, fun w => ?_⟩ <;> by_cases hw : w = v
  · subst hw; simp
  · rw [setNode_of_ne hw]
  · subst hw; simp [hx]
  · rwa [setNode_of_ne hw]
  · subst hw; simp
  · rw [setNode_of_ne hw]

theorem frame_addPts {v : Fin n} {objs : Finset (Fin n)} (h : objs ⊆ (s.nodes v).ptsSet) :
    Frame s ((s.addPts v objs).push v) := by
  refine ⟨⟨rfl, fun w => ?_, fun w x hx => ?_⟩, fun w => ?_⟩
  · rw [push_nodes, addPts_ptsSet]
    split_ifs with hw
    · subst hw
      exact Finset.union_eq_left.2 h
    · rfl
  · simpa using hx
  · simp

theorem addAssignEdge_frame (s : SolverData n) (a b : Fin n) : Frame s (s.addAssignEdge a b) := by
  rcases s.addAssignEdge_cases a b with ⟨heq, -⟩ | ⟨-, -, s₁, rfl, ⟨-, heq⟩ | heq⟩
  · rw [heq]
    exact Frame.refl s
  · rw [heq]
    exact s.frame_addDst _ _
  · rw [heq]
    exact (s.frame_addDst _ _).trans (frame_addPts (by simp))

theorem addAssignEdge_edge (s : SolverData n) (a b : Fin n) : Edge (s.addAssignEdge a b) a b := by
  have hself : Edge (s.setNode (s.rep a) fun info =>
      { info with assignDsts := info.assignDsts ++ [s.rep b] }) a b := by
    refine Or.inr ⟨s.rep b, ?_, ?_⟩
    · rw [setNode_rep, setNode_self]
      simp
    · rw [setNode_rep, setNode_rep, rep_rep]
  rcases s.addAssignEdge_cases a b with ⟨heq, hedge⟩ | ⟨-, -, s₁, rfl, ⟨-, heq⟩ | heq⟩
  · rwa [heq]
  · rwa [heq]
  · rw [heq]
    exact (frame_addPts (by simp)).edge hself

theorem addAssignEdge_sched (h : Sched P Q s) (a b : Fin n) : Sched P Q (s.addAssignEdge a b) := by
  rcases s.addAssignEdge_cases a b with ⟨heq, -⟩ | ⟨-, -, s₁, rfl, hcase⟩
  · rwa [heq]
  · -- the new edge is harmless if its source has no pointees or all of them are pending
    have hnode : ∀ {w}, w ≠ s.rep a → (s.setNode (s.rep a) fun info =>
        { info with assignDsts := info.assignDsts ++ [s.rep b] }).nodes w = s.nodes w :=
      fun hw => setNode_of_ne hw _ _
    have hframe := s.frame_addDst (s.rep a) (s.rep b)
    rcases hcase with ⟨hpts, heq⟩ | heq
    · rw [heq]
      refine ⟨fun u hu o ho hpend d hd => ?_, fun u hu hne => ?_⟩
      · rw [hframe.ptsSet] at ho ⊢
        by_cases hua : u = s.rep a
        · rw [hua, hpts] at ho
          cases ho
        · rw [hnode hua] at hpend hd
          exact h.sent u hu o ho hpend d hd
      · refine h.queued u hu ?_
        by_cases hua : u = s.rep a
        · rw [hua, setNode_self] at hne
          rwa [hua]
        · rwa [hnode hua] at hne
    · rw [heq]
      have hpts : (s.nodes (s.rep a)).ptsSet ⊆ ((s.setNode (s.rep a) fun info =>
          { info with assignDsts := info.assignDsts ++ [s.rep b] }).nodes (s.rep a)).ptsSet := by simp
      have hframe' := hframe.trans (frame_addPts hpts)
      refine ⟨fun u hu o ho hpend d hd => ?_, fun u hu hne => ?_⟩
      · rw [hframe'.ptsSet] at ho ⊢
        rw [push_nodes, addPts_pendingPts] at hpend
        rw [push_nodes, addPts_assignDsts] at hd
        by_cases hua : u = s.rep a
        · rw [if_pos hua] at hpend
          exact absurd (Finset.mem_union_right _ (hua ▸ ho)) hpend
        · rw [if_neg hua, hnode hua] at hpend
          rw [hnode hua] at hd
          exact h.sent u hu o ho hpend d hd
      · by_cases hua : u = s.rep a
        · exact Or.inr ⟨s.rep a, List.mem_cons_self, by rw [hua]; exact s.rep_rep a⟩
        · rw [push_nodes, addPts_pendingPts, if_neg hua, hnode hua] at hne
          refine (h.queued u hu hne).imp_right fun ⟨w, hw, hrep⟩ => ?_
          exact ⟨w, List.mem_cons_of_mem _ hw, hrep⟩

/-- A loop that adds edges. -/
theorem addAssignEdges_spec (edges : List (Fin n × Fin n)) (s : SolverData n) :
    Frame s (s.addAssignEdges edges) ∧ (∀ P Q, Sched P Q s → Sched P Q (s.addAssignEdges edges)) ∧
      ∀ e ∈ edges, Edge (s.addAssignEdges edges) e.1 e.2 := by
  induction edges generalizing s with
  | nil => exact ⟨Frame.refl s, fun _ _ h => h, by simp⟩
  | cons e edges ih =>
    obtain ⟨hframe, hsched, hedge⟩ := ih (s.addAssignEdge e.1 e.2)
    refine ⟨(s.addAssignEdge_frame _ _).trans hframe, fun P Q h => ?_, fun e' he' => ?_⟩
    · exact hsched P Q (addAssignEdge_sched h _ _)
    · rcases List.mem_cons.1 he' with rfl | he'
      · exact hframe.edge (s.addAssignEdge_edge _ _)
      · exact hedge e' he'

end SolverData

/-! ### The edges of constraints -/

theorem mem_derefEdges {kind : DerefKind} {objs xPts : List (Fin n)} {x : Fin n}
    {e : Fin n × Fin n} :
    e ∈ derefEdges kind objs x xPts ↔ ∃ o ∈ objs, e ∈ derefEdges kind [o] x xPts := by
  obtain ⟨a, b⟩ := e
  cases kind <;> simp [derefEdges, eq_comm]
  all_goals tauto

/-- A memcpy implies the same edges from both operands. -/
theorem mem_derefEdges_dual {kind kind' : DerefKind} (h : kind.dual = some kind') {o x y : Fin n}
    {xPts : List (Fin n)} {e : Fin n × Fin n} :
    e ∈ derefEdges kind [o] x xPts ↔ ∃ o' ∈ xPts, e ∈ derefEdges kind' [o'] y [o] := by
  obtain ⟨a, b⟩ := e
  cases kind <;> cases h <;> simp [derefEdges]
  all_goals tauto

/-- The other constraints do not depend on what the other operand points to. -/
theorem derefEdges_of_dual_none {kind : DerefKind} (h : kind.dual = none) (objs : List (Fin n))
    (x : Fin n) (xPts xPts' : List (Fin n)) :
    derefEdges kind objs x xPts = derefEdges kind objs x xPts' := by
  cases kind <;> first | rfl | cases h

namespace SolverData

variable {s s' : SolverData n} {P : Fin n → Fin n → Fin n → Prop} {Q : Fin n → Prop}
  {C : DerefKind → Fin n → Prop}

/-- The constraints of representatives whose operands satisfy `C` have all their edges. -/
def DerefsOn (C : DerefKind → Fin n → Prop) (s : SolverData n) : Prop :=
  ∀ v, s.rep v = v → ∀ kind, ∀ x ∈ (s.nodes v).derefs kind, C kind x → ∀ o ∈ (s.nodes v).ptsSet,
    ∀ e ∈ derefEdges kind [o] x (elems (s.nodes (s.rep x)).ptsSet), Edge s e.1 e.2

/-- Both operands of a memcpy record it, within `C`. -/
def LinksOn (C : DerefKind → Fin n → Prop) (s : SolverData n) : Prop :=
  ∀ v, s.rep v = v → ∀ kind kind', kind.dual = some kind' → ∀ x ∈ (s.nodes v).derefs kind,
    C kind x → ∃ y ∈ (s.nodes (s.rep x)).derefs kind', s.rep y = v ∧ C kind' y

/-- A step that only adds edges, and the pointees `objs` to `v`. -/
structure Grown (v : Fin n) (objs : Finset (Fin n)) (s s' : SolverData n) : Prop where
  sccUf : s'.sccUf = s.sccUf
  ptsSet : ∀ w, (s'.nodes w).ptsSet =
    if w = v then (s.nodes w).ptsSet ∪ objs else (s.nodes w).ptsSet
  derefs : ∀ w, (s'.nodes w).derefs = (s.nodes w).derefs
  assignDsts : ∀ w, ∀ d ∈ (s.nodes w).assignDsts, d ∈ (s'.nodes w).assignDsts

namespace Grown

variable {v : Fin n} {objs objs' : Finset (Fin n)}

theorem rep (h : Grown v objs s s') (w : Fin n) : s'.rep w = s.rep w := by
  rw [SolverData.rep, h.sccUf, SolverData.rep]

theorem edge (h : Grown v objs s s') {a b : Fin n} (hab : Edge s a b) : Edge s' a b := by
  rw [Edge, h.rep, h.rep]
  refine hab.imp_right fun ⟨d, hd, heq⟩ => ⟨d, h.assignDsts _ d hd, ?_⟩
  rw [h.rep, heq]

theorem subset (h : Grown v objs s s') (w : Fin n) : (s.nodes w).ptsSet ⊆ (s'.nodes w).ptsSet := by
  rw [h.ptsSet]
  split_ifs
  · exact Finset.subset_union_left
  · exact Finset.Subset.refl _

theorem refl (s : SolverData n) (h : objs ⊆ (s.nodes v).ptsSet) : Grown v objs s s where
  sccUf := rfl
  ptsSet w := by
    split_ifs with hw
    · subst hw
      exact (Finset.union_eq_left.2 h).symm
    · rfl
  derefs _ := rfl
  assignDsts _ _ h := h

theorem trans {s'' : SolverData n} (h : Grown v objs s s') (h' : Grown v objs' s' s'') :
    Grown v (objs ∪ objs') s s'' where
  sccUf := h'.sccUf.trans h.sccUf
  ptsSet w := by
    rw [h'.ptsSet, h.ptsSet]
    split_ifs
    · rw [Finset.union_assoc]
    · rfl
  derefs w := (h'.derefs w).trans (h.derefs w)
  assignDsts w d hd := h'.assignDsts w d (h.assignDsts w d hd)

theorem of_addPts (v : Fin n) (objs : Finset (Fin n)) (s : SolverData n) :
    Grown v objs s (s.addPts v objs) where
  sccUf := rfl
  ptsSet w := s.addPts_ptsSet v objs w
  derefs w := s.addPts_derefs v objs w
  assignDsts w d hd := by rwa [addPts_assignDsts]

theorem trans_frame {s'' : SolverData n} (h : Grown v objs s s') (h' : Frame s' s'') :
    Grown v objs s s'' where
  sccUf := h'.sccUf.trans h.sccUf
  ptsSet w := (h'.ptsSet w).trans (h.ptsSet w)
  derefs w := (h'.derefs w).trans (h.derefs w)
  assignDsts w d hd := h'.assignDsts w d (h.assignDsts w d hd)

theorem links (h : Grown v objs s s') (hl : LinksOn C s) : LinksOn C s' := by
  intro w hw kind kind' hdual x hx hC
  rw [h.rep] at hw
  rw [h.derefs] at hx
  rw [h.rep, h.derefs]
  obtain ⟨y, hy, hrep, hC'⟩ := hl w hw kind kind' hdual x hx hC
  exact ⟨y, hy, (h.rep y).trans hrep, hC'⟩

theorem live (h : Grown v objs s s') {w : Fin n} (hl : Live s.rep s w) : Live s'.rep s' w := by
  intro kind kind' hdual x hx
  rw [h.derefs] at hx
  exact (h.rep x).trans (hl kind kind' hdual x hx)

/-- The constraints keep their edges if all that the new pointees imply for `v` are there. -/
theorem derefs_of_new (h : Grown v objs s s') (hd : DerefsOn C s) (hl : LinksOn C s)
    (hv : s.rep v = v) (hnew : ∀ o ∈ objs, ∀ kind, ∀ x ∈ (s.nodes v).derefs kind, C kind x →
      ∀ e ∈ derefEdges kind [o] x (elems (s'.nodes (s.rep x)).ptsSet), Edge s' e.1 e.2) :
    DerefsOn C s' := by
  intro w hw kind x hx hC o ho e he
  rw [h.rep] at hw he
  rw [h.derefs] at hx
  by_cases hnew' : w = v ∧ o ∈ objs
  · obtain ⟨rfl, ho⟩ := hnew'
    exact hnew o ho kind x hx hC e he
  · have hold : o ∈ (s.nodes w).ptsSet := by
      rw [h.ptsSet] at ho
      split_ifs at ho with hwv
      · exact (Finset.mem_union.1 ho).resolve_right fun ho => hnew' ⟨hwv, ho⟩
      · exact ho
    cases hdual : kind.dual with
    | none =>
      rw [derefEdges_of_dual_none hdual _ _ _ (elems (s.nodes (s.rep x)).ptsSet)] at he
      exact h.edge (hd w hw kind x hx hC o hold e he)
    | some kind' =>
      -- a new pointee of the other operand is delivered there
      obtain ⟨y, hy, hrep, hC'⟩ := hl w hw kind kind' hdual x hx hC
      obtain ⟨o', ho', he'⟩ := (mem_derefEdges_dual (y := y) hdual).1 he
      have hold' : o' ∈ (s.nodes (s.rep x)).ptsSet → Edge s' e.1 e.2 := fun ho' =>
        h.edge (hd w hw kind x hx hC o hold e
          ((mem_derefEdges_dual hdual).2 ⟨o', mem_elems.2 ho', he'⟩))
      rw [mem_elems, h.ptsSet] at ho'
      split_ifs at ho' with hxv
      · rcases Finset.mem_union.1 ho' with ho' | ho'
        · exact hold' ho'
        · rw [hxv] at hy
          refine hnew o' ho' kind' y hy hC' e ?_
          have hback : kind'.dual = some kind := by cases kind <;> cases hdual <;> rfl
          have hsingle : e ∈ derefEdges kind [o] x [o'] :=
            (mem_derefEdges_dual hdual).2 ⟨o', List.mem_singleton_self o', he'⟩
          rw [hrep]
          exact (mem_derefEdges_dual hback).2 ⟨o, mem_elems.2 ho, hsingle⟩
      · exact hold' ho'

end Grown

/-! ### New pointees -/

/-- What `onNewPointee` adds. -/
theorem onNewPointee_spec (v o : Fin n) (s : SolverData n) :
    Frame s (s.onNewPointee v o) ∧ (∀ P Q, Sched P Q s → Sched P Q (s.onNewPointee v o)) ∧
      ∀ kind, ∀ x ∈ (s.nodes v).derefs kind, ∀ e ∈ derefEdges kind [o] x (elems (s.nodes x).ptsSet),
        Edge (s.onNewPointee v o) e.1 e.2 := by
  obtain ⟨hframe, hsched, hedge⟩ := addAssignEdges_spec _ s
  refine ⟨hframe, hsched, fun kind x hx e he => hedge e ?_⟩
  have hmem : e ∈ s.listEdges kind [o] ((s.nodes v).derefs kind) :=
    List.mem_flatMap.2 ⟨x, hx, he⟩
  simp only [List.mem_append]
  cases kind
  · exact Or.inl (Or.inl (Or.inl hmem))
  · exact Or.inl (Or.inl (Or.inr hmem))
  · exact Or.inl (Or.inr hmem)
  · exact Or.inr hmem

/-- One new pointee. -/
theorem grown_onNewPointee (v o : Fin n) (s : SolverData n) :
    Grown v {o} s ((s.addPts v {o}).onNewPointee v o) :=
  (Grown.of_addPts v {o} s).trans_frame ((s.addPts v {o}).onNewPointee_spec v o).1

theorem DerefsOn.onNewPointees (hd : DerefsOn C s) (hl : LinksOn C s) {v : Fin n}
    (hv : s.rep v = v) (hlive : Live s.rep s v) {objs : Finset (Fin n)} (hgrown : Grown v objs s s')
    (hedge : ∀ o ∈ objs, ∀ kind, ∀ x ∈ (s.nodes v).derefs kind,
      ∀ e ∈ derefEdges kind [o] x (elems (s'.nodes x).ptsSet), Edge s' e.1 e.2) : DerefsOn C s' := by
  refine hgrown.derefs_of_new hd hl hv fun o ho kind x hx _ e he => ?_
  cases hdual : kind.dual with
  | none =>
    rw [derefEdges_of_dual_none hdual _ _ _ (elems (s'.nodes x).ptsSet)] at he
    exact hedge o ho kind x hx e he
  | some kind' =>
    rw [hlive kind kind' hdual x hx] at he
    exact hedge o ho kind x hx e he

/-- What `mergeWithDiff` does to the state, with the flag that it returns. -/
structure Merged (v : Fin n) (other : Finset (Fin n)) (s : SolverData n)
    (r : SolverData n × Bool) : Prop where
  grown : Grown v other s r.1
  flag : r.2 = true ↔ ¬other ⊆ (s.nodes v).ptsSet
  same : other ⊆ (s.nodes v).ptsSet → r.1 = s
  sched : ∀ P Q, Sched P Q s → Sched P (fun u => Q u ∨ u = v) r.1
  derefs : ∀ C, s.rep v = v → DerefsOn C s → LinksOn C s →
    (¬other ⊆ (s.nodes v).ptsSet → Live s.rep s v) → DerefsOn C r.1

/-- The insertion of few pointees, one by one. -/
theorem mergeEach_spec (v : Fin n) : ∀ (l : List (Fin n)) (s : SolverData n) (b : Bool),
    let r := l.foldl (fun (r : SolverData n × Bool) obj =>
      if obj ∈ (r.1.nodes v).ptsSet then r
      else ((r.1.addPts v {obj}).onNewPointee v obj, true)) (s, b)
    Grown v l.toFinset s r.1 ∧ (r.2 = true ↔ b = true ∨ ¬l.toFinset ⊆ (s.nodes v).ptsSet) ∧
      (l.toFinset ⊆ (s.nodes v).ptsSet → r.1 = s) ∧
      (∀ (P : Fin n → Fin n → Fin n → Prop) (Q : Fin n → Prop), Sched P (fun u => Q u ∨ u = v) s →
        Sched P (fun u => Q u ∨ u = v) r.1) ∧
      (∀ C, s.rep v = v → DerefsOn C s → LinksOn C s →
        (¬l.toFinset ⊆ (s.nodes v).ptsSet → Live s.rep s v) → DerefsOn C r.1)
  | [], s, b => ⟨Grown.refl s (by simp), by simp, fun _ => rfl, fun _ _ h => h,
      fun _ _ hd _ _ => hd⟩
  | o :: l, s, b => by
    rw [List.toFinset_cons, List.foldl_cons]
    by_cases ho : o ∈ (s.nodes v).ptsSet
    · obtain ⟨hgrown, hflag, hsame, hsched, hderefs⟩ := mergeEach_spec v l s b
      have hsub : insert o l.toFinset ⊆ (s.nodes v).ptsSet ↔ l.toFinset ⊆ (s.nodes v).ptsSet := by
        rw [Finset.insert_subset_iff]
        exact and_iff_right ho
      rw [if_pos ho, hsub]
      refine ⟨?_, hflag, hsame, hsched, hderefs⟩
      rw [Finset.insert_eq]
      exact (Grown.refl s (Finset.singleton_subset_iff.2 ho)).trans hgrown
    · have hstep := grown_onNewPointee v o s
      obtain ⟨hframe, hsched₁, hedge⟩ := (s.addPts v {o}).onNewPointee_spec v o
      obtain ⟨hgrown, hflag, -, hsched, hderefs⟩ :=
        mergeEach_spec v l ((s.addPts v {o}).onNewPointee v o) true
      have hsub : ¬insert o l.toFinset ⊆ (s.nodes v).ptsSet := fun h =>
        ho (h (Finset.mem_insert_self _ _))
      rw [if_neg ho]
      refine ⟨?_, ?_, fun h => absurd h hsub, fun P Q h => hsched P Q ?_,
        fun C hv hd hl hlive => ?_⟩
      · rw [Finset.insert_eq]
        exact hstep.trans hgrown
      · simp [hflag, hsub]
      · exact hsched₁ _ _ ((h.addPts v {o}).mono (fun _ _ _ _ _ _ h => Or.inr h)
          (fun u hu => hu.elim id Or.inr))
      · have hlive := hlive hsub
        refine hderefs C ((hstep.rep v).trans hv) ?_ (hstep.links hl) fun _ => hstep.live hlive
        refine hd.onNewPointees hl hv hlive hstep fun o' ho' kind x hx e he => ?_
        obtain rfl := Finset.mem_singleton.1 ho'
        rw [hframe.ptsSet] at he
        exact hedge kind x (by rwa [addPts_derefs]) e he

/-- The insertion of many pointees at once. -/
theorem foldl_onNewPointee_spec (v : Fin n) : ∀ (l : List (Fin n)) (s : SolverData n),
    let s' := l.foldl (fun s obj => s.onNewPointee v obj) s
    Frame s s' ∧ (∀ P Q, Sched P Q s → Sched P Q s') ∧ ∀ o ∈ l, ∀ kind,
      ∀ x ∈ (s.nodes v).derefs kind, ∀ e ∈ derefEdges kind [o] x (elems (s.nodes x).ptsSet),
        Edge s' e.1 e.2
  | [], s => ⟨Frame.refl s, fun _ _ h => h, by simp⟩
  | o :: l, s => by
    obtain ⟨hframe₁, hsched₁, hedge₁⟩ := s.onNewPointee_spec v o
    obtain ⟨hframe, hsched, hedge⟩ := foldl_onNewPointee_spec v l (s.onNewPointee v o)
    refine ⟨hframe₁.trans hframe, fun P Q h => hsched P Q (hsched₁ P Q h), ?_⟩
    intro o' ho' kind x hx e he
    rcases List.mem_cons.1 ho' with rfl | ho'
    · exact hframe.edge (hedge₁ kind x hx e he)
    · refine hedge o' ho' kind x (by rwa [hframe₁.derefs]) e ?_
      rwa [hframe₁.ptsSet]

theorem mergeWithDiff_spec (v : Fin n) (other : Finset (Fin n)) (s : SolverData n) :
    Merged v other s (s.mergeWithDiff v other) := by
  simp only [mergeWithDiff]
  split_ifs with hcard hdiff
  · have hsub : other ⊆ (s.nodes v).ptsSet := Finset.sdiff_eq_empty_iff_subset.1 hdiff
    exact ⟨Grown.refl s hsub, by simp [hsub], fun _ => rfl, fun P Q h =>
      h.mono (fun _ _ _ _ _ _ h => Or.inr h) fun u hu => Or.inl hu, fun _ _ hd _ _ => hd⟩
  · have hsub : ¬other ⊆ (s.nodes v).ptsSet := fun h =>
      hdiff (Finset.sdiff_eq_empty_iff_subset.2 h)
    obtain ⟨hframe, hsched, hedge⟩ := foldl_onNewPointee_spec v
      (elems (other \ (s.nodes v).ptsSet)) (s.addPts v (other \ (s.nodes v).ptsSet))
    have hgrown := (Grown.of_addPts v (other \ (s.nodes v).ptsSet) s).trans_frame hframe
    refine ⟨?_, by simp [hsub], fun h => absurd h hsub, fun P Q h => ?_,
      fun C hv hd hl hlive => ?_⟩
    · refine { hgrown with ptsSet := fun w => ?_ }
      rw [hgrown.ptsSet]
      split_ifs with hw
      · rw [hw, Finset.union_sdiff_self_eq_union]
      · rfl
    · exact hsched _ _ (h.addPts v _)
    · refine hd.onNewPointees hl hv (hlive hsub) hgrown fun o ho kind x hx e he => ?_
      rw [hframe.ptsSet] at he
      exact hedge o (mem_elems.2 ho) kind x (by rwa [addPts_derefs]) e he
  · obtain ⟨hgrown, hflag, hsame, hsched, hderefs⟩ := mergeEach_spec v (elems other) s false
    have heq : (elems other).toFinset = other := by
      ext o
      simp
    rw [heq] at hgrown hflag hsame hderefs
    refine ⟨hgrown, by simpa using hflag, hsame, fun P Q h => hsched P Q ?_, hderefs⟩
    exact h.mono (fun _ _ _ _ _ _ h => Or.inr h) fun u hu => Or.inl hu

end SolverData

end Phasar.Andersen
