import Phasar.Pointer.AndersenMerge

/-!
# The invariant of the Andersen solver

Every insertion and every round of `propagate` keeps the invariant of pending pointees, and all that
the state had before. Those that lose no edge also keep the edges of all load, store and memcpy
constraints.

* `Ext`: a later state has all that an earlier one has, up to merged nodes;
* `Recorded`, `insert_spec`: what an insertion leaves behind;
* `visitDst_spec`, `propagateRound_spec`: the loop of `propagate`.
-/

namespace Phasar.Andersen

open SolverData

variable {n : ℕ} {s s' s'' : SolverData n}

namespace SolverData

/-- All that `s` has is in `s'`, up to merged nodes. -/
structure Ext (s s' : SolverData n) : Prop where
  rep : ∀ v, s'.rep (s.rep v) = s'.rep v
  ptsSet : ∀ v, (s.nodes (s.rep v)).ptsSet ⊆ (s'.nodes (s'.rep v)).ptsSet
  derefs : ∀ v kind x, x ∈ (s.nodes (s.rep v)).derefs kind →
    x ∈ (s'.nodes (s'.rep v)).derefs kind
  edge : ∀ a b, Edge s a b → Edge s' a b

namespace Ext

theorem refl (s : SolverData n) : Ext s s :=
  ⟨fun v => s.rep_rep v, fun _ => Finset.Subset.refl _, fun _ _ _ h => h, fun _ _ h => h⟩

theorem trans (h : Ext s s') (h' : Ext s' s'') : Ext s s'' where
  rep v := by rw [← h'.rep, h.rep, h'.rep]
  ptsSet v := (h.ptsSet v).trans (h'.ptsSet v)
  derefs v kind x hx := h'.derefs v kind x (h.derefs v kind x hx)
  edge a b hab := h'.edge a b (h.edge a b hab)

theorem rep_eq (h : Ext s s') {a b : Fin n} (hab : s.rep a = s.rep b) : s'.rep a = s'.rep b := by
  rw [← h.rep a, hab, h.rep]

theorem of_edgeFrame (h : EdgeFrame s s') (hd : ∀ v kind x, x ∈ (s.nodes v).derefs kind →
    x ∈ (s'.nodes v).derefs kind) : Ext s s' where
  rep v := by rw [h.rep, h.rep, SolverData.rep_rep]
  ptsSet v := by rw [h.rep, h.ptsSet]
  derefs v kind x hx := by
    rw [h.rep]
    exact hd _ kind x hx
  edge _ _ := h.edge

theorem of_grown {v : Fin n} {objs : Finset (Fin n)} (h : Grown v objs s s') : Ext s s' where
  rep w := by rw [h.rep, h.rep, SolverData.rep_rep]
  ptsSet w := by
    rw [h.rep]
    exact h.subset _
  derefs w kind x hx := by rwa [h.rep, h.derefs]
  edge _ _ := h.edge

theorem of_unified {r k : Fin n} (h : Unified r k s s') (hrk : r ≠ k) : Ext s s' where
  rep := h.rep_rep
  ptsSet v := by
    rw [h.rep]
    split_ifs with hv
    · rw [h.ptsSet r hrk, if_pos rfl, hv]
      exact Finset.subset_union_right
    · rw [h.ptsSet _ hv]
      split_ifs with hvr
      · rw [hvr]
        exact Finset.subset_union_left
      · exact Finset.Subset.refl _
  derefs v kind x hx := by
    rw [h.rep]
    split_ifs with hv
    · exact (h.derefs r hrk kind x).2 (Or.inr ⟨rfl, hv ▸ hx⟩)
    · exact (h.derefs _ hv kind x).2 (Or.inl hx)
  edge := h.edge

end Ext

/-- Every pointee was sent along all edges or is pending in a queued node. -/
def Scheduled (s : SolverData n) : Prop := Sched (fun _ _ _ => False) (fun _ => False) s

end SolverData

/-- What the state keeps of a constraint that was inserted. -/
def Constraint.Recorded (s : SolverData n) : Constraint n → Prop
  | addPointee ptr obj => obj ∈ (s.nodes (s.rep ptr)).ptsSet
  | addAssignEdge src dst => Edge s src dst
  | addLoad ptr dst => ∃ y ∈ (s.nodes (s.rep ptr)).derefs .loadDsts, s.rep y = s.rep dst
  | addStore ptr src => ∃ y ∈ (s.nodes (s.rep ptr)).derefs .storeSrcs, s.rep y = s.rep src
  | addMemCopy srcPtr dstPtr =>
    ∃ y ∈ (s.nodes (s.rep srcPtr)).derefs .memCopyAsSrc, s.rep y = s.rep dstPtr
  | merge a b => s.rep a = s.rep b

theorem SolverData.Ext.recorded (h : Ext s s') {c : Constraint n} (hc : c.Recorded s) :
    c.Recorded s' := by
  have hderef : ∀ {v d : Fin n} {kind}, (∃ y ∈ (s.nodes (s.rep v)).derefs kind, s.rep y = s.rep d) →
      ∃ y ∈ (s'.nodes (s'.rep v)).derefs kind, s'.rep y = s'.rep d :=
    fun ⟨y, hy, hyd⟩ => ⟨y, h.derefs _ _ y hy, h.rep_eq hyd⟩
  cases c with
  | addPointee ptr obj => exact h.ptsSet ptr hc
  | addAssignEdge src dst => exact h.edge src dst hc
  | addLoad ptr dst => exact hderef hc
  | addStore ptr src => exact hderef hc
  | addMemCopy srcPtr dstPtr => exact hderef hc
  | merge a b => exact h.rep_eq hc

/-- What a step guarantees: nothing is lost, pending pointees are queued, and the constraints keep
their edges under the condition `ok`. -/
structure Kept (ok : Prop) (s s' : SolverData n) : Prop where
  ext : Ext s s'
  scheduled : Scheduled s → Scheduled s'
  links : Links s → Links s'
  derefs : ok → Derefs s → Links s → Derefs s'

namespace SolverData

/-! ### Insertions -/

/-- A step that adds edges and the constraints `N`, whose edges are there. -/
theorem kept_of_records {N : Fin n → DerefKind → Fin n → Prop} (hframe : EdgeFrame s s')
    (hsched : Scheduled s → Scheduled s') (hderefs : ∀ v kind x, x ∈ (s'.nodes v).derefs kind ↔
      x ∈ (s.nodes v).derefs kind ∨ N v kind x)
    (hedges : ∀ v kind x, N v kind x → ∀ o ∈ (s.nodes v).ptsSet,
      ∀ e ∈ derefEdges kind [o] x (elems (s.nodes (s.rep x)).ptsSet), Edge s' e.1 e.2)
    (hdual : ∀ v kind kind' x, s.rep v = v → N v kind x → kind.dual = some kind' →
      ∃ y, N (s.rep x) kind' y ∧ s.rep y = v) : Kept True s s' where
  ext := Ext.of_edgeFrame hframe fun v kind x hx => (hderefs v kind x).2 (Or.inl hx)
  scheduled := hsched
  links hl := by
    intro v hv kind kind' hkind x hx _
    rw [hframe.rep] at hv
    have hold : ∃ y, (y ∈ (s.nodes (s.rep x)).derefs kind' ∨ N (s.rep x) kind' y) ∧ s.rep y = v := by
      rcases (hderefs v kind x).1 hx with hx | hx
      · obtain ⟨y, hy, hyv, -⟩ := hl v hv kind kind' hkind x hx trivial
        exact ⟨y, Or.inl hy, hyv⟩
      · obtain ⟨y, hy, hyv⟩ := hdual v kind kind' x hv hx hkind
        exact ⟨y, Or.inr hy, hyv⟩
    obtain ⟨y, hy, hyv⟩ := hold
    refine ⟨y, ?_, by rw [hframe.rep, hyv], trivial⟩
    rw [hframe.rep]
    exact (hderefs _ _ _).2 hy
  derefs _ hd _ := by
    intro v hv kind x hx _ o ho e he
    rw [hframe.rep] at hv
    rw [hframe.ptsSet] at ho
    rw [hframe.rep, hframe.ptsSet] at he
    rcases (hderefs v kind x).1 hx with hx | hx
    · exact hframe.edge (hd v hv kind x hx trivial o ho e he)
    · exact hedges v kind x hx o ho e he

theorem addAssignEdge_kept (a b : Fin n) (s : SolverData n) :
    Kept True s (s.addAssignEdge a b) := by
  have hframe := s.addAssignEdge_frame a b
  refine kept_of_records (N := fun _ _ _ => False) hframe.toEdgeFrame
    (fun h => addAssignEdge_sched h a b) (fun v kind x => ?_) (fun _ _ _ h => h.elim)
    (fun _ _ _ _ _ h => h.elim)
  rw [hframe.derefs, or_false]

theorem addPointee_kept (ptr obj : Fin n) (s : SolverData n) :
    Kept (obj ∈ (s.nodes (s.rep ptr)).ptsSet ∨ ∀ kind, (s.nodes (s.rep ptr)).derefs kind = []) s
      (s.addPointee ptr obj) := by
  rw [addPointee]
  split_ifs with hobj
  · exact ⟨Ext.refl s, id, id, fun _ hd _ => hd⟩
  · have hgrown : Grown (s.rep ptr) {obj} s ((s.addPts (s.rep ptr) {obj}).push (s.rep ptr)) :=
      { Grown.of_addPts (s.rep ptr) {obj} s with }
    refine ⟨Ext.of_grown hgrown, fun h => ?_, fun hl => hgrown.links hl, fun hok hd hl => ?_⟩
    · refine (Sched.addPts h (s.rep ptr) {obj}).push fun u _ hu => ?_
      rw [addPts_rep, rep_rep]
      exact hu.elim False.elim Or.inr
    · refine hgrown.derefs_of_new hd hl (s.rep_rep ptr) fun o _ kind x hx => ?_
      rw [(hok.resolve_left hobj) kind] at hx
      cases hx

/-- A load or a store. -/
theorem addLoadOrStore_kept {kind : DerefKind} (hkind : kind.dual = none) (ptr x : Fin n)
    (s : SolverData n) : Kept True s ((s.addAssignEdges (derefEdges kind
      (elems (s.nodes (s.rep ptr)).ptsSet) (s.rep x) [])).addDeref kind (s.rep ptr) (s.rep x)) := by
  obtain ⟨hframe, hsched, hedge⟩ := addAssignEdges_spec
    (derefEdges kind (elems (s.nodes (s.rep ptr)).ptsSet) (s.rep x) []) s
  have hrecord := addDeref_frame kind (s.rep ptr) (s.rep x) (addAssignEdges (derefEdges kind
    (elems (s.nodes (s.rep ptr)).ptsSet) (s.rep x) []) s)
  refine kept_of_records (N := fun v kind' y => v = s.rep ptr ∧ kind' = kind ∧ y = s.rep x)
    (hframe.toEdgeFrame.trans hrecord) (fun h => addDeref_sched (hsched _ _ h) _ _ _)
    (fun v kind' y => ?_) ?_ ?_
  · rw [mem_addDeref, hframe.derefs]
  · rintro v kind' y ⟨rfl, rfl, rfl⟩ o ho e he
    refine hrecord.edge (hedge e (mem_derefEdges.2 ⟨o, mem_elems.2 ho, ?_⟩))
    rwa [derefEdges_of_dual_none hkind _ _ _ []] at he
  · rintro v kind' kind'' y - ⟨-, rfl, -⟩ hdual
    rw [hkind] at hdual
    cases hdual

theorem addLoadOrStore_recorded {kind : DerefKind} {edges : List (Fin n × Fin n)} (ptr x : Fin n)
    (s : SolverData n) :
    let s' := (s.addAssignEdges edges).addDeref kind (s.rep ptr) (s.rep x)
    ∃ y ∈ (s'.nodes (s'.rep ptr)).derefs kind, s'.rep y = s'.rep x := by
  intro s'
  have hrep : ∀ v, s'.rep v = s.rep v := fun v =>
    ((addDeref_frame ..).rep v).trans ((addAssignEdges_spec edges s).1.rep v)
  refine ⟨s.rep x, ?_, by rw [hrep, hrep, rep_rep]⟩
  rw [hrep]
  exact mem_addDeref.2 (Or.inr ⟨rfl, rfl, rfl⟩)

theorem addMemCopy_kept (srcPtr dstPtr : Fin n) (s : SolverData n) :
    Kept True s (s.addMemCopy srcPtr dstPtr) := by
  obtain ⟨s₁, hs₁⟩ : ∃ s₁, s₁ = s.addAssignEdges (derefEdges .memCopyAsSrc
      (elems (s.nodes (s.rep srcPtr)).ptsSet) (s.rep dstPtr)
      (elems (s.nodes (s.rep dstPtr)).ptsSet)) := ⟨_, rfl⟩
  obtain ⟨hframe, hsched, hedge⟩ := addAssignEdges_spec (derefEdges .memCopyAsSrc
    (elems (s.nodes (s.rep srcPtr)).ptsSet) (s.rep dstPtr) (elems (s.nodes (s.rep dstPtr)).ptsSet)) s
  rw [← hs₁] at hframe hsched hedge
  have hrecord := (addDeref_frame .memCopyAsSrc (s.rep srcPtr) (s.rep dstPtr) s₁).trans
    (addDeref_frame .memCopyAsDst (s.rep dstPtr) (s.rep srcPtr) _)
  simp only [addMemCopy, ← hs₁]
  refine kept_of_records (N := fun v kind y =>
      v = s.rep srcPtr ∧ kind = .memCopyAsSrc ∧ y = s.rep dstPtr ∨
        v = s.rep dstPtr ∧ kind = .memCopyAsDst ∧ y = s.rep srcPtr)
    (hframe.toEdgeFrame.trans hrecord)
    (fun h => addDeref_sched (addDeref_sched (hsched _ _ h) _ _ _) _ _ _) (fun v kind y => ?_) ?_ ?_
  · rw [mem_addDeref, mem_addDeref, hframe.derefs, or_assoc]
  · have hall : ∀ o₁ ∈ (s.nodes (s.rep srcPtr)).ptsSet, ∀ o₂ ∈ (s.nodes (s.rep dstPtr)).ptsSet,
        Edge ((s₁.addDeref .memCopyAsSrc (s.rep srcPtr) (s.rep dstPtr)).addDeref .memCopyAsDst
          (s.rep dstPtr) (s.rep srcPtr)) o₁ o₂ := fun o₁ h₁ o₂ h₂ => by
      refine hrecord.edge (hedge (o₁, o₂) ?_)
      simpa [derefEdges] using ⟨h₁, h₂⟩
    rintro v kind y (⟨rfl, rfl, rfl⟩ | ⟨rfl, rfl, rfl⟩) o ho ⟨e₁, e₂⟩ he
    · simp [derefEdges] at he
      exact hall _ (he.2 ▸ ho) _ he.1
    · simp [derefEdges] at he
      exact hall _ he.1 _ (he.2 ▸ ho)
  · rintro v kind kind' y hv (⟨rfl, rfl, rfl⟩ | ⟨rfl, rfl, rfl⟩) hdual
    · cases hdual
      exact ⟨s.rep srcPtr, Or.inr ⟨s.rep_rep dstPtr, rfl, rfl⟩, s.rep_rep srcPtr⟩
    · cases hdual
      exact ⟨s.rep dstPtr, Or.inl ⟨s.rep_rep srcPtr, rfl, rfl⟩, s.rep_rep dstPtr⟩

theorem merge_rep (a b : Fin n) (s : SolverData n) : (s.merge a b).rep a = (s.merge a b).rep b := by
  rw [merge]
  split_ifs with hab
  · exact hab
  · obtain ⟨r, k, hrk, h, -⟩ := mergeReps_spec (s.rep_rep a) (s.rep_rep b) hab
    rw [h.rep, h.rep]
    rcases hrk with ⟨rfl, rfl⟩ | ⟨rfl, rfl⟩
    · rw [if_neg hab, if_pos rfl]
    · rw [if_pos rfl, if_neg fun h => hab h.symm]

theorem merge_kept (a b : Fin n) (s : SolverData n) : Kept (MergeOk a b s) s (s.merge a b) := by
  rw [merge]
  split_ifs with hab
  · exact ⟨Ext.refl s, id, id, fun _ hd _ => hd⟩
  · obtain ⟨r, k, hrk, hunified, hderefs⟩ := mergeReps_spec (s.rep_rep a) (s.rep_rep b) hab
    have hr : s.rep r = r ∧ s.rep k = k ∧ r ≠ k := by
      rcases hrk with ⟨rfl, rfl⟩ | ⟨rfl, rfl⟩
      · exact ⟨s.rep_rep a, s.rep_rep b, hab⟩
      · exact ⟨s.rep_rep b, s.rep_rep a, fun h => hab h.symm⟩
    refine ⟨Ext.of_unified hunified hr.2.2, fun h => hunified.sched _ _ h,
      fun hl => hunified.links hr.1 hr.2.1 hr.2.2 hl, fun hok hd hl => hderefs hd hl ?_⟩
    rwa [MergeOk, rep_rep, rep_rep]

end SolverData

/-- An insertion keeps what is there, and is recorded. -/
theorem Constraint.insert_spec (c : Constraint n) (s : SolverData n) :
    Kept (c.InsertOk s) s (c.insert s) ∧ c.Recorded (c.insert s) := by
  cases c with
  | addPointee ptr obj =>
    refine ⟨addPointee_kept ptr obj s, ?_⟩
    simp only [insert, SolverData.addPointee, Recorded]
    split_ifs with hobj
    · exact hobj
    · rw [push_nodes, push_rep, addPts_rep, addPts_ptsSet, if_pos rfl]
      exact Finset.mem_union_right _ (Finset.mem_singleton_self obj)
  | addAssignEdge src dst => exact ⟨addAssignEdge_kept src dst s, s.addAssignEdge_edge src dst⟩
  | addLoad ptr dst => exact ⟨addLoadOrStore_kept rfl ptr dst s, addLoadOrStore_recorded ptr dst s⟩
  | addStore ptr src => exact ⟨addLoadOrStore_kept rfl ptr src s, addLoadOrStore_recorded ptr src s⟩
  | addMemCopy srcPtr dstPtr =>
    refine ⟨addMemCopy_kept srcPtr dstPtr s, ?_⟩
    have hrep : ∀ v, ((addMemCopy srcPtr dstPtr).insert s).rep v = s.rep v := fun v => by
      simp only [insert, SolverData.addMemCopy]
      rw [(addDeref_frame ..).rep, (addDeref_frame ..).rep, (addAssignEdges_spec ..).1.rep]
    refine ⟨s.rep dstPtr, ?_, by rw [hrep, hrep, rep_rep]⟩
    rw [hrep]
    exact mem_addDeref.2 (Or.inl (mem_addDeref.2 (Or.inr ⟨rfl, rfl, rfl⟩)))
  | merge a b => exact ⟨merge_kept a b s, s.merge_rep a b⟩

namespace SolverData

/-! ### The loop of `propagate` -/

/-- What `u` still has to send in a round: `objs`, to the destinations `dsts`. -/
def Unsent (u : Fin n) (objs : Finset (Fin n)) (dsts : List (Fin n)) (s : SolverData n) :
    Fin n → Fin n → Fin n → Prop :=
  fun v o d => v = u ∧ o ∈ objs ∧ ∃ x ∈ dsts, s.rep x = s.rep d

/-- The state of a round, in which `u` is a representative that sends `objs` to `dsts`. -/
structure Sending (objs : Finset (Fin n)) (dsts : List (Fin n)) (r : Fin n × SolverData n) : Prop where
  rep : r.2.rep r.1 = r.1
  sched : Sched (Unsent r.1 objs dsts r.2) (fun _ => False) r.2

/-- A destination that has all of `objs` is done. -/
theorem Sending.tail {objs : Finset (Fin n)} {d : Fin n} {dsts : List (Fin n)}
    {r : Fin n × SolverData n} (h : Sending objs (d :: dsts) r)
    (hd : r.2.rep d = r.1 ∨ objs ⊆ (r.2.nodes (r.2.rep d)).ptsSet) : Sending objs dsts r := by
  refine ⟨h.rep, h.sched.mono ?_ fun _ => id⟩
  rintro u o x _ ho _ ⟨rfl, hobj, y, hy, hyx⟩
  rcases List.mem_cons.1 hy with rfl | hy
  · left
    rw [← hyx]
    rcases hd with hd | hd
    · rwa [hd]
    · exact hd hobj
  · exact Or.inr ⟨rfl, hobj, y, hy, hyx⟩

/-- Merging the source with another node. -/
theorem Sending.merge {objs : Finset (Fin n)} {dsts : List (Fin n)} {u : Fin n} (v : Fin n)
    (h : Sending objs dsts (u, s)) : Sending objs dsts ((s.merge u v).rep u, s.merge u v) := by
  have hext := (merge_kept u v s).ext
  refine ⟨rep_rep _ _, Sched.mono (P := Unsent u objs dsts s) ?_ ?_ fun _ => id⟩
  · rw [SolverData.merge]
    split_ifs with huv
    · exact h.sched
    · obtain ⟨r, k, -, hunified, -⟩ := mergeReps_spec (s.rep_rep u) (s.rep_rep v) huv
      exact hunified.sched _ _ h.sched
  · rintro w o d hw - - ⟨rfl, ho, x, hx, hxd⟩
    exact Or.inr ⟨hw.symm, ho, x, hx, hext.rep_eq hxd⟩

/-- What a destination does: nothing, or new pointees arrive there, or a cycle is collapsed. -/
theorem visitDst_cases (objs : Finset (Fin n)) (u : Fin n) (s : SolverData n) (d : Fin n) :
    (visitDst objs (u, s) d = (u, s) ∧ (s.rep d = u ∨ objs ⊆ (s.nodes (s.rep d)).ptsSet)) ∨
      (s.rep d ≠ u ∧ ¬objs ⊆ (s.nodes (s.rep d)).ptsSet ∧ visitDst objs (u, s) d =
        (u, (s.mergeWithDiff (s.rep d) objs).1.push (s.rep d))) ∨
      (s.rep d ≠ u ∧ objs ⊆ (s.nodes (s.rep d)).ptsSet ∧ u ∈ (s.nodes (s.rep d)).assignDsts ∧
        visitDst objs (u, s) d =
          ((s.merge u (s.rep d)).rep u, s.merge u (s.rep d))) := by
  have hmerged := mergeWithDiff_spec (s.rep d) objs s
  simp only [visitDst]
  by_cases hv : s.rep d = u
  · exact Or.inl ⟨if_pos hv, Or.inl hv⟩
  rw [if_neg hv]
  by_cases hsub : objs ⊆ (s.nodes (s.rep d)).ptsSet
  · have hflag : ¬(s.mergeWithDiff (s.rep d) objs).2 = true := fun h => hmerged.flag.1 h hsub
    rw [if_neg hflag, hmerged.same hsub]
    split_ifs with hcycle
    · exact Or.inr (Or.inr ⟨hv, hsub, hcycle, rfl⟩)
    · exact Or.inl ⟨rfl, Or.inr hsub⟩
  · rw [if_pos (hmerged.flag.2 hsub)]
    exact Or.inr (Or.inl ⟨hv, hsub, rfl⟩)

theorem visitDst_spec {objs : Finset (Fin n)} {d : Fin n} {dsts : List (Fin n)}
    {r : Fin n × SolverData n} (h : Sending objs (d :: dsts) r) :
    Sending objs dsts (visitDst objs r d) ∧ Ext r.2 (visitDst objs r d).2 ∧
      (Links r.2 → Links (visitDst objs r d).2) ∧
      (VisitOk objs r d → Derefs r.2 → Links r.2 → Derefs (visitDst objs r d).2) := by
  obtain ⟨u, s⟩ := r
  rcases visitDst_cases objs u s d with ⟨heq, hdone⟩ | ⟨hv, hnew, heq⟩ | ⟨hv, hsub, hcycle, heq⟩
  · rw [heq]
    exact ⟨h.tail hdone, Ext.refl s, id, fun _ hd _ => hd⟩
  · have hmerged := mergeWithDiff_spec (s.rep d) objs s
    have hgrown : Grown (s.rep d) objs s ((s.mergeWithDiff (s.rep d) objs).1.push (s.rep d)) :=
      { hmerged.grown with }
    rw [heq]
    refine ⟨Sending.tail (d := d) ⟨(hgrown.rep u).trans h.rep, ?_⟩ (Or.inr ?_),
      Ext.of_grown hgrown, hgrown.links, fun hok hd hl => ?_⟩
    · refine ((hmerged.sched _ _ h.sched).mono ?_ fun _ => id).push fun w _ hw => Or.inr ?_
      · rintro w o y - - - ⟨rfl, ho, x, hx, hxy⟩
        refine Or.inr ⟨rfl, ho, x, hx, ?_⟩
        rw [push_rep, push_rep, hmerged.grown.rep, hmerged.grown.rep, hxy]
      · rw [hmerged.grown.rep, rep_rep]
        exact hw.resolve_left False.elim
    · rw [hgrown.rep, hgrown.ptsSet, if_pos rfl]
      exact Finset.subset_union_right
    · simp only [VisitOk, if_neg hnew] at hok
      exact hmerged.derefs _ (s.rep_rep d) hd hl fun _ => hok hv
  · have hkept := merge_kept u (s.rep d) s
    rw [heq]
    refine ⟨(h.tail (Or.inr hsub)).merge (s.rep d), hkept.ext, hkept.links, fun hok hd hl => ?_⟩
    simp only [VisitOk, if_pos hsub] at hok
    exact hkept.derefs (hok hv hcycle) hd hl

theorem visits_spec {objs : Finset (Fin n)} {dsts : List (Fin n)} {r : Fin n × SolverData n}
    (h : Sending objs dsts r) :
    let r' := dsts.foldl (visitDst objs) r
    Sending objs [] r' ∧ Ext r.2 r'.2 ∧ (Links r.2 → Links r'.2) ∧
      (VisitsOk objs dsts r → Derefs r.2 → Links r.2 → Derefs r'.2) := by
  induction dsts generalizing r with
  | nil => exact ⟨h, Ext.refl r.2, id, fun _ hd _ => hd⟩
  | cons d dsts ih =>
    obtain ⟨hsend, hext, hlinks, hderefs⟩ := visitDst_spec h
    obtain ⟨hsend', hext', hlinks', hderefs'⟩ := ih hsend
    exact ⟨hsend', hext.trans hext', fun hl => hlinks' (hlinks hl),
      fun hok hd hl => hderefs' hok.2 (hderefs hok.1 hd hl) (hlinks hl)⟩

/-- The start of a round: the pending pointees of `u` are taken. -/
theorem sending_start {w : Fin n} {rest : List (Fin n)} (h : Scheduled s)
    (hlist : s.propWorklist = w :: rest) :
    Sending (s.nodes (s.rep w)).pendingPts ((s.nodes (s.rep w)).assignDsts.map s.rep)
      (s.rep w, { s with propWorklist := rest }.setNode (s.rep w) fun info =>
        { info with pendingPts := ∅ }) := by
  have hnode : ∀ {v}, v ≠ s.rep w → ({ s with propWorklist := rest }.setNode (s.rep w) fun info =>
      { info with pendingPts := ∅ }).nodes v = s.nodes v := fun hv => setNode_of_ne hv _ _
  have hpts : ∀ v, (({ s with propWorklist := rest }.setNode (s.rep w) fun info =>
      { info with pendingPts := ∅ }).nodes v).ptsSet = (s.nodes v).ptsSet := by
    intro v
    by_cases hv : v = s.rep w
    · rw [hv, setNode_self]
    · rw [hnode hv]
  refine ⟨s.rep_rep w, fun v hv o ho hpend d hd => ?_, fun v hv hne => Or.inr ?_⟩
  · have hd' : d ∈ (s.nodes v).assignDsts := by
      by_cases hvw : v = s.rep w
      · rwa [hvw, setNode_self, ← hvw] at hd
      · rwa [hnode hvw] at hd
    rw [hpts] at ho ⊢
    by_cases ho' : o ∈ (s.nodes v).pendingPts
    · by_cases hvw : v = s.rep w
      · rw [hvw] at ho' hd'
        exact Or.inr ⟨hvw, ho', s.rep d, List.mem_map_of_mem hd', s.rep_rep d⟩
      · rw [hnode hvw] at hpend
        exact absurd ho' hpend
    · exact Or.inl ((h.sent v hv o ho ho' d hd').resolve_right id)
  · have hvw : v ≠ s.rep w := by
      rintro rfl
      rw [setNode_self] at hne
      exact Finset.not_nonempty_empty hne
    rw [hnode hvw] at hne
    obtain ⟨x, hx, hxv⟩ := (h.queued v hv hne).resolve_left id
    rw [hlist] at hx
    rcases List.mem_cons.1 hx with rfl | hx
    · exact absurd hxv.symm hvw
    · exact ⟨x, hx, hxv⟩

theorem Sending.scheduled {objs : Finset (Fin n)} {r : Fin n × SolverData n}
    (h : Sending objs [] r) : Scheduled r.2 := by
  refine h.sched.mono ?_ fun _ => id
  rintro u o d - - - ⟨-, -, x, hx, -⟩
  cases hx

/-- A round of `propagate`, for the node on top of the work list. -/
theorem propagateRound_kept {w : Fin n} {rest : List (Fin n)} (h : Scheduled s)
    (hlist : s.propWorklist = w :: rest) : Kept (RoundOk w { s with propWorklist := rest }) s
      (propagateRound w { s with propWorklist := rest }) := by
  simp only [propagateRound]
  split_ifs with hempty
  · refine ⟨Ext.of_edgeFrame ⟨rfl, fun _ => rfl, fun _ _ hd => hd⟩ fun _ _ _ hx => hx,
      fun _ => ⟨h.sent, fun v hv hne => ?_⟩, id, fun _ hd _ => hd⟩
    obtain ⟨x, hx, hxv⟩ := (h.queued v hv hne).resolve_left id
    rw [hlist] at hx
    rcases List.mem_cons.1 hx with rfl | hx
    · obtain rfl : s.rep x = v := hxv
      exact absurd hempty hne.ne_empty
    · exact Or.inr ⟨x, hx, hxv⟩
  · have hgrown : Grown (s.rep w) ∅ s ({ s with propWorklist := rest }.setNode (s.rep w) fun info =>
        { info with pendingPts := ∅ }) := by
      refine ⟨rfl, fun v => ?_, fun v => ?_, fun v d hd => ?_⟩
      all_goals by_cases hv : v = s.rep w
      · subst hv
        simp
      · rw [setNode_of_ne hv, if_neg hv]
      · subst hv
        simp
      · rw [setNode_of_ne hv]
      · subst hv
        simpa using hd
      · rwa [setNode_of_ne hv]
    obtain ⟨hsend, hext, hlinks, hderefs⟩ := visits_spec (sending_start h hlist)
    refine ⟨(Ext.of_grown hgrown).trans hext, fun _ => hsend.scheduled,
      fun hl => hlinks (hgrown.links hl), fun hok hd hl => hderefs hok ?_ (hgrown.links hl)⟩
    exact hgrown.derefs_of_new hd hl (s.rep_rep w) (by simp)

end SolverData

end Phasar.Andersen
