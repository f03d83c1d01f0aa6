import Phasar.Pointer.AndersenEdges

/-!
# Merged nodes of the Andersen solver

What `merge` keeps: the edges, the pointees and the constraints of both nodes belong to the
representative afterwards, and all edges of its constraints are there if no operand that is read is
stale.

* `Moved`: the constraints of the other node are taken over;
* `Unified`, `mergeReps_spec`: the whole step.
-/

namespace Phasar.Andersen

namespace SolverData

variable {n : ℕ} {s s' s'' : SolverData n} {P : Fin n → Fin n → Fin n → Prop} {Q : Fin n → Prop}

/-- All edges of load, store and memcpy constraints are there. -/
def Derefs (s : SolverData n) : Prop := DerefsOn (fun _ _ => True) s

/-- Both operands of every memcpy record it. -/
def Links (s : SolverData n) : Prop := LinksOn (fun _ _ => True) s

theorem Edge.congr {a b a' b' : Fin n} (h : Edge s a b) (ha : s.rep a = s.rep a')
    (hb : s.rep b = s.rep b') : Edge s a' b' := by
  rwa [Edge, ← ha, ← hb]

/-! ### Constraints that are recorded -/

theorem addDeref_node (kind : DerefKind) (v x : Fin n) (s : SolverData n) (w : Fin n) :
    ((s.addDeref kind v x).nodes w).ptsSet = (s.nodes w).ptsSet ∧
      ((s.addDeref kind v x).nodes w).pendingPts = (s.nodes w).pendingPts ∧
      ((s.addDeref kind v x).nodes w).assignDsts = (s.nodes w).assignDsts := by
  rw [addDeref]
  split_ifs
  · exact ⟨rfl, rfl, rfl⟩
  · by_cases hw : w = v
    · subst hw
      simp
    · simp [setNode_of_ne hw]

theorem addDeref_sccUf (kind : DerefKind) (v x : Fin n) (s : SolverData n) :
    (s.addDeref kind v x).sccUf = s.sccUf := by
  rw [addDeref]
  split_ifs <;> rfl

theorem addDeref_propWorklist (kind : DerefKind) (v x : Fin n) (s : SolverData n) :
    (s.addDeref kind v x).propWorklist = s.propWorklist := by
  rw [addDeref]
  split_ifs <;> rfl

theorem mem_addDeref {kind kind' : DerefKind} {v x w y : Fin n} :
    y ∈ ((s.addDeref kind v x).nodes w).derefs kind' ↔
      y ∈ (s.nodes w).derefs kind' ∨ w = v ∧ kind' = kind ∧ y = x := by
  rw [addDeref]
  split_ifs with hx
  · refine ⟨Or.inl, ?_⟩
    rintro (hy | ⟨rfl, rfl, rfl⟩)
    · exact hy
    · exact hx
  · by_cases hw : w = v
    · subst hw
      by_cases hkind : kind' = kind
      · subst hkind
        simp
      · simp [hkind]
    · simp [setNode_of_ne hw, hw]

theorem addDeref_frame (kind : DerefKind) (v x : Fin n) (s : SolverData n) :
    EdgeFrame s (s.addDeref kind v x) where
  sccUf := s.addDeref_sccUf kind v x
  ptsSet w := (s.addDeref_node kind v x w).1
  assignDsts w d hd := by rwa [(s.addDeref_node kind v x w).2.2]

/-- Only the pointees, the edges and the work list matter, and only for representatives. -/
theorem Sched.congr (h : Sched P Q s) (hrep : ∀ v, s'.rep v = s.rep v)
    (hnode : ∀ v, s.rep v = v → (s'.nodes v).ptsSet = (s.nodes v).ptsSet ∧
      (s'.nodes v).pendingPts = (s.nodes v).pendingPts ∧
      (s'.nodes v).assignDsts = (s.nodes v).assignDsts)
    (hlist : s'.propWorklist = s.propWorklist) : Sched P Q s' where
  sent u hu o ho hpend d hd := by
    rw [hrep] at hu
    obtain ⟨hpts, hpending, hdsts⟩ := hnode u hu
    rw [hpts] at ho
    rw [hpending] at hpend
    rw [hdsts] at hd
    rw [hrep, (hnode _ (s.rep_rep d)).1]
    exact h.sent u hu o ho hpend d hd
  queued u hu hne := by
    rw [hrep] at hu
    rw [(hnode u hu).2.1] at hne
    rw [hlist]
    refine (h.queued u hu hne).imp_right fun ⟨w, hw, heq⟩ => ⟨w, hw, ?_⟩
    rw [hrep, heq]

theorem addDeref_sched (h : Sched P Q s) (kind : DerefKind) (v x : Fin n) :
    Sched P Q (s.addDeref kind v x) :=
  h.congr (s.addDeref_frame kind v x).rep (fun w _ => s.addDeref_node kind v x w)
    (s.addDeref_propWorklist kind v x)

/-! ### Constraints that are taken over -/

/-- A step that moves the constraints `L` to `v`, and fires those that are new there. -/
structure Moved (v : Fin n) (objs : List (Fin n)) (L : DerefKind → Fin n → Prop)
    (s s' : SolverData n) : Prop extends EdgeFrame s s' where
  sched : ∀ P Q, Sched P Q s → Sched P Q s'
  derefs : ∀ w kind x, x ∈ (s'.nodes w).derefs kind ↔
    x ∈ (s.nodes w).derefs kind ∨ w = v ∧ L kind x
  edges : ∀ kind x, L kind x → x ∉ (s.nodes v).derefs kind →
    ∀ e ∈ derefEdges kind objs x (elems (s.nodes x).ptsSet), Edge s' e.1 e.2

namespace Moved

variable {v : Fin n} {objs : List (Fin n)} {L L' : DerefKind → Fin n → Prop}

theorem refl (s : SolverData n) (h : ∀ kind x, ¬L kind x) : Moved v objs L s s where
  toEdgeFrame := EdgeFrame.refl s
  sched _ _ hs := hs
  derefs w kind x := by simp [h kind x]
  edges kind x hx := absurd hx (h kind x)

theorem trans (h : Moved v objs L s s') (h' : Moved v objs L' s' s'') :
    Moved v objs (fun kind x => L kind x ∨ L' kind x) s s'' where
  toEdgeFrame := h.toEdgeFrame.trans h'.toEdgeFrame
  sched P Q hs := h'.sched P Q (h.sched P Q hs)
  derefs w kind x := by
    rw [h'.derefs, h.derefs]
    tauto
  edges kind x hL hx e he := by
    by_cases hmoved : L kind x
    · exact h'.edge (h.edges kind x hmoved hx e he)
    · refine h'.edges kind x (hL.resolve_left hmoved) (fun hx' => ?_) e ?_
      · exact ((h.derefs v kind x).1 hx').elim hx fun hx' => hmoved hx'.2
      · rwa [h.ptsSet]

theorem congr (h : Moved v objs L s s') (hL : ∀ kind x, L kind x ↔ L' kind x) :
    Moved v objs L' s s' where
  toEdgeFrame := h.toEdgeFrame
  sched := h.sched
  derefs w kind x := by rw [h.derefs, hL]
  edges kind x hx := h.edges kind x ((hL kind x).2 hx)

end Moved

theorem transfer_spec (kind : DerefKind) (v : Fin n) (objs : List (Fin n)) (s : SolverData n)
    (x : Fin n) : Moved v objs (fun kind' y => kind' = kind ∧ y = x) s (transfer kind v objs s x) := by
  rw [transfer]
  split_ifs with hx
  · refine ⟨EdgeFrame.refl s, fun _ _ h => h, fun w kind' y => ?_, ?_⟩
    · refine ⟨Or.inl, ?_⟩
      rintro (hy | ⟨rfl, rfl, rfl⟩)
      · exact hy
      · exact hx
    · rintro kind' y ⟨rfl, rfl⟩ hy
      exact absurd hx hy
  · obtain ⟨hframe, hsched, hedge⟩ := addAssignEdges_spec
      (derefEdges kind objs x (elems (s.nodes x).ptsSet)) (s.addDeref kind v x)
    refine ⟨(s.addDeref_frame kind v x).trans hframe.toEdgeFrame,
      fun P Q h => hsched P Q (addDeref_sched h kind v x), fun w kind' y => ?_, ?_⟩
    · rw [hframe.derefs, mem_addDeref]
    · rintro kind' y ⟨rfl, rfl⟩ _ e he
      exact hedge e he

theorem foldl_transfer_spec (kind : DerefKind) (v : Fin n) (objs : List (Fin n)) :
    ∀ (l : List (Fin n)) (s : SolverData n),
      Moved v objs (fun kind' y => kind' = kind ∧ y ∈ l) s (l.foldl (transfer kind v objs) s)
  | [], s => Moved.refl s (by simp)
  | x :: l, s => by
    refine ((transfer_spec kind v objs s x).trans (foldl_transfer_spec kind v objs l _)).congr ?_
    intro kind' y
    rw [List.mem_cons]
    tauto

theorem transferAll_spec (v : Fin n) (nonRep : NodeInfo n) (s : SolverData n) :
    Moved v (elems (s.nodes v).ptsSet) (fun kind x => x ∈ nonRep.derefs kind) s
      (s.transferAll v nonRep) := by
  have hmove := fun kind => foldl_transfer_spec kind v (elems (s.nodes v).ptsSet) (nonRep.derefs kind)
  refine ((((hmove .loadDsts s).trans (hmove .storeSrcs _)).trans (hmove .memCopyAsSrc _)).trans
    (hmove .memCopyAsDst _)).congr fun kind x => ?_
  cases kind <;> simp

/-! ### The whole step -/

/-- The node `k` is joined to `r`, and keeps its pointees until they are moved. -/
structure Joined (r k : Fin n) (s s' : SolverData n) : Prop where
  rep : ∀ v, s'.rep v = if s.rep v = k then r else s.rep v
  ptsSet : ∀ v, (s'.nodes v).ptsSet = (s.nodes v).ptsSet
  derefs : ∀ v, v ≠ k → (s'.nodes v).derefs = (s.nodes v).derefs
  edge : ∀ a b, Edge s a b → Edge s' a b
  sched : ∀ P Q, Sched P Q s →
    Sched (fun u o d => P u o d ∨ s'.rep d = r ∧ o ∈ (s.nodes k).ptsSet) Q s'

theorem rep_iff_of_joined {r k : Fin n} {f : Fin n → Fin n} (hr : s.rep r = r) (hrk : r ≠ k)
    (hf : ∀ v, f v = if s.rep v = k then r else s.rep v) (v : Fin n) :
    f v = v ↔ s.rep v = v ∧ v ≠ k := by
  rw [hf]
  split_ifs with hv
  · constructor
    · rintro rfl
      exact absurd (hr.symm.trans hv) hrk
    · rintro ⟨hrep, hne⟩
      exact absurd (hrep.symm.trans hv) hne
  · exact ⟨fun h => ⟨h, fun hvk => hv (h.trans hvk)⟩, And.left⟩

/-- Joining the classes, and adding the edges of `k` to `r`. -/
theorem joined_reregister {r k : Fin n} {uf : UnionFind (Fin n)} (hr : s.rep r = r) (hrk : r ≠ k)
    (huf : ∀ v, uf.find v = if s.rep v = k then r else s.rep v) {s₁ : SolverData n}
    (hs₁ : s₁ = { s with sccUf := uf }.setNode k fun info =>
      { info with assignDsts := [], derefs := fun _ => [] }) :
    Joined r k s (s₁.addAssignEdges
      (((s.nodes k).assignDsts.filter fun dst => s₁.rep dst ≠ r).map fun dst => (r, s₁.rep dst))) := by
  obtain ⟨hframe, hsched, hedge⟩ := addAssignEdges_spec
    (((s.nodes k).assignDsts.filter fun dst => s₁.rep dst ≠ r).map fun dst => (r, s₁.rep dst)) s₁
  have hrep₁ : ∀ v, s₁.rep v = if s.rep v = k then r else s.rep v := by
    rw [hs₁]
    exact huf
  have hnode : ∀ v, v ≠ k → s₁.nodes v = s.nodes v := by
    rw [hs₁]
    exact fun v hv => setNode_of_ne hv _ _
  have hpts₁ : ∀ v, (s₁.nodes v).ptsSet = (s.nodes v).ptsSet := by
    intro v
    by_cases hv : v = k
    · rw [hs₁, hv, setNode_self]
    · rw [hnode v hv]
  have heq : ∀ {a b}, s.rep a = s.rep b → s₁.rep a = s₁.rep b := by
    intro a b hab
    rw [hrep₁, hrep₁, hab]
  refine ⟨fun v => (hframe.rep v).trans (hrep₁ v), fun v => (hframe.ptsSet v).trans (hpts₁ v),
    fun v hv => ?_, fun a b hab => ?_, fun P Q h => hsched _ _ ⟨fun u hu o ho hpend d hd => ?_,
      fun u hu hne => ?_⟩⟩
  · rw [hframe.derefs, hnode v hv]
  · rcases hab with hab | ⟨d, hd, hdb⟩
    · exact hframe.edge (Or.inl (heq hab))
    · by_cases ha : s.rep a = k
      · -- the edge is one of those that were added again
        have har : s₁.rep a = r := by rw [hrep₁, if_pos ha]
        by_cases hdr : s₁.rep d = r
        · exact hframe.edge (Or.inl (har.trans (hdr.symm.trans (heq hdb))))
        · have hnew := hedge (r, s₁.rep d) (List.mem_map.2 ⟨d, List.mem_filter.2 ⟨ha ▸ hd, by
            simpa using hdr⟩, rfl⟩)
          refine hnew.congr ?_ ?_
          · rw [hframe.rep, hframe.rep, har, hrep₁, hr, if_neg hrk]
          · rw [hframe.rep, hframe.rep, rep_rep, heq hdb]
      · refine hframe.edge (Or.inr ⟨d, ?_, heq hdb⟩)
        rwa [hrep₁, if_neg ha, hnode _ ha]
  · obtain ⟨hu, huk⟩ := (rep_iff_of_joined hr hrk hrep₁ u).1 hu
    rw [hpts₁] at ho
    rw [hnode u huk] at hpend hd
    rw [hpts₁, hframe.rep]
    rcases h.sent u hu o ho hpend d hd with ho | hP
    · by_cases hdk : s.rep d = k
      · exact Or.inr (Or.inr ⟨by rw [hrep₁, if_pos hdk], hdk ▸ ho⟩)
      · left
        rwa [hrep₁, if_neg hdk]
    · exact Or.inr (Or.inl hP)
  · obtain ⟨hu, huk⟩ := (rep_iff_of_joined hr hrk hrep₁ u).1 hu
    rw [hnode u huk] at hne
    refine (h.queued u hu hne).imp_right fun ⟨w, hw, hwu⟩ => ⟨w, by rw [hs₁]; exact hw, ?_⟩
    rw [hrep₁, if_neg fun hwk => huk (hwu.symm.trans hwk), hwu]

/-- The representatives `r` and `k` are merged into `r`. -/
structure Unified (r k : Fin n) (s s' : SolverData n) : Prop where
  rep : ∀ v, s'.rep v = if s.rep v = k then r else s.rep v
  ptsSet : ∀ v, v ≠ k → (s'.nodes v).ptsSet =
    if v = r then (s.nodes r).ptsSet ∪ (s.nodes k).ptsSet else (s.nodes v).ptsSet
  derefs : ∀ v, v ≠ k → ∀ kind x, x ∈ (s'.nodes v).derefs kind ↔
    x ∈ (s.nodes v).derefs kind ∨ v = r ∧ x ∈ (s.nodes k).derefs kind
  edge : ∀ a b, Edge s a b → Edge s' a b
  sched : ∀ P Q, Sched P Q s → Sched P Q s'

/-- The operands that `merge` reads are representatives. -/
structure ReadsLive (r k : Fin n) (s s' : SolverData n) : Prop where
  new : ¬(s.nodes k).ptsSet ⊆ (s.nodes r).ptsSet → Live s'.rep s r
  taken : ∀ kind kind', kind.dual = some kind' → ∀ x ∈ (s.nodes k).derefs kind,
    x ∉ (s.nodes r).derefs kind → s'.rep x = x

namespace Unified

variable {r k : Fin n}

theorem rep_iff (h : Unified r k s s') (hr : s.rep r = r) (hrk : r ≠ k) (v : Fin n) :
    s'.rep v = v ↔ s.rep v = v ∧ v ≠ k :=
  rep_iff_of_joined hr hrk h.rep v

theorem rep_rep (h : Unified r k s s') (v : Fin n) : s'.rep (s.rep v) = s'.rep v := by
  rw [h.rep, h.rep, SolverData.rep_rep]

theorem links (h : Unified r k s s') (hr : s.rep r = r) (hk : s.rep k = k) (hrk : r ≠ k)
    (hl : Links s) : Links s' := by
  intro v hv kind kind' hdual x hx _
  obtain ⟨hv, hvk⟩ := (h.rep_iff hr hrk v).1 hv
  -- the node that recorded the constraint before
  have hold : ∃ w, s.rep w = w ∧ (if w = k then r else w) = v ∧ x ∈ (s.nodes w).derefs kind := by
    rcases (h.derefs v hvk kind x).1 hx with hx | ⟨rfl, hx⟩
    · exact ⟨v, hv, if_neg hvk, hx⟩
    · exact ⟨k, hk, if_pos rfl, hx⟩
  obtain ⟨w, hw, hwv, hx⟩ := hold
  obtain ⟨y, hy, hyw, -⟩ := hl w hw kind kind' hdual x hx trivial
  refine ⟨y, ?_, ?_, trivial⟩
  · rw [h.rep]
    split_ifs with hxk
    · exact (h.derefs r hrk kind' y).2 (Or.inr ⟨rfl, hxk ▸ hy⟩)
    · exact (h.derefs _ hxk kind' y).2 (Or.inl hy)
  · rw [h.rep, hyw, hwv]

end Unified

theorem joined_spec {a b : Fin n} (ha : s.rep a = a) (hb : s.rep b = b) (hab : a ≠ b) :
    (s.joined a b = (a, b) ∨ s.joined a b = (b, a)) ∧ ∀ v, (s.sccUf.joinMin a b).find v =
      if s.rep v = (s.joined a b).2 then (s.joined a b).1 else s.rep v := by
  have ha' : s.sccUf.find a = a := ha
  have hb' : s.sccUf.find b = b := hb
  have hjoined : ∀ {r k : Fin n}, s.sccUf.joinMin a b = s.sccUf.join r k → s.sccUf.find r = r →
      s.sccUf.find k = k → (a = r ∧ b = k ∨ a = k ∧ b = r) → s.joined a b = (r, k) := by
    rintro r k heq hr hk (⟨rfl, rfl⟩ | ⟨rfl, rfl⟩)
    · simp [joined, heq, UnionFind.find_join, hr, hk, hab]
    · simp [joined, heq, UnionFind.find_join, hr, hk, hab.symm]
  by_cases hle : a ≤ b
  · have heq : s.sccUf.joinMin a b = s.sccUf.join a b := by
      rw [UnionFind.joinMin, ha', hb', if_pos hle]
    rw [hjoined heq ha' hb' (Or.inl ⟨rfl, rfl⟩), heq]
    refine ⟨Or.inl rfl, fun v => ?_⟩
    rw [UnionFind.find_join, ha', hb', SolverData.rep]
  · have heq : s.sccUf.joinMin a b = s.sccUf.join b a := by
      rw [UnionFind.joinMin, ha', hb', if_neg hle]
    rw [hjoined heq hb' ha' (Or.inr ⟨rfl, rfl⟩), heq]
    refine ⟨Or.inr rfl, fun v => ?_⟩
    rw [UnionFind.find_join, ha', hb', SolverData.rep]

/-! The end of `merge` only touches a node that is no representative, and the work list. -/

theorem wipe_nodes {r k w : Fin n} (hw : w ≠ k) : (s.wipe r k).nodes w = s.nodes w := by
  simp only [wipe]
  split_ifs
  · exact setNode_of_ne hw _ _
  · rw [push_nodes]
    exact setNode_of_ne hw _ _

theorem wipe_rep (r k w : Fin n) : (s.wipe r k).rep w = s.rep w := by
  simp only [wipe]
  split_ifs <;> rfl

theorem wipe_edge {r k a b : Fin n} (hk : ∀ v, s.rep v ≠ k) (h : Edge s a b) :
    Edge (s.wipe r k) a b := by
  simpa only [Edge, wipe_rep, wipe_nodes (hk a)] using h

theorem wipe_sched {r k : Fin n} (hk : ∀ v, s.rep v ≠ k) (hr : s.rep r = r)
    (h : Sched P (fun u => Q u ∨ u = r) s) : Sched P Q (s.wipe r k) := by
  have hnode : ∀ v, s.rep v = v → (s.setNode k fun _ => {}).nodes v = s.nodes v := by
    intro v hv
    exact setNode_of_ne (fun hvk => hk v (hv.trans hvk)) _ _
  have hset : Sched P (fun u => Q u ∨ u = r) (s.setNode k fun _ => {}) := by
    refine h.congr (fun _ => rfl) (fun v hv => ?_) rfl
    rw [hnode v hv]
    exact ⟨rfl, rfl, rfl⟩
  simp only [wipe]
  split_ifs with hempty
  · refine ⟨hset.sent, fun u hu hne => ?_⟩
    refine (hset.queued u hu hne).imp_left fun hQ => hQ.resolve_right fun hur => ?_
    rw [hur, hempty] at hne
    exact Finset.not_nonempty_empty hne
  · refine hset.push fun u _ hu => hu.imp_right fun hur => ?_
    rw [hur, setNode_rep, hr]

section Steps

variable {r k : Fin n} {s₂ s₄ : SolverData n} {m : SolverData n × Bool}

theorem unified_of_steps (hr : s.rep r = r) (hrk : r ≠ k) (h₂ : Joined r k s s₂)
    (h₃ : Merged r (s.nodes k).ptsSet s₂ m)
    (h₄ : Moved r (elems (m.1.nodes r).ptsSet) (fun kind x => x ∈ (s.nodes k).derefs kind) m.1 s₄) :
    Unified r k s (s₄.wipe r k) := by
  have hrep : ∀ v, s₄.rep v = if s.rep v = k then r else s.rep v := fun v =>
    (h₄.rep v).trans ((h₃.grown.rep v).trans (h₂.rep v))
  have hk : ∀ v, s₄.rep v ≠ k := by
    intro v
    rw [hrep]
    split_ifs with hv
    · exact hrk
    · exact hv
  refine ⟨fun v => (wipe_rep r k v).trans (hrep v), fun v hv => ?_, fun v hv kind x => ?_,
    fun a b hab => ?_, fun P Q h => ?_⟩
  · rw [wipe_nodes hv, h₄.ptsSet, h₃.grown.ptsSet, h₂.ptsSet]
    split_ifs with hvr
    · rw [hvr]
    · rfl
  · rw [wipe_nodes hv, h₄.derefs, h₃.grown.derefs, h₂.derefs v hv]
  · exact wipe_edge hk (h₄.edge (h₃.grown.edge (h₂.edge a b hab)))
  · have h₃' := h₃.sched _ _ (h₂.sched P Q h)
    have hr₄ : s₄.rep r = r := by rw [hrep, hr, if_neg hrk]
    refine wipe_sched hk hr₄ (h₄.sched _ _ (h₃'.mono (fun u o d _ _ _ hP => ?_) fun u hu => hu))
    rcases hP with hP | ⟨hd, ho⟩
    · exact Or.inr hP
    · left
      rw [h₃.grown.rep, hd, h₃.grown.ptsSet, if_pos rfl]
      exact Finset.mem_union_right _ ho

/-- Before the constraints of `k` are moved, those with an operand in `k` are left out. -/
theorem derefsOn_of_joined (hr : s.rep r = r) (hrk : r ≠ k) (h₂ : Joined r k s s₂)
    (h₃ : Merged r (s.nodes k).ptsSet s₂ m) (hd : Derefs s) (hl : Links s)
    (hlive : ¬(s.nodes k).ptsSet ⊆ (s.nodes r).ptsSet → Live m.1.rep s r) :
    DerefsOn (fun kind x => kind.dual = none ∨ s.rep x ≠ k) m.1 := by
  have hrep := fun v => rep_iff_of_joined hr hrk h₂.rep v
  have hother : ∀ {x}, s.rep x ≠ k → s₂.rep x = s.rep x := fun hx => by rw [h₂.rep, if_neg hx]
  refine h₃.derefs _ ((hrep r).2 ⟨hr, hrk⟩) ?_ ?_ fun hnew => ?_
  · intro v hv kind x hx hC o ho e he
    obtain ⟨hv, hvk⟩ := (hrep v).1 hv
    rw [h₂.derefs v hvk] at hx
    rw [h₂.ptsSet] at ho
    refine h₂.edge _ _ (hd v hv kind x hx trivial o ho e ?_)
    rcases hC with hdual | hxk
    · rwa [derefEdges_of_dual_none hdual _ _ _ (elems (s₂.nodes (s₂.rep x)).ptsSet)]
    · rwa [hother hxk, h₂.ptsSet] at he
  · intro v hv kind kind' hdual x hx hC
    obtain ⟨hv, hvk⟩ := (hrep v).1 hv
    rw [h₂.derefs v hvk] at hx
    have hxk : s.rep x ≠ k := hC.resolve_left fun hnone => by rw [hnone] at hdual; cases hdual
    obtain ⟨y, hy, hyv, -⟩ := hl v hv kind kind' hdual x hx trivial
    have hyk : s.rep y ≠ k := by rwa [hyv]
    refine ⟨y, ?_, (hother hyk).trans hyv, Or.inr hyk⟩
    rwa [hother hxk, h₂.derefs _ hxk]
  · rw [h₂.ptsSet] at hnew
    intro kind kind' hdual x hx
    rw [h₂.derefs r hrk] at hx
    rw [← h₃.grown.rep]
    exact hlive hnew kind kind' hdual x hx

theorem derefs_of_steps (hr : s.rep r = r) (hrk : r ≠ k) (h₂ : Joined r k s s₂)
    (h₃ : Merged r (s.nodes k).ptsSet s₂ m)
    (h₄ : Moved r (elems (m.1.nodes r).ptsSet) (fun kind x => x ∈ (s.nodes k).derefs kind) m.1 s₄)
    (hd : Derefs s) (hl : Links s) (hlive : ReadsLive r k s (s₄.wipe r k)) :
    Derefs (s₄.wipe r k) := by
  have h := unified_of_steps hr hrk h₂ h₃ h₄
  have hd₃ := derefsOn_of_joined hr hrk h₂ h₃ hd hl fun hnew => by
    intro kind kind' hdual x hx
    rw [← h₄.rep, ← wipe_rep r k]
    exact hlive.new hnew kind kind' hdual x hx
  have hrep₃ : ∀ v, (s₄.wipe r k).rep v = m.1.rep v := fun v => (wipe_rep r k v).trans (h₄.rep v)
  have hrepk : ∀ v, (s₄.wipe r k).rep v ≠ k := fun v =>
    ((h.rep_iff hr hrk _).1 (SolverData.rep_rep _ v)).2
  have hpts₃ : ∀ v, v ≠ k → ((s₄.wipe r k).nodes v).ptsSet = (m.1.nodes v).ptsSet := by
    intro v hv
    rw [wipe_nodes hv, h₄.ptsSet]
  have hderefs₃ : ∀ v, v ≠ k → (m.1.nodes v).derefs = (s.nodes v).derefs := by
    intro v hv
    rw [h₃.grown.derefs, h₂.derefs v hv]
  have hedge₄ : ∀ {a b}, Edge s₄ a b → Edge (s₄.wipe r k) a b :=
    wipe_edge fun v => by rw [← wipe_rep r k]; exact hrepk v
  -- a constraint that was there, without operand in `k`
  have hold : ∀ v, (s₄.wipe r k).rep v = v → ∀ kind, ∀ x ∈ (s.nodes v).derefs kind,
      kind.dual = none ∨ s.rep x ≠ k → ∀ o ∈ ((s₄.wipe r k).nodes v).ptsSet,
      ∀ e ∈ derefEdges kind [o] x (elems ((s₄.wipe r k).nodes ((s₄.wipe r k).rep x)).ptsSet),
        Edge (s₄.wipe r k) e.1 e.2 := by
    intro v hv kind x hx hC o ho e he
    have hvk : v ≠ k := hv ▸ hrepk v
    rw [hpts₃ v hvk] at ho
    rw [hpts₃ _ (hrepk x), hrep₃] at he
    rw [hrep₃] at hv
    exact hedge₄ (h₄.edge (hd₃ v hv kind x (by rwa [hderefs₃ v hvk]) hC o ho e he))
  -- a constraint that `r` takes over
  have htaken : ∀ kind, ∀ x ∈ (s.nodes k).derefs kind, x ∉ (s.nodes r).derefs kind →
      ∀ o ∈ ((s₄.wipe r k).nodes r).ptsSet,
      ∀ e ∈ derefEdges kind [o] x (elems ((s₄.wipe r k).nodes ((s₄.wipe r k).rep x)).ptsSet),
        Edge (s₄.wipe r k) e.1 e.2 := by
    intro kind x hx hnew o ho e he
    rw [hpts₃ r hrk] at ho
    refine hedge₄ (h₄.edges kind x hx (by rwa [hderefs₃ r hrk]) e (mem_derefEdges.2
      ⟨o, mem_elems.2 ho, ?_⟩))
    cases hdual : kind.dual with
    | none => rwa [derefEdges_of_dual_none hdual _ _ _ (elems (m.1.nodes x).ptsSet)] at he
    | some kind' =>
      have hx' := hlive.taken kind kind' hdual x hx hnew
      rwa [hx', hpts₃ x (hx' ▸ hrepk x)] at he
  intro v hv kind x hx _ o ho e he
  obtain ⟨hv', hvk⟩ := (h.rep_iff hr hrk v).1 hv
  by_cases hx' : x ∈ (s.nodes v).derefs kind
  · by_cases hC : kind.dual = none ∨ s.rep x ≠ k
    · exact hold v hv kind x hx' hC o ho e he
    · -- the operand is in `k`, which recorded the memcpy as well
      rw [not_or, not_not, ← ne_eq, Option.ne_none_iff_exists'] at hC
      obtain ⟨⟨kind', hdual⟩, hxk⟩ := hC
      obtain ⟨y, hy, hyv, -⟩ := hl v hv' kind kind' hdual x hx' trivial
      have hxr : (s₄.wipe r k).rep x = r := by rw [h.rep, if_pos hxk]
      have hyv' : (s₄.wipe r k).rep y = v := by rw [h.rep, if_neg (hyv ▸ hvk), hyv]
      obtain ⟨o', ho', he⟩ := (mem_derefEdges_dual (y := y) hdual).1 he
      rw [mem_elems, hxr] at ho'
      rw [hxk] at hy
      have hback : kind'.dual = some kind := by cases kind <;> cases hdual <;> rfl
      have hsingle : e ∈ derefEdges kind [o] x [o'] :=
        (mem_derefEdges_dual hdual).2 ⟨o', List.mem_singleton_self o', he⟩
      have he' : e ∈ derefEdges kind' [o'] y
          (elems ((s₄.wipe r k).nodes ((s₄.wipe r k).rep y)).ptsSet) := by
        rw [hyv']
        exact (mem_derefEdges_dual hback).2 ⟨o, mem_elems.2 ho, hsingle⟩
      by_cases hyr : y ∈ (s.nodes r).derefs kind'
      · refine hold r ((h.rep_iff hr hrk r).2 ⟨hr, hrk⟩) kind' y hyr (Or.inr ?_) o' ho' e he'
        rwa [hyv]
      · exact htaken kind' y hy hyr o' ho' e he'
  · obtain ⟨rfl, hxk⟩ := ((h.derefs v hvk kind x).1 hx).resolve_left hx'
    exact htaken kind x hxk hx' o ho e he

end Steps

theorem mergeReps_spec {a b : Fin n} (ha : s.rep a = a) (hb : s.rep b = b) (hab : a ≠ b) :
    ∃ r k, (r = a ∧ k = b ∨ r = b ∧ k = a) ∧ Unified r k s (s.mergeReps a b) ∧
      (Derefs s → Links s → MergeOk a b s → Derefs (s.mergeReps a b)) := by
  obtain ⟨hpair, hfind⟩ := joined_spec ha hb hab
  obtain ⟨r, k, hjoined⟩ : ∃ r k, s.joined a b = (r, k) := ⟨_, _, rfl⟩
  have hrk : (r = a ∧ k = b) ∨ (r = b ∧ k = a) := by
    rw [hjoined, Prod.mk.injEq, Prod.mk.injEq] at hpair
    exact hpair
  have hr : s.rep r = r := by
    rcases hrk with ⟨rfl, -⟩ | ⟨rfl, -⟩
    · exact ha
    · exact hb
  have hne : r ≠ k := by
    rcases hrk with ⟨rfl, rfl⟩ | ⟨rfl, rfl⟩
    · exact hab
    · exact hab.symm
  rw [hjoined] at hfind
  have h₂ := joined_reregister hr hne hfind rfl
  have hunified : Unified r k s (s.mergeReps a b) := by
    simp only [mergeReps, hjoined]
    exact unified_of_steps hr hne h₂ (mergeWithDiff_spec ..) (transferAll_spec ..)
  refine ⟨r, k, hrk, hunified, fun hd hl hok => ?_⟩
  have hrep : (s.sccUf.joinMin a b).find = (s.mergeReps a b).rep := by
    funext v
    rw [hfind, hunified.rep]
  rw [MergeOk, ha, hb, hjoined, hrep] at hok
  have hlive : ReadsLive r k s (s.mergeReps a b) := ⟨(hok hab).1, (hok hab).2⟩
  simp only [mergeReps, hjoined] at hlive ⊢
  exact derefs_of_steps hr hne h₂ (mergeWithDiff_spec ..) (transferAll_spec ..) hd hl hlive

end SolverData

end Phasar.Andersen
