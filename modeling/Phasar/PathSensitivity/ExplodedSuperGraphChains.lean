import Phasar.PathSensitivity.ExplodedSuperGraph

/-!
# The exploded supergraph and its chains

Each saved edge is offered by the node of its target, or the two pairs share their node; each alternative
of the node of a pair comes from an edge into a pair that is contracted with it.

* `Rep`: the invariant;
* `Rep.chain_of_walk`, `Rep.walk_of_chain`: walks are chains;
* `Rep.save`: one step, by what it does to the graph;
* `recordsChains_iff`: what a sequence of calls records.
-/

namespace Phasar.ExplodedSuperGraph

open PathSensitivityManager Relation

section Nodes

variable {N D : Type*} {G G' : ESG N D} {v u : ℕ}

theorem mem_alternatives_refs [Inhabited N] : u ∈ alternatives G.refs v ↔ u ∈ G.neighbors v ∨ u = v := by
  simp [alternatives, ESG.refs]

theorem getElem?_append_ne {α : Type*} {l : List α} {x : α} {i : ℕ} (h : i ≠ l.length) :
    (l ++ [x])[i]? = l[i]? := by
  obtain hlt | hgt := lt_or_gt_of_ne h
  · exact List.getElem?_append_left hlt
  · rw [List.getElem?_eq_none (by rw [List.length_append]; exact hgt), List.getElem?_eq_none hgt.le]

/-- What a node offers depends on the node and its neighbors. -/
theorem offers_congr [Inhabited N] (hv : G'.nodes[v]? = G.nodes[v]?)
    (hn : ∀ u ∈ G.neighbors v, G'.nodes[u]? = G.nodes[u]?) {a : N} {w : Option ℕ} :
    Offers G' v a w ↔ Offers G v a w := by
  have hneighbors : G'.neighbors v = G.neighbors v := by rw [ESG.neighbors, hv, ESG.neighbors]
  have hnodes : ∀ u, u ∈ G.neighbors v ∨ u = v → G'.nodes[u]? = G.nodes[u]? := by
    rintro u (hu | rfl)
    · exact hn u hu
    · exact hv
  simp only [Offers, mem_alternatives_refs, hneighbors]
  refine exists_congr fun u => and_congr_right fun hu => ?_
  simp only [ESG.source, ESG.predecessor, hnodes u hu]

/-- A node without neighbors offers its own source and predecessor. -/
theorem offers_of_node [Inhabited N] {nd : Node N D} (hv : G.nodes[v]? = some nd) (hn : nd.neighbors = [])
    {a : N} {w : Option ℕ} : Offers G v a w ↔ nd.source = a ∧ nd.predecessorIdx = w := by
  have hneighbors : G.neighbors v = [] := by simp [ESG.neighbors, hv, hn]
  simp [Offers, mem_alternatives_refs, hneighbors, ESG.source, ESG.predecessor, hv]

/-! ### A new node that becomes a neighbor of `v` -/

variable {new nd : Node N D}
  (hG : G'.nodes = (G.nodes ++ [new]).modify v fun nd =>
    { nd with neighbors := nd.neighbors ++ [G.nodes.length] })

include hG

theorem getElem?_addNeighbor (hu : u ≠ v) (hlen : u ≠ G.nodes.length) :
    G'.nodes[u]? = G.nodes[u]? := by
  rw [hG, List.getElem?_modify_ne _ _ hu.symm, getElem?_append_ne hlen]

theorem getElem?_addNeighbor_new (hv : v < G.nodes.length) :
    G'.nodes[G.nodes.length]? = some new := by
  rw [hG, List.getElem?_modify_ne _ _ hv.ne, List.getElem?_concat_length]

variable (hnd : G.nodes[v]? = some nd)

include hnd

theorem getElem?_addNeighbor_self :
    G'.nodes[v]? = some { nd with neighbors := nd.neighbors ++ [G.nodes.length] } := by
  have hv : v < G.nodes.length := (List.getElem?_eq_some_iff.1 hnd).1
  rw [hG, List.getElem?_modify_eq, getElem?_append_ne hv.ne, hnd]
  rfl

theorem neighbors_addNeighbor : G'.neighbors v = G.neighbors v ++ [G.nodes.length] := by
  simp [ESG.neighbors, getElem?_addNeighbor_self hG hnd, hnd]

/-- The old nodes keep their sources and predecessors. -/
theorem node_addNeighbor [Inhabited N] (hlen : u ≠ G.nodes.length) :
    G'.source u = G.source u ∧ G'.predecessor u = G.predecessor u := by
  by_cases hu : u = v
  · simp [ESG.source, ESG.predecessor, hu, getElem?_addNeighbor_self hG hnd, hnd]
  · simp [ESG.source, ESG.predecessor, getElem?_addNeighbor hG hu hlen]

/-- The node `v` offers what the new node stands for, too. -/
theorem offers_addNeighbor [Inhabited N] (hneighbors : ∀ u ∈ G.neighbors v, u < G.nodes.length)
    {a : N} {w : Option ℕ} :
    Offers G' v a w ↔ Offers G v a w ∨ new.source = a ∧ new.predecessorIdx = w := by
  have hv : v < G.nodes.length := (List.getElem?_eq_some_iff.1 hnd).1
  have hnew : G'.source G.nodes.length = new.source ∧
      G'.predecessor G.nodes.length = new.predecessorIdx := by
    simp [ESG.source, ESG.predecessor, getElem?_addNeighbor_new hG hv]
  constructor
  · rintro ⟨u, hu, hsu, hpu⟩
    rw [mem_alternatives_refs, neighbors_addNeighbor hG hnd, List.mem_append, List.mem_singleton] at hu
    by_cases hul : u = G.nodes.length
    · subst hul
      exact Or.inr ⟨hnew.1.symm.trans hsu, hnew.2.symm.trans hpu⟩
    · have hmem : u ∈ alternatives G.refs v := mem_alternatives_refs.mpr (by tauto)
      obtain ⟨hs, hp⟩ := node_addNeighbor hG hnd hul
      exact Or.inl ⟨u, hmem, hs.symm.trans hsu, hp.symm.trans hpu⟩
  · rintro (⟨u, hu, hsu, hpu⟩ | ⟨rfl, rfl⟩)
    · have hul : u ≠ G.nodes.length := by
        obtain hu | rfl := mem_alternatives_refs.mp hu
        · exact (hneighbors u hu).ne
        · exact hv.ne
      obtain ⟨hs, hp⟩ := node_addNeighbor hG hnd hul
      refine ⟨u, ?_, hs.trans hsu, hp.trans hpu⟩
      rw [mem_alternatives_refs] at hu ⊢
      rw [neighbors_addNeighbor hG hnd, List.mem_append]
      tauto
    · refine ⟨G.nodes.length, ?_, hnew.1, hnew.2⟩
      rw [mem_alternatives_refs, neighbors_addNeighbor hG hnd]
      simp

end Nodes

section Invariant

variable {N D B : Type*} (block : N → B) (zeroValue : D) (seeds : Set (N × D))

/-- An alternative comes from a saved edge, or from a skipped one. -/
def Justified (E : List (SavedEdge N D)) (φ : N × D → Option ℕ) (q : N × D) (a : N) (w : Option ℕ) : Prop :=
  (∃ e ∈ E, ¬e.Skipped zeroValue ∧ e.tgt = q ∧ e.src.1 = a ∧
    (e.src ∈ seeds ∧ w = none ∨ e.src ∉ seeds ∧ ¬e.Contracted block zeroValue ∧ φ e.src = w)) ∨
  Pending zeroValue E q ∧ w = none

variable {block zeroValue seeds} {E : List (SavedEdge N D)}

/-- A chain can be continued along contracted edges. -/
theorem Chain.contract_trans {q q' : N × D} {l : List N} (h : Chain block zeroValue seeds E q' l)
    (hc : ReflTransGen (ContractedIn block zeroValue E) q' q) : Chain block zeroValue seeds E q l := by
  induction hc with
  | refl => exact h
  | tail _ hstep ih =>
    obtain ⟨e, he, hcontr, rfl, rfl⟩ := hstep
    exact .contract he hcontr.not_skipped hcontr ih

theorem contractedIn_mono {e : SavedEdge N D} {q q' : N × D}
    (h : ReflTransGen (ContractedIn block zeroValue E) q q') :
    ReflTransGen (ContractedIn block zeroValue (E ++ [e])) q q' :=
  ReflTransGen.mono (fun _ _ ⟨e', he', hc⟩ => ⟨e', List.mem_append_left _ he', hc⟩) q q' h

theorem contractedIn_concat {e : SavedEdge N D} (hc : e.Contracted block zeroValue) :
    ContractedIn block zeroValue (E ++ [e]) e.src e.tgt := ⟨e, by simp, hc, rfl, rfl⟩

/-- Nothing is contracted with a pair of the zero value. -/
theorem eq_of_contracted_zero {q q' : N × D} (h : ReflTransGen (ContractedIn block zeroValue E) q q')
    (hz : q.2 = zeroValue ∨ q'.2 = zeroValue) : q = q' := by
  obtain hz | hz := hz
  · obtain heq | ⟨_, ⟨e, -, hc, rfl, rfl⟩, -⟩ := h.cases_head
    · exact heq
    · exact absurd (hc.1 ▸ hz) hc.2.2
  · obtain heq | ⟨_, -, ⟨e, -, hc, rfl, rfl⟩⟩ := h.cases_tail
    · exact heq.symm
    · exact absurd hz hc.2.2

theorem Pending.zero {q : N × D} (h : Pending zeroValue E q) : q.2 = zeroValue := by
  obtain ⟨⟨e, he, rfl⟩, hall⟩ := h
  exact (hall e he rfl).2.2

theorem Pending.append {e : SavedEdge N D} {q : N × D} (h : Pending zeroValue E q)
    (he : e.tgt = q → e.Skipped zeroValue) : Pending zeroValue (E ++ [e]) q := by
  obtain ⟨⟨e', he', htgt⟩, hall⟩ := h
  refine ⟨⟨e', List.mem_append_left _ he', htgt⟩, fun e'' he'' => ?_⟩
  obtain hmem | hmem := List.mem_append.mp he''
  · exact hall e'' hmem
  · obtain rfl := List.mem_singleton.mp hmem
    exact he

theorem Justified.append {e : SavedEdge N D} {φ φ' : N × D → Option ℕ} {q : N × D} {a : N} {w : Option ℕ}
    (h : Justified block zeroValue seeds E φ q a w)
    (hφ : ∀ e' ∈ E, e'.src ∉ seeds → φ' e'.src = φ e'.src)
    (he : Pending zeroValue E q → e.tgt = q → e.Skipped zeroValue) :
    Justified block zeroValue seeds (E ++ [e]) φ' q a w := by
  obtain ⟨e', he', hskip, htgt, hsrc, hcase⟩ | ⟨hp, hw⟩ := h
  · refine Or.inl ⟨e', List.mem_append_left _ he', hskip, htgt, hsrc, hcase.imp_right ?_⟩
    rintro ⟨hns, hcontr, hnode⟩
    exact ⟨hns, hcontr, (hφ e' he' hns).trans hnode⟩
  · exact Or.inr ⟨hp.append (he hp), hw⟩

/-- The new edge justifies its own alternative. -/
theorem justified_concat {e : SavedEdge N D} {φ : N × D → Option ℕ} {w : Option ℕ}
    (hskip : ¬e.Skipped zeroValue) (hseed : e.src ∈ seeds → w = none)
    (hnode : e.src ∉ seeds → ¬e.Contracted block zeroValue ∧ φ e.src = w) :
    Justified block zeroValue seeds (E ++ [e]) φ e.tgt e.src.1 w := by
  refine Or.inl ⟨e, by simp, hskip, rfl, rfl, ?_⟩
  by_cases hs : e.src ∈ seeds
  · exact Or.inl ⟨hs, hseed hs⟩
  · exact Or.inr ⟨hs, hnode hs⟩

variable (block zeroValue seeds) in
/-- The alternative that an edge stands for, or that source and target share their node. -/
def Present [Inhabited N] (G : ESG N D) (e : SavedEdge N D) : Prop :=
  ∃ v, G.flowFactVertexMap e.tgt = some v ∧ (e.src ∈ seeds → Offers G v e.src.1 none) ∧
    (e.src ∉ seeds → e.Contracted block zeroValue → G.flowFactVertexMap e.src = some v) ∧
    (e.src ∉ seeds → ¬e.Contracted block zeroValue → Offers G v e.src.1 (G.flowFactVertexMap e.src))

/-- An edge stays present if its pairs keep their nodes, and these what they offer. -/
theorem Present.mono [Inhabited N] {G G' : ESG N D} {e : SavedEdge N D}
    (h : Present block zeroValue seeds G e)
    (htgt : G'.flowFactVertexMap e.tgt = G.flowFactVertexMap e.tgt)
    (hsrc : e.src ∉ seeds → G'.flowFactVertexMap e.src = G.flowFactVertexMap e.src)
    (hoff : ∀ v, G.flowFactVertexMap e.tgt = some v → ∀ a w, Offers G v a w → Offers G' v a w) :
    Present block zeroValue seeds G' e := by
  obtain ⟨v, hv, hseed, hshare, hoffer⟩ := h
  refine ⟨v, htgt.trans hv, fun hs => hoff v hv _ _ (hseed hs), fun hs hc => ?_, fun hs hc => ?_⟩
  · exact (hsrc hs).trans (hshare hs hc)
  · rw [hsrc hs]
    exact hoff v hv _ _ (hoffer hs hc)

variable (block zeroValue seeds) in
/-- The graph stands for the saved edges. -/
structure Rep [Inhabited N] (E : List (SavedEdge N D)) (G : ESG N D) : Prop where
  mapped : ∀ q v, G.flowFactVertexMap q = some v → v < G.nodes.length
  target : ∀ q ∉ seeds, G.flowFactVertexMap q ≠ none ↔ ∃ e ∈ E, e.tgt = q
  noSeed : ∀ e ∈ E, e.tgt ∉ seeds
  source : ∀ e ∈ E, e.src ∉ seeds → G.flowFactVertexMap e.src ≠ none
  value : ∀ q ∉ seeds, ∀ v, G.flowFactVertexMap q = some v → ∀ nd, G.nodes[v]? = some nd → nd.value = q.2
  zero : ∀ q ∉ seeds, ∀ q' ∉ seeds, q.2 = zeroValue → G.flowFactVertexMap q ≠ none →
    G.flowFactVertexMap q = G.flowFactVertexMap q' → q = q'
  neighbors : ∀ v, ∀ u ∈ G.neighbors v, u < G.nodes.length ∧ ∀ q ∉ seeds, G.flowFactVertexMap q ≠ some u
  noPred : ∀ v, G.predecessor v = none → G.neighbors v = []
  present : ∀ e ∈ E, ¬e.Skipped zeroValue → Present block zeroValue seeds G e
  justified : ∀ q ∉ seeds, ∀ v, G.flowFactVertexMap q = some v → ∀ a w, Offers G v a w →
    ∃ q', ReflTransGen (ContractedIn block zeroValue E) q' q ∧
      Justified block zeroValue seeds E G.flowFactVertexMap q' a w

variable [Inhabited N] {G : ESG N D}

theorem Rep.chain_of_walk (h : Rep block zeroValue seeds E G) (hpend : ∀ q, ¬Pending zeroValue E q)
    {w : ℕ} {l : List N} (hw : Walk G.refs (PathTracingFilter.default ℕ) w l) :
    ∀ q ∉ seeds, ∀ v, G.flowFactVertexMap q = some v → w ∈ alternatives G.refs v →
      Chain block zeroValue seeds E q l := by
  induction hw with
  | @seed w hnone _ =>
    intro q hq v hv hmem
    have hpred : G.predecessor w = none := by
      cases hp : G.predecessor w with
      | none => rfl
      | some p => simp [transitions, ESG.refs, hp] at hnone
    obtain ⟨q', hqq', hj⟩ := h.justified q hq v hv _ none ⟨w, hmem, rfl, hpred⟩
    obtain ⟨e, he, hskip, rfl, hsrc, hcase⟩ := hj.resolve_right fun hp => hpend q' hp.1
    obtain ⟨hseed, -⟩ | ⟨hns, -, hnode⟩ := hcase
    · have hchain : Chain block zeroValue seeds E e.tgt [e.src.1] := .seed he hskip hseed
      rw [hsrc] at hchain
      exact hchain.contract_trans hqq'
    · exact absurd hnode (h.source e he hns)
  | ended _ hend => cases hend
  | @step w w' l htrans _ _ _ ih =>
    intro q hq v hv hmem
    obtain ⟨p, hp, hmem'⟩ : ∃ p, G.predecessor w = some p ∧ w' ∈ alternatives G.refs p := by
      cases hp : G.predecessor w with
      | none => simp [transitions, ESG.refs, hp] at htrans
      | some p => exact ⟨p, rfl, by simpa [transitions, ESG.refs, hp] using htrans⟩
    obtain ⟨q', hqq', hj⟩ := h.justified q hq v hv _ (some p) ⟨w, hmem, rfl, hp⟩
    obtain ⟨e, he, hskip, rfl, hsrc, hcase⟩ := hj.resolve_right fun hp => hpend q' hp.1
    obtain ⟨-, hnone⟩ | ⟨hns, hcontr, hnode⟩ := hcase
    · cases hnone
    · have hchain := Chain.step he hskip hcontr (ih e.src hns p hnode hmem')
      rw [hsrc] at hchain
      exact hchain.contract_trans hqq'

theorem Rep.walk_of_chain (h : Rep block zeroValue seeds E G) {q : N × D} {l : List N}
    (hc : Chain block zeroValue seeds E q l) : ∃ v, G.flowFactVertexMap q = some v ∧
      ∃ w ∈ alternatives G.refs v, Walk G.refs (PathTracingFilter.default ℕ) w l := by
  induction hc with
  | @seed e he hskip hseed =>
    obtain ⟨v, hv, hoffer, -, -⟩ := h.present e he hskip
    obtain ⟨w, hmem, hsrc, hpred⟩ := hoffer hseed
    refine ⟨v, hv, w, hmem, ?_⟩
    rw [← hsrc]
    exact .seed (by simp [transitions, ESG.refs, hpred]) rfl
  | @step e l he hskip hcontr hchain ih =>
    have hns : e.src ∉ seeds := by
      obtain ⟨e', he', htgt⟩ := hchain.tgt_mem
      exact htgt ▸ h.noSeed e' he'
    obtain ⟨p, hp, w', hmem', hwalk⟩ := ih
    obtain ⟨v, hv, -, -, hoffer⟩ := h.present e he hskip
    obtain ⟨w, hmem, hsrc, hpred⟩ := hoffer hns hcontr
    rw [hp] at hpred
    refine ⟨v, hv, w, hmem, ?_⟩
    rw [← hsrc]
    exact .step (by simpa [transitions, ESG.refs, hpred] using hmem') rfl rfl hwalk
  | @contract e l he hskip hcontr hchain ih =>
    have hns : e.src ∉ seeds := by
      obtain ⟨e', he', htgt⟩ := hchain.tgt_mem
      exact htgt ▸ h.noSeed e' he'
    obtain ⟨p, hp, hwalk⟩ := ih
    obtain ⟨v, hv, -, hshare, -⟩ := h.present e he hskip
    obtain rfl : v = p := Option.some_inj.mp ((hshare hns hcontr).symm.trans hp)
    exact ⟨v, hv, hwalk⟩

/-! ### One step -/

theorem forall_mem_concat {α : Type*} {l : List α} {x : α} {P : α → Prop} :
    (∀ a ∈ l ++ [x], P a) ↔ (∀ a ∈ l, P a) ∧ P x := by
  simp [or_imp, forall_and]

/-- The first edge into a pair makes a node. -/
theorem Rep.insertNode (h : Rep block zeroValue seeds E G) {G' : ESG N D} {e : SavedEdge N D}
    (htgt : e.tgt ∉ seeds) (hnew : G.flowFactVertexMap e.tgt = none)
    (hsrc : e.src ∉ seeds → G.flowFactVertexMap e.src ≠ none) {p : Option ℕ}
    (hnodes : G'.nodes = G.nodes ++ [⟨e.tgt.2, e.src.1, p, []⟩])
    (hφ : G'.flowFactVertexMap e.tgt = some G.nodes.length)
    (hφ' : ∀ q ∉ seeds, q ≠ e.tgt → G'.flowFactVertexMap q = G.flowFactVertexMap q)
    (hrange : ∀ q v, G'.flowFactVertexMap q = some v → v ≤ G.nodes.length)
    (hedge : e.Skipped zeroValue ∧ p = none ∨ ¬e.Skipped zeroValue ∧ (e.src ∈ seeds → p = none) ∧
      (e.src ∉ seeds → ¬e.Contracted block zeroValue ∧ G.flowFactVertexMap e.src = p)) :
    Rep block zeroValue seeds (E ++ [e]) G' := by
  have hold : ∀ u, u ≠ G.nodes.length → G'.nodes[u]? = G.nodes[u]? := fun u hu => by
    rw [hnodes, getElem?_append_ne hu]
  have hlast : G'.nodes[G.nodes.length]? = some ⟨e.tgt.2, e.src.1, p, []⟩ := by
    rw [hnodes, List.getElem?_concat_length]
  have hnone : ∀ e' ∈ E, e'.tgt ≠ e.tgt := fun e' he' heq =>
    (h.target e.tgt htgt).mpr ⟨e', he', heq⟩ hnew
  have hne : ∀ q, G.flowFactVertexMap q ≠ none → q ≠ e.tgt := by
    rintro q hq rfl
    exact hq hnew
  have hφs : ∀ e' ∈ E, e'.src ∉ seeds → G'.flowFactVertexMap e'.src = G.flowFactVertexMap e'.src :=
    fun e' he' hs => hφ' _ hs (hne _ (h.source e' he' hs))
  -- the nodes of the other pairs, and their neighbors, are as before
  have hoff : ∀ q ∉ seeds, ∀ v, G.flowFactVertexMap q = some v → ∀ a w,
      Offers G' v a w ↔ Offers G v a w := fun q _ v hv a w =>
    offers_congr (hold v (h.mapped q v hv).ne) fun u hu => hold u (h.neighbors v u hu).1.ne
  have hnewNode : ∀ a w, Offers G' G.nodes.length a w ↔ e.src.1 = a ∧ p = w := fun a w =>
    offers_of_node hlast rfl
  refine
    { mapped := ?_, target := ?_, noSeed := ?_, source := ?_, value := ?_, zero := ?_, neighbors := ?_,
      noPred := ?_, present := ?_, justified := ?_ }
  · intro q v hv
    rw [hnodes, List.length_append]
    exact Nat.lt_succ_of_le (hrange q v hv)
  · intro q hq
    by_cases hqt : q = e.tgt
    · subst hqt
      simp [hφ]
    · rw [hφ' q hq hqt, h.target q hq]
      simp [or_and_right, exists_or, Ne.symm hqt]
  · exact forall_mem_concat.mpr ⟨h.noSeed, htgt⟩
  · refine forall_mem_concat.mpr ⟨fun e' he' hs => ?_, fun hs => ?_⟩
    · rw [hφs e' he' hs]
      exact h.source e' he' hs
    · rw [hφ' _ hs (hne _ (hsrc hs))]
      exact hsrc hs
  · intro q hq v hv nd hnd
    by_cases hqt : q = e.tgt
    · subst hqt
      obtain rfl := Option.some_inj.mp (hφ.symm.trans hv)
      obtain rfl := Option.some_inj.mp (hlast.symm.trans hnd)
      rfl
    · rw [hφ' q hq hqt] at hv
      rw [hold v (h.mapped q v hv).ne] at hnd
      exact h.value q hq v hv nd hnd
  · intro q hq q' hq' hz hmap heq
    have hfresh : ∀ r ∉ seeds, r ≠ e.tgt → G'.flowFactVertexMap r ≠ some G.nodes.length := by
      intro r hr hrt hmap
      rw [hφ' r hr hrt] at hmap
      exact (h.mapped r _ hmap).ne rfl
    by_cases hqt : q = e.tgt
    -- no other pair has the new node
    · by_cases hqt' : q' = e.tgt
      · rw [hqt, hqt']
      · exact absurd (heq.symm.trans (hqt ▸ hφ)) (hfresh q' hq' hqt')
    · by_cases hqt' : q' = e.tgt
      · exact absurd (heq.trans (hqt' ▸ hφ)) (hfresh q hq hqt)
      · rw [hφ' q hq hqt] at hmap heq
        rw [hφ' q' hq' hqt'] at heq
        exact h.zero q hq q' hq' hz hmap heq
  · intro v u hu
    have hu' : u ∈ G.neighbors v := by
      by_cases hv : v = G.nodes.length
      · simp [ESG.neighbors, hv, hlast] at hu
      · simpa only [ESG.neighbors, hold v hv] using hu
    obtain ⟨hlt, hnot⟩ := h.neighbors v u hu'
    refine ⟨by rw [hnodes, List.length_append]; exact Nat.lt_succ_of_lt hlt, fun q hq => ?_⟩
    by_cases hqt : q = e.tgt
    · subst hqt
      rw [hφ, Ne, Option.some_inj]
      exact hlt.ne'
    · rw [hφ' q hq hqt]
      exact hnot q hq
  · intro v hv
    by_cases hlen : v = G.nodes.length
    · simp [ESG.neighbors, hlen, hlast]
    · simp only [ESG.neighbors, ESG.predecessor, hold v hlen] at hv ⊢
      exact h.noPred v hv
  · refine forall_mem_concat.mpr ⟨fun e' he' hskip => ?_, fun hskip => ?_⟩
    · have hs := h.noSeed e' he'
      exact (h.present e' he' hskip).mono (hφ' _ hs (hnone e' he')) (hφs e' he') fun v hv a w =>
        (hoff _ hs v hv a w).mpr
    · obtain ⟨-, hseed, hnode⟩ := hedge.resolve_left fun hs => hskip hs.1
      refine ⟨_, hφ, fun hsd => ?_, fun hsd hc => ?_, fun hsd _ => ?_⟩
      · exact (hnewNode _ _).mpr ⟨rfl, hseed hsd⟩
      · exact absurd hc (hnode hsd).1
      · rw [hφ' _ hsd (hne _ (hsrc hsd))]
        exact (hnewNode _ _).mpr ⟨rfl, (hnode hsd).2.symm⟩
  · intro q hq v hv a w haw
    by_cases hqt : q = e.tgt
    · subst hqt
      obtain rfl := Option.some_inj.mp (hφ.symm.trans hv)
      obtain ⟨rfl, rfl⟩ := (hnewNode a w).mp haw
      refine ⟨e.tgt, .refl, ?_⟩
      -- a skipped edge leaves the new node pending; another one is what the node offers
      obtain ⟨hskip, hp⟩ | ⟨hskip, hseed, hnode⟩ := hedge
      · refine Or.inr ⟨⟨⟨e, by simp, rfl⟩, ?_⟩, hp⟩
        exact forall_mem_concat.mpr ⟨fun e' he' heq => absurd heq (hnone e' he'), fun _ => hskip⟩
      · refine justified_concat hskip hseed fun hs => ⟨(hnode hs).1, ?_⟩
        rw [hφ' _ hs (hne _ (hsrc hs))]
        exact (hnode hs).2
    · rw [hφ' q hq hqt] at hv
      obtain ⟨q', hqq', hj⟩ := h.justified q hq v hv a w ((hoff q hq v hv a w).mp haw)
      refine ⟨q', contractedIn_mono hqq', hj.append hφs fun hp ht => ?_⟩
      obtain ⟨e', he', htgt'⟩ := hp.1
      exact absurd (htgt'.trans ht.symm) (hnone e' he')

/-- An identity edge into a new pair shares the node of its source. -/
theorem Rep.share (h : Rep block zeroValue seeds E G) {G' : ESG N D} {e : SavedEdge N D}
    (htgt : e.tgt ∉ seeds) (hnew : G.flowFactVertexMap e.tgt = none) (hsrc : e.src ∉ seeds) {u : ℕ}
    (hu : G.flowFactVertexMap e.src = some u) (hcontr : e.Contracted block zeroValue)
    (hnodes : G'.nodes = G.nodes) (hφ : G'.flowFactVertexMap e.tgt = some u)
    (hφ' : ∀ q, q ≠ e.tgt → G'.flowFactVertexMap q = G.flowFactVertexMap q) :
    Rep block zeroValue seeds (E ++ [e]) G' := by
  have hold : ∀ u : ℕ, G'.nodes[u]? = G.nodes[u]? := fun u => by rw [hnodes]
  have hnone : ∀ e' ∈ E, e'.tgt ≠ e.tgt := fun e' he' heq =>
    (h.target e.tgt htgt).mpr ⟨e', he', heq⟩ hnew
  have hne : ∀ q, G.flowFactVertexMap q ≠ none → q ≠ e.tgt := by
    rintro q hq rfl
    exact hq hnew
  have hφs : ∀ e' ∈ E, e'.src ∉ seeds → G'.flowFactVertexMap e'.src = G.flowFactVertexMap e'.src :=
    fun e' he' hs => hφ' _ (hne _ (h.source e' he' hs))
  have hφsrc : G'.flowFactVertexMap e.src = some u := (hφ' _ (hne _ (by simp [hu]))).trans hu
  have hoff : ∀ v a w, Offers G' v a w ↔ Offers G v a w := fun v a w =>
    offers_congr (hold v) fun u _ => hold u
  -- every pair of a node has the value of the node, as the source has
  have hback : ∀ q v, G'.flowFactVertexMap q = some v → q ∉ seeds →
      ∃ r ∉ seeds, G.flowFactVertexMap r = some v ∧ r.2 = q.2 ∧
        ReflTransGen (ContractedIn block zeroValue (E ++ [e])) r q := by
    intro q v hv hq
    by_cases hqt : q = e.tgt
    · subst hqt
      obtain rfl := Option.some_inj.mp (hφ.symm.trans hv)
      exact ⟨e.src, hsrc, hu, hcontr.1, .single (contractedIn_concat hcontr)⟩
    · exact ⟨q, hq, (hφ' q hqt).symm.trans hv, rfl, .refl⟩
  refine
    { mapped := ?_, target := ?_, noSeed := ?_, source := ?_, value := ?_, zero := ?_, neighbors := ?_,
      noPred := ?_, present := ?_, justified := ?_ }
  · intro q v hv
    rw [hnodes]
    by_cases hqt : q = e.tgt
    · subst hqt
      obtain rfl := Option.some_inj.mp (hφ.symm.trans hv)
      exact h.mapped _ _ hu
    · exact h.mapped q v ((hφ' q hqt).symm.trans hv)
  · intro q hq
    by_cases hqt : q = e.tgt
    · subst hqt
      simp [hφ]
    · rw [hφ' q hqt, h.target q hq]
      simp [or_and_right, exists_or, Ne.symm hqt]
  · exact forall_mem_concat.mpr ⟨h.noSeed, htgt⟩
  · refine forall_mem_concat.mpr ⟨fun e' he' hs => ?_, fun _ => by simp [hφsrc]⟩
    rw [hφs e' he' hs]
    exact h.source e' he' hs
  · intro q hq v hv nd hnd
    obtain ⟨r, hr, hrv, hrq, -⟩ := hback q v hv hq
    rw [← hrq]
    exact h.value r hr v hrv nd (hold v ▸ hnd)
  · intro q hq q' hq' hz hmap heq
    obtain ⟨v, hv⟩ := Option.ne_none_iff_exists'.mp hmap
    obtain ⟨r, hr, hrv, hrq, hchain⟩ := hback q v hv hq
    obtain ⟨r', hr', hrv', -, hchain'⟩ := hback q' v (heq ▸ hv) hq'
    have hrr' : r = r' := h.zero r hr r' hr' (hrq.trans hz) (by simp [hrv]) (hrv.trans hrv'.symm)
    have hrz : r.2 = zeroValue := hrq.trans hz
    rw [← eq_of_contracted_zero hchain (Or.inl hrz), hrr']
    exact eq_of_contracted_zero hchain' (Or.inl (hrr' ▸ hrz))
  · intro v w hw
    have hw' : w ∈ G.neighbors v := by simpa only [ESG.neighbors, hold v] using hw
    obtain ⟨hlt, hnot⟩ := h.neighbors v w hw'
    refine ⟨by rwa [hnodes], fun q hq hmap => ?_⟩
    obtain ⟨r, hr, hrv, -⟩ := hback q w hmap hq
    exact hnot r hr hrv
  · intro v hv
    simp only [ESG.neighbors, ESG.predecessor, hold v] at hv ⊢
    exact h.noPred v hv
  · refine forall_mem_concat.mpr ⟨fun e' he' hskip => ?_, fun _ => ?_⟩
    · exact (h.present e' he' hskip).mono (hφ' _ (hnone e' he')) (hφs e' he') fun v _ a w =>
        (hoff v a w).mpr
    · exact ⟨u, hφ, fun hsd => absurd hsd hsrc, fun _ _ => hφsrc, fun _ hc => absurd hcontr hc⟩
  · intro q hq v hv a w haw
    obtain ⟨r, hr, hrv, -, hchain⟩ := hback q v hv hq
    obtain ⟨q', hq', hj⟩ := h.justified r hr v hrv a w ((hoff v a w).mp haw)
    refine ⟨q', (contractedIn_mono hq').trans hchain, hj.append hφs fun hp ht => ?_⟩
    obtain ⟨e', he', htgt'⟩ := hp.1
    exact absurd (htgt'.trans ht.symm) (hnone e' he')

theorem Rep.target_append (h : Rep block zeroValue seeds E G) {e : SavedEdge N D}
    (hmap : G.flowFactVertexMap e.tgt ≠ none) (q : N × D) (hq : q ∉ seeds) :
    G.flowFactVertexMap q ≠ none ↔ ∃ e' ∈ E ++ [e], e'.tgt = q := by
  rw [h.target q hq]
  constructor
  · rintro ⟨e', he', heq⟩
    exact ⟨e', List.mem_append_left _ he', heq⟩
  · rintro ⟨e', he', heq⟩
    obtain hmem | hmem := List.mem_append.mp he'
    · exact ⟨e', hmem, heq⟩
    · obtain rfl := List.mem_singleton.mp hmem
      exact (h.target q hq).mp (heq ▸ hmap)

/-- An edge that changes nothing. -/
theorem Rep.keep (h : Rep block zeroValue seeds E G) {e : SavedEdge N D} (htgt : e.tgt ∉ seeds)
    (hmap : G.flowFactVertexMap e.tgt ≠ none) (hsrc : e.src ∉ seeds → G.flowFactVertexMap e.src ≠ none)
    (hpresent : ¬e.Skipped zeroValue → Present block zeroValue seeds G e)
    (hpend : Pending zeroValue E e.tgt → e.Skipped zeroValue) :
    Rep block zeroValue seeds (E ++ [e]) G where
  mapped := h.mapped
  target := h.target_append hmap
  noSeed := forall_mem_concat.mpr ⟨h.noSeed, htgt⟩
  source := forall_mem_concat.mpr ⟨h.source, hsrc⟩
  value := h.value
  zero := h.zero
  neighbors := h.neighbors
  noPred := h.noPred
  present := forall_mem_concat.mpr ⟨h.present, hpresent⟩
  justified q hq v hv a w haw := by
    obtain ⟨q', hqq', hj⟩ := h.justified q hq v hv a w haw
    exact ⟨q', contractedIn_mono hqq', hj.append (fun _ _ _ => rfl) fun hp ht => hpend (ht ▸ hp)⟩

/-- All alternatives of a pending pair are those of skipped edges. -/
theorem Rep.predecessor_of_pending (h : Rep block zeroValue seeds E G) {q : N × D} (hq : q ∉ seeds)
    (hpend : Pending zeroValue E q) {v : ℕ} (hv : G.flowFactVertexMap q = some v) :
    G.predecessor v = none := by
  have hmem : v ∈ alternatives G.refs v := mem_alternatives_refs.mpr (Or.inr rfl)
  obtain ⟨q', hqq', hj⟩ := h.justified q hq v hv _ _ ⟨v, hmem, rfl, rfl⟩
  obtain rfl := eq_of_contracted_zero hqq' (Or.inr hpend.zero)
  obtain ⟨e, he, hskip, htgt, -⟩ | ⟨-, hnone⟩ := hj
  · exact absurd (hpend.2 e he htgt) hskip
  · exact hnone

/-- The first edge into a pair that is not skipped gives the node its predecessor. -/
theorem Rep.fill (h : Rep block zeroValue seeds E G) {G' : ESG N D} {e : SavedEdge N D}
    (htgt : e.tgt ∉ seeds) {v : ℕ} (hv : G.flowFactVertexMap e.tgt = some v) {predId : Option ℕ}
    (hpend : Pending zeroValue E e.tgt) (hskip : ¬e.Skipped zeroValue)
    (hseed : e.src ∈ seeds → predId = none)
    (hsrc : e.src ∉ seeds → predId ≠ none ∧ G.flowFactVertexMap e.src = predId)
    (hφ : G'.flowFactVertexMap = G.flowFactVertexMap)
    (hnodes : G'.nodes = G.nodes.modify v fun nd =>
      { nd with predecessorIdx := predId, source := e.src.1 }) :
    Rep block zeroValue seeds (E ++ [e]) G' := by
  have hold : ∀ u : ℕ, u ≠ v → G'.nodes[u]? = G.nodes[u]? := fun u hu => by
    rw [hnodes, List.getElem?_modify_ne _ _ hu.symm]
  have hneighbors : G.neighbors v = [] := h.noPred v (h.predecessor_of_pending htgt hpend hv)
  obtain ⟨nd, hnd⟩ : ∃ nd, G.nodes[v]? = some nd :=
    ⟨_, List.getElem?_eq_getElem (h.mapped _ _ hv)⟩
  have hself : G'.nodes[v]? = some { nd with predecessorIdx := predId, source := e.src.1 } := by
    rw [hnodes, List.getElem?_modify_eq, hnd]
    rfl
  have hnd' : nd.neighbors = [] := by simpa [ESG.neighbors, hnd] using hneighbors
  have hnew : ∀ a w, Offers G' v a w ↔ e.src.1 = a ∧ predId = w := fun a w => offers_of_node hself hnd'
  have hvz : e.tgt.2 = zeroValue := hpend.zero
  -- a pending pair holds the zero value, so it has its node for itself
  have huniq : ∀ q ∉ seeds, G.flowFactVertexMap q = some v → q = e.tgt := fun q hq hqv =>
    (h.zero e.tgt htgt q hq hvz (by simp [hv]) (hv.trans hqv.symm)).symm
  have hoff : ∀ q ∉ seeds, q ≠ e.tgt → ∀ u, G.flowFactVertexMap q = some u → ∀ a w,
      Offers G' u a w ↔ Offers G u a w := by
    intro q hq hqt u hu a w
    refine offers_congr (hold u ?_) fun x hx => hold x ?_
    · rintro rfl
      exact hqt (huniq q hq hu)
    · rintro rfl
      exact (h.neighbors u x hx).2 e.tgt htgt hv
  have hnone : ∀ e' ∈ E, ¬e'.Skipped zeroValue → e'.tgt ≠ e.tgt := fun e' he' hs heq =>
    hs (hpend.2 e' he' heq)
  have hcontr : ¬e.Contracted block zeroValue := fun hc => hc.2.2 hvz
  refine
    { mapped := ?_, target := ?_, noSeed := ?_, source := ?_, value := ?_, zero := ?_, neighbors := ?_,
      noPred := ?_, present := ?_, justified := ?_ }
  · intro q u hu
    rw [hnodes, List.length_modify]
    exact h.mapped q u (hφ ▸ hu)
  · rw [hφ]
    exact h.target_append (by simp [hv])
  · exact forall_mem_concat.mpr ⟨h.noSeed, htgt⟩
  · rw [hφ]
    exact forall_mem_concat.mpr ⟨h.source, fun hs => (hsrc hs).2 ▸ (hsrc hs).1⟩
  · intro q hq u hu nd' hnd''
    rw [hφ] at hu
    by_cases huv : u = v
    · subst huv
      obtain rfl := Option.some_inj.mp (hself.symm.trans hnd'')
      exact h.value q hq u hu nd hnd
    · exact h.value q hq u hu nd' (hold u huv ▸ hnd'')
  · rw [hφ]
    exact h.zero
  · intro u x hx
    rw [hφ, hnodes, List.length_modify]
    refine h.neighbors u x ?_
    by_cases huv : u = v
    · simp [huv, ESG.neighbors, hself, hnd'] at hx
    · simpa only [ESG.neighbors, hold u huv] using hx
  · intro u hu
    by_cases huv : u = v
    · simp [huv, ESG.neighbors, hself, hnd']
    · simp only [ESG.neighbors, ESG.predecessor, hold u huv] at hu ⊢
      exact h.noPred u hu
  · refine forall_mem_concat.mpr ⟨fun e' he' hs => ?_, fun _ => ?_⟩
    · refine (h.present e' he' hs).mono (by rw [hφ]) (fun _ => by rw [hφ]) fun u hu a w => ?_
      exact (hoff _ (h.noSeed e' he') (hnone e' he' hs) u hu a w).mpr
    · refine ⟨v, hφ ▸ hv, fun hsd => (hnew _ _).mpr ⟨rfl, hseed hsd⟩, fun _ hc => absurd hc hcontr,
        fun hsd _ => ?_⟩
      rw [hφ]
      exact (hnew _ _).mpr ⟨rfl, (hsrc hsd).2.symm⟩
  · intro q hq u hu a w haw
    rw [hφ] at hu ⊢
    by_cases hqt : q = e.tgt
    · subst hqt
      obtain rfl := Option.some_inj.mp (hv.symm.trans hu)
      obtain ⟨rfl, rfl⟩ := (hnew a w).mp haw
      exact ⟨e.tgt, .refl, justified_concat hskip hseed fun hs => ⟨hcontr, (hsrc hs).2⟩⟩
    -- a pair with another node was justified before, and is not the one that was pending
    · obtain ⟨q', hqq', hj⟩ := h.justified q hq u hu a w ((hoff q hq hqt u hu a w).mp haw)
      refine ⟨q', contractedIn_mono hqq', hj.append (fun _ _ _ => rfl) fun _ ht => ?_⟩
      subst ht
      exact absurd (eq_of_contracted_zero hqq' (Or.inl hvz)).symm hqt

/-- A further edge into a pair makes a neighbor. -/
theorem Rep.addNeighbor (h : Rep block zeroValue seeds E G) {G' : ESG N D} {e : SavedEdge N D}
    (htgt : e.tgt ∉ seeds) {v : ℕ} (hv : G.flowFactVertexMap e.tgt = some v) {predId : Option ℕ}
    (hskip : ¬e.Skipped zeroValue) (hseed : e.src ∈ seeds → predId = none)
    (hsrc : e.src ∉ seeds → predId ≠ none ∧ ¬e.Contracted block zeroValue ∧
      G.flowFactVertexMap e.src = predId)
    (hpred : G.predecessor v ≠ none)
    (hpairs : ∀ q ∉ seeds, G.flowFactVertexMap q = some v →
      ReflTransGen (ContractedIn block zeroValue E) e.tgt q)
    (hφ : ∀ q ∉ seeds, G'.flowFactVertexMap q = G.flowFactVertexMap q)
    (hrange : ∀ q u, G'.flowFactVertexMap q = some u → u ≤ G.nodes.length)
    (hnodes : G'.nodes = (G.nodes ++ [Node.mk e.tgt.2 e.src.1 predId []]).modify v fun nd =>
      { nd with neighbors := nd.neighbors ++ [G.nodes.length] }) :
    Rep block zeroValue seeds (E ++ [e]) G' := by
  have hvlt : v < G.nodes.length := h.mapped _ _ hv
  obtain ⟨nd, hnd⟩ : ∃ nd, G.nodes[v]? = some nd := ⟨_, List.getElem?_eq_getElem hvlt⟩
  have hold : ∀ u : ℕ, u ≠ v → u ≠ G.nodes.length → G'.nodes[u]? = G.nodes[u]? := fun u =>
    getElem?_addNeighbor hnodes
  have hlast := getElem?_addNeighbor_new hnodes hvlt
  have hneighbors := neighbors_addNeighbor hnodes hnd
  have hoffv : ∀ a w, Offers G' v a w ↔ Offers G v a w ∨ e.src.1 = a ∧ predId = w := fun a w =>
    offers_addNeighbor hnodes hnd fun u hu => (h.neighbors v u hu).1
  have hoff : ∀ q ∉ seeds, ∀ u, G.flowFactVertexMap q = some u → u ≠ v → ∀ a w,
      Offers G' u a w ↔ Offers G u a w := by
    intro q hq u hu huv a w
    refine offers_congr (hold u huv (h.mapped q u hu).ne) fun x hx => hold x ?_ (h.neighbors u x hx).1.ne
    rintro rfl
    exact (h.neighbors u x hx).2 e.tgt htgt hv
  -- nothing that was offered is lost
  have hmono : ∀ q ∉ seeds, ∀ u, G.flowFactVertexMap q = some u → ∀ a w,
      Offers G u a w → Offers G' u a w := by
    intro q hq u hu a w haw
    by_cases huv : u = v
    · subst huv
      exact (hoffv a w).mpr (Or.inl haw)
    · exact (hoff q hq u hu huv a w).mpr haw
  have hpend : ¬Pending zeroValue E e.tgt := fun hp => hpred (h.predecessor_of_pending htgt hp hv)
  have hφs : ∀ e' ∈ E, e'.src ∉ seeds → G'.flowFactVertexMap e'.src = G.flowFactVertexMap e'.src :=
    fun e' _ hs => hφ _ hs
  have hlen : G'.nodes.length = G.nodes.length + 1 := by
    rw [hnodes, List.length_modify, List.length_append, List.length_singleton]
  refine
    { mapped := ?_, target := ?_, noSeed := ?_, source := ?_, value := ?_, zero := ?_, neighbors := ?_,
      noPred := ?_, present := ?_, justified := ?_ }
  · intro q u hu
    rw [hlen]
    exact Nat.lt_succ_of_le (hrange q u hu)
  · intro q hq
    rw [hφ q hq]
    exact h.target_append (by simp [hv]) q hq
  · exact forall_mem_concat.mpr ⟨h.noSeed, htgt⟩
  · refine forall_mem_concat.mpr ⟨fun e' he' hs => ?_, fun hs => ?_⟩
    · rw [hφs e' he' hs]
      exact h.source e' he' hs
    · rw [hφ _ hs, (hsrc hs).2.2]
      exact (hsrc hs).1
  · intro q hq u hu nd' hnd'
    rw [hφ q hq] at hu
    by_cases huv : u = v
    · subst huv
      obtain rfl := Option.some_inj.mp ((getElem?_addNeighbor_self hnodes hnd).symm.trans hnd')
      exact h.value q hq u hu nd hnd
    · exact h.value q hq u hu nd' (hold u huv (h.mapped q u hu).ne ▸ hnd')
  · intro q hq q' hq' hz hmap heq
    rw [hφ q hq] at hmap heq
    rw [hφ q' hq'] at heq
    exact h.zero q hq q' hq' hz hmap heq
  · intro u x hx
    have hx' : x ∈ G.neighbors u ∨ x = G.nodes.length := by
      by_cases huv : u = v
      · subst huv
        simpa [hneighbors] using hx
      · by_cases hul : u = G.nodes.length
        · simp [ESG.neighbors, hul, hlast] at hx
        · exact Or.inl (by simpa only [ESG.neighbors, hold u huv hul] using hx)
    rw [hlen]
    obtain hx' | rfl := hx'
    · obtain ⟨hlt, hnot⟩ := h.neighbors u x hx'
      exact ⟨Nat.lt_succ_of_lt hlt, fun q hq => hφ q hq ▸ hnot q hq⟩
    · refine ⟨Nat.lt_succ_self _, fun q hq hmap => ?_⟩
      rw [hφ q hq] at hmap
      exact (h.mapped q _ hmap).ne rfl
  · intro u hu
    by_cases hul : u = G.nodes.length
    · simp [ESG.neighbors, hul, hlast]
    · rw [(node_addNeighbor hnodes hnd hul).2] at hu
      have huv : u ≠ v := by
        rintro rfl
        exact hpred hu
      have hnone := h.noPred u hu
      simpa only [ESG.neighbors, hold u huv hul] using hnone
  · refine forall_mem_concat.mpr ⟨fun e' he' hs => ?_, fun _ => ?_⟩
    · have hns := h.noSeed e' he'
      exact (h.present e' he' hs).mono (hφ _ hns) (hφs e' he') fun u hu a w => hmono _ hns u hu a w
    · refine ⟨v, (hφ _ htgt).trans hv, fun hsd => (hoffv _ _).mpr (Or.inr ⟨rfl, hseed hsd⟩),
        fun hsd hc => absurd hc (hsrc hsd).2.1, fun hsd _ => ?_⟩
      rw [hφ _ hsd]
      exact (hoffv _ _).mpr (Or.inr ⟨rfl, (hsrc hsd).2.2.symm⟩)
  · intro q hq u hu a w haw
    rw [hφ q hq] at hu
    -- what is offered now was offered before, or is the new neighbor
    have hcase : Offers G u a w ∨ u = v ∧ e.src.1 = a ∧ predId = w := by
      by_cases huv : u = v
      · subst huv
        exact ((hoffv a w).mp haw).imp_right fun hnew => ⟨rfl, hnew⟩
      · exact Or.inl ((hoff q hq u hu huv a w).mp haw)
    obtain hG | ⟨rfl, rfl, rfl⟩ := hcase
    · obtain ⟨q', hqq', hj⟩ := h.justified q hq u hu a w hG
      exact ⟨q', contractedIn_mono hqq', hj.append hφs fun hp ht => absurd (ht ▸ hp) hpend⟩
    · refine ⟨e.tgt, contractedIn_mono (hpairs q hq hu), justified_concat hskip hseed fun hs => ?_⟩
      exact ⟨(hsrc hs).2.1, (hφ _ hs).trans (hsrc hs).2.2⟩

end Invariant

section Steps

variable {N D B : Type*} {block : N → B} {zeroValue : D} {seeds : Set (N × D)}
  {E : List (SavedEdge N D)} {G : ESG N D} {e : SavedEdge N D} {predId : Option ℕ}

theorem modify_concat {α : Type*} (l : List α) (x : α) (f : α → α) :
    (l ++ [x]).modify l.length f = l ++ [f x] := by
  induction l with
  | nil => rfl
  | cons a l ih => simpa using ih

theorem modify_eq_self {α : Type*} {l : List α} {i : ℕ} {x : α} {f : α → α} (hx : l[i]? = some x)
    (hf : f x = x) : l.modify i f = l := by
  refine List.ext_getElem? fun j => ?_
  by_cases hj : j = i
  · subst hj
    rw [List.getElem?_modify_eq, hx]
    exact congrArg some hf
  · rw [List.getElem?_modify_ne _ _ (Ne.symm hj)]

/-- No chain ends in a pending pair. -/
theorem chain_of_pending {q : N × D} {l : List N} (hp : Pending zeroValue E q)
    (h : Chain block zeroValue seeds E q l) : False := by
  cases h with
  | seed he hskip => exact hskip (hp.2 _ he rfl)
  | step he hskip => exact hskip (hp.2 _ he rfl)
  | contract he hskip => exact hskip (hp.2 _ he rfl)

section

variable [Inhabited N]

theorem Rep.empty : Rep block zeroValue seeds [] (ESG.empty N D) where
  mapped := by simp [ESG.empty]
  target := by simp [ESG.empty]
  noSeed := by simp
  source := by simp
  value := by simp [ESG.empty]
  zero := by simp [ESG.empty]
  neighbors := by simp [ESG.empty, ESG.neighbors]
  noPred := by simp [ESG.empty, ESG.neighbors]
  present := by simp
  justified := by simp [ESG.empty]

variable [DecidableEq D] [DecidableEq B] in
/-- An edge that is offered already. -/
theorem Rep.keep_of_offers (h : Rep block zeroValue seeds E G)
    (hsrc : e.src ∉ seeds → predId ≠ none ∧ G.flowFactVertexMap e.src = predId)
    (hok : StepOk block zeroValue seeds E G predId e) {v : ℕ} (hmap : G.flowFactVertexMap e.tgt = some v)
    (hcontr : e.src ∉ seeds → ¬e.Contracted block zeroValue) (hpend : ¬Pending zeroValue E e.tgt)
    (hoffers : Offers G v e.src.1 predId) : Rep block zeroValue seeds (E ++ [e]) G := by
  refine h.keep hok.tgt (by simp [hmap]) (fun hs => (hsrc hs).2 ▸ (hsrc hs).1) (fun _ => ?_)
    fun hp => absurd hp hpend
  refine ⟨v, hmap, fun hsd => hok.seed hsd ▸ hoffers, fun hs hc => absurd hc (hcontr hs), fun hs _ => ?_⟩
  rw [(hsrc hs).2]
  exact hoffers

end

variable [DecidableEq D]

theorem skip_iff : (((e.kind = .callToRet && e.src.2 = zeroValue : Bool) && e.tgt.2 = e.src.2 : Bool) = true) ↔
    e.Skipped zeroValue := by
  simp only [Bool.and_eq_true, decide_eq_true_eq, SavedEdge.Skipped, and_assoc]
  exact and_congr_right fun _ => and_congr_right fun hz => by rw [hz]

variable [DecidableEq N]

/-- The table after a new node for the target. -/
theorem flowFactVertexMap_makeNode {q : N × D} (hq : predId = none → q ≠ e.src) :
    (G.makeNode predId e.src.1 e.src.2 e.tgt.2).flowFactVertexMap q = G.flowFactVertexMap q := by
  by_cases hp : predId = none
  · simp only [ESG.makeNode, if_pos hp]
    exact Function.update_of_ne (hq hp) _ _
  · simp only [ESG.makeNode, if_neg hp]

theorem flowFactVertexMap_makeNode_cases {q : N × D} {v : ℕ}
    (hv : (G.makeNode predId e.src.1 e.src.2 e.tgt.2).flowFactVertexMap q = some v) :
    v = G.nodes.length ∨ G.flowFactVertexMap q = some v := by
  by_cases hp : predId = none
  · by_cases hq : q = e.src
    · subst hq
      simp only [ESG.makeNode, if_pos hp, Prod.mk.eta, Function.update_self, Option.some_inj] at hv
      exact Or.inl hv.symm
    · rw [flowFactVertexMap_makeNode fun _ => hq] at hv
      exact Or.inr hv
  · rw [flowFactVertexMap_makeNode fun h => absurd h hp] at hv
    exact Or.inr hv

variable [DecidableEq B]

/-- The node of a pair stays, except for seeds. -/
theorem flowFactVertexMap_saveSavedEdge {q : N × D} (hq : predId = none → q ≠ e.src)
    (hmap : G.flowFactVertexMap q ≠ none) :
    (saveSavedEdge block zeroValue G predId e).flowFactVertexMap q = G.flowFactVertexMap q := by
  have hmake := flowFactVertexMap_makeNode (G := G) (e := e) hq
  unfold saveSavedEdge saveEdge
  simp only [Prod.mk.eta]
  cases htgt : G.flowFactVertexMap e.tgt with
  | none =>
    have hne : q ≠ e.tgt := by
      rintro rfl
      exact hmap htgt
    dsimp only
    split_ifs
    · exact (Function.update_of_ne hne _ _).trans hmake
    · exact Function.update_of_ne hne _ _
    · exact (Function.update_of_ne hne _ _).trans hmake
  | some v =>
    dsimp only
    split_ifs
    · rfl
    · rfl
    · cases G.predecessor v with
      | none => rfl
      | some w =>
        dsimp only
        split_ifs
        · exact hmake
        · rfl

variable [Inhabited N]

/-- An edge that is neither skipped nor an identity edge, into a pair with a node. -/
theorem Rep.saveExisting (h : Rep block zeroValue seeds E G)
    (hsrc : e.src ∉ seeds → predId ≠ none ∧ G.flowFactVertexMap e.src = predId)
    (hok : StepOk block zeroValue seeds E G predId e) {v : ℕ} (hmap : G.flowFactVertexMap e.tgt = some v)
    (hskip : ¬e.Skipped zeroValue) (hid : isIdentity block zeroValue G predId e.tgt.1 e.tgt.2 = false)
    (hcontr : e.src ∉ seeds → ¬e.Contracted block zeroValue)
    (hmake : ∀ q ∉ seeds, (G.makeNode predId e.src.1 e.src.2 e.tgt.2).flowFactVertexMap q =
      G.flowFactVertexMap q)
    (hrange : ∀ q v, (G.makeNode predId e.src.1 e.src.2 e.tgt.2).flowFactVertexMap q = some v →
      v ≤ G.nodes.length) :
    Rep block zeroValue seeds (E ++ [e])
      (match G.predecessor v with
      | none => G.modifyNode v fun nd => { nd with predecessorIdx := predId, source := e.src.1 }
      | some w =>
        if some w ≠ predId && (G.neighbors v).all fun nb => G.predecessor nb ≠ predId then
          (G.makeNode predId e.src.1 e.src.2 e.tgt.2).modifyNode v fun nd =>
            { nd with neighbors := nd.neighbors ++ [G.nodes.length] }
        else G) := by
  have hoffered := hok.offered hskip hid v hmap
  cases hpred : G.predecessor v with
  | none =>
    dsimp only
    -- without a predecessor the node is pending, or it belongs to an edge out of a seed
    by_cases hp : Pending zeroValue E e.tgt
    · exact h.fill hok.tgt hmap hp hskip hok.seed hsrc rfl rfl
    · have hoffers : Offers G v e.src.1 predId :=
        hoffered.resolve_right fun hr => (hr.resolve_left hp).1 hpred
      -- in the latter case it has this predecessor and this source already
      have hself : G.modifyNode v (fun nd => { nd with predecessorIdx := predId, source := e.src.1 }) =
          G := by
        obtain ⟨nd, hnd⟩ : ∃ nd, G.nodes[v]? = some nd := ⟨_, List.getElem?_eq_getElem (h.mapped _ _ hmap)⟩
        have hneighbors : nd.neighbors = [] := by simpa [ESG.neighbors, hnd] using h.noPred v hpred
        obtain ⟨hs, hw⟩ := (offers_of_node hnd hneighbors).mp hoffers
        refine congrArg (fun nodes => ESG.mk nodes G.flowFactVertexMap) (modify_eq_self hnd ?_)
        rw [← hs, ← hw]
      rw [hself]
      exact h.keep_of_offers hsrc hok hmap hcontr hp hoffers
  | some w =>
    have hp : ¬Pending zeroValue E e.tgt := fun hp => by
      rw [h.predecessor_of_pending hok.tgt hp hmap] at hpred
      cases hpred
    dsimp only
    split_ifs with hall
    · simp only [Bool.and_eq_true, decide_eq_true_eq, List.all_eq_true] at hall
      have hnot : ∀ a, ¬Offers G v a predId := by
        rintro a ⟨u, hu, -, hpu⟩
        obtain hu | rfl := mem_alternatives_refs.mp hu
        · exact hall.2 u hu hpu
        · exact hall.1 (hpred.symm.trans hpu)
      obtain ⟨-, -, hpairs⟩ := (hoffered.resolve_left (hnot _)).resolve_left hp
      exact h.addNeighbor hok.tgt hmap hskip hok.seed
        (fun hs => ⟨(hsrc hs).1, hcontr hs, (hsrc hs).2⟩) (by simp [hpred]) hpairs hmake hrange rfl
    -- some alternative has the predecessor, and by `hok` the source with it
    · have hsome : ∃ a, Offers G v a predId := by
        by_contra hno
        push Not at hno
        refine hall ?_
        simp only [Bool.and_eq_true, decide_eq_true_eq, List.all_eq_true]
        refine ⟨fun heq => ?_, fun u hu heq => ?_⟩
        · exact hno _ ⟨v, mem_alternatives_refs.mpr (Or.inr rfl), rfl, hpred.trans heq⟩
        · exact hno _ ⟨u, mem_alternatives_refs.mpr (Or.inl hu), rfl, heq⟩
      obtain ⟨a, ha⟩ := hsome
      have hoffers : Offers G v e.src.1 predId :=
        hoffered.resolve_right fun hr => (hr.resolve_left hp).2.1 a ha
      exact h.keep_of_offers hsrc hok hmap hcontr hp hoffers

theorem Rep.save (h : Rep block zeroValue seeds E G)
    (hsrc : e.src ∉ seeds → predId ≠ none ∧ G.flowFactVertexMap e.src = predId)
    (hok : StepOk block zeroValue seeds E G predId e) :
    Rep block zeroValue seeds (E ++ [e]) (saveSavedEdge block zeroValue G predId e) := by
  have hns : ∀ q ∉ seeds, predId = none → q ≠ e.src := by
    rintro q hq hp rfl
    exact (hsrc hq).1 hp
  have hmake : ∀ q ∉ seeds, (G.makeNode predId e.src.1 e.src.2 e.tgt.2).flowFactVertexMap q =
      G.flowFactVertexMap q := fun q hq => flowFactVertexMap_makeNode (hns q hq)
  have hrange : ∀ q v, (G.makeNode predId e.src.1 e.src.2 e.tgt.2).flowFactVertexMap q = some v →
      v ≤ G.nodes.length := by
    intro q v hv
    obtain rfl | hv := flowFactVertexMap_makeNode_cases hv
    · exact le_rfl
    · exact (h.mapped q v hv).le
  have hcontr : ¬e.Skipped zeroValue →
      isIdentity block zeroValue G predId e.tgt.1 e.tgt.2 = false → e.src ∉ seeds →
      ¬e.Contracted block zeroValue := by
    intro hskip hid hs hc
    rw [(hok.contracted hskip (hsrc hs).1).mpr hc] at hid
    cases hid
  have hset : ∀ q v, Function.update
      (G.makeNode predId e.src.1 e.src.2 e.tgt.2).flowFactVertexMap e.tgt (some G.nodes.length) q =
      some v → v ≤ G.nodes.length := by
    intro q v hv
    by_cases hqt : q = e.tgt
    · subst hqt
      rw [Function.update_self, Option.some_inj] at hv
      exact hv.ge
    · rw [Function.update_of_ne hqt] at hv
      exact hrange q v hv
  unfold saveSavedEdge saveEdge
  simp only [Prod.mk.eta]
  -- a pair without a node, and one with a node; each with a skipped edge, an identity edge, or another
  cases hmap : G.flowFactVertexMap e.tgt with
  | none =>
    have hmake' := hmake e.tgt hok.tgt
    dsimp only
    split_ifs with hskip hid
    · rw [skip_iff] at hskip
      refine h.insertNode hok.tgt hmap (fun hs => (hsrc hs).2 ▸ (hsrc hs).1) ?_ ?_ ?_ ?_
        (Or.inl ⟨hskip, rfl⟩)
      · exact modify_concat _ _ _
      · exact Function.update_self _ _ _
      · exact fun q hq hqt => (Function.update_of_ne hqt _ _).trans (hmake q hq)
      · exact hset
    · rw [skip_iff] at hskip
      obtain ⟨u, rfl⟩ : ∃ u, predId = some u := by
        cases predId with
        | none => cases hid
        | some u => exact ⟨u, rfl⟩
      have hs : e.src ∉ seeds := fun hs => by cases hok.seed hs
      have hc := (hok.contracted hskip (by simp)).mp hid
      exact h.share hok.tgt hmap hs (hsrc hs).2 hc rfl (Function.update_self _ _ _)
        fun q hqt => Function.update_of_ne hqt _ _
    · rw [skip_iff] at hskip
      rw [Bool.not_eq_true] at hid
      refine h.insertNode hok.tgt hmap (fun hs => (hsrc hs).2 ▸ (hsrc hs).1) rfl ?_ ?_ ?_
        (Or.inr ⟨hskip, hok.seed, fun hs => ⟨hcontr hskip hid hs, (hsrc hs).2⟩⟩)
      · exact Function.update_self _ _ _
      · exact fun q hq hqt => (Function.update_of_ne hqt _ _).trans (hmake q hq)
      · exact hset
  | some v =>
    have hmap' : G.flowFactVertexMap e.tgt ≠ none := by simp [hmap]
    have hsrc' : e.src ∉ seeds → G.flowFactVertexMap e.src ≠ none := fun hs => (hsrc hs).2 ▸ (hsrc hs).1
    dsimp only
    split_ifs with hskip hid
    · rw [skip_iff] at hskip
      exact h.keep hok.tgt hmap' hsrc' (fun hn => absurd hskip hn) fun _ => hskip
    · rw [skip_iff] at hskip
      rw [Bool.and_eq_true, decide_eq_true_eq] at hid
      obtain ⟨hid, rfl⟩ := hid
      have hs : e.src ∉ seeds := fun hs => by cases hok.seed hs
      have hc := (hok.contracted hskip (by simp)).mp hid
      refine h.keep hok.tgt hmap' hsrc' (fun _ => ?_) fun hp => absurd hp.zero hc.2.2
      exact ⟨v, hmap, fun hsd => absurd hsd hs, fun _ _ => (hsrc hs).2, fun _ hn => absurd hc hn⟩
    · rw [skip_iff] at hskip
      have hid' : isIdentity block zeroValue G predId e.tgt.1 e.tgt.2 = false := by
        by_contra htrue
        rw [Bool.not_eq_false] at htrue
        refine hid ?_
        rw [Bool.and_eq_true, decide_eq_true_eq]
        exact ⟨htrue, hok.sameNode hskip htrue v hmap⟩
      exact h.saveExisting hsrc hok hmap hskip hid' (hcontr hskip hid') hmake hrange

/-! ### Runs -/

/-- The loop of `saveEdges`. -/
theorem Rep.saveAll {src : N × D} {es : List (SavedEdge N D)} : ∀ {E : List (SavedEdge N D)} {G : ESG N D},
    Rep block zeroValue seeds E G → (∀ e ∈ es, e.src = src) →
    (src ∉ seeds → predId ≠ none ∧ G.flowFactVertexMap src = predId) →
    StepsOk block zeroValue seeds predId E G es →
    Rep block zeroValue seeds (E ++ es) (es.foldl (saveSavedEdge block zeroValue · predId) G) := by
  induction es with
  | nil =>
    intro E G h _ _ _
    rwa [List.append_nil]
  | cons e es ih =>
    intro E G h hes hsrc hok
    obtain ⟨rfl, hes⟩ := List.forall_mem_cons.mp hes
    have hstep := h.save hsrc hok.1
    rw [List.append_cons, List.foldl_cons]
    refine ih hstep hes (fun hs => ⟨(hsrc hs).1, ?_⟩) hok.2
    rw [flowFactVertexMap_saveSavedEdge (fun hp => absurd hp (hsrc hs).1) ((hsrc hs).2 ▸ (hsrc hs).1)]
    exact (hsrc hs).2

theorem Rep.runFrom {calls : List (Call N D)} : ∀ {E : List (SavedEdge N D)} {G : ESG N D},
    Rep block zeroValue seeds E G → SourcesOk seeds E calls → RunOk block zeroValue seeds E G calls →
    Rep block zeroValue seeds (E ++ savedEdges calls) (calls.foldl (saveEdges block zeroValue) G) := by
  induction calls with
  | nil =>
    intro E G h _ _
    simpa [savedEdges] using h
  | cons c cs ih =>
    intro E G h hsources hok
    have hcall : Rep block zeroValue seeds (E ++ c.edges) (saveEdges block zeroValue G c) := by
      rw [saveEdges_eq]
      have hedges : ∀ e ∈ c.edges, e.src = (c.curr, c.currNode) := by simp [Call.edges]
      refine h.saveAll hedges (fun hs => ⟨?_, rfl⟩) hok.1
      exact (h.target _ hs).mpr (hsources.1.resolve_left hs)
    have hrest := ih hcall hsources.2 hok.2
    rwa [List.append_assoc] at hrest

/-- If the edges do what they must, the graph records exactly the saved chains as soon as no pair is left
whose edges were all skipped. -/
theorem recordsChains_iff (block : N → B) (zeroValue : D) (seeds : Set (N × D)) (calls : List (Call N D))
    (hsources : SourcesOk seeds [] calls) (hok : RunOk block zeroValue seeds [] (ESG.empty N D) calls) :
    RecordsChains block zeroValue seeds (savedEdges calls) (run block zeroValue calls) ↔
      ∀ q, ¬Pending zeroValue (savedEdges calls) q := by
  have hrep : Rep block zeroValue seeds (savedEdges calls) (run block zeroValue calls) :=
    Rep.empty.runFrom hsources hok
  constructor
  · intro hrec q hpend
    obtain ⟨e, he, rfl⟩ := hpend.1
    obtain ⟨v, hv, hwalk⟩ := hrec e he
    have hpred := hrep.predecessor_of_pending (hrep.noSeed e he) hpend hv
    obtain hchain := (hwalk [(run block zeroValue calls).source v]).mp
      ⟨v, mem_alternatives_refs.mpr (Or.inr rfl), .seed (by simp [transitions, ESG.refs, hpred]) rfl⟩
    exact chain_of_pending hpend hchain
  · intro hpend e he
    obtain ⟨v, hv⟩ := Option.ne_none_iff_exists'.mp
      ((hrep.target e.tgt (hrep.noSeed e he)).mpr ⟨e, he, rfl⟩)
    refine ⟨v, hv, fun l => ⟨?_, fun hchain => ?_⟩⟩
    · rintro ⟨w, hmem, hwalk⟩
      exact hrep.chain_of_walk hpend hwalk e.tgt (hrep.noSeed e he) v hv hmem
    · obtain ⟨v', hv', hwalk⟩ := hrep.walk_of_chain hchain
      obtain rfl := Option.some_inj.mp (hv.symm.trans hv')
      exact hwalk

omit [DecidableEq N] in
/-- An edge of the zero value into a new pair does what it must. -/
theorem StepOk.of_zero (htgt : e.tgt ∉ seeds) (hseed : e.src ∈ seeds → predId = none)
    (hkind : e.kind ≠ .callToRet) (hz : e.tgt.2 = zeroValue) (hnew : G.flowFactVertexMap e.tgt = none) :
    StepOk block zeroValue seeds E G predId e := by
  have hskip : ¬e.Skipped zeroValue := fun hs => hkind hs.1
  have hid : isIdentity block zeroValue G predId e.tgt.1 e.tgt.2 = false := by
    simp [isIdentity, hz]
  refine ⟨htgt, hseed, fun hs => absurd hs hskip, fun _ _ => ?_, fun _ ht => ?_, fun _ _ v hv => ?_⟩
  · rw [hid]
    exact ⟨fun hf => Bool.noConfusion hf, fun hc => absurd hz hc.2.2⟩
  · rw [hid] at ht
    cases ht
  · rw [hnew] at hv
    cases hv

end Steps

/-- The zero value flows from instruction 0 to 1 and from there to 2. -/
def straightCalls : List (Call ℕ ℕ) := [⟨0, 0, 1, [0], .normal⟩, ⟨1, 0, 2, [0], .normal⟩]

theorem recordsChains_straightCalls :
    RecordsChains id 0 {(0, 0)} (savedEdges straightCalls) (run id 0 straightCalls) := by
  refine (recordsChains_iff id 0 {(0, 0)} straightCalls ?_ ?_).mpr ?_
  · exact ⟨Or.inl rfl, Or.inr ⟨_, List.mem_singleton_self _, rfl⟩, trivial⟩
  · exact ⟨⟨.of_zero (by simp) (fun _ => rfl) (by simp) rfl rfl, trivial⟩,
      ⟨.of_zero (by simp) (by simp) (by simp) rfl rfl, trivial⟩, trivial⟩
  · rintro q ⟨⟨e, he, htgt⟩, hall⟩
    have hskip := hall e he htgt
    have hkind : ∀ e ∈ savedEdges straightCalls, e.kind = .normal := by
      simp [savedEdges, straightCalls, Call.edges]
    rw [SavedEdge.Skipped, hkind e he] at hskip
    cases hskip.1

/-- The zero value flows back from 2 to 1. -/
def loopCalls : List (Call ℕ ℕ) := straightCalls ++ [⟨2, 0, 1, [0], .normal⟩]

/-- The edge back from 2 replaces the one from the seed in the node of `(1, 0)`, whose source is no longer 0. -/
theorem not_recordsChains_loopCalls : SourcesOk {(0, 0)} [] loopCalls ∧
    ¬RecordsChains id 0 {(0, 0)} (savedEdges loopCalls) (run id 0 loopCalls) := by
  constructor
  · exact ⟨Or.inl rfl, Or.inr ⟨⟨(0, 0), (1, 0), .normal⟩, by simp [Call.edges], rfl⟩,
      Or.inr ⟨⟨(1, 0), (2, 0), .normal⟩, by simp [Call.edges], rfl⟩, trivial⟩
  · intro h
    have hedge : (⟨(0, 0), (1, 0), .normal⟩ : SavedEdge ℕ ℕ) ∈ savedEdges loopCalls := by
      simp [savedEdges, loopCalls, straightCalls, Call.edges]
    obtain ⟨v, hv, hwalk⟩ := h _ hedge
    obtain rfl : 0 = v := Option.some_inj.mp hv
    have hchain : Chain id 0 {(0, 0)} (savedEdges loopCalls) (1, 0) [0] :=
      .seed hedge (by simp [SavedEdge.Skipped]) rfl
    obtain ⟨w, hmem, hw⟩ := (hwalk [0]).mpr hchain
    have hneighbors : (run id 0 loopCalls).neighbors 0 = [] := rfl
    rw [mem_alternatives_refs, hneighbors] at hmem
    obtain rfl : w = 0 := hmem.resolve_left (by simp)
    cases hw

end Phasar.ExplodedSuperGraph
