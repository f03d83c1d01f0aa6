import Phasar.Lib.DepthFirst
import Phasar.Lib.StronglyConnected
import Mathlib.Data.Finset.Lattice.Basic
import Mathlib.Data.Finset.Max

/-!
# Topological orders

The order in which a depth-first search leaves the vertices of an acyclic graph lists every vertex
after its children. Sets that are passed on to the children, once for each vertex and against that
order, reach exactly what the edges reach.

* `Closed`: a list with the children of every vertex before it;
* `exists_rank`, `exists_source`: a finite acyclic graph has ranks, and every vertex is reached from
  one without predecessors;
* `postorder`, `visit_postorder`, `visitAll_postorder`: the search;
* `Leaves`, `visit_leaves`, `visitAll_leaves`: a search leaves no vertex twice;
* `pass`, `mem_pass_iff`: the single pass.
-/

namespace TopologicalOrder

variable {V : Type*} {children : V → List V}

/-- Every vertex is listed after its children. -/
inductive Closed (children : V → List V) : List V → Prop
  | nil : Closed children []
  | concat {l : List V} {v : V} : Closed children l → (∀ c ∈ children v, c ∈ l) →
      Closed children (l ++ [v])

/-- A closed list stays closed when the children of its members stay the same. -/
theorem Closed.congr {children' : V → List V} {l : List V} (h : Closed children l)
    (heq : ∀ v ∈ l, children' v = children v) : Closed children' l := by
  induction h with
  | nil => exact .nil
  | concat _ hc ih =>
    refine (ih fun v hv => heq v (List.mem_append_left _ hv)).concat ?_
    rwa [heq _ (List.mem_append_right _ (List.mem_singleton_self _))]

/-- A closed list contains, with a vertex, everything reachable from it. -/
theorem Closed.mem_of_reach {l : List V} (h : Closed children l) {v w : V}
    (hr : StronglyConnected.Reach children v w) (hv : v ∈ l) : w ∈ l := by
  have hstep : ∀ x ∈ l, ∀ c ∈ children x, c ∈ l := by
    clear hv hr
    induction h with
    | nil => simp
    | concat _ hc ih =>
      intro x hx c hcx
      rcases List.mem_append.1 hx with hx | hx
      · exact List.mem_append_left _ (ih x hx c hcx)
      · rw [List.mem_singleton.1 hx] at hcx
        exact List.mem_append_left _ (hc c hcx)
  induction hr with
  | refl => exact hv
  | tail _ hcx ih => exact hstep _ ih _ hcx

/-- No vertex of a closed list without repetitions can reach itself. -/
theorem Closed.acyclic {l : List V} (h : Closed children l) (hnodup : l.Nodup) :
    ∀ v ∈ l, ¬Relation.TransGen (fun x y => y ∈ children x) v v := by
  induction h with
  | nil => simp
  | @concat l v hclosed hc ih =>
    obtain ⟨hl, -, hdisjoint⟩ := List.nodup_append.1 hnodup
    intro x hx hcycle
    rcases List.mem_append.1 hx with hx | hx
    · exact ih hl x hx hcycle
    · -- a path that leaves `v` stays among the vertices before it
      obtain rfl := List.mem_singleton.1 hx
      obtain ⟨c, hxc, hcx⟩ := (Relation.TransGen.head'_iff).1 hcycle
      exact hdisjoint x (hclosed.mem_of_reach hcx (hc c hxc)) x (List.mem_singleton_self x) rfl

/-- Every occurrence of a vertex in a closed list has its children before it. -/
theorem Closed.mem_of_eq_append {l : List V} (h : Closed children l) {v : V} :
    ∀ {pre post : List V}, l = pre ++ v :: post → ∀ c ∈ children v, c ∈ pre := by
  induction h with
  | nil =>
    intro pre post heq
    exact absurd heq.symm (by simp)
  | @concat l w _ hchildren ih =>
    intro pre post heq c hc
    rcases List.eq_nil_or_concat post with rfl | ⟨post', w', rfl⟩
    · obtain ⟨rfl, hw⟩ := List.append_inj' heq rfl
      rw [List.singleton_inj] at hw
      exact hchildren c (hw ▸ hc)
    · rw [List.concat_eq_append, ← List.cons_append, ← List.append_assoc] at heq
      exact ih (List.append_inj' heq rfl).1 c hc

/-! ### Finite acyclic graphs -/

/-- In an acyclic graph with finitely many vertices that are children, their number is a rank. -/
theorem exists_rank {S : Finset V} (hS : ∀ v, ∀ c ∈ children v, c ∈ S)
    (hacyclic : ∀ v, ¬Relation.TransGen (fun x y => y ∈ children x) v v) :
    ∃ rank : V → ℕ, (∀ v, ∀ c ∈ children v, rank c < rank v) ∧ ∀ v ∈ S, rank v < S.card := by
  classical
  let below (v : V) := S.filter fun x => Relation.TransGen (fun x y => y ∈ children x) v x
  refine ⟨fun v => (below v).card, fun v c hc => ?_, fun v hv => ?_⟩
  · -- the child itself is no longer below the child
    refine Finset.card_lt_card ((Finset.ssubset_iff_of_subset fun x hx => ?_).2 ⟨c, ?_, ?_⟩)
    · obtain ⟨hxS, hcx⟩ := Finset.mem_filter.1 hx
      exact Finset.mem_filter.2 ⟨hxS, .head hc hcx⟩
    · exact Finset.mem_filter.2 ⟨hS v c hc, .single hc⟩
    · exact fun hcc => hacyclic c (Finset.mem_filter.1 hcc).2
  · refine Finset.card_lt_card ((Finset.ssubset_iff_of_subset (Finset.filter_subset _ S)).2
      ⟨v, hv, fun hvv => ?_⟩)
    exact hacyclic v (Finset.mem_filter.1 hvv).2

/-- In a finite graph with ranks, every vertex is reached from one without predecessors. -/
theorem exists_source {rank : V → ℕ} (hrank : ∀ v, ∀ c ∈ children v, rank c < rank v) {S : Finset V}
    (hS : ∀ v, ∀ c ∈ children v, v ∈ S) {v : V} (hv : v ∈ S) :
    ∃ r ∈ S, (∀ u, r ∉ children u) ∧ StronglyConnected.Reach children r v := by
  classical
  -- among what reaches `v`, a vertex of the greatest rank has no predecessor
  let above := S.filter fun x => StronglyConnected.Reach children x v
  obtain ⟨r, hr, hmax⟩ := above.exists_max_image rank ⟨v, Finset.mem_filter.2 ⟨hv, .refl⟩⟩
  obtain ⟨hrS, hrv⟩ := Finset.mem_filter.1 hr
  refine ⟨r, hrS, fun u hu => ?_, hrv⟩
  have hle : rank u ≤ rank r := hmax u (Finset.mem_filter.2 ⟨hS u r hu, hrv.head hu⟩)
  exact absurd (hrank u r hu) (not_lt.2 hle)

/-! ### Depth-first search -/

/-- A search that collects the vertices when it leaves them, with the set of those it has seen. -/
def postorder [DecidableEq V] (children : V → List V) : DepthFirst.Ops V (Finset V × List V) where
  succs := children
  unseen s v := decide (v ∉ s.1)
  enter v s := (insert v s.1, s.2)
  tree _ _ s := s
  seen _ _ s := s
  exit v s := (s.1, s.2 ++ [v])

/-- What was left is closed and was seen; the vertices still being visited have a rank above `k`. -/
structure Inv (children : V → List V) (rank : V → ℕ) (k : ℕ) (s : Finset V × List V) : Prop where
  closed : Closed children s.2
  seen : ∀ v ∈ s.2, v ∈ s.1
  above : ∀ v ∈ s.1, v ∉ s.2 → k < rank v

/-- A part of a search that leaves all vertices it enters. -/
structure Grows (s s' : Finset V × List V) : Prop where
  seen : ∀ v ∈ s.1, v ∈ s'.1
  left : ∀ v ∈ s.2, v ∈ s'.2
  visiting : ∀ v ∈ s'.1, v ∉ s'.2 → v ∈ s.1 ∧ v ∉ s.2

theorem Grows.trans {s s' s'' : Finset V × List V} (h : Grows s s') (h' : Grows s' s'') :
    Grows s s'' where
  seen v hv := h'.seen v (h.seen v hv)
  left v hv := h'.left v (h.left v hv)
  visiting v hv hnot := (fun hv => h.visiting v hv.1 hv.2) (h'.visiting v hv hnot)

/-- A part of a search among the vertices with `P` that leaves no vertex twice, and none that was seen
before. -/
structure Leaves (P : V → Prop) (s s' : Finset V × List V) : Prop where
  within : (∀ v ∈ s.2, P v) → ∀ v ∈ s'.2, P v
  nodup : s'.2.Nodup
  seen : ∀ v ∈ s'.2, v ∈ s'.1
  mono : ∀ v ∈ s.1, v ∈ s'.1
  fresh : ∀ v ∈ s.1, v ∈ s'.2 → v ∈ s.2

theorem Leaves.trans {P : V → Prop} {s s' s'' : Finset V × List V} (h : Leaves P s s')
    (h' : Leaves P s' s'') : Leaves P s s'' where
  within hP := h'.within (h.within hP)
  nodup := h'.nodup
  seen := h'.seen
  mono v hv := h'.mono v (h.mono v hv)
  fresh v hv hmem := h.fresh v hv (h'.fresh v (h.mono v hv) hmem)

variable [DecidableEq V] {rank : V → ℕ}

theorem edges_postorder {visit : V → Finset V × List V → Option (Finset V × List V)} {v : V}
    (hvisit : ∀ {c s}, rank c < rank v → c ∉ s.1 → Inv children rank (rank c) s →
      ∃ s', visit c s = some s' ∧ Inv children rank (rank c) s' ∧ Grows s s' ∧ c ∈ s'.2) :
    ∀ (es : List V) {s}, (∀ c ∈ es, rank c < rank v) → (∀ x ∈ s.1, x ∉ s.2 → rank v ≤ rank x) →
      Closed children s.2 → (∀ x ∈ s.2, x ∈ s.1) →
      ∃ s', (postorder children).edges visit v es s = some s' ∧ Closed children s'.2 ∧
        (∀ x ∈ s'.2, x ∈ s'.1) ∧ Grows s s' ∧ ∀ c ∈ es, c ∈ s'.2
  | [], s, _, _, hclosed, hseen => ⟨s, rfl, hclosed, hseen, 
      ⟨fun _ h => h, fun _ h => h, fun _ h h' => ⟨h, h'⟩⟩, by simp⟩
  | c :: es, s, hes, habove, hclosed, hseen => by
    have hc := hes c List.mem_cons_self
    have hrest := fun d hd => hes d (List.mem_cons_of_mem c hd)
    by_cases hcs : c ∈ s.1
    · -- a vertex that was seen is not being visited, since its rank is too small
      have hleft : c ∈ s.2 := by
        by_contra hnot
        exact absurd (habove c hcs hnot) (by omega)
      obtain ⟨s', hs', hclosed', hseen', hgrows, hmem⟩ :=
        edges_postorder hvisit es hrest habove hclosed hseen
      refine ⟨s', ?_, hclosed', hseen', hgrows, fun d hd => ?_⟩
      · rw [DepthFirst.Ops.edges, if_neg (by simpa [postorder] using hcs)]
        exact hs'
      · rcases List.mem_cons.1 hd with rfl | hd
        · exact hgrows.left d hleft
        · exact hmem d hd
    · obtain ⟨s₁, hs₁, hinv₁, hgrows₁, hmem₁⟩ := hvisit hc hcs
        ⟨hclosed, hseen, fun x hx hnot => hc.trans_le (habove x hx hnot)⟩
      have habove₁ : ∀ x ∈ s₁.1, x ∉ s₁.2 → rank v ≤ rank x := fun x hx hnot =>
        (fun h => habove x h.1 h.2) (hgrows₁.visiting x hx hnot)
      obtain ⟨s', hs', hclosed', hseen', hgrows, hmem⟩ :=
        edges_postorder hvisit es hrest habove₁ hinv₁.closed hinv₁.seen
      refine ⟨s', ?_, hclosed', hseen', hgrows₁.trans hgrows, fun d hd => ?_⟩
      · rw [DepthFirst.Ops.edges, if_pos (by simpa [postorder] using hcs), hs₁, Option.bind_some]
        exact hs'
      · rcases List.mem_cons.1 hd with rfl | hd
        · exact hgrows.left d hmem₁
        · exact hmem d hd

/-- With children of smaller rank, the search from `v` ends and leaves a closed list with `v`. -/
theorem visit_postorder (hrank : ∀ v, ∀ c ∈ children v, rank c < rank v) (fuel : ℕ) :
    ∀ {v s}, rank v < fuel → v ∉ s.1 → Inv children rank (rank v) s →
      ∃ s', (postorder children).visit fuel v s = some s' ∧ Inv children rank (rank v) s' ∧
        Grows s s' ∧ v ∈ s'.2 := by
  induction fuel with
  | zero => exact fun hfuel => absurd hfuel (Nat.not_lt_zero _)
  | succ fuel ih =>
    intro v s hfuel hv hinv
    have hvisit : ∀ {c s}, rank c < rank v → c ∉ s.1 → Inv children rank (rank c) s →
        ∃ s', (postorder children).visit fuel c s = some s' ∧ Inv children rank (rank c) s' ∧
          Grows s s' ∧ c ∈ s'.2 := fun hc => ih (by omega)
    have habove : ∀ x ∈ insert v s.1, x ∉ s.2 → rank v ≤ rank x := by
      intro x hx hnot
      rcases Finset.mem_insert.1 hx with rfl | hx
      · exact le_rfl
      · exact (hinv.above x hx hnot).le
    obtain ⟨s', hs', hclosed, hseen, hgrows, hmem⟩ := edges_postorder hvisit (children v)
      (s := (insert v s.1, s.2)) (hrank v) habove hinv.closed
      fun x hx => Finset.mem_insert_of_mem (hinv.seen x hx)
    have hvisiting : ∀ x ∈ s'.1, x ∉ s'.2 ++ [v] → x ∈ s.1 ∧ x ∉ s.2 := by
      intro x hx hnot
      rw [List.mem_append, List.mem_singleton, not_or] at hnot
      obtain ⟨hx, hxs⟩ := hgrows.visiting x hx hnot.1
      exact ⟨(Finset.mem_insert.1 hx).resolve_left hnot.2, hxs⟩
    refine ⟨(s'.1, s'.2 ++ [v]), ?_, ⟨hclosed.concat hmem, fun x hx => ?_, fun x hx hnot => ?_⟩,
      ⟨fun x hx => hgrows.seen x (Finset.mem_insert_of_mem hx),
        fun x hx => List.mem_append_left _ (hgrows.left x hx), hvisiting⟩, by simp⟩
    · have henter : (postorder children).edges ((postorder children).visit fuel) v
          ((postorder children).succs v) ((postorder children).enter v s) = some s' := hs'
      rw [DepthFirst.Ops.visit, henter]
      rfl
    · rcases List.mem_append.1 hx with hx | hx
      · exact hseen x hx
      · rw [List.mem_singleton.1 hx]
        exact hgrows.seen v (Finset.mem_insert_self v s.1)
    · exact (fun h => hinv.above x h.1 h.2) (hvisiting x hx hnot)

/-- Search from each of the given vertices that was not seen before; `none` when the fuel runs out. -/
def visitAll (children : V → List V) (fuel : ℕ) :
    List V → Finset V × List V → Option (Finset V × List V)
  | [], s => some s
  | v :: rest, s =>
    if v ∈ s.1 then visitAll children fuel rest s
    else ((postorder children).visit fuel v s).bind (visitAll children fuel rest)

/-- More fuel does not change the result. -/
theorem visitAll_mono {fuel fuel' : ℕ} (hle : fuel ≤ fuel') {r : Finset V × List V} :
    ∀ {vs : List V} {s : Finset V × List V}, visitAll children fuel vs s = some r →
      visitAll children fuel' vs s = some r
  | [], _, hr => hr
  | v :: vs, s, hr => by
    rw [visitAll] at hr ⊢
    split_ifs at hr ⊢ with hv
    · exact visitAll_mono hle hr
    · obtain ⟨s₁, hs₁, hr⟩ := Option.bind_eq_some_iff.1 hr
      rw [DepthFirst.Ops.visit_mono _ hle hs₁, Option.bind_some]
      exact visitAll_mono hle hr

/-- The search from several vertices leaves a closed list of everything it has seen. -/
theorem visitAll_postorder (hrank : ∀ v, ∀ c ∈ children v, rank c < rank v) {fuel : ℕ} :
    ∀ {vs : List V} {s : Finset V × List V}, (∀ v ∈ vs, rank v < fuel) → Closed children s.2 →
      (∀ v, v ∈ s.1 ↔ v ∈ s.2) →
      ∃ s', visitAll children fuel vs s = some s' ∧ Closed children s'.2 ∧
        (∀ v ∈ s.2, v ∈ s'.2) ∧ ∀ v ∈ vs, v ∈ s'.2
  | [], s, _, hclosed, _ => ⟨s, rfl, hclosed, fun _ hv => hv, by simp⟩
  | v :: vs, s, hfuel, hclosed, hseen => by
    have hrest : ∀ x ∈ vs, rank x < fuel := fun x hx => hfuel x (List.mem_cons_of_mem v hx)
    by_cases hv : v ∈ s.1
    · obtain ⟨s', hs', hclosed', hmono, hmem⟩ := visitAll_postorder hrank hrest hclosed hseen
      refine ⟨s', by rw [visitAll, if_pos hv, hs'], hclosed', hmono, fun x hx => ?_⟩
      rcases List.mem_cons.1 hx with rfl | hx
      · exact hmono x ((hseen x).1 hv)
      · exact hmem x hx
    · obtain ⟨s₁, hs₁, hinv₁, hgrows₁, hmem₁⟩ := visit_postorder hrank fuel
        (hfuel v List.mem_cons_self) hv
        ⟨hclosed, fun x hx => (hseen x).2 hx, fun x hx hnot => absurd ((hseen x).1 hx) hnot⟩
      have hseen₁ : ∀ x, x ∈ s₁.1 ↔ x ∈ s₁.2 := by
        intro x
        refine ⟨fun hx => ?_, hinv₁.seen x⟩
        by_contra hnot
        obtain ⟨hx, hnot⟩ := hgrows₁.visiting x hx hnot
        exact hnot ((hseen x).1 hx)
      obtain ⟨s', hs', hclosed', hmono, hmem⟩ :=
        visitAll_postorder hrank hrest hinv₁.closed hseen₁
      refine ⟨s', by rw [visitAll, if_neg hv, hs₁, Option.bind_some, hs'], hclosed',
        fun x hx => hmono x (hgrows₁.left x hx), fun x hx => ?_⟩
      rcases List.mem_cons.1 hx with rfl | hx
      · exact hmono x hmem₁
      · exact hmem x hx

theorem edges_leaves {P : V → Prop} {visit : V → Finset V × List V → Option (Finset V × List V)}
    {v : V}
    (hvisit : ∀ {c s s'}, P c → visit c s = some s' → c ∉ s.1 → s.2.Nodup → (∀ x ∈ s.2, x ∈ s.1) →
      Leaves P s s') :
    ∀ {es : List V} {s s'}, (∀ c ∈ es, P c) → (postorder children).edges visit v es s = some s' →
      s.2.Nodup → (∀ x ∈ s.2, x ∈ s.1) → Leaves P s s'
  | [], s, s', _, hs', hnodup, hseen => by
    obtain rfl : s = s' := Option.some.inj hs'
    exact ⟨fun hP => hP, hnodup, hseen, fun _ hx => hx, fun _ _ hx => hx⟩
  | c :: es, s, s', hP, hs', hnodup, hseen => by
    have hrest := fun d hd => hP d (List.mem_cons_of_mem c hd)
    rw [DepthFirst.Ops.edges] at hs'
    split_ifs at hs' with hc
    · obtain ⟨s₁, hs₁, hs'⟩ := Option.bind_eq_some_iff.1 hs'
      have h₁ := hvisit (hP c List.mem_cons_self) hs₁ (of_decide_eq_true hc) hnodup hseen
      exact h₁.trans (edges_leaves hvisit hrest hs' h₁.nodup h₁.seen)
    · exact edges_leaves hvisit hrest hs' hnodup hseen

/-- The search from `v` leaves the vertices that it enters, each once. -/
theorem visit_leaves {P : V → Prop} (hchildren : ∀ v, P v → ∀ c ∈ children v, P c) (fuel : ℕ) :
    ∀ {v : V} {s s'}, P v → (postorder children).visit fuel v s = some s' → v ∉ s.1 → s.2.Nodup →
      (∀ x ∈ s.2, x ∈ s.1) → Leaves P s s' := by
  induction fuel with
  | zero => exact fun _ h => absurd h (by simp [DepthFirst.Ops.visit])
  | succ fuel ih =>
    intro v s s' hP hs' hv hnodup hseen
    rw [DepthFirst.Ops.visit] at hs'
    obtain ⟨s₁, hs₁, rfl⟩ := Option.map_eq_some_iff.1 hs'
    have h₁ : Leaves P (insert v s.1, s.2) s₁ := edges_leaves (fun hPc h => ih hPc h)
      (hchildren v hP) hs₁ hnodup fun x hx => Finset.mem_insert_of_mem (hseen x hx)
    -- `v` is seen while its children are searched, so that none of these searches leaves it
    have hnot : v ∉ s₁.2 := fun hmem =>
      hv (hseen v (h₁.fresh v (Finset.mem_insert_self v s.1) hmem))
    have hleft : (s₁.2 ++ [v]).Nodup := by
      rw [← List.concat_eq_append]
      exact h₁.nodup.concat hnot
    refine ⟨fun hPs x hx => ?_, hleft, fun x hx => ?_, fun x hx => ?_, fun x hx hmem => ?_⟩
    · rcases List.mem_append.1 hx with hx | hx
      · exact h₁.within hPs x hx
      · rwa [List.mem_singleton.1 hx]
    · rcases List.mem_append.1 hx with hx | hx
      · exact h₁.seen x hx
      · rw [List.mem_singleton.1 hx]
        exact h₁.mono v (Finset.mem_insert_self v s.1)
    · exact h₁.mono x (Finset.mem_insert_of_mem hx)
    · rcases List.mem_append.1 hmem with hmem | hmem
      · exact h₁.fresh x (Finset.mem_insert_of_mem hx) hmem
      · exact absurd (List.mem_singleton.1 hmem ▸ hx) hv

theorem visitAll_leaves {P : V → Prop} (hchildren : ∀ v, P v → ∀ c ∈ children v, P c) {fuel : ℕ} :
    ∀ {vs : List V} {s s' : Finset V × List V}, (∀ v ∈ vs, P v) →
      visitAll children fuel vs s = some s' → s.2.Nodup → (∀ x ∈ s.2, x ∈ s.1) → Leaves P s s'
  | [], s, s', _, hs', hnodup, hseen => by
    obtain rfl : s = s' := Option.some.inj hs'
    exact ⟨fun hP => hP, hnodup, hseen, fun _ hx => hx, fun _ _ hx => hx⟩
  | v :: vs, s, s', hP, hs', hnodup, hseen => by
    have hrest := fun x hx => hP x (List.mem_cons_of_mem v hx)
    rw [visitAll] at hs'
    split_ifs at hs' with hv
    · exact visitAll_leaves hchildren hrest hs' hnodup hseen
    · obtain ⟨s₁, hs₁, hs'⟩ := Option.bind_eq_some_iff.1 hs'
      have h₁ := visit_leaves hchildren fuel (hP v List.mem_cons_self) hs₁ hv hnodup hseen
      exact h₁.trans (visitAll_leaves hchildren hrest hs' h₁.nodup h₁.seen)

/-! ### The single pass -/

variable {τ : Type*} [DecidableEq τ]

/-- Add the set of `v` to that of each of the vertices. -/
def addTo (v : V) (cs : List V) (T : V → Finset τ) : V → Finset τ :=
  cs.foldl (fun T c => Function.update T c (T c ∪ T v)) T

/-- Pass the set of each vertex on to its children, in the given order. -/
def pass (children : V → List V) (order : List V) (T : V → Finset τ) : V → Finset τ :=
  order.foldl (fun T v => addTo v (children v) T) T

theorem mem_addTo {v i : V} {t : τ} : ∀ {cs : List V} {T : V → Finset τ}, v ∉ cs →
    (t ∈ addTo v cs T i ↔ t ∈ T i ∨ i ∈ cs ∧ t ∈ T v)
  | [], _, _ => by simp [addTo]
  | c :: cs, T, hv => by
    obtain ⟨hvc, hv⟩ := not_or.1 (List.mem_cons.not.1 hv)
    have hsame : Function.update T c (T c ∪ T v) v = T v := Function.update_of_ne hvc _ _
    have hrest := mem_addTo (i := i) (t := t) (T := Function.update T c (T c ∪ T v)) hv
    rw [addTo] at hrest
    rw [addTo, List.foldl_cons, hrest, hsame, List.mem_cons]
    by_cases hic : i = c
    · rw [hic, Function.update_self, Finset.mem_union]
      tauto
    · rw [Function.update_of_ne hic]
      tauto

/-- Against the order of a closed list, one pass moves everything along all paths that start in the
list. -/
theorem mem_pass_iff (hself : ∀ v, v ∉ children v) {l : List V} (h : Closed children l)
    {T : V → Finset τ} {i : V} {t : τ} : t ∈ pass children l.reverse T i ↔
      ∃ j, StronglyConnected.Reach children j i ∧ (j ∈ l ∨ j = i) ∧ t ∈ T j := by
  induction h generalizing T with
  | nil =>
    rw [List.reverse_nil, pass, List.foldl_nil]
    constructor
    · exact fun ht => ⟨i, .refl, Or.inr rfl, ht⟩
    · rintro ⟨j, -, hj, ht⟩
      rwa [hj.resolve_left List.not_mem_nil] at ht
  | @concat l v _ hchildren ih =>
    have hstep : pass children (l ++ [v]).reverse T =
        pass children l.reverse (addTo v (children v) T) := by
      rw [List.reverse_append, List.reverse_singleton, List.singleton_append, pass,
        List.foldl_cons, pass]
    rw [hstep, ih]
    constructor
    · rintro ⟨j, hji, hj, ht⟩
      rcases (mem_addTo (hself v)).1 ht with ht | ⟨hjv, ht⟩
      · exact ⟨j, hji, hj.imp_left (List.mem_append_left _), ht⟩
      · exact ⟨v, hji.head hjv, Or.inl (by simp), ht⟩
    · rintro ⟨j, hji, hj, ht⟩
      have hkeep : t ∈ addTo v (children v) T j := (mem_addTo (hself v)).2 (Or.inl ht)
      rcases hj with hj | hj
      · rcases List.mem_append.1 hj with hj | hj
        · exact ⟨j, hji, Or.inl hj, hkeep⟩
        · -- what starts in the first vertex of the order goes through one of its children
          obtain rfl := List.mem_singleton.1 hj
          rcases Relation.ReflTransGen.cases_head hji with rfl | ⟨c, hc, hci⟩
          · exact ⟨j, hji, Or.inr rfl, hkeep⟩
          · exact ⟨c, hci, Or.inl (hchildren c hc), (mem_addTo (hself j)).2 (Or.inr ⟨hc, ht⟩)⟩
      · exact ⟨j, hji, Or.inr hj, hkeep⟩

end TopologicalOrder
