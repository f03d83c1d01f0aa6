import Mathlib.Data.List.Nodup
import Mathlib.Data.List.Chain
import Mathlib.Logic.Relation
import Mathlib.Tactic.Common
import Mathlib.Order.Defs.LinearOrder

/-!
# Strongly connected components by depth-first search

What the searches of Tarjan and of Pearce have in common. The vertices that are visited but not yet
in a component are in flight, latest first, with ranks that grow in the order of visiting. Each of
them has a low value: the rank of some vertex in flight that it reaches. At the end of a visit the
low value of the vertex is its own rank exactly when the vertices in flight from it on form a
component.

* `Search`: the invariant;
* `Search.enter`, `Search.seen`, `Search.root`, `Search.branch`: the moves of a search;
* `Search.same_component_iff`, `Search.component_le`: the components that a finished search has found.
-/

namespace StronglyConnected

theorem getElem?_concat {α : Type*} {l : List α} {c d : α} {i : ℕ} (h : (l ++ [c])[i]? = some d) :
    l[i]? = some d ∨ (i = l.length ∧ d = c) := by
  rcases lt_or_ge i l.length with hlt | hge
  · rw [List.getElem?_append_left hlt] at h
    exact Or.inl h
  · rw [List.getElem?_append_right hge, List.getElem?_singleton] at h
    split_ifs at h with h0
    exact Or.inr ⟨by omega, (Option.some.inj h).symm⟩

variable {V : Type*} {E : V → List V}

/-- `y` is reachable from `x` along the edges `E`. -/
abbrev Reach (E : V → List V) : V → V → Prop := Relation.ReflTransGen fun x y => y ∈ E x

/-- The edge from `x` to `y` is still to be searched. -/
def Pending (frames : List (V × List V)) (x y : V) : Prop := ∃ es, (x, es) ∈ frames ∧ y ∈ es

/-- The vertices being visited. -/
abbrev grays (frames : List (V × List V)) : List V := frames.map Prod.fst

@[simp] theorem grays_cons (f : V × List V) (frames : List (V × List V)) :
    grays (f :: frames) = f.1 :: grays frames := rfl

/-- `g` is the latest vertex being visited that was visited no later than `x`. -/
def Owns (frames : List (V × List V)) (rank : V → ℕ) (g x : V) : Prop :=
  rank g ≤ rank x ∧ ∀ g' ∈ grays frames, rank g' ≤ rank x → rank g' ≤ rank g

/-- `x` is in flight or in a component. -/
def Visited (flight : List V) (comps : List (List V)) (x : V) : Prop :=
  x ∈ flight ∨ x ∈ comps.flatten

/-- The invariant of a search, with the frames and the vertices in flight latest first and the
components in the order in which they were found. -/
structure Search (E : V → List V) (frames : List (V × List V)) (flight : List V) (rank low : V → ℕ)
    (comps : List (List V)) : Prop where
  gray_sublist : (grays frames).Sublist flight
  ranked : flight.Pairwise fun x y => rank y < rank x
  comps_nodup : comps.flatten.Nodup
  comps_disjoint : ∀ x ∈ flight, x ∉ comps.flatten
  subset : ∀ f ∈ frames, ∀ y ∈ f.2, y ∈ E f.1
  calls : frames.IsChain fun f g => ∃ rest, g.2 = f.1 :: rest
  explored : ∀ x, Visited flight comps x → ∀ y ∈ E x, Visited flight comps y ∨ Pending frames x y
  up : ∀ x ∈ flight, ∃ g ∈ grays frames, rank g ≤ rank x ∧ Reach E x g
  down : ∀ g ∈ grays frames, ∀ x ∈ flight, rank g ≤ rank x → Reach E g x
  low_le : ∀ x ∈ flight, low x ≤ rank x
  low_reach : ∀ x ∈ flight, ∃ y ∈ flight, rank y = low x ∧ Reach E x y
  low_owner : ∀ g ∈ grays frames, ∀ x ∈ flight, Owns frames rank g x → low g ≤ low x ∧
    ∀ y ∈ E x, y ∈ flight → ¬Pending frames x y → low g ≤ rank y
  comps_ne_nil : ∀ c ∈ comps, c ≠ []
  comps_reach : ∀ c ∈ comps, ∀ x ∈ c, ∀ y ∈ c, Reach E x y
  comps_closed : ∀ (i : ℕ) (c : List V), comps[i]? = some c → ∀ x ∈ c, ∀ y ∈ E x,
    ∃ (j : ℕ) (d : List V), j ≤ i ∧ comps[j]? = some d ∧ y ∈ d

namespace Search

variable {frames fr : List (V × List V)} {flight : List V} {rank low : V → ℕ}
  {comps : List (List V)}

/-- Before anything is visited. -/
theorem init (rank low : V → ℕ) : Search E [] [] rank low [] where
  gray_sublist := List.Sublist.slnil
  ranked := .nil
  comps_nodup := by simp
  comps_disjoint := by simp
  subset := by simp
  calls := by simp
  explored x hx := by simp [Visited] at hx
  up := by simp
  down := by simp
  low_le := by simp
  low_reach := by simp
  low_owner := by simp
  comps_ne_nil := by simp
  comps_reach := by simp
  comps_closed := by simp

theorem rank_injective (h : Search E frames flight rank low comps) {x y : V} (hx : x ∈ flight)
    (hy : y ∈ flight) (hxy : rank x = rank y) : x = y := by
  by_contra hne
  have hne' : flight.Pairwise fun x y => rank x ≠ rank y := h.ranked.imp fun h => h.ne'
  have : Std.Symm fun x y => rank x ≠ rank y := ⟨fun _ _ h => h.symm⟩
  exact hne'.forall hx hy hne hxy

/-- The latest vertex being visited has the greatest rank of those. -/
theorem gray_rank_lt {v : V} {es : List V} (h : Search E ((v, es) :: fr) flight rank low comps)
    {g : V} (hg : g ∈ grays fr) : rank g < rank v := by
  have hp := h.ranked.sublist h.gray_sublist
  exact (List.pairwise_cons.1 hp).1 g hg

theorem mem_flight_of_gray (h : Search E frames flight rank low comps) {g : V}
    (hg : g ∈ grays frames) : g ∈ flight :=
  h.gray_sublist.subset hg

/-- A search without frames has nothing in flight. -/
theorem flight_eq_nil (h : Search E [] flight rank low comps) : flight = [] := by
  apply List.eq_nil_iff_forall_not_mem.2
  intro x hx
  obtain ⟨g, hg, -⟩ := h.up x hx
  simp at hg

theorem nodup (h : Search E frames flight rank low comps) : flight.Nodup :=
  h.ranked.imp fun hlt heq => absurd (heq ▸ hlt) (lt_irrefl _)

/-- Only the low values in flight matter. -/
theorem congr_low (h : Search E frames flight rank low comps) {low' : V → ℕ}
    (hlow : ∀ x ∈ flight, low' x = low x) : Search E frames flight rank low' comps :=
  { h with
    low_le := fun x hx => hlow x hx ▸ h.low_le x hx
    low_reach := fun x hx => hlow x hx ▸ h.low_reach x hx
    low_owner := fun g hg x hx hown => by
      rw [hlow g (h.mem_flight_of_gray hg), hlow x hx]
      exact h.low_owner g hg x hx hown }

/-- Enter the unvisited vertex `v`, with a rank above all others. -/
theorem enter (h : Search E frames flight rank low comps) {v : V} (hv : ¬Visited flight comps v)
    (hcall : ∀ f ∈ frames.head?, ∃ rest, f.2 = v :: rest) {rank' low' : V → ℕ}
    (hrank : ∀ x ∈ flight, rank' x = rank x) (hlow : ∀ x ∈ flight, low' x = low x)
    (hfresh : ∀ x ∈ flight, rank x < rank' v) (hv' : low' v = rank' v) :
    Search E ((v, E v) :: frames) (v :: flight) rank' low' comps where
  gray_sublist := h.gray_sublist.cons_cons v
  ranked := by
    refine List.pairwise_cons.2 ⟨fun x hx => hrank x hx ▸ hfresh x hx, ?_⟩
    exact h.ranked.imp_of_mem fun hx hy hlt => by rwa [hrank _ hx, hrank _ hy]
  comps_nodup := h.comps_nodup
  comps_disjoint x hx := by
    rcases List.mem_cons.1 hx with rfl | hx
    · exact fun hc => hv (Or.inr hc)
    · exact h.comps_disjoint x hx
  subset f hf := by
    rcases List.mem_cons.1 hf with rfl | hf
    · exact fun y hy => hy
    · exact h.subset f hf
  calls := by
    cases frames with
    | nil => simp
    | cons f fr => exact List.isChain_cons_cons.2 ⟨hcall f rfl, h.calls⟩
  explored x hx y hy := by
    by_cases hxv : x = v
    · exact Or.inr ⟨E v, by simp [hxv], hxv ▸ hy⟩
    · have hx' : Visited flight comps x := by
        rcases hx with hx | hx
        · exact Or.inl ((List.mem_cons.1 hx).resolve_left hxv)
        · exact Or.inr hx
      rcases h.explored x hx' y hy with hy' | ⟨es, hes, hy'⟩
      · exact Or.inl (hy'.imp_left (List.mem_cons_of_mem v))
      · exact Or.inr ⟨es, List.mem_cons_of_mem _ hes, hy'⟩
  up x hx := by
    rcases List.mem_cons.1 hx with rfl | hx
    · exact ⟨x, List.mem_cons_self, le_rfl, .refl⟩
    · obtain ⟨g, hg, hle, hr⟩ := h.up x hx
      refine ⟨g, List.mem_cons_of_mem v hg, ?_, hr⟩
      rwa [hrank g (h.mem_flight_of_gray hg), hrank x hx]
  down g hg x hx hle := by
    have hgv : g ∈ flight → rank' g < rank' v := fun hg => hrank g hg ▸ hfresh g hg
    rcases List.mem_cons.1 hx with rfl | hxf
    · rcases List.mem_cons.1 hg with rfl | hg
      · exact .refl
      · -- the latest frame has an edge to the new vertex, and `g` reaches it
        cases frames with
        | nil => simp at hg
        | cons f fr =>
          obtain ⟨rest, hrest⟩ := hcall f rfl
          have hf : f.1 ∈ flight := h.mem_flight_of_gray (by simp)
          have hgf : rank g ≤ rank f.1 := by
            rcases List.mem_cons.1 hg with rfl | hg
            · exact le_rfl
            · exact (h.gray_rank_lt hg).le
          exact (h.down g hg f.1 hf hgf).tail
            (h.subset f List.mem_cons_self x (hrest ▸ List.mem_cons_self))
    · rcases List.mem_cons.1 hg with rfl | hg
      · rw [hrank x hxf] at hle
        exact absurd hle (not_le.2 (hfresh x hxf))
      · rw [hrank x hxf, hrank g (h.mem_flight_of_gray hg)] at hle
        exact h.down g hg x hxf hle
  low_le x hx := by
    rcases List.mem_cons.1 hx with rfl | hx
    · exact hv'.le
    · rw [hlow x hx, hrank x hx]
      exact h.low_le x hx
  low_reach x hx := by
    rcases List.mem_cons.1 hx with rfl | hx
    · exact ⟨x, List.mem_cons_self, hv'.symm, .refl⟩
    · obtain ⟨y, hy, hrk, hr⟩ := h.low_reach x hx
      exact ⟨y, List.mem_cons_of_mem v hy, by rw [hrank y hy, hlow x hx, hrk], hr⟩
  low_owner g hg x hx hown := by
    have hpend : ∀ y ∈ E v, Pending ((v, E v) :: frames) v y :=
      fun y hy => ⟨E v, List.mem_cons_self, hy⟩
    rcases List.mem_cons.1 hx with rfl | hxf
    · -- the new vertex owns itself, and none of its edges is searched
      rcases List.mem_cons.1 hg with rfl | hg
      · exact ⟨le_rfl, fun y hy _ hnp => absurd (hpend y hy) hnp⟩
      · have hgf := h.mem_flight_of_gray hg
        have := hown.2 x List.mem_cons_self le_rfl
        rw [hrank g hgf] at this
        exact absurd this (not_le.2 (hfresh g hgf))
    · rcases List.mem_cons.1 hg with rfl | hg
      · have := hown.1
        rw [hrank x hxf] at this
        exact absurd this (not_le.2 (hfresh x hxf))
      · have hgf := h.mem_flight_of_gray hg
        have hown' : Owns frames rank g x := by
          refine ⟨by simpa [hrank x hxf, hrank g hgf] using hown.1, fun g' hg' hle => ?_⟩
          have hgf' := h.mem_flight_of_gray hg'
          have := hown.2 g' (List.mem_cons_of_mem v hg')
          rw [hrank g' hgf', hrank x hxf, hrank g hgf] at this
          exact this hle
        obtain ⟨hlo, hedges⟩ := h.low_owner g hg x hxf hown'
        rw [hlow g hgf, hlow x hxf]
        refine ⟨hlo, fun y hy hyf hnp => ?_⟩
        have hnp' : ¬Pending frames x y :=
          fun ⟨es, hes, hy'⟩ => hnp ⟨es, List.mem_cons_of_mem _ hes, hy'⟩
        rcases List.mem_cons.1 hyf with rfl | hyf
        · rcases h.explored x (Or.inl hxf) y hy with hvis | hp
          · exact absurd hvis hv
          · exact absurd hp hnp'
        · rw [hrank y hyf]
          exact hedges y hy hyf hnp'
  comps_ne_nil := h.comps_ne_nil
  comps_reach := h.comps_reach
  comps_closed := h.comps_closed

/-- A vertex being visited owns itself only. -/
theorem owner_of_gray (h : Search E frames flight rank low comps) {g x : V} (hg : g ∈ grays frames)
    (hx : x ∈ grays frames) (hown : Owns frames rank g x) : g = x :=
  h.rank_injective (h.mem_flight_of_gray hg) (h.mem_flight_of_gray hx)
    (le_antisymm hown.1 (hown.2 x hx le_rfl))

/-- What is left of a frame is pending once its first edge is searched. -/
theorem pending_of_cons {v w x y : V} {rest : List V} (h : Pending ((v, w :: rest) :: fr) x y) :
    Pending ((v, rest) :: fr) x y ∨ (x = v ∧ y = w) := by
  obtain ⟨es, hes, hy⟩ := h
  rcases List.mem_cons.1 hes with heq | hes
  · obtain ⟨rfl, rfl⟩ := Prod.mk.inj heq
    rcases List.mem_cons.1 hy with rfl | hy
    · exact Or.inr ⟨rfl, rfl⟩
    · exact Or.inl ⟨rest, List.mem_cons_self, hy⟩
  · exact Or.inl ⟨es, List.mem_cons_of_mem _ hes, hy⟩

/-- Search an edge to a visited vertex `w`: the low value of `v` may fall to a rank that `v`
reaches, and falls to the rank of `w` at least if `w` is in flight. -/
theorem seen {v w : V} {rest : List V}
    (h : Search E ((v, w :: rest) :: fr) flight rank low comps) (hw : Visited flight comps w)
    {low' : V → ℕ} (hlow : ∀ x ∈ flight, x ≠ v → low' x = low x) (hle : low' v ≤ low v)
    (hreach : ∃ y ∈ flight, rank y = low' v ∧ Reach E v y) (hlow' : w ∈ flight → low' v ≤ rank w) :
    Search E ((v, rest) :: fr) flight rank low' comps where
  gray_sublist := h.gray_sublist
  ranked := h.ranked
  comps_nodup := h.comps_nodup
  comps_disjoint := h.comps_disjoint
  subset f hf := by
    rcases List.mem_cons.1 hf with rfl | hf
    · exact fun y hy => h.subset _ List.mem_cons_self y (List.mem_cons_of_mem w hy)
    · exact h.subset f (List.mem_cons_of_mem _ hf)
  calls := by
    cases fr with
    | nil => simp
    | cons f fr => exact List.isChain_cons_cons.2 (List.isChain_cons_cons.1 h.calls)
  explored x hx y hy := by
    rcases h.explored x hx y hy with hvis | hp
    · exact Or.inl hvis
    · rcases pending_of_cons hp with hp | ⟨-, rfl⟩
      · exact Or.inr hp
      · exact Or.inl hw
  up := h.up
  down := h.down
  low_le x hx := by
    by_cases hxv : x = v
    · subst hxv
      exact hle.trans (h.low_le x hx)
    · rw [hlow x hx hxv]
      exact h.low_le x hx
  low_reach x hx := by
    by_cases hxv : x = v
    · exact hxv ▸ hreach
    · rw [hlow x hx hxv]
      exact h.low_reach x hx
  low_owner g hg x hx hown := by
    have hown' : Owns ((v, w :: rest) :: fr) rank g x := hown
    obtain ⟨hlo, hedges⟩ := h.low_owner g hg x hx hown'
    have hle' : low' g ≤ low g := by
      by_cases hgv : g = v
      · exact hgv ▸ hle
      · exact (hlow g (h.mem_flight_of_gray hg) hgv).le
    refine ⟨?_, fun y hy hyf hnp => ?_⟩
    · by_cases hxv : x = v
      · subst hxv
        rw [h.owner_of_gray hg List.mem_cons_self hown']
      · rw [hlow x hx hxv]
        exact hle'.trans hlo
    · by_cases hp : Pending ((v, w :: rest) :: fr) x y
      · obtain ⟨rfl, rfl⟩ := (pending_of_cons hp).resolve_left hnp
        rw [h.owner_of_gray hg List.mem_cons_self hown']
        exact hlow' hyf
      · exact hle'.trans (hedges y hy hyf hp)
  comps_ne_nil := h.comps_ne_nil
  comps_reach := h.comps_reach
  comps_closed := h.comps_closed

/-- The latest vertex being visited owns everything from it on. -/
theorem owns_latest {v : V} {es : List V} (h : Search E ((v, es) :: fr) flight rank low comps) {x : V}
    (hle : rank v ≤ rank x) : Owns ((v, es) :: fr) rank v x := by
  refine ⟨hle, fun g hg _ => ?_⟩
  rcases List.mem_cons.1 hg with rfl | hg
  · exact le_rfl
  · exact (h.gray_rank_lt hg).le

/-- A vertex in flight reaches the latest vertex being visited if it was visited no earlier. -/
theorem reach_latest {v : V} {es : List V} (h : Search E ((v, es) :: fr) flight rank low comps) {x : V}
    (hx : x ∈ flight) : Reach E x v := by
  obtain ⟨g, hg, -, hr⟩ := h.up x hx
  rcases List.mem_cons.1 hg with rfl | hg'
  · exact hr
  · exact hr.trans (h.down g hg v (h.mem_flight_of_gray List.mem_cons_self) (h.gray_rank_lt hg').le)

theorem pending_of_nil {v x y : V} (h : Pending ((v, []) :: fr) x y) : Pending fr x y := by
  obtain ⟨es, hes, hy⟩ := h
  rcases List.mem_cons.1 hes with heq | hes
  · obtain ⟨rfl, rfl⟩ := Prod.mk.inj heq
    simp at hy
  · exact ⟨es, hes, hy⟩

theorem gray_of_pending {x y : V} (h : Pending frames x y) : x ∈ grays frames := by
  obtain ⟨es, hes, -⟩ := h
  exact List.mem_map_of_mem hes

/-- Moving a part of what is in flight to a component visits nothing. -/
theorem visited_root_iff {v : V} {comp : List V}
    (hcomp : ∀ x, x ∈ comp ↔ x ∈ flight ∧ rank v ≤ rank x) (x : V) :
    Visited (flight.filter fun x => decide (rank x < rank v)) (comps ++ [comp]) x ↔
      Visited flight comps x := by
  simp only [Visited, List.mem_filter, decide_eq_true_eq, List.flatten_append, List.mem_append,
    List.flatten_cons, List.flatten_nil, List.append_nil, hcomp]
  have := lt_or_ge (rank x) (rank v)
  tauto

/-- Leave `v` when its low value is its rank: what is in flight from it on is a component. -/
theorem root {v : V} (h : Search E ((v, []) :: fr) flight rank low comps) (hroot : low v = rank v)
    {comp : List V} (hnodup : comp.Nodup) (hcomp : ∀ x, x ∈ comp ↔ x ∈ flight ∧ rank v ≤ rank x) :
    Search E fr (flight.filter fun x => decide (rank x < rank v)) rank low (comps ++ [comp]) := by
  have hv : v ∈ flight := h.mem_flight_of_gray List.mem_cons_self
  have hmem : ∀ {x}, x ∈ flight.filter (fun x => decide (rank x < rank v)) ↔
      x ∈ flight ∧ rank x < rank v := by simp
  have hvis : ∀ x, Visited _ (comps ++ [comp]) x ↔ Visited flight comps x :=
    visited_root_iff hcomp
  exact {
    gray_sublist := by
      have hs := h.gray_sublist.filter fun x => decide (rank x < rank v)
      have hself : (grays fr).filter (fun x => decide (rank x < rank v)) = grays fr :=
        List.filter_eq_self.2 fun g hg => decide_eq_true (h.gray_rank_lt hg)
      rwa [show grays ((v, []) :: fr) = v :: grays fr from rfl,
        List.filter_cons_of_neg (by simp), hself] at hs
    ranked := h.ranked.filter _
    comps_nodup := by
      rw [List.flatten_append, List.flatten_cons, List.flatten_nil, List.append_nil,
        List.nodup_append]
      refine ⟨h.comps_nodup, hnodup, fun x hx y hy hxy => ?_⟩
      exact h.comps_disjoint y ((hcomp y).1 hy).1 (hxy ▸ hx)
    comps_disjoint := by
      intro x hx hc
      rw [hmem] at hx
      rw [List.flatten_append, List.mem_append, List.flatten_cons, List.flatten_nil,
        List.append_nil, hcomp] at hc
      rcases hc with hc | hc
      · exact h.comps_disjoint x hx.1 hc
      · exact absurd hc.2 (not_le.2 hx.2)
    subset := fun f hf => h.subset f (List.mem_cons_of_mem _ hf)
    calls := h.calls.tail
    explored := by
      intro x hx y hy
      rw [hvis] at hx ⊢
      exact (h.explored x hx y hy).imp_right pending_of_nil
    up := by
      intro x hx
      rw [hmem] at hx
      obtain ⟨g, hg, hle, hr⟩ := h.up x hx.1
      rcases List.mem_cons.1 hg with rfl | hg
      · exact absurd hle (not_le.2 hx.2)
      · exact ⟨g, hg, hle, hr⟩
    down := fun g hg x hx hle => h.down g (List.mem_cons_of_mem v hg) x (hmem.1 hx).1 hle
    low_le := fun x hx => h.low_le x (hmem.1 hx).1
    low_reach := by
      intro x hx
      rw [hmem] at hx
      obtain ⟨y, hy, hrk, hr⟩ := h.low_reach x hx.1
      exact ⟨y, hmem.2 ⟨hy, hrk ▸ (h.low_le x hx.1).trans_lt hx.2⟩, hrk, hr⟩
    low_owner := by
      intro g hg x hx hown
      rw [hmem] at hx
      have hown' : Owns ((v, []) :: fr) rank g x := by
        refine ⟨hown.1, fun g' hg' hle => ?_⟩
        rcases List.mem_cons.1 hg' with rfl | hg'
        · exact absurd hle (not_le.2 hx.2)
        · exact hown.2 g' hg' hle
      obtain ⟨hlo, hedges⟩ := h.low_owner g (List.mem_cons_of_mem v hg) x hx.1 hown'
      exact ⟨hlo, fun y hy hyf hnp =>
        hedges y hy (hmem.1 hyf).1 fun hp => hnp (pending_of_nil hp)⟩
    comps_ne_nil := by
      intro c hc
      rcases List.mem_append.1 hc with hc | hc
      · exact h.comps_ne_nil c hc
      · obtain rfl := List.mem_singleton.1 hc
        exact List.ne_nil_of_mem ((hcomp v).2 ⟨hv, le_rfl⟩)
    comps_reach := by
      intro c hc x hx y hy
      rcases List.mem_append.1 hc with hc | hc
      · exact h.comps_reach c hc x hx y hy
      · obtain rfl := List.mem_singleton.1 hc
        rw [hcomp] at hx hy
        exact (h.reach_latest hx.1).trans (h.down v List.mem_cons_self y hy.1 hy.2)
    comps_closed := by
      intro i c hi x hx y hy
      rcases lt_or_ge i comps.length with hlt | hge
      · rw [List.getElem?_append_left hlt] at hi
        obtain ⟨j, d, hj, hd, hyd⟩ := h.comps_closed i c hi x hx y hy
        exact ⟨j, d, hj, by rw [List.getElem?_append_left (hj.trans_lt hlt), hd], hyd⟩
      · -- the new component: its edges lead into it or into an earlier one
        rw [List.getElem?_append_right hge, List.getElem?_singleton] at hi
        split_ifs at hi with h0
        obtain rfl := Option.some.inj hi
        rw [hcomp] at hx
        have hnp : ¬Pending ((v, []) :: fr) x y := by
          intro hp
          have hlt := h.gray_rank_lt (gray_of_pending (pending_of_nil hp))
          exact absurd hx.2 (not_le.2 hlt)
        rcases (h.explored x (Or.inl hx.1) y hy).resolve_right hnp with hyf | hyc
        · have hlow := (h.low_owner v List.mem_cons_self x hx.1 (h.owns_latest hx.2)).2 y hy hyf hnp
          refine ⟨comps.length, comp, by omega, by simp, (hcomp y).2 ⟨hyf, hroot ▸ hlow⟩⟩
        · obtain ⟨d, hd, hyd⟩ := List.mem_flatten.1 hyc
          obtain ⟨j, hj, rfl⟩ := List.getElem_of_mem hd
          exact ⟨j, comps[j], by omega, by simp [List.getElem?_append_left hj], hyd⟩ }

/-- The first vertex of a search is a root when it is left. -/
theorem root_of_alone {v : V} (h : Search E [(v, [])] flight rank low comps) : low v = rank v := by
  have hv : v ∈ flight := h.mem_flight_of_gray List.mem_cons_self
  obtain ⟨y, hy, hrk, -⟩ := h.low_reach v hv
  obtain ⟨g, hg, hle, -⟩ := h.up y hy
  obtain rfl : g = v := by simpa using hg
  exact le_antisymm (h.low_le g hv) (hrk ▸ hle)

/-- Leave `v` when its low value is less than its rank: it stays in flight, and the low value of the
vertex `u` that it was visited from falls to its low value at least. -/
theorem branch {u v : V} {rest : List V}
    (h : Search E ((v, []) :: (u, v :: rest) :: fr) flight rank low comps) (hlt : low v < rank v)
    {low' : V → ℕ} (hlow : ∀ x ∈ flight, x ≠ u → low' x = low x) (hle : low' u ≤ low u)
    (hlev : low' u ≤ low v) (hreach : ∃ y ∈ flight, rank y = low' u ∧ Reach E u y) :
    Search E ((u, rest) :: fr) flight rank low' comps := by
  have hv : v ∈ flight := h.mem_flight_of_gray List.mem_cons_self
  have huv : rank u < rank v := h.gray_rank_lt List.mem_cons_self
  have hpend : ∀ {x y}, Pending ((v, []) :: (u, v :: rest) :: fr) x y →
      Pending ((u, rest) :: fr) x y ∨ (x = u ∧ y = v) :=
    fun hp => pending_of_cons (pending_of_nil hp)
  have hgray : ∀ {g}, g ∈ grays ((u, rest) :: fr) →
      g ∈ grays ((v, []) :: (u, v :: rest) :: fr) := List.mem_cons_of_mem v
  exact {
    gray_sublist := (List.sublist_cons_self v _).trans h.gray_sublist
    ranked := h.ranked
    comps_nodup := h.comps_nodup
    comps_disjoint := h.comps_disjoint
    subset := by
      intro f hf
      rcases List.mem_cons.1 hf with rfl | hf
      · exact fun y hy => h.subset (u, v :: rest) (by simp) y (List.mem_cons_of_mem v hy)
      · exact h.subset f (List.mem_cons_of_mem _ (List.mem_cons_of_mem _ hf))
    calls := by
      have hc := h.calls.tail
      cases fr with
      | nil => simp
      | cons f fr => exact List.isChain_cons_cons.2 (List.isChain_cons_cons.1 hc)
    explored := by
      intro x hx y hy
      rcases h.explored x hx y hy with hvis | hp
      · exact Or.inl hvis
      · rcases hpend hp with hp | ⟨-, rfl⟩
        · exact Or.inr hp
        · exact Or.inl (Or.inl hv)
    up := by
      intro x hx
      obtain ⟨g, hg, hgx, hr⟩ := h.up x hx
      rcases List.mem_cons.1 hg with rfl | hg
      · -- what `v` reaches below itself leads to an earlier frame
        obtain ⟨y, hy, hrk, hry⟩ := h.low_reach g hv
        obtain ⟨g', hg', hgy, hr'⟩ := h.up y hy
        rcases List.mem_cons.1 hg' with rfl | hg'
        · omega
        · exact ⟨g', hg', by omega, (hr.trans hry).trans hr'⟩
      · exact ⟨g, hg, hgx, hr⟩
    down := fun g hg => h.down g (hgray hg)
    low_le := by
      intro x hx
      by_cases hxu : x = u
      · subst hxu
        exact hle.trans (h.low_le x hx)
      · rw [hlow x hx hxu]
        exact h.low_le x hx
    low_reach := by
      intro x hx
      by_cases hxu : x = u
      · exact hxu ▸ hreach
      · rw [hlow x hx hxu]
        exact h.low_reach x hx
    low_owner := by
      intro g hg x hx hown
      rcases lt_or_ge (rank x) (rank v) with hxv | hxv
      · -- the owner is unchanged
        have hown' : Owns ((v, []) :: (u, v :: rest) :: fr) rank g x := by
          refine ⟨hown.1, fun g' hg' hg'x => ?_⟩
          rcases List.mem_cons.1 hg' with rfl | hg'
          · omega
          · exact hown.2 g' hg' hg'x
        obtain ⟨hlo, hedges⟩ := h.low_owner g (hgray hg) x hx hown'
        have hle' : low' g ≤ low g := by
          by_cases hgu : g = u
          · exact hgu ▸ hle
          · exact (hlow g (h.mem_flight_of_gray (hgray hg)) hgu).le
        refine ⟨?_, fun y hy hyf hnp => ?_⟩
        · by_cases hxu : x = u
          · subst hxu
            rw [h.owner_of_gray (hgray hg) (by simp) hown']
          · rw [hlow x hx hxu]
            exact hle'.trans hlo
        · by_cases hp : Pending ((v, []) :: (u, v :: rest) :: fr) x y
          · obtain ⟨rfl, rfl⟩ := (hpend hp).resolve_left hnp
            rw [h.owner_of_gray (hgray hg) (by simp) hown']
            omega
          · exact hle'.trans (hedges y hy hyf hp)
      · -- what `v` owned now belongs to `u`
        have hgu : g = u := by
          have hug := hown.2 u List.mem_cons_self (by omega)
          rcases List.mem_cons.1 hg with rfl | hg'
          · rfl
          · have hlt' : rank g < rank u := by
              have hp := (h.ranked.sublist h.gray_sublist)
              exact (List.pairwise_cons.1 (List.pairwise_cons.1 hp).2).1 g hg'
            omega
        subst hgu
        obtain ⟨hlo, hedges⟩ := h.low_owner v List.mem_cons_self x hx (h.owns_latest hxv)
        have hxg : x ≠ g := by
          rintro rfl
          omega
        refine ⟨hlow x hx hxg ▸ hlev.trans hlo, fun y hy hyf hnp => ?_⟩
        refine hlev.trans (hedges y hy hyf fun hp => ?_)
        rcases hpend hp with hp | ⟨hxg', -⟩
        · exact hnp hp
        · exact hxg hxg'
    comps_ne_nil := h.comps_ne_nil
    comps_reach := h.comps_reach
    comps_closed := h.comps_closed }

/-! ### The components of a finished search -/

/-- A vertex is in one component only. -/
theorem component_unique (h : Search E frames flight rank low comps) {i j : ℕ} {c d : List V} {x : V}
    (hi : comps[i]? = some c) (hj : comps[j]? = some d) (hc : x ∈ c) (hd : x ∈ d) : i = j := by
  obtain ⟨hlt, rfl⟩ := List.getElem?_eq_some_iff.1 hi
  obtain ⟨hlt', rfl⟩ := List.getElem?_eq_some_iff.1 hj
  by_contra hne
  have hp := (List.nodup_flatten.1 h.comps_nodup).2
  rcases Nat.lt_or_gt_of_ne hne with hij | hij
  · exact List.pairwise_iff_getElem.1 hp i j hlt hlt' hij hc hd
  · exact List.pairwise_iff_getElem.1 hp j i hlt' hlt hij hd hc

/-- What a component reaches is in that or an earlier component. -/
theorem component_of_reach (h : Search E frames flight rank low comps) {i : ℕ} {c : List V} {x y : V}
    (hr : Reach E x y) (hi : comps[i]? = some c) (hx : x ∈ c) :
    ∃ (j : ℕ) (d : List V), j ≤ i ∧ comps[j]? = some d ∧ y ∈ d := by
  induction hr with
  | refl => exact ⟨i, c, le_rfl, hi, hx⟩
  | tail _ hedge ih =>
    obtain ⟨j, d, hj, hd, hz⟩ := ih
    obtain ⟨k, e, hk, he, hy⟩ := h.comps_closed j d hd _ hz _ hedge
    exact ⟨k, e, hk.trans hj, he, hy⟩

theorem component_le (h : Search E frames flight rank low comps) {i j : ℕ} {c d : List V} {x y : V}
    (hr : Reach E x y) (hi : comps[i]? = some c) (hx : x ∈ c) (hj : comps[j]? = some d)
    (hy : y ∈ d) : j ≤ i := by
  obtain ⟨k, e, hk, he, hye⟩ := h.component_of_reach hr hi hx
  exact h.component_unique hj he hy hye ▸ hk

/-- Two vertices share a component exactly when each reaches the other. -/
theorem same_component_iff (h : Search E frames flight rank low comps) {i j : ℕ} {c d : List V}
    {x y : V} (hi : comps[i]? = some c) (hx : x ∈ c) (hj : comps[j]? = some d) (hy : y ∈ d) :
    i = j ↔ Reach E x y ∧ Reach E y x := by
  constructor
  · rintro rfl
    obtain rfl : c = d := Option.some.inj (hi.symm.trans hj)
    have hc := List.mem_of_getElem? hi
    exact ⟨h.comps_reach c hc x hx y hy, h.comps_reach c hc y hy x hx⟩
  · rintro ⟨hxy, hyx⟩
    exact le_antisymm (h.component_le hyx hj hy hi hx) (h.component_le hxy hi hx hj hy)

end Search

end StronglyConnected
