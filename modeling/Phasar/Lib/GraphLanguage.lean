import Mathlib.Data.Set.Basic
import Mathlib.Tactic.Common

/-!
# The path language of a rooted graph

What can be read along the paths of a graph from its roots: the labels of vertices and the weights
of edges. Graphs that are related by a bisimulation have the same paths.

* `LabelledGraph`, `Path`, `InfinitePath`;
* `language`, `maximalLanguage`, `infiniteLanguage`;
* `Bisimulation`, `Bisimulation.language_eq` and its siblings.
-/

/-- A graph with labels at its vertices, weights at its edges, and roots. -/
structure LabelledGraph (V L W : Type*) where
  label : V → L
  Edge : V → W → V → Prop
  Root : V → Prop

namespace LabelledGraph

variable {V V' L W : Type*}

/-- A path from a vertex to another one, with the weight and the label that each edge leads to. -/
inductive Path (G : LabelledGraph V L W) : V → List (W × L) → V → Prop
  | nil (v : V) : Path G v [] v
  | cons {v t u : V} {w : W} {seq : List (W × L)} (h : G.Edge v w t) (htail : Path G t seq u) :
    Path G v ((w, G.label t) :: seq) u

/-- A path without end. -/
def InfinitePath (G : LabelledGraph V L W) (v : V) (seq : ℕ → W × L) : Prop :=
  ∃ f : ℕ → V, f 0 = v ∧ ∀ n, G.Edge (f n) (seq n).1 (f (n + 1)) ∧ (seq n).2 = G.label (f (n + 1))

/-- A vertex that no edge leaves. -/
def Sink (G : LabelledGraph V L W) (v : V) : Prop := ∀ w t, ¬ G.Edge v w t

/-- The labels and weights along paths from the roots. -/
def language (G : LabelledGraph V L W) : Set (L × List (W × L)) :=
  {p | ∃ v, G.Root v ∧ G.label v = p.1 ∧ ∃ u, G.Path v p.2 u}

/-- The labels and weights along paths that cannot be continued. -/
def maximalLanguage (G : LabelledGraph V L W) : Set (L × List (W × L)) :=
  {p | ∃ v, G.Root v ∧ G.label v = p.1 ∧ ∃ u, G.Path v p.2 u ∧ G.Sink u}

/-- The labels and weights along paths without end. -/
def infiniteLanguage (G : LabelledGraph V L W) : Set (L × (ℕ → W × L)) :=
  {p | ∃ v, G.Root v ∧ G.label v = p.1 ∧ G.InfinitePath v p.2}

/-- The part of a graph that has these vertices. -/
def restrict (G : LabelledGraph V L W) (S : V → Prop) : LabelledGraph V L W where
  label := G.label
  Edge v w t := G.Edge v w t ∧ S v ∧ S t
  Root v := G.Root v ∧ S v

/-- Related vertices have the same label, and edges of the same weights to related vertices. -/
structure Bisimulation (G : LabelledGraph V L W) (H : LabelledGraph V' L W) (R : V → V' → Prop) :
    Prop where
  label : ∀ {v v'}, R v v' → G.label v = H.label v'
  root : ∀ {v}, G.Root v → ∃ v', H.Root v' ∧ R v v'
  root_inv : ∀ {v'}, H.Root v' → ∃ v, G.Root v ∧ R v v'
  edge : ∀ {v v' w t}, R v v' → G.Edge v w t → ∃ t', H.Edge v' w t' ∧ R t t'
  edge_inv : ∀ {v v' w t'}, R v v' → H.Edge v' w t' → ∃ t, G.Edge v w t ∧ R t t'

namespace Bisimulation

variable {G : LabelledGraph V L W} {H : LabelledGraph V' L W} {R : V → V' → Prop}

theorem symm (h : Bisimulation G H R) : Bisimulation H G fun v' v => R v v' where
  label hR := (h.label hR).symm
  root := h.root_inv
  root_inv := h.root
  edge := h.edge_inv
  edge_inv := h.edge

theorem path (h : Bisimulation G H R) {v u : V} {v' : V'} {seq : List (W × L)} (hR : R v v')
    (hp : G.Path v seq u) : ∃ u', H.Path v' seq u' ∧ R u u' := by
  induction hp generalizing v' with
  | nil v => exact ⟨v', .nil v', hR⟩
  | cons hedge _ ih =>
    obtain ⟨t', hedge', hR'⟩ := h.edge hR hedge
    obtain ⟨u', hp', hu⟩ := ih hR'
    rw [h.label hR']
    exact ⟨u', .cons hedge' hp', hu⟩

theorem sink (h : Bisimulation G H R) {v : V} {v' : V'} (hR : R v v') (hs : G.Sink v) :
    H.Sink v' := by
  intro w t' hedge'
  obtain ⟨t, hedge, _⟩ := h.edge_inv hR hedge'
  exact hs w t hedge

theorem infinitePath (h : Bisimulation G H R) {v : V} {v' : V'} {seq : ℕ → W × L} (hR : R v v')
    (hp : G.InfinitePath v seq) : H.InfinitePath v' seq := by
  obtain ⟨f, rfl, hf⟩ := hp
  have hnext : ∀ (n : ℕ) (s : {s : V' // R (f n) s}),
      ∃ t : {t : V' // R (f (n + 1)) t}, H.Edge s.1 (seq n).1 t.1 := by
    intro n s
    obtain ⟨t', hedge', ht⟩ := h.edge s.2 (hf n).1
    exact ⟨⟨t', ht⟩, hedge'⟩
  choose next hedge using hnext
  let g : ∀ n, {s : V' // R (f n) s} := fun n => Nat.rec ⟨v', hR⟩ next n
  refine ⟨fun n => (g n).1, rfl, fun n => ⟨hedge n (g n), ?_⟩⟩
  rw [(hf n).2]
  exact h.label (g (n + 1)).2

theorem language_subset (h : Bisimulation G H R) : G.language ⊆ H.language := by
  rintro ⟨l, seq⟩ ⟨v, hroot, hl, u, hp⟩
  obtain ⟨v', hroot', hR⟩ := h.root hroot
  obtain ⟨u', hp', -⟩ := h.path hR hp
  exact ⟨v', hroot', (h.label hR).symm.trans hl, u', hp'⟩

theorem maximalLanguage_subset (h : Bisimulation G H R) :
    G.maximalLanguage ⊆ H.maximalLanguage := by
  rintro ⟨l, seq⟩ ⟨v, hroot, hl, u, hp, hs⟩
  obtain ⟨v', hroot', hR⟩ := h.root hroot
  obtain ⟨u', hp', hu⟩ := h.path hR hp
  exact ⟨v', hroot', (h.label hR).symm.trans hl, u', hp', h.sink hu hs⟩

theorem infiniteLanguage_subset (h : Bisimulation G H R) :
    G.infiniteLanguage ⊆ H.infiniteLanguage := by
  rintro ⟨l, seq⟩ ⟨v, hroot, hl, hp⟩
  obtain ⟨v', hroot', hR⟩ := h.root hroot
  exact ⟨v', hroot', (h.label hR).symm.trans hl, h.infinitePath hR hp⟩

theorem language_eq (h : Bisimulation G H R) : G.language = H.language :=
  Set.Subset.antisymm h.language_subset h.symm.language_subset

theorem maximalLanguage_eq (h : Bisimulation G H R) : G.maximalLanguage = H.maximalLanguage :=
  Set.Subset.antisymm h.maximalLanguage_subset h.symm.maximalLanguage_subset

theorem infiniteLanguage_eq (h : Bisimulation G H R) :
    G.infiniteLanguage = H.infiniteLanguage :=
  Set.Subset.antisymm h.infiniteLanguage_subset h.symm.infiniteLanguage_subset

end Bisimulation

end LabelledGraph
