import Mathlib.Data.Fintype.Card
import Mathlib.Logic.Relation

/-!
# Depth-first search

A recursive depth-first search over an arbitrary state, given by what it does when it enters a
vertex, when an edge leads to a vertex seen before, when an edge has been searched, and when it
leaves a vertex. Its progress is a list of frames, latest first: the vertices being visited, each
with its edges that are left. An invariant of frames and state that every move keeps holds
throughout, and the search ends when its fuel covers the vertices not yet seen.

* `Ops`, `Ops.visit`: the search;
* `Ops.Rule`, `Ops.Rule.visit`: the proof rule;
* `Ops.Moves`: the moves of a search, for comparison with a search that keeps its own frames.
-/

namespace DepthFirst

/-- What a search does to its state. -/
structure Ops (V σ : Type*) where
  succs : V → List V
  unseen : σ → V → Bool
  enter : V → σ → σ
  tree : V → V → σ → σ
  seen : V → V → σ → σ
  exit : V → σ → σ

/-- The vertices being visited, latest first, with their edges that are left. -/
abbrev Frames (V : Type*) := List (V × List V)

namespace Ops

variable {V σ : Type*} (A : Ops V σ)

/-- Search the edges of `v` that are left. -/
def edges (visit : V → σ → Option σ) (v : V) : List V → σ → Option σ
  | [], s => some s
  | w :: rest, s =>
    if A.unseen s w then (visit w s).bind fun s => edges visit v rest (A.tree v w s)
    else edges visit v rest (A.seen v w s)

/-- Visit a vertex; `none` when the fuel runs out. -/
def visit : ℕ → V → σ → Option σ
  | 0, _, _ => none
  | fuel + 1, v, s => (A.edges (visit fuel) v (A.succs v) (A.enter v s)).map (A.exit v)

theorem edges_mono {f g : V → σ → Option σ} (h : ∀ v s r, f v s = some r → g v s = some r) (v : V) :
    ∀ {es : List V} {s r : σ}, A.edges f v es s = some r → A.edges g v es s = some r
  | [], _, _, hr => hr
  | w :: rest, s, r, hr => by
    rw [edges] at hr ⊢
    split_ifs at hr ⊢ with hw
    · obtain ⟨s₁, hs₁, hr⟩ := Option.bind_eq_some_iff.1 hr
      rw [h w s s₁ hs₁, Option.bind_some]
      exact edges_mono h v hr
    · exact edges_mono h v hr

/-- More fuel does not change the result. -/
theorem visit_mono {fuel fuel' : ℕ} (hle : fuel ≤ fuel') {v : V} {s r : σ}
    (h : A.visit fuel v s = some r) : A.visit fuel' v s = some r := by
  induction fuel generalizing fuel' v s r with
  | zero => cases h
  | succ fuel ih =>
    obtain ⟨fuel', rfl⟩ : ∃ k, fuel' = k + 1 := ⟨fuel' - 1, by omega⟩
    rw [visit] at h ⊢
    obtain ⟨s₁, hs₁, rfl⟩ := Option.map_eq_some_iff.1 h
    rw [A.edges_mono (fun v s r hr => ih (by omega) hr) v hs₁, Option.map_some]

/-- `v` is what the latest frame visits next, or the first vertex of a search. -/
def Calls : Frames V → V → Prop
  | [], _ => True
  | (_, es) :: _, v => ∃ rest, es = v :: rest

/-- An invariant `P` of frames and state that every move of the search keeps. No move makes a vertex
unseen. -/
structure Rule (P : Frames V → σ → Prop) : Prop where
  enter : ∀ {fr v s}, P fr s → A.unseen s v = true → Calls fr v →
    P ((v, A.succs v) :: fr) (A.enter v s)
  enter_self : ∀ {fr v s}, P fr s → A.unseen s v = true → A.unseen (A.enter v s) v = false
  enter_mono : ∀ {fr v s}, P fr s → A.unseen s v = true → ∀ x, A.unseen (A.enter v s) x = true →
    A.unseen s x = true
  seen : ∀ {fr v w rest s}, P ((v, w :: rest) :: fr) s → A.unseen s w = false →
    P ((v, rest) :: fr) (A.seen v w s)
  seen_mono : ∀ {fr v w rest s}, P ((v, w :: rest) :: fr) s → A.unseen s w = false →
    ∀ x, A.unseen (A.seen v w s) x = true → A.unseen s x = true
  tree : ∀ {fr v w rest s}, P ((w, []) :: (v, w :: rest) :: fr) s →
    P ((v, rest) :: fr) (A.tree v w (A.exit w s))
  tree_mono : ∀ {fr v w rest s}, P ((w, []) :: (v, w :: rest) :: fr) s →
    ∀ x, A.unseen (A.tree v w (A.exit w s)) x = true → A.unseen s x = true

/-- One move of a search between states that satisfy `P`. -/
inductive Move (P : Frames V → σ → Prop) : Frames V × σ → Frames V × σ → Prop
  | descend {fr : Frames V} {v w : V} {rest : List V} {s : σ} (hP : P ((v, w :: rest) :: fr) s)
      (hw : A.unseen s w = true) :
      Move P ((v, w :: rest) :: fr, s) ((w, A.succs w) :: (v, w :: rest) :: fr, A.enter w s)
  | seen {fr : Frames V} {v w : V} {rest : List V} {s : σ} (hP : P ((v, w :: rest) :: fr) s)
      (hw : A.unseen s w = false) :
      Move P ((v, w :: rest) :: fr, s) ((v, rest) :: fr, A.seen v w s)
  | back {fr : Frames V} {v w : V} {rest : List V} {s : σ}
      (hP : P ((w, []) :: (v, w :: rest) :: fr) s) :
      Move P ((w, []) :: (v, w :: rest) :: fr, s) ((v, rest) :: fr, A.tree v w (A.exit w s))

/-- The moves of a search, one after the other. -/
abbrev Moves (P : Frames V → σ → Prop) := Relation.ReflTransGen (A.Move P)

variable [Fintype V]

/-- The number of vertices not yet seen. -/
def budget (s : σ) : ℕ := (Finset.univ.filter fun x => A.unseen s x = true).card

theorem budget_le {s s' : σ} (h : ∀ x, A.unseen s' x = true → A.unseen s x = true) :
    A.budget s' ≤ A.budget s :=
  Finset.card_le_card fun x hx => by
    rw [Finset.mem_filter] at hx ⊢
    exact ⟨hx.1, h x hx.2⟩

theorem budget_lt {s s' : σ} (h : ∀ x, A.unseen s' x = true → A.unseen s x = true) {v : V}
    (hv : A.unseen s v = true) (hv' : A.unseen s' v = false) : A.budget s' < A.budget s := by
  refine Finset.card_lt_card (Finset.ssubset_iff_of_subset ?_ |>.2 ⟨v, ?_, ?_⟩)
  · intro x hx
    rw [Finset.mem_filter] at hx ⊢
    exact ⟨hx.1, h x hx.2⟩
  · exact Finset.mem_filter.2 ⟨Finset.mem_univ v, hv⟩
  · simp [hv']

variable {A} {P : Frames V → σ → Prop}

/-- With the fuel for what is unseen, visiting `v` runs up to the exit of `v`, where `P` holds. -/
theorem Rule.visit (R : A.Rule P) : ∀ (fuel : ℕ) {fr : Frames V} {v : V} {s : σ},
    A.budget s ≤ fuel → P fr s → A.unseen s v = true → Calls fr v →
    ∃ s', A.visit fuel v s = some (A.exit v s') ∧ P ((v, []) :: fr) s' ∧
      (∀ x, A.unseen s' x = true → A.unseen s x = true) ∧
      A.Moves P ((v, A.succs v) :: fr, A.enter v s) ((v, []) :: fr, s') := by
  intro fuel
  induction fuel with
  | zero =>
    intro fr v s hfuel _ hv _
    have hlt : 0 < A.budget s := Finset.card_pos.2 ⟨v, by simp [hv]⟩
    omega
  | succ fuel ih =>
    -- the loop over the edges, with the fuel of the children
    have loop : ∀ (es : List V) {fr : Frames V} {v : V} {s : σ}, A.budget s ≤ fuel →
        P ((v, es) :: fr) s → ∃ s', A.edges (A.visit fuel) v es s = some s' ∧
          P ((v, []) :: fr) s' ∧ (∀ x, A.unseen s' x = true → A.unseen s x = true) ∧
          A.Moves P ((v, es) :: fr, s) ((v, []) :: fr, s') := by
      intro es
      induction es with
      | nil => exact fun _ hP => ⟨_, rfl, hP, fun _ h => h, .refl⟩
      | cons w rest ihes =>
        intro fr v s hfuel hP
        cases hw : A.unseen s w with
        | true =>
          obtain ⟨s₁, hs₁, hP₁, hmono₁, hmoves₁⟩ := ih hfuel hP hw ⟨rest, rfl⟩
          have hmono₂ := R.tree_mono hP₁
          obtain ⟨s', hs', hP', hmono', hmoves'⟩ := ihes
            ((A.budget_le fun x hx => hmono₁ x (hmono₂ x hx)).trans hfuel) (R.tree hP₁)
          refine ⟨s', ?_, hP', fun x hx => hmono₁ x (hmono₂ x (hmono' x hx)), ?_⟩
          · simp [edges, hw, hs₁, hs']
          · exact (Relation.ReflTransGen.head (.descend hP hw) hmoves₁).trans
              (Relation.ReflTransGen.head (.back hP₁) hmoves')
        | false =>
          have hmono₁ := R.seen_mono hP hw
          obtain ⟨s', hs', hP', hmono', hmoves'⟩ := ihes ((A.budget_le hmono₁).trans hfuel)
            (R.seen hP hw)
          refine ⟨s', ?_, hP', fun x hx => hmono₁ x (hmono' x hx), ?_⟩
          · simp [edges, hw, hs']
          · exact Relation.ReflTransGen.head (.seen hP hw) hmoves'
    intro fr v s hfuel hP hv hcall
    have hlt := A.budget_lt (R.enter_mono hP hv) hv (R.enter_self hP hv)
    obtain ⟨s', hs', hP', hmono', hmoves'⟩ := loop (A.succs v) (by omega) (R.enter hP hv hcall)
    refine ⟨s', by simp [Ops.visit, hs'], hP', fun x hx => ?_, hmoves'⟩
    exact R.enter_mono hP hv x (hmono' x hx)

end Ops

end DepthFirst
