import Mathlib.Logic.Relation
import Mathlib.Data.List.Basic
import Mathlib.Data.Finset.Card
import Mathlib.Data.Finset.Filter

/-!
# Unfolding of acyclic graphs

The vertices below some roots, in preorder, with one occurrence for each path. It exists if the graph has
no infinite path, and has exactly the reachable vertices.

* `Preorder`;
* `Preorder.mem_iff`, `Preorder.unique`, `exists_preorder`;
* `wellFounded_of_acyclic`: finite acyclic graphs.
-/

namespace Unfolding

open Relation

variable {V : Type*} {children : V → List V}

/-- The trees below the vertices of a list, in preorder. -/
inductive Preorder (children : V → List V) : List V → List V → Prop
  | nil : Preorder children [] []
  | cons {v vs l r} : Preorder children (children v) l → Preorder children vs r →
      Preorder children (v :: vs) (v :: (l ++ r))

/-- The preorder has the reachable vertices. -/
theorem Preorder.mem_iff {vs l : List V} (h : Preorder children vs l) {t : V} :
    t ∈ l ↔ ∃ v ∈ vs, ReflTransGen (fun x y => y ∈ children x) v t := by
  induction h with
  | nil => simp
  | @cons v vs l r _ _ ihl ihr =>
    rw [List.mem_cons, List.mem_append, ihl, ihr]
    constructor
    · rintro (rfl | ⟨c, hc, hr⟩ | ⟨w, hw, hr⟩)
      · exact ⟨t, List.mem_cons_self, .refl⟩
      · exact ⟨v, List.mem_cons_self, .head hc hr⟩
      · exact ⟨w, List.mem_cons_of_mem _ hw, hr⟩
    · rintro ⟨w, hw, hr⟩
      obtain rfl | hw := List.mem_cons.mp hw
      · obtain rfl | ⟨c, hc, hr⟩ := hr.cases_head
        · exact Or.inl rfl
        · exact Or.inr (Or.inl ⟨c, hc, hr⟩)
      · exact Or.inr (Or.inr ⟨w, hw, hr⟩)

theorem Preorder.unique {vs l l' : List V} (h : Preorder children vs l) (h' : Preorder children vs l') :
    l = l' := by
  induction h generalizing l' with
  | nil =>
    cases h'
    rfl
  | cons _ _ ihl ihr =>
    cases h' with
    | cons hl hr => rw [ihl hl, ihr hr]

theorem Preorder.append {vs ws l r : List V} (h : Preorder children vs l) (h' : Preorder children ws r) :
    Preorder children (vs ++ ws) (l ++ r) := by
  induction h with
  | nil => exact h'
  | cons hl _ _ ihr =>
    rw [List.cons_append, List.cons_append, List.append_assoc]
    exact .cons hl ihr

theorem exists_preorder_of_forall {vs : List V} (h : ∀ v ∈ vs, ∃ l, Preorder children (children v) l) :
    ∃ l, Preorder children vs l := by
  induction vs with
  | nil => exact ⟨[], .nil⟩
  | cons v vs ih =>
    obtain ⟨l, hl⟩ := h v List.mem_cons_self
    obtain ⟨r, hr⟩ := ih fun w hw => h w (List.mem_cons_of_mem _ hw)
    exact ⟨_, .cons hl hr⟩

/-- Without infinite paths there is a preorder. -/
theorem exists_preorder (h : WellFounded fun c v => c ∈ children v) (vs : List V) :
    ∃ l, Preorder children vs l := by
  refine exists_preorder_of_forall fun v hv => ?_
  clear hv
  induction v using h.induction with
  | _ v ih => exact exists_preorder_of_forall ih

open Classical in
/-- A finite graph without cycles has no infinite path. -/
theorem wellFounded_of_acyclic (dom : Finset V) (hdom : ∀ v, ∀ c ∈ children v, c ∈ dom)
    (hacyclic : ∀ v, ¬TransGen (fun x y => y ∈ children x) v v) :
    WellFounded fun c v => c ∈ children v := by
  let below : V → Finset V := fun v => dom.filter (TransGen (fun x y => y ∈ children x) v)
  refine Subrelation.wf (r := InvImage (· < ·) fun v => (below v).card) ?_ (InvImage.wf _ wellFounded_lt)
  intro c v hc
  refine Finset.card_lt_card (Finset.ssubset_iff_of_subset ?_ |>.mpr ⟨c, ?_, ?_⟩)
  · intro x hx
    obtain ⟨hdom, hr⟩ := Finset.mem_filter.mp hx
    exact Finset.mem_filter.mpr ⟨hdom, .head hc hr⟩
  · exact Finset.mem_filter.mpr ⟨hdom v c hc, .single hc⟩
  · exact fun hmem => hacyclic c (Finset.mem_filter.mp hmem).2

/-- A vertex that no path leads back to is not below itself. -/
theorem Preorder.not_mem_of_acyclic {v : V} {l : List V} (h : Preorder children (children v) l)
    (hacyclic : ¬TransGen (fun x y => y ∈ children x) v v) : v ∉ l := by
  intro hmem
  obtain ⟨c, hc, hr⟩ := h.mem_iff.mp hmem
  exact hacyclic (.head' hc hr)

end Unfolding
