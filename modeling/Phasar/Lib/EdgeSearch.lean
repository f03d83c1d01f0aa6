import Mathlib.Algebra.BigOperators.Group.Finset.Basic
import Mathlib.Algebra.Order.BigOperators.Group.Finset
import Mathlib.Logic.Function.Iterate

/-!
# Depth-first search with a stack of edges

A search from a root over the successor lists of a graph. The stack holds edges; the first edge that
is popped to a node puts the node below its source in the depth-first tree. The root is opened at the
start and may be put below another node later.

* `EdgeSearch`, `step`, `init`: the stack and the tree;
* `Inv`: tree edges are edges, and the successors of opened nodes are seen;
* `stack_bound`: the search ends, if the nodes reached are finitely many.
-/

/-- The stack of edges, its top first, and the tree as a parent map. -/
structure EdgeSearch (N : Type*) where
  stack : List (N × N)
  parent : N → Option N

namespace EdgeSearch

variable {N : Type*} (succs : N → List N)

/-- The edges out of `n`; the last successor comes first. -/
def edges (n : N) : List (N × N) := ((succs n).map (Prod.mk n)).reverse

variable {succs} in
@[simp] theorem mem_edges {n x y : N} : (x, y) ∈ edges succs n ↔ x = n ∧ y ∈ succs n := by
  rw [edges, List.mem_reverse, List.mem_map]
  constructor
  · rintro ⟨m, hm, heq⟩
    cases heq
    exact ⟨rfl, hm⟩
  · rintro ⟨rfl, hy⟩
    exact ⟨y, hy, rfl⟩

@[simp] theorem length_edges (n : N) : (edges succs n).length = (succs n).length := by
  rw [edges, List.length_reverse, List.length_map]

def init (root : N) : EdgeSearch N where
  stack := edges succs root
  parent _ := none

variable [DecidableEq N]

/-- Pop an edge; if its target is new, put it below the source and push its edges. -/
def step (s : EdgeSearch N) : EdgeSearch N :=
  match s.stack with
  | [] => s
  | (x, y) :: rest =>
    if (s.parent y).isSome then { s with stack := rest }
    else { stack := edges succs y ++ rest, parent := Function.update s.parent y (some x) }

variable {succs}

theorem step_nil {s : EdgeSearch N} (h : s.stack = []) : step succs s = s := by
  rw [step, h]

theorem step_old {s : EdgeSearch N} {x y : N} {rest : List (N × N)} (h : s.stack = (x, y) :: rest)
    (hy : (s.parent y).isSome = true) : step succs s = { s with stack := rest } := by
  rw [step, h]
  exact if_pos hy

theorem step_new {s : EdgeSearch N} {x y : N} {rest : List (N × N)} (h : s.stack = (x, y) :: rest)
    (hy : s.parent y = none) : step succs s =
      { stack := edges succs y ++ rest, parent := Function.update s.parent y (some x) } := by
  rw [step, h]
  exact if_neg (by rw [hy]; exact Bool.false_ne_true)

/-- The edges of `n` have been pushed. -/
def Opened (root : N) (s : EdgeSearch N) (n : N) : Prop := n = root ∨ (s.parent n).isSome = true

/-- A node below another stays there. -/
theorem parent_step {s : EdgeSearch N} {x y : N} (h : s.parent y = some x) :
    (step succs s).parent y = some x := by
  cases hs : s.stack with
  | nil => rwa [step_nil hs]
  | cons e rest =>
    obtain ⟨a, b⟩ := e
    cases hb : s.parent b with
    | some c =>
      rw [step_old hs (by rw [hb]; rfl)]
      exact h
    | none =>
      have hne : y ≠ b := by
        rintro rfl
        rw [hb] at h
        cases h
      rw [step_new hs hb]
      exact (Function.update_of_ne hne ..).trans h

theorem Opened.step {root : N} {s : EdgeSearch N} {n : N} (h : Opened root s n) :
    Opened root (step succs s) n := by
  refine h.imp_right fun hn => ?_
  obtain ⟨x, hx⟩ := Option.isSome_iff_exists.1 hn
  rw [parent_step hx]
  rfl

/-- What the search has seen. -/
structure Inv (succs : N → List N) (root : N) (s : EdgeSearch N) : Prop where
  stack : ∀ {x y}, (x, y) ∈ s.stack → Opened root s x ∧ y ∈ succs x
  parent : ∀ {x y}, s.parent y = some x → Opened root s x ∧ y ∈ succs x
  seen : ∀ {x y}, Opened root s x → y ∈ succs x → (x, y) ∈ s.stack ∨ (s.parent y).isSome = true

omit [DecidableEq N] in
theorem Inv.init (root : N) : Inv succs root (init succs root) where
  stack h := by
    obtain ⟨rfl, hy⟩ := mem_edges.1 h
    exact ⟨Or.inl rfl, hy⟩
  parent h := by cases h
  seen h hy := by
    obtain rfl := h.resolve_right Bool.false_ne_true
    exact Or.inl (mem_edges.2 ⟨rfl, hy⟩)

theorem Inv.step {root : N} {s : EdgeSearch N} (h : Inv succs root s) :
    Inv succs root (step succs s) := by
  cases hs : s.stack with
  | nil => rwa [step_nil hs]
  | cons e rest =>
    obtain ⟨a, b⟩ := e
    obtain ⟨ha, hab⟩ := h.stack (hs ▸ List.mem_cons_self)
    cases hb : s.parent b with
    | some c =>
      -- the target was opened before: only the edge is taken from the stack
      have hsome : (s.parent b).isSome = true := by rw [hb]; rfl
      rw [step_old hs hsome]
      refine ⟨fun hxy => h.stack (hs ▸ List.mem_cons_of_mem _ hxy), h.parent, fun hx hy => ?_⟩
      rcases h.seen hx hy with hxy | hy
      · rw [hs] at hxy
        rcases List.mem_cons.1 hxy with heq | hxy
        · cases heq
          exact Or.inr hsome
        · exact Or.inl hxy
      · exact Or.inr hy
    | none =>
      have hstep : EdgeSearch.step succs s =
          { stack := edges succs b ++ rest, parent := Function.update s.parent b (some a) } :=
        step_new hs hb
      -- the target is opened, and its edges are pushed
      have hopened : ∀ {x}, Opened root s x → Opened root (EdgeSearch.step succs s) x := Opened.step
      have hnew : ((EdgeSearch.step succs s).parent b).isSome = true := by
        rw [hstep]
        dsimp only
        rw [Function.update_self, Option.isSome_some]
      have hold : ∀ {x}, x ≠ b → (EdgeSearch.step succs s).parent x = s.parent x := by
        intro x hx
        rw [hstep]
        exact Function.update_of_ne hx ..
      constructor
      · intro x y hxy
        rw [hstep] at hxy
        rcases List.mem_append.1 hxy with hxy | hxy
        · obtain ⟨rfl, hy⟩ := mem_edges.1 hxy
          exact ⟨Or.inr hnew, hy⟩
        · obtain ⟨hx, hy⟩ := h.stack (hs ▸ List.mem_cons_of_mem _ hxy)
          exact ⟨hopened hx, hy⟩
      · intro x y hxy
        by_cases hy : y = b
        · subst hy
          rw [hstep] at hxy
          obtain rfl : a = x :=
            Option.some.inj ((Function.update_self (f := s.parent) ..).symm.trans hxy)
          exact ⟨hopened ha, hab⟩
        · rw [hold hy] at hxy
          obtain ⟨hx, hy⟩ := h.parent hxy
          exact ⟨hopened hx, hy⟩
      · intro x y hx hy
        by_cases hxb : x = b
        · subst hxb
          rw [hstep]
          exact Or.inl (List.mem_append_left _ (mem_edges.2 ⟨rfl, hy⟩))
        · have hx' : Opened root s x := hx.imp_right fun hx => by rwa [hold hxb] at hx
          rcases h.seen hx' hy with hxy | hy
          · rw [hs] at hxy
            rcases List.mem_cons.1 hxy with heq | hxy
            · cases heq
              exact Or.inr hnew
            · rw [hstep]
              exact Or.inl (List.mem_append_right _ hxy)
          · obtain ⟨z, hz⟩ := Option.isSome_iff_exists.1 hy
            rw [parent_step hz]
            exact Or.inr rfl

theorem inv_iterate (root : N) (k : ℕ) : Inv succs root ((step succs)^[k] (init succs root)) := by
  induction k with
  | zero => exact .init root
  | succ k ih =>
    rw [Function.iterate_succ_apply']
    exact ih.step

/-! ### The end of the search -/

/-- What is on the stack, and what the nodes not seen can add. -/
def remaining (succs : N → List N) (nodes : Finset N) (s : EdgeSearch N) : ℕ :=
  s.stack.length + ∑ n ∈ nodes.filter (fun n => s.parent n = none), (succs n).length

/-- The edges of the nodes, and those of the root once more. -/
def bound (succs : N → List N) (nodes : Finset N) (root : N) : ℕ :=
  (succs root).length + ∑ n ∈ nodes, (succs n).length

variable {nodes : Finset N} (hnodes : ∀ n ∈ nodes, ∀ m ∈ succs n, m ∈ nodes)

include hnodes in
theorem remaining_step {s : EdgeSearch N} (hs : ∀ e ∈ s.stack, e.2 ∈ nodes) (hne : s.stack ≠ []) :
    (∀ e ∈ (step succs s).stack, e.2 ∈ nodes) ∧
      remaining succs nodes (step succs s) < remaining succs nodes s := by
  obtain ⟨⟨a, b⟩, rest, hstack⟩ := List.exists_cons_of_ne_nil hne
  have hb : b ∈ nodes := hs (a, b) (hstack ▸ List.mem_cons_self)
  have hrest : ∀ e ∈ rest, e.2 ∈ nodes := fun e he => hs e (hstack ▸ List.mem_cons_of_mem _ he)
  cases hpb : s.parent b with
  | some c =>
    rw [step_old hstack (by rw [hpb]; rfl)]
    refine ⟨hrest, ?_⟩
    rw [remaining, remaining, hstack, List.length_cons]
    dsimp only
    omega
  | none =>
    rw [step_new hstack hpb]
    constructor
    · rintro ⟨x, y⟩ he
      rcases List.mem_append.1 he with he | he
      · exact hnodes b hb y (mem_edges.1 he).2
      · exact hrest _ he
    · have hfilter : nodes.filter (fun n => Function.update s.parent b (some a) n = none) =
          (nodes.filter (fun n => s.parent n = none)).erase b := by
        ext n
        simp only [Finset.mem_filter, Finset.mem_erase]
        by_cases hn : n = b
        · subst hn
          simp
        · rw [Function.update_of_ne hn]
          tauto
      have hin : b ∈ nodes.filter (fun n => s.parent n = none) := Finset.mem_filter.2 ⟨hb, hpb⟩
      rw [remaining, remaining, hfilter, ← Finset.add_sum_erase _ _ hin, hstack, List.length_append,
        length_edges, List.length_cons]
      omega

include hnodes in
/-- Every step pops an edge, and edges are pushed once for each node. -/
theorem stack_iterate {root : N} (hroot : root ∈ nodes) (k : ℕ) :
    (∀ e ∈ ((step succs)^[k] (init succs root)).stack, e.2 ∈ nodes) ∧
      (((step succs)^[k] (init succs root)).stack = [] ∨
        remaining succs nodes ((step succs)^[k] (init succs root)) + k ≤
          bound succs nodes root) := by
  induction k with
  | zero =>
    constructor
    · rintro ⟨x, y⟩ he
      exact hnodes root hroot y (mem_edges.1 he).2
    · refine Or.inr (le_of_eq ?_)
      rw [Function.iterate_zero, id_eq, remaining, init, length_edges,
        Finset.filter_true_of_mem fun _ _ => rfl]
      rfl
  | succ k ih =>
    rw [Function.iterate_succ_apply']
    obtain ⟨hmem, hk⟩ := ih
    by_cases hnil : ((step succs)^[k] (init succs root)).stack = []
    · rw [step_nil hnil]
      exact ⟨hmem, Or.inl hnil⟩
    · obtain ⟨hmem', hlt⟩ := remaining_step hnodes hmem hnil
      have hle := hk.resolve_left hnil
      exact ⟨hmem', Or.inr (by omega)⟩

include hnodes in
/-- **The search ends** after as many steps as there are edges. -/
theorem stack_bound {root : N} (hroot : root ∈ nodes) :
    ((step succs)^[bound succs nodes root] (init succs root)).stack = [] := by
  rcases (stack_iterate hnodes hroot (bound succs nodes root)).2 with hnil | hle
  · exact hnil
  · rw [remaining] at hle
    exact List.length_eq_zero_iff.1 (by omega)

end EdgeSearch
