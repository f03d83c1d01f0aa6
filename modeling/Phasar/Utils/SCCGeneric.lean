import Phasar.Lib.DepthFirst
import Phasar.Lib.StronglyConnected
import Mathlib.Data.Fintype.Basic
import Mathlib.Data.List.FinRange

/-!
# Strongly connected components of a graph

`computeSCCs`, Pearce's algorithm, in its recursive and its iterative variant. One array `rIndex`
holds the visiting order, the low value and, once a component is found, its mark, counted down from
the number of vertices. Vertices are 32-bit numbers, so that the counters do not overflow; only `c`
wraps around, after the last component, where nothing reads it.

* `computeSCCs`: both variants over the data `Pearce4Data` and an `SCCHolder`;
* `PearceInv`: the data represent a search for components;
* `computeSCCs_correct`.
-/

namespace Phasar

/-- The components of a graph with `n` vertices. -/
structure SCCHolder (n : ℕ) where
  sccOfNode : Fin n → ℕ
  nodesInSCC : List (List (Fin n))

/-- A holder with the strongly connected components of the graph `G` in reverse topological order. -/
structure SCCHolder.Correct {n : ℕ} (G : Fin n → List (Fin n)) (h : SCCHolder n) : Prop where
  complete : ∀ v, v ∈ h.nodesInSCC.flatten
  nodup : h.nodesInSCC.flatten.Nodup
  ne_nil : ∀ c ∈ h.nodesInSCC, c ≠ []
  agree : ∀ (v : Fin n) (i : ℕ), h.sccOfNode v = i ↔ ∃ c, h.nodesInSCC[i]? = some c ∧ v ∈ c
  connected : ∀ v w, h.sccOfNode v = h.sccOfNode w ↔
    StronglyConnected.Reach G v w ∧ StronglyConnected.Reach G w v
  ordered : ∀ v, ∀ w ∈ G v, h.sccOfNode v ≠ h.sccOfNode w → h.sccOfNode w < h.sccOfNode v

theorem SCCHolder.Correct.sccOfNode_lt {n : ℕ} {G : Fin n → List (Fin n)} {h : SCCHolder n}
    (hcorrect : h.Correct G) (v : Fin n) : h.sccOfNode v < h.nodesInSCC.length := by
  obtain ⟨c, hc, -⟩ := (hcorrect.agree v _).1 rfl
  exact (List.getElem?_eq_some_iff.1 hc).1

/-- `Pearce4Data` and the holder that is filled, with the top of the stack first. The local `Root` of
the recursive variant is the entry of the vertex in `root`. -/
structure Pearce4Data (n : ℕ) extends SCCHolder n where
  rIndex : Fin n → ℕ
  root : Fin n → Bool
  index : ℕ
  c : ℕ
  stack : List (Fin n)

namespace Pearce4Data

variable {n : ℕ} (G : Fin n → List (Fin n))

/-- The data before the search, with an empty holder. -/
def init (n : ℕ) : Pearce4Data n where
  sccOfNode _ := 0
  nodesInSCC := []
  rIndex _ := 0
  root _ := false
  index := 1
  c := n - 1
  stack := []

/-- `RIndex[V] = Index++`, and `V` may be a root. -/
def enter (v : Fin n) (s : Pearce4Data n) : Pearce4Data n :=
  { s with
    rIndex := Function.update s.rIndex v s.index
    index := s.index + 1
    root := Function.update s.root v true }

/-- The end of the loop over the edges of `v`, for the edge to `w`. -/
def update (v w : Fin n) (s : Pearce4Data n) : Pearce4Data n :=
  if s.rIndex w < s.rIndex v then
    { s with
      rIndex := Function.update s.rIndex v (s.rIndex w)
      root := Function.update s.root v false }
  else s

/-- Pop the component of `v` off the stack, and mark it. -/
def popLoop (v : Fin n) (newSCC : ℕ) :
    List (Fin n) → List (Fin n) → Pearce4Data n → List (Fin n) × Pearce4Data n
  | w :: stack, nodes, s =>
    if s.rIndex v ≤ s.rIndex w then
      popLoop v newSCC stack (nodes ++ [w])
        { s with
          stack := stack
          rIndex := Function.update s.rIndex w s.c
          index := s.index - 1
          sccOfNode := Function.update s.sccOfNode w newSCC }
    else (nodes, s)
  | [], nodes, s => (nodes, s)

/-- `C--` on 32 bits. -/
def decrement (c : ℕ) : ℕ := if c = 0 then 4294967295 else c - 1

/-- The end of a visit: `v` is a root and completes a component, or goes on the stack. -/
def exit (v : Fin n) (s : Pearce4Data n) : Pearce4Data n :=
  if s.root v then
    let newSCC := s.nodesInSCC.length
    let popped := popLoop v newSCC s.stack [] { s with index := s.index - 1 }
    { popped.2 with
      nodesInSCC := popped.2.nodesInSCC ++ [popped.1 ++ [v]]
      sccOfNode := Function.update popped.2.sccOfNode v newSCC
      rIndex := Function.update popped.2.rIndex v popped.2.c
      c := decrement popped.2.c }
  else { s with stack := v :: s.stack }

/-- What the search does to its data. -/
def ops : DepthFirst.Ops (Fin n) (Pearce4Data n) where
  succs := G
  unseen s v := decide (s.rIndex v = 0)
  enter := enter
  tree := update
  seen := update
  exit := exit

/-- `pearce4VisitRec`, with a bound on the depth of the recursion. -/
def pearce4VisitRec (fuel : ℕ) (v : Fin n) (s : Pearce4Data n) : Option (Pearce4Data n) :=
  (ops G).visit fuel v s

/-! ### The iterative variant -/

/-- The `do`-loop of `PushFrames`: push a frame for the next vertex that has no index yet, until there
is none. The last frame has edges left. -/
def pushFrames : ℕ → DepthFirst.Frames (Fin n) → Pearce4Data n →
    Option (DepthFirst.Frames (Fin n) × Pearce4Data n)
  | 0, _, _ => none
  | fuel + 1, (v, w :: rest) :: callStack, s =>
    if s.rIndex w ≠ 0 then some ((v, w :: rest) :: callStack, s)
    else if G w = [] then some ((w, G w) :: (v, w :: rest) :: callStack, enter w s)
    else pushFrames fuel ((w, G w) :: (v, w :: rest) :: callStack) (enter w s)
  | _ + 1, callStack, s => some (callStack, s)

/-- `VisitLoop`: finish the current child and advance to the next one. -/
def visitLoop (v : Fin n) (edges : List (Fin n)) (s : Pearce4Data n) :
    List (Fin n) × Pearce4Data n :=
  match edges with
  | w :: rest => (rest, update v w s)
  | [] => ([], s)

/-- The main loop of `pearce4VisitIt`. -/
def run : ℕ → DepthFirst.Frames (Fin n) → Pearce4Data n → Option (Pearce4Data n)
  | 0, _, _ => none
  | _ + 1, [], s => some s
  | fuel + 1, (v, edges) :: callStack, s =>
    let frame := visitLoop v edges s
    if frame.1 = [] then
      if callStack = [] then some (exit v frame.2) else run fuel callStack (exit v frame.2)
    else (pushFrames G fuel ((v, frame.1) :: callStack) frame.2).bind fun next =>
      run fuel next.1 next.2

/-- `pearce4VisitIt`, with a bound on the rounds of its loops. -/
def pearce4VisitIt (fuel : ℕ) (start : Fin n) (s : Pearce4Data n) : Option (Pearce4Data n) :=
  if G start = [] then run G fuel [(start, G start)] (enter start s)
  else (pushFrames G fuel [(start, G start)] (enter start s)).bind fun next =>
    run G fuel next.1 next.2

/-! ### All vertices -/

/-- What `computeSCCs` does with a stack that a visit leaves behind. -/
def flushStack (s : Pearce4Data n) : Pearce4Data n :=
  if s.stack = [] then s
  else
    { s with
      nodesInSCC := s.nodesInSCC ++ [s.stack.reverse]
      sccOfNode := fun v => if v ∈ s.stack then s.nodesInSCC.length else s.sccOfNode v
      stack := [] }

/-- The loop of `computeSCCs` over the vertices. -/
def visitAll (visit : Fin n → Pearce4Data n → Option (Pearce4Data n)) :
    List (Fin n) → Pearce4Data n → Option (Pearce4Data n)
  | [], s => some s
  | v :: rest, s =>
    if s.rIndex v = 0 then (visit v s).bind fun s => visitAll visit rest (flushStack s)
    else visitAll visit rest s

end Pearce4Data

open Pearce4Data in
/-- `computeSCCs`; `none` when the fuel runs out. -/
def computeSCCs {n : ℕ} (G : Fin n → List (Fin n)) (iterative : Bool) (fuel : ℕ) :
    Option (SCCHolder n) :=
  (visitAll (if iterative then pearce4VisitIt G fuel else pearce4VisitRec G fuel)
    (List.finRange n) (init n)).map Pearce4Data.toSCCHolder

namespace Pearce4Data

open StronglyConnected

variable {n : ℕ} {G : Fin n → List (Fin n)}

@[simp] theorem update_nodesInSCC (v w : Fin n) (s : Pearce4Data n) :
    (s.update v w).nodesInSCC = s.nodesInSCC := by
  rw [update]
  split_ifs <;> rfl

/-! ### Popping a component -/

/-- `popLoop` pops what has an index of at least that of `v`. -/
theorem popLoop_eq (v : Fin n) (newSCC : ℕ) {bottom : List (Fin n)} : ∀ {top : List (Fin n)}
    (nodes : List (Fin n)) {s : Pearce4Data n}, s.stack = top ++ bottom → top.Nodup → v ∉ top →
    (∀ x ∈ top, s.rIndex v ≤ s.rIndex x) → (∀ x ∈ bottom, x ∉ top ∧ s.rIndex x < s.rIndex v) →
    popLoop v newSCC s.stack nodes s = (nodes ++ top,
      { s with
        stack := bottom
        rIndex := fun x => if x ∈ top then s.c else s.rIndex x
        index := s.index - top.length
        sccOfNode := fun x => if x ∈ top then newSCC else s.sccOfNode x }) := by
  intro top
  induction top with
  | nil =>
    intro nodes s hs _ _ _ hbottom
    -- the first vertex below the root stops the loop
    have hstop : popLoop v newSCC bottom nodes s = (nodes, s) := by
      cases bottom with
      | nil => rfl
      | cons b bottom => exact if_neg (not_le.2 (hbottom b List.mem_cons_self).2)
    rw [List.nil_append] at hs
    rw [hs, hstop]
    simp [← hs]
  | cons w top ih =>
    intro nodes s hs hnodup hv htop hbottom
    obtain ⟨hw, hnodup⟩ := List.nodup_cons.1 hnodup
    have hvw : v ≠ w := fun h => hv (h ▸ List.mem_cons_self)
    rw [hs, List.cons_append, popLoop, if_pos (htop w List.mem_cons_self)]
    have hother : ∀ x, x ≠ w → Function.update s.rIndex w s.c x = s.rIndex x :=
      fun x hx => Function.update_of_ne hx _ _
    have hxw : ∀ x ∈ top, x ≠ w := fun x hx h => hw (h ▸ hx)
    have hbw : ∀ x ∈ bottom, x ≠ w := fun x hx h => (hbottom x hx).1 (h ▸ List.mem_cons_self)
    refine (ih (nodes ++ [w]) (s := { s with
      stack := top ++ bottom
      rIndex := Function.update s.rIndex w s.c
      index := s.index - 1
      sccOfNode := Function.update s.sccOfNode w newSCC }) rfl hnodup
      (fun h => hv (List.mem_cons_of_mem w h)) (fun x hx => ?_) (fun x hx => ?_)).trans ?_
    · simpa only [hother v hvw, hother x (hxw x hx)] using htop x (List.mem_cons_of_mem w hx)
    · refine ⟨fun h => (hbottom x hx).1 (List.mem_cons_of_mem w h), ?_⟩
      simpa only [hother v hvw, hother x (hbw x hx)] using (hbottom x hx).2
    · simp only [List.append_assoc, List.cons_append, List.nil_append, List.length_cons,
        Nat.sub_sub, Nat.add_comm 1, Prod.mk.injEq, true_and]
      congr 1
      · congr 1
        funext x
        by_cases hx : x = w
        · simp [hx, hw]
        · simp [hx]
      · funext x
        by_cases hx : x = w
        · simp [hx, hw]
        · simp [hx]

/-! ### The data represent a search -/

/-- The data fit the vertices `flight` in flight, ranked by how many were in flight when they were
visited. The stack holds those that are not being visited any more; nothing visited before some `g`
lies above something visited after `g`. -/
structure PearceFit (frames : DepthFirst.Frames (Fin n)) (s : Pearce4Data n)
    (flight : List (Fin n)) (rank : Fin n → ℕ) : Prop where
  rank_eq : ∀ x ∈ flight, rank x = (flight.filter fun y => decide (rank y ≤ rank x)).length
  index_eq : s.index = flight.length + 1
  white : ∀ x, ¬Visited flight s.nodesInSCC x → s.rIndex x = 0
  mark : ∀ (i : ℕ) (c : List (Fin n)), s.nodesInSCC[i]? = some c → ∀ x ∈ c, s.rIndex x = n - 1 - i
  counter : s.nodesInSCC.length < n → s.c = n - 1 - s.nodesInSCC.length
  root_iff : ∀ g ∈ grays frames, s.root g = true ↔ s.rIndex g = rank g
  stack_mem : ∀ x, x ∈ s.stack ↔ x ∈ flight ∧ x ∉ grays frames
  stack_nodup : s.stack.Nodup
  stack_blocks : s.stack.Pairwise fun a b => ∀ g ∈ grays frames, rank g < rank b → rank g < rank a
  holder : ∀ (i : ℕ) (c : List (Fin n)), s.nodesInSCC[i]? = some c → ∀ x ∈ c, s.sccOfNode x = i

/-- The data represent a search. -/
structure PearceInv (G : Fin n → List (Fin n)) (frames : DepthFirst.Frames (Fin n))
    (s : Pearce4Data n) (flight : List (Fin n)) (rank : Fin n → ℕ) : Prop
    extends PearceFit frames s flight rank where
  search : Search G frames flight rank s.rIndex s.nodesInSCC

/-- The invariant of a visit: not all components are found yet. -/
def Represents (G : Fin n → List (Fin n)) (frames : DepthFirst.Frames (Fin n))
    (s : Pearce4Data n) : Prop :=
  (∃ flight rank, PearceInv G frames s flight rank) ∧ s.nodesInSCC.length < n

theorem length_le_flatten : ∀ {l : List (List (Fin n))}, (∀ c ∈ l, c ≠ []) →
    l.length ≤ l.flatten.length
  | [], _ => le_rfl
  | c :: l, h => by
    have hc : 0 < c.length := List.length_pos_of_ne_nil (h c List.mem_cons_self)
    have hl := length_le_flatten fun d hd => h d (List.mem_cons_of_mem c hd)
    rw [List.length_cons, List.flatten_cons, List.length_append]
    omega

/-- The data fit with a lower index of `v`, which is then no root. -/
theorem PearceFit.lower {frames : DepthFirst.Frames (Fin n)} {s : Pearce4Data n}
    {flight : List (Fin n)} {rank : Fin n → ℕ} {v : Fin n} {k : ℕ}
    (h : PearceFit frames s flight rank) (hv : v ∈ flight) (hv' : v ∉ s.nodesInSCC.flatten) (hk : k < rank v) :
    PearceFit frames { s with
      rIndex := Function.update s.rIndex v k
      root := Function.update s.root v false } flight rank := by
  have hother : ∀ {x}, x ≠ v → Function.update s.rIndex v k x = s.rIndex x :=
    fun hx => Function.update_of_ne hx _ _
  exact {
    h with
    white := by
      intro x hx
      have hxv : x ≠ v := fun hxv => hx (Or.inl (hxv ▸ hv))
      exact (hother hxv).trans (h.white x hx)
    mark := by
      intro i c hi x hx
      have hxv : x ≠ v := fun hxv =>
        hv' (List.mem_flatten.2 ⟨c, List.mem_of_getElem? hi, hxv ▸ hx⟩)
      exact (hother hxv).trans (h.mark i c hi x hx)
    root_iff := by
      intro g hg
      by_cases hgv : g = v
      · subst hgv
        have hself : Function.update s.rIndex g k g = k := Function.update_self ..
        refine iff_of_false (by simp) fun heq => ?_
        have := hself.symm.trans heq
        omega
      · refine Iff.trans (Eq.congr_left (Function.update_of_ne hgv _ _)) ?_
        exact (h.root_iff g hg).trans (Eq.congr_left (hother hgv)).symm }

namespace PearceInv

variable {frames fr : DepthFirst.Frames (Fin n)} {s : Pearce4Data n} {flight : List (Fin n)}
  {rank : Fin n → ℕ}

theorem length_add_le (h : PearceInv G frames s flight rank) :
    flight.length + s.nodesInSCC.flatten.length ≤ n := by
  have hnodup : (flight ++ s.nodesInSCC.flatten).Nodup :=
    List.nodup_append.2 ⟨h.search.nodup, h.search.comps_nodup,
      fun x hx y hy hxy => h.search.comps_disjoint x hx (hxy ▸ hy)⟩
  simpa using hnodup.length_le_card

theorem comps_length_add_le (h : PearceInv G frames s flight rank) :
    flight.length + s.nodesInSCC.length ≤ n :=
  (Nat.add_le_add_left (length_le_flatten h.search.comps_ne_nil) _).trans h.length_add_le

theorem comps_lt (h : PearceInv G frames s flight rank) (hne : grays frames ≠ []) :
    s.nodesInSCC.length < n := by
  obtain ⟨g, hg⟩ := List.exists_mem_of_ne_nil _ hne
  have hpos := List.length_pos_of_mem (h.search.mem_flight_of_gray hg)
  have := h.comps_length_add_le
  omega

theorem comps_lt_of_unvisited (h : PearceInv G frames s flight rank) {v : Fin n}
    (hv : ¬Visited flight s.nodesInSCC v) : s.nodesInSCC.length < n := by
  have hnodup : (v :: s.nodesInSCC.flatten).Nodup :=
    List.nodup_cons.2 ⟨fun hc => hv (Or.inr hc), h.search.comps_nodup⟩
  have hcard : s.nodesInSCC.flatten.length + 1 ≤ n := by simpa using hnodup.length_le_card
  have := length_le_flatten h.search.comps_ne_nil
  omega

theorem rank_pos (h : PearceInv G frames s flight rank) {x : Fin n} (hx : x ∈ flight) :
    0 < rank x := by
  rw [h.rank_eq x hx]
  exact List.length_pos_of_mem (List.mem_filter.2 ⟨hx, by simp⟩)

theorem rank_le (h : PearceInv G frames s flight rank) {x : Fin n} (hx : x ∈ flight) :
    rank x ≤ flight.length := by
  rw [h.rank_eq x hx]
  exact List.length_filter_le _ _

theorem rIndex_pos (h : PearceInv G frames s flight rank) {x : Fin n} (hx : x ∈ flight) :
    0 < s.rIndex x := by
  obtain ⟨y, hy, hrk, -⟩ := h.search.low_reach x hx
  exact hrk ▸ h.rank_pos hy

theorem exists_mark (h : PearceInv G frames s flight rank) {x : Fin n}
    (hx : x ∈ s.nodesInSCC.flatten) : ∃ i < s.nodesInSCC.length, s.rIndex x = n - 1 - i := by
  obtain ⟨c, hc, hxc⟩ := List.mem_flatten.1 hx
  obtain ⟨i, hi, rfl⟩ := List.getElem_of_mem hc
  exact ⟨i, hi, h.mark i _ (List.getElem?_eq_getElem hi) x hxc⟩

/-- Marks dominate the indices of what is in flight. -/
theorem rIndex_le_mark (h : PearceInv G frames s flight rank) {x w : Fin n} (hx : x ∈ flight)
    (hw : w ∈ s.nodesInSCC.flatten) : s.rIndex x ≤ s.rIndex w := by
  obtain ⟨i, hi, hmark⟩ := h.exists_mark hw
  have hle := h.search.low_le x hx
  have hrank := h.rank_le hx
  have hsum := h.comps_length_add_le
  omega

/-- While components are missing, index zero means unvisited. -/
theorem rIndex_eq_zero_iff (h : PearceInv G frames s flight rank) (hlt : s.nodesInSCC.length < n)
    (x : Fin n) : s.rIndex x = 0 ↔ ¬Visited flight s.nodesInSCC x := by
  refine ⟨fun h0 hvis => ?_, h.white x⟩
  rcases hvis with hx | hx
  · exact absurd h0 (h.rIndex_pos hx).ne'
  · obtain ⟨i, hi, hmark⟩ := h.exists_mark hx
    omega

theorem visited_of_rIndex_ne_zero (h : PearceInv G frames s flight rank) {x : Fin n}
    (hx : s.rIndex x ≠ 0) : Visited flight s.nodesInSCC x := by
  by_contra hvis
  exact hx (h.white x hvis)

/-- Entering an unvisited vertex. -/
theorem enter (h : PearceInv G frames s flight rank) {v : Fin n}
    (hv : ¬Visited flight s.nodesInSCC v) (hcall : DepthFirst.Ops.Calls frames v) :
    PearceInv G ((v, G v) :: frames) (s.enter v) (v :: flight)
      (Function.update rank v s.index) := by
  have hne : ∀ x ∈ flight, x ≠ v := fun x hx hxv => hv (Or.inl (hxv ▸ hx))
  have hother : ∀ {f : Fin n → ℕ} {k x}, x ≠ v → Function.update f v k x = f x :=
    fun hx => Function.update_of_ne hx _ _
  -- the index is above the ranks of all that is in flight
  have hlt : ∀ x ∈ flight, rank x < s.index := fun x hx => by
    rw [h.index_eq]
    exact Nat.lt_succ_of_le (h.rank_le hx)
  have hstack : ∀ x ∈ s.stack, x ∈ flight := fun x hx => ((h.stack_mem x).1 hx).1
  have hcomp : ∀ (i : ℕ) (c : List (Fin n)), s.nodesInSCC[i]? = some c → ∀ x ∈ c, x ≠ v :=
    fun i c hi x hx hxv =>
      hv (Or.inr (List.mem_flatten.2 ⟨c, List.mem_of_getElem? hi, hxv ▸ hx⟩))
  exact {
    search := by
      refine h.search.enter hv (fun f hf => ?_) (fun x hx => hother (hne x hx))
        (fun x hx => hother (hne x hx)) (fun x hx => ?_) ?_
      · cases frames with
        | nil => simp at hf
        | cons f' fr =>
          obtain rfl : f' = f := by simpa using hf
          exact hcall
      · rw [Function.update_self]
        exact hlt x hx
      · rw [Function.update_self]
        exact Function.update_self ..
    rank_eq := by
      intro x hx
      rcases List.mem_cons.1 hx with rfl | hxf
      · rw [Function.update_self, List.filter_eq_self.2, h.index_eq, List.length_cons]
        intro y hy
        rcases List.mem_cons.1 hy with rfl | hyf
        · simp
        · rw [hother (hne y hyf)]
          exact decide_eq_true (hlt y hyf).le
      · rw [hother (hne x hxf), List.filter_cons_of_neg, h.rank_eq x hxf]
        · refine congrArg List.length (List.filter_congr fun y hy => ?_)
          rw [hother (hne y hy), ← h.rank_eq x hxf]
        · simpa using hlt x hxf
    index_eq := by
      rw [List.length_cons, ← h.index_eq]
      rfl
    white := by
      intro x hx
      have hxv : x ≠ v := fun hxv => hx (Or.inl (hxv ▸ List.mem_cons_self))
      refine (hother hxv).trans (h.white x fun hvis => hx ?_)
      exact hvis.imp_left (List.mem_cons_of_mem v)
    mark := fun i c hi x hx => (hother (hcomp i c hi x hx)).trans (h.mark i c hi x hx)
    counter := h.counter
    root_iff := by
      intro g hg
      rcases List.mem_cons.1 hg with rfl | hg'
      · rw [Function.update_self]
        exact iff_of_true (Function.update_self ..) (Function.update_self ..)
      · have hgv := hne g (h.search.mem_flight_of_gray hg')
        rw [hother hgv]
        refine Iff.trans (Eq.congr_left (Function.update_of_ne hgv _ _)) ?_
        exact (h.root_iff g hg').trans (Eq.congr_left (hother hgv)).symm
    stack_mem := by
      intro x
      refine (h.stack_mem x).trans ?_
      rw [grays_cons, List.mem_cons, List.mem_cons]
      constructor
      · rintro ⟨hx, hng⟩
        exact ⟨Or.inr hx, fun hg => hg.elim (hne x hx) hng⟩
      · rintro ⟨hx, hng⟩
        rw [not_or] at hng
        exact ⟨hx.resolve_left hng.1, hng.2⟩
    stack_nodup := h.stack_nodup
    stack_blocks := by
      refine h.stack_blocks.imp_of_mem fun {a b} ha hb hab g hg => ?_
      rw [hother (hne a (hstack a ha)), hother (hne b (hstack b hb))]
      rcases List.mem_cons.1 hg with rfl | hg'
      · rw [Function.update_self]
        have := hlt b (hstack b hb)
        omega
      · rw [hother (hne g (h.search.mem_flight_of_gray hg'))]
        exact hab g hg'
    holder := h.holder }

/-- Finishing an edge to a visited vertex. -/
theorem update {v w : Fin n} {rest : List (Fin n)}
    (h : PearceInv G ((v, w :: rest) :: fr) s flight rank)
    (hw : Visited flight s.nodesInSCC w) :
    PearceInv G ((v, rest) :: fr) (s.update v w) flight rank := by
  have hv : v ∈ flight := h.search.mem_flight_of_gray List.mem_cons_self
  have hfit : PearceFit ((v, rest) :: fr) s flight rank := { h.toPearceFit with }
  by_cases hlt : s.rIndex w < s.rIndex v
  · have hwf : w ∈ flight := by
      refine hw.resolve_right fun hc => ?_
      exact absurd (h.rIndex_le_mark hv hc) (not_le.2 hlt)
    rw [show s.update v w = _ from if_pos hlt]
    refine ⟨hfit.lower hv (h.search.comps_disjoint v hv) (hlt.trans_le (h.search.low_le v hv)), ?_⟩
    have hself : Function.update s.rIndex v (s.rIndex w) v = s.rIndex w := Function.update_self ..
    refine h.search.seen hw (fun x _ hx => Function.update_of_ne hx _ _) (hself.trans_le hlt.le) ?_
      fun _ => hself.trans_le (h.search.low_le w hwf)
    obtain ⟨y, hy, hrk, hr⟩ := h.search.low_reach w hwf
    refine ⟨y, hy, hrk.trans hself.symm, .head ?_ hr⟩
    exact h.search.subset _ List.mem_cons_self w List.mem_cons_self
  · rw [show s.update v w = s from if_neg hlt]
    exact ⟨hfit, h.search.seen hw (fun _ _ _ => rfl) le_rfl (h.search.low_reach v hv) fun hwf =>
      (not_lt.1 hlt).trans (h.search.low_le w hwf)⟩

/-- The part of the stack that was visited after `v`. -/
def above (s : Pearce4Data n) (rank : Fin n → ℕ) (v : Fin n) : List (Fin n) :=
  s.stack.filter fun x => decide (rank v < rank x)

/-- The part of the stack that was visited before `v`. -/
def below (s : Pearce4Data n) (rank : Fin n → ℕ) (v : Fin n) : List (Fin n) :=
  s.stack.filter fun x => !decide (rank v < rank x)

theorem mem_above {v x : Fin n} : x ∈ above s rank v ↔ x ∈ s.stack ∧ rank v < rank x := by
  simp [above]

theorem mem_below {v x : Fin n} : x ∈ below s rank v ↔ x ∈ s.stack ∧ rank x ≤ rank v := by
  simp [below]

theorem stack_eq {v : Fin n} {es : List (Fin n)} (h : PearceInv G ((v, es) :: fr) s flight rank) :
    s.stack = above s rank v ++ below s rank v := by
  have key : ∀ l : List (Fin n), (l.Pairwise fun a b => rank v < rank b → rank v < rank a) →
      l = l.filter (fun x => decide (rank v < rank x)) ++
        l.filter fun x => !decide (rank v < rank x) := by
    intro l
    induction l with
    | nil => simp
    | cons a l ih =>
      intro hp
      obtain ⟨ha, hp⟩ := List.pairwise_cons.1 hp
      by_cases hav : rank v < rank a
      · rw [List.filter_cons_of_pos (by simpa using hav), List.filter_cons_of_neg (by simpa using hav),
          List.cons_append, ← ih hp]
      · -- nothing of the rest was visited after `v` either
        have hall : ∀ b ∈ a :: l, ¬rank v < rank b := by
          intro b hb
          rcases List.mem_cons.1 hb with rfl | hb
          · exact hav
          · exact fun hlt => hav (ha b hb hlt)
        rw [List.filter_eq_nil_iff.2 (by simpa using hall), List.nil_append,
          List.filter_eq_self.2 (by simpa using hall)]
  exact key s.stack (h.stack_blocks.imp fun hab => hab v List.mem_cons_self)

theorem rank_lt_of_below {v x : Fin n} {es : List (Fin n)}
    (h : PearceInv G ((v, es) :: fr) s flight rank) (hx : x ∈ below s rank v) :
    rank x < rank v := by
  obtain ⟨hxs, hle⟩ := mem_below.1 hx
  obtain ⟨hxf, hng⟩ := (h.stack_mem x).1 hxs
  refine lt_of_le_of_ne hle fun heq => hng ?_
  rw [h.search.rank_injective hxf (h.search.mem_flight_of_gray List.mem_cons_self) heq]
  exact List.mem_cons_self

theorem update_ite (f : Fin n → ℕ) (l : List (Fin n)) (v : Fin n) (k : ℕ) :
    Function.update (fun x => if x ∈ l then k else f x) v k =
      fun x => if x ∈ l ++ [v] then k else f x := by
  funext x
  by_cases hx : x = v
  · simp [hx]
  · simp [hx]

/-- The data after the exit of a root. -/
theorem exit_root_eq {v : Fin n} {es : List (Fin n)}
    (h : PearceInv G ((v, es) :: fr) s flight rank) (hroot : s.rIndex v = rank v) :
    s.exit v = { s with
      nodesInSCC := s.nodesInSCC ++ [above s rank v ++ [v]]
      sccOfNode := fun x =>
        if x ∈ above s rank v ++ [v] then s.nodesInSCC.length else s.sccOfNode x
      rIndex := fun x => if x ∈ above s rank v ++ [v] then s.c else s.rIndex x
      index := s.index - 1 - (above s rank v).length
      c := decrement s.c
      stack := below s rank v } := by
  have hflag : s.root v = true := (h.root_iff v List.mem_cons_self).2 hroot
  have hv : v ∉ above s rank v := fun hv => absurd (mem_above.1 hv).2 (lt_irrefl _)
  have hpop := popLoop_eq v s.nodesInSCC.length []
    (s := { s with index := s.index - 1 }) h.stack_eq (h.stack_nodup.filter _) hv
    (fun x hx => ?_) fun x hx => ?_
  · rw [exit, if_pos hflag]
    simp only [hpop, update_ite, List.nil_append]
  · -- what was visited after `v` is owned by `v`
    obtain ⟨hxs, hlt⟩ := mem_above.1 hx
    exact (h.search.low_owner v List.mem_cons_self x ((h.stack_mem x).1 hxs).1
      (h.search.owns_latest hlt.le)).1
  · obtain ⟨hxs, hle⟩ := mem_below.1 hx
    refine ⟨fun hx' => absurd (mem_above.1 hx').2 (not_lt.2 hle), ?_⟩
    have hlt := h.rank_lt_of_below hx
    have hlow := h.search.low_le x ((h.stack_mem x).1 hxs).1
    show s.rIndex x < s.rIndex v
    omega

/-- Everything in flight from `v` on is `v` or on the stack above the vertices before `v`. -/
theorem mem_component {v x : Fin n} {es : List (Fin n)}
    (h : PearceInv G ((v, es) :: fr) s flight rank) :
    x ∈ above s rank v ++ [v] ↔ x ∈ flight ∧ rank v ≤ rank x := by
  have hv : v ∈ flight := h.search.mem_flight_of_gray List.mem_cons_self
  rw [List.mem_append, mem_above, List.mem_singleton, h.stack_mem]
  constructor
  · rintro (⟨⟨hx, -⟩, hlt⟩ | rfl)
    · exact ⟨hx, hlt.le⟩
    · exact ⟨hv, le_rfl⟩
  · rintro ⟨hx, hle⟩
    rcases hle.eq_or_lt with heq | hlt
    · exact Or.inr (h.search.rank_injective hx hv heq.symm)
    · refine Or.inl ⟨⟨hx, fun hg => ?_⟩, hlt⟩
      rcases List.mem_cons.1 hg with rfl | hg
      · exact lt_irrefl _ hlt
      · exact lt_asymm hlt (h.search.gray_rank_lt hg)

/-- The exit of a root. -/
theorem exit_root {v : Fin n} (h : PearceInv G ((v, []) :: fr) s flight rank)
    (hroot : s.rIndex v = rank v) :
    PearceInv G fr (s.exit v) (flight.filter fun x => decide (rank x < rank v)) rank := by
  have hcomp : ∀ x, x ∈ above s rank v ++ [v] ↔ x ∈ flight ∧ rank v ≤ rank x :=
    fun x => h.mem_component
  have hnodup : (above s rank v ++ [v]).Nodup := by
    refine List.nodup_append.2 ⟨h.stack_nodup.filter _, List.nodup_singleton v, fun x hx y hy => ?_⟩
    rintro rfl
    rw [List.mem_singleton.1 hy] at hx
    exact lt_irrefl _ (mem_above.1 hx).2
  have hsearch := h.search.root hroot hnodup hcomp
  have hmem : ∀ {x}, x ∈ flight.filter (fun x => decide (rank x < rank v)) ↔
      x ∈ flight ∧ rank x < rank v := by simp
  -- what was visited before `v` stays in flight, and old components are left alone
  have hout : ∀ {x}, x ∈ flight → rank x < rank v → x ∉ above s rank v ++ [v] :=
    fun _ hlt hx => absurd ((hcomp _).1 hx).2 (not_le.2 hlt)
  have hold : ∀ {i : ℕ} {c : List (Fin n)} {x : Fin n}, s.nodesInSCC[i]? = some c → x ∈ c → x ∉ above s rank v ++ [v] := by
    intro i c x hi hx hx'
    exact h.search.comps_disjoint x ((hcomp x).1 hx').1
      (List.mem_flatten.2 ⟨c, List.mem_of_getElem? hi, hx⟩)
  have hlt := h.comps_lt (by simp)
  rw [h.exit_root_eq hroot]
  exact {
    search := by
      refine hsearch.congr_low fun x hx => if_neg ?_
      rw [hmem] at hx
      exact hout hx.1 hx.2
    rank_eq := by
      intro x hx
      rw [hmem] at hx
      rw [h.rank_eq x hx.1, List.filter_filter]
      refine congrArg List.length (List.filter_congr fun y _ => ?_)
      rw [← h.rank_eq x hx.1]
      have := hx.2
      by_cases hy : rank y ≤ rank x
      · simp [hy, hy.trans_lt this]
      · simp [hy]
    index_eq := by
      -- the index falls by the size of the component
      have hperm : (flight.filter fun x => !decide (rank x < rank v)).Perm
          (above s rank v ++ [v]) := by
        refine (List.perm_ext_iff_of_nodup (h.search.nodup.filter _) hnodup).2 fun x => ?_
        rw [hcomp]
        simp
      have hlen := hperm.length_eq
      have hsplit := List.length_eq_length_filter_add (l := flight)
        fun x => decide (rank x < rank v)
      rw [List.length_append, List.length_singleton] at hlen
      show s.index - 1 - (above s rank v).length = _
      rw [h.index_eq]
      omega
    white := by
      intro x hx
      rw [Search.visited_root_iff hcomp] at hx
      exact (if_neg fun hx' => hx (Or.inl ((hcomp x).1 hx').1)).trans (h.white x hx)
    mark := by
      intro i c hi x hx
      rcases getElem?_concat hi with hi | ⟨rfl, rfl⟩
      · exact (if_neg (hold hi hx)).trans (h.mark i c hi x hx)
      · exact (if_pos hx).trans (h.counter hlt)
    counter := by
      intro hlt'
      have hlen : (s.nodesInSCC ++ [above s rank v ++ [v]]).length = s.nodesInSCC.length + 1 := by
        simp
      have hc := h.counter hlt
      show decrement s.c = n - 1 - (s.nodesInSCC ++ [above s rank v ++ [v]]).length
      change (s.nodesInSCC ++ [above s rank v ++ [v]]).length < n at hlt'
      rw [decrement, if_neg (by omega)]
      omega
    root_iff := by
      intro g hg
      have hg' := List.mem_cons_of_mem v hg
      refine (h.root_iff g hg').trans (Eq.congr_left (if_neg ?_)).symm
      exact hout (h.search.mem_flight_of_gray hg') (h.search.gray_rank_lt hg)
    stack_mem := by
      intro x
      show x ∈ below s rank v ↔ _
      rw [hmem]
      constructor
      · intro hx
        obtain ⟨hxf, hng⟩ := (h.stack_mem x).1 (mem_below.1 hx).1
        exact ⟨⟨hxf, h.rank_lt_of_below hx⟩, fun hg => hng (List.mem_cons_of_mem v hg)⟩
      · rintro ⟨⟨hxf, hlt'⟩, hng⟩
        refine mem_below.2 ⟨(h.stack_mem x).2 ⟨hxf, fun hg => ?_⟩, hlt'.le⟩
        rcases List.mem_cons.1 hg with rfl | hg
        · exact lt_irrefl _ hlt'
        · exact hng hg
    stack_nodup := h.stack_nodup.filter _
    stack_blocks :=
      (h.stack_blocks.filter _).imp fun hab g hg => hab g (List.mem_cons_of_mem v hg)
    holder := by
      intro i c hi x hx
      rcases getElem?_concat hi with hi | ⟨rfl, rfl⟩
      · exact (if_neg (hold hi hx)).trans (h.holder i c hi x hx)
      · exact if_pos hx }

theorem exit_branch_eq {w : Fin n} {es : List (Fin n)}
    (h : PearceInv G ((w, es) :: fr) s flight rank) (hlt : s.rIndex w < rank w) :
    s.exit w = { s with stack := w :: s.stack } := by
  have hflag : ¬s.root w = true := by
    rw [h.root_iff w List.mem_cons_self]
    omega
  rw [exit, if_neg hflag]

/-- The exit of a vertex that is not a root, and the end of the edge that led to it. -/
theorem exit_branch {v w : Fin n} {rest : List (Fin n)}
    (h : PearceInv G ((w, []) :: (v, w :: rest) :: fr) s flight rank)
    (hlt : s.rIndex w < rank w) :
    PearceInv G ((v, rest) :: fr) ((s.exit w).update v w) flight rank := by
  have hw : w ∈ flight := h.search.mem_flight_of_gray List.mem_cons_self
  have hv : v ∈ flight := h.search.mem_flight_of_gray (by simp)
  have hstack : ∀ x, x ∈ w :: s.stack ↔ x ∈ flight ∧ x ∉ grays ((v, rest) :: fr) := by
    intro x
    rw [List.mem_cons, h.stack_mem, grays_cons, List.mem_cons]
    have hwg : w ∉ grays ((v, w :: rest) :: fr) :=
      fun hg => lt_irrefl _ (h.search.gray_rank_lt hg)
    constructor
    · rintro (rfl | ⟨hx, hng⟩)
      · exact ⟨hw, hwg⟩
      · exact ⟨hx, fun hg => hng (Or.inr hg)⟩
    · rintro ⟨hx, hng⟩
      by_cases hxw : x = w
      · exact Or.inl hxw
      · exact Or.inr ⟨hx, fun hg => hg.elim hxw hng⟩
  have hblocks : (w :: s.stack).Pairwise fun a b =>
      ∀ g ∈ grays ((v, rest) :: fr), rank g < rank b → rank g < rank a := by
    refine List.pairwise_cons.2 ⟨fun b _ g hg _ => h.search.gray_rank_lt hg, ?_⟩
    exact h.stack_blocks.imp fun hab g hg => hab g (List.mem_cons_of_mem w hg)
  have hnodup : (w :: s.stack).Nodup :=
    List.nodup_cons.2 ⟨fun hx => ((h.stack_mem w).1 hx).2 List.mem_cons_self, h.stack_nodup⟩
  have hedge : w ∈ G v := h.search.subset (v, w :: rest) (by simp) w List.mem_cons_self
  rw [h.exit_branch_eq hlt]
  have hfit : PearceFit ((v, rest) :: fr) { s with stack := w :: s.stack } flight rank :=
    { h.toPearceFit with
      root_iff := fun g hg => h.root_iff g (List.mem_cons_of_mem w hg)
      stack_mem := hstack
      stack_nodup := hnodup
      stack_blocks := hblocks }
  by_cases hlt' : s.rIndex w < s.rIndex v
  · rw [show ({ s with stack := w :: s.stack } : Pearce4Data n).update v w = _ from if_pos hlt']
    refine ⟨hfit.lower hv (h.search.comps_disjoint v hv) (hlt'.trans_le (h.search.low_le v hv)), ?_⟩
    have hself : Function.update s.rIndex v (s.rIndex w) v = s.rIndex w := Function.update_self ..
    refine h.search.branch hlt (fun x _ hx => Function.update_of_ne hx _ _)
      (hself.trans_le hlt'.le) hself.le ?_
    obtain ⟨y, hy, hrk, hr⟩ := h.search.low_reach w hw
    exact ⟨y, hy, hrk.trans hself.symm, .head hedge hr⟩
  · rw [show ({ s with stack := w :: s.stack } : Pearce4Data n).update v w = _ from if_neg hlt']
    exact ⟨hfit, h.search.branch hlt (fun _ _ _ => rfl) le_rfl (not_lt.1 hlt')
      (h.search.low_reach v hv)⟩

/-- Leaving a vertex and finishing the edge that led to it. -/
theorem tree {v w : Fin n} {rest : List (Fin n)}
    (h : PearceInv G ((w, []) :: (v, w :: rest) :: fr) s flight rank) :
    ∃ flight', PearceInv G ((v, rest) :: fr) ((s.exit w).update v w) flight' rank ∧
      ∀ x, Visited flight' ((s.exit w).update v w).nodesInSCC x ↔
        Visited flight s.nodesInSCC x := by
  have hw : w ∈ flight := h.search.mem_flight_of_gray List.mem_cons_self
  rcases (h.search.low_le w hw).eq_or_lt with hroot | hlt
  · have hvis : ∀ x, Visited (flight.filter fun x => decide (rank x < rank w)) (s.exit w).nodesInSCC x ↔
        Visited flight s.nodesInSCC x := by
      intro x
      rw [h.exit_root_eq hroot]
      exact Search.visited_root_iff (fun x => h.mem_component) x
    refine ⟨_, (h.exit_root hroot).update ((hvis w).2 (Or.inl hw)), fun x => ?_⟩
    rw [update_nodesInSCC]
    exact hvis x
  · refine ⟨flight, h.exit_branch hlt, fun x => ?_⟩
    rw [update_nodesInSCC, h.exit_branch_eq hlt]

end PearceInv

/-! ### A visit -/

variable (G) in
/-- Every move of the search keeps the invariant. -/
theorem represents_rule : (ops G).Rule (Represents G) where
  enter := by
    rintro fr v s ⟨⟨flight, rank, h⟩, hlt⟩ hv hcall
    have hv' := (h.rIndex_eq_zero_iff hlt v).1 (of_decide_eq_true hv)
    exact ⟨⟨_, _, h.enter hv' hcall⟩, hlt⟩
  enter_self := by
    rintro fr v s ⟨⟨flight, rank, h⟩, -⟩ _
    refine decide_eq_false ?_
    have hself : (s.enter v).rIndex v = s.index := Function.update_self ..
    rw [show (ops G).enter v s = s.enter v from rfl, hself, h.index_eq]
    omega
  enter_mono := by
    intro fr v s _ hv x hx
    by_cases hxv : x = v
    · exact hxv ▸ hv
    · have hother : (s.enter v).rIndex x = s.rIndex x := Function.update_of_ne hxv _ _
      exact decide_eq_true (hother ▸ of_decide_eq_true hx)
  seen := by
    rintro fr v w rest s ⟨⟨flight, rank, h⟩, hlt⟩ hw
    refine ⟨⟨_, _, h.update (h.visited_of_rIndex_ne_zero (of_decide_eq_false hw))⟩, ?_⟩
    exact (congrArg List.length (update_nodesInSCC v w s)).trans_lt hlt
  seen_mono := by
    rintro fr v w rest s ⟨⟨flight, rank, h⟩, hlt⟩ hw x hx
    have hvis := h.visited_of_rIndex_ne_zero (of_decide_eq_false hw)
    have hlt' := (congrArg List.length (update_nodesInSCC v w s)).trans_lt hlt
    refine decide_eq_true ((h.rIndex_eq_zero_iff hlt x).2 ?_)
    rw [← update_nodesInSCC v w s]
    exact ((h.update hvis).rIndex_eq_zero_iff hlt' x).1 (of_decide_eq_true hx)
  tree := by
    rintro fr v w rest s ⟨⟨flight, rank, h⟩, -⟩
    obtain ⟨flight', h', -⟩ := h.tree
    exact ⟨⟨_, _, h'⟩, h'.comps_lt (by simp)⟩
  tree_mono := by
    rintro fr v w rest s ⟨⟨flight, rank, h⟩, hlt⟩ x hx
    obtain ⟨flight', h', hvis⟩ := h.tree
    refine decide_eq_true ((h.rIndex_eq_zero_iff hlt x).2 ?_)
    rw [← hvis]
    exact (h'.rIndex_eq_zero_iff (h'.comps_lt (by simp)) x).1 (of_decide_eq_true hx)

/-- A visit of an unvisited vertex from outside: it is in the last component that is found. -/
structure Visit (G : Fin n → List (Fin n)) (v : Fin n) (s s' : Pearce4Data n) : Prop where
  inv : ∃ rank, PearceInv G [] s' [] rank
  mono : ∀ x, x ∈ s.nodesInSCC.flatten → x ∈ s'.nodesInSCC.flatten
  last : ∃ comps c, s'.nodesInSCC = comps ++ [c] ∧ v ∈ c

/-- The end of a visit from outside. -/
theorem PearceInv.visit_end {v : Fin n} {s₀ s : Pearce4Data n} {flight : List (Fin n)}
    {rank : Fin n → ℕ} (h : PearceInv G [(v, [])] s flight rank)
    (hmono : ∀ x, x ∈ s₀.nodesInSCC.flatten → Visited flight s.nodesInSCC x) :
    Visit G v s₀ (s.exit v) := by
  have hroot := h.search.root_of_alone
  have h' := h.exit_root hroot
  have hnil := h'.search.flight_eq_nil
  have hcomps : (s.exit v).nodesInSCC = s.nodesInSCC ++ [above s rank v ++ [v]] := by
    rw [h.exit_root_eq hroot]
  rw [hnil] at h'
  refine ⟨⟨rank, h'⟩, fun x hx => ?_, _, _, hcomps, by simp⟩
  have hvis := (Search.visited_root_iff (fun x => h.mem_component) x).2 (hmono x hx)
  rw [hnil, ← hcomps] at hvis
  exact hvis.resolve_left (List.not_mem_nil)

theorem PearceInv.visit {s : Pearce4Data n} {rank : Fin n → ℕ} (h : PearceInv G [] s [] rank)
    {v : Fin n} (hv : ¬Visited [] s.nodesInSCC v) :
    ∃ s', Visit G v s (exit v s') ∧ (∀ fuel ≥ n, pearce4VisitRec G fuel v s = some (exit v s')) ∧
      (ops G).Moves (Represents G) ([(v, G v)], s.enter v) ([(v, [])], s') := by
  have hlt := h.comps_lt_of_unvisited hv
  have hunseen : (ops G).unseen s v = true := decide_eq_true (h.white v hv)
  have hbudget : (ops G).budget s ≤ n :=
    (Finset.card_le_univ _).trans_eq (Fintype.card_fin n)
  obtain ⟨s', hs', ⟨⟨flight, rank', h'⟩, hlt'⟩, hmono, hmoves⟩ :=
    (represents_rule G).visit n hbudget ⟨⟨_, _, h⟩, hlt⟩ hunseen trivial
  refine ⟨s', h'.visit_end fun x hx => ?_, fun fuel hfuel => (ops G).visit_mono hfuel hs', hmoves⟩
  by_contra hvis
  have h0 := hmono x (decide_eq_true ((h'.rIndex_eq_zero_iff hlt' x).2 hvis))
  exact (h.rIndex_eq_zero_iff hlt x).1 (of_decide_eq_true h0) (Or.inr hx)

/-! ### The iterative variant runs the same search -/

/-- Run the loops from `frames` on. The last frame may have to descend first. -/
def resume (G : Fin n → List (Fin n)) (fuel fuel' : ℕ) :
    DepthFirst.Frames (Fin n) × Pearce4Data n → Option (Pearce4Data n)
  | ((v, w :: rest) :: callStack, s) =>
    (pushFrames G fuel ((v, w :: rest) :: callStack) s).bind fun next => run G fuel' next.1 next.2
  | (callStack, s) => run G fuel' callStack s

/-- With enough fuel, the loops return `r`. -/
def Returns (G : Fin n → List (Fin n)) (c : DepthFirst.Frames (Fin n) × Pearce4Data n)
    (r : Pearce4Data n) : Prop :=
  ∃ k, ∀ fuel ≥ k, ∀ fuel' ≥ k, resume G fuel fuel' c = some r

/-- One round of the main loop, up to the next push of frames. -/
theorem run_cons {fuel : ℕ} {v w : Fin n} {rest : List (Fin n)} {fr : DepthFirst.Frames (Fin n)}
    {s : Pearce4Data n} : run G (fuel + 1) ((v, w :: rest) :: fr) s =
      if rest = [] then run G (fuel + 1) ((v, []) :: fr) (s.update v w)
      else resume G fuel fuel ((v, rest) :: fr, s.update v w) := by
  cases rest with
  | nil => simp [run, visitLoop]
  | cons x rest => simp [run, visitLoop, resume]

theorem returns_of_update {v w : Fin n} {rest : List (Fin n)} {fr : DepthFirst.Frames (Fin n)}
    {s r : Pearce4Data n} (h : Returns G ((v, rest) :: fr, s.update v w) r) :
    ∃ k, ∀ fuel ≥ k, run G fuel ((v, w :: rest) :: fr) s = some r := by
  obtain ⟨k, hk⟩ := h
  refine ⟨k + 1, fun fuel hfuel => ?_⟩
  obtain ⟨fuel, rfl⟩ : ∃ j, fuel = j + 1 := ⟨fuel - 1, by omega⟩
  rw [run_cons]
  split_ifs with hrest
  · subst hrest
    exact hk k le_rfl (fuel + 1) (by omega)
  · exact hk fuel (by omega) fuel (by omega)

/-- If the search returns after a move, it returns before it. -/
theorem returns_of_move {P : DepthFirst.Frames (Fin n) → Pearce4Data n → Prop}
    {c c' : DepthFirst.Frames (Fin n) × Pearce4Data n} (hmove : (ops G).Move P c c')
    {r : Pearce4Data n} (h : Returns G c' r) : Returns G c r := by
  cases hmove with
  | @descend fr v w rest s _ hw =>
    obtain ⟨k, hk⟩ := h
    refine ⟨k + 1, fun fuel hfuel fuel' hfuel' => ?_⟩
    obtain ⟨fuel, rfl⟩ : ∃ j, fuel = j + 1 := ⟨fuel - 1, by omega⟩
    have h0 : ¬s.rIndex w ≠ 0 := not_not.2 (of_decide_eq_true hw)
    rw [resume, pushFrames, if_neg h0]
    have hret := hk fuel (by omega) fuel' (by omega)
    change resume G fuel fuel' ((w, G w) :: (v, w :: rest) :: fr, s.enter w) = some r at hret
    split_ifs with hG
    · rw [hG] at hret ⊢
      exact hret
    · obtain ⟨x, es, hes⟩ := List.exists_cons_of_ne_nil hG
      rw [hes] at hret ⊢
      exact hret
  | @seen fr v w rest s _ hw =>
    obtain ⟨k, hk⟩ := returns_of_update h
    refine ⟨k + 1, fun fuel hfuel fuel' hfuel' => ?_⟩
    obtain ⟨fuel, rfl⟩ : ∃ j, fuel = j + 1 := ⟨fuel - 1, by omega⟩
    have h0 : s.rIndex w ≠ 0 := of_decide_eq_false hw
    rw [resume, pushFrames, if_pos h0, Option.bind_some]
    exact hk fuel' (by omega)
  | @back fr v w rest s _ =>
    obtain ⟨k, hk⟩ := returns_of_update h
    refine ⟨k + 1, fun fuel _ fuel' hfuel' => ?_⟩
    obtain ⟨fuel', rfl⟩ : ∃ j, fuel' = j + 1 := ⟨fuel' - 1, by omega⟩
    have hrun : resume G fuel (fuel' + 1) ((w, []) :: (v, w :: rest) :: fr, s) =
        run G fuel' ((v, w :: rest) :: fr) (s.exit w) := by
      simp [resume, run, visitLoop]
    rw [hrun]
    exact hk fuel' (by omega)

theorem returns_of_moves {P : DepthFirst.Frames (Fin n) → Pearce4Data n → Prop}
    {c c' : DepthFirst.Frames (Fin n) × Pearce4Data n} (hmoves : (ops G).Moves P c c')
    {r : Pearce4Data n} (h : Returns G c' r) : Returns G c r := by
  induction hmoves using Relation.ReflTransGen.head_induction_on with
  | refl => exact h
  | head hmove _ ih => exact returns_of_move hmove ih

/-- `pearce4VisitIt` returns what leaving the first vertex gives. -/
theorem pearce4VisitIt_eq {P : DepthFirst.Frames (Fin n) → Pearce4Data n → Prop} {v : Fin n}
    {s s' : Pearce4Data n} (hmoves : (ops G).Moves P ([(v, G v)], s.enter v) ([(v, [])], s')) :
    ∃ k, ∀ fuel ≥ k, pearce4VisitIt G fuel v s = some (s'.exit v) := by
  have hend : Returns G ([(v, [])], s') (s'.exit v) := by
    refine ⟨1, fun fuel _ fuel' hfuel' => ?_⟩
    obtain ⟨fuel', rfl⟩ : ∃ j, fuel' = j + 1 := ⟨fuel' - 1, by omega⟩
    simp [resume, run, visitLoop]
  obtain ⟨k, hk⟩ := returns_of_moves hmoves hend
  refine ⟨k, fun fuel hfuel => ?_⟩
  have hret := hk fuel hfuel fuel hfuel
  rw [pearce4VisitIt]
  split_ifs with hG
  · rw [hG] at hret ⊢
    exact hret
  · obtain ⟨x, es, hes⟩ := List.exists_cons_of_ne_nil hG
    rw [hes] at hret ⊢
    exact hret

/-! ### All vertices -/

/-- No vertex is left on the stack between two visits. -/
theorem PearceInv.flushStack_eq {s : Pearce4Data n} {rank : Fin n → ℕ}
    (h : PearceInv G [] s [] rank) : flushStack s = s := by
  refine if_pos (List.eq_nil_iff_forall_not_mem.2 fun x hx => ?_)
  simpa using ((h.stack_mem x).1 hx).1

/-- The mark zero is given to the last vertex only. -/
theorem PearceInv.eq_of_rIndex_eq_zero {s : Pearce4Data n} {rank : Fin n → ℕ}
    (h : PearceInv G [] s [] rank) {v x : Fin n} {comps : List (List (Fin n))} {c : List (Fin n)}
    (hs : s.nodesInSCC = comps ++ [c]) (hv : v ∈ c) (hx : x ∈ s.nodesInSCC.flatten)
    (h0 : s.rIndex x = 0) : x = v := by
  obtain ⟨d, hd, hxd⟩ := List.mem_flatten.1 hx
  obtain ⟨i, hi⟩ := List.mem_iff_getElem?.1 hd
  have hmark := h.mark i d hi x hxd
  have hsum := h.comps_length_add_le
  have hlen : s.nodesInSCC.length = comps.length + 1 := by simp [hs]
  have hlast : n ≤ comps.length + 1 ∧ x ∈ c := by
    rw [hs] at hi
    rcases getElem?_concat hi with hi | ⟨rfl, rfl⟩
    · obtain ⟨hlt, -⟩ := List.getElem?_eq_some_iff.1 hi
      rw [List.length_nil] at hsum
      omega
    · exact ⟨by omega, hxd⟩
  -- the last component has a single vertex
  have hle : comps.length ≤ comps.flatten.length :=
    length_le_flatten fun d hd => h.search.comps_ne_nil d (by rw [hs]; exact List.mem_append_left _ hd)
  have hadd := h.length_add_le
  have hflat : s.nodesInSCC.flatten.length = comps.flatten.length + c.length := by
    rw [hs, List.flatten_append, List.flatten_cons, List.flatten_nil, List.append_nil,
      List.length_append]
  have hone : c.length ≤ 1 := by
    rw [List.length_nil] at hsum hadd
    omega
  obtain ⟨a, rfl⟩ := List.length_eq_one_iff.1 (le_antisymm hone (List.length_pos_of_mem hv))
  rw [List.mem_singleton.1 hlast.2, List.mem_singleton.1 hv]

/-- The loop over the vertices visits all of them, with the same result in both variants. -/
theorem PearceInv.visitAll : ∀ {vs : List (Fin n)} {s : Pearce4Data n} {rank : Fin n → ℕ},
    PearceInv G [] s [] rank → vs.Nodup →
    (∀ x ∈ vs, s.rIndex x = 0 → x ∉ s.nodesInSCC.flatten) →
    ∃ s', (∀ fuel ≥ n, Pearce4Data.visitAll (pearce4VisitRec G fuel) vs s = some s') ∧
      (∃ k, ∀ fuel ≥ k, Pearce4Data.visitAll (pearce4VisitIt G fuel) vs s = some s') ∧
      (∃ rank', PearceInv G [] s' [] rank') ∧
      ∀ x, x ∈ s.nodesInSCC.flatten ∨ x ∈ vs → x ∈ s'.nodesInSCC.flatten
  | [], s, rank, h, _, _ => ⟨s, fun _ _ => rfl, ⟨0, fun _ _ => rfl⟩, ⟨rank, h⟩, by simp⟩
  | v :: vs, s, rank, h, hnodup, hzero => by
    obtain ⟨hv, hnodup⟩ := List.nodup_cons.1 hnodup
    by_cases h0 : s.rIndex v = 0
    · have hvis : ¬Visited [] s.nodesInSCC v := fun hvis =>
        hvis.elim List.not_mem_nil (hzero v List.mem_cons_self h0)
      obtain ⟨s₁, hvisit, hrec, hmoves⟩ := h.visit hvis
      obtain ⟨k₁, hit⟩ := pearce4VisitIt_eq hmoves
      obtain ⟨⟨rank₁, h₁⟩, hmono, comps, c, hcomps, hvc⟩ := hvisit
      obtain ⟨s', hrec', ⟨k₂, hit'⟩, hinv, hall⟩ := h₁.visitAll hnodup fun x hx hx0 hxc =>
        hv (h₁.eq_of_rIndex_eq_zero hcomps hvc hxc hx0 ▸ hx)
      refine ⟨s', fun fuel hfuel => ?_, ⟨max k₁ k₂, fun fuel hfuel => ?_⟩, hinv, fun x hx => ?_⟩
      · rw [Pearce4Data.visitAll, if_pos h0, hrec fuel hfuel, Option.bind_some, h₁.flushStack_eq,
          hrec' fuel hfuel]
      · rw [Pearce4Data.visitAll, if_pos h0, hit fuel (le_of_max_le_left hfuel), Option.bind_some,
          h₁.flushStack_eq, hit' fuel (le_of_max_le_right hfuel)]
      · refine hall x ?_
        rcases hx with hx | hx
        · exact Or.inl (hmono x hx)
        · rcases List.mem_cons.1 hx with rfl | hx
          · left
            rw [hcomps, List.flatten_append, List.mem_append]
            right
            simpa using hvc
          · exact Or.inr hx
    · obtain ⟨s', hrec', ⟨k, hit'⟩, hinv, hall⟩ := h.visitAll hnodup fun x hx =>
        hzero x (List.mem_cons_of_mem v hx)
      refine ⟨s', fun fuel hfuel => ?_, ⟨k, fun fuel hfuel => ?_⟩, hinv, fun x hx => hall x ?_⟩
      · rw [Pearce4Data.visitAll, if_neg h0, hrec' fuel hfuel]
      · rw [Pearce4Data.visitAll, if_neg h0, hit' fuel hfuel]
      · rcases hx with hx | hx
        · exact Or.inl hx
        · rcases List.mem_cons.1 hx with rfl | hx
          · exact Or.inl ((h.visited_of_rIndex_ne_zero h0).resolve_left List.not_mem_nil)
          · exact Or.inr hx

theorem inv_init (G : Fin n → List (Fin n)) : PearceInv G [] (init n) [] fun _ => 0 where
  search := Search.init _ _
  rank_eq := by simp
  index_eq := rfl
  white _ _ := rfl
  mark := by simp [init]
  counter _ := by simp [init]
  root_iff := by simp
  stack_mem := by simp [init]
  stack_nodup := by simp [init]
  stack_blocks := by simp [init]
  holder := by simp [init]

end Pearce4Data

open StronglyConnected in
/-- A finished search that numbers its components fills a correct holder. -/
theorem SCCHolder.correct_of_search {n : ℕ} {G : Fin n → List (Fin n)} {h : SCCHolder n}
    {rank low : Fin n → ℕ} (hsearch : Search G [] [] rank low h.nodesInSCC)
    (hall : ∀ v, v ∈ h.nodesInSCC.flatten)
    (hholder : ∀ (i : ℕ) (c : List (Fin n)), h.nodesInSCC[i]? = some c → ∀ x ∈ c, h.sccOfNode x = i) :
    h.Correct G := by
  have hcomp : ∀ v, ∃ c, h.nodesInSCC[h.sccOfNode v]? = some c ∧ v ∈ c := by
    intro v
    obtain ⟨c, hc, hv⟩ := List.mem_flatten.1 (hall v)
    obtain ⟨i, hi, rfl⟩ := List.getElem_of_mem hc
    have hget := List.getElem?_eq_getElem hi
    exact ⟨_, by rw [hholder i _ hget v hv, hget], hv⟩
  exact {
    complete := hall
    nodup := hsearch.comps_nodup
    ne_nil := hsearch.comps_ne_nil
    agree := by
      intro v i
      constructor
      · rintro rfl
        exact hcomp v
      · rintro ⟨c, hc, hv⟩
        exact hholder i c hc v hv
    connected := by
      intro v w
      obtain ⟨c, hc, hv⟩ := hcomp v
      obtain ⟨d, hd, hw⟩ := hcomp w
      exact hsearch.same_component_iff hc hv hd hw
    ordered := by
      intro v w hw hne
      obtain ⟨c, hc, hvc⟩ := hcomp v
      obtain ⟨d, hd, hwd⟩ := hcomp w
      have hle := hsearch.component_le (.single hw) hc hvc hd hwd
      exact lt_of_le_of_ne hle (Ne.symm hne) }

/-- Both searches end in the same state, and it holds the right components. -/
theorem exists_search {n : ℕ} (G : Fin n → List (Fin n)) :
    ∃ s : Pearce4Data n, s.toSCCHolder.Correct G ∧
      (∀ fuel ≥ n, Pearce4Data.visitAll (Pearce4Data.pearce4VisitRec G fuel) (List.finRange n) (.init n) = some s) ∧
      ∃ k, ∀ fuel ≥ k, Pearce4Data.visitAll (Pearce4Data.pearce4VisitIt G fuel) (List.finRange n) (.init n) = some s := by
  obtain ⟨s, hrec, hit, ⟨rank, hinv⟩, hall⟩ :=
    (Pearce4Data.inv_init G).visitAll (List.nodup_finRange n)
      fun x _ _ hx => by simp [Pearce4Data.init] at hx
  exact ⟨s, SCCHolder.correct_of_search hinv.search (fun v => hall v (Or.inr (List.mem_finRange v)))
    hinv.holder, hrec, hit⟩

theorem computeSCCs_eq {n : ℕ} {G : Fin n → List (Fin n)} {s : Pearce4Data n}
    (hrec : ∀ fuel ≥ n, Pearce4Data.visitAll (Pearce4Data.pearce4VisitRec G fuel) (List.finRange n) (.init n) = some s)
    (hit : ∃ k, ∀ fuel ≥ k, Pearce4Data.visitAll (Pearce4Data.pearce4VisitIt G fuel) (List.finRange n) (.init n) = some s)
    (iterative : Bool) : ∃ bound, ∀ fuel ≥ bound, computeSCCs G iterative fuel = some s.toSCCHolder := by
  cases iterative with
  | true =>
    obtain ⟨k, hit⟩ := hit
    exact ⟨k, fun fuel hfuel => by simp [computeSCCs, hit fuel hfuel]⟩
  | false => exact ⟨n, fun fuel hfuel => by simp [computeSCCs, hrec fuel hfuel]⟩

/-- Both variants of `computeSCCs` terminate with the same, correct components. -/
theorem computeSCCs_correct {n : ℕ} (G : Fin n → List (Fin n)) :
    ∃ h : SCCHolder n, h.Correct G ∧
      ∀ iterative, ∃ bound, ∀ fuel ≥ bound, computeSCCs G iterative fuel = some h := by
  obtain ⟨s, hcorrect, hrec, hit⟩ := exists_search G
  exact ⟨s.toSCCHolder, hcorrect, computeSCCs_eq hrec hit⟩

end Phasar
