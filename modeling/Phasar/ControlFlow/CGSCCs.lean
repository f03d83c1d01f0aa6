import Phasar.ControlFlow.ICFG
import Phasar.Utils.SCCGeneric
import Mathlib.Data.List.Pairwise

/-!
# Strongly connected components of a call graph

`computeCGSCCs`, a recursive Tarjan search over the functions of a compressor, and the graph of
callers among the components. `UINT32_MAX`, the mark of an unvisited function, is `none`.

* `FunctionCompressor`, `ClosedFunctions`;
* `computeCGSCCs`, `computeCGSCCCallers`;
* `TarjanInv`: the data represent a search for components;
* `computeCGSCCs_correct`.
-/

namespace Phasar

/-- A compressor: functions with sequential ids. -/
structure FunctionCompressor (F : Type*) where
  size : ℕ
  fn : Fin size → F
  getOrNull : F → Option (Fin size)
  getOrNull_iff : ∀ f id, getOrNull f = some id ↔ fn id = f

/-- A compressor that has an id for every callee of its functions. -/
structure ClosedFunctions {N F : Type*} (G : ICFG N F) extends FunctionCompressor F where
  closed : ∀ id, ∀ inst ∈ G.getAllInstructionsOf (fn id), G.isCallSite inst = true →
    ∀ callee ∈ G.getCalleesOfCallAt inst, (getOrNull callee).isSome = true

namespace ClosedFunctions

variable {N F : Type*} {G : ICFG N F} (C : ClosedFunctions G)

/-- The callees of a function, in the order of its call sites. -/
def callees (id : Fin C.size) : List F :=
  ((G.getAllInstructionsOf (C.fn id)).filter fun inst => G.isCallSite inst).flatMap
    G.getCalleesOfCallAt

theorem mem_callees {id : Fin C.size} {callee : F} : callee ∈ C.callees id ↔
    ∃ inst ∈ G.getAllInstructionsOf (C.fn id), G.isCallSite inst = true ∧
      callee ∈ G.getCalleesOfCallAt inst := by
  simp [callees, and_assoc]

/-- The ids of the callees. -/
def calleeIds (id : Fin C.size) : List (Fin C.size) :=
  (C.callees id).pmap (fun callee h => (C.getOrNull callee).get h) fun callee hcallee => by
    obtain ⟨inst, hinst, hcs, hmem⟩ := C.mem_callees.1 hcallee
    exact C.closed id inst hinst hcs callee hmem

theorem mem_calleeIds {id id' : Fin C.size} :
    id' ∈ C.calleeIds id ↔ C.fn id' ∈ C.callees id := by
  rw [calleeIds, List.mem_pmap]
  constructor
  · rintro ⟨callee, hcallee, rfl⟩
    rwa [(C.getOrNull_iff callee _).1 (Option.some_get _).symm]
  · intro h
    refine ⟨C.fn id', h, Option.some_inj.1 ?_⟩
    rw [Option.some_get]
    exact (C.getOrNull_iff _ _).2 rfl

end ClosedFunctions

/-- The data of the search, with the top of the stack first, and the holder that is filled. -/
structure TarjanData (n : ℕ) extends SCCHolder n where
  disc : Fin n → Option ℕ
  low : Fin n → ℕ
  onStack : Fin n → Bool
  seen : Fin n → Bool
  stack : List (Fin n)
  time : ℕ

namespace TarjanData

variable {n : ℕ}

def init (n : ℕ) : TarjanData n where
  sccOfNode _ := 0
  nodesInSCC := []
  disc _ := none
  low _ := 4294967295
  onStack _ := false
  seen _ := false
  stack := []
  time := 0

def enter (currNode : Fin n) (s : TarjanData n) : TarjanData n :=
  { s with
    disc := Function.update s.disc currNode (some s.time)
    low := Function.update s.low currNode s.time
    time := s.time + 1
    stack := currNode :: s.stack
    onStack := Function.update s.onStack currNode true }

/-- `SetMin` on the low-link of `currNode`. -/
def setMin (currNode : Fin n) (other : ℕ) (s : TarjanData n) : TarjanData n :=
  if other < s.low currNode then { s with low := Function.update s.low currNode other } else s

/-- After a tree edge. -/
def tree (currNode succNode : Fin n) (s : TarjanData n) : TarjanData n :=
  setMin currNode (s.low succNode) s

/-- An edge to a visited function: a back-edge if that is on the stack. -/
def backEdge (currNode succNode : Fin n) (s : TarjanData n) : TarjanData n :=
  if s.onStack succNode then
    match s.disc succNode with
    | some discovered => setMin currNode discovered s
    | none => s
  else s

/-- Move a function from the stack to the component `sccIdx`. -/
def assign (sccIdx : ℕ) (node : Fin n) (s : TarjanData n) : TarjanData n :=
  { s with
    stack := s.stack.tail
    sccOfNode := Function.update s.sccOfNode node sccIdx
    onStack := Function.update s.onStack node false
    seen := Function.update s.seen node true }

/-- Pop the stack down to `currNode`. -/
def popUntil (currNode : Fin n) (sccIdx : ℕ) :
    List (Fin n) → List (Fin n) → TarjanData n → List (Fin n) × TarjanData n
  | node :: stack, funsInSCC, s =>
    if node = currNode then (funsInSCC ++ [node], assign sccIdx node s)
    else popUntil currNode sccIdx stack (funsInSCC ++ [node]) (assign sccIdx node s)
  | [], funsInSCC, s => (funsInSCC, s)

/-- The end of a visit. -/
def exit (currNode : Fin n) (s : TarjanData n) : TarjanData n :=
  if some (s.low currNode) = s.disc currNode then
    let popped := popUntil currNode s.nodesInSCC.length s.stack [] s
    { popped.2 with nodesInSCC := s.nodesInSCC ++ [popped.1] }
  else s

/-- What the search does to its data. -/
def ops (E : Fin n → List (Fin n)) : DepthFirst.Ops (Fin n) (TarjanData n) where
  succs := E
  unseen s v := (s.disc v).isNone
  enter := enter
  tree := tree
  seen := backEdge
  exit := exit

/-- The loop over all functions. -/
def visitAll (E : Fin n → List (Fin n)) (fuel : ℕ) :
    List (Fin n) → TarjanData n → Option (TarjanData n)
  | [], s => some s
  | v :: rest, s =>
    if s.seen v then visitAll E fuel rest s
    else ((ops E).visit fuel v s).bind (visitAll E fuel rest)

end TarjanData

/-- `computeCGSCCs`, with a bound on the depth of the recursion. -/
def computeCGSCCs {N F : Type*} {G : ICFG N F} (C : ClosedFunctions G) (fuel : ℕ) :
    Option (SCCHolder C.size) :=
  (TarjanData.visitAll C.calleeIds fuel (List.finRange C.size) (TarjanData.init C.size)).map
    TarjanData.toSCCHolder

/-- `SCCDependencyGraph`. -/
structure SCCDependencyGraph where
  childrenOfSCC : ℕ → List ℕ
  sccRoots : List ℕ

/-- One caller `call.2` of the function `call.1`, with the components that are still leaves. -/
def addCaller {N F : Type*} (G : ICFG N F) (C : FunctionCompressor F) (sccs : SCCHolder C.size)
    (acc : (ℕ → List ℕ) × (ℕ → Bool)) (call : Fin C.size × N) : (ℕ → List ℕ) × (ℕ → Bool) :=
  match C.getOrNull (G.getFunctionOf call.2) with
  | some caller =>
    let scc := sccs.sccOfNode call.1
    let callerSCC := sccs.sccOfNode caller
    if callerSCC ≠ scc then
      (Function.update acc.1 scc ((acc.1 scc).insert callerSCC),
        Function.update acc.2 callerSCC false)
    else acc
  | none => acc

/-- `computeCGSCCCallers`: the callers of all functions. -/
def computeCGSCCCallers {N F : Type*} (G : ICFG N F) (C : FunctionCompressor F)
    (sccs : SCCHolder C.size) : SCCDependencyGraph :=
  let calls := (List.finRange C.size).flatMap fun id => (G.getCallersOf (C.fn id)).map (id, ·)
  let result := calls.foldl (addCaller G C sccs) (fun _ => [], fun _ => true)
  { childrenOfSCC := result.1
    sccRoots := (List.range sccs.nodesInSCC.length).filter fun scc => result.2 scc }

namespace TarjanData

open StronglyConnected

variable {n : ℕ} {E : Fin n → List (Fin n)}

/-- The functions `nodes` are moved to the component `sccIdx`, leaving `stack`. -/
def assignAll (sccIdx : ℕ) (nodes stack : List (Fin n)) (s : TarjanData n) : TarjanData n :=
  { s with
    stack := stack
    sccOfNode := fun x => if nodes.contains x then sccIdx else s.sccOfNode x
    onStack := fun x => if nodes.contains x then false else s.onStack x
    seen := fun x => if nodes.contains x then true else s.seen x }

theorem popUntil_eq {v : Fin n} {sccIdx : ℕ} {bottom : List (Fin n)} :
    ∀ {top nodes : List (Fin n)} {s : TarjanData n}, s.stack = top ++ v :: bottom → v ∉ top →
      popUntil v sccIdx s.stack nodes s =
        (nodes ++ (top ++ [v]), assignAll sccIdx (top ++ [v]) bottom s) := by
  intro top
  induction top with
  | nil =>
    intro nodes s hs _
    rw [List.nil_append] at hs
    rw [hs, popUntil, if_pos rfl, List.nil_append]
    congr 1
    simp only [assign, assignAll, hs, List.tail_cons, List.contains_iff_mem, List.mem_singleton]
    congr 1
    · congr 1
      funext x
      by_cases hx : x = v <;> simp [hx]
    · funext x
      by_cases hx : x = v <;> simp [hx]
    · funext x
      by_cases hx : x = v <;> simp [hx]
  | cons w top ih =>
    intro nodes s hs hv
    obtain ⟨hvw, hv⟩ := not_or.1 fun h => hv (List.mem_cons.2 h)
    have hs' : (assign sccIdx w s).stack = top ++ v :: bottom := by simp [assign, hs]
    rw [hs, List.cons_append, popUntil, if_neg (Ne.symm hvw), ← hs', ih hs' hv]
    simp only [List.append_assoc, List.cons_append, List.nil_append, Prod.mk.injEq, true_and]
    simp only [assignAll, assign, List.contains_iff_mem, List.mem_cons]
    congr 1
    · congr 1
      funext x
      by_cases hx : x = w <;> simp [hx]
    · funext x
      by_cases hx : x = w <;> simp [hx]
    · funext x
      by_cases hx : x = w <;> simp [hx]

/-- The rank of a function: when it was discovered. -/
def rank (s : TarjanData n) (x : Fin n) : ℕ := (s.disc x).getD 0

/-- The data represent a search. -/
structure TarjanInv (E : Fin n → List (Fin n)) (frames : DepthFirst.Frames (Fin n))
    (s : TarjanData n) : Prop where
  search : Search E frames s.stack s.rank s.low s.nodesInSCC
  disc_iff : ∀ x, s.disc x = none ↔ ¬Visited s.stack s.nodesInSCC x
  time_gt : ∀ x ∈ s.stack, s.rank x < s.time
  onStack_iff : ∀ x, s.onStack x = true ↔ x ∈ s.stack
  seen_iff : ∀ x, s.seen x = true ↔ x ∈ s.nodesInSCC.flatten
  holder : ∀ (i : ℕ) (c : List (Fin n)), s.nodesInSCC[i]? = some c → ∀ x ∈ c, s.sccOfNode x = i

theorem setMin_eq (v : Fin n) (k : ℕ) (s : TarjanData n) :
    setMin v k s = { s with low := Function.update s.low v (min (s.low v) k) } := by
  rw [setMin]
  split_ifs with hk
  · rw [min_eq_right hk.le]
  · rw [min_eq_left (not_lt.1 hk), Function.update_eq_self]

namespace TarjanInv

variable {frames fr : DepthFirst.Frames (Fin n)} {s : TarjanData n}

theorem disc_eq (h : TarjanInv E frames s) {x : Fin n} (hx : Visited s.stack s.nodesInSCC x) :
    s.disc x = some (s.rank x) := by
  obtain ⟨k, hk⟩ := Option.ne_none_iff_exists'.1 fun hnone => (h.disc_iff x).1 hnone hx
  rw [rank, hk, Option.getD_some]

theorem visited_of_disc (h : TarjanInv E frames s) {x : Fin n} (hx : (s.disc x).isNone = false) :
    Visited s.stack s.nodesInSCC x := by
  by_contra hvis
  rw [(h.disc_iff x).2 hvis] at hx
  cases hx

/-- Entering a function. -/
theorem enter (h : TarjanInv E frames s) {v : Fin n} (hv : ¬Visited s.stack s.nodesInSCC v)
    (hcall : DepthFirst.Ops.Calls frames v) :
    TarjanInv E ((v, E v) :: frames) (s.enter v) := by
  have hother : ∀ x ∈ s.stack, x ≠ v := fun x hx hxv => hv (Or.inl (hxv ▸ hx))
  have hrank : ∀ x ≠ v, (s.enter v).rank x = s.rank x := by
    intro x hx
    show (Function.update s.disc v (some s.time) x).getD 0 = _
    rw [Function.update_of_ne hx, rank]
  have hself : (s.enter v).rank v = s.time := by
    show (Function.update s.disc v (some s.time) v).getD 0 = _
    rw [Function.update_self, Option.getD_some]
  exact {
    search := by
      refine h.search.enter hv ?_ (fun x hx => hrank x (hother x hx))
        (fun x hx => Function.update_of_ne (hother x hx) _ _)
        (fun x hx => hself ▸ h.time_gt x hx) ((Function.update_self ..).trans hself.symm)
      cases frames with
      | nil => simp
      | cons f fr =>
        obtain ⟨rest, hrest⟩ := hcall
        rintro _ ⟨⟩
        exact ⟨rest, hrest⟩
    disc_iff := by
      intro x
      show Function.update s.disc v (some s.time) x = none ↔ ¬Visited (v :: s.stack) s.nodesInSCC x
      by_cases hx : x = v
      · simp [hx, Visited]
      · rw [Function.update_of_ne hx, h.disc_iff]
        simp [Visited, hx]
    time_gt := by
      intro x hx
      show (s.enter v).rank x < s.time + 1
      rcases List.mem_cons.1 hx with rfl | hx
      · omega
      · have := h.time_gt x hx
        rw [hrank x (hother x hx)]
        omega
    onStack_iff := by
      intro x
      show Function.update s.onStack v true x = true ↔ x ∈ v :: s.stack
      by_cases hx : x = v
      · simp [hx]
      · rw [Function.update_of_ne hx, h.onStack_iff, List.mem_cons]
        simp [hx]
    seen_iff := h.seen_iff
    holder := h.holder }

/-- An edge to a visited function. -/
theorem backEdge {v w : Fin n} {rest : List (Fin n)} (h : TarjanInv E ((v, w :: rest) :: fr) s)
    (hw : Visited s.stack s.nodesInSCC w) :
    TarjanInv E ((v, rest) :: fr) (s.backEdge v w) := by
  have hv : v ∈ s.stack := h.search.mem_flight_of_gray List.mem_cons_self
  have hedge : w ∈ E v := h.search.subset (v, w :: rest) List.mem_cons_self w List.mem_cons_self
  rw [TarjanData.backEdge]
  split_ifs with hon
  · have hws := (h.onStack_iff w).1 hon
    rw [h.disc_eq hw]
    dsimp only
    rw [setMin_eq]
    have hself : Function.update s.low v (min (s.low v) (s.rank w)) v =
        min (s.low v) (s.rank w) := Function.update_self ..
    refine { h with
      search := h.search.seen hw (fun x _ hx => Function.update_of_ne hx _ _) ?_ ?_ fun _ => ?_ }
    · exact hself.trans_le (min_le_left _ _)
    · show ∃ y ∈ s.stack, s.rank y = Function.update s.low v (min (s.low v) (s.rank w)) v ∧ _
      rw [hself]
      rcases min_choice (s.low v) (s.rank w) with hmin | hmin
      · rw [hmin]
        exact h.search.low_reach v hv
      · exact ⟨w, hws, hmin.symm, .single hedge⟩
    · exact hself.trans_le (min_le_right _ _)
  · refine { h with
      search := h.search.seen hw (fun _ _ _ => rfl) le_rfl (h.search.low_reach v hv) fun hws => ?_ }
    exact absurd ((h.onStack_iff w).2 hws) hon

/-- Leaving a function whose low-link is its own rank. -/
theorem exit_root {v : Fin n} (h : TarjanInv E ((v, []) :: fr) s) (hroot : s.low v = s.rank v) :
    TarjanInv E fr (s.exit v) ∧ (s.exit v).low = s.low ∧ v ∈ (s.exit v).nodesInSCC.flatten ∧
      ∀ x, Visited (s.exit v).stack (s.exit v).nodesInSCC x ↔
        Visited s.stack s.nodesInSCC x := by
  have hv : v ∈ s.stack := h.search.mem_flight_of_gray List.mem_cons_self
  obtain ⟨top, bottom, hstack⟩ := List.append_of_mem hv
  -- the stack is ordered by rank, so that the popped part is the component of `v`
  have hranked := h.search.ranked
  rw [hstack, List.pairwise_append, List.pairwise_cons] at hranked
  obtain ⟨-, ⟨hbottom, -⟩, htop⟩ := hranked
  have htop' : ∀ x ∈ top, s.rank v < s.rank x := fun x hx => htop x hx v List.mem_cons_self
  have hvtop : v ∉ top := fun hv => lt_irrefl _ (htop' v hv)
  have hcomp : ∀ x, x ∈ top ++ [v] ↔ x ∈ s.stack ∧ s.rank v ≤ s.rank x := by
    intro x
    rw [hstack, List.mem_append, List.mem_append, List.mem_singleton, List.mem_cons]
    constructor
    · rintro (hx | rfl)
      · exact ⟨Or.inl hx, (htop' x hx).le⟩
      · exact ⟨Or.inr (Or.inl rfl), le_rfl⟩
    · rintro ⟨hx | rfl | hx, hle⟩
      · exact Or.inl hx
      · exact Or.inr rfl
      · exact absurd (hbottom x hx) (not_lt.2 hle)
  have hfilter : s.stack.filter (fun x => decide (s.rank x < s.rank v)) = bottom := by
    rw [hstack, List.filter_append, List.filter_cons_of_neg (by simp),
      List.filter_eq_nil_iff.2 fun x hx => by simpa using (htop' x hx).le,
      List.filter_eq_self.2 fun x hx => by simpa using hbottom x hx, List.nil_append]
  have hnodup : (top ++ [v]).Nodup := by
    have hsub : (top ++ [v]).Sublist s.stack := by
      rw [hstack]
      exact (List.Sublist.refl top).append (List.singleton_sublist.2 List.mem_cons_self)
    exact h.search.nodup.sublist hsub
  have hsearch := h.search.root hroot hnodup hcomp
  have hvis : ∀ x, Visited _ (s.nodesInSCC ++ [top ++ [v]]) x ↔ Visited s.stack s.nodesInSCC x :=
    Search.visited_root_iff hcomp
  rw [hfilter] at hsearch hvis
  have hexit : s.exit v =
      { assignAll s.nodesInSCC.length (top ++ [v]) bottom s with
        nodesInSCC := s.nodesInSCC ++ [top ++ [v]] } := by
    rw [TarjanData.exit, if_pos (by rw [h.disc_eq (Or.inl hv), hroot]),
      popUntil_eq hstack hvtop, List.nil_append]
  have hmem : ∀ x, x ∈ bottom ↔ x ∈ s.stack ∧ x ∉ top ++ [v] := by
    intro x
    rw [← hfilter, List.mem_filter, hcomp, decide_eq_true_eq, ← not_le]
    tauto
  have hold : ∀ {x : Fin n}, x ∈ s.nodesInSCC.flatten → x ∉ top ++ [v] :=
    fun hx hx' => h.search.comps_disjoint _ ((hcomp _).1 hx').1 hx
  rw [hexit]
  refine ⟨?_, rfl, by simp, hvis⟩
  exact {
    search := hsearch
    disc_iff := fun x => (h.disc_iff x).trans (not_congr (hvis x)).symm
    time_gt := fun x hx => h.time_gt x ((hmem x).1 hx).1
    onStack_iff := by
      intro x
      show (if (top ++ [v]).contains x then false else s.onStack x) = true ↔ x ∈ bottom
      simp only [List.contains_iff_mem]
      rw [hmem, ← h.onStack_iff]
      split_ifs with hx <;> simp [hx]
    seen_iff := by
      intro x
      show (if (top ++ [v]).contains x then true else s.seen x) = true ↔
        x ∈ (s.nodesInSCC ++ [top ++ [v]]).flatten
      simp only [List.contains_iff_mem]
      by_cases hx : x ∈ top ++ [v]
      · rw [if_pos hx, List.flatten_append, List.mem_append]
        simpa using Or.inr (List.mem_append.1 hx)
      · rw [if_neg hx, h.seen_iff, List.flatten_append, List.mem_append, List.flatten_cons,
          List.flatten_nil, List.append_nil]
        exact (or_iff_left hx).symm
    holder := by
      intro i c hi x hx
      show (if (top ++ [v]).contains x then s.nodesInSCC.length else s.sccOfNode x) = i
      simp only [List.contains_iff_mem]
      rcases getElem?_concat hi with hi | ⟨rfl, rfl⟩
      · rw [if_neg (hold (List.mem_flatten.2 ⟨c, List.mem_of_getElem? hi, hx⟩))]
        exact h.holder i c hi x hx
      · rw [if_pos hx] }

/-- The exit of a function that is not a root changes nothing. -/
theorem exit_branch_eq {v : Fin n} {es : List (Fin n)} (h : TarjanInv E ((v, es) :: fr) s)
    (hlt : s.low v < s.rank v) : s.exit v = s := by
  have hv : v ∈ s.stack := h.search.mem_flight_of_gray List.mem_cons_self
  rw [TarjanData.exit, if_neg]
  rw [h.disc_eq (Or.inl hv), Option.some_inj]
  omega

/-- Leaving a function and finishing the edge that led to it. -/
theorem tree {v w : Fin n} {rest : List (Fin n)}
    (h : TarjanInv E ((w, []) :: (v, w :: rest) :: fr) s) :
    TarjanInv E ((v, rest) :: fr) (TarjanData.tree v w (s.exit w)) := by
  have hw : w ∈ s.stack := h.search.mem_flight_of_gray List.mem_cons_self
  have hv : v ∈ s.stack := h.search.mem_flight_of_gray (by simp)
  have hvw : s.rank v < s.rank w := h.search.gray_rank_lt List.mem_cons_self
  have hedge : w ∈ E v := h.search.subset (v, w :: rest) (by simp) w List.mem_cons_self
  rcases (h.search.low_le w hw).eq_or_lt with hroot | hlt
  · -- the low-link of a root is above that of its caller
    obtain ⟨h', hlow, -, hvis⟩ := h.exit_root hroot
    have hle := h.search.low_le v hv
    have hv' : v ∈ (s.exit w).stack := h'.search.mem_flight_of_gray List.mem_cons_self
    have hnot : ¬(s.exit w).low w < (s.exit w).low v := by
      rw [hlow]
      omega
    rw [TarjanData.tree, setMin, if_neg hnot]
    refine { h' with
      search := h'.search.seen ((hvis w).2 (Or.inl hw)) (fun _ _ _ => rfl) le_rfl
        (h'.search.low_reach v hv') fun hws => ?_ }
    rw [hlow]
    have hle' := h'.search.low_le w hws
    rw [hlow] at hle'
    omega
  · rw [h.exit_branch_eq hlt, TarjanData.tree, setMin_eq]
    have hself : Function.update s.low v (min (s.low v) (s.low w)) v =
        min (s.low v) (s.low w) := Function.update_self ..
    refine { h with
      search := h.search.branch hlt (fun x _ hx => Function.update_of_ne hx _ _) ?_ ?_ ?_ }
    · exact hself.trans_le (min_le_left _ _)
    · exact hself.trans_le (min_le_right _ _)
    · show ∃ y ∈ s.stack, s.rank y = Function.update s.low v (min (s.low v) (s.low w)) v ∧ _
      rw [hself]
      rcases min_choice (s.low v) (s.low w) with hmin | hmin
      · rw [hmin]
        exact h.search.low_reach v hv
      · obtain ⟨y, hy, hrk, hr⟩ := h.search.low_reach w hw
        exact ⟨y, hy, hrk.trans hmin.symm, .head hedge hr⟩

end TarjanInv

@[simp] theorem setMin_disc (v : Fin n) (k : ℕ) (s : TarjanData n) :
    (setMin v k s).disc = s.disc := by
  rw [setMin_eq]

@[simp] theorem backEdge_disc (v w : Fin n) (s : TarjanData n) :
    (backEdge v w s).disc = s.disc := by
  rw [backEdge]
  split_ifs
  · cases s.disc w <;> simp
  · rfl

theorem popUntil_disc (v : Fin n) (sccIdx : ℕ) : ∀ (stack nodes : List (Fin n)) (s : TarjanData n),
    (popUntil v sccIdx stack nodes s).2.disc = s.disc
  | [], _, _ => rfl
  | w :: stack, nodes, s => by
    rw [popUntil]
    split_ifs
    · rfl
    · exact popUntil_disc v sccIdx stack _ _

@[simp] theorem exit_disc (v : Fin n) (s : TarjanData n) : (exit v s).disc = s.disc := by
  rw [exit]
  split_ifs
  · exact popUntil_disc _ _ _ _ _
  · rfl

@[simp] theorem tree_disc (v w : Fin n) (s : TarjanData n) : (tree v w s).disc = s.disc :=
  setMin_disc _ _ _

variable (E) in
/-- Every move of the search keeps the invariant. -/
theorem tarjan_rule : (ops E).Rule (TarjanInv E) where
  enter h hv hcall := h.enter ((h.disc_iff _).1 (Option.isNone_iff_eq_none.1 hv)) hcall
  enter_self := by
    intro fr v s _ _
    show (Function.update s.disc v (some s.time) v).isNone = false
    rw [Function.update_self, Option.isNone_some]
  enter_mono := by
    intro fr v s _ hv x hx
    by_cases hxv : x = v
    · exact hxv ▸ hv
    · have hother : (s.enter v).disc x = s.disc x := Function.update_of_ne hxv _ _
      exact (congrArg Option.isNone hother).symm.trans hx
  seen h hw := h.backEdge (h.visited_of_disc hw)
  seen_mono := by
    intro fr v w rest s _ _ x hx
    simpa [ops] using hx
  tree h := h.tree
  tree_mono := by
    intro fr v w rest s _ x hx
    simpa [ops] using hx

/-- Visiting a function from outside. -/
theorem TarjanInv.visit {s : TarjanData n} (h : TarjanInv E [] s) {v : Fin n}
    (hv : v ∉ s.nodesInSCC.flatten) :
    ∃ s', (∀ fuel ≥ n, (ops E).visit fuel v s = some s') ∧ TarjanInv E [] s' ∧
      v ∈ s'.nodesInSCC.flatten ∧ ∀ x ∈ s.nodesInSCC.flatten, x ∈ s'.nodesInSCC.flatten := by
  have hvis : ¬Visited s.stack s.nodesInSCC v := by
    rw [h.search.flight_eq_nil]
    rintro (hx | hx)
    · cases hx
    · exact hv hx
  have hunseen : (ops E).unseen s v = true := Option.isNone_iff_eq_none.2 ((h.disc_iff v).2 hvis)
  have hbudget : (ops E).budget s ≤ n := (Finset.card_le_univ _).trans_eq (Fintype.card_fin n)
  obtain ⟨s₁, hs₁, h₁, hmono, -⟩ := (tarjan_rule E).visit n hbudget h hunseen trivial
  obtain ⟨h', -, hv', hvis'⟩ := h₁.exit_root h₁.search.root_of_alone
  refine ⟨s₁.exit v, fun fuel hfuel => (ops E).visit_mono hfuel hs₁, h', hv', fun x hx => ?_⟩
  have hx₁ : Visited s₁.stack s₁.nodesInSCC x := by
    by_contra hvis
    have h0 := hmono x (Option.isNone_iff_eq_none.2 ((h₁.disc_iff x).2 hvis))
    exact (h.disc_iff x).1 (Option.isNone_iff_eq_none.1 h0) (Or.inr hx)
  have hx' := (hvis' x).2 hx₁
  rw [h'.search.flight_eq_nil] at hx'
  exact hx'.resolve_left List.not_mem_nil

/-- The loop visits all functions. -/
theorem TarjanInv.visitAll : ∀ (vs : List (Fin n)) {s : TarjanData n}, TarjanInv E [] s →
    ∃ s', (∀ fuel ≥ n, TarjanData.visitAll E fuel vs s = some s') ∧ TarjanInv E [] s' ∧
      ∀ x, x ∈ s.nodesInSCC.flatten ∨ x ∈ vs → x ∈ s'.nodesInSCC.flatten
  | [], s, h => ⟨s, fun _ _ => rfl, h, by simp⟩
  | v :: vs, s, h => by
    by_cases hseen : s.seen v = true
    · obtain ⟨s', hs', h', hall⟩ := TarjanInv.visitAll vs h
      refine ⟨s', fun fuel hfuel => ?_, h', fun x hx => hall x ?_⟩
      · rw [TarjanData.visitAll, if_pos hseen, hs' fuel hfuel]
      · rcases hx with hx | hx
        · exact Or.inl hx
        · rcases List.mem_cons.1 hx with rfl | hx
          · exact Or.inl ((h.seen_iff x).1 hseen)
          · exact Or.inr hx
    · obtain ⟨s₁, hs₁, h₁, hv, hmono⟩ := h.visit fun hv => hseen ((h.seen_iff v).2 hv)
      obtain ⟨s', hs', h', hall⟩ := TarjanInv.visitAll vs h₁
      refine ⟨s', fun fuel hfuel => ?_, h', fun x hx => hall x ?_⟩
      · rw [TarjanData.visitAll, if_neg hseen, hs₁ fuel hfuel, Option.bind_some, hs' fuel hfuel]
      · rcases hx with hx | hx
        · exact Or.inl (hmono x hx)
        · rcases List.mem_cons.1 hx with rfl | hx
          · exact Or.inl hv
          · exact Or.inr hx

theorem inv_init (E : Fin n → List (Fin n)) : TarjanInv E [] (init n) where
  search := Search.init _ _
  disc_iff := by simp [init, Visited]
  time_gt := by simp [init]
  onStack_iff := by simp [init]
  seen_iff := by simp [init]
  holder := by simp [init]

end TarjanData

section Callers

variable {N F : Type*} {G : ICFG N F} (C : ClosedFunctions G) (sccs : SCCHolder C.size)

/-- Some call of `calls` leads from a function of the component `d` to the other component `c`. -/
def Found (calls : List (Fin C.size × N)) (c d : ℕ) : Prop :=
  ∃ call ∈ calls, ∃ f, C.getOrNull (G.getFunctionOf call.2) = some f ∧
    sccs.sccOfNode call.1 = c ∧ sccs.sccOfNode f = d ∧ d ≠ c

/-- One call adds its edge and removes its caller from the leaves. -/
theorem addCaller_iff (acc : (ℕ → List ℕ) × (ℕ → Bool)) (call : Fin C.size × N) (c d : ℕ) :
    (d ∈ (addCaller G C.toFunctionCompressor sccs acc call).1 c ↔
      d ∈ acc.1 c ∨ Found C sccs [call] c d) ∧
    ((addCaller G C.toFunctionCompressor sccs acc call).2 d = true ↔
      acc.2 d = true ∧ ∀ c, ¬Found C sccs [call] c d) := by
  simp only [Found, List.mem_singleton, exists_eq_left, addCaller]
  cases hcaller : C.getOrNull (G.getFunctionOf call.2) with
  | none => simp
  | some f =>
    simp only [Option.some_inj, exists_eq_left']
    split_ifs with hne
    · dsimp only
      constructor
      · by_cases hc : c = sccs.sccOfNode call.1
        · subst hc
          rw [Function.update_self, List.mem_insert_iff]
          grind
        · rw [Function.update_of_ne hc]
          grind
      · by_cases hd : d = sccs.sccOfNode f
        · subst hd
          simpa using fun _ => hne
        · rw [Function.update_of_ne hd]
          grind
    · grind

theorem foldl_addCaller (calls : List (Fin C.size × N)) (c d : ℕ) :
    let result := calls.foldl (addCaller G C.toFunctionCompressor sccs)
      (fun _ => [], fun _ => true)
    (d ∈ result.1 c ↔ Found C sccs calls c d) ∧
      (result.2 d = true ↔ ∀ c, ¬Found C sccs calls c d) := by
  induction calls using List.reverseRecOn with
  | nil => simp [Found]
  | append_singleton calls call ih =>
    have hfound : ∀ c, Found C sccs (calls ++ [call]) c d ↔
        Found C sccs calls c d ∨ Found C sccs [call] c d := by
      simp only [Found, List.mem_append, or_and_right, exists_or, implies_true]
    rw [List.foldl_append, List.foldl_cons, List.foldl_nil]
    refine ⟨?_, ?_⟩
    · rw [(addCaller_iff C sccs _ call c d).1, ih.1, hfound]
    · rw [(addCaller_iff C sccs _ call c d).2, ih.2]
      simp only [hfound, not_or, forall_and]

/-- The callers that `computeCGSCCCallers` goes through are the call edges. -/
theorem found_callers (c d : ℕ) :
    Found C sccs ((List.finRange C.size).flatMap fun id =>
        (G.getCallersOf (C.fn id)).map (id, ·)) c d ↔
      ∃ f g, g ∈ C.calleeIds f ∧ sccs.sccOfNode g = c ∧ sccs.sccOfNode f = d ∧ d ≠ c := by
  constructor
  · rintro ⟨⟨g, cs⟩, hcall, f, hf, hc, hd, hne⟩
    obtain ⟨id, -, hmem⟩ := List.mem_flatMap.1 hcall
    obtain ⟨cs', hcs, heq⟩ := List.mem_map.1 hmem
    obtain ⟨rfl, rfl⟩ := Prod.mk.inj heq
    obtain ⟨hsite, hcallee⟩ := (G.mem_getCallersOf cs' _).1 hcs
    have hfn := (C.getOrNull_iff _ _).1 hf
    refine ⟨f, id, C.mem_calleeIds.2 (C.mem_callees.2 ⟨cs', ?_, hsite, hcallee⟩), hc, hd, hne⟩
    exact (G.mem_getAllInstructionsOf _ _).2 hfn.symm
  · rintro ⟨f, g, hg, hc, hd, hne⟩
    obtain ⟨cs, hcs, hsite, hcallee⟩ := C.mem_callees.1 (C.mem_calleeIds.1 hg)
    have hfn := (G.mem_getAllInstructionsOf _ _).1 hcs
    refine ⟨(g, cs), List.mem_flatMap.2 ⟨g, List.mem_finRange g, ?_⟩, f, ?_, hc, hd, hne⟩
    · exact List.mem_map.2 ⟨cs, (G.mem_getCallersOf _ _).2 ⟨hsite, hcallee⟩, rfl⟩
    · exact (C.getOrNull_iff _ _).2 hfn.symm

/-- The edges and the roots of the dependency graph. -/
theorem computeCGSCCCallers_iff (c d : ℕ) :
    (d ∈ (computeCGSCCCallers G C.toFunctionCompressor sccs).childrenOfSCC c ↔
      ∃ f g, g ∈ C.calleeIds f ∧ sccs.sccOfNode g = c ∧ sccs.sccOfNode f = d ∧ d ≠ c) ∧
    (d ∈ (computeCGSCCCallers G C.toFunctionCompressor sccs).sccRoots ↔
      d < sccs.nodesInSCC.length ∧ ∀ f g, g ∈ C.calleeIds f → sccs.sccOfNode f = d →
        sccs.sccOfNode g = d) := by
  have hfold := foldl_addCaller C sccs ((List.finRange C.size).flatMap fun id =>
    (G.getCallersOf (C.fn id)).map (id, ·)) c d
  refine ⟨hfold.1.trans (found_callers C sccs c d), ?_⟩
  rw [computeCGSCCCallers, List.mem_filter, List.mem_range, hfold.2]
  refine and_congr_right fun _ => ?_
  simp only [found_callers]
  constructor
  · intro h f g hg hf
    by_contra hne
    exact h (sccs.sccOfNode g) ⟨f, g, hg, rfl, hf, Ne.symm hne⟩
  · rintro h c ⟨f, g, hg, hc, hf, hne⟩
    exact hne (hc ▸ (h f g hg hf).symm)

end Callers

end Phasar
