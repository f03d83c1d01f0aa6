import Mathlib.Data.Finset.Card
import Mathlib.Data.Finset.SDiff
import Mathlib.Logic.Relation
import Phasar.ControlFlow.ICFG
import Phasar.Utils.Compressor

/-!
# The order of the instructions of a function

`computeCFGOrder` visits the instructions of a function depth first, and numbers an instruction when it
leaves it. The number may come after those of other functions.

* `CFG`: the control-flow graph of functions, maybe with a query for the only successor;
* `visit`, `computeCFGOrder`;
* `Inv`: what is numbered, seen and being visited; `postOrder`: the numbers.
-/

namespace Phasar

namespace ControlFlowOrder

/-- The queries of a control-flow graph. A block-aware one has `getUniqueSuccessor`. -/
structure CFG (N F : Type*) where
  getAllInstructionsOf : F → List N
  getSuccsOf : N → List N
  getStartPointsOf : F → List N
  getUniqueSuccessor : Option (N → Option N)
  startPoint_mem : ∀ f, ∀ n ∈ getStartPointsOf f, n ∈ getAllInstructionsOf f
  succ_mem : ∀ f, ∀ n ∈ getAllInstructionsOf f, ∀ m ∈ getSuccsOf n, m ∈ getAllInstructionsOf f
  uniqueSuccessor : ∀ get ∈ getUniqueSuccessor, ∀ n, ∀ m ∈ get n, ∀ w, w ∈ getSuccsOf n ↔ w = m

/-- The control flow inside the functions of a program. -/
def CFG.ofICFG {N F : Type*} (G : ICFG N F) : CFG N F where
  getAllInstructionsOf := G.getAllInstructionsOf
  getSuccsOf := G.getSuccsOf
  getStartPointsOf := G.getStartPointsOf
  getUniqueSuccessor := none
  startPoint_mem f n hn := (G.mem_getAllInstructionsOf n f).2 (G.getFunctionOf_startPoint hn)
  succ_mem f n hn m hm :=
    (G.mem_getAllInstructionsOf m f).2 ((G.getFunctionOf_succ n m hm).trans ((G.mem_getAllInstructionsOf n f).1 hn))
  uniqueSuccessor _ h := absurd h (Option.not_mem_none _)

variable {N F : Type*} [DecidableEq N]

/-- What a visit changes: the instructions that it has seen, and the order. -/
structure State (N : Type*) where
  Seen : Finset N
  Order : Compressor N

section Visit

variable (G : CFG N F)

/-- The instructions that are visited next. -/
def nexts (Inst : N) : List N :=
  match G.getUniqueSuccessor.bind fun get => get Inst with
  | some Next => [Next]
  | none => G.getSuccsOf Inst

/-- `Visit`, with `Push` at its end; `none` when the fuel runs out. -/
def visit : ℕ → N → State N → Option (State N)
  | 0, _, _ => none
  | fuel + 1, Inst, s =>
    if Inst ∈ s.Seen then some s
    else ((nexts G Inst).foldlM (fun s Succ => visit fuel Succ s) ⟨insert Inst s.Seen, s.Order⟩).map
      fun s => ⟨s.Seen, (s.Order.insert Inst).2.2⟩

/-- `computeCFGOrder`: the order after it. -/
def computeCFGOrder (Into : Compressor N) (Fun : F) : Option (Compressor N) :=
  ((G.getStartPointsOf Fun).foldlM
    (fun s SP => visit G ((G.getAllInstructionsOf Fun).length + 1) SP s) ⟨∅, Into⟩).map State.Order

end Visit

/-- The instructions from `begin` to `end`, which are reverse iterators. -/
def instructions (Order : Compressor N) : List N := Order.FromInt.reverse

variable {G : CFG N F} {Fun : F} {Before Order : List N} {gray : List N} {s : State N} {Into : Compressor N}
  {u v n m : N}

/-- The edges of the control-flow graph. -/
def Edge (G : CFG N F) (n m : N) : Prop := m ∈ G.getSuccsOf n

/-- The instruction is reachable from a start point. -/
def Reachable (G : CFG N F) (Fun : F) (n : N) : Prop :=
  ∃ SP ∈ G.getStartPointsOf Fun, Relation.ReflTransGen (Edge G) SP n

omit [DecidableEq N] in
/-- A unique successor is the only one. -/
theorem mem_nexts : m ∈ nexts G n ↔ Edge G n m := by
  rw [nexts, Edge]
  cases hunique : G.getUniqueSuccessor.bind fun get => get n with
  | none => rfl
  | some w =>
    obtain ⟨get, hget, hw⟩ := Option.bind_eq_some_iff.1 hunique
    rw [List.mem_singleton, G.uniqueSuccessor get hget n w hw]

/-- Behind an instruction on no cycle comes nothing that is reachable from it. -/
def Ordered (G : CFG N F) (order : List N) : Prop :=
  ∀ earlier u later, order = earlier ++ u :: later → ¬Relation.TransGen (Edge G) u u →
    ∀ v, Relation.TransGen (Edge G) u v → v ∈ earlier

/-- The visits of `gray` are not yet finished; the instructions `order` have been numbered since. -/
structure Inv (G : CFG N F) (Before gray order : List N) (s : State N) : Prop where
  fromInt : s.Order.FromInt = Before ++ order
  compressor : s.Order.Inv fun _ => False
  seen : ∀ n, n ∈ s.Seen ↔ n ∈ order ∨ n ∈ gray
  unfinished : ∀ n ∈ gray, n ∉ order
  nodup : order.Nodup
  closed : ∀ n ∈ order, ∀ m, Edge G n m → m ∈ s.Seen
  ordered : Ordered G order

variable {order : List N}

omit [DecidableEq N] in
/-- What is reachable from an instruction whose successors have been seen was numbered, unless the
instruction is on a cycle. -/
theorem Inv.mem_of_transGen (h : Inv G Before (v :: gray) order s) (hsuccs : ∀ m, Edge G v m → m ∈ s.Seen)
    (hgray : ∀ g ∈ gray, Relation.TransGen (Edge G) g v) (hcycle : ¬Relation.TransGen (Edge G) v v)
    (hvm : Relation.TransGen (Edge G) v m) : m ∈ order := by
  have hseen : ∀ {m}, Relation.TransGen (Edge G) v m → m ∈ s.Seen → m ∈ order := by
    intro m hvm hm
    rcases (h.seen m).1 hm with hm | hm
    · exact hm
    · rcases List.mem_cons.1 hm with rfl | hm
      · exact absurd hvm hcycle
      · exact absurd (hvm.trans (hgray m hm)) hcycle
  induction hvm with
  | single hm => exact hseen (.single hm) (hsuccs _ hm)
  | tail hvx hxm ih => exact hseen (hvx.tail hxm) (h.closed _ ih _ hxm)

/-- The start of a visit. -/
theorem Inv.enter (h : Inv G Before gray order s) (hv : v ∉ s.Seen) :
    Inv G Before (v :: gray) order ⟨insert v s.Seen, s.Order⟩ := by
  refine ⟨h.fromInt, h.compressor, fun n => ?_, fun n hn => ?_, h.nodup,
    fun n hn m hm => Finset.mem_insert_of_mem (h.closed n hn m hm), h.ordered⟩
  · rw [Finset.mem_insert, h.seen, List.mem_cons, or_left_comm]
  · rcases List.mem_cons.1 hn with rfl | hn
    · exact fun hmem => hv ((h.seen n).2 (Or.inl hmem))
    · exact h.unfinished n hn

/-- The end of a visit. -/
theorem Inv.push (h : Inv G Before (v :: gray) order s) (hbefore : v ∉ Before) (hv : v ∉ gray)
    (hsuccs : ∀ m, Edge G v m → m ∈ s.Seen) (hgray : ∀ g ∈ gray, Relation.TransGen (Edge G) g v) :
    Inv G Before gray (order ++ [v]) ⟨s.Seen, (s.Order.insert v).2.2⟩ := by
  have hnot := h.unfinished v List.mem_cons_self
  have hnew : s.Order.getOrNull v = none := by
    by_contra hfound
    obtain ⟨Id, hId⟩ := Option.ne_none_iff_exists'.1 hfound
    have hmem : v ∈ s.Order.FromInt := List.mem_of_getElem? ((h.compressor v Id).1 hId).1
    rw [h.fromInt, List.mem_append] at hmem
    exact hmem.elim hbefore hnot
  refine ⟨?_, h.compressor.insert (fun _ _ h => h) v, fun n => ?_, fun n hn => ?_, ?_,
    fun n hn m hm => ?_, ?_⟩
  · rcases Compressor.insert_cases v s.Order with ⟨Id, hId, -⟩ | ⟨-, heq⟩
    · rw [hnew] at hId
      cases hId
    · rw [heq, ← List.append_assoc, ← h.fromInt]
  · rw [h.seen, List.mem_append, List.mem_singleton, List.mem_cons, or_assoc]
  · rw [List.mem_append, List.mem_singleton, not_or]
    refine ⟨h.unfinished n (List.mem_cons_of_mem v hn), ?_⟩
    rintro rfl
    exact hv hn
  · rw [← List.concat_eq_append]
    exact h.nodup.concat hnot
  · rcases List.mem_append.1 hn with hn | hn
    · exact h.closed n hn m hm
    · rw [List.mem_singleton.1 hn] at hm
      exact hsuccs m hm
  · intro earlier u later heq hcycle m hum
    rcases List.eq_nil_or_concat later with rfl | ⟨later, w, rfl⟩
    · obtain ⟨rfl, hu⟩ := List.append_inj' heq rfl
      rw [List.singleton_inj] at hu
      subst hu
      exact h.mem_of_transGen hsuccs hgray hcycle hum
    · rw [List.concat_eq_append, ← List.cons_append, ← List.append_assoc] at heq
      exact h.ordered earlier u later (List.append_inj' heq rfl).1 hcycle m hum

/-- What a part of the search does: it numbers instructions with `P`, and sees them all. -/
structure Visits (G : CFG N F) (Before gray order : List N) (P : N → Prop) (s s' : State N) : Prop where
  inv : ∃ new, Inv G Before gray (order ++ new) s' ∧ ∀ n ∈ new, P n
  seen : s.Seen ⊆ s'.Seen

/-- The instructions of the function that have not been seen. -/
def unseen (G : CFG N F) (Fun : F) (s : State N) : Finset N := (G.getAllInstructionsOf Fun).toFinset \ s.Seen

theorem card_unseen_le {s' : State N} (h : s.Seen ⊆ s'.Seen) :
    (unseen G Fun s').card ≤ (unseen G Fun s).card :=
  Finset.card_le_card (Finset.sdiff_subset_sdiff (Finset.Subset.refl _) h)

/-- The visits of several instructions, one after the other. -/
theorem foldlM_visit {fuel : ℕ} {C P : N → Prop}
    (hvisit : ∀ {order s v}, Inv G Before gray order s → (unseen G Fun s).card < fuel → C v →
      ∃ s', visit G fuel v s = some s' ∧ v ∈ s'.Seen ∧ Visits G Before gray order P s s') :
    ∀ {vs : List N} {order : List N} {s : State N}, Inv G Before gray order s →
      (unseen G Fun s).card < fuel → (∀ v ∈ vs, C v) →
      ∃ s', vs.foldlM (fun s Succ => visit G fuel Succ s) s = some s' ∧ (∀ v ∈ vs, v ∈ s'.Seen) ∧
        Visits G Before gray order P s s' := by
  intro vs
  induction vs with
  | nil =>
    intro order s h _ _
    have hinv : Inv G Before gray (order ++ []) s := by rwa [List.append_nil]
    exact ⟨s, rfl, by simp, ⟨[], hinv, by simp⟩, Finset.Subset.refl _⟩
  | cons v vs ih =>
    intro order s h hfuel hvs
    obtain ⟨hv, hvs⟩ := List.forall_mem_cons.1 hvs
    obtain ⟨s₁, hs₁, hmem₁, ⟨new₁, hinv₁, hnew₁⟩, hseen₁⟩ := hvisit h hfuel hv
    obtain ⟨s₂, hs₂, hmem₂, ⟨new₂, hinv₂, hnew₂⟩, hseen₂⟩ :=
      ih hinv₁ ((card_unseen_le hseen₁).trans_lt hfuel) hvs
    rw [List.append_assoc] at hinv₂
    refine ⟨s₂, ?_, List.forall_mem_cons.2 ⟨hseen₂ hmem₁, hmem₂⟩,
      ⟨new₁ ++ new₂, hinv₂, fun n hn => ?_⟩, hseen₁.trans hseen₂⟩
    · rw [List.foldlM_cons, hs₁]
      exact hs₂
    · exact (List.mem_append.1 hn).elim (hnew₁ n) (hnew₂ n)

/-- With the fuel for what is unseen, a visit ends. -/
theorem visit_spec (hbefore : ∀ n ∈ G.getAllInstructionsOf Fun, n ∉ Before) (fuel : ℕ) :
    ∀ {gray order : List N} {s : State N} {v : N}, Inv G Before gray order s →
      (unseen G Fun s).card < fuel → v ∈ G.getAllInstructionsOf Fun →
      (∀ g ∈ gray, Relation.TransGen (Edge G) g v) →
      ∃ s', visit G fuel v s = some s' ∧ v ∈ s'.Seen ∧
        Visits G Before gray order (Relation.ReflTransGen (Edge G) v) s s' := by
  induction fuel with
  | zero => exact fun _ hfuel => absurd hfuel (Nat.not_lt_zero _)
  | succ fuel ih =>
    intro gray order s v h hfuel hv hgray
    rw [visit]
    split_ifs with hseen
    · have hinv : Inv G Before gray (order ++ []) s := by rwa [List.append_nil]
      exact ⟨s, rfl, hseen, ⟨[], hinv, by simp⟩, Finset.Subset.refl _⟩
    · have hfuel' : (unseen G Fun ⟨insert v s.Seen, s.Order⟩).card < fuel := by
        have hlt : (unseen G Fun ⟨insert v s.Seen, s.Order⟩).card < (unseen G Fun s).card := by
          refine Finset.card_lt_card ((Finset.ssubset_iff_of_subset ?_).2 ⟨v, ?_, ?_⟩)
          · exact Finset.sdiff_subset_sdiff (Finset.Subset.refl _) (Finset.subset_insert _ _)
          · exact Finset.mem_sdiff.2 ⟨List.mem_toFinset.2 hv, hseen⟩
          · exact fun hmem => (Finset.mem_sdiff.1 hmem).2 (Finset.mem_insert_self _ _)
        omega
      -- the visits of the successors, with `v` among the unfinished ones
      have hchild : ∀ {order s m}, Inv G Before (v :: gray) order s → (unseen G Fun s).card < fuel →
          Edge G v m → ∃ s', visit G fuel m s = some s' ∧ m ∈ s'.Seen ∧
            Visits G Before (v :: gray) order (Relation.ReflTransGen (Edge G) v) s s' := by
        intro order s m h hfuel hvm
        have hpath : ∀ g ∈ v :: gray, Relation.TransGen (Edge G) g m :=
          List.forall_mem_cons.2 ⟨.single hvm, fun g hg => (hgray g hg).tail hvm⟩
        obtain ⟨s', hs', hmem, ⟨new, hinv, hnew⟩, hseen⟩ := ih h hfuel (G.succ_mem Fun v hv m hvm) hpath
        exact ⟨s', hs', hmem, ⟨new, hinv, fun n hn => (hnew n hn).head hvm⟩, hseen⟩
      obtain ⟨s₁, hs₁, hmem₁, ⟨new, hinv, hnew⟩, hseen₁⟩ := foldlM_visit hchild (h.enter hseen) hfuel'
        fun m hm => mem_nexts.1 hm
      have hv' : v ∉ gray := fun hmem => hseen ((h.seen v).2 (Or.inr hmem))
      have hpush := hinv.push (hbefore v hv) hv' (fun m hm => hmem₁ m (mem_nexts.2 hm)) hgray
      rw [List.append_assoc] at hpush
      refine ⟨⟨s₁.Seen, (s₁.Order.insert v).2.2⟩, by rw [hs₁, Option.map_some], ?_,
        ⟨new ++ [v], hpush, fun n hn => ?_⟩, (Finset.subset_insert v s.Seen).trans hseen₁⟩
      · exact hseen₁ (Finset.mem_insert_self v s.Seen)
      · rcases List.mem_append.1 hn with hn | hn
        · exact hnew n hn
        · rw [List.mem_singleton.1 hn]

omit [DecidableEq N] in
theorem Inv.start (hInto : Into.Inv fun _ => False) : Inv G Into.FromInt [] [] ⟨∅, Into⟩ := by
  refine ⟨(List.append_nil _).symm, hInto, by simp, by simp, .nil, by simp, ?_⟩
  intro earlier u later heq
  simp at heq

/-- The order of a function is behind what was there: each instruction that is reachable from a start point,
once; and behind an instruction on no cycle comes nothing that is reachable from it. -/
structure PostOrder (G : CFG N F) (Fun : F) (Into Into' : Compressor N) : Prop where
  adds : ∃ added, Into'.FromInt = Into.FromInt ++ added ∧ added.Nodup ∧ ∀ n, n ∈ added ↔ Reachable G Fun n
  ids : Into'.Inv fun _ => False
  id_lt : ∀ u v i j, Reachable G Fun u → ¬Relation.TransGen (Edge G) u u → v ≠ u →
    Relation.ReflTransGen (Edge G) u v → Into'.getOrNull u = some i → Into'.getOrNull v = some j → j < i
  instructions : ∀ u v, Reachable G Fun u → ¬Relation.TransGen (Edge G) u u → v ≠ u →
    Relation.ReflTransGen (Edge G) u v → [u, v].Sublist (instructions Into')

omit [DecidableEq N] in
/-- What stands before an instruction has a smaller id. -/
theorem id_lt_of_split {front later : List N} (hinv : Into.Inv fun _ => False)
    (hsplit : Into.FromInt = front ++ u :: later) (hv : v ∈ front) {i j : ℕ} (hi : Into.getOrNull u = some i)
    (hj : Into.getOrNull v = some j) : j < i := by
  obtain ⟨k, hk⟩ := List.mem_iff_getElem?.1 hv
  have hlt : k < front.length := (List.getElem?_eq_some_iff.1 hk).1
  have hgetu : Into.get front.length = some u := by
    rw [Compressor.get, hsplit, List.getElem?_append_right (le_refl _), Nat.sub_self, List.getElem?_cons_zero]
  have hgetv : Into.get k = some v := by
    rw [Compressor.get, hsplit, List.getElem?_append_left hlt, hk]
  have hidu := (hinv u _).2 ⟨hgetu, not_false⟩
  have hidv := (hinv v _).2 ⟨hgetv, not_false⟩
  rw [hi, Option.some_inj] at hidu
  rw [hj, Option.some_inj] at hidv
  omega

omit [DecidableEq N] in
/-- Backwards, an instruction comes before what stands before it. -/
theorem sublist_of_split {front later : List N} (hsplit : Into.FromInt = front ++ u :: later) (hv : v ∈ front) :
    [u, v].Sublist (instructions Into) := by
  rw [instructions, hsplit, List.reverse_append, List.reverse_cons, List.append_assoc, List.singleton_append]
  refine (List.Sublist.cons_cons u ?_).trans (List.sublist_append_right _ _)
  exact List.singleton_sublist.2 (List.mem_reverse.2 hv)

omit [DecidableEq N] in
/-- The instructions that are reachable stay in the function. -/
theorem Reachable.mem_getAllInstructionsOf (h : Reachable G Fun n) : n ∈ G.getAllInstructionsOf Fun := by
  obtain ⟨SP, hSP, hpath⟩ := h
  induction hpath with
  | refl => exact G.startPoint_mem Fun SP hSP
  | tail _ hedge ih => exact G.succ_mem Fun _ ih _ hedge

omit [DecidableEq N] in
/-- When nothing is being visited, everything that is reachable from what was seen is numbered. -/
theorem Inv.mem_of_reachable (h : Inv G Before [] order s) (hstart : ∀ SP ∈ G.getStartPointsOf Fun, SP ∈ s.Seen)
    (hn : Reachable G Fun n) : n ∈ order := by
  have hseen : ∀ {n}, n ∈ s.Seen → n ∈ order := fun hn => ((h.seen _).1 hn).resolve_right List.not_mem_nil
  obtain ⟨SP, hSP, hpath⟩ := hn
  induction hpath with
  | refl => exact hseen (hstart SP hSP)
  | tail _ hedge ih => exact hseen (h.closed _ ih _ hedge)

omit [DecidableEq N] in
/-- A finished search is a post-order. -/
theorem Inv.postOrder_of (h : Inv G Into.FromInt [] order s) (hnew : ∀ n ∈ order, Reachable G Fun n)
    (hstart : ∀ SP ∈ G.getStartPointsOf Fun, SP ∈ s.Seen) : PostOrder G Fun Into s.Order := by
  have hsplit : ∀ u v, Reachable G Fun u → ¬Relation.TransGen (Edge G) u u → v ≠ u →
      Relation.ReflTransGen (Edge G) u v →
      ∃ front later, s.Order.FromInt = front ++ u :: later ∧ v ∈ front := by
    intro u v hu hcycle hne hpath
    obtain ⟨earlier, later, heq⟩ := List.append_of_mem (h.mem_of_reachable hstart hu)
    have htrans := (Relation.reflTransGen_iff_eq_or_transGen.1 hpath).resolve_left hne
    refine ⟨Into.FromInt ++ earlier, later, ?_, List.mem_append_right _ ?_⟩
    · rw [h.fromInt, heq, List.append_assoc]
    · exact h.ordered earlier u later heq hcycle v htrans
  refine ⟨⟨order, h.fromInt, h.nodup, fun n => ⟨hnew n, h.mem_of_reachable hstart⟩⟩, h.compressor, ?_, ?_⟩
  · intro u v i j hu hcycle hne hpath hi hj
    obtain ⟨front, later, heq, hv⟩ := hsplit u v hu hcycle hne hpath
    exact id_lt_of_split h.compressor heq hv hi hj
  · intro u v hu hcycle hne hpath
    obtain ⟨front, later, heq, hv⟩ := hsplit u v hu hcycle hne hpath
    exact sublist_of_split heq hv

/-- `computeCFGOrder` ends with a post-order, also if the orders of other functions are there. -/
theorem postOrder (hInto : Into.Inv fun _ => False)
    (hother : ∀ n ∈ G.getAllInstructionsOf Fun, Into.getOrNull n = none) :
    ∃ Into', computeCFGOrder G Into Fun = some Into' ∧ PostOrder G Fun Into Into' := by
  have hbefore : ∀ n ∈ G.getAllInstructionsOf Fun, n ∉ Into.FromInt := by
    intro n hn hmem
    obtain ⟨Id, hId⟩ := List.mem_iff_getElem?.1 hmem
    have hfound := (hInto n Id).2 ⟨hId, not_false⟩
    rw [hother n hn] at hfound
    cases hfound
  -- the visit of one start point
  have hvisit : ∀ {order s SP}, Inv G Into.FromInt [] order s →
      (unseen G Fun s).card < (G.getAllInstructionsOf Fun).length + 1 → SP ∈ G.getStartPointsOf Fun →
      ∃ s', visit G ((G.getAllInstructionsOf Fun).length + 1) SP s = some s' ∧ SP ∈ s'.Seen ∧
        Visits G Into.FromInt [] order (Reachable G Fun) s s' := by
    intro order s SP h hfuel hSP
    obtain ⟨s', hs', hmem, ⟨new, hinv, hnew⟩, hseen⟩ :=
      visit_spec hbefore _ h hfuel (G.startPoint_mem Fun SP hSP) (by simp)
    exact ⟨s', hs', hmem, ⟨new, hinv, fun n hn => ⟨SP, hSP, hnew n hn⟩⟩, hseen⟩
  have hfuel : (unseen G Fun ⟨∅, Into⟩).card < (G.getAllInstructionsOf Fun).length + 1 :=
    Nat.lt_succ_of_le ((Finset.card_le_card Finset.sdiff_subset).trans (List.toFinset_card_le _))
  obtain ⟨s, hs, hstart, ⟨order, hinv, hnew⟩, -⟩ := foldlM_visit hvisit (Inv.start hInto) hfuel fun _ h => h
  rw [List.nil_append] at hinv
  exact ⟨s.Order, by rw [computeCFGOrder, hs, Option.map_some], hinv.postOrder_of hnew hstart⟩

/-- A branch that joins again, and a loop behind it. -/
def branch : CFG ℕ Unit where
  getAllInstructionsOf _ := [0, 1, 2, 3]
  getSuccsOf n := if n = 0 then [1, 2] else if n ≤ 3 then [3] else []
  getStartPointsOf _ := [0]
  getUniqueSuccessor := some fun n => if n = 1 then some 3 else none
  startPoint_mem _ n hn := by simp_all
  succ_mem _ n hn m hm := by
    split_ifs at hm <;> simp_all
    omega
  uniqueSuccessor get hget n m hm w := by
    cases hget
    obtain ⟨rfl, hm⟩ := Option.ite_none_right_eq_some.1 hm
    cases hm
    simp

/-- The order of a function with the only instruction 9. -/
def other : Compressor ℕ := ⟨Function.update (fun _ => none) 9 (some 0), [9]⟩

theorem postOrder_branch : (∃ Into', computeCFGOrder branch other () = some Into' ∧
    PostOrder branch () other Into') ∧
      (computeCFGOrder branch other ()).map instructions = some [0, 2, 1, 3, 9] := by
  refine ⟨postOrder ?_ (by decide), by decide⟩
  have hempty : Compressor.Inv (fun _ => False) (⟨fun _ => none, []⟩ : Compressor ℕ) := by
    intro Elem Id
    simp [Compressor.getOrNull, Compressor.get]
  exact hempty.insert (fun _ _ h => h) 9

end ControlFlowOrder

end Phasar
