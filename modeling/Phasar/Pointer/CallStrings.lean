import Phasar.Pointer.CallingContext

/-!
# The contexts that an enumeration visits, and the limited call strings

`visitAllCallingContexts` should visit the `K`-limited call strings of a function, padded with null.

* `IsCallString`: the limited call strings of a function, without regard to any order;
* `Precedes`: the order in which the enumeration comes to two call strings;
* `visitAllCallingContexts_mem_iff`: the contexts visited are those of the call strings precisely if
  no string is visited after a longer one.
-/

namespace Phasar

open CallString CallingContext

variable {N F : Type*} {K : ℕ} {G : CallGraph N F} {fn : F}

/-! ### Limited call strings -/

/-- The function that a chain of calls comes from; the most recent call is the first one. -/
def startFun (G : CallGraph N F) : F → List N → F
  | fn, [] => fn
  | _, cs :: p => startFun G (G.getFunctionOf cs) p

variable (K G fn) in
/-- A call string of `fn`: each call calls the function of the call before it, and the string has
`K` calls or ends at a function without callers. -/
structure IsCallString (p : List N) : Prop where
  length_le : p.length ≤ K
  calls : ∀ q cs r, p = q ++ cs :: r → cs ∈ G.getCallersOf (startFun G fn q)
  complete : p.length = K ∨ G.getCallersOf (startFun G fn p) = []

theorem isCallString_cons {cs : N} {p : List N} : IsCallString (K + 1) G fn (cs :: p) ↔
    cs ∈ G.getCallersOf fn ∧ IsCallString K G (G.getFunctionOf cs) p := by
  constructor
  · intro h
    refine ⟨h.calls [] cs p rfl, Nat.le_of_succ_le_succ h.length_le, fun q cs' r hp => ?_, ?_⟩
    · exact h.calls (cs :: q) cs' r (by rw [hp, List.cons_append])
    · exact h.complete.imp_left Nat.succ.inj
  · rintro ⟨hcs, h⟩
    refine ⟨Nat.succ_le_succ h.length_le, fun q cs' r hp => ?_, ?_⟩
    · cases q with
      | nil =>
        obtain ⟨rfl, rfl⟩ := List.cons.inj hp
        exact hcs
      | cons cs'' q =>
        obtain ⟨rfl, htail⟩ := List.cons.inj hp
        exact h.calls q cs' r htail
    · exact h.complete.imp_left (congrArg Nat.succ)

theorem isCallString_nil : IsCallString K G fn [] ↔ K = 0 ∨ G.getCallersOf fn = [] := by
  constructor
  · exact fun h => h.complete.imp_left Eq.symm
  · intro h
    refine ⟨Nat.zero_le _, fun q cs r hp => ?_, h.imp_left Eq.symm⟩
    exact absurd hp.symm (List.append_ne_nil_of_right_ne_nil q (List.cons_ne_nil cs r))

/-- The enumeration follows the call strings. -/
theorem mem_callChains_iff {p : List N} : p ∈ callChains G K fn ↔ IsCallString K G fn p := by
  induction K generalizing fn p with
  | zero =>
    rw [callChains, List.mem_singleton]
    constructor
    · rintro rfl
      exact isCallString_nil.2 (Or.inl rfl)
    · exact fun h => List.length_eq_zero_iff.1 (Nat.le_zero.1 h.length_le)
  | succ K ih =>
    by_cases hempty : (G.getCallersOf fn).isEmpty = true
    · have hnil : G.getCallersOf fn = [] := List.isEmpty_iff.1 hempty
      rw [callChains_of_isEmpty hempty, List.mem_singleton]
      constructor
      · rintro rfl
        exact isCallString_nil.2 (Or.inr hnil)
      · intro h
        cases p with
        | nil => rfl
        | cons cs p =>
          have hcs := (isCallString_cons.1 h).1
          rw [hnil] at hcs
          cases hcs
    · rw [mem_callChains_succ hempty]
      constructor
      · rintro ⟨cs, hcs, p', hp', rfl⟩
        exact isCallString_cons.2 ⟨hcs, ih.1 hp'⟩
      · intro h
        cases p with
        | nil =>
          rcases isCallString_nil.1 h with h0 | hnil
          · cases h0
          · exact absurd (List.isEmpty_iff.2 hnil) hempty
        | cons cs p =>
          obtain ⟨hcs, hp⟩ := isCallString_cons.1 h
          exact ⟨cs, hcs, p, ih.2 hp, rfl⟩

/-! ### The order of the enumeration -/

variable (G) in
/-- Where two chains part, the call of the first one is listed before the call of the second one. -/
inductive Precedes : F → List N → List N → Prop
  | here {fn : F} {cs cs' : N} (p q : List N) (h : [cs, cs'].Sublist (G.getCallersOf fn)) :
      Precedes fn (cs :: p) (cs' :: q)
  | later {fn : F} {cs : N} {p q : List N} (h : Precedes (G.getFunctionOf cs) p q) :
      Precedes fn (cs :: p) (cs :: q)

/-- The chains are enumerated in the order `Precedes`. -/
theorem pairwise_callChains_iff {R : List N → List N → Prop} :
    (callChains G K fn).Pairwise R ↔ ∀ p q, IsCallString K G fn p → IsCallString K G fn q →
      Precedes G fn p q → R p q := by
  induction K generalizing fn R with
  | zero =>
    rw [callChains]
    refine iff_of_true (List.pairwise_singleton R []) fun p q hp _ hpq => ?_
    obtain rfl := List.length_eq_zero_iff.1 (Nat.le_zero.1 hp.length_le)
    cases hpq
  | succ K ih =>
    by_cases hempty : (G.getCallersOf fn).isEmpty = true
    · rw [callChains_of_isEmpty hempty]
      refine iff_of_true (List.pairwise_singleton R []) fun p q hp _ hpq => ?_
      have hp' := mem_callChains_iff.2 hp
      rw [callChains_of_isEmpty hempty, List.mem_singleton] at hp'
      subst hp'
      cases hpq
    · rw [callChains, if_neg hempty, List.pairwise_flatMap]
      simp only [List.pairwise_map, ih, List.forall_mem_map, mem_callChains_iff]
      rw [List.pairwise_iff_forall_sublist]
      constructor
      · rintro ⟨hlater, hhere⟩ p q hp hq hpq
        cases hpq with
        | here p q hsub =>
          exact hhere hsub p (isCallString_cons.1 hp).2 q (isCallString_cons.1 hq).2
        | later hpq =>
          obtain ⟨hcs, hp⟩ := isCallString_cons.1 hp
          exact hlater _ hcs _ _ hp (isCallString_cons.1 hq).2 hpq
      · refine fun h => ⟨fun cs hcs p q hp hq hpq => ?_, fun {cs cs'} hsub p hp q hq => ?_⟩
        · exact h _ _ (isCallString_cons.2 ⟨hcs, hp⟩) (isCallString_cons.2 ⟨hcs, hq⟩)
            (Precedes.later hpq)
        · have hcs : cs ∈ G.getCallersOf fn := hsub.subset (by simp)
          have hcs' : cs' ∈ G.getCallersOf fn := hsub.subset (by simp)
          exact h _ _ (isCallString_cons.2 ⟨hcs, hp⟩) (isCallString_cons.2 ⟨hcs', hq⟩)
            (Precedes.here p q hsub)

/-! ### The visited contexts -/

theorem pairwise_iff_forall_split {α : Type*} {R : α → α → Prop} {l : List α} :
    l.Pairwise R ↔ ∀ before p after, l = before ++ p :: after → ∀ q ∈ before, R q p := by
  constructor
  · rintro h before p after rfl q hq
    exact (List.pairwise_append.1 h).2.2 q hq p List.mem_cons_self
  · intro h
    refine List.pairwise_iff_forall_sublist.2 fun {q p} hsub => ?_
    obtain ⟨before, rest, hl, hq, hp⟩ := List.cons_sublist_iff.1 hsub
    obtain ⟨mid, after, rfl⟩ := List.append_of_mem (List.singleton_sublist.1 hp)
    exact h (before ++ mid) p after (by simp [hl]) q (by simp [hq])

/-- The visited contexts are those of the call strings precisely if the enumeration comes to no call
string after a longer one. -/
theorem visitAllCallingContexts_mem_iff (K : ℕ) (G : CallGraph N F) (fn : F) :
    (∀ ctx, ctx ∈ visitAllCallingContexts K G fn ↔
      ∃ p, IsCallString K G fn p ∧ ctx = trunc K (ofChain p)) ↔
    ∀ p q, IsCallString K G fn p → IsCallString K G fn q → Precedes G fn p q →
      p.length ≤ q.length := by
  rw [← pairwise_callChains_iff, pairwise_iff_forall_split]
  constructor
  · intro h before p after heq q hq
    have hmem := mem_visit_iff_exists.2 ⟨before, p, after, heq, rfl⟩
    obtain ⟨p', hp', hctx⟩ := (h _).1 hmem
    exact (eq_of_overlay_stale heq (mem_callChains_iff.2 hp') hctx).2 q hq
  · intro h ctx
    rw [mem_visit_iff_exists]
    constructor
    · rintro ⟨before, p, after, heq, rfl⟩
      have hp : p ∈ callChains G K fn := heq ▸ by simp
      exact ⟨p, mem_callChains_iff.1 hp, overlay_stale_eq (h before p after heq)⟩
    · rintro ⟨p, hp, rfl⟩
      obtain ⟨before, after, heq⟩ := List.append_of_mem (mem_callChains_iff.2 hp)
      exact ⟨before, p, after, heq, (overlay_stale_eq (h before p after heq)).symm⟩

/-- Function 1 calls itself and is called by function 0. -/
def selfRecursive : CallGraph ℕ ℕ where
  getCallersOf fn := if fn = 1 then [0, 1] else []
  getFunctionOf cs := if cs = 0 then 1 else 0

/-- The call from function 0 is visited only with a second call, left from the string before it. -/
theorem stale_call_selfRecursive : ¬∀ ctx, ctx ∈ visitAllCallingContexts 2 selfRecursive 1 ↔
    ∃ p, IsCallString 2 selfRecursive 1 p ∧ ctx = trunc 2 (ofChain p) := by
  intro h
  have hstring : IsCallString 2 selfRecursive 1 [1] := mem_callChains_iff.1 (by decide)
  have hvisited := (h _).2 ⟨[1], hstring, rfl⟩
  exact absurd hvisited (by decide)

end Phasar
