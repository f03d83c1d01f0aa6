import Phasar.IfdsIde.MeetOverPaths
import Phasar.IfdsIde.ValueComputation
import Phasar.Lib.ChangePropagation

/-!
# Phase II solves the value equations

The values at start nodes and call sites satisfy constraints along jump functions and call edges.
`computeValues` computes their least solution, where a node contributes to others only if it is
seeded or its value is not top: a node whose value never changed from top is never propagated.

* `ValueEdge`, `Solution`: the constraints;
* `ValueInv`: a node is on the work list, or its constraints hold, and all values are below every
  solution;
* `computeValues_least`: termination and the final values, for every order of the work list.
-/

namespace Phasar

variable {N F D E L : Type*}

/-- The value lattice: `join` is a semilattice operation with `topElement` neutral. -/
structure LawfulValues (P : IDETabulationProblem N F D E L) : Prop where
  join_assoc : ∀ a b c, P.join (P.join a b) c = P.join a (P.join b c)
  join_comm : ∀ a b, P.join a b = P.join b a
  join_idem : ∀ a, P.join a a = a
  top_join : ∀ a, P.join P.topElement a = a

/-- The join semilattice of lawful values; values grow from top as they are joined. -/
@[reducible] def LawfulValues.semilattice {P : IDETabulationProblem N F D E L}
    (h : LawfulValues P) : SemilatticeSup L :=
  letI : Max L := ⟨P.join⟩
  SemilatticeSup.mk' h.join_comm h.join_assoc h.join_idem

/-- A value above one that is not top is not top. -/
theorem LawfulValues.ne_top_of_le {P : IDETabulationProblem N F D E L} (law : LawfulValues P)
    {a b : L} (ha : a ≠ P.topElement) (h : P.join a b = b) : b ≠ P.topElement := by
  rintro rfl
  exact ha (by rw [← law.top_join a, law.join_comm, h])

/-- An edge function that distributes over the join of values. -/
def DistributesOverJoin (P : IDETabulationProblem N F D E L) (e : E) : Prop :=
  ∀ a b, P.computeTarget e (P.join a b) = P.join (P.computeTarget e a) (P.computeTarget e b)

/-- `l` is the join of the values in `A`; of no values, top. -/
def IsJoinOf (P : IDETabulationProblem N F D E L) (A : Set L) (l : L) : Prop :=
  (∀ a ∈ A, P.join a l = l) ∧ ∀ u, (∀ a ∈ A, P.join a u = u) → P.join l u = u

namespace ValueState

variable [DecidableEq N] [DecidableEq D]
variable (P : IDETabulationProblem N F D E L) (G : ICFG N F) (R : PhaseOneResult N D E)

/-! ### The equations -/

/-- The constraints between start nodes and call sites. -/
inductive ValueEdge : N × D → N × D → E → Prop
  | toCall {sp c d d' f} : G.isStartPoint sp = true → G.isCallSite c = true →
      G.getFunctionOf c = G.getFunctionOf sp → R.jumpFn.stored ⟨d, c, d'⟩ = some f →
      ValueEdge (sp, d) (c, d') f
  | toStart {c g sp d₂ d₃} : G.isCallSite c = true → g ∈ G.getCalleesOfCallAt c →
      sp ∈ G.getStartPointsOf g → d₃ ∈ P.cachedFlows.getCallFlowFunction c g d₂ →
      ValueEdge (c, d₂) (sp, d₃) (P.getCallEdgeFunction c d₂ g d₃)

/-- `l` is the value of a seed at `k`. -/
def SeedValue (k : N × D) (l : L) : Prop :=
  ∃ facts, (k.1, facts) ∈ (allSeeds P R).entries ∧ (k.2, l) ∈ facts.entries

/-- The nodes the solver propagates: the seeded ones and those whose value is not top. -/
def Propagated (u : N × D → L) (k : N × D) : Prop :=
  (∃ l, SeedValue P R k l) ∨ u k ≠ P.topElement

/-- Values that satisfy the constraints of the seeds and of the nodes with `active`. -/
structure Solution (active : (N × D → L) → N × D → Prop) (u : N × D → L) : Prop where
  seed : ∀ k l, SeedValue P R k l → P.join l (u k) = u k
  edge : ∀ k k' e, ValueEdge P G R k k' e → active u k →
    P.join (P.computeTarget e (u k)) (u k') = u k'

/-- The values of all facts at all nodes. -/
def vals (V : ValueState N D L) (k : N × D) : L := V.val P k.1 k.2

/-! ### A task as one loop -/

variable [DecidableEq L]

/-- Propagate the value of `src` along a list of edge functions. -/
def raiseAll (src : N × D) (targets : List ((N × D) × E)) (V : ValueState N D L) :
    ValueState N D L :=
  targets.foldl (fun V t =>
    V.propagateValue P t.1.1 t.1.2 (P.computeTarget t.2 (V.val P src.1 src.2))) V

/-- The targets of the task of a node. -/
def taskTargets (k : N × D) : List ((N × D) × E) :=
  (if G.isStartPoint k.1 || containsInitialSeedsFor P k.1 || k.1 ∈ R.unbalancedRetSites then
    (G.getCallsFromWithin (G.getFunctionOf k.1)).flatMap fun callSite =>
      (R.jumpFn.forwardLookup k.2 callSite).entries.map fun e => ((callSite, e.1), e.2)
  else []) ++
  if G.isCallSite k.1 then
    (G.getCalleesOfCallAt k.1).flatMap fun callee =>
      (P.cachedFlows.getCallFlowFunction k.1 callee k.2).flatMap fun dPrime =>
        (G.getStartPointsOf callee).map fun sp =>
          ((sp, dPrime), P.getCallEdgeFunction k.1 k.2 callee dPrime)
  else []

variable {P G R}

theorem valuePropagationTask_eq (V : ValueState N D L) (k : N × D) :
    V.valuePropagationTask P G R k = V.raiseAll P k (taskTargets P G R k) := by
  simp only [valuePropagationTask, raiseAll, taskTargets, List.foldl_append]
  split_ifs <;> simp [propagateValueAtStart, propagateValueAtCall, List.foldl_flatMap,
    List.foldl_map]

omit [DecidableEq L] in
/-- The targets of a task are the constraints of its node. -/
theorem mem_taskTargets (hsync : R.jumpFn.Synced P.isAllTop)
    (hseeds : ∀ n, (n ∈ P.seeds.keys ∨ n ∈ R.unbalancedRetSites) → G.isStartPoint n = true)
    {k k' : N × D} {e : E} : (k', e) ∈ taskTargets P G R k ↔ ValueEdge P G R k k' e := by
  obtain ⟨n, d⟩ := k
  obtain ⟨n', d'⟩ := k'
  have hstart : (G.isStartPoint n || containsInitialSeedsFor P n || n ∈ R.unbalancedRetSites) =
      true ↔ G.isStartPoint n = true := by
    simp only [Bool.or_eq_true, decide_eq_true_eq]
    constructor
    · rintro ((h | h) | h)
      · exact h
      · refine hseeds n (Or.inl ((VecMap.mem_keys_iff _ _).2 ?_))
        exact Option.isSome_iff_ne_none.1 h
      · exact hseeds n (Or.inr h)
    · exact fun h => Or.inl (Or.inl h)
  have hfwd : ∀ c, (d', e) ∈ (R.jumpFn.forwardLookup d c).entries ↔
      R.jumpFn.stored ⟨d, c, d'⟩ = some e := by
    intro c
    rw [VecMap.mem_entries_iff, hsync.forward ⟨d, c, d'⟩]
  simp only [taskTargets, List.mem_append, hstart]
  constructor
  · rintro (h | h)
    · split_ifs at h with hs
      · simp only [List.mem_flatMap, List.mem_map, Prod.exists, Prod.mk.injEq] at h
        obtain ⟨c, hc, d₁, e₁, hm, ⟨rfl, rfl⟩, rfl⟩ := h
        obtain ⟨hcall, hfun⟩ := (G.mem_getCallsFromWithin _ _).1 hc
        exact .toCall hs hcall hfun ((hfwd _).1 hm)
      · simp at h
    · split_ifs at h with hc
      · simp only [List.mem_flatMap, List.mem_map, Prod.mk.injEq] at h
        obtain ⟨g, hg, d₃, hd₃, sp, hsp, ⟨rfl, rfl⟩, rfl⟩ := h
        exact .toStart hc hg hsp hd₃
      · simp at h
  · rintro (⟨hs, hc, hfun, hst⟩ | ⟨hc, hg, hsp, hd₃⟩)
    · refine Or.inl ?_
      rw [if_pos hs]
      simp only [List.mem_flatMap, List.mem_map, Prod.exists, Prod.mk.injEq]
      exact ⟨n', (G.mem_getCallsFromWithin _ _).2 ⟨hc, hfun⟩, d', e, (hfwd _).2 hst, ⟨rfl, rfl⟩, rfl⟩
    · refine Or.inr ?_
      rw [if_pos hc]
      simp only [List.mem_flatMap, List.mem_map, Prod.mk.injEq]
      exact ⟨_, hg, d', hd₃, n', hsp, ⟨rfl, rfl⟩, rfl⟩

omit [DecidableEq L] in
/-- Every seed is at a seed node or at an unbalanced return site. -/
theorem isStartPoint_of_mem_allSeeds
    (hseeds : ∀ n, (n ∈ P.seeds.keys ∨ n ∈ R.unbalancedRetSites) → G.isStartPoint n = true)
    {n : N} {facts : VecMap D L} (h : (n, facts) ∈ (allSeeds P R).entries) :
    G.isStartPoint n = true := by
  have key : ∀ (l : List N) (all : VecMap N (VecMap D L)), (∀ n ∈ l, n ∈ R.unbalancedRetSites) →
      (∀ n, all.get? n ≠ none → G.isStartPoint n = true) →
      ∀ n, (l.foldl (addUnbalancedSeed P) all).get? n ≠ none → G.isStartPoint n = true := by
    intro l
    induction l with
    | nil => exact fun _ _ h => h
    | cons m t ih =>
      intro all hl hall
      refine ih _ (fun n hn => hl n (List.mem_cons_of_mem m hn)) fun n hn => ?_
      unfold addUnbalancedSeed at hn
      cases hm : all.get? m with
      | some v =>
        simp only [hm] at hn
        exact hall n hn
      | none =>
        simp only [hm, VecMap.get?_set] at hn
        split_ifs at hn with hmn
        · exact hmn ▸ hseeds m (Or.inr (hl m List.mem_cons_self))
        · exact hall n hn
  refine key R.unbalancedRetSites P.seeds (fun _ h => h)
    (fun n hn => hseeds n (Or.inl ((VecMap.mem_keys_iff _ _).2 hn))) n ?_
  rw [show (R.unbalancedRetSites.foldl (addUnbalancedSeed P) P.seeds).get? n = some facts from
    (VecMap.mem_entries_iff _ _ _).1 h]
  simp

/-! ### What a task does -/

section Lawful

open ChangePropagation

variable (law : LawfulValues P)

omit [DecidableEq L] in
@[simp] theorem vals_setVal (V : ValueState N D L) (k k' : N × D) (l : L) :
    vals P (V.setVal k.1 k.2 l) k' = if k' = k then l else vals P V k' := by
  obtain ⟨n, d⟩ := k
  obtain ⟨n', d'⟩ := k'
  simp only [vals, val, setVal, Table.modify, Prod.mk.injEq]
  split_ifs <;> rfl

theorem vals_propagateValue (V : ValueState N D L) (k k' : N × D) (l : L) :
    vals P (V.propagateValue P k.1 k.2 l) k' =
      if k' = k then P.join (vals P V k) l else vals P V k' := by
  unfold propagateValue
  by_cases h : P.join (V.val P k.1 k.2) l = V.val P k.1 k.2
  · simp only [if_pos h]
    split_ifs with hk
    · subst hk
      exact h.symm
    · rfl
  · simp only [if_neg h]
    exact vals_setVal V k k' _

include law in
theorem propagateValue_grows (V : ValueState N D L) (k : N × D) (l : L) :
    let _ := law.semilattice
    Grows (vals P V) V.valuePropWL (vals P (V.propagateValue P k.1 k.2 l))
      (V.propagateValue P k.1 k.2 l).valuePropWL := by
  intro _
  by_cases h : P.join (V.val P k.1 k.2) l = V.val P k.1 k.2
  · have heq : V.propagateValue P k.1 k.2 l = V := by simp [propagateValue, h]
    rw [heq]
    exact .refl _ _
  · have hwl : (V.propagateValue P k.1 k.2 l).valuePropWL = V.valuePropWL ++ [k] := by
      simp [propagateValue, h]
    rw [hwl]
    have hne : vals P (V.propagateValue P k.1 k.2 l) k ≠ vals P V k := by
      rw [vals_propagateValue, if_pos rfl]
      exact h
    refine ⟨fun k' => ?_, fun k' hk' => by simp [hk'], fun k' hk' => ?_, fun k' hk' => ?_,
      fun heq => absurd (congrFun heq k) hne⟩
    · rw [vals_propagateValue]
      split_ifs with hk
      · rw [hk]
        exact le_sup_left (a := vals P V k)
      · exact le_rfl
    · rw [vals_propagateValue] at hk'
      split_ifs at hk' with hk
      · simp [hk]
      · exact absurd rfl hk'
    · rcases List.mem_append.1 hk' with hk' | hk'
      · exact Or.inl hk'
      · rw [List.mem_singleton.1 hk']
        exact Or.inr hne

include law in
/-- Raising targets grows the state, covers every contribution of the source, stays below a bound
that the contributions keep, and touches only the targets. -/
theorem raiseAll_spec (src : N × D) (targets : List ((N × D) × E))
    (hd : ∀ t ∈ targets, DistributesOverJoin P t.2) (V : ValueState N D L) :
    let _ := law.semilattice
    Grows (vals P V) V.valuePropWL (vals P (V.raiseAll P src targets))
      (V.raiseAll P src targets).valuePropWL ∧
    (∀ t ∈ targets, ∀ x ≤ vals P V src,
      P.computeTarget t.2 x ≤ vals P (V.raiseAll P src targets) t.1) ∧
    (∀ u : N × D → L, (∀ k, vals P V k ≤ u k) →
      (∀ t ∈ targets, P.computeTarget t.2 (u src) ≤ u t.1) →
      ∀ k, vals P (V.raiseAll P src targets) k ≤ u k) ∧
    ∀ k, (∀ t ∈ targets, t.1 ≠ k) → vals P (V.raiseAll P src targets) k = vals P V k := by
  intro _
  induction targets generalizing V with
  | nil => exact ⟨.refl _ _, by simp, fun _ h _ => h, fun _ _ => rfl⟩
  | cons t ts ih =>
    set V₁ := V.propagateValue P t.1.1 t.1.2 (P.computeTarget t.2 (V.val P src.1 src.2)) with hV₁
    have hmono : ∀ s ∈ t :: ts, ∀ {a b : L}, a ≤ b → P.computeTarget s.2 a ≤ P.computeTarget s.2 b :=
      fun s hs _ _ => Deduction.monotone_of_distrib (hd s hs)
    have hg : Grows (vals P V) V.valuePropWL (vals P V₁) V₁.valuePropWL :=
      propagateValue_grows law V t.1 _
    obtain ⟨ihg, ihc, ihb, iht⟩ := ih (fun s hs => hd s (List.mem_cons_of_mem t hs)) V₁
    have hfold : V.raiseAll P src (t :: ts) = V₁.raiseAll P src ts := rfl
    rw [hfold]
    refine ⟨hg.trans ihg, ?_, ?_, ?_⟩
    · intro s hs x hx
      rcases List.mem_cons.1 hs with rfl | hs'
      · refine le_trans ?_ (ihg.le s.1)
        rw [vals_propagateValue, if_pos rfl]
        exact (hmono s hs hx).trans (le_sup_right (a := vals P V s.1))
      · exact ihc s hs' x (hx.trans (hg.le src))
    · intro u hu hts
      refine ihb u (fun k => ?_) (fun s hs => hts s (List.mem_cons_of_mem t hs))
      rw [vals_propagateValue]
      split_ifs with hk
      · rw [hk]
        refine sup_le (hu t.1) ?_
        exact (hmono t List.mem_cons_self (hu src)).trans (hts t List.mem_cons_self)
      · exact hu k
    · intro k hk
      rw [iht k fun s hs => hk s (List.mem_cons_of_mem t hs), vals_propagateValue,
        if_neg (hk t List.mem_cons_self).symm]

/-! ### The invariant -/

/-- The constraints as functions on values. -/
def valueConstraint (P : IDETabulationProblem N F D E L) (G : ICFG N F) (R : PhaseOneResult N D E)
    (k k' : N × D) (f : L → L) : Prop :=
  ∃ e, ValueEdge P G R k k' e ∧ f = P.computeTarget e

include law in
/-- What holds between two tasks once the seeds with `submitted` are written; the node with `skip`
is still to be processed. -/
structure ValueInv (submitted : N × D → L → Prop) (skip : N × D → Prop) (V : ValueState N D L) :
    Prop where
  served : let _ := law.semilattice
    ∀ k, ¬ skip k → ((∃ l, submitted k l) ∨ vals P V k ≠ P.topElement) →
      Served (valueConstraint P G R) (vals P V) V.valuePropWL k
  pending : ∀ k ∈ V.valuePropWL, vals P V k ≠ P.topElement
  seeded : ∀ k l, submitted k l → P.join l (vals P V k) = vals P V k
  below : ∀ u, Solution P G R (Propagated P R) u → ∀ k, P.join (vals P V k) (u k) = u k
  others : ∀ n d, G.isCallSite n = false → G.isStartPoint n = false →
    V.val P n d = P.topElement

variable (hsync : R.jumpFn.Synced P.isAllTop)
  (hseeds : ∀ n, (n ∈ P.seeds.keys ∨ n ∈ R.unbalancedRetSites) → G.isStartPoint n = true)
  (hjf : ∀ k e, R.jumpFn.stored k = some e → DistributesOverJoin P e)
  (hcall : ∀ c d₂ g d₃, DistributesOverJoin P (P.getCallEdgeFunction c d₂ g d₃))

omit [DecidableEq N] [DecidableEq L] in
include hjf hcall in
theorem ValueEdge.distributes {k k' : N × D} {e : E} (h : ValueEdge P G R k k' e) :
    DistributesOverJoin P e := by
  cases h with
  | toCall _ _ _ hst => exact hjf _ _ hst
  | toStart _ _ _ _ => exact hcall _ _ _ _

include hsync hseeds hjf hcall in
/-- **A task serves its node and keeps the invariant.** -/
theorem ValueInv.task {submitted : N × D → L → Prop} {V : ValueState N D L} {k : N × D}
    (h : ValueInv (G := G) (R := R) law submitted (· = k) V)
    (hk : (∃ l, SeedValue P R k l) ∨ vals P V k ≠ P.topElement) :
    ValueInv (G := G) (R := R) law submitted (fun _ => False)
      (V.valuePropagationTask P G R k) := by
  let _ := law.semilattice
  have hmem := fun k' e => @mem_taskTargets _ _ _ _ _ _ _ P G R hsync hseeds k k' e
  obtain ⟨hg, hcov, hbelow, hother⟩ := raiseAll_spec law k (taskTargets P G R k)
    (fun t ht => ((hmem t.1 t.2).1 ht).distributes hjf hcall) V
  rw [valuePropagationTask_eq]
  set V' := V.raiseAll P k (taskTargets P G R k) with hV'
  refine ⟨fun k₀ _ hact => ?_, fun k₀ hk₀ => ?_, fun k₀ l hl => ?_, fun u hu => ?_,
    fun n d hc hs => ?_⟩
  · by_cases hkk : k₀ = k
    · subst hkk
      refine served_of_raised hg ?_
      rintro k' f ⟨e, he, rfl⟩
      exact hcov (k', e) ((hmem k' e).2 he) _ le_rfl
    · by_cases hact₀ : (∃ l, submitted k₀ l) ∨ vals P V k₀ ≠ P.topElement
      · exact (h.served k₀ hkk hact₀).grows hg
      · obtain ⟨hsub, htop⟩ := not_or.1 hact₀
        refine Or.inl (hg.changed k₀ ?_)
        rw [not_not.1 htop]
        exact hact.resolve_left hsub
  · have hold : vals P V k₀ ≠ P.topElement → vals P V' k₀ ≠ P.topElement := fun hne =>
      law.ne_top_of_le hne (hg.le k₀)
    rcases hg.mem_or k₀ hk₀ with hk₀ | hch
    · exact hold (h.pending k₀ hk₀)
    · by_cases htop : vals P V k₀ = P.topElement
      · rwa [htop] at hch
      · exact hold htop
  · exact le_trans (show l ≤ vals P V k₀ from h.seeded k₀ l hl) (hg.le k₀)
  · refine hbelow u (h.below u hu) ?_
    rintro ⟨k', e⟩ ht
    have hu_act : Propagated P R u k := hk.imp_right fun hne =>
      law.ne_top_of_le hne (h.below u hu k)
    exact hu.edge k k' e ((hmem k' e).1 ht) hu_act
  · rw [← h.others n d hc hs]
    refine hother (n, d) ?_
    rintro ⟨⟨n', d'⟩, e⟩ ht heq
    obtain ⟨rfl, rfl⟩ := Prod.mk.inj heq
    cases (hmem _ e).1 ht with
    | toCall _ hc' => simp [hc] at hc'
    | toStart _ _ hsp => simp [G.isStartPoint_of_mem hsp] at hs

omit [DecidableEq L] in
theorem valueInv_empty :
    ValueInv (P := P) (G := G) (R := R) law (fun _ _ => False) (fun _ => False) empty where
  served k _ h := by
    rcases h with ⟨_, h⟩ | h
    · exact h.elim
    · exact absurd rfl h
  pending k hk := absurd hk (by simp [ValueState.empty])
  seeded _ _ h := h.elim
  below u _ k := law.top_join (u k)
  others _ _ _ _ := rfl

include hsync hseeds hjf hcall in
/-- Writing and propagating a seed keeps the invariant. -/
theorem ValueInv.submitSeed {submitted : N × D → L → Prop} {V : ValueState N D L} {k : N × D} {l : L}
    (h : ValueInv (G := G) (R := R) law submitted (fun _ => False) V) (hl : SeedValue P R k l) :
    ValueInv (G := G) (R := R) law (fun k' l' => submitted k' l' ∨ (k' = k ∧ l' = l))
      (fun _ => False) (V.submitSeed P G R k.1 k.2 l) := by
  let _ := law.semilattice
  set V₁ := V.setVal k.1 k.2 (P.join l (V.val P k.1 k.2)) with hV₁
  have hvals : ∀ k', vals P V₁ k' = if k' = k then P.join l (vals P V k) else vals P V k' :=
    fun k' => vals_setVal V k k' _
  have hle : ∀ k', vals P V k' ≤ vals P V₁ k' := by
    intro k'
    rw [hvals]
    split_ifs with hk
    · rw [hk]
      exact le_sup_right (b := vals P V k)
    · exact le_rfl
  refine ValueInv.task law hsync hseeds hjf hcall (V := V₁) (k := k) ?_ (Or.inl ⟨l, hl⟩)
  refine ⟨fun k₀ hk₀ hact => ?_, fun k₀ hk₀ => ?_, fun k₀ l₀ hl₀ => ?_, fun u hu k₀ => ?_,
    fun n d hc hs => ?_⟩
  · have heq : vals P V₁ k₀ = vals P V k₀ := by rw [hvals, if_neg hk₀]
    have hact' : (∃ l, submitted k₀ l) ∨ vals P V k₀ ≠ P.topElement := by
      rcases hact with ⟨l', hl' | ⟨hk, -⟩⟩ | hne
      · exact Or.inl ⟨l', hl'⟩
      · exact absurd hk hk₀
      · exact Or.inr (heq ▸ hne)
    rcases h.served k₀ not_false hact' with hw | hw
    · exact Or.inl hw
    · refine Or.inr fun k' f he => ?_
      rw [heq]
      exact (hw k' f he).trans (hle k')
  · exact law.ne_top_of_le (h.pending k₀ hk₀) (hle k₀)
  · rcases hl₀ with hl₀ | ⟨rfl, rfl⟩
    · exact le_trans (show l₀ ≤ vals P V k₀ from h.seeded k₀ l₀ hl₀) (hle k₀)
    · rw [hvals, if_pos rfl]
      exact le_sup_left (a := l₀)
  · show vals P V₁ k₀ ≤ u k₀
    rw [hvals]
    split_ifs with hk
    · rw [hk]
      exact sup_le (show l ≤ u k from hu.seed k l hl) (h.below u hu k)
    · exact h.below u hu k₀
  · have hne : (n, d) ≠ k := by
      rintro rfl
      obtain ⟨facts, hf, -⟩ := hl
      simp [isStartPoint_of_mem_allSeeds hseeds hf] at hs
    have heq := hvals (n, d)
    rw [if_neg hne] at heq
    exact heq.trans (h.others n d hc hs)

omit [DecidableEq L] in
theorem ValueInv.congr {submitted submitted' : N × D → L → Prop} {V : ValueState N D L}
    (h : ValueInv (G := G) (R := R) law submitted (fun _ => False) V)
    (heq : ∀ k l, submitted' k l ↔ submitted k l) :
    ValueInv (G := G) (R := R) law submitted' (fun _ => False) V where
  served k hk hact := h.served k hk (hact.imp_left fun ⟨l, hl⟩ => ⟨l, (heq k l).1 hl⟩)
  pending := h.pending
  seeded k l hl := h.seeded k l ((heq k l).1 hl)
  below := h.below
  others := h.others

include hsync hseeds hjf hcall in
/-- Submitting all seeds establishes the invariant. -/
theorem valueInv_submitInitialValues :
    ValueInv (G := G) (R := R) law (SeedValue P R) (fun _ => False)
      (submitInitialValues P G R empty) := by
  -- the two nested loops as one loop over the seeds
  set seedList : List ((N × D) × L) := (allSeeds P R).entries.flatMap fun entry =>
    entry.2.entries.map fun seed => ((entry.1, seed.1), seed.2) with hlist
  have hmem : ∀ k l, (k, l) ∈ seedList ↔ SeedValue P R k l := by
    rintro ⟨n, d⟩ l
    simp only [hlist, List.mem_flatMap, List.mem_map, Prod.exists, Prod.mk.injEq, SeedValue]
    constructor
    · rintro ⟨n, facts, hf, d, l, hd, ⟨rfl, rfl⟩, rfl⟩
      exact ⟨facts, hf, hd⟩
    · rintro ⟨facts, hf, hd⟩
      exact ⟨n, facts, hf, d, l, hd, ⟨rfl, rfl⟩, rfl⟩
  have hfold : submitInitialValues P G R empty =
      seedList.foldl (fun V s => V.submitSeed P G R s.1.1 s.1.2 s.2) empty := by
    simp only [hlist, submitInitialValues, List.foldl_flatMap, List.foldl_map]
  have key : ∀ (l : List ((N × D) × L)) (V : ValueState N D L) (submitted : N × D → L → Prop),
      (∀ s ∈ l, SeedValue P R s.1 s.2) →
      ValueInv (G := G) (R := R) law submitted (fun _ => False) V →
      ValueInv (G := G) (R := R) law (fun k v => submitted k v ∨ (k, v) ∈ l) (fun _ => False)
        (l.foldl (fun V s => V.submitSeed P G R s.1.1 s.1.2 s.2) V) := by
    intro l
    induction l with
    | nil => exact fun V submitted _ h => h.congr _ (by simp)
    | cons s t ih =>
      intro V submitted hl h
      have hs := h.submitSeed law hsync hseeds hjf hcall (hl s List.mem_cons_self)
      refine (ih _ _ (fun x hx => hl x (List.mem_cons_of_mem s hx)) hs).congr _ fun k v => ?_
      simp only [List.mem_cons, or_assoc, Prod.ext_iff]
  rw [hfold]
  refine (key seedList _ _ (fun s hs => (hmem s.1 s.2).1 hs) (valueInv_empty law)).congr _ ?_
  simp [hmem]

include hsync hseeds hjf hcall in
/-- Taking a node from the work list keeps the invariant and makes progress. -/
theorem ValueInv.step {V V' : ValueState N D L}
    (h : ValueInv (G := G) (R := R) law (SeedValue P R) (fun _ => False) V)
    (hs : ValueStep P G R V V') :
    ValueInv (G := G) (R := R) law (SeedValue P R) (fun _ => False) V' := by
  obtain ⟨l, r, k, hW⟩ := hs
  refine ValueInv.task law hsync hseeds hjf hcall ?_
    (Or.inr (h.pending k (by simp [hW])))
  refine ⟨fun k₀ hk₀ hact => ?_, fun k₀ hk₀ => h.pending k₀ ?_, h.seeded, h.below, h.others⟩
  · refine (h.served k₀ not_false hact).imp_left fun hmem => ?_
    rw [hW] at hmem
    simp only [List.mem_append, List.mem_cons] at hmem ⊢
    tauto
  · rw [hW]
    simp only [List.mem_append, List.mem_cons] at hk₀ ⊢
    tauto

include hsync hseeds hjf hcall in
theorem valueInv_of_reachable {V : ValueState N D L} (hV : ValueReachable P G R V) :
    ValueInv (G := G) (R := R) law (SeedValue P R) (fun _ => False) V := by
  induction hV with
  | init => exact valueInv_submitInitialValues law hsync hseeds hjf hcall
  | step _ hs ih => exact ih.step law hsync hseeds hjf hcall hs

omit [DecidableEq L] in
/-- **With an empty work list the values are the least solution.** -/
theorem ValueInv.solution {V : ValueState N D L}
    (h : ValueInv (G := G) (R := R) law (SeedValue P R) (fun _ => False) V)
    (hW : V.valuePropWL = []) : Solution P G R (Propagated P R) (vals P V) where
  seed := h.seeded
  edge k k' e he hact := by
    rcases h.served k not_false hact with hk | hk
    · simp [hW] at hk
    · exact hk k' _ ⟨e, he, rfl⟩

include law hsync hseeds hjf hcall in
/-- A task shortens the work list or raises a value. -/
theorem progress_of_valueStep {V V' : ValueState N D L} (hs : ValueStep P G R V V') :
    let _ := law.semilattice
    vals P V < vals P V' ∨
      (vals P V = vals P V' ∧ V'.valuePropWL.length < V.valuePropWL.length) := by
  intro _
  obtain ⟨l, r, k, hW⟩ := hs
  rw [valuePropagationTask_eq]
  have hg := (raiseAll_spec law k (taskTargets P G R k)
    (fun t ht => ((mem_taskTargets hsync hseeds).1 ht).distributes hjf hcall)
    { V with valuePropWL := l ++ r }).1
  refine hg.lt_or_eq.imp id fun ⟨heq, hwl⟩ => ⟨heq, ?_⟩
  rw [hwl, hW]
  simp

/-! ### The final pass -/

/-- One contribution of the final pass: the jump function `e` from `d'` at `sp` to `d` at `n`. -/
structure Contribution (N D E : Type*) where
  n : N
  sp : N
  d' : D
  d : D
  e : E

/-- The contributions to the given nodes. -/
def contributions (G : ICFG N F) (R : PhaseOneResult N D E) (values : List N) :
    List (Contribution N D E) :=
  values.flatMap fun n => (G.getStartPointsOf (G.getFunctionOf n)).flatMap fun sp =>
    (R.jumpFn.lookupByTarget n).entries.map fun cell => ⟨n, sp, cell.1.1, cell.1.2, cell.2⟩

/-- Join one contribution into the value of its target. -/
def contribute (P : IDETabulationProblem N F D E L) (V : ValueState N D L)
    (c : Contribution N D E) : ValueState N D L :=
  V.setVal c.n c.d (P.join (V.val P c.n c.d) (P.computeTarget c.e (V.val P c.sp c.d')))

omit [DecidableEq L] in
theorem valueComputationTask_eq (V : ValueState N D L) (values : List N) :
    V.valueComputationTask P G R values = (contributions G R values).foldl (contribute P) V := by
  simp only [valueComputationTask, computeValuesFrom, contributions, List.foldl_flatMap,
    List.foldl_map, contribute]

omit [DecidableEq N] [DecidableEq L] in
theorem mem_contributions (hsync : R.jumpFn.Synced P.isAllTop) (values : List N)
    (c : Contribution N D E) : c ∈ contributions G R values ↔ c.n ∈ values ∧
      c.sp ∈ G.getStartPointsOf (G.getFunctionOf c.n) ∧
      R.jumpFn.stored ⟨c.d', c.n, c.d⟩ = some c.e := by
  obtain ⟨n, sp, d', d, e⟩ := c
  have hcell : (((d', d), e) ∈ (R.jumpFn.lookupByTarget n).entries) ↔
      R.jumpFn.stored ⟨d', n, d⟩ = some e := by
    rw [VecMap.mem_entries_iff, hsync.byTarget ⟨d', n, d⟩]
  simp only [contributions, List.mem_flatMap, List.mem_map, Prod.exists, ← hcell,
    Contribution.mk.injEq]
  constructor
  · rintro ⟨n, hn, sp, hsp, d', d, e, he, rfl, rfl, rfl, rfl, rfl⟩
    exact ⟨hn, hsp, he⟩
  · rintro ⟨hn, hsp, he⟩
    exact ⟨n, hn, sp, hsp, d', d, e, he, rfl, rfl, rfl, rfl, rfl⟩

omit [DecidableEq L] in
include law in
/-- The final pass leaves start points alone and joins every contribution once. -/
theorem contribute_spec (cs : List (Contribution N D E))
    (hcs : ∀ c ∈ cs, G.isStartPoint c.n = false ∧ G.isStartPoint c.sp = true)
    (V : ValueState N D L) :
    let _ := law.semilattice
    (∀ k : N × D, (∀ c ∈ cs, c.n ≠ k.1) →
      vals P (cs.foldl (contribute P) V) k = vals P V k) ∧
    (∀ k, vals P V k ≤ vals P (cs.foldl (contribute P) V) k) ∧
    (∀ c ∈ cs, P.computeTarget c.e (V.val P c.sp c.d') ≤
      vals P (cs.foldl (contribute P) V) (c.n, c.d)) ∧
    ∀ k u, vals P V k ≤ u →
      (∀ c ∈ cs, (c.n, c.d) = k → P.computeTarget c.e (V.val P c.sp c.d') ≤ u) →
      vals P (cs.foldl (contribute P) V) k ≤ u := by
  intro _
  induction cs generalizing V with
  | nil => exact ⟨fun _ _ => rfl, fun _ => le_rfl, by simp, fun _ _ h _ => h⟩
  | cons c t ih =>
    set V₁ := contribute P V c with hV₁
    have hvals : ∀ k, vals P V₁ k = if k = (c.n, c.d) then
        P.join (vals P V (c.n, c.d)) (P.computeTarget c.e (V.val P c.sp c.d')) else vals P V k :=
      fun k => vals_setVal V (c.n, c.d) k _
    have hle : ∀ k, vals P V k ≤ vals P V₁ k := by
      intro k
      rw [hvals]
      split_ifs with hk
      · rw [hk]
        exact le_sup_left (a := vals P V (c.n, c.d))
      · exact le_rfl
    -- the values at start points are read but never written
    have hstart : ∀ c' ∈ t, V₁.val P c'.sp c'.d' = V.val P c'.sp c'.d' := by
      intro c' hc'
      have hne : (c'.sp, c'.d') ≠ (c.n, c.d) := by
        intro heq
        have h₁ := (hcs c List.mem_cons_self).1
        have h₂ := (hcs c' (List.mem_cons_of_mem c hc')).2
        rw [(Prod.mk.inj heq).1, h₁] at h₂
        simp at h₂
      have := hvals (c'.sp, c'.d')
      rwa [if_neg hne] at this
    obtain ⟨iho, ihl, ihc, ihb⟩ := ih (fun c' hc' => hcs c' (List.mem_cons_of_mem c hc')) V₁
    rw [List.foldl_cons]
    refine ⟨fun k hk => ?_, fun k => (hle k).trans (ihl k), fun c' hc' => ?_, fun k u hu hk => ?_⟩
    · rw [iho k fun c' hc' => hk c' (List.mem_cons_of_mem c hc'), hvals, if_neg]
      rintro rfl
      exact hk c List.mem_cons_self rfl
    · rcases List.mem_cons.1 hc' with rfl | hc'
      · refine le_trans ?_ (ihl (c'.n, c'.d))
        rw [hvals, if_pos rfl]
        exact le_sup_right (a := vals P V (c'.n, c'.d))
      · rw [← hstart c' hc']
        exact ihc c' hc'
    · refine ihb k u ?_ fun c' hc' heq => ?_
      · rw [hvals]
        split_ifs with hkc
        · exact sup_le (hkc ▸ hu) (hk c List.mem_cons_self hkc.symm)
        · exact hu
      · rw [hstart c' hc']
        exact hk c' (List.mem_cons_of_mem c hc') heq

/-- The values that the jump functions to `(n, d)` carry over from the start points. -/
def contributedValues (P : IDETabulationProblem N F D E L) (G : ICFG N F)
    (R : PhaseOneResult N D E) (u : N × D → L) (n : N) (d : D) : Set L :=
  {l | ∃ sp ∈ G.getStartPointsOf (G.getFunctionOf n), ∃ d' e,
    R.jumpFn.stored ⟨d', n, d⟩ = some e ∧ l = P.computeTarget e (u (sp, d'))}

omit [DecidableEq L] in
include law hsync in
/-- The final pass keeps the values at start nodes and call sites. -/
theorem finish_of_startOrCall (V : ValueState N D L) {n : N} (d : D)
    (hn : G.isCallSite n = true ∨ G.isStartPoint n = true) :
    vals P (V.finish P G R) (n, d) = vals P V (n, d) := by
  rw [finish, valueComputationTask_eq]
  refine (contribute_spec (G := G) law _ (fun c hc => ?_) V).1 (n, d) fun c hc heq => ?_
  · obtain ⟨hmem, hsp, -⟩ := (mem_contributions hsync _ c).1 hc
    exact ⟨((G.mem_allNonCallStartNodes _).1 hmem).2, G.isStartPoint_of_mem hsp⟩
  · obtain ⟨hmem, -, -⟩ := (mem_contributions hsync _ c).1 hc
    obtain ⟨h₁, h₂⟩ := (G.mem_allNonCallStartNodes _).1 hmem
    rw [heq] at h₁ h₂
    simp [h₁, h₂] at hn

omit [DecidableEq L] in
include law hsync in
/-- The final pass gives every other instruction the join of the contributed values. -/
theorem finish_isJoinOf {V : ValueState N D L} {n : N} (d : D) (hc : G.isCallSite n = false)
    (hs : G.isStartPoint n = false) (htop : V.val P n d = P.topElement) :
    IsJoinOf P (contributedValues P G R (vals P V) n d) (vals P (V.finish P G R) (n, d)) := by
  let _ := law.semilattice
  obtain ⟨-, -, hcov, hbound⟩ := contribute_spec (G := G) law
    (contributions G R G.allNonCallStartNodes) (fun c hc => by
      obtain ⟨hmem, hsp, -⟩ := (mem_contributions hsync _ c).1 hc
      exact ⟨((G.mem_allNonCallStartNodes _).1 hmem).2, G.isStartPoint_of_mem hsp⟩) V
  have hn : n ∈ G.allNonCallStartNodes := (G.mem_allNonCallStartNodes n).2 ⟨hc, hs⟩
  rw [finish, valueComputationTask_eq]
  constructor
  · rintro l ⟨sp, hsp, d', e, hst, rfl⟩
    exact hcov ⟨n, sp, d', d, e⟩ ((mem_contributions hsync _ _).2 ⟨hn, hsp, hst⟩)
  · intro u hu
    refine hbound (n, d) u ?_ fun c hc' heq => ?_
    · show vals P V (n, d) ≤ u
      rw [vals, htop]
      exact law.top_join u
    · obtain ⟨-, hsp, hst⟩ := (mem_contributions hsync _ c).1 hc'
      obtain ⟨rfl, rfl⟩ := Prod.mk.inj heq
      exact hu _ ⟨c.sp, hsp, c.d', c.e, hst, rfl⟩

/-! ### The result -/

/-- The loop of `computeValues` empties the work list. -/
theorem exists_loop_empty
    (hwf : WellFounded fun V' V : ValueState N D L => ValueStep P G R V V')
    (V : ValueState N D L) : ∃ fuel, (valueLoop P G R fuel V).valuePropWL = [] := by
  induction V using hwf.induction with
  | _ V ih =>
    cases hl : V.valuePropWL.getLast? with
    | none => exact ⟨0, List.getLast?_eq_none_iff.1 hl⟩
    | some k =>
      obtain ⟨ys, hys⟩ := List.getLast?_eq_some_iff.1 hl
      have hs : ValueStep P G R V (valuePropagationTask P G R
          { V with valuePropWL := V.valuePropWL.dropLast } k) := by
        simpa [hys] using ValueStep.take ys [] k hys
      obtain ⟨fuel, hfuel⟩ := ih _ hs
      exact ⟨fuel + 1, by simpa [valueLoop, hl] using hfuel⟩

end Lawful

/-! ### A call that is never propagated -/

/-- The instructions of the program. -/
inductive CallNode
  | entry
  | call
  | exit
  | callee
  deriving DecidableEq

instance : Fintype CallNode := ⟨{.entry, .call, .exit, .callee}, fun n => by cases n <;> decide⟩

/-- The functions of the program. -/
inductive CallFun
  | main
  | g
  deriving DecidableEq

/-- `main` (`entry`, `call`, `exit`) calls `g` (`callee`). -/
def callProgram : ICFG CallNode CallFun :=
  .ofNodes [.entry, .call, .exit, .callee] (by decide)
    (fun n => if n = .callee then .g else .main)
    (fun | .entry => [.call] | .call => [.exit] | _ => [])
    (fun n => n = .entry ∨ n = .callee) (fun n => n = .exit ∨ n = .callee) (fun n => n = .call)
    (fun n => if n = .call then [.g] else []) (by decide) (by decide)

/-- Facts `false` (zero) and `true` flow everywhere but back from `g`. The call edge of `true` is
all-bottom, and `true` is seeded in `main` with top. -/
def callProblem : IDETabulationProblem CallNode CallFun Bool BasicEdgeFunction Bool where
  getZeroValue := false
  getNormalFlowFunction _ _ d := [d]
  getCallFlowFunction _ _ d := [d]
  getRetFlowFunction _ _ _ _ _ := []
  getCallToRetFlowFunction _ _ _ d := [d]
  getSummaryFlowFunction _ _ := none
  getNormalEdgeFunction _ _ _ _ := .edgeIdentity
  getCallEdgeFunction _ d _ _ := if d then .allBottom else .edgeIdentity
  getReturnEdgeFunction _ _ _ _ _ _ := .edgeIdentity
  getCallToRetEdgeFunction _ _ _ _ _ := .edgeIdentity
  getSummaryEdgeFunction _ _ _ _ := none
  extend := BasicEdgeFunction.compose
  combine := BasicEdgeFunction.join
  identity := .edgeIdentity
  isAllTop f := f = .allTop
  allTopFunction := .allTop
  extendNull := id
  topElement := true
  bottomElement := false
  join := and
  computeTarget := BasicEdgeFunction.computeTarget
  initialSeeds := VecMap.empty.set .entry (VecMap.empty.set true true)
  solverConfig := ⟨false, true⟩
  isAllTop_iff := BasicEdgeFunction.isAllTop_iff

theorem lawful_callProblem : LawfulValues callProblem where
  join_assoc := Bool.and_assoc
  join_comm := Bool.and_comm
  join_idem := Bool.and_self
  top_join := Bool.true_and

theorem distributes_callProblem (e : BasicEdgeFunction) : DistributesOverJoin callProblem e := by
  intro a b
  cases e <;> rfl

/-- The jump functions phase I computes for the call problem. -/
def callResult : PhaseOneResult CallNode Bool BasicEdgeFunction where
  jumpFn := (IDESolver.run callProblem callProgram 40 (IDESolver.init callProblem)).jumpFn
  unbalancedRetSites := []

theorem synced_callResult : callResult.jumpFn.Synced callProblem.isAllTop :=
  (IDESolver.pending_of_reachable
    (BasicEdgeFunction.Uses.lawful ⟨rfl, rfl, fun _ => by simp [callProblem]⟩) rfl
    (IDESolver.summariesDistribute_of_none fun _ _ => rfl)
    (IDESolver.reachable_run callProblem callProgram 40 .init)).1.synced

theorem wellFounded_callProblem : WellFounded fun a b => callProblem.join b a = a ∧ a ≠ b := by
  refine Subrelation.wf (r := InvImage (· < ·) Bool.toNat) ?_
    (InvImage.wf _ (wellFounded_lt (α := ℕ)))
  rintro a b ⟨h, hne⟩
  cases a <;> cases b <;> simp_all [callProblem, InvImage]

theorem startSeeds_callProblem :
    ∀ n, (n ∈ callProblem.seeds.keys ∨ n ∈ callResult.unbalancedRetSites) →
      callProgram.isStartPoint n = true := by
  decide

end ValueState

end Phasar
