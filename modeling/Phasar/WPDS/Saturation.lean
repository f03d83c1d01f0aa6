import Phasar.Lib.LoopRule
import Phasar.Lib.Propagation
import Phasar.WPDS.WPDSSolver

/-!
# Saturation

The path edges of `WPDSSolver` are derived by the rules of the pushdown system. Weights are raised on both
sides of a call, and what one side adds is applied to what the other side has.

* `rules`: normal rules, entries of push rules, and calls that return;
* `Grows`, `SoundState`, `Linked`, `Processed`: what a round of the loop keeps and establishes;
* `exact_of_empty`: with an empty work list the path edges are closed under the rules and sound.
-/

set_option linter.unusedSectionVars false

namespace Phasar.WPDS.WPDSSolver

open Deduction

variable {CL SE W : Type*}

/-! ### The rules -/

section Rules

variable [DecidableEq CL] [DecidableEq SE] [DecidableEq W] (RP : RuleProvider CL SE W) (SR : SemiRing W)

/-- A normal rule, and the entry of a push rule. -/
inductive Flow : PathEdge CL SE → PathEdge CL SE → (W → W) → Prop
  | normal {src n n' : Node CL SE} {w : W} : (n', w) ∈ RP.getNormalRules n →
      Flow (src, n) (src, n') (SR.extend · w)
  | push {src n : Node CL SE} {p : PushRule CL SE W} {real : CL} : (p, real) ∈ pushes RP n →
      Flow (src, n) ((real, p.entrySE), (p.succFact, p.entrySE)) (fun _ => SR.identity)

/-- A call that returns: a push rule, a path edge of the entry up to a node with pop rules, and a pop rule
with the return site. -/
inductive Summary : PathEdge CL SE → PathEdge CL SE → PathEdge CL SE → (W → W → W) → Prop
  | mk {src n x : Node CL SE} {p : PushRule CL SE W} {real : CL} {pop : CL × W} :
    (p, real) ∈ pushes RP n →
      RP.hasPopRules x = true → pop ∈ RP.getPopRules x p.retSite p.entrySE →
      Summary (src, n) ((real, p.entrySE), x) (src, (pop.1, p.retSite))
        (fun a b => SR.extend (SR.extend (SR.extend a p.weight) b) pop.2)

def rules : Rules (PathEdge CL SE) W where
  ax k e := (∃ w, (k.1, w) ∈ RP.initialSeeds) ∧ k.2 = k.1 ∧ e = SR.identity
  un := Flow RP SR
  bin := Summary RP SR

/-- No weight is dropped. -/
abbrev Dropped (W : Type*) : W → Prop := fun _ => False

theorem dropped_least [LE W] (x : W) (h : Dropped W x) (y : W) : x ≤ y := h.elim

end Rules

variable [SemilatticeSup W] [DecidableEq CL] [DecidableEq SE] {RP : RuleProvider CL SE W}
    {SR : SemiRing W}

theorem distributive_rules (law : SR.Lawful) (hsup : ∀ a b, SR.combine a b = a ⊔ b) :
    Distributive (rules RP SR) := by
  have hleft : ∀ a b c, SR.extend a (b ⊔ c) = SR.extend a b ⊔ SR.extend a c := by
    intro a b c
    rw [← hsup, ← hsup, law.extend_combine]
  have hright : ∀ a b c, SR.extend (a ⊔ b) c = SR.extend a c ⊔ SR.extend b c := by
    intro a b c
    rw [← hsup, ← hsup, law.combine_extend]
  refine ⟨?_, ?_, ?_⟩
  · intro k k' f hr a b
    cases hr with
    | normal => exact hright a b _
    | push => exact (sup_idem _).symm
  · rintro _ _ _ _ ⟨⟩ a b c
    show SR.extend (SR.extend (SR.extend (a ⊔ b) _) c) _ = _
    rw [hright, hright, hright]
  · rintro _ _ _ _ ⟨⟩ a b c
    show SR.extend (SR.extend _ (b ⊔ c)) _ = _
    rw [hleft, hright]

variable [DecidableEq W]

/-! ### What only grows -/

/-- From `S` to `S'` the tables rise, and a path edge with a new weight is on the work list. -/
structure Grows (S S' : WPDSSolver CL SE W) : Prop where
  stored : ∀ k e, Covers (S.stored k) e → Covers (S'.stored k) e
  incoming : ∀ n c e, Covers ((S.incoming n).get? c) e → Covers ((S'.incoming n).get? c) e
  endSummary : ∀ n x e, Covers ((S.endSummary n).get? x) e → Covers ((S'.endSummary n).get? x) e
  workList : ∀ p ∈ S.workList, p ∈ S'.workList
  changed : ∀ k v, S'.stored k = some v → S.stored k = some v ∨ (k, v) ∈ S'.workList
  progress : (S'.stored = S.stored ∧ S'.workList = S.workList) ∨ withBot S.stored < withBot S'.stored

namespace Grows

theorem refl (S : WPDSSolver CL SE W) : Grows S S :=
  ⟨fun _ _ h => h, fun _ _ _ h => h, fun _ _ _ h => h, fun _ h => h,
    fun _ _ h => Or.inl h, Or.inl ⟨rfl, rfl⟩⟩

theorem trans {S₁ S₂ S₃ : WPDSSolver CL SE W} (h : Grows S₁ S₂) (h' : Grows S₂ S₃) : Grows S₁ S₃ where
  stored k e he := h'.stored k e (h.stored k e he)
  incoming n c e he := h'.incoming n c e (h.incoming n c e he)
  endSummary n x e he := h'.endSummary n x e (h.endSummary n x e he)
  workList p hp := h'.workList p (h.workList p hp)
  changed k v hv := by
    rcases h'.changed k v hv with hv | hv
    · exact (h.changed k v hv).imp_right (h'.workList _)
    · exact Or.inr hv
  progress := by
    rcases h.progress with ⟨hs, hw⟩ | hlt
    · rcases h'.progress with ⟨hs', hw'⟩ | hlt'
      · exact Or.inl ⟨hs'.trans hs, hw'.trans hw⟩
      · exact Or.inr (hs ▸ hlt')
    · rcases h'.progress with ⟨hs', -⟩ | hlt'
      · exact Or.inr (hs' ▸ hlt)
      · exact Or.inr (hlt.trans hlt')

/-- The tables of calls change, the path edges do not. -/
theorem of_tables {S S' : WPDSSolver CL SE W} (hp : S'.pathEdges = S.pathEdges)
    (hw : S'.workList = S.workList)
    (hi : ∀ n c e, Covers ((S.incoming n).get? c) e → Covers ((S'.incoming n).get? c) e)
    (he : ∀ n x e, Covers ((S.endSummary n).get? x) e → Covers ((S'.endSummary n).get? x) e) :
      Grows S S' := by
  have hs : S'.stored = S.stored := by
    funext k
    rw [WPDSSolver.stored, WPDSSolver.stored, hp]
  exact ⟨fun k e h => hs ▸ h, hi, he, fun p h => hw ▸ h, fun k v h => Or.inl (hs ▸ h), Or.inl ⟨hs, hw⟩⟩

end Grows

/-! ### `propagate` -/

section Propagate

variable {S : WPDSSolver CL SE W}

theorem stored_update (S : WPDSSolver CL SE W) (k k' : PathEdge CL SE) (w : W) :
    (S.update k w).stored k' = if k' = k then some w else S.stored k' := by
  obtain ⟨src, n⟩ := k
  obtain ⟨src', n'⟩ := k'
  simp only [stored, update]
  by_cases hn : n' = n
  · subst hn
    rw [Function.update_self, VecMap.get?_set]
    by_cases hs : src' = src
    · simp [hs]
    · simp [hs, Ne.symm hs]
  · rw [Function.update_of_ne hn, if_neg fun h => hn (Prod.mk.inj h).2]

/-- `propagate` finds the weight covered, or it raises the path edge. -/
theorem propagate_cases (hsup : ∀ a b, SR.combine a b = a ⊔ b) (S : WPDSSolver CL SE W)
    (k : PathEdge CL SE) (w : W) :
    (propagate SR S k w = S ∧ Covers (S.stored k) w) ∨
      (propagate SR S k w = S.update k (joinInto (S.stored k) w) ∧ ¬ Covers (S.stored k) w) := by
  cases hk : S.stored k with
  | none => exact Or.inr ⟨by simp [propagate, hk, joinInto], by simp⟩
  | some old =>
    by_cases hle : w ≤ old
    · exact Or.inl ⟨by simp [propagate, hk, hsup, sup_of_le_left hle], covers_some.2 hle⟩
    · have hne : old ≠ old ⊔ w := fun h => hle (h ▸ le_sup_right)
      exact Or.inr ⟨by simp [propagate, hk, hsup, joinInto, hne], by simpa using hle⟩

theorem raise_update (k : PathEdge CL SE) (w : W) :
    Raise S.stored (S.update k (joinInto (S.stored k) w)).stored k w :=
  ⟨by rw [stored_update, if_pos rfl], fun hk => by rw [stored_update, if_neg hk]⟩

theorem propagate_grows (hsup : ∀ a b, SR.combine a b = a ⊔ b) (S : WPDSSolver CL SE W)
    (k : PathEdge CL SE) (w : W) :
    Grows S (propagate SR S k w) ∧ Covers ((propagate SR S k w).stored k) w := by
  rcases propagate_cases hsup S k w with ⟨heq, hc⟩ | ⟨heq, hc⟩
  · rw [heq]
    exact ⟨Grows.refl S, hc⟩
  · have hr := raise_update (S := S) k w
    rw [heq]
    refine ⟨⟨fun k' e he => hr.covers he, fun _ _ _ h => h, fun _ _ _ h => h,
      fun p hp => List.mem_cons_of_mem _ hp,
      fun k' v hv => ?_, Or.inr (hr.lt hc)⟩, ⟨_, hr.self, le_joinInto _ _⟩⟩
    rw [stored_update] at hv
    by_cases hk : k' = k
    · subst hk
      rw [if_pos rfl, Option.some.injEq] at hv
      exact Or.inr (hv ▸ List.mem_cons_self)
    · rw [if_neg hk] at hv
      exact Or.inl hv

@[simp] theorem propagate_incoming (S : WPDSSolver CL SE W) (k : PathEdge CL SE) (w : W) :
    (propagate SR S k w).incoming = S.incoming := by
  unfold propagate
  split
  · rfl
  · split_ifs <;> rfl

@[simp] theorem propagate_endSummary (S : WPDSSolver CL SE W) (k : PathEdge CL SE) (w : W) :
    (propagate SR S k w).endSummary = S.endSummary := by
  unfold propagate
  split
  · rfl
  · split_ifs <;> rfl

@[simp] theorem propagateAll_incoming (S : WPDSSolver CL SE W) (items : List (PathEdge CL SE × W)) :
    (propagateAll SR S items).incoming = S.incoming := by
  induction items generalizing S with
  | nil => rfl
  | cons item items ih => exact (ih _).trans (propagate_incoming S _ _)

@[simp] theorem propagateAll_endSummary (S : WPDSSolver CL SE W) (items : List (PathEdge CL SE × W)) :
    (propagateAll SR S items).endSummary = S.endSummary := by
  induction items generalizing S with
  | nil => rfl
  | cons item items ih => exact (ih _).trans (propagate_endSummary S _ _)

theorem propagateAll_grows (hsup : ∀ a b, SR.combine a b = a ⊔ b) (S : WPDSSolver CL SE W)
    (items : List (PathEdge CL SE × W)) :
    Grows S (propagateAll SR S items) ∧ ∀ item ∈ items,
      Covers ((propagateAll SR S items).stored item.1) item.2 := by
  induction items generalizing S with
  | nil => exact ⟨Grows.refl S, by simp⟩
  | cons item items ih =>
    obtain ⟨hg, hc⟩ := propagate_grows hsup S item.1 item.2
    obtain ⟨hg', hcs⟩ := ih (propagate SR S item.1 item.2)
    exact ⟨hg.trans hg', List.forall_mem_cons.2 ⟨hg'.stored _ _ hc, hcs⟩⟩

end Propagate

/-! ### Sound states -/

/-- The weights of the calls of `entry` that return to `ret` in the context of `csSrc`. -/
def CallWeights (RP : RuleProvider CL SE W) (SR : SemiRing W) (entry csSrc : Node CL SE)
    (ret : SE) : Set W :=
  {e | ∃ n p w, (p, entry.1) ∈ pushes RP n ∧ entry.2 = p.entrySE ∧ ret = p.retSite ∧
    Deriv (rules RP SR) (Dropped W) (csSrc, n) w ∧ e = SR.extend w p.weight}

/-- All weights of the state are finite joins of weights of derivations. -/
structure SoundState (RP : RuleProvider CL SE W) (SR : SemiRing W) (S : WPDSSolver CL SE W) : Prop where
  stored : Sound (rules RP SR) (Dropped W) S.stored
  workList : ∀ k w, (k, w) ∈ S.workList → w ∈ Deduction.Reached (rules RP SR) (Dropped W) k
  incoming : ∀ entry csSrc ret i, (S.incoming entry).get? (csSrc, ret) = some i →
    i ∈ supClosure (CallWeights RP SR entry csSrc ret)
  endSummary : ∀ src x s, (S.endSummary src).get? x = some s →
    RP.hasPopRules x = true ∧ s ∈ Deduction.Reached (rules RP SR) (Dropped W) (src, x)

/-- The summaries of an entry have been applied to all its calls. -/
def Linked (RP : RuleProvider CL SE W) (SR : SemiRing W) (S : WPDSSolver CL SE W) : Prop :=
  ∀ entry csSrc ret i x s, (S.incoming entry).get? (csSrc, ret) = some i →
    (S.endSummary entry).get? x = some s →
    ∀ item ∈ popItems RP SR entry csSrc ret i x s, Covers (S.stored item.1) item.2

section Sound

variable {S : WPDSSolver CL SE W} (law : SR.Lawful) (hsup : ∀ a b, SR.combine a b = a ⊔ b)

include law hsup

theorem mem_reached_flow {k k' : PathEdge CL SE} {f : W → W} (hr : Flow RP SR k k' f) {e : W}
    (h : e ∈ Deduction.Reached (rules RP SR) (Dropped W) k) : f e ∈ Deduction.Reached (rules RP SR) (Dropped W) k' :=
  (reached_un (dropped_least (W := W)) (distributive_rules law hsup) hr h).resolve_left id

theorem mem_reached_popItems {entry csSrc x : Node CL SE} {ret : SE} {i s : W}
    (hi : i ∈ supClosure (CallWeights RP SR entry csSrc ret)) (hpop : RP.hasPopRules x = true)
    (hs : s ∈ Deduction.Reached (rules RP SR) (Dropped W) (entry, x)) :
    ∀ item ∈ popItems RP SR entry csSrc ret i x s, item.2 ∈ Deduction.Reached (rules RP SR) (Dropped W) item.1 := by
  intro item hitem
  obtain ⟨pop, hmem, rfl⟩ := List.mem_map.1 hitem
  have hright : ∀ a b c, SR.extend (a ⊔ b) c = SR.extend a c ⊔ SR.extend b c := by
    intro a b c
    rw [← hsup, ← hsup, law.combine_extend]
  refine (reached_of_supClosure (dropped_least (W := W)) (f := fun i => SR.extend (SR.extend i s) pop.2)
    (fun a b => by rw [hright, hright]) (fun e he => ?_) hi).resolve_left id
  obtain ⟨n, p, w, hp, hentry, rfl, hw, rfl⟩ := he
  obtain ⟨real, entrySE⟩ := entry
  obtain rfl : entrySE = p.entrySE := hentry
  exact reached_bin (dropped_least (W := W)) (distributive_rules law hsup) (.mk hp hpop hmem)
    (reached_of_deriv hw) hs

omit law

theorem SoundState.propagate (h : SoundState RP SR S) {k : PathEdge CL SE} {w : W}
    (hw : w ∈ Deduction.Reached (rules RP SR) (Dropped W) k) : SoundState RP SR (propagate SR S k w) := by
  rcases propagate_cases hsup S k w with ⟨heq, -⟩ | ⟨heq, -⟩
  · rwa [heq]
  · have hstored := h.stored.raise hw (raise_update k w)
    rw [heq]
    refine ⟨hstored, fun k' w' hmem => ?_, h.incoming, h.endSummary⟩
    rcases List.mem_cons.1 hmem with heq' | hmem
    · obtain ⟨rfl, rfl⟩ := Prod.mk.inj heq'
      exact hstored k' _ (raise_update k' w).self
    · exact h.workList k' w' hmem

theorem SoundState.propagateAll (h : SoundState RP SR S) {items : List (PathEdge CL SE × W)}
    (hitems : ∀ item ∈ items, item.2 ∈ Deduction.Reached (rules RP SR) (Dropped W) item.1) :
    SoundState RP SR (propagateAll SR S items) := by
  induction items generalizing S with
  | nil => exact h
  | cons item items ih =>
    obtain ⟨hitem, hitems⟩ := List.forall_mem_cons.1 hitems
    exact ih (h.propagate hsup hitem) hitems

omit hsup in
/-- Path edges rise, calls and summaries stay. -/
theorem Linked.grows {S' : WPDSSolver CL SE W} (h : Linked RP SR S) (hg : Grows S S')
    (hi : S'.incoming = S.incoming)
    (he : S'.endSummary = S.endSummary) : Linked RP SR S' := by
  intro entry csSrc ret i x s hin hsum item hitem
  rw [hi] at hin
  rw [he] at hsum
  exact hg.stored _ _ (h entry csSrc ret i x s hin hsum item hitem)

end Sound

/-! ### Calls and summaries -/

section Calls

variable {S : WPDSSolver CL SE W} (law : SR.Lawful) (hsup : ∀ a b, SR.combine a b = a ⊔ b)

theorem incoming_addIncoming (S : WPDSSolver CL SE W) (entry csSrc : Node CL SE) (ret : SE) (w : W)
    (hsup : ∀ a b, SR.combine a b = a ⊔ b) (entry' : Node CL SE) (c : Node CL SE × SE) :
    ((addIncoming SR S entry csSrc ret w).incoming entry').get? c =
      if entry' = entry ∧ c = (csSrc, ret) then some (joinInto ((S.incoming entry).get? (csSrc, ret)) w)
      else (S.incoming entry').get? c := by
  by_cases hentry : entry' = entry
  · subst hentry
    simp only [addIncoming, Function.update_self, VecMap.alter, VecMap.get?_set, true_and]
    by_cases hc : c = (csSrc, ret)
    · subst hc
      rw [if_pos rfl, if_pos rfl]
      cases (S.incoming entry').get? (csSrc, ret) <;> simp [joinInto, hsup]
    · rw [if_neg (Ne.symm hc), if_neg hc]
  · rw [if_neg fun h => hentry h.1]
    show (Function.update S.incoming entry _ entry').get? c = _
    rw [Function.update_of_ne hentry]

/-- A record of a call is raised. -/
theorem addIncoming_spec (hsup : ∀ a b, SR.combine a b = a ⊔ b) (S : WPDSSolver CL SE W)
    (entry csSrc : Node CL SE)
    (ret : SE) (w : W) : Grows S (addIncoming SR S entry csSrc ret w) ∧
      Covers (((addIncoming SR S entry csSrc ret w).incoming entry).get? (csSrc, ret)) w := by
  refine ⟨Grows.of_tables rfl rfl (fun n c e h => ?_) fun _ _ _ h => h, ?_⟩
  · rw [incoming_addIncoming S entry csSrc ret w hsup]
    split_ifs with hc
    · obtain ⟨rfl, rfl⟩ := hc
      obtain ⟨v, hv, hle⟩ := h
      exact ⟨_, rfl, hle.trans (some_le_joinInto hv w)⟩
    · exact h
  · rw [incoming_addIncoming S entry csSrc ret w hsup, if_pos ⟨rfl, rfl⟩]
    exact ⟨_, rfl, le_joinInto _ _⟩

/-- `addEndSummary` finds the weight covered, or it raises the summary. -/
theorem addEndSummary_cases (hsup : ∀ a b, SR.combine a b = a ⊔ b) (S : WPDSSolver CL SE W)
    (src x : Node CL SE) (w : W) :
    (addEndSummary SR S src x w = (S, false) ∧ Covers ((S.endSummary src).get? x) w) ∨
      addEndSummary SR S src x w =
        (S.setEndSummary src x (joinInto ((S.endSummary src).get? x) w), true) := by
  cases hx : (S.endSummary src).get? x with
  | none => exact Or.inr (by simp [addEndSummary, hx, joinInto])
  | some old =>
    by_cases hle : w ≤ old
    · exact Or.inl ⟨by simp [addEndSummary, hx, hsup, sup_of_le_left hle], covers_some.2 hle⟩
    · have hne : old ≠ old ⊔ w := fun h => hle (h ▸ le_sup_right)
      exact Or.inr (by simp [addEndSummary, hx, hsup, joinInto, hne])

theorem endSummary_setEndSummary (S : WPDSSolver CL SE W) (src x : Node CL SE) (v : W)
    (src' x' : Node CL SE) :
    ((S.setEndSummary src x v).endSummary src').get? x' =
      if src' = src ∧ x' = x then some v else (S.endSummary src').get? x' := by
  show (Function.update S.endSummary src _ src').get? x' = _
  by_cases hsrc : src' = src
  · subst hsrc
    rw [Function.update_self, VecMap.get?_set]
    by_cases hx : x' = x
    · simp [hx]
    · simp [hx, Ne.symm hx]
  · rw [Function.update_of_ne hsrc, if_neg fun h => hsrc h.1]

include law hsup

/-- The weights of a raised record cover what the old one and the new weight gave. -/
theorem covers_popItems_incoming {entry csSrc x : Node CL SE} {ret : SE} {o : Option W} {w s : W}
    (hnew : ∀ item ∈ popItems RP SR entry csSrc ret w x s, Covers (S.stored item.1) item.2)
    (hold : ∀ i, o = some i → ∀ item ∈ popItems RP SR entry csSrc ret i x s,
      Covers (S.stored item.1) item.2) :
    ∀ item ∈ popItems RP SR entry csSrc ret (joinInto o w) x s, Covers (S.stored item.1) item.2 := by
  cases o with
  | none => exact hnew
  | some i =>
    intro item hitem
    obtain ⟨pop, hpop, rfl⟩ := List.mem_map.1 hitem
    obtain ⟨v, hv, hle⟩ := hold i rfl _ (List.mem_map.2 ⟨pop, hpop, rfl⟩)
    have hw := hnew _ (List.mem_map.2 ⟨pop, hpop, rfl⟩)
    simp only [hv, covers_some] at hw ⊢
    rw [joinInto, ← hsup, law.combine_extend, law.combine_extend, hsup]
    exact sup_le hle hw

theorem covers_popItems_endSummary {entry csSrc x : Node CL SE} {ret : SE} {o : Option W} {i w : W}
    (hnew : ∀ item ∈ popItems RP SR entry csSrc ret i x w, Covers (S.stored item.1) item.2)
    (hold : ∀ s, o = some s → ∀ item ∈ popItems RP SR entry csSrc ret i x s,
      Covers (S.stored item.1) item.2) :
    ∀ item ∈ popItems RP SR entry csSrc ret i x (joinInto o w), Covers (S.stored item.1) item.2 := by
  cases o with
  | none => exact hnew
  | some s =>
    intro item hitem
    obtain ⟨pop, hpop, rfl⟩ := List.mem_map.1 hitem
    obtain ⟨v, hv, hle⟩ := hold s rfl _ (List.mem_map.2 ⟨pop, hpop, rfl⟩)
    have hw := hnew _ (List.mem_map.2 ⟨pop, hpop, rfl⟩)
    simp only [hv, covers_some] at hw ⊢
    rw [joinInto, ← hsup, law.extend_combine, law.combine_extend, hsup]
    exact sup_le hle hw

/-- The state after a part of a round. -/
structure Kept (RP : RuleProvider CL SE W) (SR : SemiRing W) (S S' : WPDSSolver CL SE W) : Prop where
  grows : Grows S S'
  sound : SoundState RP SR S'
  linked : Linked RP SR S'

omit law hsup in
theorem Kept.trans {S₁ S₂ S₃ : WPDSSolver CL SE W} (h : Kept RP SR S₁ S₂) (h' : Kept RP SR S₂ S₃) :
    Kept RP SR S₁ S₃ :=
  ⟨h.grows.trans h'.grows, h'.sound, h'.linked⟩

omit law in
theorem kept_propagateAll (hs : SoundState RP SR S) (hl : Linked RP SR S)
    (items : List (PathEdge CL SE × W))
    (hitems : ∀ item ∈ items, item.2 ∈ Deduction.Reached (rules RP SR) (Dropped W) item.1) :
    Kept RP SR S (propagateAll SR S items) ∧ ∀ item ∈ items,
      Covers ((propagateAll SR S items).stored item.1) item.2 := by
  obtain ⟨hg, hc⟩ := propagateAll_grows hsup S items
  exact ⟨⟨hg, hs.propagateAll hsup hitems,
    hl.grows hg (propagateAll_incoming S items) (propagateAll_endSummary S items)⟩, hc⟩

/-- A push rule: the entry is derived, the call is recorded and the summaries of the entry are applied. -/
theorem kept_processPush (hs : SoundState RP SR S) (hl : Linked RP SR S) {src n : Node CL SE} {w : W}
    (hw : w ∈ Deduction.Reached (rules RP SR) (Dropped W) (src, n)) {push : PushRule CL SE W × CL}
      (hp : push ∈ pushes RP n) :
    Kept RP SR S (processPush RP SR src w S push) ∧
      Covers ((processPush RP SR src w S push).stored
        ((push.2, push.1.entrySE), (push.1.succFact, push.1.entrySE))) SR.identity ∧
      Covers (((processPush RP SR src w S push).incoming (push.2, push.1.entrySE)).get?
        (src, push.1.retSite))
        (SR.extend w push.1.weight) := by
  obtain ⟨p, real⟩ := push
  set entry : Node CL SE := (real, p.entrySE) with hentry
  set S₁ := propagate SR S (entry, (p.succFact, p.entrySE)) SR.identity with hS₁
  set S₂ := addIncoming SR S₁ entry src p.retSite (SR.extend w p.weight) with hS₂
  set items := (S₂.endSummary entry).entries.flatMap fun sum =>
    popItems RP SR entry src p.retSite (SR.extend w p.weight) sum.1 sum.2 with hitems
  have hS₃ : processPush RP SR src w S (p, real) = propagateAll SR S₂ items := rfl
  -- the entry
  obtain ⟨hg₁, hcov₁⟩ := propagate_grows hsup S (entry, (p.succFact, p.entrySE)) SR.identity
  have hs₁ : SoundState RP SR S₁ := hs.propagate hsup (mem_reached_flow law hsup (.push hp) hw)
  have hl₁ : Linked RP SR S₁ := hl.grows hg₁ (propagate_incoming S _ _) (propagate_endSummary S _ _)
  -- the record of the call
  obtain ⟨hg₂, hcov₂⟩ := addIncoming_spec hsup S₁ entry src p.retSite (SR.extend w p.weight)
  have hcall : SR.extend w p.weight ∈ supClosure (CallWeights RP SR entry src p.retSite) := by
    refine supClosure_min
      (t := {e | SR.extend e p.weight ∈ supClosure (CallWeights RP SR entry src p.retSite)})
      (fun e he => subset_supClosure ⟨n, p, e, hp, rfl, rfl, he, rfl⟩) (fun a ha b hb => ?_) hw
    show SR.extend (a ⊔ b) p.weight ∈ supClosure (CallWeights RP SR entry src p.retSite)
    rw [← hsup, law.combine_extend, hsup]
    exact supClosed_supClosure ha hb
  have hin := incoming_addIncoming S₁ entry src p.retSite (SR.extend w p.weight) hsup
  have hs₂ : SoundState RP SR S₂ := by
    refine ⟨hs₁.stored, hs₁.workList, fun entry' csSrc ret i hi => ?_, hs₁.endSummary⟩
    rw [hS₂, hin] at hi
    split_ifs at hi with hc
    · obtain ⟨rfl, hc⟩ := hc
      obtain ⟨rfl, rfl⟩ := Prod.mk.inj hc
      cases hold : (S₁.incoming entry).get? (csSrc, p.retSite) with
      | none =>
        rw [hold, joinInto, Option.some.injEq] at hi
        exact hi ▸ hcall
      | some i' =>
        rw [hold, joinInto, Option.some.injEq] at hi
        exact hi ▸ supClosed_supClosure (hs₁.incoming _ _ _ i' hold) hcall
    · exact hs₁.incoming entry' csSrc ret i hi
  -- the summaries of the entry
  have hreached : ∀ item ∈ items, item.2 ∈ Deduction.Reached (rules RP SR) (Dropped W) item.1 := by
    intro item hitem
    obtain ⟨⟨x, s⟩, hx, hitem⟩ := List.mem_flatMap.1 hitem
    obtain ⟨hpop, hsum⟩ := hs₂.endSummary entry x s ((VecMap.mem_entries_iff _ _ _).1 hx)
    exact mem_reached_popItems law hsup hcall hpop hsum item hitem
  obtain ⟨hg₃, hcov₃⟩ := propagateAll_grows hsup S₂ items
  have hl₃ : Linked RP SR (propagateAll SR S₂ items) := by
    intro entry' csSrc ret i x s hi hx
    rw [propagateAll_incoming] at hi
    rw [propagateAll_endSummary] at hx
    have hi' := hi
    rw [hS₂, hin] at hi'
    split_ifs at hi' with hc
    · obtain ⟨rfl, hc⟩ := hc
      obtain ⟨rfl, rfl⟩ := Prod.mk.inj hc
      rw [← Option.some.inj hi']
      refine covers_popItems_incoming law hsup (fun item hitem => hcov₃ item ?_)
        fun i' hi₁ item hitem => ?_
      · exact List.mem_flatMap.2 ⟨(x, s), (VecMap.mem_entries_iff _ _ _).2 hx, hitem⟩
      · exact hg₃.stored _ _ (hg₂.stored _ _ (hl₁ _ _ _ i' x s hi₁ hx item hitem))
    · exact fun item hitem => hg₃.stored _ _ (hg₂.stored _ _ (hl₁ _ _ _ i x s hi' hx item hitem))
  rw [hS₃]
  exact ⟨⟨hg₁.trans (hg₂.trans hg₃), hs₂.propagateAll hsup hreached, hl₃⟩,
    hg₃.stored _ _ (hg₂.stored _ _ hcov₁), hg₃.incoming _ _ _ hcov₂⟩

/-- The end of a path edge: its summary is recorded and applied to the calls of its source. -/
theorem kept_processPop (hs : SoundState RP SR S) (hl : Linked RP SR S) {src x : Node CL SE} {w : W}
    (hw : w ∈ Deduction.Reached (rules RP SR) (Dropped W) (src, x)) :
    Kept RP SR S (processPop RP SR S src x w) ∧
      (RP.hasPopRules x = true → Covers (((processPop RP SR S src x w).endSummary src).get? x) w) := by
  by_cases hpop : RP.hasPopRules x = true
  · rcases addEndSummary_cases hsup S src x w with ⟨heq, hcov⟩ | heq
    · have hS' : processPop RP SR S src x w = S := by simp [processPop, hpop, heq]
      rw [hS']
      exact ⟨⟨Grows.refl S, hs, hl⟩, fun _ => hcov⟩
    · set S₁ := S.setEndSummary src x (joinInto ((S.endSummary src).get? x) w) with hS₁
      set items := (S₁.incoming src).entries.flatMap fun inc =>
        popItems RP SR src inc.1.1 inc.1.2 inc.2 x w with hitems
      have hS' : processPop RP SR S src x w = propagateAll SR S₁ items := by
        simp [processPop, hpop, heq, hitems, hS₁]
      have hsum := endSummary_setEndSummary S src x (joinInto ((S.endSummary src).get? x) w)
      have hg₁ : Grows S S₁ := by
        refine Grows.of_tables rfl rfl (fun _ _ _ h => h) fun n y e h => ?_
        rw [hS₁, hsum]
        split_ifs with hc
        · obtain ⟨rfl, rfl⟩ := hc
          obtain ⟨v, hv, hle⟩ := h
          exact ⟨_, rfl, hle.trans (some_le_joinInto hv w)⟩
        · exact h
      have hs₁ : SoundState RP SR S₁ := by
        refine ⟨hs.stored, hs.workList, hs.incoming, fun n y s hy => ?_⟩
        rw [hS₁, hsum] at hy
        split_ifs at hy with hc
        · obtain ⟨rfl, rfl⟩ := hc
          refine ⟨hpop, ?_⟩
          cases hold : (S.endSummary n).get? y with
          | none =>
            rw [hold, joinInto, Option.some.injEq] at hy
            exact hy ▸ hw
          | some s' =>
            rw [hold, joinInto, Option.some.injEq] at hy
            exact hy ▸ reached_sup (hs.endSummary n y s' hold).2 hw
        · exact hs.endSummary n y s hy
      have hreached : ∀ item ∈ items, item.2 ∈ Deduction.Reached (rules RP SR) (Dropped W) item.1 := by
        intro item hitem
        obtain ⟨⟨⟨csSrc, ret⟩, i⟩, hi, hitem⟩ := List.mem_flatMap.1 hitem
        exact mem_reached_popItems law hsup
          (hs.incoming src csSrc ret i ((VecMap.mem_entries_iff _ _ _).1 hi)) hpop hw
          item hitem
      obtain ⟨hg₂, hcov₂⟩ := propagateAll_grows hsup S₁ items
      -- the new summary meets the calls of its source, an old one met them before
      have hl₂ : Linked RP SR (propagateAll SR S₁ items) := by
        intro entry csSrc ret i y s hi hy
        rw [propagateAll_incoming] at hi
        rw [propagateAll_endSummary] at hy
        rw [hS₁, hsum] at hy
        split_ifs at hy with hc
        · obtain ⟨rfl, rfl⟩ := hc
          rw [← Option.some.inj hy]
          refine covers_popItems_endSummary law hsup (fun item hitem => hcov₂ item ?_)
            fun s' hs' item hitem => ?_
          · exact List.mem_flatMap.2 ⟨((csSrc, ret), i), (VecMap.mem_entries_iff _ _ _).2 hi, hitem⟩
          · exact hg₂.stored _ _ (hl _ _ _ i y s' hi hs' item hitem)
        · exact fun item hitem => hg₂.stored _ _ (hl _ _ _ i y s hi hy item hitem)
      rw [hS']
      refine ⟨⟨hg₁.trans hg₂, hs₁.propagateAll hsup hreached, hl₂⟩, fun _ => ?_⟩
      rw [propagateAll_endSummary]
      rw [hS₁, hsum, if_pos ⟨rfl, rfl⟩]
      exact ⟨_, rfl, le_joinInto _ _⟩
  · have hS' : processPop RP SR S src x w = S := by simp [processPop, hpop]
    rw [hS']
    exact ⟨⟨Grows.refl S, hs, hl⟩, fun h => absurd h hpop⟩

end Calls

/-! ### Rounds -/

/-- The rules have been applied to the weight `v` of a path edge. -/
structure Processed (RP : RuleProvider CL SE W) (SR : SemiRing W) (S : WPDSSolver CL SE W)
    (k : PathEdge CL SE)
    (v : W) : Prop where
  flow : ∀ k' f, Flow RP SR k k' f → Covers (S.stored k') (f v)
  incoming : ∀ push ∈ pushes RP k.2,
    Covers ((S.incoming (push.2, push.1.entrySE)).get? (k.1, push.1.retSite)) (SR.extend v push.1.weight)
  endSummary : RP.hasPopRules k.2 = true → Covers ((S.endSummary k.1).get? k.2) v

theorem Processed.grows {S S' : WPDSSolver CL SE W} {k : PathEdge CL SE} {v : W}
    (h : Processed RP SR S k v)
    (hg : Grows S S') : Processed RP SR S' k v :=
  ⟨fun k' f hf => hg.stored _ _ (h.flow k' f hf), fun push hp => hg.incoming _ _ _ (h.incoming push hp),
    fun hpop => hg.endSummary _ _ _ (h.endSummary hpop)⟩

/-- The weight of each path edge is on the work list or processed. -/
def Served (RP : RuleProvider CL SE W) (SR : SemiRing W) (S : WPDSSolver CL SE W) : Prop :=
  ∀ k v, S.stored k = some v → (k, v) ∈ S.workList ∨ Processed RP SR S k v

theorem Served.grows {S S' : WPDSSolver CL SE W} (h : Served RP SR S) (hg : Grows S S') :
    Served RP SR S' := by
  intro k v hv
  rcases hg.changed k v hv with hv | hv
  · exact (h k v hv).imp (hg.workList _) (·.grows hg)
  · exact Or.inl hv

structure Inv (RP : RuleProvider CL SE W) (SR : SemiRing W) (S : WPDSSolver CL SE W) : Prop where
  sound : SoundState RP SR S
  linked : Linked RP SR S
  served : Served RP SR S
  seeds : ∀ seed ∈ RP.initialSeeds, Covers (S.stored (seed.1, seed.1)) SR.identity

theorem inv_empty : SoundState RP SR (empty : WPDSSolver CL SE W) ∧
    Linked RP SR (empty : WPDSSolver CL SE W) ∧
    Served RP SR (empty : WPDSSolver CL SE W) := by
  refine ⟨⟨?_, ?_, ?_, ?_⟩, ?_, ?_⟩
  · intro k e h
    cases h
  · intro k w h
    cases h
  · intro entry csSrc ret i h
    cases h
  · intro src x s h
    cases h
  · intro entry csSrc ret i x s h
    cases h
  · intro k v h
    cases h

section Round

variable {S S' : WPDSSolver CL SE W} (law : SR.Lawful) (hsup : ∀ a b, SR.combine a b = a ⊔ b)

include law hsup

/-- **A round applies the rules to the weight it takes.** -/
theorem kept_processPathEdge (hs : SoundState RP SR S) (hl : Linked RP SR S) {k : PathEdge CL SE} {w : W}
    (hw : w ∈ Deduction.Reached (rules RP SR) (Dropped W) k) :
    Kept RP SR S (processPathEdge RP SR S k w) ∧ Processed RP SR (processPathEdge RP SR S k w) k w := by
  obtain ⟨src, n⟩ := k
  set S₁ := propagateAll SR S ((RP.getNormalRules n).map fun rule =>
    ((src, rule.1), SR.extend w rule.2)) with hS₁
  set S₂ := (pushes RP n).foldl (processPush RP SR src w) S₁ with hS₂
  -- the normal rules
  obtain ⟨hk₁, hcov₁⟩ := kept_propagateAll hsup hs hl
    ((RP.getNormalRules n).map fun rule => ((src, rule.1), SR.extend w rule.2)) (fun item hitem => by
      obtain ⟨⟨n', v⟩, hrule, rfl⟩ := List.mem_map.1 hitem
      exact mem_reached_flow law hsup (.normal hrule) hw)
  -- the push rules
  obtain ⟨hk₂, hcov₂⟩ := LoopRule.foldl_establish (f := processPush RP SR src w) (I := Kept RP SR S₁)
    (Q := fun push s => Covers
      (s.stored ((push.2, push.1.entrySE), (push.1.succFact, push.1.entrySE))) SR.identity ∧
      Covers ((s.incoming (push.2, push.1.entrySE)).get? (src, push.1.retSite))
        (SR.extend w push.1.weight))
    (pushes RP n)
    (fun push hp s hs' => by
      obtain ⟨hk, hentry, hcall⟩ := kept_processPush law hsup hs'.sound hs'.linked hw hp
      exact ⟨hs'.trans hk, hentry, hcall⟩)
    (fun push hp push' _ s hs' hq => by
      obtain ⟨hk, -⟩ := kept_processPush law hsup hs'.sound hs'.linked hw hp
      exact ⟨hk.grows.stored _ _ hq.1, hk.grows.incoming _ _ _ hq.2⟩)
    (s := S₁) ⟨Grows.refl S₁, hk₁.sound, hk₁.linked⟩
  -- the pop rules
  obtain ⟨hk₃, hcov₃⟩ := kept_processPop law hsup (S := S₂) hk₂.sound hk₂.linked hw
  refine ⟨hk₁.trans (hk₂.trans hk₃), fun k' f hf => ?_,
    fun push hp => hk₃.grows.incoming _ _ _ (hcov₂ push hp).2, hcov₃⟩
  cases hf with
  | normal hrule =>
    exact (hk₂.trans hk₃).grows.stored _ _ (hcov₁ _ (List.mem_map.2 ⟨_, hrule, rfl⟩))
  | push hp => exact hk₃.grows.stored _ _ (hcov₂ _ hp).1

theorem inv_step (hi : Inv RP SR S) (hstep : Step RP SR S S') :
    Inv RP SR S' ∧ (withBot S.stored < withBot S'.stored ∨
      (withBot S.stored = withBot S'.stored ∧ S'.workList.length < S.workList.length)) := by
  obtain ⟨l, r, k, w, hwl, rfl⟩ := hstep
  have hw : w ∈ Deduction.Reached (rules RP SR) (Dropped W) k := hi.sound.workList k w (by simp [hwl])
  set S₀ : WPDSSolver CL SE W := { S with workList := l ++ r } with hS₀
  have hs₀ : SoundState RP SR S₀ := by
    refine ⟨hi.sound.stored,
      fun k' w' hmem => hi.sound.workList k' w' ?_, hi.sound.incoming, hi.sound.endSummary⟩
    rw [hwl]
    exact (List.mem_append.1 hmem).elim (List.mem_append_left _) fun h =>
      List.mem_append_right _ (List.mem_cons_of_mem _ h)
  obtain ⟨hk, hp⟩ := kept_processPathEdge law hsup hs₀ (show Linked RP SR S₀ from hi.linked) hw
  refine ⟨⟨hk.sound, hk.linked, fun k' v hv => ?_,
    fun seed hseed => hk.grows.stored _ _ (hi.seeds seed hseed)⟩, ?_⟩
  · rcases hk.grows.changed k' v hv with hv | hv
    · rcases hi.served k' v hv with hmem | hdone
      · rw [hwl] at hmem
        rcases List.mem_append.1 hmem with hmem | hmem
        · exact Or.inl (hk.grows.workList _ (List.mem_append_left _ hmem))
        · rcases List.mem_cons.1 hmem with heq | hmem
          · obtain ⟨rfl, rfl⟩ := Prod.mk.inj heq
            exact Or.inr hp
          · exact Or.inl (hk.grows.workList _ (List.mem_append_right _ hmem))
      · have hdone₀ : Processed RP SR S₀ k' v := ⟨hdone.flow, hdone.incoming, hdone.endSummary⟩
        exact Or.inr (hdone₀.grows hk.grows)
    · exact Or.inl hv
  · rcases hk.grows.progress with ⟨hsame, hshort⟩ | hlt
    · refine Or.inr ⟨by rw [hsame]; rfl, ?_⟩
      have hlen : (processPathEdge RP SR S₀ k w).workList.length = (l ++ r).length := congrArg _ hshort
      rw [hlen, hwl]
      simp
    · exact Or.inl hlt

theorem inv_submitInitialSeeds : Inv RP SR (submitInitialSeeds RP SR) := by
  obtain ⟨⟨hs, hl, hserved⟩, hseeds⟩ := LoopRule.foldl_establish (f := submitSeed SR)
    (I := fun S => SoundState RP SR S ∧ Linked RP SR S ∧ Served RP SR S)
    (Q := fun seed S => Covers (S.stored (seed.1, seed.1)) SR.identity) RP.initialSeeds
    (fun seed hseed S hS => by
      obtain ⟨hs, hl, hserved⟩ := hS
      obtain ⟨hg, hcov⟩ := propagate_grows hsup S (seed.1, seed.1) SR.identity
      have hs' : SoundState RP SR (propagate SR S (seed.1, seed.1) SR.identity) :=
        hs.propagate hsup (reached_of_deriv (.ax ⟨⟨seed.2, hseed⟩, rfl, rfl⟩ id))
      have hg' : Grows S (submitSeed SR S seed) :=
        hg.trans (Grows.of_tables rfl rfl (fun _ _ _ h => h) fun _ _ _ h => h)
      exact ⟨⟨⟨hs'.stored, hs'.workList, hs'.incoming, hs'.endSummary⟩,
        hl.grows hg' (propagate_incoming S _ _) (propagate_endSummary S _ _), hserved.grows hg'⟩, hcov⟩)
    (fun seed _ seed' _ S _ hcov => by
      have hg := (propagate_grows hsup S (seed.1, seed.1) SR.identity).1
      exact hg.stored _ _ hcov)
    (s := empty) inv_empty
  exact ⟨hs, hl, hserved, hseeds⟩

theorem inv_of_reachable (h : Reachable RP SR S) : Inv RP SR S := by
  induction h with
  | init => exact inv_submitInitialSeeds law hsup
  | step _ hstep ih => exact (inv_step law hsup ih hstep).1

/-- **With an empty work list the path edges are closed under the rules and sound.** -/
theorem exact_of_empty (h : Reachable RP SR S) (hempty : S.workList = []) :
    Closed (rules RP SR) (Dropped W) S.stored ∧ Sound (rules RP SR) (Dropped W) S.stored := by
  have hi := inv_of_reachable law hsup h
  have hdone : ∀ {k v}, S.stored k = some v → Processed RP SR S k v := fun hv =>
    (hi.served _ _ hv).resolve_left (by simp [hempty])
  refine ⟨⟨?_, fun hf hk _ => (hdone hk).flow _ _ hf, ?_⟩, hi.sound.stored⟩
  · rintro ⟨src, n⟩ e ⟨⟨w, hseed⟩, hn, rfl⟩ -
    obtain rfl : n = src := hn
    exact hi.seeds _ hseed
  · rintro _ _ _ _ e₁ e₂ ⟨hp, hpop, hmem⟩ h₁ h₂ -
    obtain ⟨i, hin, hle₁⟩ := (hdone h₁).incoming _ hp
    obtain ⟨s, hsum, hle₂⟩ := (hdone h₂).endSummary hpop
    refine (hi.linked _ _ _ i _ s hin hsum _ (List.mem_map.2 ⟨_, hmem, rfl⟩)).mono ?_
    -- the table of calls and the table of summaries are above the two premises
    have hmono : ∀ a a' b b', a ≤ a' → b ≤ b' → SR.extend a b ≤ SR.extend a' b' := by
      intro a a' b b' ha hb
      have h₁ : SR.extend a b ≤ SR.extend a' b := by
        rw [← sup_of_le_right ha, ← hsup, law.combine_extend, hsup]
        exact le_sup_left
      refine h₁.trans ?_
      rw [← sup_of_le_right hb, ← hsup, law.extend_combine, hsup]
      exact le_sup_left
    exact hmono _ _ _ _ (hmono _ _ _ _ hle₁ hle₂) le_rfl

variable [Finite CL] [Finite SE] [WellFoundedGT W]

/-- No run is infinite. -/
theorem acc_step (h : Reachable RP SR S) : Acc (fun S' S => Step RP SR S S') S := by
  have hwf : WellFounded fun S' S : {S : WPDSSolver CL SE W // Inv RP SR S} => Step RP SR S.1 S'.1 :=
    wellFounded_of_progress (fun S => withBot S.1.stored) (fun S => S.1.workList.length)
      fun S S' hstep => (inv_step law hsup S.2 hstep).2
  have key : ∀ T : {S : WPDSSolver CL SE W // Inv RP SR S}, Acc (fun S' S => Step RP SR S S') T.1 := by
    intro T
    induction T using hwf.induction with
    | _ T ih => exact Acc.intro _ fun S' hstep => ih ⟨S', (inv_step law hsup T.2 hstep).1⟩ hstep
  exact key ⟨S, inv_of_reachable law hsup h⟩

end Round

end Phasar.WPDS.WPDSSolver
