import Phasar.IfdsIde.JumpFunctions

/-!
# Removing jump functions

`JumpFunctions` under any sequence of its operations. `removeFunction` erases what
`NonEmptyLookupByTargetNode` has for the node, not only the record to be removed.

* `JumpFunctions.removeFunction`, `clear`, `Op`;
* `InStep`: the three indexes hold the same records;
* `Synced.removeFunction`: a removal needs that the node has no other record;
* `run_inStep_iff`: the indexes stay in step through a run.
-/

namespace Phasar.JumpFunctions

variable {N D E : Type*} [DecidableEq N] [DecidableEq D]

/-- Erase the record from the first two indexes, and the node from the third. -/
def removeFunction (JF : JumpFunctions N D E) (sourceVal : D) (target : N) (targetVal : D) :
    JumpFunctions N D E where
  nonEmptyReverseLookup :=
    JF.nonEmptyReverseLookup.modify target targetVal (·.filterKeys (· ≠ sourceVal))
  nonEmptyForwardLookup :=
    JF.nonEmptyForwardLookup.modify sourceVal target (·.filterKeys (· ≠ targetVal))
  nonEmptyLookupByTargetNode := Function.update JF.nonEmptyLookupByTargetNode target .empty

def clear (_ : JumpFunctions N D E) : JumpFunctions N D E := empty

/-- The operations that change the store. -/
inductive Op (N D E : Type*)
  | addFunction (sourceVal : D) (target : N) (targetVal : D) (edgeFunc : E)
  | removeFunction (sourceVal : D) (target : N) (targetVal : D)
  | clear

def apply (isAllTop : E → Bool) (JF : JumpFunctions N D E) : Op N D E → JumpFunctions N D E
  | .addFunction d₁ n d₂ f => JF.addFunction isAllTop d₁ n d₂ f
  | .removeFunction d₁ n d₂ => JF.removeFunction d₁ n d₂
  | .clear => JF.clear

def run (isAllTop : E → Bool) (ops : List (Op N D E)) : JumpFunctions N D E :=
  ops.foldl (apply isAllTop) empty

/-! ### The records of the three indexes -/

def reverseRecords (JF : JumpFunctions N D E) : Set (PathEdge N D × E) :=
  {r | (r.1.dSource, r.2) ∈ (JF.reverseLookup r.1.target r.1.dTarget).entries}

def forwardRecords (JF : JumpFunctions N D E) : Set (PathEdge N D × E) :=
  {r | (r.1.dTarget, r.2) ∈ (JF.forwardLookup r.1.dSource r.1.target).entries}

def targetRecords (JF : JumpFunctions N D E) : Set (PathEdge N D × E) :=
  {r | ((r.1.dSource, r.1.dTarget), r.2) ∈ (JF.lookupByTarget r.1.target).entries}

/-- The indexes hold the same records, at most one for each path edge. -/
structure InStep (JF : JumpFunctions N D E) : Prop where
  forward : JF.forwardRecords = JF.reverseRecords
  byTarget : JF.targetRecords = JF.reverseRecords
  unique : ∀ {k e e'}, (k, e) ∈ JF.reverseRecords → (k, e') ∈ JF.reverseRecords → e = e'

/-- The indexes of `JF'` are those of `JF` without the record of `k`. -/
structure Removed (k : PathEdge N D) (JF JF' : JumpFunctions N D E) : Prop where
  reverse : JF'.reverseRecords = {r ∈ JF.reverseRecords | r.1 ≠ k}
  forward : JF'.forwardRecords = {r ∈ JF.forwardRecords | r.1 ≠ k}
  byTarget : JF'.targetRecords = {r ∈ JF.targetRecords | r.1 ≠ k}

variable {JF : JumpFunctions N D E} {isAllTop : E → Bool}

omit [DecidableEq N] in
theorem mem_reverseRecords {k : PathEdge N D} {e : E} :
    (k, e) ∈ JF.reverseRecords ↔ JF.stored k = some e :=
  mem_reverseLookup

omit [DecidableEq N] in
theorem mem_forwardRecords {k : PathEdge N D} {e : E} :
    (k, e) ∈ JF.forwardRecords ↔ (JF.forwardLookup k.dSource k.target).get? k.dTarget = some e :=
  VecMap.mem_entries_iff _ _ _

omit [DecidableEq N] in
theorem mem_targetRecords {k : PathEdge N D} {e : E} : (k, e) ∈ JF.targetRecords ↔
    (JF.lookupByTarget k.target).get? (k.dSource, k.dTarget) = some e :=
  VecMap.mem_entries_iff _ _ _

omit [DecidableEq N] in
/-- The indexes agree as tables exactly if they have the same records. -/
theorem Synced.inStep (h : Synced isAllTop JF) : InStep JF where
  forward := by
    ext ⟨k, e⟩
    rw [mem_forwardRecords, mem_reverseRecords, h.forward]
  byTarget := by
    ext ⟨k, e⟩
    rw [mem_targetRecords, mem_reverseRecords, h.byTarget]
  unique h₁ h₂ :=
    Option.some.inj ((mem_reverseRecords.1 h₁).symm.trans (mem_reverseRecords.1 h₂))

theorem stored_removeFunction (k k' : PathEdge N D) :
    (JF.removeFunction k.dSource k.target k.dTarget).stored k' =
      if k' = k then none else JF.stored k' := by
  obtain ⟨d₁, n, d₂⟩ := k
  obtain ⟨d₁', n', d₂'⟩ := k'
  simp only [stored, reverseLookup, removeFunction, Table.modify, PathEdge.mk.injEq]
  by_cases h : n' = n ∧ d₂' = d₂
  · obtain ⟨rfl, rfl⟩ := h
    by_cases hd : d₁' = d₁ <;> simp [VecMap.get?_filterKeys, hd]
  · rw [if_neg h, if_neg (by tauto)]

theorem forward_removeFunction (k k' : PathEdge N D) :
    ((JF.removeFunction k.dSource k.target k.dTarget).forwardLookup k'.dSource k'.target).get?
      k'.dTarget = if k' = k then none else (JF.forwardLookup k'.dSource k'.target).get?
        k'.dTarget := by
  obtain ⟨d₁, n, d₂⟩ := k
  obtain ⟨d₁', n', d₂'⟩ := k'
  simp only [forwardLookup, removeFunction, Table.modify, PathEdge.mk.injEq]
  by_cases h : d₁' = d₁ ∧ n' = n
  · obtain ⟨rfl, rfl⟩ := h
    by_cases hd : d₂' = d₂ <;> simp [VecMap.get?_filterKeys, hd]
  · rw [if_neg h, if_neg (by tauto)]

/-- The third index loses every record of the node. -/
theorem byTarget_removeFunction (k k' : PathEdge N D) :
    ((JF.removeFunction k.dSource k.target k.dTarget).lookupByTarget k'.target).get?
      (k'.dSource, k'.dTarget) = if k'.target = k.target then none
        else (JF.lookupByTarget k'.target).get? (k'.dSource, k'.dTarget) := by
  rw [lookupByTarget, removeFunction]
  dsimp only
  by_cases h : k'.target = k.target
  · rw [h, Function.update_self, if_pos rfl, VecMap.get?_empty]
  · rw [Function.update_of_ne h, if_neg h]
    rfl

/-- The store has no other record of the node of `k`. -/
def OnlyRecord (JF : JumpFunctions N D E) (k : PathEdge N D) : Prop :=
  ∀ r ∈ JF.reverseRecords, r.1.target = k.target → r.1 = k

/-- **A removal needs that the node has no other record**; otherwise the third index loses it. -/
theorem Synced.removeFunction (h : Synced isAllTop JF) {k : PathEdge N D} (hk : OnlyRecord JF k) :
    Synced isAllTop (JF.removeFunction k.dSource k.target k.dTarget) where
  forward k' := by rw [forward_removeFunction, stored_removeFunction, h.forward]
  byTarget k' := by
    rw [byTarget_removeFunction, stored_removeFunction, h.byTarget]
    by_cases hn : k'.target = k.target
    · rw [if_pos hn]
      by_cases heq : k' = k
      · rw [if_pos heq]
      · rw [if_neg heq]
        cases hs : JF.stored k' with
        | none => rfl
        | some e => exact absurd (hk (k', e) (mem_reverseRecords.2 hs) hn) heq
    · rw [if_neg hn, if_neg fun heq => hn (congrArg PathEdge.target heq)]
  not_allTop {k' e} hs := by
    rw [stored_removeFunction] at hs
    split_ifs at hs
    exact h.not_allTop hs

theorem Synced.removed (h : Synced isAllTop JF) {k : PathEdge N D} (hk : OnlyRecord JF k) :
    Removed k JF (JF.removeFunction k.dSource k.target k.dTarget) := by
  have hreverse : (JF.removeFunction k.dSource k.target k.dTarget).reverseRecords =
      {r ∈ JF.reverseRecords | r.1 ≠ k} := by
    ext ⟨k', e⟩
    rw [mem_reverseRecords, stored_removeFunction, Set.mem_sep_iff, mem_reverseRecords]
    by_cases heq : k' = k <;> simp [heq]
  have hstep := (h.removeFunction hk).inStep
  exact ⟨hreverse, by rw [hstep.forward, h.inStep.forward, hreverse],
    by rw [hstep.byTarget, h.inStep.byTarget, hreverse]⟩

theorem onlyRecord_of_removed (h : InStep JF) {k : PathEdge N D}
    (hr : Removed k JF (JF.removeFunction k.dSource k.target k.dTarget)) : OnlyRecord JF k := by
  rintro ⟨k', e⟩ hmem htarget
  by_contra hne
  have hkept : (k', e) ∈ (JF.removeFunction k.dSource k.target k.dTarget).targetRecords := by
    rw [hr.byTarget, h.byTarget]
    exact ⟨hmem, hne⟩
  rw [mem_targetRecords, byTarget_removeFunction, if_pos htarget] at hkept
  cases hkept

/-! ### Runs -/

theorem run_concat (ops : List (Op N D E)) (op : Op N D E) :
    run isAllTop (ops ++ [op]) = apply isAllTop (run isAllTop ops) op := by
  rw [run, run, List.foldl_append, List.foldl_cons, List.foldl_nil]

/-- Every removal of a run finds no other record of its node. -/
def RemovesOnly (isAllTop : E → Bool) (ops : List (Op N D E)) : Prop :=
  ∀ pre k, pre ++ [.removeFunction k.dSource k.target k.dTarget] <+: ops →
    OnlyRecord (run isAllTop pre) k

theorem synced_run {ops : List (Op N D E)} (h : RemovesOnly isAllTop ops) :
    Synced isAllTop (run isAllTop ops) := by
  induction ops using List.reverseRecOn with
  | nil => exact .empty
  | append_singleton ops op ih =>
    have hs := ih fun pre k hpre => h pre k (hpre.trans (List.prefix_append ops [op]))
    rw [run_concat]
    cases op with
    | addFunction d₁ n d₂ f => exact hs.addFunction ⟨d₁, n, d₂⟩ f
    | removeFunction d₁ n d₂ => exact hs.removeFunction (h ops ⟨d₁, n, d₂⟩ List.prefix_rfl)
    | clear => exact .empty

/-- **The indexes stay in step**, and each removal takes one record from all of them, exactly if every
removal finds no other record of its node. -/
theorem run_inStep_iff (isAllTop : E → Bool) (ops : List (Op N D E)) :
    ((∀ pre, pre <+: ops → InStep (run isAllTop pre)) ∧
      ∀ pre k, pre ++ [.removeFunction k.dSource k.target k.dTarget] <+: ops →
        Removed k (run isAllTop pre)
          (run isAllTop (pre ++ [.removeFunction k.dSource k.target k.dTarget]))) ↔
    ∀ pre k, pre ++ [.removeFunction k.dSource k.target k.dTarget] <+: ops →
      ∀ r ∈ (run isAllTop pre).reverseRecords, r.1.target = k.target → r.1 = k := by
  constructor
  · rintro ⟨hstep, hremoved⟩ pre k hpre
    have hr := hremoved pre k hpre
    rw [run_concat] at hr
    exact onlyRecord_of_removed (hstep pre ((List.prefix_append ..).trans hpre)) hr
  · intro h
    have hsynced : ∀ pre, pre <+: ops → Synced isAllTop (run isAllTop pre) :=
      fun pre hpre => synced_run fun pre' k hpre' => h pre' k (hpre'.trans hpre)
    refine ⟨fun pre hpre => (hsynced pre hpre).inStep, fun pre k hpre => ?_⟩
    rw [run_concat]
    exact (hsynced pre ((List.prefix_append ..).trans hpre)).removed (h pre k hpre)

/-- Two records of a node, of which one is removed. -/
theorem removeFunction_drops :
    ¬ ∀ ops : List (Op Unit Bool Unit), InStep (run (fun _ => false) ops) := by
  intro h
  have hstep := h [.addFunction true () true (), .addFunction false () true (),
    .removeFunction true () true]
  have hmem : ((⟨false, (), true⟩ : PathEdge Unit Bool), ()) ∈ (run (fun _ => false)
      [.addFunction true () true (), .addFunction false () true (),
        .removeFunction true () true]).reverseRecords :=
    List.mem_singleton.2 rfl
  rw [← hstep.byTarget] at hmem
  exact absurd hmem List.not_mem_nil

end Phasar.JumpFunctions
