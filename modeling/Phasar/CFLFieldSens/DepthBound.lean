import Mathlib.Data.Set.Finite.List
import Mathlib.Order.OrderIsoNat
import Phasar.CFLFieldSens.EdgeFunctions

/-!
# The depth of access paths

The limit on the depth is a test for equality, so it holds for all paths as soon as it holds for the
paths that the edge functions of instructions start with. Those of stores may start above it.

* `Flow`, `Produced`: the edge functions that a problem's instructions give rise to;
* `DepthLe`, `depthLe_extend`, `depthLe_combine`: the depth of the paths of an edge function;
* `finite_depthLe`, the order of `combine`: why a fixpoint ends;
* `infinite_produced`: a store that starts above the limit grows forever;
* `depth_bounded_iff`: the depth is bounded exactly where no store starts above the limit.
-/

namespace Phasar.CFLFieldSens

/-- The edge functions that are built for instructions. -/
inductive Flow (V : Type*)
  | store (a : StoreArgs V)
  | load (isPointer : Bool) (offset : ℤ)
  | gep (offset : ℤ)
  | kill (offset : ℤ)
  | epsilon
  | edgeIdentity
  | allTop
  | allBottom

variable {V : Type*} [DecidableEq V]

namespace Flow

def edgeFunction (ir : LoadChains V) (depthKLimit : ℕ) : Flow V → EdgeFunction
  | store a => getStoreEdgeFunction ir depthKLimit a
  | load isPointer offset => getLoadEdgeFunction isPointer offset
  | gep offset => gepEdgeFunction offset
  | kill offset => killEdgeFunction offset
  | epsilon => .transform {.epsilon}
  | edgeIdentity => .edgeIdentity
  | allTop => .allTop
  | allBottom => .allBottom

/-- The fact is not stored over as many dereferences as the limit allows stores. -/
def Good (ir : LoadChains V) (depthKLimit : ℕ) : Flow V → Prop
  | store a =>
    a.isValueCurrNode → a.currNode ≠ a.succNode →
      (walkLoadChainTo ir a.succNode depthKLimit a.basePtr).1 →
        (walkLoadChainTo ir a.succNode depthKLimit a.basePtr).2.length < depthKLimit
  | _ => True

end Flow

/-- The edge functions that extending and combining produce from those of a problem. -/
inductive Produced (intersectKills : Paths → KillSet) (ir : LoadChains V) (depthKLimit : ℕ)
    (flows : Set (Flow V)) : EdgeFunction → Prop
  | flow {f : Flow V} (hf : f ∈ flows) :
    Produced intersectKills ir depthKLimit flows (f.edgeFunction ir depthKLimit)
  | extend {l r : EdgeFunction} (hl : Produced intersectKills ir depthKLimit flows l)
    (hr : Produced intersectKills ir depthKLimit flows r) :
    Produced intersectKills ir depthKLimit flows (.extend intersectKills depthKLimit l r)
  | combine {l r : EdgeFunction} (hl : Produced intersectKills ir depthKLimit flows l)
    (hr : Produced intersectKills ir depthKLimit flows r) :
    Produced intersectKills ir depthKLimit flows (.combine l r)

/-- The depth of a path is within the limit. -/
def AccessPath.DepthLe (K : ℕ) (F : AccessPath) : Prop := F.stores.length ≤ K ∧ F.loads.length ≤ K

/-- The paths of an edge function. -/
def EdgeFunction.paths : EdgeFunction → Paths
  | transform paths => paths
  | _ => ∅

def EdgeFunction.DepthLe (K : ℕ) (ef : EdgeFunction) : Prop := ∀ F ∈ ef.paths, F.DepthLe K

/-! ### Steps -/

section Steps

variable {K : ℕ} {F G : AccessPath} {field : ℤ}

theorem depthLe_store (hK : 1 ≤ K) (h : F.DepthLe K) :
    (applyOneGepAndStore (some K) F field).DepthLe K := by
  refine ⟨?_, h.2⟩
  change (field :: if some K = some F.stores.length then F.stores.dropLast else F.stores).length ≤ K
  have hle := h.1
  split_ifs with hlen
  · rw [List.length_cons, List.length_dropLast, ← Option.some.inj hlen]
    omega
  · have hne : K ≠ F.stores.length := fun heq => hlen (congrArg some heq)
    rw [List.length_cons]
    omega

theorem depthLe_load (h : F.DepthLe K) (hG : applyOneGepAndLoad (some K) F field = some G) :
    G.DepthLe K := by
  obtain ⟨hs, hl⟩ := h
  cases hF : F.stores with
  | nil =>
    rw [applyOneGepAndLoad_nil hF] at hG
    split_ifs at hG with hkill hlim
    · cases hG
      exact ⟨hs, hl⟩
    · cases hG
      have hne : K ≠ F.loads.length := fun heq => hlim (congrArg some heq)
      exact ⟨hs, Nat.succ_le_of_lt (lt_of_le_of_ne hl (Ne.symm hne))⟩
  | cons head next =>
    rw [applyOneGepAndLoad_cons hF] at hG
    split_ifs at hG
    cases hG
    rw [hF, List.length_cons] at hs
    exact ⟨Nat.le_of_succ_le hs, hl⟩

theorem depthLe_kill (h : F.DepthLe K) (hG : applyOneGepAndKill F field = some G) :
    G.DepthLe K := by
  cases hF : F.stores with
  | nil =>
    rw [applyOneGepAndKill_nil hF, Option.some.injEq] at hG
    subst hG
    split_ifs <;> exact h
  | cons head next =>
    rw [applyOneGepAndKill_cons hF] at hG
    split_ifs at hG
    cases hG
    exact h

theorem depthLe_gep (h : F.DepthLe K) : (applyOneGep F field).DepthLe K := by
  cases hF : F.stores with
  | nil =>
    rw [applyOneGep_nil hF]
    exact h
  | cons head next =>
    rw [applyOneGep_cons hF]
    obtain ⟨hs, hl⟩ := h
    rw [hF] at hs
    exact ⟨hs, hl⟩

/-- What one step keeps, a sequence of them keeps. -/
theorem depthLe_foldlM {step : AccessPath → ℤ → Option AccessPath}
    (hstep : ∀ F field G, F.DepthLe K → step F field = some G → G.DepthLe K) {fields : List ℤ}
    (h : F.DepthLe K) (hG : fields.foldlM step F = some G) : G.DepthLe K := by
  induction fields generalizing F with
  | nil =>
    cases hG
    exact h
  | cons field fields ih =>
    obtain ⟨H, hH, hG⟩ := Option.bind_eq_some_iff.1 hG
    exact ih (hstep F field H h hH) hG

theorem depthLe_foldl_store (hK : 1 ≤ K) {fields : List ℤ} (h : F.DepthLe K) :
    (fields.foldl (applyOneGepAndStore (some K)) F).DepthLe K := by
  induction fields generalizing F with
  | nil => exact h
  | cons field fields ih => exact ih (depthLe_store hK h)

/-- A transform keeps the depth of the path it is applied to, whatever its own depth. -/
theorem depthLe_transform (hK : 1 ≤ K) {txn : AccessPath} (h : F.DepthLe K)
    (hG : applyTransformImpl (some K) F txn = some G) : G.DepthLe K := by
  obtain ⟨F₁, hF₁, hG⟩ := Option.bind_eq_some_iff.1 hG
  obtain ⟨F₂, hF₂, hG⟩ := Option.bind_eq_some_iff.1 hG
  cases hG
  have h₀ : (if txn.offset ≠ 0 then applyOneGep F txn.offset else F).DepthLe K := by
    split_ifs
    · exact depthLe_gep h
    · exact h
  have h₁ := depthLe_foldlM (fun _ _ _ => depthLe_load) h₀ hF₁
  have h₂ := depthLe_foldlM (fun _ _ _ => depthLe_kill) h₁ hF₂
  exact depthLe_foldl_store hK h₂

end Steps

/-! ### Edge functions -/

section EdgeFunctions

variable {K : ℕ} {intersectKills : Paths → KillSet}

theorem depthLe_applyTransforms (hK : 1 ≤ K) {EV txns : Paths} (hEV : ∀ F ∈ EV, F.DepthLe K)
    (htxns : ∀ F ∈ txns, F.DepthLe K) : ∀ F ∈ applyTransforms (some K) EV txns, F.DepthLe K := by
  intro F hF
  obtain ⟨txn, htxn, hF⟩ := Finset.mem_biUnion.1 hF
  rw [applyTransform] at hF
  split_ifs at hF with hempty heps
  · exact hEV F hF
  · rw [Finset.mem_singleton.1 hF]
    exact htxns txn htxn
  · obtain ⟨G, hG, hF⟩ := Finset.mem_biUnion.1 hF
    exact depthLe_transform hK (hEV G hG) (Option.mem_toFinset.1 hF)

@[simp] theorem length_forgetHead (l : List ℤ) : (forgetHead l).length = l.length := by
  cases l <;> rfl

/-- A pass of `klimitPaths` replaces paths by paths of the same depth. -/
theorem depthLe_pass {applies : AccessPath → Bool} {approx : AccessPath → AccessPath}
    {repr : AccessPath → Paths → AccessPath} {paths : Paths}
    (hrepr : ∀ F origPaths, F.DepthLe K → (repr (approx F) origPaths).DepthLe K)
    (h : ∀ F ∈ paths, F.DepthLe K) :
    ∀ F ∈ pass (mergePath applies approx repr) paths, F.DepthLe K := by
  intro F hF
  obtain ⟨G, hG, rfl⟩ := Finset.mem_image.1 hF
  rw [mergePath]
  split_ifs
  · exact hrepr G _ (h G hG)
  · exact h G hG

theorem depthLe_klimitPaths {paths : Paths} (h : ∀ F ∈ paths, F.DepthLe K) :
    ∀ F ∈ klimitPaths intersectKills paths, F.DepthLe K := by
  refine depthLe_pass (fun F _ hF => hF) <| depthLe_pass (fun F _ hF => ⟨hF.1, ?_⟩) <|
    depthLe_pass (fun F _ hF => hF) <| depthLe_pass (fun F _ hF => ⟨?_, hF.2⟩) h
  · rw [length_forgetHead]
    exact hF.2
  · rw [length_forgetHead]
    exact hF.1

namespace EdgeFunction

theorem depthLe_of_not_transform {ef : EdgeFunction} (h : ef.paths = ∅) : ef.DepthLe K := by
  intro F hF
  rw [h] at hF
  cases hF

theorem depthLe_extendPaths (hK : 1 ≤ K) {l r : Paths} (hl : ∀ F ∈ l, F.DepthLe K)
    (hr : ∀ F ∈ r, F.DepthLe K) : (extendPaths intersectKills K l r).DepthLe K := by
  have h := depthLe_applyTransforms hK hl hr
  rw [extendPaths]
  split_ifs
  · exact depthLe_of_not_transform rfl
  · dsimp only
    split_ifs
    · exact depthLe_of_not_transform rfl
    · exact depthLe_klimitPaths h
  · exact h

theorem depthLe_extend (hK : 1 ≤ K) {l r : EdgeFunction} (hl : l.DepthLe K) (hr : r.DepthLe K) :
    (extend intersectKills K l r).DepthLe K := by
  cases r with
  | edgeIdentity => cases l <;> exact hl
  | allTop => cases l <;> exact hr
  | allBottom => cases l <;> exact hr
  | transform r =>
    cases l with
    | edgeIdentity => exact hr
    | allTop => exact hl
    | allBottom => exact hl
    | transform l =>
      rw [extend]
      split_ifs
      · exact hl
      · exact depthLe_extendPaths hK hl hr

theorem depthLe_combinePaths {l r : Paths} (hl : ∀ F ∈ l, F.DepthLe K)
    (hr : ∀ F ∈ r, F.DepthLe K) : (combinePaths l r).DepthLe K := by
  have hunion : ∀ F ∈ l ∪ r, F.DepthLe K :=
    fun F hF => (Finset.mem_union.1 hF).elim (hl F) (hr F)
  rw [combinePaths]
  by_cases hcard : l.card < r.card
  · simp only [if_pos hcard]
    split_ifs
    · exact hr
    · exact depthLe_of_not_transform rfl
    · rw [Finset.union_comm]
      exact hunion
  · simp only [if_neg hcard]
    split_ifs
    · exact hl
    · exact depthLe_of_not_transform rfl
    · exact hunion

theorem depthLe_insert_epsilon {paths : Paths} (h : ∀ F ∈ paths, F.DepthLe K) :
    ∀ F ∈ insert AccessPath.epsilon paths, F.DepthLe K := by
  intro F hF
  rcases Finset.mem_insert.1 hF with rfl | hF
  · exact ⟨Nat.zero_le K, Nat.zero_le K⟩
  · exact h F hF

theorem depthLe_combine {l r : EdgeFunction} (hl : l.DepthLe K) (hr : r.DepthLe K) :
    (combine l r).DepthLe K := by
  cases r with
  | allBottom => cases l <;> exact hr
  | edgeIdentity =>
    cases l with
    | transform l => exact depthLe_insert_epsilon hl
    | _ => exact depthLe_of_not_transform rfl
  | allTop => cases l <;> exact hl
  | transform r =>
    cases l with
    | edgeIdentity => exact depthLe_insert_epsilon hr
    | allTop => exact hr
    | allBottom => exact hl
    | transform l => exact depthLe_combinePaths hl hr

end EdgeFunction

end EdgeFunctions

/-! ### Instructions -/

theorem length_walkLoadChainTo (ir : LoadChains V) (target : V) (maxDepth : ℕ) (cur : V) :
    (walkLoadChainTo ir target maxDepth cur).2.length ≤ maxDepth := by
  induction maxDepth generalizing cur with
  | zero => exact le_rfl
  | succ maxDepth ih =>
    unfold walkLoadChainTo
    by_cases hcur : cur = target
    · rw [if_pos hcur]
      exact Nat.zero_le _
    rw [if_neg hcur]
    cases ir.load cur with
    | none => exact Nat.zero_le _
    | some deref =>
      by_cases hcopy : ir.isCopyOf cur target
      · simp only [hcopy, if_true]
        exact Nat.zero_le _
      · simp only [hcopy]
        exact Nat.succ_le_succ (ih deref.2)

/-- Only a store may start above the limit, and then it does so by one. -/
theorem Flow.depthLe_iff {ir : LoadChains V} {K : ℕ} (hK : 1 ≤ K) (f : Flow V) :
    (f.edgeFunction ir K).DepthLe K ↔ f.Good ir K := by
  have hsingle : ∀ F : AccessPath, (EdgeFunction.transform {F}).DepthLe K ↔ F.DepthLe K :=
    fun F => ⟨fun h => h F (Finset.mem_singleton_self F),
      fun h G hG => Finset.mem_singleton.1 hG ▸ h⟩
  cases f with
  | store a =>
    have hlen := length_walkLoadChainTo ir a.succNode K a.basePtr
    rw [Flow.edgeFunction, getStoreEdgeFunction, Flow.Good]
    rcases hw : walkLoadChainTo ir a.succNode K a.basePtr with ⟨found, byteOffsets⟩
    rw [hw] at hlen
    dsimp only at hlen ⊢
    split_ifs with hkill hstore
    · rw [hsingle]
      exact iff_of_true ⟨Nat.zero_le K, Nat.zero_le K⟩ fun _ hne => absurd hkill.1 hne
    · rw [hsingle]
      have hdepth :
          (byteOffsets.map derefOffset ++ [a.offset]).length = byteOffsets.length + 1 := by
        rw [List.length_append, List.length_map, List.length_singleton]
      refine ⟨fun h _ _ _ => ?_, fun h => ⟨?_, Nat.zero_le K⟩⟩
      · have hle : (byteOffsets.map derefOffset ++ [a.offset]).length ≤ K := h.1
        rw [hdepth] at hle
        exact hle
      · change (byteOffsets.map derefOffset ++ [a.offset]).length ≤ K
        rw [hdepth]
        exact h hstore.1 hstore.2.1 hstore.2.2
    · exact iff_of_true (EdgeFunction.depthLe_of_not_transform rfl)
        fun hval hne hfound => absurd ⟨hval, hne, hfound⟩ hstore
  | load isPointer offset =>
    refine iff_of_true ?_ trivial
    rw [Flow.edgeFunction, getLoadEdgeFunction]
    split_ifs
    · exact (hsingle _).2 ⟨Nat.zero_le K, hK⟩
    · exact (hsingle _).2 ⟨Nat.zero_le K, hK⟩
  | gep offset => exact iff_of_true ((hsingle _).2 ⟨Nat.zero_le K, Nat.zero_le K⟩) trivial
  | kill offset => exact iff_of_true ((hsingle _).2 ⟨Nat.zero_le K, Nat.zero_le K⟩) trivial
  | epsilon => exact iff_of_true ((hsingle _).2 ⟨Nat.zero_le K, Nat.zero_le K⟩) trivial
  | edgeIdentity => exact iff_of_true (EdgeFunction.depthLe_of_not_transform rfl) trivial
  | allTop => exact iff_of_true (EdgeFunction.depthLe_of_not_transform rfl) trivial
  | allBottom => exact iff_of_true (EdgeFunction.depthLe_of_not_transform rfl) trivial

variable {intersectKills : Paths → KillSet} {ir : LoadChains V} {K : ℕ} {flows : Set (Flow V)}

theorem Produced.depthLe (hK : 1 ≤ K) (hgood : ∀ f ∈ flows, f.Good ir K) {ef : EdgeFunction}
    (h : Produced intersectKills ir K flows ef) : ef.DepthLe K := by
  induction h with
  | flow hf => exact (Flow.depthLe_iff hK _).2 (hgood _ hf)
  | extend _ _ ihl ihr => exact EdgeFunction.depthLe_extend hK ihl ihr
  | combine _ _ ihl ihr => exact EdgeFunction.depthLe_combine ihl ihr

/-! ### Finitely many edge functions -/

/-- All offsets of a path are among some offsets. -/
structure AccessPath.OffsetsIn (O : Finset ℤ) (F : AccessPath) : Prop where
  loads : ∀ x ∈ F.loads, x ∈ O
  stores : ∀ x ∈ F.stores, x ∈ O
  kills : ∀ x ∈ F.kills, x ∈ O
  offset : F.offset ∈ O

def EdgeFunction.OffsetsIn (O : Finset ℤ) (ef : EdgeFunction) : Prop :=
  ∀ F ∈ ef.paths, F.OffsetsIn O

theorem finite_lists (O : Finset ℤ) (K : ℕ) :
    {l : List ℤ | l.length ≤ K ∧ ∀ x ∈ l, x ∈ O}.Finite := by
  refine ((List.finite_length_le O K).image (List.map Subtype.val)).subset fun l hl => ?_
  refine ⟨l.attach.map fun x => ⟨x.1, hl.2 x.1 x.2⟩, ?_, ?_⟩
  · change (l.attach.map _).length ≤ K
    rw [List.length_map, List.length_attach]
    exact hl.1
  · rw [List.map_map]
    exact List.attach_map_subtype_val l

theorem finite_killSets (O : Finset ℤ) : {S : KillSet | ∀ x ∈ S, x ∈ O}.Finite := by
  refine Set.Finite.of_injOn (f := fun S => S.offsets.toFinset) (t := ↑O.powerset) ?_ ?_
    (Finset.finite_toSet _)
  · intro S hS
    rw [Finset.mem_coe, Finset.mem_powerset]
    exact fun x hx => hS x (List.mem_toFinset.1 hx)
  · intro S _ S' _ heq
    refine KillSet.ext fun x => ?_
    have hx := Finset.ext_iff.1 heq x
    rwa [List.mem_toFinset, List.mem_toFinset] at hx

theorem finite_paths (O : Finset ℤ) (K : ℕ) :
    {F : AccessPath | F.DepthLe K ∧ F.OffsetsIn O}.Finite := by
  have hlists := finite_lists O K
  refine Set.Finite.of_injOn (f := fun F => (F.loads, F.stores, F.kills, F.offset))
    (t := {l : List ℤ | l.length ≤ K ∧ ∀ x ∈ l, x ∈ O} ×ˢ
      ({l : List ℤ | l.length ≤ K ∧ ∀ x ∈ l, x ∈ O} ×ˢ ({S : KillSet | ∀ x ∈ S, x ∈ O} ×ˢ ↑O)))
    ?_ ?_ (hlists.prod (hlists.prod ((finite_killSets O).prod (Finset.finite_toSet O))))
  · rintro F ⟨hdepth, ho⟩
    exact ⟨⟨hdepth.2, ho.loads⟩, ⟨hdepth.1, ho.stores⟩, ho.kills, ho.offset⟩
  · rintro ⟨l, s, k, o⟩ _ ⟨l', s', k', o'⟩ _ heq
    simp only [Prod.mk.injEq] at heq
    obtain ⟨rfl, rfl, rfl, rfl⟩ := heq
    rfl

theorem finite_depthLe (O : Finset ℤ) (K : ℕ) :
    {ef : EdgeFunction | ef.DepthLe K ∧ ef.OffsetsIn O}.Finite := by
  obtain ⟨A, hA⟩ := (finite_paths O K).exists_finset
  refine ((A.powerset.finite_toSet.image EdgeFunction.transform).union
    (Set.toFinite {.edgeIdentity, .allTop, .allBottom})).subset ?_
  rintro ef ⟨hdepth, ho⟩
  cases ef with
  | edgeIdentity => exact Or.inr (by simp)
  | allTop => exact Or.inr (by simp)
  | allBottom => exact Or.inr (by simp)
  | transform paths =>
    refine Or.inl ⟨paths, ?_, rfl⟩
    rw [Finset.mem_coe, Finset.mem_powerset]
    exact fun F hF => (hA F).2 ⟨hdepth F hF, ho F hF⟩

/-! ### The order of `combine` -/

namespace EdgeFunction

/-- The order whose joins `combine` computes: below `AllBottom` an edge function has more paths, and
`EdgeIdentity` is the empty path. -/
protected def le : EdgeFunction → EdgeFunction → Prop
  | allTop, _ => True
  | _, allBottom => True
  | edgeIdentity, edgeIdentity => True
  | edgeIdentity, transform r => AccessPath.epsilon ∈ r
  | transform l, transform r => l ⊆ r
  | _, _ => False

instance : PartialOrder EdgeFunction where
  le := EdgeFunction.le
  le_refl ef := by
    cases ef with
    | transform paths => exact Finset.Subset.refl paths
    | _ => exact trivial
  le_trans l m r hlm hmr := by
    cases l <;> cases m <;> cases r <;>
      first
        | exact trivial
        | exact hlm
        | exact hmr
        | exact (hlm : False).elim
        | exact (hmr : False).elim
        | exact Finset.mem_of_subset hmr hlm
        | exact Finset.Subset.trans hlm hmr
  le_antisymm l r hlr hrl := by
    cases l <;> cases r <;>
      first
        | rfl
        | exact (hlr : False).elim
        | exact (hrl : False).elim
        | exact congrArg transform (Finset.Subset.antisymm hlr hrl)

theorem combinePaths_eq (l r : Paths) :
    combinePaths l r = allBottom ∨ combinePaths l r = transform (l ∪ r) := by
  rw [combinePaths]
  by_cases hcard : l.card < r.card
  · simp only [if_pos hcard]
    split_ifs with hsub
    · exact Or.inr (congrArg transform (Finset.union_eq_right.2 hsub).symm)
    · exact Or.inl rfl
    · exact Or.inr (congrArg transform (Finset.union_comm r l))
  · simp only [if_neg hcard]
    split_ifs with hsub
    · exact Or.inr (congrArg transform (Finset.union_eq_left.2 hsub).symm)
    · exact Or.inl rfl
    · exact Or.inr rfl

theorem le_combine (l r : EdgeFunction) : l ≤ combine l r := by
  cases l with
  | allTop => exact trivial
  | allBottom => cases r <;> exact trivial
  | edgeIdentity =>
    cases r with
    | transform r => exact Finset.mem_insert_self AccessPath.epsilon r
    | _ => exact trivial
  | transform l =>
    cases r with
    | allBottom => exact trivial
    | allTop => exact Finset.Subset.refl l
    | edgeIdentity => exact Finset.subset_insert AccessPath.epsilon l
    | transform r =>
      rw [combine]
      rcases combinePaths_eq l r with heq | heq
      · rw [heq]
        exact trivial
      · rw [heq]
        exact Finset.subset_union_left

end EdgeFunction

/-- A jump function that is only ever combined with others stops changing when it stays among
finitely many. -/
theorem combine_stops {S : Set EdgeFunction} (hS : S.Finite) {jump flow : ℕ → EdgeFunction}
    (hmem : ∀ n, jump n ∈ S) (hjump : ∀ n, jump (n + 1) = .combine (jump n) (flow n)) :
    ∃ N, ∀ n, N ≤ n → jump n = jump N := by
  have hle : ∀ n, jump n ≤ jump (n + 1) := by
    intro n
    rw [hjump n]
    exact EdgeFunction.le_combine _ _
  have : Finite S := hS
  let chain : ℕ →o S := ⟨fun n => ⟨jump n, hmem n⟩, monotone_nat_of_le_succ hle⟩
  obtain ⟨N, hN⟩ := WellFoundedGT.monotone_chain_condition chain
  exact ⟨N, fun n hn => (congrArg Subtype.val (hN n hn)).symm⟩

/-! ### Above the limit -/

/-- Stores above the limit are never truncated. -/
theorem foldl_store_above {F : AccessPath} (h : K < F.stores.length) (fields : List ℤ) :
    fields.foldl (applyOneGepAndStore (some K)) F =
      { F with stores := fields.reverse ++ F.stores } := by
  induction fields generalizing F with
  | nil => rfl
  | cons field fields ih =>
    have hstep : applyOneGepAndStore (some K) F field = { F with stores := field :: F.stores } := by
      have hne : some K ≠ some F.stores.length := fun heq => h.ne (Option.some.inj heq)
      rw [applyOneGepAndStore, if_neg hne]
    rw [List.foldl_cons, hstep, ih]
    · simp
    · exact Nat.lt_succ_of_lt h

theorem extend_stores_above {s t : List ℤ} (hs : K < s.length) (ht : t ≠ []) :
    EdgeFunction.extend intersectKills K (.transform {⟨[], s, .empty, 0⟩})
      (.transform {⟨[], t, .empty, 0⟩}) = .transform {⟨[], t ++ s, .empty, 0⟩} := by
  have happly : applyTransformImpl (some K) ⟨[], s, .empty, 0⟩ ⟨[], t, .empty, 0⟩ =
      some ⟨[], t ++ s, .empty, 0⟩ := by
    change some (t.reverse.foldl (applyOneGepAndStore (some K)) ⟨[], s, .empty, 0⟩) = _
    rw [foldl_store_above hs, List.reverse_reverse]
  have hs' : s ≠ [] := List.ne_nil_of_length_pos (Nat.zero_lt_of_lt hs)
  have htransforms : applyTransforms (some K) {⟨[], s, .empty, 0⟩} {⟨[], t, .empty, 0⟩} =
      {⟨[], t ++ s, .empty, 0⟩} := by
    rw [applyTransforms, Finset.singleton_biUnion, applyTransform]
    simp [AccessPath.empty, AccessPath.epsilon, isEpsilon, happly, hs', ht]
  rw [EdgeFunction.extend, EdgeFunction.extendPaths, htransforms]
  simp [isEpsilon, AccessPath.epsilon, ht, breadthKLimit]

/-- A store above the limit can be extended by itself forever. -/
theorem infinite_produced {stores : List ℤ} (hlen : K < stores.length)
    (h : Produced intersectKills ir K flows (.transform {⟨[], stores, .empty, 0⟩})) :
    {ef | Produced intersectKills ir K flows ef ∧
      ef.OffsetsIn (insert 0 stores.toFinset)}.Infinite := by
  have hne : stores ≠ [] := List.ne_nil_of_length_pos (Nat.zero_lt_of_lt hlen)
  let path (n : ℕ) : List ℤ := (List.replicate (n + 1) stores).flatten
  have hpath (n : ℕ) : path (n + 1) = stores ++ path n := rfl
  have hlength (n : ℕ) : (path n).length = (n + 1) * stores.length := by
    simp [path]
  have hproduced (n : ℕ) :
      Produced intersectKills ir K flows (.transform {⟨[], path n, .empty, 0⟩}) := by
    induction n with
    | zero =>
      have hzero : path 0 = stores := by simp [path]
      rwa [hzero]
    | succ n ih =>
      have habove : K < (path n).length := by
        rw [hlength]
        exact hlen.trans_le (Nat.le_mul_of_pos_left _ n.succ_pos)
      have hextend := Produced.extend ih h
      rwa [extend_stores_above habove hne, ← hpath] at hextend
  refine Set.infinite_of_injective_forall_mem
    (f := fun n => EdgeFunction.transform {⟨[], path n, .empty, 0⟩}) ?_ fun n => ⟨hproduced n, ?_⟩
  · intro n m heq
    have hstores : path n = path m :=
      congrArg AccessPath.stores (Finset.singleton_injective (EdgeFunction.transform.inj heq))
    have hmul := congrArg List.length hstores
    rw [hlength, hlength] at hmul
    have hpos : 0 < stores.length := Nat.zero_lt_of_lt hlen
    exact Nat.succ_injective (Nat.eq_of_mul_eq_mul_right hpos hmul)
  · intro F hF
    rw [Finset.mem_singleton.1 hF]
    refine ⟨by simp, fun x hx => ?_, fun x hx => absurd hx (KillSet.not_mem_empty x), by simp⟩
    obtain ⟨l, hl, hx⟩ := List.mem_flatten.1 hx
    rw [List.eq_of_mem_replicate hl] at hx
    exact Finset.mem_insert_of_mem (List.mem_toFinset.2 hx)

/-! ### The limit -/

/-- The depth of every path is bounded, and so are the edge functions over finitely many offsets and
the number of changes of a jump function, exactly where no store goes over as many dereferences as
the limit allows stores. -/
theorem depth_bounded_iff (intersectKills : Paths → KillSet) (ir : LoadChains V) (K : ℕ)
    (hK : 1 ≤ K) (flows : Set (Flow V)) :
    ((∀ ef, Produced intersectKills ir K flows ef → ef.DepthLe K) ∧
      (∀ O : Finset ℤ, {ef | Produced intersectKills ir K flows ef ∧ ef.OffsetsIn O}.Finite) ∧
      ∀ (O : Finset ℤ) (jump flow : ℕ → EdgeFunction),
        (∀ n, Produced intersectKills ir K flows (jump n) ∧ (jump n).OffsetsIn O) →
          (∀ n, jump (n + 1) = .combine (jump n) (flow n)) →
            ∃ N, ∀ n, N ≤ n → jump n = jump N) ↔
      ∀ f ∈ flows, f.Good ir K := by
  refine ⟨fun h f hf => (Flow.depthLe_iff hK f).1 (h.1 _ (.flow hf)), fun h => ?_⟩
  have hdepth : ∀ ef, Produced intersectKills ir K flows ef → ef.DepthLe K :=
    fun ef hef => hef.depthLe hK h
  have hfinite (O : Finset ℤ) :
      {ef | Produced intersectKills ir K flows ef ∧ ef.OffsetsIn O}.Finite :=
    (finite_depthLe O K).subset fun ef hef => ⟨hdepth ef hef.1, hef.2⟩
  exact ⟨hdepth, hfinite, fun O jump flow hmem hjump => combine_stops (hfinite O) hmem hjump⟩

/-- A base pointer without loads, and the limit of one store. -/
theorem depth_bounded_one :
    (∀ ef, Produced (fun _ => .empty) ⟨fun _ : ℕ => none, fun _ _ => false⟩ 1
      {.store ⟨0, 1, 1, 4, true⟩, .load true 0} ef → ef.DepthLe 1) ∧
    {ef | Produced (fun _ => .empty) ⟨fun _ : ℕ => none, fun _ _ => false⟩ 1
      {.store ⟨0, 1, 1, 4, true⟩, .load true 0} ef ∧ ef.OffsetsIn {0, 4}}.Finite := by
  obtain ⟨hdepth, hfinite, -⟩ := (depth_bounded_iff (fun _ => .empty)
    ⟨fun _ : ℕ => none, fun _ _ => false⟩ 1 le_rfl
    {.store ⟨0, 1, 1, 4, true⟩, .load true 0}).2 (by
      rintro f (rfl | rfl)
      · exact fun _ _ _ => Nat.zero_lt_one
      · exact trivial)
  exact ⟨hdepth, hfinite {0, 4}⟩

/-- The base pointer is loaded from the value that the fact is stored below. -/
theorem depth_unbounded :
    ¬ ((∀ ef, Produced (fun _ => .empty)
        ⟨fun v : ℕ => if v = 2 then some (0, 1) else none, fun _ _ => false⟩ 1
        {.store ⟨0, 1, 2, 4, true⟩} ef → ef.DepthLe 1) ∨
      ∀ O : Finset ℤ, {ef | Produced (fun _ => .empty)
        ⟨fun v : ℕ => if v = 2 then some (0, 1) else none, fun _ _ => false⟩ 1
        {.store ⟨0, 1, 2, 4, true⟩} ef ∧ ef.OffsetsIn O}.Finite) := by
  have hstore : Produced (fun _ => .empty)
      ⟨fun v : ℕ => if v = 2 then some (0, 1) else none, fun _ _ => false⟩ 1
      {.store ⟨0, 1, 2, 4, true⟩} (.transform {⟨[], [0, 4], .empty, 0⟩}) :=
    .flow (Set.mem_singleton _)
  rintro (h | h)
  · exact absurd (h _ hstore _ (Finset.mem_singleton_self _)).1 (by decide)
  · exact infinite_produced (by decide) hstore (h _)

end Phasar.CFLFieldSens
