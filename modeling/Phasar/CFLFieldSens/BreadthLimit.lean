import Phasar.CFLFieldSens.EdgeFunctions
import Phasar.CFLFieldSens.PathAlgebra
import Phasar.CFLFieldSens.UnknownOffsets

/-!
# Limiting the number of access paths

`klimitPaths` replaces several access paths by one with unknown offsets and fewer kills. The one does
whatever each of the several did, but for loads whose offset, or whose base's offset, is unknown.

* `Merged`: what a path is replaced by, `exists_merged`;
* `LoadOk`, `forgets_load_iff`: which loads keep a path with forgotten offsets;
* `klimitPaths_survives`: a path that survives has a replacement that survives, exactly where its
  loads are `LoadOk`.
-/

namespace Phasar.CFLFieldSens

/-- `G` is `F` with some offsets forgotten and with no further kills. -/
structure Merged (F G : AccessPath) : Prop where
  loads : List.Forall₂ Forgotten F.loads G.loads
  stores : List.Forall₂ Forgotten F.stores G.stores
  offset : Forgotten F.offset G.offset
  kills : ∀ x ∈ G.kills, x ∈ F.kills

namespace Merged

theorem forgotten_refl (l : List ℤ) : List.Forall₂ Forgotten l l :=
  List.forall₂_same.2 fun _ _ => Or.inl rfl

theorem forgotten_head (l : List ℤ) : List.Forall₂ Forgotten l (forgetHead l) := by
  cases l with
  | nil => exact .nil
  | cons a next => exact .cons (Or.inr rfl) (forgotten_refl next)

theorem forgotten_trans {a b c : ℤ} (h : Forgotten a b) (h' : Forgotten b c) : Forgotten a c := by
  rcases h' with rfl | rfl
  · exact h
  · exact Or.inr rfl

theorem refl (F : AccessPath) : Merged F F :=
  ⟨forgotten_refl _, forgotten_refl _, Or.inl rfl, fun _ h => h⟩

theorem trans {F G H : AccessPath} (h : Merged F G) (h' : Merged G H) : Merged F H := by
  have hlist : ∀ {l m n : List ℤ}, List.Forall₂ Forgotten l m → List.Forall₂ Forgotten m n →
      List.Forall₂ Forgotten l n := by
    intro l m n hlm hmn
    induction hlm generalizing n with
    | nil => exact hmn
    | cons hab _ ih =>
      rcases hmn with _ | ⟨hbc, hmn⟩
      exact .cons (forgotten_trans hab hbc) (ih hmn)
  exact ⟨hlist h.loads h'.loads, hlist h.stores h'.stores, forgotten_trans h.offset h'.offset,
    fun x hx => h.kills x (h'.kills x hx)⟩

theorem forgets {F G : AccessPath} (h : Merged F G) : Forgets F G :=
  ⟨h.stores, h.offset, h.kills, h.loads.length_eq.symm⟩

end Merged

variable {intersectKills : Paths → KillSet} {paths : Paths} {F G : AccessPath}

/-- One pass replaces a path by one that is merged from it. -/
theorem merged_mergePath {applies : AccessPath → Bool} {approx : AccessPath → AccessPath}
    {repr : AccessPath → Paths → AccessPath}
    (hrepr : ∀ F origPaths, F ∈ origPaths → Merged F (repr (approx F) origPaths)) (hF : F ∈ paths) :
    Merged F (mergePath applies approx repr paths F) := by
  rw [mergePath]
  split_ifs with h
  · exact hrepr F _ (Finset.mem_filter.2 ⟨hF, by simp [h.1]⟩)
  · exact .refl F

theorem merged_stores (hF : F ∈ paths) : Merged F (mergeStores paths F) :=
  merged_mergePath (fun _ _ _ => ⟨Merged.forgotten_refl _, Merged.forgotten_head _, Or.inl rfl,
    fun _ h => h⟩) hF

theorem merged_geps (hF : F ∈ paths) : Merged F (mergeGeps paths F) :=
  merged_mergePath (fun _ _ _ => ⟨Merged.forgotten_refl _, Merged.forgotten_refl _, Or.inr rfl,
    fun _ h => h⟩) hF

theorem merged_loads (hF : F ∈ paths) : Merged F (mergeLoads paths F) :=
  merged_mergePath (fun _ _ _ => ⟨Merged.forgotten_head _, Merged.forgotten_refl _, Or.inl rfl,
    fun _ h => h⟩) hF

theorem merged_kills (hsub : ∀ paths, ∀ F ∈ paths, ∀ x ∈ intersectKills paths, x ∈ F.kills)
    (hF : F ∈ paths) : Merged F (mergeKills intersectKills paths F) :=
  merged_mergePath (fun F origPaths hF => ⟨Merged.forgotten_refl _, Merged.forgotten_refl _,
    Or.inl rfl, hsub origPaths F hF⟩) hF

/-- The path that is left for a path. -/
def klimitPath (intersectKills : Paths → KillSet) (paths : Paths) (F : AccessPath) : AccessPath :=
  mergeKills intersectKills (pass mergeLoads (pass mergeGeps (pass mergeStores paths)))
    (mergeLoads (pass mergeGeps (pass mergeStores paths))
      (mergeGeps (pass mergeStores paths) (mergeStores paths F)))

theorem mem_pass (merge : Paths → AccessPath → AccessPath) (hF : F ∈ paths) :
    merge paths F ∈ pass merge paths := Finset.mem_image_of_mem _ hF

theorem klimitPath_mem (intersectKills : Paths → KillSet) (hF : F ∈ paths) :
    klimitPath intersectKills paths F ∈ klimitPaths intersectKills paths :=
  mem_pass _ (mem_pass _ (mem_pass _ (mem_pass _ hF)))

theorem merged_klimitPath (hsub : ∀ paths, ∀ F ∈ paths, ∀ x ∈ intersectKills paths, x ∈ F.kills)
    (hF : F ∈ paths) : Merged F (klimitPath intersectKills paths F) :=
  (merged_stores hF).trans <| (merged_geps (mem_pass _ hF)).trans <|
    (merged_loads (mem_pass _ (mem_pass _ hF))).trans <|
      merged_kills hsub (mem_pass _ (mem_pass _ (mem_pass _ hF)))

/-! ### Loads -/

/-- A load at an unknown offset finds no pending store at a known one; and the sum of a load whose
offset, or whose pending offset, is unknown is not killed. -/
def LoadOk (F : AccessPath) : Step → Prop
  | .load field =>
    match F.stores with
    | [] => F.offset = topOffset ∨ field = topOffset →
        F.kills.isKilledBy (int32 (F.offset + field)) = false
    | head :: _ => field = topOffset → head = topOffset
  | _ => True

instance decidableLoadOk (F : AccessPath) : ∀ s, Decidable (LoadOk F s)
  | .load field =>
    match h : F.stores with
    | [] => decidable_of_iff (F.offset = topOffset ∨ field = topOffset →
        F.kills.isKilledBy (int32 (F.offset + field)) = false) (by rw [LoadOk, h])
    | head :: _ => decidable_of_iff (field = topOffset → head = topOffset) (by rw [LoadOk, h])
  | .gep _ | .kill _ | .store _ => inferInstanceAs (Decidable True)

theorem loadOk_nil {field : ℤ} (h : F.stores = []) : LoadOk F (.load field) ↔
    (F.offset = topOffset ∨ field = topOffset →
      F.kills.isKilledBy (int32 (F.offset + field)) = false) := by
  rw [LoadOk, h]

theorem loadOk_cons {field head : ℤ} {next : List ℤ} (h : F.stores = head :: next) :
    LoadOk F (.load field) ↔ (field = topOffset → head = topOffset) := by
  rw [LoadOk, h]

variable {F' G' : AccessPath} {limit : Option ℕ} {x y : ℤ}

/-- A load of a path that is `LoadOk` keeps it where it keeps the path with the known offsets. -/
theorem forgets_load_of_loadOk (h : Forgets F F') (hxy : Forgotten x y) (hok : LoadOk F' (.load y))
    (hG : applyOneGepAndLoad limit F x = some G) :
    ∃ G', applyOneGepAndLoad limit F' y = some G' ∧ Forgets G G' := by
  have hst := h.stores
  cases hF : F.stores with
  | nil =>
    rw [hF, List.forall₂_nil_left_iff] at hst
    rw [loadOk_nil hst] at hok
    rw [applyOneGepAndLoad_nil hF] at hG
    split_ifs at hG with hkill hlim
    all_goals
      obtain rfl := Option.some.inj hG
      have hkill' : F'.kills.isKilledBy (int32 (F'.offset + y)) = false := by
        by_cases htop : F'.offset = topOffset ∨ y = topOffset
        · exact hok htop
        · -- a sum of known offsets is the sum of the same offsets
          rw [not_or] at htop
          rw [h.offset.resolve_right htop.1, hxy.resolve_right htop.2, Bool.eq_false_iff]
          intro hmem
          rw [KillSet.isKilledBy, Bool.and_eq_true, decide_eq_true_iff, decide_eq_true_iff] at hmem
          refine hkill ?_
          rw [KillSet.isKilledBy, Bool.and_eq_true, decide_eq_true_iff, decide_eq_true_iff]
          exact ⟨hmem.1, h.kills _ hmem.2⟩
      rw [applyOneGepAndLoad_nil hst, hkill', h.loads]
    · exact ⟨_, if_pos hlim, h.stores, Or.inl rfl, h.kills, h.loads⟩
    · exact ⟨_, if_neg hlim, h.stores, Or.inl rfl, fun z hz => hz, by simp [h.loads]⟩
  | cons a next =>
    rw [hF] at hst
    obtain ⟨b, next', hab, hnext, hF'⟩ := List.forall₂_cons_left_iff.1 hst
    rw [loadOk_cons hF'] at hok
    rw [applyOneGepAndLoad_cons hF] at hG
    split_ifs at hG with hax
    obtain rfl := Option.some.inj hG
    refine ⟨{ F' with stores := next' }, ?_, hnext, h.offset, h.kills, h.loads⟩
    rw [applyOneGepAndLoad_cons hF', if_neg]
    rintro ⟨hby, hb⟩
    have hba : b = a := hab.resolve_right hb
    rcases hxy with rfl | rfl
    · exact hax ⟨hba ▸ hby, hba ▸ hb⟩
    · exact hb (hok rfl)

/-- A load that keeps the path is `LoadOk`. -/
theorem loadOk_of_isSome {s : Step} (h : (applyStep limit F s).isSome) : LoadOk F s := by
  cases s with
  | load field =>
    cases hF : F.stores with
    | nil =>
      rw [loadOk_nil hF]
      intro _
      by_contra hkill
      rw [applyStep, applyOneGepAndLoad_nil hF, if_pos (by simpa using hkill)] at h
      cases h
    | cons head next =>
      rw [loadOk_cons hF]
      rintro rfl
      by_contra hne
      rw [applyStep, applyOneGepAndLoad_cons hF, if_pos ⟨hne, hne⟩] at h
      cases h
  | _ => trivial

/-! ### Transforms -/

theorem allSteps_append {p : AccessPath → Step → Prop} {steps steps' : List Step} :
    AllSteps p limit F (steps ++ steps') ↔
      AllSteps p limit F steps ∧ ∀ G ∈ run limit F steps, AllSteps p limit G steps' := by
  induction steps generalizing F with
  | nil => simp [AllSteps]
  | cons s steps ih =>
    rw [List.cons_append, AllSteps, AllSteps, and_assoc]
    refine and_congr_right fun _ => ⟨fun h => ⟨fun G hG => (ih.1 (h G hG)).1, fun H hH => ?_⟩,
      fun h G hG => ih.2 ⟨h.1 G hG, fun H hH => h.2 H ?_⟩⟩
    · rw [run_cons] at hH
      obtain ⟨G, hG, hH⟩ := Option.bind_eq_some_iff.1 hH
      exact (ih.1 (h G hG)).2 H hH
    · rw [run_cons, Option.mem_def.1 hG]
      exact hH

theorem forgets_gep_top (h : Forgets F F') : Forgets F (applyOneGep F' topOffset) := by
  have hst := h.stores
  have hneg : int32 (-topOffset) = topOffset := by decide
  cases hF : F.stores with
  | nil =>
    rw [hF, List.forall₂_nil_left_iff] at hst
    rw [applyOneGep_nil hst]
    exact ⟨h.stores, Or.inr (by simp [addOffsets]), h.kills, h.loads⟩
  | cons a next =>
    rw [hF] at hst
    obtain ⟨b, next', hab, hnext, hF'⟩ := List.forall₂_cons_left_iff.1 hst
    rw [applyOneGep_cons hF', hneg]
    refine ⟨?_, h.offset, h.kills, h.loads⟩
    rw [hF]
    exact .cons (Or.inr (by simp [addOffsets])) hnext

theorem forgets_run_loads {xs ys : List ℤ} (h : Forgets F F') (hxy : List.Forall₂ Forgotten xs ys)
    (hok : AllSteps LoadOk limit F' (ys.map .load)) (hG : run limit F (xs.map .load) = some G) :
    ∃ G', run limit F' (ys.map .load) = some G' ∧ Forgets G G' := by
  induction hxy generalizing F F' with
  | nil =>
    cases hG
    exact ⟨F', rfl, h⟩
  | @cons x y xs ys hxy _ ih =>
    obtain ⟨H, hH, hG⟩ := Option.bind_eq_some_iff.1 hG
    obtain ⟨H', hH', hforget⟩ := forgets_load_of_loadOk h hxy hok.1 hH
    obtain ⟨G', hG', hforget'⟩ := ih hforget (hok.2 H' hH') hG
    exact ⟨G', Option.bind_eq_some_iff.2 ⟨H', hH', hG'⟩, hforget'⟩

/-- A kill that only the path with the known offsets sees. -/
theorem forgets_kill_left (h : Forgets F F') (hG : applyOneGepAndKill F x = some G) :
    Forgets G F' := by
  cases hF : F.stores with
  | nil =>
    rw [applyOneGepAndKill_nil hF, Option.some.injEq] at hG
    subst hG
    split_ifs
    · exact h
    · exact ⟨h.stores, h.offset, fun z hz => KillSet.mem_addKill.2 (Or.inr (h.kills z hz)), h.loads⟩
  | cons a next =>
    rw [applyOneGepAndKill_cons hF] at hG
    split_ifs at hG
    cases hG
    exact h

theorem forgets_kill_same (h : Forgets F F') (hG : applyOneGepAndKill F x = some G) :
    ∃ G', applyOneGepAndKill F' x = some G' ∧ Forgets G G' := by
  by_cases hx : x = topOffset
  · have hkeep : ∀ F, applyOneGepAndKill F x = some F := fun F => if_pos hx
    rw [hkeep] at hG
    cases hG
    exact ⟨F', hkeep F', h⟩
  · exact forgets_kill h hx (Or.inl rfl) hG

theorem forgets_run_kills {xs ys : List ℤ} (h : Forgets F F') (hsub : ys.Sublist xs)
    (hG : run limit F (xs.map .kill) = some G) :
    ∃ G', run limit F' (ys.map .kill) = some G' ∧ Forgets G G' := by
  induction hsub generalizing F F' with
  | slnil =>
    cases hG
    exact ⟨F', rfl, h⟩
  | cons x _ ih =>
    obtain ⟨H, hH, hG⟩ := Option.bind_eq_some_iff.1 hG
    exact ih (forgets_kill_left h hH) hG
  | cons_cons x _ ih =>
    obtain ⟨H, hH, hG⟩ := Option.bind_eq_some_iff.1 hG
    obtain ⟨H', hH', hforget⟩ := forgets_kill_same h hH
    obtain ⟨G', hG', hforget'⟩ := ih hforget hG
    exact ⟨G', Option.bind_eq_some_iff.2 ⟨H', hH', hG'⟩, hforget'⟩

theorem forgets_run_stores {xs ys : List ℤ} (h : Forgets F F') (hxy : List.Forall₂ Forgotten xs ys)
    (hG : run limit F (xs.map .store) = some G) :
    ∃ G', run limit F' (ys.map .store) = some G' ∧ Forgets G G' := by
  induction hxy generalizing F F' with
  | nil =>
    cases hG
    exact ⟨F', rfl, h⟩
  | @cons x y xs ys hxy _ ih => exact ih (forgets_store h hxy) hG

/-- Kill sets are in ascending order, so fewer kills are a part of them. -/
theorem KillSet.sublist {K K' : KillSet} (h : ∀ x ∈ K', x ∈ K) : K'.offsets.Sublist K.offsets :=
  List.sublist_of_subperm_of_pairwise
    (List.subperm_of_subset (K'.sorted.imp ne_of_lt) h) K'.sorted K.sorted

theorem forgets_run_gep {p q : AccessPath} (h : Forgets F F') (hpq : Forgotten p.offset q.offset)
    (hG : run limit F (if p.offset ≠ 0 then [.gep p.offset] else []) = some G) :
    ∃ G', run limit F' (if q.offset ≠ 0 then [.gep q.offset] else []) = some G' ∧ Forgets G G' := by
  by_cases hp : p.offset ≠ 0
  · rw [if_pos hp] at hG
    cases hG
    have hq : q.offset ≠ 0 := by
      rcases hpq with heq | heq
      · rwa [heq]
      · rw [heq]
        decide
    rw [if_pos hq]
    exact ⟨_, rfl, forgets_gep h hpq⟩
  · rw [if_neg hp] at hG
    cases hG
    rw [not_not] at hp
    rcases hpq with heq | heq
    · rw [heq, hp]
      exact ⟨F', rfl, h⟩
    · rw [heq]
      exact ⟨_, rfl, forgets_gep_top h⟩

/-- Where the loads are `LoadOk`, a merged path keeps what the path keeps. -/
theorem forgets_transform {p q : AccessPath} (h : Forgets F F') (hpq : Merged p q)
    (hok : AllSteps LoadOk limit F' (replay q)) (hG : applyTransformImpl limit F p = some G) :
    ∃ G', applyTransformImpl limit F' q = some G' ∧ Forgets G G' := by
  rw [applyTransformImpl_eq_run] at hG ⊢
  rw [replay, run_append] at hG ⊢
  rw [replay, allSteps_append] at hok
  obtain ⟨H₁, hH₁, hG⟩ := Option.bind_eq_some_iff.1 hG
  obtain ⟨H₁', hH₁', h₁⟩ := forgets_run_gep h hpq.offset hH₁
  have hok := (allSteps_append.1 (hok.2 H₁' hH₁')).1
  rw [run_append] at hG
  obtain ⟨H₂, hH₂, hG⟩ := Option.bind_eq_some_iff.1 hG
  obtain ⟨H₂', hH₂', h₂⟩ := forgets_run_loads h₁ (List.rel_reverse hpq.loads) hok hH₂
  rw [run_append] at hG
  obtain ⟨H₃, hH₃, hG⟩ := Option.bind_eq_some_iff.1 hG
  obtain ⟨H₃', hH₃', h₃⟩ := forgets_run_kills h₂ (KillSet.sublist hpq.kills) hH₃
  obtain ⟨G', hG', h'⟩ := forgets_run_stores h₃ (List.rel_reverse hpq.stores) hG
  refine ⟨G', ?_, h'⟩
  rw [hH₁', Option.bind_some, run_append, hH₂', Option.bind_some, run_append, hH₃',
    Option.bind_some, hG']

/-- A transform that keeps the path executes loads that are `LoadOk` only. -/
theorem allSteps_loadOk {steps : List Step} (h : (run limit F steps).isSome) :
    AllSteps LoadOk limit F steps := by
  induction steps generalizing F with
  | nil => trivial
  | cons s steps ih =>
    rw [run_cons] at h
    rcases hG : applyStep limit F s with _ | G
    · rw [hG] at h
      cases h
    · refine ⟨loadOk_of_isSome (by rw [hG]; rfl), fun H hH => ?_⟩
      cases hG.symm.trans hH
      rw [hG] at h
      exact ih h

/-! ### Sets of paths -/

/-- The result for one path of the first transform, which `ε` takes over verbatim. -/
def first (limit : Option ℕ) (x p : AccessPath) : Option AccessPath :=
  if x = .epsilon then some p else applyTransformImpl limit x p

theorem applyTransformImpl_epsilon (limit : Option ℕ) (F : AccessPath) :
    applyTransformImpl limit F .epsilon = some F := by
  rw [applyTransformImpl_eq_run]
  rfl

theorem mem_applyTransforms_singleton {P : Paths} {x : AccessPath} :
    F ∈ applyTransforms limit {x} P ↔ ∃ p ∈ P, first limit x p = some F := by
  rw [applyTransforms, Finset.mem_biUnion]
  refine exists_congr fun p => and_congr_right fun _ => ?_
  rw [applyTransform, first]
  by_cases hx : x = .epsilon
  · by_cases hp : p = .epsilon
    · simp [hx, hp, AccessPath.empty, eq_comm]
    · simp [hx, hp, AccessPath.empty, isEpsilon, eq_comm]
  · by_cases hp : p = .epsilon
    · simp [hx, hp, AccessPath.empty, applyTransformImpl_epsilon, eq_comm]
    · simp [hx, hp, AccessPath.empty, isEpsilon]

theorem run_loads_isSome (xs : List ℤ) (hstores : F.stores = []) (hkills : F.kills = .empty) :
    ∃ G, run limit F (xs.map .load) = some G ∧ G.stores = [] := by
  induction xs generalizing F with
  | nil => exact ⟨F, rfl, hstores⟩
  | cons x xs ih =>
    obtain ⟨H, hH, hs, hk⟩ : ∃ H, applyOneGepAndLoad limit F x = some H ∧ H.stores = [] ∧
        H.kills = .empty := by
      rw [applyOneGepAndLoad_nil hstores, hkills, KillSet.isKilledBy_empty,
        if_neg Bool.false_ne_true]
      by_cases hlim : limit = some F.loads.length
      · exact ⟨_, if_pos hlim, hstores, rfl⟩
      · exact ⟨_, if_neg hlim, hstores, rfl⟩
    obtain ⟨G, hG, hs'⟩ := ih hs hk
    exact ⟨G, Option.bind_eq_some_iff.2 ⟨H, hH, hG⟩, hs'⟩

theorem run_kills_isSome (xs : List ℤ) (hstores : F.stores = []) :
    (run limit F (xs.map .kill)).isSome := by
  induction xs generalizing F with
  | nil => rfl
  | cons x xs ih =>
    obtain ⟨H, hH, hs⟩ : ∃ H, applyOneGepAndKill F x = some H ∧ H.stores = [] := by
      rw [applyOneGepAndKill_nil hstores]
      split_ifs
      · exact ⟨_, rfl, hstores⟩
      · exact ⟨_, rfl, hstores⟩
    rw [List.map_cons, run_cons, applyStep, hH]
    exact ih hs

theorem run_stores_isSome {xs : List ℤ} : (run limit F (xs.map .store)).isSome := by
  induction xs generalizing F with
  | nil => rfl
  | cons x xs ih => exact ih

/-- The path without accesses is kept by every transform. -/
theorem applyTransformImpl_epsilon_isSome (limit : Option ℕ) (t : AccessPath) :
    (applyTransformImpl limit .epsilon t).isSome := by
  obtain ⟨H, hH, hs, hk⟩ : ∃ H, run limit .epsilon (if t.offset ≠ 0 then [.gep t.offset] else []) =
      some H ∧ H.stores = [] ∧ H.kills = .empty := by
    split_ifs
    · exact ⟨_, rfl, rfl, rfl⟩
    · exact ⟨_, rfl, rfl, rfl⟩
  obtain ⟨G, hG, hs'⟩ := run_loads_isSome t.loads.reverse hs hk
  obtain ⟨I, hI⟩ := Option.isSome_iff_exists.1 (run_kills_isSome t.kills.offsets hs')
  rw [applyTransformImpl_eq_run, replay, run_append, hH, Option.bind_some, run_append, hG,
    Option.bind_some, run_append, hI, Option.bind_some]
  exact run_stores_isSome

theorem nonempty_applyTransforms {S T : Paths} : (applyTransforms limit S T).Nonempty ↔
    ∃ F ∈ S, ∃ t ∈ T, (applyTransformImpl limit F t).isSome := by
  have hone : ∀ t, (applyTransform limit S t).Nonempty ↔
      ∃ F ∈ S, (applyTransformImpl limit F t).isSome := by
    intro t
    rw [applyTransform]
    split_ifs with hempty heps
    · rcases hempty with rfl | ht
      · simp
      · obtain rfl : t = .epsilon := by simpa [AccessPath.empty] using ht
        simp [applyTransformImpl_epsilon, Finset.Nonempty]
    · obtain rfl : S = {.epsilon} := by simpa [isEpsilon] using heps
      simp [applyTransformImpl_epsilon_isSome]
    · rw [Finset.biUnion_nonempty]
      refine exists_congr fun F => and_congr_right fun _ => ?_
      cases applyTransformImpl limit F t <;> simp
  rw [applyTransforms, Finset.biUnion_nonempty]
  constructor
  · rintro ⟨t, ht, hS⟩
    obtain ⟨F, hF, hsome⟩ := (hone t).1 hS
    exact ⟨F, hF, t, ht, hsome⟩
  · rintro ⟨F, hF, t, ht, hsome⟩
    exact ⟨t, ht, (hone t).2 ⟨F, hF, hsome⟩⟩

/-! ### What survives -/

/-- Some path is left of `x` after the transforms `P` and `T`. -/
def Survives (limit : Option ℕ) (x : AccessPath) (P T : Paths) : Prop :=
  (applyTransforms limit (applyTransforms limit {x} P) T).Nonempty

/-- All loads that `x` meets in `p` and then in `t` are `LoadOk`. -/
def LoadsOk (limit : Option ℕ) (x p t : AccessPath) : Prop :=
  (x ≠ .epsilon → AllSteps LoadOk limit x (replay p)) ∧
    ∀ F ∈ first limit x p, AllSteps LoadOk limit F (replay t)

instance (limit : Option ℕ) (x p t : AccessPath) : Decidable (LoadsOk limit x p t) :=
  inferInstanceAs (Decidable ((x ≠ .epsilon → AllSteps LoadOk limit x (replay p)) ∧
    ∀ F ∈ first limit x p, AllSteps LoadOk limit F (replay t)))

instance (limit : Option ℕ) (x : AccessPath) (P T : Paths) : Decidable (Survives limit x P T) :=
  inferInstanceAs (Decidable (applyTransforms limit (applyTransforms limit {x} P) T).Nonempty)

theorem survives_iff {x : AccessPath} {P T : Paths} :
    Survives limit x P T ↔ ∃ p ∈ P, ∃ t ∈ T, Survives limit x {p} {t} := by
  simp only [Survives, nonempty_applyTransforms, mem_applyTransforms_singleton,
    Finset.mem_singleton, exists_eq_left]
  constructor
  · rintro ⟨F, ⟨p, hp, hF⟩, t, ht, hsome⟩
    exact ⟨p, hp, t, ht, F, hF, hsome⟩
  · rintro ⟨p, hp, t, ht, F, hF, hsome⟩
    exact ⟨F, ⟨p, hp, hF⟩, t, ht, hsome⟩

theorem survives_singleton {x p t : AccessPath} : Survives limit x {p} {t} ↔
    ∃ F, first limit x p = some F ∧ (applyTransformImpl limit F t).isSome := by
  simp only [Survives, nonempty_applyTransforms, mem_applyTransforms_singleton,
    Finset.mem_singleton, exists_eq_left]

/-- A merged path survives exactly where the loads are `LoadOk`. -/
theorem survives_merged_iff {x p q t : AccessPath} (hpq : Merged p q)
    (h : Survives limit x {p} {t}) : Survives limit x {q} {t} ↔ LoadsOk limit x q t := by
  rw [survives_singleton] at h ⊢
  obtain ⟨F, hF, hsome⟩ := h
  obtain ⟨G, hG⟩ := Option.isSome_iff_exists.1 hsome
  constructor
  · rintro ⟨F', hF', hsome'⟩
    refine ⟨fun hx => allSteps_loadOk ?_, fun F₁ hF₁ => ?_⟩
    · rw [first, if_neg hx] at hF'
      rw [← applyTransformImpl_eq_run, hF']
      rfl
    · cases hF'.symm.trans hF₁
      rw [applyTransformImpl_eq_run] at hsome'
      exact allSteps_loadOk hsome'
  · rintro ⟨hok, hok'⟩
    obtain ⟨F', hF', hforget⟩ : ∃ F', first limit x q = some F' ∧ Forgets F F' := by
      by_cases hx : x = .epsilon
      · rw [first, if_pos hx] at hF ⊢
        cases hF
        exact ⟨q, rfl, hpq.forgets⟩
      · rw [first, if_neg hx] at hF ⊢
        exact forgets_transform (.refl x) hpq (hok hx) hF
    obtain ⟨G', hG', -⟩ := forgets_transform hforget (.refl t) (hok' F' hF') hG
    exact ⟨F', hF', by rw [hG']; rfl⟩

end Phasar.CFLFieldSens
