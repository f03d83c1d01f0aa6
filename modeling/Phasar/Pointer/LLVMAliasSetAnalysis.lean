import Phasar.Pointer.LLVMAliasSetPartition
import Mathlib.Data.List.Induction

/-!
# The pointers of a function and their representatives

A new pointer is compared with the representatives only.

* `addPointers`: the pointers of a function in an order;
* `addPointers_sound_iff`: pointers that may alias are in one set after each pointer if and only if each new pointer may
  alias a representative of the set of each earlier pointer that it may alias;
* `sound_of_transitive`: this is so for transitive alias analyses;
* `not_sound_phi`: a pointer that may alias two pointers that do not alias.
-/

namespace Phasar.LLVMAliasSet

section Soundness

variable {V T : Type} [DecidableEq V] [DecidableEq T] (A : Allocator V) (type : V → T) (mayAlias : V → V → Bool)

/-- `addPointer` for pointers in an order. -/
def addPointers (p : AliasSet V × List V) (vs : List V) : Except Error (AliasSet V × List V) :=
  vs.foldlM (fun p v => addPointer A type mayAlias p.1 p.2 v) p

/-- Pointers that may alias are in one set. -/
def Sound (s : AliasSet V) (vs : List V) : Prop := ∀ v ∈ vs, ∀ w ∈ vs, mayAlias v w → SameSet s v w

/-- The new pointer may alias a representative of the set of each earlier pointer that it may alias. -/
def Compared (p : AliasSet V × List V) (vs : List V) (v : V) : Prop :=
  ∀ w ∈ vs, mayAlias v w → SameSet p.1 v w ∨ ∃ r ∈ p.2, mayAlias v r ∧ SameSet p.1 r w

/-- The state after some pointers. -/
structure Added (p : AliasSet V × List V) (vs : List V) : Prop where
  partition : Partition p.1
  reps : ∀ r ∈ p.2, r ∈ vs
  keys : ∀ v ∈ vs, IsKey p.1 v

theorem addPointers_concat {p p' : AliasSet V × List V} {vs : List V}
    (hrun : addPointers A type mayAlias p vs = .ok p') (v : V) :
    addPointers A type mayAlias p (vs ++ [v]) = addPointer A type mayAlias p'.1 p'.2 v := by
  rw [addPointers, List.foldlM_append, ← addPointers, hrun]
  dsimp only [bind, Except.bind]
  rw [List.foldlM_cons]
  cases addPointer A type mayAlias p'.1 p'.2 v <;> rfl

theorem exists_addPointers {s₀ : AliasSet V} (h₀ : Partition s₀) (vs : List V) :
    ∃ p, addPointers A type mayAlias (s₀, []) vs = .ok p ∧ Added p vs := by
  induction vs using List.reverseRecOn with
  | nil => exact ⟨(s₀, []), rfl, h₀, by simp, by simp⟩
  | append_singleton vs v ih =>
    obtain ⟨p, hrun, hp⟩ := ih
    obtain ⟨s', reps', hadd, hg, hr⟩ := addPointer_spec A type mayAlias hp.partition
      (fun r hr => hp.keys r (hp.reps r hr)) v
    refine ⟨(s', reps'), (addPointers_concat A type mayAlias hrun v).trans hadd, hg.partition,
      fun r hr' => ?_, fun w hw => (hg.isKey_iff hp.partition w).mpr ?_⟩
    · obtain hr' | rfl := hr.subset r hr'
      · exact List.mem_append_left _ (hp.reps r hr')
      · simp
    · obtain hw | hw := List.mem_append.mp hw
      · exact .inl (hp.keys w hw)
      · exact .inr (.inl (List.mem_singleton.mp hw))

/-- A pointer more. -/
theorem exists_addPointers_concat {s₀ : AliasSet V} (h₀ : Partition s₀) (vs : List V) (v : V) :
    ∃ p p', addPointers A type mayAlias (s₀, []) vs = .ok p ∧
      addPointers A type mayAlias (s₀, []) (vs ++ [v]) = .ok p' ∧ Added p vs ∧
      Glued p.1 p'.1 (Joined p.1 mayAlias p.2 v) ∧ Represented mayAlias v p.2 p'.2 := by
  obtain ⟨p, hrun, hp⟩ := exists_addPointers A type mayAlias h₀ vs
  obtain ⟨s', reps', hadd, hg, hr⟩ := addPointer_spec A type mayAlias hp.partition
    (fun r hr => hp.keys r (hp.reps r hr)) v
  exact ⟨p, (s', reps'), hrun, (addPointers_concat A type mayAlias hrun v).trans hadd, hp, hg, hr⟩

variable {mayAlias}

omit [DecidableEq V] in
/-- A pointer keeps soundness if and only if it is compared with a representative of each set that matters. -/
theorem sound_concat_iff (hsymm : ∀ v w, mayAlias v w → mayAlias w v) {p p' : AliasSet V × List V}
    {vs : List V} {v : V} (hp : Added p vs) (hg : Glued p.1 p'.1 (Joined p.1 mayAlias p.2 v))
    (hsound : Sound mayAlias p.1 vs) :
    Sound mayAlias p'.1 (vs ++ [v]) ↔ Compared mayAlias p vs v := by
  have hv : Joined p.1 mayAlias p.2 v v := .inl rfl
  constructor
  · intro hsound' w hw hvw
    obtain h | ⟨-, h⟩ := (hg.sameSet_iff v w).mp
      (hsound' v (by simp) w (List.mem_append_left _ hw) hvw)
    · exact .inl h
    · obtain rfl | h | h := h
      · exact .inl ((hp.partition.sameSet_self_iff w).mpr (hp.keys w hw))
      · exact .inl h
      · exact .inr h
  · intro hcompared
    have hnew : ∀ w ∈ vs, mayAlias v w → SameSet p'.1 v w := by
      intro w hw hvw
      rw [hg.sameSet_iff]
      obtain h | h := hcompared w hw hvw
      · exact .inl h
      · exact .inr ⟨hv, .inr (.inr h)⟩
    intro x hx y hy hxy
    simp only [List.mem_append, List.mem_singleton] at hx hy
    obtain hx | rfl := hx <;> obtain hy | rfl := hy
    · exact (hg.sameSet_iff x y).mpr (.inl (hsound x hx y hy hxy))
    · exact (hnew x hx (hsymm _ _ hxy)).symm
    · exact hnew y hy hxy
    · exact (hg.sameSet_iff _ _).mpr (.inr ⟨hv, hv⟩)

/-- The sets stay sound while each new pointer is compared with a representative of each set that matters. -/
theorem sound_of_compared (hsymm : ∀ v w, mayAlias v w → mayAlias w v) {s₀ : AliasSet V} (h₀ : Partition s₀)
    {vs : List V} (hcompared : ∀ ps v, ps ++ [v] <+: vs → ∀ p,
      addPointers A type mayAlias (s₀, []) ps = .ok p → Compared mayAlias p ps v) {ps : List V} (hps : ps <+: vs) :
    ∃ p, addPointers A type mayAlias (s₀, []) ps = .ok p ∧ Sound mayAlias p.1 ps := by
  induction ps using List.reverseRecOn with
  | nil => exact ⟨(s₀, []), rfl, by simp [Sound]⟩
  | append_singleton ps v ih =>
    obtain ⟨p, p', hrun, hrun', hp, hg, -⟩ := exists_addPointers_concat A type mayAlias h₀ ps v
    obtain ⟨p₁, hrun₁, hsound⟩ := ih ((List.prefix_append ps [v]).trans hps)
    obtain rfl : p = p₁ := Except.ok.inj (hrun.symm.trans hrun₁)
    exact ⟨p', hrun', (sound_concat_iff hsymm hp hg hsound).mpr (hcompared ps v hps p hrun)⟩

/-- Pointers that may alias are in one set after each pointer if and only if each new pointer may alias a
representative of the set of each earlier pointer that it may alias. -/
theorem addPointers_sound_iff (hsymm : ∀ v w, mayAlias v w → mayAlias w v) {s₀ : AliasSet V}
    (h₀ : Partition s₀) (vs : List V) :
    (∀ ps, ps <+: vs → ∃ p, addPointers A type mayAlias (s₀, []) ps = .ok p ∧ Sound mayAlias p.1 ps) ↔
      ∀ ps v, ps ++ [v] <+: vs → ∀ p, addPointers A type mayAlias (s₀, []) ps = .ok p →
        Compared mayAlias p ps v := by
  constructor
  · intro hsound ps v hps p hrun
    obtain ⟨p₁, p₂, hrun₁, hrun₂, hp, hg, -⟩ := exists_addPointers_concat A type mayAlias h₀ ps v
    obtain rfl : p = p₁ := Except.ok.inj (hrun.symm.trans hrun₁)
    obtain ⟨p₃, hrun₃, hsound₁⟩ := hsound ps ((List.prefix_append ps [v]).trans hps)
    obtain rfl : p = p₃ := Except.ok.inj (hrun.symm.trans hrun₃)
    obtain ⟨p₄, hrun₄, hsound₂⟩ := hsound (ps ++ [v]) hps
    obtain rfl : p₂ = p₄ := Except.ok.inj (hrun₂.symm.trans hrun₄)
    exact (sound_concat_iff hsymm hp hg hsound₁).mp hsound₂
  · exact fun hcompared ps hps => sound_of_compared A type hsymm h₀ hcompared hps

/-- Each pointer may alias a representative of its set. -/
def HasRep (mayAlias : V → V → Bool) (p : AliasSet V × List V) (vs : List V) : Prop :=
  ∀ w ∈ vs, ∃ r ∈ p.2, mayAlias w r ∧ SameSet p.1 r w

theorem hasRep_addPointers (hrefl : ∀ v, mayAlias v v) (hsymm : ∀ v w, mayAlias v w → mayAlias w v)
    (htrans : ∀ u v w, mayAlias u v → mayAlias v w → mayAlias u w) {s₀ : AliasSet V} (h₀ : Partition s₀)
    (vs : List V) : ∃ p, addPointers A type mayAlias (s₀, []) vs = .ok p ∧ HasRep mayAlias p vs := by
  induction vs using List.reverseRecOn with
  | nil => exact ⟨(s₀, []), rfl, by simp [HasRep]⟩
  | append_singleton vs v ih =>
    obtain ⟨p, p', hrun, hrun', hp, hg, hr⟩ := exists_addPointers_concat A type mayAlias h₀ vs v
    obtain ⟨p₁, hrun₁, hrep⟩ := ih
    obtain rfl : p = p₁ := Except.ok.inj (hrun.symm.trans hrun₁)
    have hv : Joined p.1 mayAlias p.2 v v := .inl rfl
    -- a representative of the set that the new pointer is in
    obtain ⟨r₀, hr₀, hr₀v⟩ := hr.rep
    have hr₀' : mayAlias v r₀ ∧ Joined p.1 mayAlias p.2 v r₀ := by
      obtain rfl | ⟨hmem, halias⟩ := hr₀v
      · exact ⟨hrefl r₀, .inl rfl⟩
      · have hkey := (hp.partition.sameSet_self_iff r₀).mpr (hp.keys r₀ (hp.reps r₀ hmem))
        exact ⟨halias, .inr (.inr ⟨r₀, hmem, halias, hkey⟩)⟩
    refine ⟨p', hrun', fun w hw => ?_⟩
    obtain hw | hw := List.mem_append.mp hw
    · obtain ⟨r, hmem, hwr, hrw⟩ := hrep w hw
      obtain hstays | halias := hr.stays r hmem
      · exact ⟨r, hstays, hwr, (hg.sameSet_iff r w).mpr (.inl hrw)⟩
      · exact ⟨r₀, hr₀, htrans _ _ _ (htrans _ _ _ hwr (hsymm _ _ halias)) hr₀'.1,
          (hg.sameSet_iff r₀ w).mpr (.inr ⟨hr₀'.2, .inr (.inr ⟨r, hmem, halias, hrw⟩)⟩)⟩
    · obtain rfl := List.mem_singleton.mp hw
      exact ⟨r₀, hr₀, hr₀'.1, (hg.sameSet_iff r₀ w).mpr (.inr ⟨hr₀'.2, hv⟩)⟩

/-- The sets are sound for alias analyses that are transitive. -/
theorem sound_of_transitive (hrefl : ∀ v, mayAlias v v) (hsymm : ∀ v w, mayAlias v w → mayAlias w v)
    (htrans : ∀ u v w, mayAlias u v → mayAlias v w → mayAlias u w) {s₀ : AliasSet V} (h₀ : Partition s₀)
    (vs : List V) :
    ∃ p, addPointers A type mayAlias (s₀, []) vs = .ok p ∧ Sound mayAlias p.1 vs := by
  refine sound_of_compared A type hsymm h₀ (fun ps v _ p hrun w hw hvw => ?_) List.prefix_rfl
  obtain ⟨p₁, hrun₁, hrep⟩ := hasRep_addPointers A type hrefl hsymm htrans h₀ ps
  obtain rfl : p = p₁ := Except.ok.inj (hrun.symm.trans hrun₁)
  obtain ⟨r, hr, hwr, hrw⟩ := hrep w hw
  exact .inr ⟨r, hr, htrans _ _ _ hvw hwr, hrw⟩

end Soundness

/-! ### Examples -/

/-- The pointer 1 is a phi node of other pointers. -/
def phi (v w : ℕ) : Bool := v = w || v = 1 || w = 1

theorem phi_symm : ∀ v w, phi v w → phi w v := by
  intro v w h
  simp only [phi, Bool.or_eq_true, decide_eq_true_eq] at h ⊢
  omega

theorem addPointers_sound_iff_phi : (∀ ps, ps <+: [0, 1, 2] →
      ∃ p, addPointers nextAddress (fun _ => ()) phi (empty, []) ps = .ok p ∧ Sound phi p.1 ps) ↔
    ∀ ps v, ps ++ [v] <+: [0, 1, 2] →
      ∀ p, addPointers nextAddress (fun _ => ()) phi (empty, []) ps = .ok p → Compared phi p ps v :=
  addPointers_sound_iff nextAddress (fun _ => ()) phi_symm partition_empty [0, 1, 2]

/-- The sets of 0, 1 and 2, in this order. -/
def phiStore : AliasSet ℕ :=
  ⟨Function.update (Function.update (Function.update (fun _ => none) 0 (some 0)) 1 (some 0)) 2 (some 1),
    [0, 1], [0, 1], Function.update (Function.update (Function.update (Function.update (Function.update
      (fun _ => []) 0 []) 0 [0]) 0 [0, 1]) 1 []) 1 [2]⟩

/-- The phi node joins the set of 0 and is no representative, and 2 is compared with 0 only. -/
theorem not_sound_phi : (∀ v, phi v v) ∧ (∀ v w, phi v w → phi w v) ∧
    ¬∃ p, addPointers nextAddress (fun _ => ()) phi (empty, []) [0, 1, 2] = .ok p ∧
      Sound phi p.1 [0, 1, 2] := by
  refine ⟨fun v => by simp [phi], phi_symm, ?_⟩
  rintro ⟨p, hrun, hsound⟩
  obtain rfl : (phiStore, [0, 2]) = p := Except.ok.inj hrun
  obtain ⟨a, h1, h2⟩ := hsound 1 (by decide) 2 (by decide) (by decide)
  have h1' : phiStore.setOf 1 = some 0 := rfl
  have h2' : phiStore.setOf 2 = some 1 := rfl
  rw [h1'] at h1
  rw [h2', ← h1] at h2
  cases h2

end Phasar.LLVMAliasSet
