import Phasar.Pointer.AndersenFieldWrites

/-!
# A memcpy that is resolved again

`resolveCopyForward` runs again for every recorded memcpy in each outer round. What it copied into an
object without known fields then counts as fields of that object, and the object is poisoned. The
second run changes nothing exactly in the cases of `CopiesOnce`.

* `copyAll`: the loop over the destination objects, with `copyAll_frame` and the rule `copyAll_post`;
* `copyAll_overtaken`, `copyAll_pure`: destinations that are poisoned, and that are not;
* `CopiesOnce`, `copyAll_twice_iff`.
-/

namespace Phasar.Andersen

open ChangePass FieldTables

variable {n : ℕ} {F S C V T : Type}

namespace Program

/-- Two source objects have the same field at different types. -/
def Disagree (srcs : List (ObjectKey V C)) (t : FieldTables F C V T) : Prop :=
  ∃ src ∈ srcs, ∃ src' ∈ srcs, ∃ indices ty ty', t.fieldTy src indices = some ty ∧
    t.fieldTy src' indices = some ty' ∧ ty ≠ ty'

/-- When the copy reaches `x` after `pre`, `x` has known fields, and there is another source object. -/
def Overtaken (srcs : List (ObjectKey V C)) (t : FieldTables F C V T) (pre : List (ObjectKey V C))
    (x : ObjectKey V C) : Prop :=
  (t.fieldsByObject x ≠ [] ∨ x ∈ pre) ∧ ∃ src ∈ srcs, src ≠ x

/-- The cases in which a second copy changes nothing: all destinations are poisoned, nothing is copied,
or every destination without known fields is poisoned before the first copy ends. -/
def CopiesOnce (P : Program n F S C V T) (copyLength : Option ℕ) (srcs dsts : List (ObjectKey V C))
    (t : FieldTables F C V T) : Prop :=
  ∀ len, copyLength = some len → P.Blocked len srcs t ∨ Disagree srcs t ∨
    (∀ src ∈ srcs, t.fieldsByObject src = []) ∨
    ∀ dst ∈ dsts, t.fieldsByObject dst = [] → t.impureObjects dst = true ∨
      ∃ pre x post, dsts = pre ++ x :: post ∧ Overtaken srcs t pre x ∧
        (x = dst ∨ x ∈ srcs ∧ dst ∈ post)

variable [DecidableEq F] [DecidableEq C] [DecidableEq V] [DecidableEq T]
  (P : Program n F S C V T)

/-- The loop over the destination objects. -/
abbrev copyAll (copyLength : Option ℕ) (srcs dsts : List (ObjectKey V C)) (t : FieldTables F C V T) :
    FieldTables F C V T :=
  (foldAny (P.copyForwardTo copyLength srcs) dsts t).1

/-! ### One destination -/

variable {P} {t : FieldTables F C V T} {copyLength : Option ℕ} {len : ℕ}
  {srcs dsts : List (ObjectKey V C)} {dst : ObjectKey V C}

theorem copyForwardTo_of_impure (h : t.impureObjects dst = true) :
    (P.copyForwardTo copyLength srcs dst t).1 = t := by
  unfold copyForwardTo
  rw [if_pos h]

theorem copyForwardTo_none : (P.copyForwardTo none srcs dst t).1 = (t.poisonObject dst).1 := by
  rw [copyForwardTo]
  split_ifs with h
  · rw [poisonObject_of_impure h]
  · rfl

theorem copyForwardTo_frame (copyLength : Option ℕ) (srcs : List (ObjectKey V C))
    (dst : ObjectKey V C) (hwf : t.WellFormed) :
    Grows t (P.copyForwardTo copyLength srcs dst t).1 ∧
      ∀ y ≠ dst, SameAt y t (P.copyForwardTo copyLength srcs dst t).1 := by
  cases copyLength with
  | none =>
    rw [copyForwardTo_none]
    exact ⟨poisonObject_grows dst t, fun y hy => poisonObject_sameAt t hy⟩
  | some len =>
    rcases copyForwardTo_cases P len dst srcs hwf with ⟨-, heq⟩ | ⟨-, -, heq⟩ | ⟨-, -, -, heq⟩
    · rw [heq]
      exact ⟨.refl t, fun y _ => .refl y t⟩
    · rw [heq]
      exact ⟨poisonObject_grows dst t, fun y hy => poisonObject_sameAt t hy⟩
    · rw [heq]
      exact ⟨(mergeAll_merges dst _ t).grows, (mergeAll_merges dst _ t).sameAt⟩

/-- Types of fields come from the destination and from the sources. -/
theorem copyForwardTo_fieldTy (hwf : t.WellFormed) {indices : List ℕ} {ty : T}
    (h : (P.copyForwardTo (some len) srcs dst t).1.fieldTy dst indices = some ty) :
    t.fieldTy dst indices = some ty ∨ ∃ src ∈ srcs, t.fieldTy src indices = some ty := by
  rcases copyForwardTo_cases P len dst srcs hwf with ⟨-, heq⟩ | ⟨-, -, heq⟩ | ⟨-, -, -, heq⟩
  · rw [heq] at h
    exact Or.inl h
  · rw [heq, fieldTy, (poisonObject_fields dst t).2] at h
    exact Or.inl h
  · rw [heq] at h
    refine ((mergeAll_merges dst _ t).origin indices ty h).imp_right ?_
    rintro ⟨x, hx, hxty⟩
    obtain ⟨src, hsrc, hx⟩ := List.mem_flatMap.1 hx
    exact ⟨src, hsrc, hwf.known_fieldTy.1 ⟨x, hx, hxty⟩⟩

theorem copyForwardTo_poisons (hwf : t.WellFormed) (h : P.Blocked len srcs t ∨ Clobbers srcs dst t) :
    (P.copyForwardTo (some len) srcs dst t).1.impureObjects dst = true := by
  rcases copyForwardTo_cases P len dst srcs hwf with ⟨himpure, heq⟩ | ⟨-, -, heq⟩ | ⟨-, hb, hc, -⟩
  · rw [heq, himpure]
  · rw [heq, impureObjects_poisonObject]
  · exact absurd h (not_or.2 ⟨hb, hc⟩)

/-- A destination that stays pure has the fields of all sources. -/
theorem copyForwardTo_merged (hwf : t.WellFormed)
    (hpure : (P.copyForwardTo (some len) srcs dst t).1.impureObjects dst = false)
    {src : ObjectKey V C} (hsrc : src ∈ srcs) {indices : List ℕ} {ty : T}
    (hty : t.fieldTy src indices = some ty) :
    (P.copyForwardTo (some len) srcs dst t).1.fieldTy dst indices = some ty := by
  rcases copyForwardTo_cases P len dst srcs hwf with ⟨himpure, heq⟩ | ⟨-, -, heq⟩ | ⟨-, -, -, heq⟩
  · rw [heq, himpure] at hpure
    cases hpure
  · rw [heq, impureObjects_poisonObject] at hpure
    cases hpure
  · rw [heq] at hpure ⊢
    obtain ⟨x, hx, rfl, rfl⟩ := hwf.known_fieldTy.2 hty
    exact (mergeAll_merges dst _ t).merged hpure x (List.mem_flatMap.2 ⟨src, hsrc, hx⟩)

theorem copyForwardTo_disagree (hwf : t.WellFormed) (h : Disagree srcs t) :
    (P.copyForwardTo (some len) srcs dst t).1.impureObjects dst = true := by
  obtain ⟨src, hsrc, src', hsrc', indices, ty, ty', hty, hty', hne⟩ := h
  by_contra hpure
  rw [Bool.not_eq_true] at hpure
  have hmerged := copyForwardTo_merged hwf hpure hsrc hty
  rw [copyForwardTo_merged hwf hpure hsrc' hty'] at hmerged
  exact hne (Option.some.inj hmerged).symm

/-- Once something was copied, the destination is poisoned or has known fields. -/
theorem copyForwardTo_taken (hwf : t.WellFormed) (h : ∃ src ∈ srcs, t.fieldsByObject src ≠ []) :
    (P.copyForwardTo (some len) srcs dst t).1.impureObjects dst = true ∨
      (P.copyForwardTo (some len) srcs dst t).1.fieldsByObject dst ≠ [] := by
  obtain ⟨src, hsrc, hne⟩ := h
  obtain ⟨indices, ty, hty⟩ := hwf.fields_ne_nil.1 hne
  cases hpure : (P.copyForwardTo (some len) srcs dst t).1.impureObjects dst with
  | true => exact Or.inl rfl
  | false =>
    have hwf' := (copyForwardTo_frame (P := P) (some len) srcs dst hwf).1.wellFormed hwf
    exact Or.inr (hwf'.fields_ne_nil.2 ⟨indices, ty, copyForwardTo_merged hwf hpure hsrc hty⟩)

/-- A copy of an object to itself, and a copy of nothing. -/
theorem copyForwardTo_idle (hwf : t.WellFormed) (hb : ¬P.Blocked len srcs t)
    (hc : ¬Clobbers srcs dst t)
    (h : (∀ src ∈ srcs, src = dst) ∨ ∀ src ∈ srcs, t.fieldsByObject src = []) :
    (P.copyForwardTo (some len) srcs dst t).1 = t := by
  rcases copyForwardTo_cases P len dst srcs hwf with ⟨-, heq⟩ | ⟨-, hbc, -⟩ | ⟨-, -, -, heq⟩
  · exact heq
  · exact absurd hbc (not_or.2 ⟨hb, hc⟩)
  · rw [heq]
    refine foldAny_idle fun x hx => mergeFieldWriteInfo_self ?_
    obtain ⟨src, hsrc, hx⟩ := List.mem_flatMap.1 hx
    rcases h with h | h
    · rw [← h src hsrc]
      exact hwf.mem_known.1 hx
    · simp [known, h src hsrc] at hx

/-! ### All destinations -/

theorem copyAll_frame (copyLength : Option ℕ) (srcs dsts : List (ObjectKey V C))
    (hwf : t.WellFormed) :
    (P.copyAll copyLength srcs dsts t).WellFormed ∧ Grows t (P.copyAll copyLength srcs dsts t) ∧
      ∀ y ∉ dsts, SameAt y t (P.copyAll copyLength srcs dsts t) := by
  refine foldAny_prefix (J := fun pre s => s.WellFormed ∧ Grows t s ∧ ∀ y ∉ pre, SameAt y t s)
    (fun pre dst post s _ hJ => ?_) ⟨hwf, .refl t, fun y _ => .refl y t⟩
  obtain ⟨hs, hgrows, hsame⟩ := hJ
  obtain ⟨hgrows', hsame'⟩ := copyForwardTo_frame (P := P) copyLength srcs dst hs
  refine ⟨hgrows'.wellFormed hs, hgrows.trans hgrows', fun y hy => ?_⟩
  obtain ⟨hy, hne⟩ := not_or.1 (List.mem_append.not.1 hy)
  exact (hsame y hy).trans (hsame' y (List.mem_singleton.not.1 hne))

/-- What each copy establishes for its destination, with an invariant. -/
theorem copyAll_post (I : FieldTables F C V T → Prop)
    (post : ObjectKey V C → FieldTables F C V T → Prop) (hwf : t.WellFormed)
    (hI : ∀ dst ∈ dsts, ∀ s : FieldTables F C V T, s.WellFormed → I s →
      I (P.copyForwardTo copyLength srcs dst s).1)
    (hpost : ∀ dst ∈ dsts, ∀ s : FieldTables F C V T, s.WellFormed → I s →
      post dst (P.copyForwardTo copyLength srcs dst s).1)
    (hkeep : ∀ s s' x, Grows s s' → post x s → post x s') (ht : I t) :
    I (P.copyAll copyLength srcs dsts t) ∧
      ∀ dst ∈ dsts, post dst (P.copyAll copyLength srcs dsts t) := by
  obtain ⟨⟨-, hI⟩, hpost⟩ := foldAny_post (fun s => s.WellFormed ∧ I s) post
    (fun dst hdst s hs => ⟨(copyForwardTo_frame _ _ dst hs.1).1.wellFormed hs.1,
      hI dst hdst s hs.1 hs.2⟩)
    (fun dst hdst s hs => hpost dst hdst s hs.1 hs.2)
    (fun dst _ s hs x hx => hkeep s _ x (copyForwardTo_frame _ _ dst hs.1).1 hx) ⟨hwf, ht⟩
  exact ⟨hI, hpost⟩

omit [DecidableEq F] [DecidableEq C] [DecidableEq V] [DecidableEq T] in
theorem Blocked.mono {t' : FieldTables F C V T} (h : P.Blocked len srcs t) (hgrows : Grows t t') :
    P.Blocked len srcs t' := by
  obtain ⟨src, hsrc, h⟩ := h
  refine ⟨src, hsrc, h.imp (hgrows.impureObjects src) ?_⟩
  rintro ⟨indices, ty, hty, hlen⟩
  exact ⟨indices, ty, hgrows.fieldTy _ _ _ hty, hlen⟩

omit [DecidableEq F] [DecidableEq C] [DecidableEq V] [DecidableEq T] in
theorem Disagree.mono {t' : FieldTables F C V T} (h : Disagree srcs t) (hgrows : Grows t t') :
    Disagree srcs t' := by
  obtain ⟨src, hsrc, src', hsrc', indices, ty, ty', hty, hty', hne⟩ := h
  exact ⟨src, hsrc, src', hsrc', indices, ty, ty', hgrows.fieldTy _ _ _ hty,
    hgrows.fieldTy _ _ _ hty', hne⟩

/-! ### Copies that change nothing again -/

theorem copyAll_twice_of_impure
    (h : ∀ dst ∈ dsts, (P.copyAll copyLength srcs dsts t).impureObjects dst = true) :
    P.copyAll copyLength srcs dsts (P.copyAll copyLength srcs dsts t) =
      P.copyAll copyLength srcs dsts t :=
  foldAny_idle fun dst hdst => copyForwardTo_of_impure (h dst hdst)

/-- Without a constant length every destination is poisoned. -/
theorem copyAll_none (hwf : t.WellFormed) :
    ∀ dst ∈ dsts, (P.copyAll none srcs dsts t).impureObjects dst = true := by
  refine (copyAll_post (fun _ => True) (fun dst s => s.impureObjects dst = true) hwf
    (fun _ _ _ _ _ => trivial) (fun dst _ s _ _ => ?_) (fun _ _ x hgrows => hgrows.impureObjects x)
    trivial).2
  rw [copyForwardTo_none, impureObjects_poisonObject]

theorem copyAll_blocked (hwf : t.WellFormed) (h : P.Blocked len srcs t ∨ Disagree srcs t) :
    ∀ dst ∈ dsts, (P.copyAll (some len) srcs dsts t).impureObjects dst = true := by
  refine (copyAll_post (Grows t) (fun dst s => s.impureObjects dst = true) hwf
    (fun dst _ s hs hgrows => hgrows.trans (copyForwardTo_frame _ _ dst hs).1)
    (fun dst _ s hs hgrows => ?_) (fun _ _ x hgrows => hgrows.impureObjects x) (.refl t)).2
  rcases h with hb | hd
  · exact copyForwardTo_poisons hs (Or.inl (hb.mono hgrows))
  · exact copyForwardTo_disagree hs (hd.mono hgrows)

/-- Sources without known fields: only destinations with known fields change. -/
theorem copyForwardTo_empty (hwf : t.WellFormed) (hempty : ∀ src ∈ srcs, t.fieldsByObject src = [])
    (hb : ¬P.Blocked len srcs t) :
    (P.copyForwardTo (some len) srcs dst t).1 = t ∧
        (t.impureObjects dst = true ∨ ¬Clobbers srcs dst t) ∨
      Clobbers srcs dst t ∧ (P.copyForwardTo (some len) srcs dst t).1 = (t.poisonObject dst).1 := by
  rcases copyForwardTo_cases P len dst srcs hwf with ⟨himpure, heq⟩ | ⟨-, hbc, heq⟩ | ⟨-, hb, hc, -⟩
  · exact Or.inl ⟨heq, Or.inl himpure⟩
  · exact Or.inr ⟨hbc.resolve_left hb, heq⟩
  · exact Or.inl ⟨copyForwardTo_idle hwf hb hc (Or.inr hempty), Or.inr hc⟩

theorem copyAll_twice_of_empty (hwf : t.WellFormed)
    (hempty : ∀ src ∈ srcs, t.fieldsByObject src = []) (hb : ¬P.Blocked len srcs t) :
    P.copyAll (some len) srcs dsts (P.copyAll (some len) srcs dsts t) =
      P.copyAll (some len) srcs dsts t := by
  -- the known fields stay as they are, and the sources stay pure
  let I (s : FieldTables F C V T) : Prop := s.fieldsByObject = t.fieldsByObject ∧
    ∀ src ∈ srcs, s.impureObjects src = false
  have hemptyI : ∀ s, I s → ∀ src ∈ srcs, s.fieldsByObject src = [] := by
    intro s hs src hsrc
    rw [hs.1, hempty src hsrc]
  have hbI : ∀ s : FieldTables F C V T, s.WellFormed → I s → ¬P.Blocked len srcs s := by
    rintro s hs hI ⟨src, hsrc, himpure | ⟨indices, ty, hty, -⟩⟩
    · rw [hI.2 src hsrc] at himpure
      cases himpure
    · exact hs.fields_ne_nil.2 ⟨indices, ty, hty⟩ (hemptyI s hI src hsrc)
  have ht : I t := by
    refine ⟨rfl, fun src hsrc => ?_⟩
    by_contra himpure
    exact hb ⟨src, hsrc, Or.inl (by simpa using himpure)⟩
  have hstep : ∀ dst ∈ dsts, ∀ s : FieldTables F C V T, s.WellFormed → I s →
      I (P.copyForwardTo (some len) srcs dst s).1 := by
    intro dst _ s hs hI
    rcases copyForwardTo_empty hs (hemptyI s hI) (hbI s hs hI) with ⟨heq, -⟩ | ⟨hc, heq⟩
    · rwa [heq]
    · rw [heq]
      refine ⟨(poisonObject_fields dst s).1.trans hI.1, fun src hsrc => ?_⟩
      have hne : src ≠ dst := by
        rintro rfl
        exact hc.1 (hemptyI s hI src hsrc)
      rw [(poisonObject_sameAt s hne).impureObjects, hI.2 src hsrc]
  have hclobbers : ∀ s x, I s → (Clobbers srcs x s ↔ Clobbers srcs x t) := by
    intro s x hI
    rw [Clobbers, Clobbers, hI.1]
  obtain ⟨hI, hpost⟩ := copyAll_post I
    (fun dst s => s.impureObjects dst = true ∨ ¬Clobbers srcs dst t) hwf hstep
    (fun dst _ s hs hI => by
      rcases copyForwardTo_empty hs (hemptyI s hI) (hbI s hs hI) with ⟨heq, h⟩ | ⟨-, heq⟩
      · rwa [heq, ← hclobbers s dst hI]
      · exact Or.inl (by rw [heq, impureObjects_poisonObject]))
    (fun s s' x hgrows => Or.imp_left (hgrows.impureObjects x)) ht
  have hwf' := (copyAll_frame (P := P) (some len) srcs dsts hwf).1
  refine foldAny_idle fun dst hdst => ?_
  rcases hpost dst hdst with himpure | hc
  · exact copyForwardTo_of_impure himpure
  · exact copyForwardTo_idle hwf' (hbI _ hwf' hI) ((hclobbers _ dst hI).not.2 hc)
      (Or.inr (hemptyI _ hI))

/-! ### Copies of known fields -/

theorem copyAll_append (pre post : List (ObjectKey V C)) :
    P.copyAll copyLength srcs (pre ++ post) t =
      P.copyAll copyLength srcs post (P.copyAll copyLength srcs pre t) :=
  foldAny_append pre post t

/-- Every destination is poisoned or has known fields afterwards. -/
theorem copyAll_taken (len : ℕ) (hwf : t.WellFormed) (h : ∃ src ∈ srcs, t.fieldsByObject src ≠ []) :
    ∀ dst ∈ dsts, (P.copyAll (some len) srcs dsts t).impureObjects dst = true ∨
      (P.copyAll (some len) srcs dsts t).fieldsByObject dst ≠ [] := by
  refine (copyAll_post (Grows t)
    (fun dst s => s.impureObjects dst = true ∨ s.fieldsByObject dst ≠ []) hwf
    (fun dst _ s hs hgrows => hgrows.trans (copyForwardTo_frame _ _ dst hs).1)
    (fun dst _ s hs hgrows => ?_)
    (fun s s' x hgrows => Or.imp (hgrows.impureObjects x) (hgrows.fieldsByObject x)) (.refl t)).2
  obtain ⟨src, hsrc, hne⟩ := h
  exact copyForwardTo_taken hs ⟨src, hsrc, hgrows.fieldsByObject src hne⟩

/-- What is poisoned when the copy reaches it. -/
theorem copyAll_overtaken (len : ℕ) (pre : List (ObjectKey V C)) (hwf : t.WellFormed)
    (h : ∃ src ∈ srcs, t.fieldsByObject src ≠ []) {x : ObjectKey V C}
    (hx : Overtaken srcs t pre x) :
    (P.copyAll (some len) srcs (pre ++ [x]) t).impureObjects x = true := by
  obtain ⟨hwf', hgrows, -⟩ := copyAll_frame (P := P) (some len) srcs pre hwf
  obtain ⟨hx, hother⟩ := hx
  have hfields : (P.copyAll (some len) srcs pre t).impureObjects x = true ∨
      (P.copyAll (some len) srcs pre t).fieldsByObject x ≠ [] := by
    rcases hx with hx | hx
    · exact Or.inr (hgrows.fieldsByObject x hx)
    · exact copyAll_taken len hwf h x hx
  rw [copyAll_append]
  change (P.copyForwardTo (some len) srcs x _).1.impureObjects x = true
  rcases hfields with himpure | hfields
  · rw [copyForwardTo_of_impure himpure, himpure]
  · exact copyForwardTo_poisons hwf' (Or.inr ⟨hfields, hother⟩)

/-- The types of the fields of source objects come from source objects. -/
theorem copyAll_fieldTy (dsts : List (ObjectKey V C)) (K : List ℕ → T → Prop) (hwf : t.WellFormed)
    (hK : ∀ src ∈ srcs, ∀ indices ty, t.fieldTy src indices = some ty → K indices ty) :
    ∀ src ∈ srcs, ∀ indices ty, (P.copyAll (some len) srcs dsts t).fieldTy src indices = some ty →
      K indices ty := by
  refine (copyAll_post (fun s => ∀ src ∈ srcs, ∀ indices ty, s.fieldTy src indices = some ty →
    K indices ty) (fun _ _ => True) hwf (fun dst _ s hs hI src hsrc indices ty hty => ?_)
    (fun _ _ _ _ _ => trivial) (fun _ _ _ _ _ => trivial) hK).1
  by_cases heq : src = dst
  · subst heq
    rcases copyForwardTo_fieldTy hs hty with hty | ⟨src', hsrc', hty⟩
    · exact hI src hsrc indices ty hty
    · exact hI src' hsrc' indices ty hty
  · rw [((copyForwardTo_frame _ _ dst hs).2 src heq).fieldTy_eq] at hty
    exact hI src hsrc indices ty hty

/-- A destination with known fields is poisoned when there is another source object. -/
theorem copyAll_clobbered (copyLength : Option ℕ) (hwf : t.WellFormed) :
    ∀ dst ∈ dsts, Clobbers srcs dst t →
      (P.copyAll copyLength srcs dsts t).impureObjects dst = true := by
  cases copyLength with
  | none => exact fun dst hdst _ => copyAll_none hwf dst hdst
  | some len =>
    refine (copyAll_post (Grows t)
      (fun dst s => Clobbers srcs dst t → s.impureObjects dst = true) hwf
      (fun dst _ s hs hgrows => hgrows.trans (copyForwardTo_frame _ _ dst hs).1)
      (fun dst _ s hs hgrows hc => ?_)
      (fun s s' x hgrows himpure hc => hgrows.impureObjects x (himpure hc)) (.refl t)).2
    exact copyForwardTo_poisons hs (Or.inr ⟨hgrows.fieldsByObject dst hc.1, hc.2⟩)

theorem copyAll_twice_of_overtaken (hwf : t.WellFormed) (hb : ¬P.Blocked len srcs t)
    (hsome : ∃ src ∈ srcs, t.fieldsByObject src ≠ [])
    (h : ∀ dst ∈ dsts, t.fieldsByObject dst = [] → t.impureObjects dst = true ∨
      ∃ pre x post, dsts = pre ++ x :: post ∧ Overtaken srcs t pre x ∧
        (x = dst ∨ x ∈ srcs ∧ dst ∈ post)) :
    P.copyAll (some len) srcs dsts (P.copyAll (some len) srcs dsts t) =
      P.copyAll (some len) srcs dsts t := by
  obtain ⟨hwf', hgrows, -⟩ := copyAll_frame (P := P) (some len) srcs dsts hwf
  -- what is poisoned in the middle stays poisoned, and poisons what comes later
  have hlater : ∀ pre x post, dsts = pre ++ x :: post → Overtaken srcs t pre x →
      (P.copyAll (some len) srcs dsts t).impureObjects x = true ∧
        (x ∈ srcs → ∀ dst ∈ post, (P.copyAll (some len) srcs dsts t).impureObjects dst = true) := by
    intro pre x post heq hx
    have himpure := copyAll_overtaken (P := P) len pre hwf hsome hx
    obtain ⟨hwfx, -, -⟩ := copyAll_frame (P := P) (some len) srcs (pre ++ [x]) hwf
    rw [heq, List.append_cons, copyAll_append]
    refine ⟨(copyAll_frame (some len) srcs post hwfx).2.1.impureObjects x himpure, fun hsrc => ?_⟩
    exact copyAll_blocked hwfx (Or.inl ⟨x, hsrc, Or.inl himpure⟩)
  have hall : ∀ dst ∈ dsts, (P.copyAll (some len) srcs dsts t).impureObjects dst = true ∨
      ∀ src ∈ srcs, src = dst := by
    intro dst hdst
    by_cases hfields : t.fieldsByObject dst = []
    · rcases h dst hdst hfields with himpure | ⟨pre, x, post, heq, hx, rfl | ⟨hsrc, hpost⟩⟩
      · exact Or.inl (hgrows.impureObjects dst himpure)
      · exact Or.inl (hlater pre x post heq hx).1
      · exact Or.inl ((hlater pre x post heq hx).2 hsrc dst hpost)
    · by_cases hother : ∃ src ∈ srcs, src ≠ dst
      · obtain ⟨pre, post, heq⟩ := List.append_of_mem hdst
        exact Or.inl (hlater pre dst post heq ⟨Or.inl hfields, hother⟩).1
      · exact Or.inr fun src hsrc => by_contra fun hne => hother ⟨src, hsrc, hne⟩
  refine foldAny_idle fun dst hdst => ?_
  cases himpure : (P.copyAll (some len) srcs dsts t).impureObjects dst with
  | true => exact copyForwardTo_of_impure himpure
  | false =>
    have hself : ∀ src ∈ srcs, src = dst := (hall dst hdst).resolve_left (by simp [himpure])
    refine copyForwardTo_idle hwf' ?_ ?_ (Or.inl hself)
    · rintro ⟨src, hsrc, himp | ⟨indices, ty, hty, hlen⟩⟩
      · rw [hself src hsrc, himpure] at himp
        cases himp
      · refine copyAll_fieldTy dsts (fun _ ty => ¬len < P.typeAllocSize ty) hwf ?_ src hsrc indices
          ty hty hlen
        exact fun src hsrc indices ty hty hlen => hb ⟨src, hsrc, Or.inr ⟨indices, ty, hty, hlen⟩⟩
    · rintro ⟨-, src, hsrc, hne⟩
      exact hne (hself src hsrc)

/-- Source objects from which can be copied: pure, with fields of the types `K`. -/
structure Copyable (K : List ℕ → T → Prop) (srcs : List (ObjectKey V C)) (t : FieldTables F C V T) :
    Prop where
  wellFormed : t.WellFormed
  pure : ∀ src ∈ srcs, t.impureObjects src = false
  fieldTy : ∀ src ∈ srcs, ∀ indices ty, t.fieldTy src indices = some ty → K indices ty

theorem copyForwardTo_pure {K : List ℕ → T → Prop}
    (hK : ∀ indices ty ty', K indices ty → K indices ty' → ty = ty')
    (hfit : ∀ indices ty, K indices ty → ¬len < P.typeAllocSize ty) (h : Copyable K srcs t)
    (hc : ¬Clobbers srcs dst t) (hpure : t.impureObjects dst = false)
    (hdst : ∀ indices ty, t.fieldTy dst indices = some ty → K indices ty) :
    (P.copyForwardTo (some len) srcs dst t).1.impureObjects dst = false := by
  rcases copyForwardTo_cases P len dst srcs h.wellFormed with
    ⟨himpure, -⟩ | ⟨-, hb | hc', -⟩ | ⟨-, -, -, heq⟩
  · rw [hpure] at himpure
    cases himpure
  · obtain ⟨src, hsrc, himpure | ⟨indices, ty, hty, hlen⟩⟩ := hb
    · rw [h.pure src hsrc] at himpure
      cases himpure
    · exact absurd hlen (hfit indices ty (h.fieldTy src hsrc indices ty hty))
  · exact absurd hc' hc
  · rw [heq]
    refine (mergeAll_merges dst _ t).pure K hK hdst (fun x hx => ?_) hpure
    obtain ⟨src, hsrc, hx⟩ := List.mem_flatMap.1 hx
    exact h.fieldTy src hsrc _ _ (h.wellFormed.known_fieldTy.1 ⟨x, hx, rfl, rfl⟩)

/-- A destination without known fields that the copy reaches before anything is poisoned. -/
theorem copyAll_pure (hwf : t.WellFormed) (hb : ¬P.Blocked len srcs t) (hd : ¬Disagree srcs t)
    {pre : List (ObjectKey V C)}
    (hpre : ∀ p x q, pre = p ++ x :: q → x ∈ srcs → ¬Overtaken srcs t p x) (hdst : dst ∉ pre)
    (hpure : t.impureObjects dst = false) (hfields : t.fieldsByObject dst = []) :
    (P.copyAll (some len) srcs (pre ++ [dst]) t).impureObjects dst = false := by
  let K (indices : List ℕ) (ty : T) : Prop := ∃ src ∈ srcs, t.fieldTy src indices = some ty
  have hK : ∀ indices ty ty', K indices ty → K indices ty' → ty = ty' := by
    rintro indices ty ty' ⟨src, hsrc, hty⟩ ⟨src', hsrc', hty'⟩
    by_contra hne
    exact hd ⟨src, hsrc, src', hsrc', indices, ty, ty', hty, hty', hne⟩
  have hfit : ∀ indices ty, K indices ty → ¬len < P.typeAllocSize ty := by
    rintro indices ty ⟨src, hsrc, hty⟩ hlen
    exact hb ⟨src, hsrc, Or.inr ⟨indices, ty, hty, hlen⟩⟩
  have ht : Copyable K srcs t := by
    refine ⟨hwf, fun src hsrc => ?_, fun src hsrc indices ty hty => ⟨src, hsrc, hty⟩⟩
    by_contra himpure
    exact hb ⟨src, hsrc, Or.inl (by simpa using himpure)⟩
  obtain ⟨hcopyable, -⟩ : Copyable K srcs (P.copyAll (some len) srcs pre t) ∧ ∀ y ∈ srcs,
      (P.copyAll (some len) srcs pre t).fieldsByObject y ≠ [] →
        t.fieldsByObject y ≠ [] ∨ y ∈ pre := by
    refine foldAny_prefix (J := fun p s => Copyable K srcs s ∧
      ∀ y ∈ srcs, s.fieldsByObject y ≠ [] → t.fieldsByObject y ≠ [] ∨ y ∈ p)
      (fun p x q s heq hJ => ?_) ⟨ht, fun y _ => Or.inl⟩
    obtain ⟨hs, hfieldsOf⟩ := hJ
    obtain ⟨hgrows, hsame⟩ := copyForwardTo_frame (P := P) (some len) srcs x hs.wellFormed
    refine ⟨⟨hgrows.wellFormed hs.wellFormed, fun src hsrc => ?_, ?_⟩, fun y hy hne => ?_⟩
    · by_cases hx : src = x
      · -- a source that is reached was not overtaken, so its own copy does not poison it
        subst hx
        refine copyForwardTo_pure hK hfit hs (fun hc => ?_) (hs.pure src hsrc) (hs.fieldTy src hsrc)
        exact hpre p src q heq hsrc ⟨hfieldsOf src hsrc hc.1, hc.2⟩
      · rw [(hsame src hx).impureObjects, hs.pure src hsrc]
    · exact copyAll_fieldTy [x] K hs.wellFormed hs.fieldTy
    · by_cases hx : y = x
      · exact Or.inr (hx ▸ List.mem_append_right p (List.mem_singleton_self y))
      · rw [(hsame y hx).fieldsByObject] at hne
        exact (hfieldsOf y hy hne).imp_right (List.mem_append_left [x])
  have hsame := (copyAll_frame (P := P) (some len) srcs pre hwf).2.2 dst hdst
  rw [copyAll_append]
  refine copyForwardTo_pure hK hfit hcopyable (fun hc => ?_) (hsame.impureObjects.trans hpure)
    (fun indices ty hty => ?_)
  · exact hc.1 (hsame.fieldsByObject.trans hfields)
  · rw [hsame.fieldTy_eq] at hty
    exact absurd hfields (hwf.fields_ne_nil.2 ⟨indices, ty, hty⟩)

theorem overtaken_of_twice (hwf : t.WellFormed) (hb : ¬P.Blocked len srcs t) (hd : ¬Disagree srcs t)
    (hsome : ∃ src ∈ srcs, t.fieldsByObject src ≠ [])
    (h : P.copyAll (some len) srcs dsts (P.copyAll (some len) srcs dsts t) =
      P.copyAll (some len) srcs dsts t) {dst : ObjectKey V C} (hdst : dst ∈ dsts)
    (hfields : t.fieldsByObject dst = []) : t.impureObjects dst = true ∨
      ∃ pre x post, dsts = pre ++ x :: post ∧ Overtaken srcs t pre x ∧
        (x = dst ∨ x ∈ srcs ∧ dst ∈ post) := by
  by_contra hnot
  obtain ⟨hpure, hnone⟩ := not_or.1 hnot
  rw [Bool.not_eq_true] at hpure
  obtain ⟨src, hsrc, hne⟩ := hsome
  have hother : ∃ src ∈ srcs, src ≠ dst := ⟨src, hsrc, fun heq => hne (heq ▸ hfields)⟩
  obtain ⟨pre, post, heq⟩ := List.append_of_mem hdst
  have hpre : dst ∉ pre := fun hmem =>
    hnone ⟨pre, dst, post, heq, ⟨Or.inr hmem, hother⟩, Or.inl rfl⟩
  have hpost : dst ∉ post := by
    intro hmem
    obtain ⟨p, q, rfl⟩ := List.append_of_mem hmem
    refine hnone ⟨pre ++ dst :: p, dst, q, by simp [heq], ⟨Or.inr (by simp), hother⟩, Or.inl rfl⟩
  -- after the first run the destination is pure and has known fields
  have hpure₁ : (P.copyAll (some len) srcs dsts t).impureObjects dst = false := by
    have := copyAll_pure (P := P) hwf hb hd (fun p x q hp hx hover => hnone
      ⟨p, x, q ++ dst :: post, by simp [heq, hp], hover, Or.inr ⟨hx, by simp⟩⟩) hpre hpure hfields
    rw [heq, List.append_cons, copyAll_append]
    obtain ⟨hwf', -⟩ := copyAll_frame (P := P) (some len) srcs (pre ++ [dst]) hwf
    rw [((copyAll_frame (some len) srcs post hwf').2.2 dst hpost).impureObjects, this]
  have hfields₁ := (copyAll_taken (P := P) len hwf ⟨src, hsrc, hne⟩ dst hdst).resolve_left
    (by simp [hpure₁])
  -- so that the second run poisons it
  obtain ⟨hwf₁, hgrows, -⟩ := copyAll_frame (P := P) (some len) srcs dsts hwf
  have himpure := copyAll_overtaken (P := P) len pre hwf₁
    ⟨src, hsrc, hgrows.fieldsByObject src hne⟩ ⟨Or.inl hfields₁, hother⟩
  have hsplit : dsts = (pre ++ [dst]) ++ post := by simp [heq]
  have himpure₂ : (P.copyAll (some len) srcs dsts (P.copyAll (some len) srcs dsts t)).impureObjects
      dst = true := by
    obtain ⟨hwf₂, -⟩ := copyAll_frame (P := P) (some len) srcs (pre ++ [dst]) hwf₁
    nth_rewrite 1 [hsplit]
    rw [copyAll_append]
    exact (copyAll_frame (some len) srcs post hwf₂).2.1.impureObjects dst himpure
  rw [h, hpure₁] at himpure₂
  cases himpure₂

/-- A second run changes nothing exactly in the cases of `CopiesOnce`. -/
theorem copyAll_twice_iff (hwf : t.WellFormed) :
    P.copyAll copyLength srcs dsts (P.copyAll copyLength srcs dsts t) =
      P.copyAll copyLength srcs dsts t ↔ P.CopiesOnce copyLength srcs dsts t := by
  cases copyLength with
  | none =>
    refine iff_of_true (copyAll_twice_of_impure (copyAll_none hwf)) ?_
    rintro len ⟨⟩
  | some len =>
    constructor
    · rintro h _ ⟨⟩
      by_contra hnot
      obtain ⟨hb, hnot⟩ := not_or.1 hnot
      obtain ⟨hd, hnot⟩ := not_or.1 hnot
      obtain ⟨hempty, hnot⟩ := not_or.1 hnot
      push Not at hempty
      exact hnot fun dst hdst hfields => overtaken_of_twice hwf hb hd hempty h hdst hfields
    · intro h
      by_cases hb : P.Blocked len srcs t
      · exact copyAll_twice_of_impure (copyAll_blocked hwf (Or.inl hb))
      by_cases hempty : ∀ src ∈ srcs, t.fieldsByObject src = []
      · exact copyAll_twice_of_empty hwf hempty hb
      rcases ((h len rfl).resolve_left hb) with hd | hempty' | hover
      · exact copyAll_twice_of_impure (copyAll_blocked hwf (Or.inr hd))
      · exact absurd hempty' hempty
      · push Not at hempty
        exact copyAll_twice_of_overtaken hwf hb hempty hover

end Program

end Phasar.Andersen
