import Mathlib.Data.List.Basic

/-!
# Passes that report a change

A pass runs a step for each record of a list and reports whether one of them changed something.

* `foldAny`, `runAny`: total steps, and steps that may fail;
* `foldAny_rule`: what total steps keep;
* `foldAny_prefix`, `foldAny_post`: what holds after the records so far, and for each of them;
* `foldAny_quiet`, `runAny_quiet`: a pass that reports no change;
* `runAny_rule`: invariants of a pass.
-/

namespace ChangePass

variable {ρ σ : Type*}

/-- Run a step for each record; whether one of them reported a change. -/
def foldAny (step : ρ → σ → σ × Bool) : List ρ → σ → σ × Bool
  | [], s => (s, false)
  | r :: rs, s =>
    let res := foldAny step rs (step r s).1
    (res.1, (step r s).2 || res.2)

/-- What every step leaves behind for good. -/
theorem foldAny_rule {step : ρ → σ → σ × Bool} {T : σ → σ → Prop} (hrefl : ∀ s, T s s)
    (htrans : ∀ s₁ s₂ s₃, T s₁ s₂ → T s₂ s₃ → T s₁ s₃) (hstep : ∀ r s, T s (step r s).1)
    (rs : List ρ) (s : σ) : T s (foldAny step rs s).1 := by
  induction rs generalizing s with
  | nil => exact hrefl s
  | cons r rs ih => exact htrans _ _ _ (hstep r s) (ih _)

theorem foldAny_append {step : ρ → σ → σ × Bool} (rs rs' : List ρ) (s : σ) :
    (foldAny step (rs ++ rs') s).1 = (foldAny step rs' (foldAny step rs s).1).1 := by
  induction rs generalizing s with
  | nil => rfl
  | cons r rs ih => exact ih _

/-- A pass in a state in which all its steps do nothing. -/
theorem foldAny_idle {step : ρ → σ → σ × Bool} {rs : List ρ} {s : σ}
    (h : ∀ r ∈ rs, (step r s).1 = s) : (foldAny step rs s).1 = s := by
  induction rs with
  | nil => rfl
  | cons r rs ih =>
    rw [foldAny, h r List.mem_cons_self]
    exact ih fun r' hr' => h r' (List.mem_cons_of_mem r hr')

/-- If a step without a report changes nothing, so does a pass without one. -/
theorem foldAny_quiet {step : ρ → σ → σ × Bool} {rs : List ρ}
    (hquiet : ∀ r ∈ rs, ∀ s, (step r s).2 = false → (step r s).1 = s) {s : σ}
    (h : (foldAny step rs s).2 = false) : (foldAny step rs s).1 = s ∧ ∀ r ∈ rs, step r s = (s, false) := by
  induction rs with
  | nil => exact ⟨rfl, by simp⟩
  | cons r rs ih =>
    obtain ⟨hr, hrs⟩ := Bool.or_eq_false_iff.1 h
    have hsame := hquiet r List.mem_cons_self s hr
    rw [hsame] at hrs
    obtain ⟨heq, hall⟩ := ih (fun r' hr' => hquiet r' (List.mem_cons_of_mem r hr')) hrs
    refine ⟨(congrArg (fun s => (foldAny step rs s).1) hsame).trans heq, fun r' hr' => ?_⟩
    rcases List.mem_cons.1 hr' with rfl | hr'
    · exact Prod.ext hsame hr
    · exact hall r' hr'

theorem foldAny_of_quiet {step : ρ → σ → σ × Bool} {rs : List ρ} {s : σ}
    (h : ∀ r ∈ rs, step r s = (s, false)) : foldAny step rs s = (s, false) := by
  induction rs with
  | nil => rfl
  | cons r rs ih =>
    rw [foldAny, h r List.mem_cons_self, ih fun r' hr' => h r' (List.mem_cons_of_mem r hr')]
    rfl

/-- An invariant that refers to the records that have been processed. -/
theorem foldAny_prefix {step : ρ → σ → σ × Bool} {J : List ρ → σ → Prop} {rs : List ρ} {s : σ}
    (hstep : ∀ pre r post s, rs = pre ++ r :: post → J pre s → J (pre ++ [r]) (step r s).1)
    (hs : J [] s) : J rs (foldAny step rs s).1 := by
  induction rs generalizing s J with
  | nil => exact hs
  | cons r rs ih =>
    refine ih (J := fun pre => J (r :: pre)) (fun pre x post s heq hJ => ?_)
      (hstep [] r rs s rfl hs)
    exact hstep (r :: pre) x post s (by rw [heq]; rfl) hJ

/-- What each step establishes for its record and all steps keep. -/
theorem foldAny_post (I : σ → Prop) (post : ρ → σ → Prop) {step : ρ → σ → σ × Bool} {rs : List ρ}
    {s : σ} (hI : ∀ r ∈ rs, ∀ s, I s → I (step r s).1)
    (hpost : ∀ r ∈ rs, ∀ s, I s → post r (step r s).1)
    (hkeep : ∀ r ∈ rs, ∀ s, I s → ∀ x, post x s → post x (step r s).1) (hs : I s) :
    I (foldAny step rs s).1 ∧ ∀ r ∈ rs, post r (foldAny step rs s).1 := by
  refine foldAny_prefix (J := fun pre s => I s ∧ ∀ r ∈ pre, post r s)
    (fun pre r rest s heq hJ => ?_) ⟨hs, by simp⟩
  have hr : r ∈ rs := heq ▸ List.mem_append_right pre List.mem_cons_self
  refine ⟨hI r hr s hJ.1, fun x hx => ?_⟩
  rcases List.mem_append.1 hx with hx | hx
  · exact hkeep r hr s hJ.1 x (hJ.2 x hx)
  · exact List.mem_singleton.1 hx ▸ hpost r hr s hJ.1

/-- The same for steps that may fail. -/
def runAny (step : ρ → σ → Option (σ × Bool)) : List ρ → σ → Option (σ × Bool)
  | [], s => some (s, false)
  | r :: rs, s => (step r s).bind fun res =>
      (runAny step rs res.1).map fun res' => (res'.1, res.2 || res'.2)

/-- A condition on all steps of a pass, in the states in which they run. -/
def AllSteps (ok : ρ → σ → Prop) (step : ρ → σ → Option (σ × Bool)) : List ρ → σ → Prop
  | [], _ => True
  | r :: rs, s => ok r s ∧ ∀ res, step r s = some res → AllSteps ok step rs res.1

variable {step : ρ → σ → Option (σ × Bool)} {ok : ρ → σ → Prop} {rs : List ρ} {s s' : σ} {b : Bool}

theorem AllSteps.of_forall (h : ∀ r s, ok r s) : AllSteps ok step rs s := by
  induction rs generalizing s with
  | nil => trivial
  | cons r rs ih => exact ⟨h r s, fun _ _ => ih⟩

theorem runAny_cons {r : ρ} (h : runAny step (r :: rs) s = some (s', b)) :
    ∃ s₁ b₁ b₂, step r s = some (s₁, b₁) ∧ runAny step rs s₁ = some (s', b₂) ∧ b = (b₁ || b₂) := by
  obtain ⟨⟨s₁, b₁⟩, h₁, h⟩ := Option.bind_eq_some_iff.1 h
  obtain ⟨⟨s₂, b₂⟩, h₂, h⟩ := Option.map_eq_some_iff.1 h
  cases h
  exact ⟨s₁, b₁, b₂, h₁, h₂, rfl⟩

theorem runAny_of_quiet (h : ∀ r ∈ rs, step r s = some (s, false)) : runAny step rs s = some (s, false) := by
  induction rs with
  | nil => rfl
  | cons r rs ih =>
    rw [runAny, h r List.mem_cons_self, Option.bind_some, ih fun r' hr' => h r' (List.mem_cons_of_mem r hr')]
    rfl

/-- A pass that reports no change and ends in a state with `I`: its steps are all `T`, and each leaves
`post` behind. -/
theorem runAny_quiet {I : σ → Prop} {T : σ → σ → Prop} {post : ρ → σ → Prop} (hrefl : ∀ s, T s s)
    (htrans : ∀ s₁ s₂ s₃, T s₁ s₂ → T s₂ s₃ → T s₁ s₃) (hback : ∀ s s', T s s' → I s' → I s)
    (hstep : ∀ r s s', step r s = some (s', false) → I s' → T s s' ∧ post r s')
    (hkeep : ∀ r s s', T s s' → post r s → post r s') (h : runAny step rs s = some (s', false)) (hI : I s') :
    T s s' ∧ ∀ r ∈ rs, post r s' := by
  induction rs generalizing s with
  | nil =>
    cases h
    exact ⟨hrefl _, by simp⟩
  | cons r rs ih =>
    obtain ⟨s₁, b₁, b₂, h₁, h₂, hb⟩ := runAny_cons h
    obtain ⟨rfl, rfl⟩ := Bool.or_eq_false_iff.1 hb.symm
    obtain ⟨hT, hpost⟩ := ih h₂
    obtain ⟨hT₁, hpost₁⟩ := hstep r s s₁ h₁ (hback s₁ s' hT hI)
    refine ⟨htrans _ _ _ hT₁ hT, fun r' hr' => ?_⟩
    rcases List.mem_cons.1 hr' with rfl | hr'
    · exact hkeep _ _ _ hT hpost₁
    · exact hpost r' hr'

/-- What every step keeps, and what it leaves behind for good. -/
theorem runAny_rule {I : σ → Prop} {T : σ → σ → Prop} (hrefl : ∀ s, T s s)
    (htrans : ∀ s₁ s₂ s₃, T s₁ s₂ → T s₂ s₃ → T s₁ s₃)
    (hstep : ∀ r s s' b, ok r s → I s → step r s = some (s', b) → I s' ∧ T s s')
    (hok : AllSteps ok step rs s) (hs : I s) (h : runAny step rs s = some (s', b)) :
    I s' ∧ T s s' := by
  induction rs generalizing s b with
  | nil =>
    cases h
    exact ⟨hs, hrefl _⟩
  | cons r rs ih =>
    obtain ⟨s₁, b₁, b₂, h₁, h₂, -⟩ := runAny_cons h
    obtain ⟨hs₁, hT₁⟩ := hstep r s s₁ b₁ hok.1 hs h₁
    obtain ⟨hs', hT⟩ := ih (hok.2 _ h₁) hs₁ h₂
    exact ⟨hs', htrans _ _ _ hT₁ hT⟩

end ChangePass
