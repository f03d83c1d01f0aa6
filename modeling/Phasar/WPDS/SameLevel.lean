import Phasar.Lib.FiniteJoin
import Phasar.WPDS.Saturation

/-!
# Same-level sequences of rules

A same-level sequence applies normal rules and whole calls, so that it never pops the entry it started in.
The path edges of a saturated system hold the combine of the weights of all these sequences.

* `SameLevel`, `Entered`, `Sequence`: the sequences from the seeds and the pushed entries;
* `saturation_exact`: `solveImpl` ends, with the path edges and weights that the sequences have, for any
  order of the work list and of the rules.
-/

namespace Phasar.WPDS

open WPDSSolver Deduction

variable {CL SE W : Type*} {RP RP' : RuleProvider CL SE W} {SR : SemiRing W}

/-- `src` is a seed or the entry of a pushed fact, and a same-level sequence of weight `w` leads
from there to `n`. With `makeSrcFacts` an entry stands for the facts that are pushed for it. -/
inductive SameLevel (RP : RuleProvider CL SE W) (SR : SemiRing W) : Node CL SE → Node CL SE → W → Prop
  | seed {src : Node CL SE} {w : W} : (src, w) ∈ RP.initialSeeds → SameLevel RP SR src src SR.identity
  | entry {src n : Node CL SE} {w : W} {p : PushRule CL SE W} {real : CL} : SameLevel RP SR src n w →
      (p, real) ∈ pushes RP n → SameLevel RP SR (real, p.entrySE) (p.succFact, p.entrySE) SR.identity
  | normal {src n n' : Node CL SE} {w v : W} : SameLevel RP SR src n w → (n', v) ∈ RP.getNormalRules n →
      SameLevel RP SR src n' (SR.extend w v)
  | call {src n x : Node CL SE} {w v : W} {p : PushRule CL SE W} {real : CL} {pop : CL × W} :
      SameLevel RP SR src n w → (p, real) ∈ pushes RP n → SameLevel RP SR (real, p.entrySE) x v →
      RP.hasPopRules x = true → pop ∈ RP.getPopRules x p.retSite p.entrySE →
      SameLevel RP SR src (pop.1, p.retSite) (SR.extend (SR.extend (SR.extend w p.weight) v) pop.2)

theorem sameLevel_iff_deriv {src n : Node CL SE} {w : W} :
    SameLevel RP SR src n w ↔ Deriv (rules RP SR) (Dropped W) (src, n) w := by
  constructor
  · intro h
    induction h with
    | seed hseed => exact .ax ⟨⟨_, hseed⟩, rfl, rfl⟩ id
    | @entry src n w p real _ hp ih =>
      have hflow : Flow RP SR (src, n) ((real, p.entrySE), (p.succFact, p.entrySE)) _ := .push hp
      exact Deriv.un_eq hflow ih rfl id
    | @normal src n n' _ _ _ hrule ih =>
      have hflow : Flow RP SR (src, n) (src, n') _ := .normal hrule
      exact Deriv.un_eq hflow ih rfl id
    | @call src n x _ _ p real pop _ hp _ hpop hmem ih₁ ih₂ =>
      have hsum : Summary RP SR (src, n) ((real, p.entrySE), x) (src, (pop.1, p.retSite)) _ :=
        .mk hp hpop hmem
      exact Deriv.bin_eq hsum ih₁ ih₂ rfl id
  · intro h
    suffices key : ∀ k : PathEdge CL SE, Deriv (rules RP SR) (Dropped W) k w →
      SameLevel RP SR k.1 k.2 w from key _ h
    clear h
    intro k h
    induction h with
    | @ax k e ha _ =>
      obtain ⟨⟨v, hseed⟩, hk, rfl⟩ := ha
      rw [hk]
      exact .seed hseed
    | un hu _ _ ih =>
      cases hu with
      | normal hrule => exact ih.normal hrule
      | push hp => exact ih.entry hp
    | bin hb _ _ _ ih₁ ih₂ =>
      cases hb with
      | mk hp hpop hmem => exact ih₁.call hp ih₂ hpop hmem

/-! ### Providers without source facts -/

/-- The same-level sequences from a node. -/
inductive Sequence (RP : RuleProvider CL SE W) (SR : SemiRing W) : Node CL SE → Node CL SE → W → Prop
  | nil (n : Node CL SE) : Sequence RP SR n n SR.identity
  | normal {src n n' : Node CL SE} {w v : W} : Sequence RP SR src n w → (n', v) ∈ RP.getNormalRules n →
      Sequence RP SR src n' (SR.extend w v)
  | call {src n x : Node CL SE} {w v : W} {p : PushRule CL SE W} {pop : CL × W} : Sequence RP SR src n w →
      p ∈ RP.getPushRules n → Sequence RP SR (p.succFact, p.entrySE) x v → RP.hasPopRules x = true →
      pop ∈ RP.getPopRules x p.retSite p.entrySE →
      Sequence RP SR src (pop.1, p.retSite) (SR.extend (SR.extend (SR.extend w p.weight) v) pop.2)

/-- The seeds and the pushed entries. -/
inductive Entered (RP : RuleProvider CL SE W) (SR : SemiRing W) : Node CL SE → Prop
  | seed {src : Node CL SE} {w : W} : (src, w) ∈ RP.initialSeeds → Entered RP SR src
  | push {src n : Node CL SE} {w : W} {p : PushRule CL SE W} : Entered RP SR src →
    Sequence RP SR src n w →
      p ∈ RP.getPushRules n → Entered RP SR (p.succFact, p.entrySE)

theorem mem_pushes_iff (h : RP.makeSrcFacts = none) {n : Node CL SE} {p : PushRule CL SE W} {real : CL} :
    (p, real) ∈ pushes RP n ↔ p ∈ RP.getPushRules n ∧ real = p.succFact := by
  simp only [pushes, RuleProvider.srcFacts, h, List.map_cons, List.map_nil, List.mem_flatMap,
    List.mem_singleton,
    Prod.mk.injEq]
  constructor
  · rintro ⟨_, hp, rfl, rfl⟩
    exact ⟨hp, rfl⟩
  · rintro ⟨hp, rfl⟩
    exact ⟨p, hp, rfl, rfl⟩

theorem sameLevel_iff (h : RP.makeSrcFacts = none) {src n : Node CL SE} {w : W} :
    SameLevel RP SR src n w ↔ Entered RP SR src ∧ Sequence RP SR src n w := by
  constructor
  · intro hs
    induction hs with
    | seed hseed => exact ⟨.seed hseed, .nil _⟩
    | entry _ hp ih =>
      obtain ⟨hrule, rfl⟩ := (mem_pushes_iff h).1 hp
      exact ⟨.push ih.1 ih.2 hrule, .nil _⟩
    | normal _ hrule ih => exact ⟨ih.1, ih.2.normal hrule⟩
    | call _ hp _ hpop hmem ih₁ ih₂ =>
      obtain ⟨hrule, rfl⟩ := (mem_pushes_iff h).1 hp
      exact ⟨ih₁.1, ih₁.2.call hrule ih₂.2 hpop hmem⟩
  · -- a sequence from an entered node, and the nodes that are entered on the way
    have hseq : ∀ {src n w}, Sequence RP SR src n w → SameLevel RP SR src src SR.identity →
        SameLevel RP SR src n w := by
      intro src n w hs
      induction hs with
      | nil => exact id
      | normal _ hrule ih => exact fun h₀ => (ih h₀).normal hrule
      | call _ hp _ hpop hmem ih₁ ih₂ =>
        intro h₀
        have hp' := (mem_pushes_iff h).2 ⟨hp, rfl⟩
        exact (ih₁ h₀).call hp' (ih₂ ((ih₁ h₀).entry hp')) hpop hmem
    rintro ⟨hen, hs⟩
    refine hseq hs ?_
    clear hs
    induction hen with
    | seed hseed => exact .seed hseed
    | push _ hs hp ih => exact (hseq hs ih).entry ((mem_pushes_iff h).2 ⟨hp, rfl⟩)

/-! ### The order of the rules -/

/-- The same rules in another order. -/
structure RuleProvider.Perm (RP RP' : RuleProvider CL SE W) : Prop where
  normal : ∀ n, (RP.getNormalRules n).Perm (RP'.getNormalRules n)
  push : ∀ n, (RP.getPushRules n).Perm (RP'.getPushRules n)
  hasPop : ∀ n, RP.hasPopRules n = RP'.hasPopRules n
  pop : ∀ n ret entry, (RP.getPopRules n ret entry).Perm (RP'.getPopRules n ret entry)
  seeds : RP.initialSeeds.Perm RP'.initialSeeds
  srcFacts : ∀ f, (RP.srcFacts f).Perm (RP'.srcFacts f)

theorem RuleProvider.Perm.symm (h : RP.Perm RP') : RP'.Perm RP :=
  ⟨fun n => (h.normal n).symm, fun n => (h.push n).symm, fun n => (h.hasPop n).symm,
    fun n ret entry => (h.pop n ret entry).symm, h.seeds.symm, fun f => (h.srcFacts f).symm⟩

theorem SameLevel.perm (h : RP.Perm RP') {src n : Node CL SE} {w : W} (hs : SameLevel RP SR src n w) :
    SameLevel RP' SR src n w := by
  have hpush : ∀ {n p real}, (p, real) ∈ pushes RP n → (p, real) ∈ pushes RP' n := by
    intro n p real hp
    simp only [pushes, List.mem_flatMap, List.mem_map, Prod.mk.injEq] at hp ⊢
    obtain ⟨p, hp, real, hreal, rfl, rfl⟩ := hp
    exact ⟨p, (h.push n).mem_iff.1 hp, real, (h.srcFacts _).mem_iff.1 hreal, rfl, rfl⟩
  induction hs with
  | seed hseed => exact .seed (h.seeds.mem_iff.1 hseed)
  | entry _ hp ih => exact ih.entry (hpush hp)
  | normal _ hrule ih => exact ih.normal ((h.normal _).mem_iff.1 hrule)
  | call _ hp _ hpop hmem ih₁ ih₂ =>
    exact ih₁.call (hpush hp) ih₂ (h.hasPop _ ▸ hpop) ((h.pop _ _ _).mem_iff.1 hmem)

/-! ### Saturation -/

/-- The path edges of a table and their weights are those of the same-level sequences. -/
def Exact [SemilatticeSup W] (RP : RuleProvider CL SE W) (SR : SemiRing W)
    (stored : PathEdge CL SE → Option W) : Prop :=
  ∀ src n, (stored (src, n) ≠ none ↔ ∃ w, SameLevel RP SR src n w) ∧
    ∀ e, stored (src, n) = some e → IsFiniteJoin {w | SameLevel RP SR src n w} e

theorem Exact.unique [SemilatticeSup W] (h : RP.Perm RP') {J J' : PathEdge CL SE → Option W}
    (hJ : Exact RP SR J)
    (hJ' : Exact RP' SR J') : J = J' := by
  have hset : ∀ src n, {w | SameLevel RP SR src n w} = {w | SameLevel RP' SR src n w} := fun src n =>
    Set.ext fun w => ⟨fun hs => hs.perm h, fun hs => hs.perm h.symm⟩
  funext ⟨src, n⟩
  cases hk : J (src, n) with
  | none =>
    by_contra hne
    obtain ⟨w, hw⟩ := (hJ' src n).1.1 (Ne.symm hne)
    exact (hJ src n).1.2 ⟨w, hw.perm h.symm⟩ hk
  | some e =>
    cases hk' : J' (src, n) with
    | none =>
      obtain ⟨w, hw⟩ := (hJ src n).1.1 (by simp [hk])
      exact absurd hk' ((hJ' src n).1.2 ⟨w, hw.perm h⟩)
    | some e' =>
      have hjoin := (hJ src n).2 e hk
      rw [hset] at hjoin
      rw [hjoin.unique ((hJ' src n).2 e' hk')]

variable [DecidableEq CL] [DecidableEq SE] [DecidableEq W]

theorem exact_of_reachable (law : SR.Lawful) {S : WPDSSolver CL SE W} (h : WPDSSolver.Reachable RP SR S)
    (hempty : S.workList = []) :
    letI := law.semilattice
    Exact RP SR S.stored := by
  let _ := law.semilattice
  obtain ⟨hclosed, hsound⟩ := exact_of_empty law (fun _ _ => rfl) h hempty
  have hD : Distributive (rules RP SR) := distributive_rules law (fun _ _ => rfl)
  intro src n
  have hset : {w | SameLevel RP SR src n w} = {w | Deriv (rules RP SR) (Dropped W) (src, n) w} :=
    Set.ext fun w => sameLevel_iff_deriv
  refine ⟨?_, fun e he => ?_⟩
  · rw [Ne, eq_none_iff (dropped_least (W := W)) hD hclosed hsound]
    push Not
    exact exists_congr fun w => sameLevel_iff_deriv.symm
  · rw [hset]
    exact ⟨hsound _ e he, (isLUB_of_closed (dropped_least (W := W)) hD hclosed hsound he).1⟩

/-- The solver ends. -/
theorem exists_solved [Finite CL] [Finite SE] (RP : RuleProvider CL SE W) (law : SR.Lawful)
    (hchain : letI := law.semilattice; WellFoundedGT W) :
    ∃ n S, (∀ fuel ≥ n, solveImpl RP SR fuel = some S) ∧ Reachable RP SR S ∧ S.workList = [] := by
  let _ := law.semilattice
  obtain ⟨n, S, hrun⟩ := solveLoop_terminates RP SR _ (acc_step law (fun _ _ => rfl) .init)
  obtain ⟨hS, hempty⟩ := reachable_of_solveLoop RP SR .init (hrun n le_rfl)
  exact ⟨n, S, hrun, hS, hempty⟩

/-- **`solveImpl` ends, and its path edges are exactly those of the same-level sequences**, with the
combine of their weights, for every order of the work list and of the rules. -/
theorem saturation_exact [Finite CL] [Finite SE] (RP : RuleProvider CL SE W) (law : SR.Lawful)
    (hchain : letI := law.semilattice; WellFoundedGT W) :
    letI := law.semilattice
    (∃ n S, (∀ fuel ≥ n, solveImpl RP SR fuel = some S) ∧ Exact RP SR S.stored) ∧
      (∀ S, Reachable RP SR S → Acc (fun S' S => Step RP SR S S') S) ∧
      (∀ S, Reachable RP SR S → S.workList = [] → Exact RP SR S.stored) ∧
      (∀ RP' S S', RP.Perm RP' → Reachable RP SR S → S.workList = [] → Reachable RP' SR S' →
        S'.workList = [] →
        S.stored = S'.stored) ∧
      (RP.makeSrcFacts = none → ∀ src n w, SameLevel RP SR src n w ↔ Entered RP SR src ∧
        Sequence RP SR src n w) := by
  let _ := law.semilattice
  obtain ⟨n, S, hrun, hS, hempty⟩ := exists_solved RP law hchain
  exact ⟨⟨n, S, hrun, exact_of_reachable law hS hempty⟩, fun S hS => acc_step law (fun _ _ => rfl) hS,
    fun S hS hempty => exact_of_reachable law hS hempty,
    fun RP' S S' hperm hS hempty hS' hempty' =>
      (exact_of_reachable law hS hempty).unique hperm (exact_of_reachable law hS' hempty'),
    fun h src n w => sameLevel_iff h⟩

/-! #### A recursive program -/

/-- Whether a path sanitizes a value. -/
inductive Taint
  | clean
  | tainted
  deriving DecidableEq

instance : Fintype Taint := ⟨{.clean, .tainted}, fun t => by cases t <;> decide⟩

/-- One sanitizer makes a path clean, one tainted path is enough. -/
def taintRing : SemiRing Taint where
  extend a b := if a = .tainted then b else .clean
  combine a b := if a = .tainted then .tainted else b
  identity := .tainted

theorem taintRing_lawful : taintRing.Lawful := by
  constructor <;> decide

/-- A call with its return site, and the entry and the exit of the callee. -/
inductive Place
  | call
  | ret
  | entry
  | exit
  deriving DecidableEq

instance : Fintype Place := ⟨{.call, .ret, .entry, .exit}, fun p => by cases p <;> decide⟩

/-- The callee may call itself and sanitizes; a return to its exit sanitizes, too. -/
def recursiveRules : RuleProvider Unit Place Taint where
  getNormalRules n := if n.2 = .entry then [(((), .exit), .clean)] else []
  getPushRules n := if n.2 = .call then [⟨(), .ret, .entry, .tainted⟩]
    else if n.2 = .entry then [⟨(), .exit, .entry, .tainted⟩] else []
  hasPopRules n := n.2 = .exit
  getPopRules _ retSite _ := [((), if retSite = .ret then .tainted else .clean)]
  initialSeeds := [(((), .call), .tainted)]
  makeSrcFacts := none

theorem saturation_exact_recursive :
    letI := taintRing_lawful.semilattice
    (∃ n S, (∀ fuel ≥ n, solveImpl recursiveRules taintRing fuel = some S) ∧
        Exact recursiveRules taintRing S.stored) ∧
      ∀ S, Reachable recursiveRules taintRing S → S.workList = [] →
        Exact recursiveRules taintRing S.stored := by
  let _ := taintRing_lawful.semilattice
  have hexact := saturation_exact recursiveRules taintRing_lawful
    (@Finite.to_wellFoundedGT Taint _ taintRing_lawful.semilattice.toPreorder)
  exact ⟨hexact.1, hexact.2.2.1⟩

example : (solveImpl recursiveRules taintRing 9).map (fun S => S.stored (((), .call), ((), .ret))) =
    some (some .clean) := by
  decide

end Phasar.WPDS
