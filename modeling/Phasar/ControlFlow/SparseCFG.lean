import Mathlib.Data.List.Forall2
import Phasar.ControlFlow.ICFG
import Phasar.Lib.EdgeSearch

/-!
# Sparse control flow

`buildSparseCFG` walks through a function and connects the instructions that are kept for a value. It
visits every instruction once, also where different kept instructions lead to it.

* `SparseState`, `step`, `buildSparseCFG`, `nextUserOrNull`;
* `Skips`, `User`: the instructions that are reached over skipped ones;
* `BelongsTo`, `OwnUser`: the kept instruction below which the depth-first tree has an instruction;
* `Tracks`: the walk follows the depth-first search;
* `nextUser_eq_some_iff`: a next user is the only own user;
* `nextUser_unique_iff`: when it is the only user.
-/

namespace Phasar

/-- The variables of the walk. The back of the work list comes first; a conflict is stored as a null
pointer. -/
structure SparseState (N : Type*) where
  wl : List (N × N)
  scfg : N → Option (Option N)
  handled : Finset N

namespace SparseCFG

variable {N F : Type*} [DecidableEq N]

/-- `try_emplace`, and null where there is another instruction already. -/
def connect (scfg : N → Option (Option N)) (source tar : N) : N → Option (Option N) :=
  match scfg source with
  | none => Function.update scfg source (some (some tar))
  | some old => if old = some tar then scfg else Function.update scfg source (some none)

variable (G : ICFG N F) (keep : N → Bool)

/-- The loop body of `buildSparseCFG`. -/
def step (s : SparseState N) : SparseState N :=
  match s.wl with
  | [] => s
  | (source, tar) :: rest =>
    let curr := if keep tar then tar else source
    let scfg := if keep tar then connect s.scfg source tar else s.scfg
    -- behind a skipped instruction only the walk that comes first goes on
    if tar ∈ s.handled then { s with wl := rest, scfg := scfg }
    else
      { wl := ((G.getSuccsOf tar).map (Prod.mk curr)).reverse ++ rest
        scfg := scfg
        handled := insert tar s.handled }

def init (entry : N) : SparseState N where
  wl := ((G.getSuccsOf entry).map (Prod.mk entry)).reverse
  scfg _ := none
  handled := ∅

/-- The edges of the function, and those of its entry once more. -/
def bound (entry : N) : ℕ :=
  EdgeSearch.bound G.getSuccsOf (G.getAllInstructionsOf (G.getFunctionOf entry)).toFinset entry

/-- The walk through the function of `entry`; it has ended after `bound` steps. -/
def buildSparseCFG (entry : N) : N → Option (Option N) :=
  ((step G keep)^[bound G entry] (init G entry)).scfg

/-- `lookup`: null also for an instruction that is not there. -/
def nextUserOrNull (scfg : N → Option (Option N)) (n : N) : Option N := (scfg n).join

/-! ### Skipped instructions -/

variable {G keep}

/-- `x` is reached from `n` over instructions that are not kept, `x` among them. -/
inductive Skips (G : ICFG N F) (keep : N → Bool) (n : N) : N → Prop
  | head {x : N} : x ∈ G.getSuccsOf n → keep x = false → Skips G keep n x
  | tail {x y : N} : Skips G keep n x → y ∈ G.getSuccsOf x → keep y = false → Skips G keep n y

/-- `m` is the target of an edge of `n` or of what `n` skips. -/
def Ahead (G : ICFG N F) (keep : N → Bool) (n m : N) : Prop :=
  m ∈ G.getSuccsOf n ∨ ∃ x, Skips G keep n x ∧ m ∈ G.getSuccsOf x

/-- `m` is kept and reached from `n` over instructions that are not kept. -/
def User (G : ICFG N F) (keep : N → Bool) (n m : N) : Prop := keep m = true ∧ Ahead G keep n m

omit [DecidableEq N] in
theorem Skips.keep_eq {n x : N} (h : Skips G keep n x) : keep x = false := by
  cases h <;> assumption

omit [DecidableEq N] in
theorem Skips.trans {n x y : N} (h : Skips G keep n x) (h' : Skips G keep x y) :
    Skips G keep n y := by
  induction h' with
  | head hy hk => exact .tail h hy hk
  | tail _ hy hk ih => exact .tail ih hy hk

omit [DecidableEq N] in
/-- The users of what is skipped are users. -/
theorem Skips.user {n x m : N} (h : Skips G keep n x) (hm : User G keep x m) :
    User G keep n m := by
  obtain ⟨hk, hm | ⟨y, hy, hm⟩⟩ := hm
  · exact ⟨hk, Or.inr ⟨x, h, hm⟩⟩
  · exact ⟨hk, Or.inr ⟨y, h.trans hy, hm⟩⟩

/-! ### Depth-first order -/

/-- The depth-first tree of the function of `entry`, in the order of its successors. -/
def depthFirstTree (G : ICFG N F) (entry : N) : N → Option N :=
  ((EdgeSearch.step G.getSuccsOf)^[bound G entry] (EdgeSearch.init G.getSuccsOf entry)).parent

/-- `x` is the kept instruction `n`, or is below it in the tree with only skipped ones between. -/
inductive BelongsTo (keep : N → Bool) (tree : N → Option N) (n : N) : N → Prop
  | self : keep n = true → BelongsTo keep tree n n
  | child {x y : N} : BelongsTo keep tree n x → tree y = some x → keep y = false →
    BelongsTo keep tree n y

/-- `m` is kept and the target of an edge of what belongs to `n`. -/
def OwnUser (G : ICFG N F) (keep : N → Bool) (entry n m : N) : Prop :=
  keep m = true ∧ ∃ x, BelongsTo keep (depthFirstTree G entry) n x ∧
    (x = entry ∨ (depthFirstTree G entry x).isSome = true) ∧ m ∈ G.getSuccsOf x

omit [DecidableEq N] in
theorem BelongsTo.keep_eq {tree : N → Option N} {n x : N} (h : BelongsTo keep tree n x) :
    keep n = true := by
  induction h with
  | self hk => exact hk
  | child _ _ _ ih => exact ih

omit [DecidableEq N] in
/-- An instruction belongs to one kept instruction. -/
theorem BelongsTo.unique {tree : N → Option N} {n n' x : N} (h : BelongsTo keep tree n x)
    (h' : BelongsTo keep tree n' x) : n = n' := by
  induction h with
  | self hk =>
    cases h' with
    | self => rfl
    | child _ _ hk' => exact absurd (hk.symm.trans hk') Bool.true_eq_false.mp
  | child _ hy hk ih =>
    cases h' with
    | self hk' => exact absurd (hk'.symm.trans hk) Bool.true_eq_false.mp
    | child hx' hy' _ =>
      obtain rfl := Option.some.inj (hy.symm.trans hy')
      exact ih hx'

/-! ### The walk follows the search -/

section Walk

variable {entry : N} {s : SparseState N} {t : EdgeSearch N}

/-- `m` has been recorded for `n`, perhaps with others. -/
def Recorded (scfg : N → Option (Option N)) (n m : N) : Prop :=
  scfg n = some (some m) ∨ scfg n = some none

theorem recorded_connect {scfg : N → Option (Option N)} (n m : N) :
    Recorded (connect scfg n m) n m := by
  rw [connect]
  cases h : scfg n with
  | none => exact Or.inl (Function.update_self ..)
  | some old =>
    dsimp only
    split_ifs with hold
    · exact Or.inl (h.trans (congrArg some hold))
    · exact Or.inr (Function.update_self ..)

theorem Recorded.connect {scfg : N → Option (Option N)} {n m : N} (h : Recorded scfg n m)
    (source tar : N) : Recorded (connect scfg source tar) n m := by
  rw [SparseCFG.connect]
  by_cases hn : n = source
  · subst hn
    rcases h with h | h
    · rw [h]
      dsimp only
      split_ifs
      · exact Or.inl h
      · exact Or.inr (Function.update_self ..)
    · rw [h]
      exact Or.inr (Function.update_self ..)
  · have hother : ∀ v, Recorded (Function.update scfg source v) n m := by
      intro v
      rw [Recorded, Function.update_of_ne hn]
      exact h
    cases scfg source with
    | none => exact hother _
    | some old =>
      dsimp only
      split_ifs
      · exact h
      · exact hother _

/-- What `connect` stores. -/
theorem connect_eq_some {scfg : N → Option (Option N)} {source tar n m : N}
    (h : connect scfg source tar n = some (some m)) :
    scfg n = some (some m) ∨ (n = source ∧ m = tar) := by
  rw [connect] at h
  by_cases hn : n = source
  · subst hn
    cases hs : scfg n with
    | none =>
      rw [hs] at h
      dsimp only at h
      rw [Function.update_self] at h
      exact Or.inr ⟨rfl, (Option.some.inj (Option.some.inj h)).symm⟩
    | some old =>
      rw [hs] at h
      dsimp only at h
      split_ifs at h with hold
      · exact Or.inl (hs.symm.trans h)
      · rw [Function.update_self] at h
        cases h
  · refine Or.inl ?_
    cases hs : scfg source with
    | none =>
      rw [hs] at h
      dsimp only at h
      rwa [Function.update_of_ne hn] at h
    | some old =>
      rw [hs] at h
      dsimp only at h
      split_ifs at h
      · exact h
      · rwa [Function.update_of_ne hn] at h

variable (G keep) in
/-- An instruction that has been handled already is only recorded. -/
theorem step_cons {source tar : N} {rest : List (N × N)} (hwl : s.wl = (source, tar) :: rest) :
    (step G keep s).wl = (if tar ∈ s.handled then [] else ((G.getSuccsOf tar).map
      (Prod.mk (if keep tar then tar else source))).reverse) ++ rest ∧
    (step G keep s).handled = insert tar s.handled ∧
    (step G keep s).scfg = if keep tar then connect s.scfg source tar else s.scfg := by
  rw [step, hwl]
  by_cases hmem : tar ∈ s.handled <;> simp [hmem]

/-- A conflict is stored for a second target. -/
theorem connect_eq_null {scfg : N → Option (Option N)} {source tar n : N}
    (h : connect scfg source tar n = some none) :
    scfg n = some none ∨ (n = source ∧ ∃ m, m ≠ tar ∧ scfg n = some (some m)) := by
  rw [connect] at h
  by_cases hn : n = source
  · subst hn
    cases hs : scfg n with
    | none =>
      rw [hs] at h
      dsimp only at h
      rw [Function.update_self] at h
      cases h
    | some old =>
      cases old with
      | none => exact Or.inl rfl
      | some m =>
        rw [hs] at h
        dsimp only at h
        split_ifs at h with hold
        · rw [hs] at h
          cases h
        · exact Or.inr ⟨rfl, m, fun heq => hold (congrArg some heq), rfl⟩
  · refine Or.inl ?_
    cases hs : scfg source with
    | none =>
      rw [hs] at h
      dsimp only at h
      rwa [Function.update_of_ne hn] at h
    | some old =>
      rw [hs] at h
      dsimp only at h
      split_ifs at h
      · exact h
      · rwa [Function.update_of_ne hn] at h

/-- The own users so far. -/
def Owns (G : ICFG N F) (keep : N → Bool) (entry : N) (t : EdgeSearch N) (n m : N) : Prop :=
  keep m = true ∧ ∃ x, BelongsTo keep t.parent n x ∧ EdgeSearch.Opened entry t x ∧
    m ∈ G.getSuccsOf x

theorem BelongsTo.step {n x : N} (h : BelongsTo keep t.parent n x) :
    BelongsTo keep (EdgeSearch.step G.getSuccsOf t).parent n x := by
  induction h with
  | self hk => exact .self hk
  | child _ hy hk ih => exact .child ih (EdgeSearch.parent_step hy) hk

theorem Owns.step {n m : N} (h : Owns G keep entry t n m) :
    Owns G keep entry (EdgeSearch.step G.getSuccsOf t) n m := by
  obtain ⟨hk, x, hx, hopened, hm⟩ := h
  exact ⟨hk, x, hx.step, hopened.step, hm⟩

/-- The walk has the edges of the search, from the kept instructions to which their sources belong;
for these it has recorded the targets of the edges that are done. -/
structure Tracks (G : ICFG N F) (keep : N → Bool) (entry : N) (s : SparseState N)
    (t : EdgeSearch N) : Prop where
  wl : List.Forall₂ (fun p e => p.2 = e.2 ∧ BelongsTo keep t.parent p.1 e.1) s.wl t.stack
  handled : ∀ y, y ∈ s.handled ↔ (t.parent y).isSome = true
  single : ∀ {n m}, s.scfg n = some (some m) → Owns G keep entry t n m
  conflict : ∀ {n}, s.scfg n = some none →
    ∃ m m', m ≠ m' ∧ Owns G keep entry t n m ∧ Owns G keep entry t n m'
  recorded : ∀ {x m}, EdgeSearch.Opened entry t x → m ∈ G.getSuccsOf x → keep m = true →
    (x, m) ∈ t.stack ∨ ∃ n, BelongsTo keep t.parent n x ∧ Recorded s.scfg n m

omit [DecidableEq N] in
/-- Edges are pushed in the same order. -/
theorem forall₂_edges {tree : N → Option N} {n x : N} (h : BelongsTo keep tree n x) :
    List.Forall₂ (fun p e => p.2 = e.2 ∧ BelongsTo keep tree p.1 e.1)
      ((G.getSuccsOf x).map (Prod.mk n)).reverse (EdgeSearch.edges G.getSuccsOf x) := by
  rw [EdgeSearch.edges, List.forall₂_reverse_iff, List.forall₂_map_left_iff,
    List.forall₂_map_right_iff]
  exact List.forall₂_same.2 fun m _ => ⟨rfl, h⟩

omit [DecidableEq N] in
theorem Tracks.init (hentry : keep entry = true) :
    Tracks G keep entry (init G entry) (EdgeSearch.init G.getSuccsOf entry) where
  wl := forall₂_edges (.self hentry)
  handled y := by
    rw [SparseCFG.init, EdgeSearch.init]
    exact iff_of_false (Finset.notMem_empty y) Bool.false_ne_true
  single h := by cases h
  conflict h := by cases h
  recorded hx hm _ := by
    obtain rfl := hx.resolve_right Bool.false_ne_true
    exact Or.inl (EdgeSearch.mem_edges.2 ⟨rfl, hm⟩)

section Pop

/-! The edge `(source, tar)` is popped; the search pops `(x, tar)`, and `source` is where `x` belongs. -/

variable {x source tar : N} (hscfg : (step G keep s).scfg =
    if keep tar then connect s.scfg source tar else s.scfg)

include hscfg

theorem Tracks.single_step (h : Tracks G keep entry s t)
    (howns : keep tar = true → Owns G keep entry t source tar) {n m : N}
    (hn : (SparseCFG.step G keep s).scfg n = some (some m)) :
    Owns G keep entry (EdgeSearch.step G.getSuccsOf t) n m := by
  rw [hscfg] at hn
  split_ifs at hn with hk
  · rcases connect_eq_some hn with hn | ⟨rfl, rfl⟩
    · exact (h.single hn).step
    · exact (howns hk).step
  · exact (h.single hn).step

theorem Tracks.conflict_step (h : Tracks G keep entry s t)
    (howns : keep tar = true → Owns G keep entry t source tar) {n : N}
    (hn : (SparseCFG.step G keep s).scfg n = some none) :
    ∃ m m', m ≠ m' ∧ Owns G keep entry (EdgeSearch.step G.getSuccsOf t) n m ∧
      Owns G keep entry (EdgeSearch.step G.getSuccsOf t) n m' := by
  have hold : s.scfg n = some none → ∃ m m', m ≠ m' ∧
      Owns G keep entry (EdgeSearch.step G.getSuccsOf t) n m ∧
        Owns G keep entry (EdgeSearch.step G.getSuccsOf t) n m' := by
    intro hn
    obtain ⟨m, m', hne, hm, hm'⟩ := h.conflict hn
    exact ⟨m, m', hne, hm.step, hm'.step⟩
  rw [hscfg] at hn
  split_ifs at hn with hk
  · rcases connect_eq_null hn with hn | ⟨rfl, m, hne, hn⟩
    · exact hold hn
    · exact ⟨m, tar, hne, (h.single hn).step, (howns hk).step⟩
  · exact hold hn

/-- What has been recorded stays, and the popped edge is recorded. -/
theorem Tracks.recorded_step (h : Tracks G keep entry s t) {rest : List (N × N)}
    (hstack : t.stack = (x, tar) :: rest) (hx : BelongsTo keep t.parent source x) {z m : N}
    (hz : EdgeSearch.Opened entry t z) (hm : m ∈ G.getSuccsOf z) (hk : keep m = true) :
    (z, m) ∈ rest ∨ ∃ n, BelongsTo keep (EdgeSearch.step G.getSuccsOf t).parent n z ∧
      Recorded (SparseCFG.step G keep s).scfg n m := by
  rw [hscfg]
  rcases h.recorded hz hm hk with hzm | ⟨n, hn, hrec⟩
  · rw [hstack] at hzm
    rcases List.mem_cons.1 hzm with heq | hzm
    · cases heq
      refine Or.inr ⟨source, hx.step, ?_⟩
      rw [if_pos hk]
      exact recorded_connect source _
    · exact Or.inl hzm
  · refine Or.inr ⟨n, hn.step, ?_⟩
    split_ifs
    · exact hrec.connect source tar
    · exact hrec

end Pop

theorem Tracks.step (h : Tracks G keep entry s t) (hinv : EdgeSearch.Inv G.getSuccsOf entry t) :
    Tracks G keep entry (step G keep s) (EdgeSearch.step G.getSuccsOf t) := by
  cases hstack : t.stack with
  | nil =>
    have hwl : s.wl = [] := List.forall₂_nil_right_iff.1 (hstack ▸ h.wl)
    rw [EdgeSearch.step_nil hstack, SparseCFG.step, hwl]
    exact h
  | cons e rest =>
    obtain ⟨x, y⟩ := e
    obtain ⟨⟨n, y'⟩, rest', ⟨hy, hnx⟩, hrest, hwl⟩ :=
      List.forall₂_cons_right_iff.1 (hstack ▸ h.wl)
    obtain rfl : y' = y := hy
    obtain ⟨hopened, hxy⟩ := hinv.stack (hstack ▸ List.mem_cons_self)
    obtain ⟨hwl', hhandled, hscfg⟩ := step_cons G keep hwl
    have hrest' : List.Forall₂ (fun p e => p.2 = e.2 ∧
        BelongsTo keep (EdgeSearch.step G.getSuccsOf t).parent p.1 e.1) rest' rest :=
      hrest.imp fun _ _ he => ⟨he.1, he.2.step⟩
    -- a kept instruction is recorded for the kept instruction that its edge belongs to
    have howns : keep y' = true → Owns G keep entry t n y' :=
      fun hk => ⟨hk, x, hnx, hopened, hxy⟩
    have hrecorded : ∀ {z m}, EdgeSearch.Opened entry t z → m ∈ G.getSuccsOf z → keep m = true →
        (z, m) ∈ rest ∨ ∃ a, BelongsTo keep (EdgeSearch.step G.getSuccsOf t).parent a z ∧
          Recorded (SparseCFG.step G keep s).scfg a m :=
      fun hz hm hk => h.recorded_step hscfg hstack hnx hz hm hk
    cases hpy : t.parent y' with
    | some b =>
      have hsome : (t.parent y').isSome = true := by rw [hpy]; rfl
      -- the target was handled before: the work list only loses its top
      have hmem : y' ∈ s.handled := (h.handled y').2 hsome
      have hstep : EdgeSearch.step G.getSuccsOf t = { t with stack := rest } :=
        EdgeSearch.step_old hstack hsome
      constructor
      · rw [hwl', if_pos hmem, List.nil_append]
        rw [hstep] at hrest' ⊢
        exact hrest'
      · intro z
        rw [hhandled, Finset.insert_eq_of_mem hmem, hstep]
        exact h.handled z
      · exact h.single_step hscfg howns
      · exact h.conflict_step hscfg howns
      · intro z m hz hm hk
        rw [hstep] at hz
        rcases hrecorded hz hm hk with hzm | hrec
        · rw [hstep]
          exact Or.inl hzm
        · exact Or.inr hrec
    | none =>
      -- the target is new, and its edges belong to it if it is kept, to `n` otherwise
      have hmem : y' ∉ s.handled := by
        rw [h.handled, hpy]
        exact Bool.false_ne_true
      have hstep : EdgeSearch.step G.getSuccsOf t = ⟨EdgeSearch.edges G.getSuccsOf y' ++ rest,
          Function.update t.parent y' (some x)⟩ :=
        EdgeSearch.step_new hstack hpy
      have hparent : (EdgeSearch.step G.getSuccsOf t).parent y' = some x := by
        rw [hstep]
        exact Function.update_self ..
      have hold : ∀ {z}, z ≠ y' → (EdgeSearch.step G.getSuccsOf t).parent z = t.parent z := by
        intro z hz
        rw [hstep]
        exact Function.update_of_ne hz ..
      have hcurr : BelongsTo keep (EdgeSearch.step G.getSuccsOf t).parent
          (if keep y' then y' else n) y' := by
        split_ifs with hk
        · exact .self hk
        · exact .child hnx.step hparent (Bool.eq_false_iff.2 hk)
      constructor
      · rw [hwl', if_neg hmem]
        have happend := List.rel_append (forall₂_edges (G := G) hcurr) hrest'
        rw [hstep] at happend ⊢
        exact happend
      · intro z
        rw [hhandled, Finset.mem_insert]
        by_cases hz : z = y'
        · subst hz
          rw [hparent]
          exact iff_of_true (Or.inl rfl) rfl
        · rw [hold hz, h.handled]
          exact or_iff_right hz
      · exact h.single_step hscfg howns
      · exact h.conflict_step hscfg howns
      · intro z m hz hm hk
        have hstack' : (EdgeSearch.step G.getSuccsOf t).stack =
            EdgeSearch.edges G.getSuccsOf y' ++ rest := by rw [hstep]
        rw [hstack']
        by_cases hzy : z = y'
        · subst hzy
          exact Or.inl (List.mem_append_left _ (EdgeSearch.mem_edges.2 ⟨rfl, hm⟩))
        · have hz' : EdgeSearch.Opened entry t z := hz.imp_right fun hz => by rwa [hold hzy] at hz
          exact (hrecorded hz' hm hk).imp_left (List.mem_append_right _)

theorem tracks_iterate (hentry : keep entry = true) (k : ℕ) :
    Tracks G keep entry ((step G keep)^[k] (init G entry))
      ((EdgeSearch.step G.getSuccsOf)^[k] (EdgeSearch.init G.getSuccsOf entry)) := by
  induction k with
  | zero => exact .init hentry
  | succ k ih =>
    rw [Function.iterate_succ_apply', Function.iterate_succ_apply']
    exact ih.step (EdgeSearch.inv_iterate entry k)

variable (G entry) in
/-- The search has ended. -/
theorem stack_bound :
    ((EdgeSearch.step G.getSuccsOf)^[bound G entry]
      (EdgeSearch.init G.getSuccsOf entry)).stack = [] := by
  refine EdgeSearch.stack_bound (fun n hn m hm => ?_) ?_
  · rw [List.mem_toFinset, G.mem_getAllInstructionsOf] at hn ⊢
    exact (G.getFunctionOf_succ n m hm).trans hn
  · rw [List.mem_toFinset, G.mem_getAllInstructionsOf]

/-- **A next user is the only own user.** -/
theorem nextUser_eq_some_iff (hentry : keep entry = true) (n m : N) :
    nextUserOrNull (buildSparseCFG G keep entry) n = some m ↔
      ∀ m', OwnUser G keep entry n m' ↔ m' = m := by
  have htracks := tracks_iterate (G := G) hentry (bound G entry)
  have hrecorded : ∀ {m'}, OwnUser G keep entry n m' →
      Recorded (buildSparseCFG G keep entry) n m' := by
    rintro m' ⟨hk, x, hnx, hx, hm'⟩
    rcases htracks.recorded hx hm' hk with hstack | ⟨a, ha, hrec⟩
    · rw [stack_bound] at hstack
      exact absurd hstack List.not_mem_nil
    · rw [hnx.unique ha]
      exact hrec
  rw [nextUserOrNull, Option.join_eq_some_iff]
  constructor
  · intro h m'
    constructor
    · intro hm'
      rcases hrecorded hm' with hrec | hrec
      · exact Option.some.inj (Option.some.inj (hrec.symm.trans h))
      · cases hrec.symm.trans h
    · rintro rfl
      exact htracks.single h
  · intro h
    rcases hrecorded ((h m).2 rfl) with hrec | hrec
    · exact hrec
    · obtain ⟨a, b, hne, ha, hb⟩ := htracks.conflict hrec
      exact absurd (((h a).1 ha).trans ((h b).1 hb).symm) hne

/-- The tree is made of control-flow edges. -/
theorem depthFirstTree_edge {x y : N} (h : depthFirstTree G entry y = some x) :
    y ∈ G.getSuccsOf x :=
  ((EdgeSearch.inv_iterate entry (bound G entry)).parent h).2

/-- What belongs to `n` is `n` or skipped by it. -/
theorem OwnUser.user {n m : N} (h : OwnUser G keep entry n m) : User G keep n m := by
  obtain ⟨hk, x, hx, -, hm⟩ := h
  have hskips : x = n ∨ Skips G keep n x := by
    clear hm
    induction hx with
    | self => exact Or.inl rfl
    | child _ hy hk ih =>
      have hsucc := depthFirstTree_edge hy
      rcases ih with rfl | hx
      · exact Or.inr (.head hsucc hk)
      · exact Or.inr (.tail hx hsucc hk)
  rcases hskips with rfl | hx
  · exact ⟨hk, Or.inl hm⟩
  · exact ⟨hk, Or.inr ⟨x, hx, hm⟩⟩

/-- **Next users are the only users** exactly if no instruction with a single own user has others. -/
theorem nextUser_unique_iff (hentry : keep entry = true) :
    (∀ n m, nextUserOrNull (buildSparseCFG G keep entry) n = some m →
      ∀ m', User G keep n m' ↔ m' = m) ↔
    ∀ n m, (∀ m', OwnUser G keep entry n m' ↔ m' = m) → ∀ m', User G keep n m' → m' = m := by
  constructor
  · intro h n m hown m'
    exact (h n m ((nextUser_eq_some_iff hentry n m).2 hown) m').1
  · intro h n m hnext m'
    have hown := (nextUser_eq_some_iff hentry n m).1 hnext
    refine ⟨h n m hown m', ?_⟩
    rintro rfl
    exact ((hown m').2 rfl).user

end Walk

end SparseCFG

end Phasar
