import Phasar.Domain.LatticeDomain
import Phasar.Lib.SortedRange

/-!
# Joins of edge functions and their addresses

`JoinEdgeFunction` keeps the functions that it joins in a vector, merged by `std::set_union` under
an order that takes equal functions as equivalent and compares the others by their addresses.

* `Less`, `create`, on functions in memory;
* `Expr`: the edge functions that any calls of `create` build;
* `isSet_iff`: the vectors are sets exactly where no function is merged in before its equal.
-/

namespace Phasar

open JoinLatticeTraits

/-- An edge function: some function in memory, or a join of functions in memory. -/
inductive JoinEdgeFunction (H L : Type*)
  | function (f : H)
  | join (Seed : L) (OtherEF : List H)

namespace JoinEdgeFunction

variable {H F L : Type*} [LinearOrder H] [DecidableEq F] [JoinLatticeTraits L]

/-- `operator<`. The functions in memory are ordered by their addresses, and equal by their class
and value. -/
def Less (value : H → F) (f g : H) : Prop := value f ≠ value g ∧ f < g

instance (value : H → F) : DecidableRel (Less value) := fun f g =>
  inferInstanceAs (Decidable (value f ≠ value g ∧ f < g))

/-- `operator==`, which compares the vectors of joins elementwise. -/
def Equal (value : H → F) : JoinEdgeFunction H L → JoinEdgeFunction H L → Prop
  | function f, function g => value f = value g
  | join s fs, join t gs => s = t ∧ fs.map value = gs.map value
  | _, _ => False

/-- `GetEFArrayAndSeed`. -/
def arrayAndSeed : JoinEdgeFunction H L → List H × L
  | function f => ([f], top)
  | join Seed OtherEF => (OtherEF, Seed)

variable [DecidableEq L]

def create (value : H → F) (N : ℕ) (allBottom : H) (lhs rhs : JoinEdgeFunction H L) :
    JoinEdgeFunction H L :=
  let (LVec, LSeed) := lhs.arrayAndSeed
  let (RVec, RSeed) := rhs.arrayAndSeed
  let JoinSeed := JoinLatticeTraits.join LSeed RSeed
  if JoinSeed = bottom then function allBottom
  else
    let JoinVec := SortedRange.setUnion (Less value) LVec RVec
    if JoinVec.length > N then function allBottom else join JoinSeed JoinVec

/-- The edge functions that are built by calls of `create`. -/
inductive Expr (H : Type*)
  | function (f : H)
  | create (lhs rhs : Expr H)

namespace Expr

variable (value : H → F) (N : ℕ) (allBottom : H)

def eval : Expr H → JoinEdgeFunction H L
  | function f => .function f
  | create lhs rhs => .create value N allBottom lhs.eval rhs.eval

/-- Something is true of the arguments of each call. -/
def Calls (P : JoinEdgeFunction H L → JoinEdgeFunction H L → Prop) : Expr H → Prop
  | function _ => True
  | create lhs rhs =>
    lhs.Calls P ∧ rhs.Calls P ∧ P (lhs.eval value N allBottom) (rhs.eval value N allBottom)

end Expr

/-- The values of the functions that two edge functions join. -/
def distinct (value : H → F) (lhs rhs : JoinEdgeFunction H L) : List F :=
  ((lhs.arrayAndSeed.1 ++ rhs.arrayAndSeed.1).map value).dedup

/-- The call builds a set: no two members are equal, the bound of the size is on different
functions, and a function that is equal to a member changes nothing. -/
structure IsSet (value : H → F) (N : ℕ) (allBottom : H) (lhs rhs : JoinEdgeFunction H L) : Prop where
  nodup : ((create value N allBottom lhs rhs).arrayAndSeed.1.map value).Nodup
  bound : JoinLatticeTraits.join lhs.arrayAndSeed.2 rhs.arrayAndSeed.2 ≠ bottom →
    (distinct value lhs rhs).length ≤ N → ∃ s fs, create value N allBottom lhs rhs = join s fs
  join_left : ∀ s fs f, lhs = join s fs → rhs = function f → value f ∈ fs.map value →
    Equal value (create value N allBottom lhs rhs) lhs
  join_right : ∀ s fs f, lhs = function f → rhs = join s fs → value f ∈ fs.map value →
    Equal value (create value N allBottom lhs rhs) rhs

/-- The vectors are aligned for `std::set_union`, or the result is `AllBottom` for sure. -/
def Good (value : H → F) (N : ℕ) (lhs rhs : JoinEdgeFunction H L) : Prop :=
  JoinLatticeTraits.join lhs.arrayAndSeed.2 rhs.arrayAndSeed.2 ≠ bottom →
    (distinct value lhs rhs).length ≤ N →
      SortedRange.Aligned (Less value) value lhs.arrayAndSeed.1 rhs.arrayAndSeed.1

/-- What all edge functions built so far satisfy, if the calls for them built sets. -/
structure WellFormed (value : H → F) (N : ℕ) (ef : JoinEdgeFunction H L) : Prop where
  nodup : (ef.arrayAndSeed.1.map value).Nodup
  seed : ∀ s fs, ef = join s fs → s ≠ bottom
  length : ∀ s fs, ef = join s fs → fs.length ≤ N

variable {value : H → F} {N : ℕ} {allBottom : H} {lhs rhs : JoinEdgeFunction H L}

theorem value_eq_of_not_less (f g : H) (hfg : ¬ Less value f g) (hgf : ¬ Less value g f) :
    value f = value g := by
  by_contra hne
  have hle : f ≤ g := not_lt.1 fun hlt => hgf ⟨Ne.symm hne, hlt⟩
  have hge : g ≤ f := not_lt.1 fun hlt => hfg ⟨hne, hlt⟩
  exact hne (congrArg value (le_antisymm hle hge))

/-- The two results of `create`. -/
theorem create_cases (value : H → F) (N : ℕ) (allBottom : H) (lhs rhs : JoinEdgeFunction H L) :
    ((JoinLatticeTraits.join lhs.arrayAndSeed.2 rhs.arrayAndSeed.2 = bottom ∨
        N < (SortedRange.setUnion (Less value) lhs.arrayAndSeed.1 rhs.arrayAndSeed.1).length) ∧
      create value N allBottom lhs rhs = function allBottom) ∨
    ((JoinLatticeTraits.join lhs.arrayAndSeed.2 rhs.arrayAndSeed.2 ≠ bottom ∧
        (SortedRange.setUnion (Less value) lhs.arrayAndSeed.1 rhs.arrayAndSeed.1).length ≤ N) ∧
      create value N allBottom lhs rhs =
        join (JoinLatticeTraits.join lhs.arrayAndSeed.2 rhs.arrayAndSeed.2)
          (SortedRange.setUnion (Less value) lhs.arrayAndSeed.1 rhs.arrayAndSeed.1)) := by
  rw [create]
  by_cases hseed : JoinLatticeTraits.join lhs.arrayAndSeed.2 rhs.arrayAndSeed.2 = bottom
  · exact Or.inl ⟨Or.inl hseed, if_pos hseed⟩
  · by_cases hlen : N < (SortedRange.setUnion (Less value) lhs.arrayAndSeed.1 rhs.arrayAndSeed.1).length
    · exact Or.inl ⟨Or.inr hlen, (if_neg hseed).trans (if_pos hlen)⟩
    · exact Or.inr ⟨⟨hseed, not_lt.1 hlen⟩, (if_neg hseed).trans (if_neg hlen)⟩

/-- One more function that is equal to a member is merged with it if it lies behind all members
that come before. -/
theorem aligned_member_iff {pre post : List H} {f g : H} (hg : value g = value f)
    (hnodup : ((pre ++ g :: post).map value).Nodup) :
    SortedRange.Aligned (Less value) value (pre ++ g :: post) [f] ↔ ∀ z ∈ pre, z < f := by
  induction pre with
  | nil =>
    have hnot : ∀ x y : H, value x = value y → ¬ Less value x y := fun x y h hless => hless.1 h
    rw [List.nil_append, SortedRange.Aligned, if_neg (hnot g f hg), if_neg (hnot f g hg.symm)]
    refine iff_of_true ?_ fun z hz => absurd hz List.not_mem_nil
    cases post <;> rw [SortedRange.Aligned] <;> trivial
  | cons z pre ih =>
    rw [List.cons_append, List.map_cons, List.nodup_cons] at hnodup
    obtain ⟨hz, hnodup⟩ := hnodup
    have hgmem : g ∈ z :: (pre ++ g :: post) :=
      List.mem_cons_of_mem _ (List.mem_append_right _ List.mem_cons_self)
    have hne : value z ≠ value f := by
      intro heq
      refine hz (List.mem_map.2 ⟨g, ?_, hg.trans heq.symm⟩)
      exact List.mem_append_right _ List.mem_cons_self
    rw [List.cons_append, SortedRange.Aligned, List.forall_mem_cons]
    by_cases hlt : z < f
    · rw [if_pos ⟨hne, hlt⟩, ih hnodup]
      simp [hlt, hne.symm]
    · have hfz : f < z := (not_lt.1 hlt).lt_of_ne fun heq => hne (congrArg value heq.symm)
      rw [if_neg fun hless => hlt hless.2, if_pos ⟨hne.symm, hfz⟩]
      exact iff_of_false (fun h => h.1 g hgmem hg) fun h => hlt (h z List.mem_cons_self)

omit [DecidableEq L] in
/-- A union without duplicates has as many members as there are different values. -/
theorem length_setUnion (hnodup : ((SortedRange.setUnion (Less value) lhs.arrayAndSeed.1
      rhs.arrayAndSeed.1).map value).Nodup) :
    (SortedRange.setUnion (Less value) lhs.arrayAndSeed.1 rhs.arrayAndSeed.1).length =
      (distinct value lhs rhs).length := by
  rw [← List.length_map value]
  refine ((List.perm_ext_iff_of_nodup hnodup (List.nodup_dedup _)).2 fun k => ?_).length_eq
  rw [SortedRange.mem_map_setUnion value_eq_of_not_less, List.mem_dedup, List.map_append,
    List.mem_append]

omit [DecidableEq L] in
theorem distinct_le_length : (distinct value lhs rhs).length ≤
    (SortedRange.setUnion (Less value) lhs.arrayAndSeed.1 rhs.arrayAndSeed.1).length := by
  rw [← List.length_map value]
  refine (List.subperm_of_subset (List.nodup_dedup _) fun k hk => ?_).length_le
  rwa [List.mem_dedup, List.map_append, List.mem_append,
    ← SortedRange.mem_map_setUnion value_eq_of_not_less] at hk

omit [LinearOrder H] [DecidableEq L] in
/-- Values that are all in one vector. -/
theorem length_distinct_le {fs : List H} (hl : lhs.arrayAndSeed.1.map value ⊆ fs.map value)
    (hr : rhs.arrayAndSeed.1.map value ⊆ fs.map value) :
    (distinct value lhs rhs).length ≤ fs.length := by
  rw [← List.length_map value]
  refine (List.subperm_of_subset (List.nodup_dedup _) fun k hk => ?_).length_le
  rw [List.mem_dedup, List.map_append, List.mem_append] at hk
  exact hk.elim (fun hk => hl hk) fun hk => hr hk

theorem WellFormed.create (hgood : ((create value N allBottom lhs rhs).arrayAndSeed.1.map value).Nodup) :
    WellFormed value N (create value N allBottom lhs rhs) := by
  rcases create_cases value N allBottom lhs rhs with ⟨-, heq⟩ | ⟨⟨hseed, hlen⟩, heq⟩
  · refine ⟨hgood, ?_, ?_⟩
    · rw [heq]
      nofun
    · rw [heq]
      nofun
  · refine ⟨hgood, ?_, ?_⟩
    · rw [heq]
      rintro s fs ⟨⟩
      exact hseed
    · rw [heq]
      rintro s fs ⟨⟩
      exact hlen

theorem isSet_of_good (hlhs : WellFormed value N lhs) (hrhs : WellFormed value N rhs)
    (hgood : Good value N lhs rhs) : IsSet value N allBottom lhs rhs := by
  have hnodup : JoinLatticeTraits.join lhs.arrayAndSeed.2 rhs.arrayAndSeed.2 ≠ bottom →
      (distinct value lhs rhs).length ≤ N → ((SortedRange.setUnion (Less value)
        lhs.arrayAndSeed.1 rhs.arrayAndSeed.1).map value).Nodup := fun hseed hlen =>
    (SortedRange.nodup_map_setUnion_iff value_eq_of_not_less hlhs.nodup hrhs.nodup).2
      (hgood hseed hlen)
  have hjoin : JoinLatticeTraits.join lhs.arrayAndSeed.2 rhs.arrayAndSeed.2 ≠ bottom →
      (distinct value lhs rhs).length ≤ N → create value N allBottom lhs rhs =
        join (JoinLatticeTraits.join lhs.arrayAndSeed.2 rhs.arrayAndSeed.2)
          (SortedRange.setUnion (Less value) lhs.arrayAndSeed.1 rhs.arrayAndSeed.1) := by
    intro hseed hlen
    rcases create_cases value N allBottom lhs rhs with ⟨hbad | hbad, -⟩ | ⟨-, heq⟩
    · exact absurd hbad hseed
    · rw [length_setUnion (hnodup hseed hlen)] at hbad
      exact absurd hlen (not_le.2 hbad)
    · exact heq
  refine ⟨?_, fun hseed hlen => ⟨_, _, hjoin hseed hlen⟩, ?_, ?_⟩
  · rcases create_cases value N allBottom lhs rhs with ⟨-, heq⟩ | ⟨⟨hseed, hlen⟩, heq⟩
    · rw [heq]
      exact List.nodup_singleton _
    · rw [heq]
      exact hnodup hseed (distinct_le_length.trans hlen)
  · rintro s fs f rfl rfl hf
    have hsub : [f].map value ⊆ fs.map value := List.cons_subset.2 ⟨hf, List.nil_subset _⟩
    have hseed : JoinLatticeTraits.join s top ≠ bottom := by
      rw [join_top]
      exact hlhs.seed s fs rfl
    have hlen : (distinct value (join s fs) (function f)).length ≤ N :=
      (length_distinct_le (List.Subset.refl _) hsub).trans (hlhs.length s fs rfl)
    rw [hjoin hseed hlen]
    exact ⟨join_top s, SortedRange.map_setUnion_left value_eq_of_not_less (hnodup hseed hlen) hsub⟩
  · rintro s fs f rfl rfl hf
    have hsub : [f].map value ⊆ fs.map value := List.cons_subset.2 ⟨hf, List.nil_subset _⟩
    have hseed : JoinLatticeTraits.join top s ≠ bottom := by
      rw [top_join]
      exact hrhs.seed s fs rfl
    have hlen : (distinct value (function f) (join s fs)).length ≤ N :=
      (length_distinct_le hsub (List.Subset.refl _)).trans (hrhs.length s fs rfl)
    rw [hjoin hseed hlen]
    exact ⟨top_join s, SortedRange.map_setUnion_right value_eq_of_not_less (hnodup hseed hlen) hsub⟩

theorem good_of_isSet (hlhs : WellFormed value N lhs) (hrhs : WellFormed value N rhs)
    (hset : IsSet value N allBottom lhs rhs) : Good value N lhs rhs := by
  intro hseed hlen
  rw [← SortedRange.nodup_map_setUnion_iff value_eq_of_not_less hlhs.nodup hrhs.nodup]
  obtain ⟨s, fs, heq⟩ := hset.bound hseed hlen
  have hnodup := hset.nodup
  rcases create_cases value N allBottom lhs rhs with ⟨-, heq'⟩ | ⟨-, heq'⟩
  · rw [heq'] at heq
    cases heq
  · rwa [heq'] at hnodup

namespace Expr

theorem wellFormed (value : H → F) (N : ℕ) (allBottom : H) {e : Expr H}
    (h : e.Calls (L := L) value N allBottom (IsSet value N allBottom)) :
    WellFormed value N (e.eval value N allBottom : JoinEdgeFunction H L) := by
  cases e with
  | function f => exact ⟨List.nodup_singleton _, nofun, nofun⟩
  | create lhs rhs => exact WellFormed.create h.2.2.nodup

/-- Whatever calls are made and wherever the functions are in memory: all calls build sets exactly
where the vectors of all calls are aligned. -/
theorem isSet_iff (value : H → F) (N : ℕ) (allBottom : H) (e : Expr H) :
    e.Calls (L := L) value N allBottom (IsSet value N allBottom) ↔
      e.Calls (L := L) value N allBottom (Good value N) := by
  induction e with
  | function f => exact Iff.rfl
  | create lhs rhs ihl ihr =>
    constructor
    · rintro ⟨hl, hr, hset⟩
      refine ⟨ihl.1 hl, ihr.1 hr, good_of_isSet ?_ ?_ hset⟩
      · exact wellFormed value N allBottom hl
      · exact wellFormed value N allBottom hr
    · rintro ⟨hl, hr, hgood⟩
      have hl := ihl.2 hl
      have hr := ihr.2 hr
      exact ⟨hl, hr, isSet_of_good (wellFormed value N allBottom hl)
        (wellFormed value N allBottom hr) hgood⟩

theorem eval_duplicate : ((create (create (function 5) (function 6)) (function 1) : Expr ℕ).eval
      (fun n => decide (n = 5)) 3 0 : JoinEdgeFunction ℕ (LatticeDomain ℕ)) =
    join top [1, 5, 6] := by
  simp [eval, JoinEdgeFunction.create, arrayAndSeed, SortedRange.setUnion, Less, top, bottom,
    JoinLatticeTraits.join, LatticeDomain.join]

/-- Functions `1` and `6` are equal. The join of the join of `5` and `6` with `1` has both. -/
theorem not_isSet : ¬ (create (create (function 5) (function 6)) (function 1) : Expr ℕ).Calls
    (L := LatticeDomain ℕ) (fun n => decide (n = 5)) 3 0
    (IsSet (fun n => decide (n = 5)) 3 0) := by
  rintro ⟨-, -, hset⟩
  have hnodup := hset.nodup
  change (((create (create (function 5) (function 6)) (function 1) : Expr ℕ).eval
    (fun n => decide (n = 5)) 3 0 : JoinEdgeFunction ℕ (LatticeDomain ℕ)).arrayAndSeed.1.map
      fun n => decide (n = 5)).Nodup at hnodup
  rw [eval_duplicate] at hnodup
  revert hnodup
  decide

end Expr

end JoinEdgeFunction

end Phasar
