import Phasar.Lib.LoopRule
import Phasar.Utils.AdjacencyList

/-!
# Reversing a DAG up to a depth

`reverseDAG` turns the edges of a graph around, level by level from its roots; every vertex is in a
class of its own (`identity`). It has two buffers for levels in one block of memory: one that it reads
from, and one that it writes the next level to.

* `ReverseState`, `reverseDAG`: `none` when an assertion fails or a buffer is left;
* `Steps`, `Within`, `Below`, `AtDistance`: breadth-first distance from the roots.
-/

namespace Phasar.PathSensitivityManager

open Utils Utils.AdjacencyList

/-- The variables of `reverseDAG`. An invalid entry of the cache is `none`. -/
structure ReverseState (T W : Type*) where
  ret : Utils.AdjacencyList T W
  cache : ℕ → Option ℕ
  buf : ℕ → ℕ × ℕ
  wlConsumeBegin : ℕ
  wlConsumeEnd : ℕ
  wlInsertBegin : ℕ
  wlInsertEnd : ℕ

variable {T W : Type*} (dag : Utils.AdjacencyList T W)

/-- Copy a vertex. -/
def addVertex (v : ℕ) (st : ReverseState T W) : Option (ReverseState T W) :=
  (dag.node v).map fun val =>
    { st with
      ret := st.ret.addNode val
      cache := Function.update st.cache v (some st.ret.size) }

/-- `*WLConsumeEnd++ = p`. -/
def pushConsume (p : ℕ × ℕ) (st : ReverseState T W) : Option (ReverseState T W) :=
  if st.wlConsumeEnd < 2 * dag.size then
    some { st with
      buf := Function.update st.buf st.wlConsumeEnd p
      wlConsumeEnd := st.wlConsumeEnd + 1 }
  else none

/-- `*WLInsertEnd++ = p`. -/
def pushInsert (p : ℕ × ℕ) (st : ReverseState T W) : Option (ReverseState T W) :=
  if st.wlInsertEnd < 2 * dag.size then
    some { st with
      buf := Function.update st.buf st.wlInsertEnd p
      wlInsertEnd := st.wlInsertEnd + 1 }
  else none

def visitRoot (st : ReverseState T W) (rt : ℕ) : Option (ReverseState T W) :=
  match st.cache rt with
  | some _ => some st
  | none => (addVertex dag rt st).bind (pushConsume dag (rt, st.ret.size))

/-- An edge out of the vertex whose copy is `rev`. -/
def visitSucc (rev : ℕ) (st : ReverseState T W) (succ : OutEdge W) : Option (ReverseState T W) :=
  (match st.cache succ.target with
  | some _ => some st
  | none => (addVertex dag succ.target st).bind (pushInsert dag (succ.target, st.ret.size))).bind fun st =>
    (st.cache succ.target).bind fun succRev =>
      (addEdge st.ret succRev (succ.withEdgeTarget rev)).map fun ret => { st with ret := ret }

def setRoot (rev : ℕ) (st : ReverseState T W) : Option (ReverseState T W) :=
  (st.ret.addRoot rev).map fun ret => { st with ret := ret }

/-- The entry of the buffer at an index. -/
def consume (st : ReverseState T W) (i : ℕ) : Option (ReverseState T W) :=
  ((dag.outEdges (st.buf i).1).foldlM (visitSucc dag (st.buf i).2) st).bind fun st' =>
    if dag.outDegree (st.buf i).1 = 0 then setRoot (st.buf i).2 st' else some st'

/-- The indices from `WLConsumeBegin` to `WLConsumeEnd`. -/
def ReverseState.positions (st : ReverseState T W) : List ℕ :=
  (List.range (st.wlConsumeEnd - st.wlConsumeBegin)).map (st.wlConsumeBegin + ·)

/-- Exchange the buffers; the one to write to is empty. -/
def ReverseState.swap (st : ReverseState T W) : ReverseState T W :=
  { st with
    wlConsumeBegin := st.wlInsertBegin
    wlConsumeEnd := st.wlInsertEnd
    wlInsertBegin := st.wlConsumeBegin
    wlInsertEnd := st.wlConsumeBegin }

/-- At most so many levels. -/
def levels : ℕ → ReverseState T W → Option (ReverseState T W)
  | 0, st => some st
  | left + 1, st =>
    if st.wlConsumeBegin = st.wlConsumeEnd then some st
    else (st.positions.foldlM (consume dag) st).bind fun st => levels left st.swap

/-- What was cut off becomes a root. -/
def cutOff (st : ReverseState T W) : Option (ReverseState T W) :=
  st.positions.foldlM (fun st i => setRoot (st.buf i).2 st) st

def ReverseState.init : ReverseState T W where
  ret := empty
  cache _ := none
  buf _ := (0, 0)
  wlConsumeBegin := 0
  wlConsumeEnd := 0
  wlInsertBegin := dag.size
  wlInsertEnd := dag.size

def reverseDAG (maxDepth : ℕ) : Option (Utils.AdjacencyList T W) :=
  ((dag.roots.foldlM (visitRoot dag) (.init dag)).bind fun st =>
    (levels dag maxDepth st).bind cutOff).map ReverseState.ret

/-! ### Distances -/

/-- There is a walk of this length from a root. -/
def Steps : ℕ → ℕ → Prop
  | 0, v => v ∈ dag.roots
  | n + 1, v => ∃ u, Steps n u ∧ ∃ e ∈ dag.outEdges u, e.target = v

/-- The breadth-first distance is at most `n`. -/
def Within (n v : ℕ) : Prop := ∃ k ≤ n, Steps dag k v

/-- The breadth-first distance is below `n`. -/
def Below (n v : ℕ) : Prop := ∃ k < n, Steps dag k v

/-- The breadth-first distance. -/
def AtDistance (n v : ℕ) : Prop := Steps dag n v ∧ ¬Below dag n v

variable {dag}

theorem within_iff {n v : ℕ} : Within dag n v ↔ Below dag n v ∨ AtDistance dag n v := by
  constructor
  · rintro ⟨k, hk, hsteps⟩
    by_cases hbelow : Below dag n v
    · exact Or.inl hbelow
    · rcases Nat.lt_or_eq_of_le hk with hlt | rfl
      · exact absurd ⟨k, hlt, hsteps⟩ hbelow
      · exact Or.inr ⟨hsteps, hbelow⟩
  · rintro (⟨k, hk, hsteps⟩ | h)
    · exact ⟨k, Nat.le_of_lt hk, hsteps⟩
    · exact ⟨n, le_rfl, h.1⟩

theorem atDistance_iff {n v : ℕ} : AtDistance dag n v ↔ Within dag n v ∧ ¬Below dag n v := by
  rw [within_iff]
  constructor
  · intro h
    exact ⟨Or.inr h, h.2⟩
  · rintro ⟨h | h, hbelow⟩
    · exact absurd h hbelow
    · exact h

theorem below_succ_iff {n v : ℕ} : Below dag (n + 1) v ↔ Within dag n v :=
  exists_congr fun _ => and_congr_left fun _ => Nat.lt_succ_iff

/-- One more step. -/
theorem within_succ_iff {n v : ℕ} : Within dag (n + 1) v ↔
    Within dag n v ∨ ∃ u, AtDistance dag n u ∧ ∃ e ∈ dag.outEdges u, e.target = v := by
  constructor
  · rintro ⟨k, hk, hsteps⟩
    rcases Nat.lt_or_eq_of_le hk with hlt | rfl
    · exact Or.inl ⟨k, Nat.lt_succ_iff.1 hlt, hsteps⟩
    · obtain ⟨u, hu, he⟩ := hsteps
      by_cases hbelow : Below dag n u
      · obtain ⟨j, hj, hu'⟩ := hbelow
        exact Or.inl ⟨j + 1, hj, u, hu', he⟩
      · exact Or.inr ⟨u, ⟨hu, hbelow⟩, he⟩
  · rintro (⟨k, hk, hsteps⟩ | ⟨u, hu, he⟩)
    · exact ⟨k, Nat.le_succ_of_le hk, hsteps⟩
    · exact ⟨n + 1, le_rfl, u, hu.1, he⟩

/-- Where a level is empty, there is nothing behind it. -/
theorem below_of_empty {n : ℕ} (h : ∀ v, ¬AtDistance dag n v) {k v : ℕ} (hv : Steps dag k v) :
    Below dag n v := by
  induction k generalizing v with
  | zero =>
    by_contra hbelow
    have hn : n = 0 := by
      by_contra hn
      exact hbelow ⟨0, Nat.pos_of_ne_zero hn, hv⟩
    subst hn
    exact h v ⟨hv, hbelow⟩
  | succ k ih =>
    obtain ⟨u, hu, he⟩ := hv
    obtain ⟨j, hj, hu'⟩ := ih hu
    by_contra hbelow
    rcases Nat.lt_or_eq_of_le (Nat.succ_le_of_lt hj) with hlt | rfl
    · exact hbelow ⟨j + 1, hlt, u, hu', he⟩
    · exact h v ⟨⟨u, hu', he⟩, hbelow⟩

end Phasar.PathSensitivityManager
