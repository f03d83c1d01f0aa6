import Mathlib.Data.Int.Notation
import Mathlib.Data.List.Basic
import Mathlib.Data.List.GetD
import Mathlib.Data.List.Induction
import Phasar.Utils.Compressor

/-!
# Interned field strings

A field string is a chain of nodes, from its most recent offset on, that ends at the id `None`. Each node
has one id. The sentinel takes the id `None`, but is not found under it, so that the string of the single
offset `0` has a node of its own.

* `FieldStringManager`: `intern`, `prepend`, `getFullFieldString`, `fromFullFieldString`, `depth`;
* `Chain`: the offsets of an id; `Inv`: what the calls keep;
* `faithful`: ids and field strings belong to each other, throughout a run.
-/

namespace Phasar.CFLFieldSens

/-- The ids are numbers; `None` is `0`. -/
structure FieldStringNode where
  Next : ℕ
  Offset : ℤ
  deriving DecidableEq

structure FieldStringManager where
  NodeCompressor : Compressor FieldStringNode
  Depth : List ℕ

namespace FieldStringManager

/-- The constructor, which adds the sentinel. -/
def new : FieldStringManager := ⟨((⟨fun _ => none, []⟩ : Compressor FieldStringNode).insertDummy ⟨0, 0⟩).2, [0]⟩

def depth (NId : ℕ) (m : FieldStringManager) : ℕ := m.Depth.getD NId 0

/-- `intern`: the id, and the manager after it. -/
def intern (Nod : FieldStringNode) (m : FieldStringManager) : ℕ × FieldStringManager :=
  let r := m.NodeCompressor.insert Nod
  (r.1, ⟨r.2.2, if r.2.1 then m.Depth ++ [m.depth Nod.Next + 1] else m.Depth⟩)

def prepend (Head : ℤ) (Tail : ℕ) (m : FieldStringManager) : ℕ × FieldStringManager :=
  m.intern ⟨Tail, Head⟩

/-- The loop of `getFullFieldString`: the offsets from an id on. -/
def offsets (m : FieldStringManager) : ℕ → ℕ → Option (List ℤ)
  | _, 0 => some []
  | 0, _ + 1 => none
  | rounds + 1, NId + 1 => do
    let Nod ← m.NodeCompressor.get (NId + 1)
    let Ret ← m.offsets rounds Nod.Next
    return Nod.Offset :: Ret

/-- `getFullFieldString`; each round goes to an earlier id. -/
def getFullFieldString (NId : ℕ) (m : FieldStringManager) : Option (List ℤ) :=
  (m.offsets m.NodeCompressor.size NId).map List.reverse

/-- `fromFullFieldString`: the id, and the manager after it. -/
def fromFullFieldString (FieldString : List ℤ) (m : FieldStringManager) : ℕ × FieldStringManager :=
  FieldString.foldl (fun r Offset => prepend Offset r.1 r.2) (0, m)

/-! ### Chains -/

/-- The offsets that an id stands for, the most recent one first. -/
def Chain (m : FieldStringManager) : ℕ → List ℤ → Prop
  | NId, [] => NId = 0
  | NId, Offset :: s => NId ≠ 0 ∧ ∃ Next, m.NodeCompressor.get NId = some ⟨Next, Offset⟩ ∧ Chain m Next s

/-- Every node but the sentinel is found, goes to an earlier id, and is one deeper than that. -/
structure Inv (m : FieldStringManager) : Prop where
  compressor : m.NodeCompressor.Inv (· = 0)
  pos : 0 < m.NodeCompressor.size
  length : m.Depth.length = m.NodeCompressor.size
  next_lt : ∀ NId Nod, m.NodeCompressor.get NId = some Nod → NId ≠ 0 → Nod.Next < NId
  depth_zero : m.depth 0 = 0
  depth_succ : ∀ NId Nod, m.NodeCompressor.get NId = some Nod → NId ≠ 0 →
    m.depth NId = m.depth Nod.Next + 1

/-- Ids keep their nodes and depths. -/
structure Extends (m m' : FieldStringManager) : Prop where
  nodes : m.NodeCompressor.Extends m'.NodeCompressor
  depth : ∀ NId < m.Depth.length, m'.depth NId = m.depth NId
  length : m.Depth.length ≤ m'.Depth.length

variable {m m' m'' : FieldStringManager} {NId NId' Tail : ℕ} {Nod : FieldStringNode} {s t : List ℤ} {Head : ℤ}

theorem Extends.refl (m : FieldStringManager) : Extends m m :=
  ⟨.refl _, fun _ _ => rfl, le_rfl⟩

theorem Extends.trans (h : Extends m m') (h' : Extends m' m'') : Extends m m'' :=
  ⟨h.nodes.trans h'.nodes, fun NId hlt => (h'.depth NId (hlt.trans_le h.length)).trans (h.depth NId hlt),
    h.length.trans h'.length⟩

theorem Chain.mono (h : Chain m NId s) (hext : Extends m m') : Chain m' NId s := by
  induction s generalizing NId with
  | nil => exact h
  | cons Offset s ih =>
    obtain ⟨hne, Next, hget, hs⟩ := h
    exact ⟨hne, Next, hext.nodes _ _ hget, ih hs⟩

/-- An id stands for one string. -/
theorem Chain.eq (h : Chain m NId s) (h' : Chain m NId t) : s = t := by
  induction s generalizing NId t with
  | nil =>
    cases t with
    | nil => rfl
    | cons Offset t => exact absurd h h'.1
  | cons Offset s ih =>
    obtain ⟨hne, Next, hget, hs⟩ := h
    cases t with
    | nil => exact absurd h' hne
    | cons Offset' t =>
      obtain ⟨-, Next', hget', ht⟩ := h'
      rw [hget] at hget'
      cases hget'
      rw [ih hs ht]

/-- A string has one id. -/
theorem Inv.id_eq (hm : Inv m) (h : Chain m NId s) (h' : Chain m NId' s) : NId = NId' := by
  induction s generalizing NId NId' with
  | nil => exact h.trans h'.symm
  | cons Offset s ih =>
    obtain ⟨hne, Next, hget, hs⟩ := h
    obtain ⟨hne', Next', hget', hs'⟩ := h'
    obtain rfl : Next = Next' := ih hs hs'
    have hfound := (hm.compressor _ _).2 ⟨hget, hne⟩
    rw [(hm.compressor _ _).2 ⟨hget', hne'⟩] at hfound
    exact (Option.some.inj hfound).symm

/-- Every id stands for a string. -/
theorem Inv.exists_chain (hm : Inv m) (hlt : NId < m.NodeCompressor.size) : ∃ s, Chain m NId s := by
  induction NId using Nat.strongRecOn with
  | ind NId ih =>
    by_cases hne : NId = 0
    · exact ⟨[], hne⟩
    · obtain ⟨Nod, hget⟩ : ∃ Nod, m.NodeCompressor.get NId = some Nod :=
        ⟨_, List.getElem?_eq_getElem hlt⟩
      have hnext := hm.next_lt NId _ hget hne
      obtain ⟨s, hs⟩ := ih _ hnext (hnext.trans hlt)
      exact ⟨_ :: s, hne, _, hget, hs⟩

theorem Inv.chain_lt_size (hm : Inv m) (h : Chain m NId s) : NId < m.NodeCompressor.size := by
  cases s with
  | nil => exact (show NId = 0 from h) ▸ hm.pos
  | cons Offset s =>
    obtain ⟨-, Next, hget, -⟩ := h
    exact Compressor.lt_size hget

theorem Inv.length_le (hm : Inv m) (h : Chain m NId s) : s.length ≤ NId := by
  induction s generalizing NId with
  | nil => exact Nat.zero_le NId
  | cons Offset s ih =>
    obtain ⟨hne, Next, hget, hs⟩ := h
    exact (ih hs).trans_lt (hm.next_lt NId _ hget hne)

/-- The loop reads the chain. -/
theorem Chain.offsets (h : Chain m NId s) {rounds : ℕ} (hrounds : s.length ≤ rounds) :
    m.offsets rounds NId = some s := by
  induction s generalizing NId rounds with
  | nil =>
    obtain rfl : NId = 0 := h
    cases rounds <;> rfl
  | cons Offset s ih =>
    obtain ⟨hne, Next, hget, hs⟩ := h
    obtain ⟨NId, rfl⟩ := Nat.exists_eq_succ_of_ne_zero hne
    cases rounds with
    | zero => exact absurd hrounds (Nat.not_succ_le_zero _)
    | succ rounds =>
      rw [FieldStringManager.offsets, hget]
      show (m.offsets rounds Next >>= fun Ret => some (Offset :: Ret)) = _
      rw [ih hs (Nat.le_of_succ_le_succ hrounds)]
      rfl

theorem Inv.getFullFieldString_eq (hm : Inv m) (h : Chain m NId s) :
    m.getFullFieldString NId = some s.reverse := by
  have hle := (hm.length_le h).trans (hm.chain_lt_size h).le
  rw [getFullFieldString, h.offsets hle]
  rfl

/-- The depth of an id is the length of its string. -/
theorem Inv.depth_eq (hm : Inv m) (h : Chain m NId s) : m.depth NId = s.length := by
  induction s generalizing NId with
  | nil => exact (show NId = 0 from h) ▸ hm.depth_zero
  | cons Offset s ih =>
    obtain ⟨hne, Next, hget, hs⟩ := h
    rw [hm.depth_succ NId _ hget hne, ih hs, List.length_cons]

/-! ### What the calls keep -/

theorem inv_new : Inv new := by
  have hget : ∀ NId Nod, new.NodeCompressor.get NId = some Nod → NId = 0 := fun NId Nod h =>
    Nat.lt_one_iff.1 (Compressor.lt_size h)
  refine ⟨fun Elem Id => ?_, Nat.one_pos, rfl, ?_, rfl, ?_⟩
  · exact iff_of_false nofun fun h => h.2 (hget Id Elem h.1)
  · exact fun NId Nod h hne => absurd (hget NId Nod h) hne
  · exact fun NId Nod h hne => absurd (hget NId Nod h) hne

theorem depth_concat {nodes : Compressor FieldStringNode} {d : ℕ} (hlt : NId < m.Depth.length) :
    depth NId ⟨nodes, m.Depth ++ [d]⟩ = m.depth NId :=
  List.getD_append _ _ _ _ hlt

theorem depth_length {nodes : Compressor FieldStringNode} {d : ℕ} :
    depth m.Depth.length ⟨nodes, m.Depth ++ [d]⟩ = d := by
  rw [depth, List.getD_append_right _ _ _ _ le_rfl, Nat.sub_self]
  rfl

/-- A node is found, or gets the next id. -/
theorem intern_cases (Nod : FieldStringNode) (m : FieldStringManager) :
    (∃ Id, m.NodeCompressor.getOrNull Nod = some Id ∧ m.intern Nod = (Id, m)) ∨
      m.NodeCompressor.getOrNull Nod = none ∧ m.intern Nod = (m.NodeCompressor.size,
        ⟨(m.NodeCompressor.insert Nod).2.2, m.Depth ++ [m.depth Nod.Next + 1]⟩) := by
  rcases Compressor.insert_cases Nod m.NodeCompressor with ⟨Id, hfound, heq⟩ | ⟨hnew, heq⟩
  · exact Or.inl ⟨Id, hfound, by rw [intern, heq]; rfl⟩
  · exact Or.inr ⟨hnew, by rw [intern, heq]; rfl⟩

theorem Inv.intern (hm : Inv m) (hnext : Nod.Next < m.NodeCompressor.size) :
    Inv (m.intern Nod).2 ∧ Extends m (m.intern Nod).2 := by
  rcases intern_cases Nod m with ⟨Id, -, heq⟩ | ⟨hnew, heq⟩
  · rw [heq]
    exact ⟨hm, .refl m⟩
  · have hlen := hm.length
    have hpos := hm.pos
    have hinsert : (m.NodeCompressor.insert Nod).2.2 =
        ⟨Function.update m.NodeCompressor.ToInt Nod (some m.NodeCompressor.size),
          m.NodeCompressor.FromInt ++ [Nod]⟩ := by
      rcases Compressor.insert_cases Nod m.NodeCompressor with ⟨Id, hfound, -⟩ | ⟨-, heq⟩
      · rw [hnew] at hfound
        cases hfound
      · rw [heq]
    have hsize : (m.NodeCompressor.insert Nod).2.2.size = m.NodeCompressor.size + 1 := by
      rw [hinsert, Compressor.size, List.length_append]
      rfl
    have hget : ∀ NId Nod', (m.NodeCompressor.insert Nod).2.2.get NId = some Nod' →
        m.NodeCompressor.get NId = some Nod' ∨ NId = m.NodeCompressor.size ∧ Nod = Nod' :=
      fun NId Nod' h => Compressor.get_concat.1 (hinsert ▸ h)
    rw [heq]
    refine ⟨⟨?_, ?_, ?_, ?_, ?_, ?_⟩, ⟨Compressor.extends_insert, fun NId hlt => depth_concat hlt, ?_⟩⟩
    · exact hm.compressor.insert (fun Id hle => by omega) Nod
    · exact hsize ▸ Nat.succ_pos _
    · show (m.Depth ++ [_]).length = _
      rw [hsize, List.length_append, hlen]
      rfl
    · intro NId Nod' h hne
      rcases hget NId Nod' h with h | ⟨rfl, rfl⟩
      · exact hm.next_lt NId Nod' h hne
      · exact hnext
    · rw [depth_concat (by omega)]
      exact hm.depth_zero
    · intro NId Nod' h hne
      rcases hget NId Nod' h with h | ⟨rfl, rfl⟩
      · have hlt := Compressor.lt_size h
        have hlt' := hm.next_lt NId Nod' h hne
        rw [depth_concat (by omega), depth_concat (by omega)]
        exact hm.depth_succ NId Nod' h hne
      · rw [← hlen, depth_length, depth_concat (by omega)]
    · rw [List.length_append]
      exact Nat.le_add_right _ _

theorem Inv.get_intern (hm : Inv m) (Nod : FieldStringNode) :
    (m.intern Nod).2.NodeCompressor.get (m.intern Nod).1 = some Nod ∧ (m.intern Nod).1 ≠ 0 := by
  rcases intern_cases Nod m with ⟨Id, hfound, heq⟩ | ⟨hnew, heq⟩
  · rw [heq]
    exact (hm.compressor Nod Id).1 hfound
  · have hget := hm.compressor.get_insert Nod
    rcases Compressor.insert_cases Nod m.NodeCompressor with ⟨Id, hfound, -⟩ | ⟨-, hinsert⟩
    · rw [hnew] at hfound
      cases hfound
    · rw [heq]
      refine ⟨?_, Nat.ne_of_gt hm.pos⟩
      rwa [hinsert] at hget ⊢

/-- The new id stands for the longer string. -/
theorem Inv.chain_prepend (hm : Inv m) (h : Chain m Tail s) :
    Chain (prepend Head Tail m).2 (prepend Head Tail m).1 (Head :: s) := by
  obtain ⟨hget, hne⟩ := hm.get_intern ⟨Tail, Head⟩
  exact ⟨hne, Tail, hget, h.mono (hm.intern (hm.chain_lt_size h)).2⟩

/-- The id of a string is found again, and nothing changes. -/
theorem Inv.prepend_of_chain (hm : Inv m) (h : Chain m NId (Head :: s)) (hs : Chain m Tail s) :
    prepend Head Tail m = (NId, m) := by
  obtain ⟨hne, Next, hget, hs'⟩ := h
  obtain rfl : Next = Tail := hm.id_eq hs' hs
  rcases intern_cases ⟨Next, Head⟩ m with ⟨Id, hfound, heq⟩ | ⟨hnew, -⟩
  · rw [(hm.compressor _ _).2 ⟨hget, hne⟩] at hfound
    rw [prepend, heq, Option.some.inj hfound]
  · rw [(hm.compressor _ _).2 ⟨hget, hne⟩] at hnew
    cases hnew

/-- The loop of `fromFullFieldString`, from the id of some string on. -/
def prependAll (FieldString : List ℤ) (r : ℕ × FieldStringManager) : ℕ × FieldStringManager :=
  FieldString.foldl (fun r Offset => prepend Offset r.1 r.2) r

theorem Inv.prependAll (hm : Inv m) (h : Chain m NId t) (s : List ℤ) :
    Inv (prependAll s (NId, m)).2 ∧ Extends m (prependAll s (NId, m)).2 ∧
      Chain (prependAll s (NId, m)).2 (prependAll s (NId, m)).1 (s.reverse ++ t) := by
  induction s generalizing m NId t with
  | nil => exact ⟨hm, .refl m, h⟩
  | cons Offset s ih =>
    have hprepend : Chain (prepend Offset NId m).2 (prepend Offset NId m).1 (Offset :: t) :=
      hm.chain_prepend h
    obtain ⟨hinv, hext⟩ : Inv (prepend Offset NId m).2 ∧ Extends m (prepend Offset NId m).2 :=
      hm.intern (hm.chain_lt_size h)
    obtain ⟨hinv', hext', hchain⟩ := ih hinv hprepend
    rw [List.reverse_cons, List.append_assoc]
    exact ⟨hinv', hext.trans hext', hchain⟩

theorem Inv.prependAll_of_chain (hm : Inv m) (ht : Chain m Tail t) (h : Chain m NId (s.reverse ++ t)) :
    FieldStringManager.prependAll s (Tail, m) = (NId, m) := by
  induction s using List.reverseRecOn generalizing NId with
  | nil => exact congrArg (·, m) (hm.id_eq ht h)
  | append_singleton s Offset ih =>
    rw [List.reverse_concat, List.cons_append] at h
    obtain ⟨hne, Next, hget, hs⟩ := h
    have hrest : FieldStringManager.prependAll s (Tail, m) = (Next, m) := ih hs
    rw [FieldStringManager.prependAll, List.foldl_concat, ← FieldStringManager.prependAll, hrest]
    exact hm.prepend_of_chain ⟨hne, Next, hget, hs⟩ hs

theorem Inv.fromFullFieldString (hm : Inv m) (s : List ℤ) :
    Inv (m.fromFullFieldString s).2 ∧ Extends m (m.fromFullFieldString s).2 ∧
      Chain (m.fromFullFieldString s).2 (m.fromFullFieldString s).1 s.reverse := by
  have h := hm.prependAll (show Chain m 0 [] from rfl) s
  rwa [List.append_nil] at h

/-! ### Runs -/

inductive Op
  | prepend (Head : ℤ) (Tail : ℕ)
  | fromFullFieldString (FieldString : List ℤ)

namespace Op

/-- The id that a call returns, and the manager after it. -/
def run (m : FieldStringManager) : Op → ℕ × FieldStringManager
  | prepend Head Tail => m.prepend Head Tail
  | fromFullFieldString FieldString => m.fromFullFieldString FieldString

/-- The ids that a call uses have been handed out. -/
def Valid (ids : List ℕ) : Op → Prop
  | prepend _ Tail => Tail ∈ ids
  | fromFullFieldString _ => True

end Op

/-- The calls after which a manager is `m`; `ids` are `None` and those that were returned. -/
inductive Run : List ℕ → FieldStringManager → Prop
  | created : Run [0] new
  | call {ids : List ℕ} {m : FieldStringManager} (h : Run ids m) (op : Op) (hop : op.Valid ids) :
      Run ((op.run m).1 :: ids) (op.run m).2

/-- The managers that come later in a run. -/
inductive Later (ids : List ℕ) (m : FieldStringManager) : List ℕ → FieldStringManager → Prop
  | refl : Later ids m ids m
  | call {ids' : List ℕ} {m' : FieldStringManager} (h : Later ids m ids' m') (op : Op)
      (hop : op.Valid ids') : Later ids m ((op.run m').1 :: ids') (op.run m').2

variable {ids ids' : List ℕ}

/-- A call keeps the invariant, and what is there; the id that it returns stands for a string. -/
theorem Inv.run (hm : Inv m) {op : Op} (hids : ∀ NId ∈ ids, ∃ s, Chain m NId s) (hop : op.Valid ids) :
    Inv (op.run m).2 ∧ Extends m (op.run m).2 ∧ ∃ s, Chain (op.run m).2 (op.run m).1 s := by
  cases op with
  | prepend Head Tail =>
    obtain ⟨s, hs⟩ := hids Tail hop
    have hintern : Inv (m.prepend Head Tail).2 ∧ Extends m (m.prepend Head Tail).2 :=
      hm.intern (hm.chain_lt_size hs)
    exact ⟨hintern.1, hintern.2, Head :: s, hm.chain_prepend hs⟩
  | fromFullFieldString FieldString =>
    obtain ⟨hinv, hext, hchain⟩ := hm.fromFullFieldString FieldString
    exact ⟨hinv, hext, _, hchain⟩

theorem Later.inv (h : Later ids m ids' m') (hm : Inv m) (hids : ∀ NId ∈ ids, ∃ s, Chain m NId s) :
    Inv m' ∧ Extends m m' ∧ ∀ NId ∈ ids', ∃ s, Chain m' NId s := by
  induction h with
  | refl => exact ⟨hm, .refl m, hids⟩
  | call _ op hop ih =>
    obtain ⟨hinv, hext, hids'⟩ := ih
    obtain ⟨hinv', hext', hnew⟩ := hinv.run hids' hop
    refine ⟨hinv', hext.trans hext', List.forall_mem_cons.2 ⟨hnew, fun NId hNId => ?_⟩⟩
    obtain ⟨s, hs⟩ := hids' NId hNId
    exact ⟨s, hs.mono hext'⟩

theorem Run.later (h : Run ids m) : Later [0] new ids m := by
  induction h with
  | created => exact .refl
  | call _ op hop ih => exact ih.call op hop

theorem Run.inv (h : Run ids m) : Inv m ∧ ∀ NId ∈ ids, ∃ s, Chain m NId s := by
  have hnew : ∀ NId ∈ [0], ∃ s, Chain new NId s := fun NId hNId => ⟨[], List.mem_singleton.1 hNId⟩
  obtain ⟨hinv, -, hids⟩ := h.later.inv inv_new hnew
  exact ⟨hinv, hids⟩

/-- Ids and field strings belong to each other. -/
structure Faithful (ids : List ℕ) (m : FieldStringManager) : Prop where
  getFullFieldString : ∀ s, (m.fromFullFieldString s).2.getFullFieldString (m.fromFullFieldString s).1 = some s
  fromFullFieldString : ∀ NId ∈ ids, ∃ s, m.getFullFieldString NId = some s ∧
    m.fromFullFieldString s = (NId, m)
  injective : ∀ s t ids' m', Later ((m.fromFullFieldString s).1 :: ids) (m.fromFullFieldString s).2 ids' m' →
    (m.fromFullFieldString s).1 = (m'.fromFullFieldString t).1 → s = t
  depth : ∀ s, (m.fromFullFieldString s).2.depth (m.fromFullFieldString s).1 = s.length
  keeps : ∀ NId ∈ ids, ∀ ids' m', Later ids m ids' m' →
    m'.getFullFieldString NId = m.getFullFieldString NId ∧ m'.depth NId = m.depth NId

/-- After any calls, field strings are interned faithfully. -/
theorem faithful (h : Run ids m) : Faithful ids m := by
  obtain ⟨hm, hids⟩ := h.inv
  refine ⟨fun s => ?_, fun NId hNId => ?_, fun s t ids' m' hlater heq => ?_, fun s => ?_,
    fun NId hNId ids' m' hlater => ?_⟩
  · obtain ⟨hinv, -, hchain⟩ := hm.fromFullFieldString s
    rw [hinv.getFullFieldString_eq hchain, List.reverse_reverse]
  · obtain ⟨s, hs⟩ := hids NId hNId
    refine ⟨s.reverse, hm.getFullFieldString_eq hs, hm.prependAll_of_chain (show Chain m 0 [] from rfl) ?_⟩
    rwa [List.reverse_reverse, List.append_nil]
  · obtain ⟨hinv, hext, hchain⟩ := hm.fromFullFieldString s
    have hids' : ∀ NId ∈ (m.fromFullFieldString s).1 :: ids,
        ∃ s', Chain (m.fromFullFieldString s).2 NId s' := by
      refine List.forall_mem_cons.2 ⟨⟨_, hchain⟩, fun NId hNId => ?_⟩
      obtain ⟨s', hs'⟩ := hids NId hNId
      exact ⟨s', hs'.mono hext⟩
    obtain ⟨hinv', hext', -⟩ := hlater.inv hinv hids'
    obtain ⟨-, hext'', hchain'⟩ := hinv'.fromFullFieldString t
    have hstring := (hchain.mono (hext'.trans hext'')).eq (heq ▸ hchain')
    exact List.reverse_injective hstring
  · obtain ⟨hinv, -, hchain⟩ := hm.fromFullFieldString s
    rw [hinv.depth_eq hchain, List.length_reverse]
  · obtain ⟨hinv', hext, -⟩ := hlater.inv hm hids
    obtain ⟨s, hs⟩ := hids NId hNId
    rw [hinv'.getFullFieldString_eq (hs.mono hext), hm.getFullFieldString_eq hs,
      hinv'.depth_eq (hs.mono hext), hm.depth_eq hs]
    exact ⟨rfl, rfl⟩

/-- The string of the offset `0` after the string of the offsets `0` and `8`. -/
theorem faithful_two_calls :
    let m := (Op.fromFullFieldString [0, 8]).run new
    (m.2.fromFullFieldString [0]).2.getFullFieldString (m.2.fromFullFieldString [0]).1 = some [0] :=
  (faithful (.call .created (.fromFullFieldString [0, 8]) trivial)).getFullFieldString [0]

end FieldStringManager

end Phasar.CFLFieldSens
