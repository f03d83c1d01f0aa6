import Mathlib.Data.List.Basic
import Mathlib.Data.List.Forall2
import Mathlib.Data.Set.Insert
import Mathlib.Logic.Function.Basic
import Mathlib.Logic.Relation
import Mathlib.Tactic.Common

/-!
# The pointers in the initializers of globals

`GlobalInitCache::getOrCreate` collects the ids of the pointers in a constant: through the bases of
constant GEPs and the elements of aggregates. The result for a constant is kept for its next visit, but
for a GEP nothing is kept: its entry stays empty.

* `Constants`: a DAG of constants; `getOrCreate`, `run`;
* `Finds`: the ids of the pointers that are reached;
* `getOrCreate_spec`: the step of the walk, for one reference to a constant;
* `run_correct`: all calls are right if no GEP with pointers below is referred to twice.
-/

namespace Phasar

namespace GlobalInit

/-! ### Constants -/

/-- Types: integers, floats, vectors of these and void are scalars. -/
inductive Ty
  | scalar
  | pointer
  | array (elementType : Ty)
  | struct (elements : List Ty)
  | other

def Ty.isPointerTy : Ty → Bool
  | pointer => true
  | _ => false

def Ty.definitelyContainsNoPointerFast : Ty → Bool
  | scalar => true
  | _ => false

def Ty.definitelyContainsNoPointer : Ty → Bool
  | scalar => true
  | array elementType => elementType.definitelyContainsNoPointerFast
  | struct elements => elements.all definitelyContainsNoPointerFast
  | _ => false

/-- What a constant is. Of `ConstantData` only the null pointer is told apart. -/
inductive Node (K : Type*)
  | constantPointerNull
  | constantData
  | gep (pointerOperand : K)
  | aggregate (operands : List K)
  | other

/-- A DAG of well-typed constants. `rank` goes down from a constant to what it is built of. -/
structure Constants (K : Type*) where
  node : K → Node K
  ty : K → Ty
  stripPointerCastsAndAliases : K → K
  rank : K → ℕ
  rank_gep : ∀ {c b}, node c = .gep b → rank b < rank c
  rank_operand : ∀ {c ops e}, node c = .aggregate ops → e ∈ ops →
    rank (stripPointerCastsAndAliases e) < rank c
  ty_gep : ∀ {c b}, node c = .gep b → ty c = .pointer ∨ ty c = .other
  ty_strip : ∀ e, stripPointerCastsAndAliases e = e ∨
    ty e = .pointer ∧ ty (stripPointerCastsAndAliases e) = .pointer
  ty_aggregate : ∀ {c ops}, node c = .aggregate ops → ty c ≠ .pointer
  ty_scalar : ∀ {c ops e}, node c = .aggregate ops → ty c = .scalar → e ∈ ops → ty e = .scalar
  ty_array : ∀ {c ops e t}, node c = .aggregate ops → ty c = .array t → e ∈ ops → ty e = t
  ty_struct : ∀ {c ops e ts}, node c = .aggregate ops → ty c = .struct ts → e ∈ ops → ty e ∈ ts

namespace Constants

variable {K I : Type*} (G : Constants K)

def isConstantData (c : K) : Bool :=
  match G.node c with
  | .constantPointerNull | .constantData => true
  | _ => false

def definitelyContainsNoPointer (c : K) : Bool :=
  G.isConstantData c || (G.ty c).definitelyContainsNoPointer

/-- The array has elements without pointers. -/
def isArrayWithoutPointers : Ty → Bool
  | .array elementType => elementType.definitelyContainsNoPointer
  | _ => false

/-! ### The pointers below a constant -/

/-- The base of a GEP, or the elements of an aggregate without pointer casts and aliases. -/
def children (c : K) : List K :=
  match G.node c with
  | .gep base => [base]
  | .aggregate operands => operands.map G.stripPointerCastsAndAliases
  | _ => []

def Reaches : K → K → Prop := Relation.ReflTransGen fun a b => b ∈ G.children a

def IsGep (c : K) : Prop := ∃ base, G.node c = .gep base

/-- A pointer that is not null and no GEP. -/
def IsPointer (c : K) : Prop := (G.ty c).isPointerTy = true ∧ G.isConstantData c = false ∧ ¬G.IsGep c

variable (GetVar : K → I)

/-- A pointer with the id `id` is reached from `c`. -/
def Finds (c : K) (id : I) : Prop := ∃ p, G.Reaches c p ∧ G.IsPointer p ∧ GetVar p = id

variable {G GetVar} {c e p : K} {id : I}

theorem finds_iff : G.Finds GetVar c id ↔
    (G.IsPointer c ∧ GetVar c = id) ∨ ∃ e ∈ G.children c, G.Finds GetVar e id := by
  constructor
  · rintro ⟨p, hreach, hp, hid⟩
    rcases Relation.ReflTransGen.cases_head hreach with rfl | ⟨e, he, hrest⟩
    · exact Or.inl ⟨hp, hid⟩
    · exact Or.inr ⟨e, he, p, hrest, hp, hid⟩
  · rintro (⟨hc, hid⟩ | ⟨e, he, p, hreach, hp, hid⟩)
    · exact ⟨c, .refl, hc, hid⟩
    · exact ⟨p, hreach.head he, hp, hid⟩

theorem children_of_isConstantData (h : G.isConstantData c = true) : G.children c = [] := by
  unfold isConstantData at h
  unfold children
  split at h
  · simp_all
  · simp_all
  · cases h

theorem rank_lt_of_mem_children (h : e ∈ G.children c) : G.rank e < G.rank c := by
  unfold children at h
  split at h
  · next base hnode =>
    rw [List.mem_singleton.1 h]
    exact G.rank_gep hnode
  · next operands hnode =>
    obtain ⟨op, hop, rfl⟩ := List.mem_map.1 h
    exact G.rank_operand hnode hop
  · cases h

theorem strip_eq_self (h : G.ty e ≠ .pointer) : G.stripPointerCastsAndAliases e = e :=
  (G.ty_strip e).resolve_right fun hptr => h hptr.1

/-- The elements of an aggregate, when none of their types is a pointer. -/
theorem mem_children_of_ty {t : Ty → Prop} (ht : ¬t .pointer) (hc : ¬G.IsGep c)
    (hops : ∀ ops, G.node c = .aggregate ops → ∀ e ∈ ops, t (G.ty e)) (he : e ∈ G.children c) :
    t (G.ty e) := by
  unfold children at he
  split at he
  · next base hnode => exact absurd ⟨base, hnode⟩ hc
  · next ops hnode =>
    obtain ⟨op, hop, rfl⟩ := List.mem_map.1 he
    have hty := hops ops hnode op hop
    have hne : G.ty op ≠ .pointer := fun h => ht (h ▸ hty)
    rwa [strip_eq_self hne]
  · cases he

theorem not_finds_of_scalar (h : G.ty c = .scalar) : ¬G.Finds GetVar c id := by
  rintro ⟨p, hreach, hp, -⟩
  have hscalar : G.ty p = .scalar := by
    clear hp
    induction hreach with
    | refl => exact h
    | @tail a b _ hb ih =>
      refine mem_children_of_ty (t := (· = .scalar)) nofun ?_ (fun ops hnode e he => ?_) hb
      · rintro ⟨base, hnode⟩
        rcases G.ty_gep hnode with hty | hty <;> cases ih.symm.trans hty
      · exact G.ty_scalar hnode ih he
  have hptr := hp.1
  rw [hscalar] at hptr
  cases hptr

theorem eq_scalar_of_fast {t : Ty} (h : t.definitelyContainsNoPointerFast = true) : t = .scalar := by
  cases t with
  | scalar => rfl
  | _ => cases h

theorem not_finds_of_ty (h : (G.ty c).definitelyContainsNoPointer = true) :
    ¬G.Finds GetVar c id := by
  cases hty : G.ty c with
  | scalar => exact not_finds_of_scalar hty
  | pointer => simp [hty, Ty.definitelyContainsNoPointer] at h
  | other => simp [hty, Ty.definitelyContainsNoPointer] at h
  | array t =>
    rw [hty, Ty.definitelyContainsNoPointer] at h
    rw [finds_iff]
    rintro (⟨hp, -⟩ | ⟨e, he, hfinds⟩)
    · simp [IsPointer, hty, Ty.isPointerTy] at hp
    · refine not_finds_of_scalar (mem_children_of_ty (t := (· = .scalar)) nofun ?_ (fun ops hnode e he => ?_) he) hfinds
      · rintro ⟨base, hnode⟩
        rcases G.ty_gep hnode with h | h <;> cases hty.symm.trans h
      · rw [G.ty_array hnode hty he]
        exact eq_scalar_of_fast h
  | struct ts =>
    rw [hty, Ty.definitelyContainsNoPointer, List.all_eq_true] at h
    rw [finds_iff]
    rintro (⟨hp, -⟩ | ⟨e, he, hfinds⟩)
    · simp [IsPointer, hty, Ty.isPointerTy] at hp
    · refine not_finds_of_scalar (mem_children_of_ty (t := (· = .scalar)) nofun ?_ (fun ops hnode e he => ?_) he) hfinds
      · rintro ⟨base, hnode⟩
        rcases G.ty_gep hnode with h | h <;> cases hty.symm.trans h
      · exact eq_scalar_of_fast (h _ (G.ty_struct hnode hty he))

theorem not_finds_of_definitelyContainsNoPointer (h : G.definitelyContainsNoPointer c = true) :
    ¬G.Finds GetVar c id := by
  rw [definitelyContainsNoPointer, Bool.or_eq_true] at h
  rcases h with h | h
  · rw [finds_iff, children_of_isConstantData h]
    rintro (⟨hp, -⟩ | ⟨e, he, -⟩)
    · rw [hp.2.1] at h
      cases h
    · cases he
  · exact not_finds_of_ty h

theorem not_finds_of_isArrayWithoutPointers {ops : List K} (hnode : G.node c = .aggregate ops)
    (h : isArrayWithoutPointers (G.ty c) = true) : ¬G.Finds GetVar c id := by
  cases hty : G.ty c with
  | array t =>
    rw [hty, isArrayWithoutPointers] at h
    rw [finds_iff]
    rintro (⟨hp, -⟩ | ⟨e, he, hfinds⟩)
    · simp [IsPointer, hty, Ty.isPointerTy] at hp
    · refine not_finds_of_ty (mem_children_of_ty (t := fun t => t.definitelyContainsNoPointer = true)
        nofun ?_ (fun ops hnode e he => ?_) he) hfinds
      · rintro ⟨base, hgep⟩
        cases hnode.symm.trans hgep
      · rw [G.ty_array hnode hty he]
        exact h
  | _ => simp [hty, isArrayWithoutPointers] at h

/-! ### References -/

/-- A reference: a constant and the number of one of its children, or the number of a call. -/
abbrev Ref (K : Type*) := Option K × ℕ

variable (G GetVar)

/-- What is referred to in a sequence of calls, by the calls and by what they reach. -/
def Refers (cs : List K) (r : Ref K) (c : K) : Prop :=
  match r.1 with
  | none => cs[r.2]? = some c
  | some p => (∃ a ∈ cs, G.Reaches a p) ∧ (G.children p)[r.2]? = some c

/-- A GEP with pointers below is referred to twice. -/
def SharedGep (cs : List K) : Prop :=
  ∃ g, G.IsGep g ∧ (∃ id, G.Finds GetVar g id) ∧ ∃ r r', r ≠ r' ∧ G.Refers cs r g ∧ G.Refers cs r' g

abbrev Cache (K I : Type*) := K → Option (List I)

/-- The ids are those of the pointers below `c`. -/
def Right (c : K) (ids : List I) : Prop := ∀ id, id ∈ ids ↔ G.Finds GetVar c id

/-- The entry of `c` is right, unless `c` is a GEP. -/
def Complete (cache : Cache K I) (c : K) : Prop := ∀ v, cache c = some v → ¬G.IsGep c → G.Right GetVar c v

/-- The cache, and the references followed so far. -/
structure Inv (cs : List K) (cache : Cache K I) (U : Set (Ref K)) : Prop where
  referred : ∀ c, cache c ≠ none → ∃ r ∈ U, G.Refers cs r c
  parent : ∀ p i, (some p, i) ∈ U → cache p ≠ none
  gep : ∀ c v, G.IsGep c → cache c = some v → v = []

/-- What a call leaves as it was, and what it adds: references in constants without an entry. -/
structure Extends (r : Ref K) (cache cache' : Cache K I)
    (U U' : Set (Ref K)) : Prop where
  refs : ∀ r' ∈ U', r' ∈ U ∨ r' = r ∨ ∃ p i, r' = (some p, i) ∧ cache p = none
  kept : ∀ d, cache d ≠ none → cache' d = cache d
  complete : ∀ d, cache d = none → G.Complete GetVar cache' d

variable {G GetVar}
variable {cs : List K} {r r' : Ref K} {cache : Cache K I} {U : Set (Ref K)} {n : ℕ}

theorem Refers.reaches (h : G.Refers cs r c) : ∃ a ∈ cs, G.Reaches a c := by
  unfold Refers at h
  split at h
  · exact ⟨c, List.mem_of_getElem? h, .refl⟩
  · obtain ⟨⟨a, ha, hp⟩, hc⟩ := h
    exact ⟨a, ha, hp.tail (List.mem_of_getElem? hc)⟩

theorem Refers.rank_lt (h : G.Refers cs r c) (hp : r.1 = some p) : G.rank c < G.rank p := by
  simp only [Refers, hp] at h
  exact rank_lt_of_mem_children (List.mem_of_getElem? h.2)

/-! ### The walk -/

variable [DecidableEq K]

/-- `Vec.append(Sub.begin(), Sub.end())` at the entry of a constant. -/
def append (Const : K) (Sub : List I) (cache : Cache K I) : Cache K I :=
  Function.update cache Const (some ((cache Const).getD [] ++ Sub))

variable (G GetVar)

/-- `getOrCreate`, for constants of a rank below `n`: the ids, and the cache after the call. -/
def getOrCreate : ℕ → K → Cache K I → List I × Cache K I
  | 0, _, cache => ([], cache)
  | n + 1, Const, cache =>
    if G.definitelyContainsNoPointer Const then ([], cache)
    else
      match cache Const with
      | some Vec => (Vec, cache)
      | none =>
        let cache := Function.update cache Const (some [])
        match G.node Const with
        | .constantPointerNull => ([], cache)
        -- the entry of the constant itself stays empty
        | .gep base => getOrCreate n base cache
        | node =>
          if (G.ty Const).isPointerTy then ([GetVar Const], append Const [GetVar Const] cache)
          else
            match node with
            | .aggregate operands =>
              if isArrayWithoutPointers (G.ty Const) then ([], cache)
              else
                let cache := operands.foldl (fun cache Op =>
                  let r := getOrCreate n (G.stripPointerCastsAndAliases Op) cache
                  append Const r.1 r.2) cache
                ((cache Const).getD [], cache)
            | _ => ([], cache)

/-- The results of a sequence of calls on one cache. -/
def run : List K → Cache K I → List (List I)
  | [], _ => []
  | Const :: rest, cache =>
    let r := G.getOrCreate GetVar (G.rank Const + 1) Const cache
    r.1 :: run rest r.2

variable {G GetVar}

/-! ### One call -/

theorem Inv.update {v : List I} (h : G.Inv cs cache U) (hr : G.Refers cs r c)
    (hparent : ∀ p, r.1 = some p → cache p ≠ none) (hgep : G.IsGep c → v = []) :
    G.Inv cs (Function.update cache c (some v)) (insert r U) where
  referred d hd := by
    by_cases hdc : d = c
    · exact ⟨r, Set.mem_insert _ _, hdc ▸ hr⟩
    · rw [Function.update_of_ne hdc] at hd
      obtain ⟨r', hr', href⟩ := h.referred d hd
      exact ⟨r', Set.mem_insert_of_mem _ hr', href⟩
  parent p i hp := by
    by_cases hpc : p = c
    · rw [hpc, Function.update_self]
      nofun
    · rw [Function.update_of_ne hpc]
      rcases hp with rfl | hp
      · exact hparent p rfl
      · exact h.parent p i hp
  gep d w hd hw := by
    by_cases hdc : d = c
    · subst hdc
      rw [Function.update_self] at hw
      exact Option.some.inj hw ▸ hgep hd
    · rw [Function.update_of_ne hdc] at hw
      exact h.gep d w hd hw

/-- What a call is asked for: one reference to `c` that was not followed before. -/
structure Asked (G : Constants K) (GetVar : K → I) (cs : List K) (r : Ref K) (c : K) (cache : Cache K I)
    (U : Set (Ref K)) : Prop where
  inv : G.Inv cs cache U
  refers : G.Refers cs r c
  fresh : r ∉ U
  parent : ∀ p, r.1 = some p → cache p ≠ none
  complete : ∀ d, G.rank d ≤ G.rank c → G.Complete GetVar cache d

/-- What a call gives. -/
def Answered (G : Constants K) (GetVar : K → I) (cs : List K) (r : Ref K) (c : K) (cache : Cache K I)
    (U : Set (Ref K)) (res : List I × Cache K I) : Prop :=
  ∃ U', G.Inv cs res.2 U' ∧ G.Extends GetVar r cache res.2 U U' ∧ G.Right GetVar c res.1

/-- A call that enters `v` and looks at no children. -/
theorem Asked.enter {v : List I} (h : Asked G GetVar cs r c cache U) (hnone : cache c = none)
    (hgep : G.IsGep c → v = []) (hright : G.Right GetVar c v) :
    Answered G GetVar cs r c cache U (v, Function.update cache c (some v)) := by
  refine ⟨insert r U, h.inv.update h.refers h.parent hgep, ⟨fun r' hr' => ?_, fun d hd => ?_,
    fun d hd w hw _ => ?_⟩, hright⟩
  · rcases hr' with rfl | hr'
    · exact Or.inr (Or.inl rfl)
    · exact Or.inl hr'
  · refine Function.update_of_ne ?_ _ _
    rintro rfl
    exact hd hnone
  · change Function.update cache c (some v) d = some w at hw
    by_cases hdc : d = c
    · subst hdc
      rw [Function.update_self] at hw
      exact Option.some.inj hw ▸ hright
    · rw [Function.update_of_ne hdc, hd] at hw
      cases hw

omit [DecidableEq K] in
/-- A constant with an entry: it is no GEP with pointers below, since there is one reference to that. -/
theorem Asked.cached {v : List I} (h : Asked G GetVar cs r c cache U) (hshared : ¬G.SharedGep GetVar cs)
    (hv : cache c = some v) : Answered G GetVar cs r c cache U (v, cache) := by
  refine ⟨U, h.inv, ⟨fun r' hr' => Or.inl hr', fun d _ => rfl, fun d hd w hw _ => ?_⟩, ?_⟩
  · cases hd.symm.trans hw
  · by_cases hgep : G.IsGep c
    · rw [h.inv.gep c v hgep hv]
      refine fun id => iff_of_false List.not_mem_nil fun hfinds => hshared ?_
      obtain ⟨r', hr', href⟩ := h.inv.referred c (by rw [hv]; nofun)
      exact ⟨c, hgep, ⟨id, hfinds⟩, r, r', fun heq => h.fresh (heq ▸ hr'), h.refers, href⟩
    · exact h.complete c le_rfl v hv hgep

omit [DecidableEq K] in
/-- A call for a child of `c`, which was entered with the ids `v`. -/
theorem Asked.child {v : List I} {k : ℕ} {cache' : Cache K I} {U' : Set (Ref K)}
    (h : Asked G GetVar cs r c cache U) (hinv : G.Inv cs cache' U')
    (hentry : cache' c = some v) (hfresh : (some c, k) ∉ U')
    (hkept : ∀ d, d ≠ c → cache d ≠ none → cache' d = cache d)
    (hcomplete : ∀ d, d ≠ c → cache d = none → G.Complete GetVar cache' d)
    (he : (G.children c)[k]? = some e) : Asked G GetVar cs (some c, k) e cache' U' where
  inv := hinv
  refers := ⟨h.refers.reaches, he⟩
  fresh := hfresh
  parent p hp := by
    obtain rfl := Option.some.inj hp
    rw [hentry]
    nofun
  complete d hd := by
    have hlt := rank_lt_of_mem_children (List.mem_of_getElem? he)
    have hdc : d ≠ c := fun hdc => by
      rw [hdc] at hd
      omega
    by_cases hcached : cache d = none
    · exact hcomplete d hdc hcached
    · intro w hw
      exact h.complete d (by omega) w (hkept d hdc hcached ▸ hw)

/-- The cache in the loop over the elements of `c`, when `k` of them are done. The loop begins with
`cache₁` and the references `U₁`. -/
structure LoopInv (G : Constants K) (GetVar : K → I) (cs : List K) (c : K) (cache₁ : Cache K I)
    (U₁ : Set (Ref K)) (k : ℕ) (cache : Cache K I) (U : Set (Ref K)) : Prop where
  inv : G.Inv cs cache U
  refs : ∀ r' ∈ U, r' ∈ U₁ ∨ ∃ p i, r' = (some p, i) ∧ ((p = c ∧ i < k) ∨ cache₁ p = none)
  kept : ∀ d, d ≠ c → cache₁ d ≠ none → cache d = cache₁ d
  complete : ∀ d, cache₁ d = none → G.Complete GetVar cache d
  entry : ∃ v, cache c = some v ∧
    ∀ id, id ∈ v ↔ ∃ j < k, ∃ e, (G.children c)[j]? = some e ∧ G.Finds GetVar e id

variable {cache₁ : Cache K I} {U₁ : Set (Ref K)} {k : ℕ}

/-- The next element. -/
theorem LoopInv.next {res : List I × Cache K I} (hL : LoopInv G GetVar cs c cache₁ U₁ k cache U)
    (hentry₁ : cache₁ c ≠ none) (hgep : ¬G.IsGep c) (he : (G.children c)[k]? = some e)
    (hres : Answered G GetVar cs (some c, k) e cache U res) :
    ∃ U', LoopInv G GetVar cs c cache₁ U₁ (k + 1) (append c res.1 res.2) U' := by
  obtain ⟨U', hinv, hext, hright⟩ := hres
  obtain ⟨v, hv, hids⟩ := hL.entry
  have hc : res.2 c = some v := by rw [hext.kept c (by rw [hv]; nofun), hv]
  have happend : append c res.1 res.2 = Function.update res.2 c (some (v ++ res.1)) := by
    rw [append, hc, Option.getD_some]
  rw [happend]
  refine ⟨U', ⟨⟨fun d hd => ?_, fun p i hp => ?_, fun d w hd hw => ?_⟩, fun r' hr' => ?_,
    fun d hdc hd => ?_, fun d hd w hw => ?_, v ++ res.1, Function.update_self _ _ _, fun id => ?_⟩⟩
  · by_cases hdc : d = c
    · exact hinv.referred d (by rw [hdc, hc]; nofun)
    · rw [Function.update_of_ne hdc] at hd
      exact hinv.referred d hd
  · by_cases hpc : p = c
    · rw [hpc, Function.update_self]
      nofun
    · rw [Function.update_of_ne hpc]
      exact hinv.parent p i hp
  · have hdc : d ≠ c := fun h => hgep (h ▸ hd)
    rw [Function.update_of_ne hdc] at hw
    exact hinv.gep d w hd hw
  · rcases hext.refs r' hr' with hr' | rfl | ⟨p, i, rfl, hp⟩
    · exact (hL.refs r' hr').imp_right fun ⟨p, i, h, hp⟩ =>
        ⟨p, i, h, hp.imp_left fun ⟨h, hi⟩ => ⟨h, hi.trans k.lt_succ_self⟩⟩
    · exact Or.inr ⟨c, k, rfl, Or.inl ⟨rfl, k.lt_succ_self⟩⟩
    · refine Or.inr ⟨p, i, rfl, Or.inr (by_contra fun hp₁ => ?_)⟩
      by_cases hpc : p = c
      · rw [hpc, hv] at hp
        cases hp
      · rw [hL.kept p hpc hp₁] at hp
        exact hp₁ hp
  · have hcached : cache d ≠ none := by rwa [hL.kept d hdc hd]
    rw [Function.update_of_ne hdc, hext.kept d hcached, hL.kept d hdc hd]
  · have hdc : d ≠ c := fun h => hentry₁ (h ▸ hd)
    rw [Function.update_of_ne hdc] at hw
    -- an entry that was there keeps its value
    by_cases hcached : cache d = none
    · exact hext.complete d hcached w hw
    · exact hL.complete d hd w (hext.kept d hcached ▸ hw)
  · rw [List.mem_append, hids, hright id]
    constructor
    · rintro (⟨j, hj, h⟩ | h)
      · exact ⟨j, hj.trans k.lt_succ_self, h⟩
      · exact ⟨k, k.lt_succ_self, e, he, h⟩
    · rintro ⟨j, hj, e', he', h⟩
      rcases Nat.lt_succ_iff_lt_or_eq.1 hj with hlt | rfl
      · exact Or.inl ⟨j, hlt, e', he', h⟩
      · rw [he] at he'
        exact Or.inr (Option.some.inj he' ▸ h)

/-- The body of the loop over the elements. -/
def visitOperand (G : Constants K) (GetVar : K → I) (n : ℕ) (c : K) (cache : Cache K I) (Op : K) :
    Cache K I :=
  let r := G.getOrCreate GetVar n (G.stripPointerCastsAndAliases Op) cache
  append c r.1 r.2

/-- What is shown of a call for a constant of a rank below `n`. -/
def Spec (G : Constants K) (GetVar : K → I) (cs : List K) (n : ℕ) : Prop :=
  ∀ c cache U r, G.rank c < n → Asked G GetVar cs r c cache U →
    Answered G GetVar cs r c cache U (G.getOrCreate GetVar n c cache)

theorem Asked.loop (h : Asked G GetVar cs r c cache U) (hspec : Spec G GetVar cs n)
    (hrank : G.rank c < n + 1) (hnone : cache c = none) (hgep : ¬G.IsGep c) (ops : List K)
    (hops : ∀ i Op, ops[i]? = some Op →
      (G.children c)[k + i]? = some (G.stripPointerCastsAndAliases Op))
    {cache' : Cache K I} {U' : Set (Ref K)}
    (hL : LoopInv G GetVar cs c (Function.update cache c (some [])) (insert r U) k cache' U') :
    ∃ U'', LoopInv G GetVar cs c (Function.update cache c (some [])) (insert r U) (k + ops.length)
      (ops.foldl (visitOperand G GetVar n c) cache') U'' := by
  induction ops generalizing k cache' U' with
  | nil => exact ⟨U', hL⟩
  | cons Op ops ih =>
    have he := hops 0 Op rfl
    rw [Nat.add_zero] at he
    have hentry₁ : Function.update cache c (some []) c ≠ none := by
      rw [Function.update_self]
      nofun
    obtain ⟨v, hv, -⟩ := hL.entry
    have hother : ∀ d, d ≠ c → Function.update cache c (some []) d = cache d :=
      fun d hd => Function.update_of_ne hd _ _
    have hfresh : (some c, k) ∉ U' := by
      intro hmem
      rcases hL.refs _ hmem with (heq | hU) | ⟨p, i, heq, ⟨-, hi⟩ | hp⟩
      · -- the parent of the reference to `c` is not `c`
        exact (h.refers.rank_lt (p := c) (by rw [← heq])).false
      · exact h.inv.parent c k hU hnone
      · rw [(Prod.mk.inj heq).2] at hi
        exact hi.false
      · rw [← Option.some.inj (Prod.mk.inj heq).1] at hp
        exact hentry₁ hp
    have hasked : Asked G GetVar cs (some c, k) (G.stripPointerCastsAndAliases Op) cache' U' :=
      h.child hL.inv hv hfresh
        (fun d hdc hd => (hL.kept d hdc (by rwa [hother d hdc])).trans (hother d hdc))
        (fun d hdc hd => hL.complete d (by rwa [hother d hdc])) he
    have hlt := rank_lt_of_mem_children (List.mem_of_getElem? he)
    obtain ⟨U₂, hnext⟩ := hL.next hentry₁ hgep he (hspec _ _ _ _ (by omega) hasked)
    obtain ⟨U₃, hend⟩ := ih (k := k + 1) (fun i Op' hi => by
      rw [Nat.add_right_comm]
      exact hops (i + 1) Op' hi) hnext
    refine ⟨U₃, ?_⟩
    rwa [List.length_cons, Nat.add_comm ops.length, ← Nat.add_assoc]

omit [DecidableEq K] in
/-- A constant without pointers. -/
theorem Asked.withoutPointers (h : Asked G GetVar cs r c cache U) (hno : ∀ id, ¬G.Finds GetVar c id) :
    Answered G GetVar cs r c cache U ([], cache) := by
  refine ⟨U, h.inv, ⟨fun r' hr' => Or.inl hr', fun d _ => rfl, fun d hd w hw _ => ?_⟩,
    fun id => iff_of_false List.not_mem_nil (hno id)⟩
  cases hd.symm.trans hw

/-- A GEP: the ids of its base, and nothing for its next visit. -/
theorem Asked.gep {base : K} (h : Asked G GetVar cs r c cache U) (hspec : Spec G GetVar cs n)
    (hrank : G.rank c < n + 1) (hnone : cache c = none) (hnode : G.node c = .gep base) :
    Answered G GetVar cs r c cache U
      (G.getOrCreate GetVar n base (Function.update cache c (some []))) := by
  have hgep : G.IsGep c := ⟨base, hnode⟩
  have hchildren : G.children c = [base] := by rw [children, hnode]
  have hother : ∀ d, d ≠ c → Function.update cache c (some []) d = cache d :=
    fun d hd => Function.update_of_ne hd _ _
  have hinv := h.inv.update (v := []) h.refers h.parent fun _ => rfl
  have hfresh : (some c, 0) ∉ insert r U := by
    rintro (heq | hU)
    · exact (h.refers.rank_lt (p := c) (by rw [← heq])).false
    · exact h.inv.parent c 0 hU hnone
  have hasked : Asked G GetVar cs (some c, 0) base (Function.update cache c (some [])) (insert r U) :=
    h.child hinv (Function.update_self _ _ _) hfresh (fun d hdc _ => hother d hdc)
      (fun d hdc hd w hw => by
        rw [hother d hdc, hd] at hw
        cases hw) (by rw [hchildren]; rfl)
  have hlt := G.rank_gep hnode
  obtain ⟨U', hinv', hext, hright⟩ := hspec _ _ _ _ (by omega) hasked
  refine ⟨U', hinv', ⟨fun r' hr' => ?_, fun d hd => ?_, fun d hd w hw hd' => ?_⟩, fun id => ?_⟩
  · rcases hext.refs r' hr' with (rfl | hU) | rfl | ⟨p, i, rfl, hp⟩
    · exact Or.inr (Or.inl rfl)
    · exact Or.inl hU
    · exact Or.inr (Or.inr ⟨c, 0, rfl, hnone⟩)
    · refine Or.inr (Or.inr ⟨p, i, rfl, ?_⟩)
      by_cases hpc : p = c
      · rw [hpc, hnone]
      · rwa [hother p hpc] at hp
  · have hdc : d ≠ c := by
      rintro rfl
      exact hd hnone
    exact (hext.kept d (by rwa [hother d hdc])).trans (hother d hdc)
  · have hdc : d ≠ c := by
      rintro rfl
      exact hd' hgep
    exact hext.complete d (by rwa [hother d hdc]) w hw hd'
  · rw [hright id, finds_iff (c := c), hchildren]
    simp [IsPointer, hgep]

/-- An aggregate: the ids of its elements. -/
theorem Asked.aggregate {ops : List K} (h : Asked G GetVar cs r c cache U) (hspec : Spec G GetVar cs n)
    (hrank : G.rank c < n + 1) (hnone : cache c = none) (hnode : G.node c = .aggregate ops) :
    Answered G GetVar cs r c cache U
      (((ops.foldl (visitOperand G GetVar n c) (Function.update cache c (some []))) c).getD [],
        ops.foldl (visitOperand G GetVar n c) (Function.update cache c (some []))) := by
  have hgep : ¬G.IsGep c := by
    rintro ⟨base, hbase⟩
    cases hnode.symm.trans hbase
  have hchildren : G.children c = ops.map G.stripPointerCastsAndAliases := by rw [children, hnode]
  have hother : ∀ d, d ≠ c → Function.update cache c (some []) d = cache d :=
    fun d hd => Function.update_of_ne hd _ _
  have hstart : LoopInv G GetVar cs c (Function.update cache c (some [])) (insert r U) 0
      (Function.update cache c (some [])) (insert r U) :=
    ⟨h.inv.update h.refers h.parent fun _ => rfl, fun r' hr' => Or.inl hr', fun d _ _ => rfl,
      fun d hd w hw => (by cases hd.symm.trans hw), [], Function.update_self _ _ _, fun id => by simp⟩
  obtain ⟨U', hL⟩ := h.loop hspec hrank hnone hgep ops (fun i Op hi => by
    rw [hchildren, Nat.zero_add, List.getElem?_map, hi, Option.map_some]) hstart
  obtain ⟨v, hv, hids⟩ := hL.entry
  -- all operands have been visited, and an aggregate is no pointer itself
  have hright : G.Right GetVar c v := by
    intro id
    have hptr : ¬G.IsPointer c := fun hp => G.ty_aggregate hnode (by
      cases hty : G.ty c with
      | pointer => rfl
      | _ => simp [IsPointer, hty, Ty.isPointerTy] at hp)
    rw [hids, finds_iff (c := c), or_iff_right fun h => hptr h.1]
    constructor
    · rintro ⟨j, -, e, he, hfinds⟩
      exact ⟨e, List.mem_of_getElem? he, hfinds⟩
    · rintro ⟨e, he, hfinds⟩
      obtain ⟨j, hj⟩ := List.mem_iff_getElem?.1 he
      have hlt : j < (G.children c).length := (List.getElem?_eq_some_iff.1 hj).1
      rw [hchildren, List.length_map] at hlt
      exact ⟨j, by omega, e, hj, hfinds⟩
  refine ⟨U', hL.inv, ⟨fun r' hr' => ?_, fun d hd => ?_, fun d hd w hw hd' => ?_⟩, ?_⟩
  · rcases hL.refs r' hr' with (rfl | hU) | ⟨p, i, rfl, ⟨rfl, -⟩ | hp⟩
    · exact Or.inr (Or.inl rfl)
    · exact Or.inl hU
    · exact Or.inr (Or.inr ⟨p, i, rfl, hnone⟩)
    · refine Or.inr (Or.inr ⟨p, i, rfl, ?_⟩)
      by_cases hpc : p = c
      · rw [hpc, hnone]
      · rwa [hother p hpc] at hp
  · have hdc : d ≠ c := by
      rintro rfl
      exact hd hnone
    exact (hL.kept d hdc (by rwa [hother d hdc])).trans (hother d hdc)
  · by_cases hdc : d = c
    · subst hdc
      exact Option.some.inj (hv.symm.trans hw) ▸ hright
    · exact hL.complete d (by rwa [hother d hdc]) w hw hd'
  · rwa [hv]

/-- A pointer that is no GEP. -/
theorem Asked.pointer (h : Asked G GetVar cs r c cache U) (hnone : cache c = none)
    (hptr : G.IsPointer c) : Answered G GetVar cs r c cache U
      ([GetVar c], append c [GetVar c] (Function.update cache c (some []))) := by
  have happend : append c [GetVar c] (Function.update cache c (some [])) =
      Function.update cache c (some [GetVar c]) := by
    rw [append, Function.update_self, Function.update_idem]
    rfl
  have hchildren : G.children c = [] := by
    unfold children
    split
    · next base hnode => exact absurd ⟨base, hnode⟩ hptr.2.2
    · next ops hnode =>
      refine absurd ?_ (G.ty_aggregate hnode)
      cases hty : G.ty c with
      | pointer => rfl
      | _ => simp [IsPointer, hty, Ty.isPointerTy] at hptr
    · rfl
  rw [happend]
  refine h.enter hnone (fun hgep => absurd hgep hptr.2.2) fun id => ?_
  rw [finds_iff, hchildren]
  simp [hptr, eq_comm]

theorem spec (hshared : ¬G.SharedGep GetVar cs) : ∀ n, Spec G GetVar cs n := by
  intro n
  induction n with
  | zero => exact fun c cache U r hrank _ => absurd hrank (Nat.not_lt_zero _)
  | succ n ih =>
    intro c cache U r hrank h
    rw [getOrCreate]
    by_cases hno : G.definitelyContainsNoPointer c = true
    · rw [if_pos hno]
      exact h.withoutPointers fun id => not_finds_of_definitelyContainsNoPointer hno
    rw [if_neg hno]
    have hdata : G.isConstantData c = false := by
      rw [definitelyContainsNoPointer, Bool.or_eq_true] at hno
      exact Bool.eq_false_iff.2 fun h => hno (Or.inl h)
    cases hcached : cache c with
    | some v => exact h.cached hshared hcached
    | none =>
      cases hnode : G.node c with
      | constantPointerNull => simp [isConstantData, hnode] at hdata
      | constantData => simp [isConstantData, hnode] at hdata
      | gep base => exact h.gep ih hrank hcached hnode
      | aggregate ops =>
        have hgep : ¬G.IsGep c := by
          rintro ⟨base, hbase⟩
          cases hnode.symm.trans hbase
        by_cases hptr : (G.ty c).isPointerTy = true
        · simp only [hptr, if_true]
          exact h.pointer hcached ⟨hptr, hdata, hgep⟩
        · by_cases harray : isArrayWithoutPointers (G.ty c) = true
          · simp only [hptr, harray, if_true, Bool.false_eq_true, if_false]
            exact h.enter hcached (fun _ => rfl) fun id =>
              iff_of_false List.not_mem_nil (not_finds_of_isArrayWithoutPointers hnode harray)
          · simp only [hptr, harray, Bool.false_eq_true, if_false]
            exact h.aggregate ih hrank hcached hnode
      | other =>
        by_cases hptr : (G.ty c).isPointerTy = true
        · simp only [hptr, if_true]
          refine h.pointer hcached ⟨hptr, hdata, ?_⟩
          rintro ⟨base, hbase⟩
          cases hnode.symm.trans hbase
        · simp only [hptr, Bool.false_eq_true, if_false]
          refine h.enter hcached (fun _ => rfl) fun id => iff_of_false List.not_mem_nil ?_
          rw [finds_iff, children, hnode]
          rintro (⟨hp, -⟩ | ⟨e, he, -⟩)
          · exact hptr hp.1
          · cases he

/-! ### A sequence of calls -/

theorem run_right (hshared : ¬G.SharedGep GetVar cs) (done rest : List K) (hcs : cs = done ++ rest)
    (hinv : G.Inv cs cache U) (hU : ∀ i, (none, i) ∈ U → i < done.length)
    (hcomplete : ∀ d, G.Complete GetVar cache d) :
    List.Forall₂ (G.Right GetVar) rest (G.run GetVar rest cache) := by
  induction rest generalizing done cache U with
  | nil => exact .nil
  | cons c rest ih =>
    have hget : cs[done.length]? = some c := by rw [hcs, List.getElem?_append_right le_rfl, Nat.sub_self]; rfl
    have hasked : Asked G GetVar cs (none, done.length) c cache U :=
      ⟨hinv, hget, fun h => (hU _ h).false, nofun, fun d _ => hcomplete d⟩
    obtain ⟨U', hinv', hext, hright⟩ := spec hshared _ _ _ _ _ (Nat.lt_succ_self _) hasked
    refine .cons hright (ih (done ++ [c]) (by rw [hcs, List.append_assoc]; rfl) hinv' (fun i hi => ?_)
      fun d => ?_)
    · rw [List.length_append, List.length_singleton]
      rcases hext.refs _ hi with hi | heq | ⟨p, j, heq, -⟩
      · exact (hU i hi).trans (Nat.lt_succ_self _)
      · rw [(Prod.mk.inj heq).2]
        exact Nat.lt_succ_self _
      · cases (Prod.mk.inj heq).1
    · by_cases hd : cache d = none
      · exact hext.complete d hd
      · intro v hv
        exact hcomplete d v (hext.kept d hd ▸ hv)

/-- A global (0), and a GEP (1) with it as its base. -/
def gepOfGlobal : Constants ℕ where
  node c := if c = 1 then .gep 0 else .other
  ty _ := .pointer
  stripPointerCastsAndAliases e := e
  rank c := c
  rank_gep {c b} h := by
    split_ifs at h with hc
    cases h
    omega
  rank_operand {c ops e} h := by split_ifs at h
  ty_gep _ := Or.inl rfl
  ty_strip _ := Or.inl rfl
  ty_aggregate {c ops} h := by split_ifs at h
  ty_scalar {c ops e} h := by split_ifs at h
  ty_array {c ops e t} h := by split_ifs at h
  ty_struct {c ops e ts} h := by split_ifs at h

theorem refers_gepOfGlobal {r : Ref ℕ} (h : gepOfGlobal.Refers [1] r 1) : r = (none, 0) := by
  obtain ⟨_ | p, i⟩ := r
  · have hi : i = 0 := Nat.lt_one_iff.1 (List.getElem?_eq_some_iff.1 h).1
    rw [hi]
  · have hmem := List.mem_of_getElem? h.2
    by_cases hp : p = 1
    · rw [children, show gepOfGlobal.node p = .gep 0 from if_pos hp] at hmem
      cases List.mem_singleton.1 hmem
    · rw [children, show gepOfGlobal.node p = .other from if_neg hp] at hmem
      cases hmem

/-- A global variable, the type of its value and its initializer, if it has one. -/
structure GlobalVariable (K : Type*) where
  var : K
  valueType : Ty
  initializer : Option K

omit [DecidableEq K] in
/-- The globals that are initialized, with their initializers. -/
def initialized (globals : List (GlobalVariable K)) : List (K × K) :=
  globals.filterMap fun Glob =>
    if Glob.valueType.definitelyContainsNoPointer then none else Glob.initializer.map (Glob.var, ·)

variable (G GetVar) in
/-- `initializeGlobals`: the stores into the globals, from left to right. -/
def initializeGlobals (globals : List (GlobalVariable K)) : List (I × I) :=
  ((initialized globals).zip
    (G.run GetVar ((initialized globals).map Prod.snd) fun _ => none)).flatMap fun r =>
      r.2.map (·, GetVar r.1.1)

/-- The pointers in its initializer are stored into a global, and nothing else. -/
theorem mem_initializeGlobals {globals : List (GlobalVariable K)} {src dst : I}
    (hshared : ¬G.SharedGep GetVar ((initialized globals).map Prod.snd)) :
    (src, dst) ∈ G.initializeGlobals GetVar globals ↔
      ∃ g ∈ initialized globals, GetVar g.1 = dst ∧ G.Finds GetVar g.2 src := by
  obtain ⟨hlen, hright⟩ := List.forall₂_iff_zip.1
    (List.forall₂_map_left_iff.1
    (run_right (U := ∅) hshared [] _ rfl ⟨nofun, nofun, nofun⟩ nofun nofun))
  rw [initializeGlobals, List.mem_flatMap]
  constructor
  · rintro ⟨⟨g, ids⟩, hmem, hids⟩
    obtain ⟨id, hid, heq⟩ := List.mem_map.1 hids
    obtain ⟨rfl, rfl⟩ := Prod.mk.inj heq
    exact ⟨g, (List.of_mem_zip hmem).1, rfl, (hright hmem _).1 hid⟩
  · rintro ⟨g, hg, rfl, hfinds⟩
    obtain ⟨i, hi, rfl⟩ := List.getElem_of_mem hg
    have hmem := List.getElem_mem (l := (initialized globals).zip
      (G.run GetVar ((initialized globals).map Prod.snd) fun _ => none)) (n := i)
      (by rw [List.length_zip, ← hlen, min_self]; exact hi)
    rw [List.getElem_zip] at hmem
    exact ⟨_, hmem, List.mem_map.2 ⟨src, (hright hmem _).2 hfinds, rfl⟩⟩

end Constants

end GlobalInit

end Phasar
