import Phasar.Utils.SCCOrder

/-!
# Propagation of types

`propagateTypes` of the variable type analysis: the entry types of the nodes are collected for each
component of the type assignment graph and then passed on, once for each component in topological
order.

* `propagateTypes`;
* `propagateTypes_correct`.
-/

namespace Phasar.VTA

open StronglyConnected TopologicalOrder

variable {n : ℕ} {τ : Type*} [DecidableEq τ]

/-- Insert the entry types of the nodes into the sets of their components. -/
def initializeTypes (typeEntryPoints : List (Fin n × Finset τ)) (sccs : SCCHolder n) : ℕ → Finset τ :=
  typeEntryPoints.foldl (fun typesPerSCC entry =>
    Function.update typesPerSCC (sccs.sccOfNode entry.1)
      (typesPerSCC (sccs.sccOfNode entry.1) ∪ entry.2)) fun _ => ∅

/-- Insert the types of a component into the sets of its children. -/
def propagate (ord : SetOrder) (deps : SCCOrder.SCCDependencyGraph) (typesPerSCC : ℕ → Finset τ)
    (currSCC : ℕ) : ℕ → Finset τ :=
  if typesPerSCC currSCC = ∅ then typesPerSCC
  else addTo currSCC (ord.children deps currSCC) typesPerSCC

/-- The types of each component. -/
def propagateTypes (typeEntryPoints : List (Fin n × Finset τ)) (sccs : SCCHolder n) (ord : SetOrder)
    (deps : SCCOrder.SCCDependencyGraph) (order : List ℕ) : ℕ → Finset τ :=
  order.foldl (propagate ord deps) (initializeTypes typeEntryPoints sccs)

theorem mem_foldl_entry {sccs : SCCHolder n} {c : ℕ} {t : τ} :
    ∀ {entries : List (Fin n × Finset τ)} {T : ℕ → Finset τ},
      t ∈ entries.foldl (fun T entry => Function.update T (sccs.sccOfNode entry.1)
          (T (sccs.sccOfNode entry.1) ∪ entry.2)) T c ↔
        t ∈ T c ∨ ∃ entry ∈ entries, sccs.sccOfNode entry.1 = c ∧ t ∈ entry.2
  | [], T => by simp
  | entry :: entries, T => by
    rw [List.foldl_cons, mem_foldl_entry]
    simp only [List.mem_cons, exists_eq_or_imp]
    by_cases hc : c = sccs.sccOfNode entry.1
    · subst hc
      rw [Function.update_self, Finset.mem_union]
      tauto
    · rw [Function.update_of_ne hc]
      have hne : sccs.sccOfNode entry.1 ≠ c := Ne.symm hc
      tauto

theorem mem_initializeTypes {typeEntryPoints : List (Fin n × Finset τ)} {sccs : SCCHolder n} {c : ℕ}
    {t : τ} : t ∈ initializeTypes typeEntryPoints sccs c ↔
      ∃ m types, (m, types) ∈ typeEntryPoints ∧ sccs.sccOfNode m = c ∧ t ∈ types := by
  rw [initializeTypes, mem_foldl_entry]
  simp

/-- A component without types has nothing to pass on. -/
theorem propagate_eq {ord : SetOrder} {deps : SCCOrder.SCCDependencyGraph} {currSCC : ℕ}
    (hself : currSCC ∉ ord.children deps currSCC) (T : ℕ → Finset τ) :
    propagate ord deps T currSCC = addTo currSCC (ord.children deps currSCC) T := by
  rw [propagate]
  split_ifs with hempty
  · funext c
    ext t
    rw [mem_addTo hself, hempty]
    simp
  · rfl

theorem propagateTypes_eq_pass {ord : SetOrder} {deps : SCCOrder.SCCDependencyGraph}
    (hself : ∀ c, c ∉ ord.children deps c) (typeEntryPoints : List (Fin n × Finset τ))
    (sccs : SCCHolder n) (order : List ℕ) :
    propagateTypes typeEntryPoints sccs ord deps order =
      TopologicalOrder.pass (ord.children deps) order (initializeTypes typeEntryPoints sccs) := by
  have hstep : propagate ord deps = fun (T : ℕ → Finset τ) c => addTo c (ord.children deps c) T := by
    funext T c
    exact propagate_eq (hself c) T
  rw [propagateTypes, hstep, TopologicalOrder.pass]

/-- The types of the component of a node are the entry types of all nodes from which it is
reachable, whichever variant of `computeSCCs` and order of traversal was used. -/
theorem propagateTypes_correct (G : Fin n → List (Fin n)) (ord : SetOrder)
    (typeEntryPoints : List (Fin n × Finset τ)) :
    ∃ sccs : SCCHolder n, ∃ order : List ℕ,
      (∀ iterative, ∃ bound, ∀ fuel ≥ bound, computeSCCs G iterative fuel = some sccs) ∧
      (∃ bound, ∀ fuel ≥ bound,
        computeSCCOrder ord fuel (computeSCCDependencies G sccs) = some order) ∧
      ∀ v t, t ∈ propagateTypes typeEntryPoints sccs ord (computeSCCDependencies G sccs) order
          (sccs.sccOfNode v) ↔
        ∃ m types, (m, types) ∈ typeEntryPoints ∧ Reach G m v ∧ t ∈ types := by
  obtain ⟨s, hcorrect, hrec, hit⟩ := exists_search G
  obtain ⟨l, hclosed, hall, horder⟩ := computeSCCOrder_correct hcorrect ord
  have hself : ∀ c, c ∉ ord.children (computeSCCDependencies G s.toSCCHolder) c := fun c hc =>
    (hcorrect.child_lt ((ord.mem_toList _ _ _).1 hc)).1.false
  refine ⟨s.toSCCHolder, l.reverse, computeSCCs_eq hrec hit, ⟨_, horder⟩, fun v t => ?_⟩
  rw [propagateTypes_eq_pass hself, mem_pass_iff hself hclosed]
  constructor
  · rintro ⟨c, hr, -, ht⟩
    obtain ⟨m, types, hm, rfl, hmt⟩ := mem_initializeTypes.1 ht
    exact ⟨m, types, hm, (hcorrect.reach_iff ord).1 hr, hmt⟩
  · rintro ⟨m, types, hm, hr, ht⟩
    exact ⟨s.toSCCHolder.sccOfNode m, (hcorrect.reach_iff ord).2 hr, Or.inl (hall m),
      mem_initializeTypes.2 ⟨m, types, hm, rfl, ht⟩⟩

end Phasar.VTA
