/-
The values of roles: where they come from, and what more facts do to them.

* `Reasoner.mem_backward_iff`: a property read backwards has the values that it
  has forwards, the other way round; `backward_is_converse`: from which facts;
  `mem_values_inverse_iff`: the values of an inverse role.
* `values_subset`: with more assertions a role has more values.
* `mem_individuals_of_mem_values`: an individual with values is known.
-/
import Ontology.Proofs.Membership.Transitivity

namespace Ontology

open Relation

/-- The closure of the edges read backwards is the closure read backwards. -/
lemma Edges.mem_closure_flip {α : Type} [DecidableEq α] {edges : Edges α}
    {a b : α} : (a, b) ∈ edges.flip.closure ↔ (b, a) ∈ edges.closure := by
  have hswap : (fun x y => (x, y) ∈ edges.flip) =
      Function.swap fun x y => (x, y) ∈ edges := by
    ext x y
    exact mem_flip
  rw [mem_closure, mem_closure, mem_descendants_iff_transGen,
    mem_descendants_iff_transGen, hswap, transGen_swap]

namespace Facts

variable {f g : Facts} {ps : Set Property} {a b : Individual}

/-- With more assertions there are more paths. -/
lemma Path.mono_facts (h : f.Path ps a b) (hfg : f.assertions ⊆ g.assertions) :
    g.Path ps a b :=
  TransGen.mono (fun _ _ ⟨p, hp, hab⟩ => ⟨p, hp, hfg hab⟩) a b h

/-- Whom an assertion speaks about is known. -/
lemma Declares.mem_individuals_of_assertion (hf : f.Declares) {x : Assertion}
    (hx : x ∈ f.assertions) {i : Individual} (hi : i ∈ x.individuals) :
    i ∈ f.individuals :=
  hf (.assertion x) (holds_assertion_iff.mpr hx) i hi

/-- The two ends of a path are known. -/
lemma Declares.mem_individuals_of_path (hf : f.Declares) (h : f.Path ps a b) :
    a ∈ f.individuals ∧ b ∈ f.individuals := by
  obtain ⟨_, ⟨_, _, hfirst⟩, _⟩ := TransGen.head'_iff.mp h
  obtain ⟨_, _, ⟨_, _, hlast⟩⟩ := TransGen.tail'_iff.mp h
  exact ⟨hf.mem_individuals_of_assertion hfirst (by simp [Assertion.individuals]),
    hf.mem_individuals_of_assertion hlast
      (by simp [Assertion.individuals, Rdf.Term.node?])⟩

end Facts

namespace Reasoner

variable {r : Reasoner} {p : Property} {role : Role} {i o : Individual}
  {v : Rdf.Term} {f g : Facts}

/-! ### Roles read backwards -/

/-- **A property read backwards** has the values that it has forwards, the other
way round. -/
theorem mem_backward_iff :
    (i, v) ∈ r.backward p ↔
      ∃ o, v = .node o ∧ .node i ∈ r.values (.direct p) o := by
  simp only [backward, List.mem_append, Links.mem_ofEdges, Edges.mem_flip,
    Edges.mem_closure_flip, mem_values_direct_iff, ← exists_or, ← and_or_left,
    Facts.mem_links, Facts.mem_closure_links_iff_path]
  refine exists_congr fun o => and_congr_right fun _ => or_congr .rfl ?_
  simp [transitives]

/-- **Backwards is the converse of forwards**: a property read backwards gives `y`
the value `x` exactly if read forwards it gives `x` the value `y`. Both do where
a property that it covers is stated so, and where a path of transitive ones leads
from `x` to `y`. Backwards, no value is a literal. -/
theorem backward_is_converse (r : Reasoner) (p : Property) :
    (∀ x y : Individual,
      ((y, .node x) ∈ r.backward p ↔
        .node y ∈ (r.roleLinks (.direct p)).valuesOf x) ∧
      ((y, .node x) ∈ r.backward p ↔
        r.States p x (.node y) ∨ r.facts.Path (r.transitives p) x y)) ∧
    ∀ (y : Individual) (l : Rdf.Literal), (y, .literal l) ∉ r.backward p := by
  constructor
  · intro x y
    have hconverse : (y, .node x) ∈ r.backward p ↔ .node y ∈ r.values (.direct p) x := by
      simp [mem_backward_iff]
    constructor
    · rw [hconverse, Links.mem_valuesOf, mem_values]
    · rw [hconverse, mem_values_direct_iff]
      simp
  · intro y l hl
    obtain ⟨x, hx, _⟩ := mem_backward_iff.mp hl
    cases hx

/-- The values of an inverse role are those of the inverse properties, and those
of the property read backwards. -/
lemma mem_values_inverse_iff :
    v ∈ r.values (.inverse p) i ↔
      (∃ q ∈ r.catalog.inversesOf p, v ∈ r.values (.direct q) i) ∨
        ∃ o, v = .node o ∧ .node i ∈ r.values (.direct p) o := by
  rw [mem_values, roleLinks, List.mem_append, List.mem_flatMap, mem_backward_iff]
  rfl

/-! ### More facts -/

/-- With more assertions a property has more values. -/
lemma values_direct_subset (hfg : f.assertions ⊆ g.assertions) (i : Individual) :
    values { r with facts := f } (.direct p) i ⊆
      values { r with facts := g } (.direct p) i := by
  intro v hv
  rcases mem_values_direct_iff.mp hv with ⟨q, hq, hstated⟩ | ⟨o, rfl, hpath⟩
  · exact mem_values_direct_iff.mpr (.inl ⟨q, hq, hfg hstated⟩)
  · exact mem_values_direct_iff.mpr (.inr ⟨o, rfl, hpath.mono_facts hfg⟩)

/-- With more assertions a role has more values. -/
theorem values_subset (hfg : f.assertions ⊆ g.assertions) (role : Role)
    (i : Individual) :
    values { r with facts := f } role i ⊆ values { r with facts := g } role i := by
  cases role with
  | direct p => exact values_direct_subset hfg i
  | inverse p =>
    intro v hv
    rcases mem_values_inverse_iff.mp hv with ⟨q, hq, hv⟩ | ⟨o, rfl, hi⟩
    · exact mem_values_inverse_iff.mpr (.inl ⟨q, hq, values_direct_subset hfg i hv⟩)
    · exact mem_values_inverse_iff.mpr
        (.inr ⟨o, rfl, values_direct_subset hfg o hi⟩)

/-- An individual has finitely many values. -/
lemma finite_values (role : Role) (i : Individual) : (r.values role i).Finite := by
  refine ((r.roleLinks role).valuesOf i).finite_toSet.subset fun v hv => ?_
  exact Links.mem_valuesOf.mpr hv

/-! ### Known individuals -/

/-- Both an individual with values of a property and the individuals among these
are known. -/
lemma mem_individuals_of_mem_values_direct (hr : r.facts.Declares)
    (hv : v ∈ r.values (.direct p) i) :
    i ∈ r.facts.individuals ∧ ∀ o, v = .node o → o ∈ r.facts.individuals := by
  rcases mem_values_direct_iff.mp hv with ⟨q, _, hstated⟩ | ⟨o, rfl, hpath⟩
  · refine ⟨hr.mem_individuals_of_assertion hstated (by simp [Assertion.individuals]),
      ?_⟩
    rintro o rfl
    exact hr.mem_individuals_of_assertion hstated
      (by simp [Assertion.individuals, Rdf.Term.node?])
  · obtain ⟨hi, ho⟩ := hr.mem_individuals_of_path hpath
    exact ⟨hi, fun o' ho' => Rdf.Term.node.inj ho' ▸ ho⟩

/-- An individual with values of a role is known. -/
theorem mem_individuals_of_mem_values (hr : r.facts.Declares)
    (hv : v ∈ r.values role i) : i ∈ r.facts.individuals := by
  cases role with
  | direct p => exact (mem_individuals_of_mem_values_direct hr hv).1
  | inverse p =>
    rcases mem_values_inverse_iff.mp hv with ⟨q, _, hv⟩ | ⟨o, rfl, hi⟩
    · exact (mem_individuals_of_mem_values_direct hr hv).1
    · exact (mem_individuals_of_mem_values_direct hr hi).2 i rfl

end Reasoner

end Ontology
