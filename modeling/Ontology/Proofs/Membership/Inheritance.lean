/-
Restrictions and the declared order of properties.

* `Reasoner.mem_expand_iff`: a property covers those that a chain of declarations
  puts under it; `mem_expand_of_eqvGen`: equivalent properties cover each other.
* `values_subset_of_mem_expand`: a property has the values of those it covers.
* `Reasoner.restrictions_follow_properties`: **restrictions follow the declared
  order**: those on equivalent properties have the same members, and positive ones
  on a property have the members of those on the properties that it covers.
-/
import Ontology.Proofs.Membership.Monotonicity
import Ontology.Proofs.Membership.Restrictions

namespace Ontology.Reasoner

open Relation

variable {r : Reasoner} {p q : Property} {i : Individual} {x y : Restriction}
  {A : Set Rdf.Term}

/-! ### The order of properties -/

/-- A property is declared broader than another, or equivalent to it. -/
def Broader (r : Reasoner) (p q : Property) : Prop :=
  (p, q) ∈ r.catalog.properties.narrower ∨
    (p, q) ∈ r.catalog.properties.equivalent ∨
      (q, p) ∈ r.catalog.properties.equivalent

/-- A property covers those that a chain of declarations puts under it. -/
lemma mem_expand_iff : q ∈ r.expand p ↔ ReflTransGen r.Broader p q := by
  rw [expand, Hierarchy.mem_expand, Edges.reaches_iff_reflTransGen]
  simp only [Hierarchy.covering, List.mem_append, Edges.mem_both]
  rfl

/-- Equivalent properties cover each other. -/
lemma mem_expand_of_eqvGen
    (h : EqvGen (fun p q => (p, q) ∈ r.catalog.properties.equivalent) p q) :
    q ∈ r.expand p ∧ p ∈ r.expand q := by
  simp only [mem_expand_iff]
  induction h with
  | rel p q hpq => exact ⟨.single (.inr (.inl hpq)), .single (.inr (.inr hpq))⟩
  | refl p => exact ⟨.refl, .refl⟩
  | symm p q _ ih => exact ih.symm
  | trans p q s _ _ ihpq ihqs =>
    exact ⟨ihpq.1.trans ihqs.1, ihqs.2.trans ihpq.2⟩

/-! ### Values of the properties covered -/

/-- The transitive properties among those covered by a covered property are
covered too. -/
lemma transitives_subset_of_mem_expand (hq : q ∈ r.expand p) :
    r.transitives q ⊆ r.transitives p := by
  intro t ht
  obtain ⟨hinference, hmem, htransitive⟩ := mem_transitives.mp ht
  exact mem_transitives.mpr
    ⟨hinference, Hierarchy.expand_subset hq hmem, htransitive⟩

/-- **Inheritance**: a property has the values of the properties that it
covers. -/
theorem values_subset_of_mem_expand (hq : q ∈ r.expand p) (i : Individual) :
    r.values (.direct q) i ⊆ r.values (.direct p) i := by
  intro v hv
  rw [mem_values_direct_iff] at hv ⊢
  rcases hv with ⟨u, hu, hstated⟩ | ⟨o, rfl, hpath⟩
  · exact .inl ⟨u, Hierarchy.expand_subset hq hu, hstated⟩
  · exact .inr ⟨o, rfl, hpath.mono (transitives_subset_of_mem_expand hq)⟩

/-! ### Restrictions -/

/-- A constraint looks at the values alone, not at the role that they are of. -/
lemma satisfies_congr (hxy : x.constraint = y.constraint)
    (hvalues : r.values x.role i = r.values y.role i) :
    r.Satisfies x A i ↔ r.Satisfies y A i := by
  simp only [Satisfies, hxy, hvalues]

/-- **Restrictions follow the declared order** of properties, whether or not paths
count: where two properties are equivalent by some chain of declarations, a
constraint on one finds the same members as it does on the other. Where a chain
of declarations puts a property under another, a positive constraint on the upper
one finds all that it finds on the lower one. -/
theorem restrictions_follow_properties (r : Reasoner) (p q : Property)
    (constraint : Constraint) (is js : List Individual)
    (his : r.Finds (.direct p) constraint is)
    (hjs : r.Finds (.direct q) constraint js) :
    (EqvGen (fun p q => (p, q) ∈ r.catalog.properties.equivalent) p q →
      ∀ i, i ∈ is ↔ i ∈ js) ∧
    (constraint.Positive → ReflTransGen r.Broader p q → ∀ i ∈ js, i ∈ is) := by
  obtain ⟨x, y, A, ⟨hxp, hx⟩, ⟨hyq, hy⟩, hmem⟩ := his.exists_satisfies_both hjs
  refine ⟨fun hequivalent i => ?_, fun hpositive hbroader i hi => ?_⟩
  · obtain ⟨hq, hp⟩ := mem_expand_of_eqvGen hequivalent
    have hvalues : r.values (.direct p) i = r.values (.direct q) i :=
      (values_subset_of_mem_expand hp i).antisymm (values_subset_of_mem_expand hq i)
    rw [(hmem i).1, (hmem i).2]
    exact satisfies_congr (hx.trans hy.symm) (by rw [hxp, hyq, hvalues])
  · have hvalues : r.values y.role i ⊆ r.values x.role i := by
      rw [hxp, hyq]
      exact values_subset_of_mem_expand (mem_expand_iff.mpr hbroader) i
    have hlower : r.Satisfies y A i := (hmem i).2.mp hi
    exact (hmem i).1.mpr (hlower.of_subset (hy.trans hx.symm) (hy ▸ hpositive) id
      (fun _ _ => id) hvalues subset_rfl)

/-- To cite is to mention, and so is to name; to translate is to quote, and that is
a way of mentioning. Ada names Byron and quotes Charles, who translates Byron. -/
theorem restrictions_follow_properties_of_citations :
    let ada : Individual := .iri ⟨"e:ada"⟩
    let byron : Individual := .iri ⟨"e:byron"⟩
    let charles : Individual := .iri ⟨"e:charles"⟩
    let poet : ClassName := .iri ⟨"e:Poet"⟩
    let cites : Property := ⟨"e:cites"⟩
    let mentions : Property := ⟨"e:mentions"⟩
    let names : Property := ⟨"e:names"⟩
    let quotes : Property := ⟨"e:quotes"⟩
    let translates : Property := ⟨"e:translates"⟩
    let r : Reasoner := {
      facts := (Store.run {} [.tell (.instanceOf byron poet),
        .tell (.assertion ⟨.positive, ada, names, .node byron⟩),
        .tell (.assertion ⟨.positive, ada, quotes, .node charles⟩),
        .tell (.assertion ⟨.positive, charles, translates, .node byron⟩)]).facts
      catalog := Terminology.catalog [
        .equivalentProperties mentions cites, .equivalentProperties mentions names,
        .subProperty quotes mentions, .subProperty translates quotes,
        .transitiveProperty quotes,
        .define (.iri ⟨"e:A"⟩) (.restriction ⟨.direct cites, .allValuesFrom poet,
          by simp [Constraint.Ordered, Constraint.count?]⟩),
        .define (.iri ⟨"e:B"⟩) (.restriction ⟨.direct names, .allValuesFrom poet,
          by simp [Constraint.Ordered, Constraint.count?]⟩),
        .define (.iri ⟨"e:C"⟩) (.restriction ⟨.direct cites, .someValuesFrom poet,
          by simp [Constraint.Ordered, Constraint.count?]⟩),
        .define (.iri ⟨"e:D"⟩) (.restriction ⟨.direct translates,
          .someValuesFrom poet, by simp [Constraint.Ordered, Constraint.count?]⟩)] }
    (r.Finds (.direct cites) (.allValuesFrom poet) [charles] ∧
      EqvGen (fun p q => (p, q) ∈ r.catalog.properties.equivalent) cites names ∧
      ∃ js, r.Finds (.direct names) (.allValuesFrom poet) js ∧
        ∀ i, i ∈ [charles] ↔ i ∈ js) ∧
    r.Finds (.direct cites) (.someValuesFrom poet) [ada, charles] ∧
      r.Finds (.direct translates) (.someValuesFrom poet) [charles] ∧
      ReflTransGen r.Broader cites translates ∧
      ∀ i ∈ [charles], i ∈ [ada, charles] := by
  intro ada byron charles poet cites mentions names quotes translates r
  have hall : r.Finds (.direct cites) (.allValuesFrom poet) [charles] :=
    ⟨.iri ⟨"e:A"⟩, _, rfl, rfl, rfl, by decide +kernel⟩
  have hall' : r.Finds (.direct names) (.allValuesFrom poet) [charles] :=
    ⟨.iri ⟨"e:B"⟩, _, rfl, rfl, rfl, by decide +kernel⟩
  have hsome : r.Finds (.direct cites) (.someValuesFrom poet) [ada, charles] :=
    ⟨.iri ⟨"e:C"⟩, _, rfl, rfl, rfl, by decide +kernel⟩
  have hsome' : r.Finds (.direct translates) (.someValuesFrom poet) [charles] :=
    ⟨.iri ⟨"e:D"⟩, _, rfl, rfl, rfl, by decide +kernel⟩
  have hequivalent : EqvGen (fun p q => (p, q) ∈ r.catalog.properties.equivalent)
      cites names :=
    .trans _ mentions _ (.symm _ _ (.rel _ _ (by decide))) (.rel _ _ (by decide))
  have hquotes : r.Broader mentions quotes := .inl (by decide)
  have htranslates : r.Broader quotes translates := .inl (by decide)
  have hbroader : ReflTransGen r.Broader cites translates :=
    .tail (.tail (.single (.inr (.inr (by decide)))) hquotes) htranslates
  exact ⟨⟨hall, hequivalent, _, hall',
      (restrictions_follow_properties r _ _ _ _ _ hall hall').1 hequivalent⟩,
    hsome, hsome', hbroader,
    (restrictions_follow_properties r _ _ _ _ _ hsome hsome').2 trivial hbroader⟩

end Ontology.Reasoner
