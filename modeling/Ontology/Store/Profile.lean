/-
Profiles: all that is known about one individual.

* `Profile`: the classes, other names, differences, relations and remarks of
  an individual.
* `Facts.profile`: the profile of an individual, `mem_outgoing_iff` and
  `mem_incoming_iff`.
-/
import Ontology.Store.Identity

namespace Ontology

/-- All that is known about one individual. -/
structure Profile where
  individual : Individual
  types : List ClassName
  sameAs : List Individual
  differentFrom : List Individual
  /-- Properties and the individuals that are their values. -/
  outgoing : List (Property × Rdf.Term)
  /-- Individuals, and the properties whose value is this individual. -/
  incoming : List (Individual × Property)
  /-- Properties and the literals that are their values. -/
  literals : List (Property × Rdf.Term)
  /-- Denials about the individual as their subject. -/
  denials : List Assertion
  notes : List Note
  /-- Classes that the individual was found to be a member of. -/
  memberOf : List ClassName := []
  deriving DecidableEq

namespace Facts

/-- The profile of an individual. -/
def profile (f : Facts) (i : Individual) : Profile where
  individual := i
  types := f.typesOf i
  sameAs := f.others i
  differentFrom := f.different i
  outgoing := (f.select .positive .object { subject := i }).map fun a =>
    (a.property, a.object)
  incoming := (f.select .positive .object { object := some i }).map fun a =>
    (a.subject, a.property)
  literals := (f.select .positive .datatype { subject := i }).map fun a =>
    (a.property, a.object)
  denials :=
    f.select .negative .object { subject := i } ++
      f.select .negative .datatype { subject := i }
  notes := f.notesOf i

/-- The outgoing relations are those stated of the individual. -/
theorem mem_outgoing_iff {f : Facts} {s o : Individual} {p : Property} :
    (p, .node o) ∈ (f.profile s).outgoing ↔
      ⟨.positive, s, p, .node o⟩ ∈ f.assertions := by
  simp only [profile, List.mem_map, mem_select, Assertion.fits]
  constructor
  · rintro ⟨⟨polarity, s', p', o'⟩, ⟨h, rfl, _, hf⟩, he⟩
    simp_all
  · exact fun h => ⟨_, ⟨h, rfl, rfl, by simp⟩, rfl⟩

/-- The incoming relations are those that state the individual as a value. -/
theorem mem_incoming_iff {f : Facts} {s o : Individual} {p : Property} :
    (s, p) ∈ (f.profile o).incoming ↔
      ⟨.positive, s, p, .node o⟩ ∈ f.assertions := by
  simp only [profile, List.mem_map, mem_select, Assertion.fits]
  constructor
  · rintro ⟨⟨polarity, s', p', o'⟩, ⟨h, rfl, _, hf⟩, he⟩
    simp_all
  · exact fun h => ⟨_, ⟨h, rfl, rfl, by simp⟩, rfl⟩

end Facts

end Ontology
