/-
The values of roles.

* `Reasoner`: facts and a catalog, and how far a query goes.
* `expand`, `transitiveOf`: the properties that a property covers, and those
  among them whose paths count as single steps.
* `forward`, `backward`, `roleLinks`: the values that a property or a role
  gives to individuals, as pairs.
* `valuesOf`: the values of one individual, each once.
-/
import Ontology.Catalog.Basic
import Ontology.Store.Identity

namespace Ontology

/-- The facts and the catalog that a query consults. -/
structure Reasoner where
  facts : Facts
  catalog : Catalog
  /-- How many class expressions may be nested. -/
  maxDepth : Nat := 64
  /-- Paths of transitive properties count as single steps. -/
  transitiveInference : Bool := true

/-- Pairs of an individual and a value. -/
abbrev Links := List (Individual × Rdf.Term)

/-- Relations between individuals, as values. -/
def Links.ofEdges (edges : Edges Individual) : Links :=
  edges.map fun e => (e.1, .node e.2)

/-- The values of an individual, each once. -/
def Links.valuesOf (links : Links) (i : Individual) : List Rdf.Term :=
  ((links.filter fun l => l.1 = i).map (·.2)).eraseDups

/-- The individuals with values, each once. -/
def Links.subjects (links : Links) : List Individual :=
  (links.map (·.1)).eraseDups

@[simp] theorem Links.mem_ofEdges {edges : Edges Individual}
    {i : Individual} {v : Rdf.Term} :
    (i, v) ∈ Links.ofEdges edges ↔ ∃ o, v = .node o ∧ (i, o) ∈ edges := by
  simp only [ofEdges, List.mem_map, Prod.mk.injEq]
  constructor
  · rintro ⟨⟨s, o⟩, h, rfl, rfl⟩
    exact ⟨o, rfl, h⟩
  · rintro ⟨o, rfl, h⟩
    exact ⟨_, h, rfl, rfl⟩

@[simp] theorem Links.mem_valuesOf {links : Links} {i : Individual}
    {v : Rdf.Term} : v ∈ links.valuesOf i ↔ (i, v) ∈ links := by
  simp [valuesOf]

@[simp] theorem Links.mem_subjects {links : Links} {i : Individual} :
    i ∈ links.subjects ↔ ∃ v, (i, v) ∈ links := by
  simp [subjects]

namespace Reasoner

variable (r : Reasoner)

/-- A property, and the properties that it covers. -/
def expand (p : Property) : List Property := r.catalog.properties.expand p

/-- The transitive ones of some properties, if paths count at all. -/
def transitiveOf (ps : List Property) : List Property :=
  if r.transitiveInference then ps.filter r.catalog.isTransitive else []

/-- The stated values of some properties. -/
def stated (ps : List Property) : Links :=
  (r.facts.assertions.filter fun a =>
    a.polarity = .positive ∧ a.property ∈ ps).map fun a =>
      (a.subject, a.object)

/-- The values of a property: those stated of the properties it covers, and
the ends of paths of the transitive ones. -/
def forward (p : Property) : Links :=
  let ps := r.expand p
  r.stated ps ++ .ofEdges (r.facts.links (r.transitiveOf ps)).closure

/-- The values of a property read backwards. Literals have no values. -/
def backward (p : Property) : Links :=
  let ps := r.expand p
  .ofEdges (r.facts.links ps).flip ++
    .ofEdges (r.facts.links (r.transitiveOf ps)).flip.closure

/-- The values of a role. A property that is read backwards also has the
values of the properties declared inverse to it. -/
def roleLinks : Role → Links
  | .direct p => r.forward p
  | .inverse p => (r.catalog.inversesOf p).flatMap r.forward ++ r.backward p

/-- The individuals at the end of a path of a property, of at least one
step. -/
def related (p : Property) (i : Individual) : List Individual :=
  r.facts.related (r.expand p) i

theorem mem_stated {ps : List Property} {i : Individual} {v : Rdf.Term} :
    (i, v) ∈ r.stated ps ↔
      ∃ p ∈ ps, ⟨.positive, i, p, v⟩ ∈ r.facts.assertions := by
  simp only [stated, List.mem_map, List.mem_filter, decide_eq_true_eq]
  constructor
  · rintro ⟨⟨polarity, s, p, o⟩, ⟨h, rfl, hp⟩, he⟩
    cases he
    exact ⟨p, hp, h⟩
  · rintro ⟨p, hp, h⟩
    exact ⟨_, ⟨h, rfl, hp⟩, rfl⟩

end Reasoner

end Ontology
