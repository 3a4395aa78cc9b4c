/-
Catalogs: what is known about classes and properties.

* `Catalog`: the structure of every class, the hierarchies of classes and of
  properties, inverse and transitive properties.
* `Catalog.inversesOf`: the properties declared inverse to a property, each
  once and in order; `mem_inversesOf`.
-/
import Ontology.Catalog.Error
import Ontology.Class.Expression
import Ontology.Relation.Hierarchy

namespace Ontology

/-- What is known about classes and properties. -/
structure Catalog where
  /-- The structure of a class. A class of which nothing is known has its name
  alone. -/
  classify : ClassName → Except CatalogError ClassExpression
  classes : Hierarchy ClassName
  properties : Hierarchy Property
  /-- Pairs of properties declared inverse to each other. -/
  inverses : Edges Property
  /-- The properties declared transitive. -/
  transitive : List Property

namespace Catalog

/-- The properties other than a property that are declared inverse to it, in
either direction, in the order of their IRIs. -/
def inversesOf (k : Catalog) (p : Property) : List Property :=
  ((k.inverses.both.targets p).filter (· ≠ p)).eraseDups.mergeSort
    fun q r => q.text ≤ r.text

/-- A property is declared transitive. -/
def isTransitive (k : Catalog) (p : Property) : Bool := k.transitive.contains p

/-- The catalog without the knowledge of transitive properties. -/
def withoutTransitive (k : Catalog) : Catalog := { k with transitive := [] }

@[simp] theorem mem_inversesOf {k : Catalog} {p q : Property} :
    q ∈ k.inversesOf p ↔
      q ≠ p ∧ ((p, q) ∈ k.inverses ∨ (q, p) ∈ k.inverses) := by
  simp [inversesOf, (List.mergeSort_perm ..).mem_iff, and_comm]

end Catalog

end Ontology
