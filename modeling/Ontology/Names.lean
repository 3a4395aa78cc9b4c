/-
What ontologies speak about, by name.

* `Individual`, `ClassName`: nodes of a graph, named by an IRI or anonymous.
* `Property`: an IRI, since no property is anonymous.
-/
import Ontology.Rdf.Term

namespace Ontology

/-- An individual of the domain of discourse. -/
abbrev Individual := Rdf.Node

/-- The name of a class: an IRI, or a blank node for a class that is only
described. -/
abbrev ClassName := Rdf.Node

/-- A property between individuals, or from individuals to literals. -/
abbrev Property := Rdf.Iri

end Ontology
