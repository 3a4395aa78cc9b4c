/-
The vocabularies of the web of data.

* `Rdf`, `Rdfs`, `Xsd`, `Owl`: IRIs of RDF, RDF Schema, XML Schema datatypes
  and OWL, each under its own name.
* `namespaces`, `expand`: the prefixes of the four vocabularies and their
  replacement at the beginning of a text.
-/
import Ontology.Rdf.Iri

namespace Ontology

/-! ### Prefixes -/

/-- The vocabularies by prefix. -/
def Rdf.namespaces : List (String × String) :=
  [("owl:", "http://www.w3.org/2002/07/owl#"),
    ("rdf:", "http://www.w3.org/1999/02/22-rdf-syntax-ns#"),
    ("rdfs:", "http://www.w3.org/2000/01/rdf-schema#"),
    ("xsd:", "http://www.w3.org/2001/XMLSchema#")]

/-- A prefix at the beginning of a text stands for its vocabulary; any other
text stands for itself. -/
def Rdf.expand (text : String) : String :=
  match namespaces.find? fun n => n.1.toList.isPrefixOf text.toList with
  | some (mark, whole) =>
    whole ++ String.ofList (text.toList.drop mark.length)
  | none => text

/-! ### RDF -/

namespace Rdf

/-- The property that relates an individual to its classes. -/
def type : Iri := ⟨"http://www.w3.org/1999/02/22-rdf-syntax-ns#type"⟩

/-- The class of properties. -/
def property : Iri := ⟨"http://www.w3.org/1999/02/22-rdf-syntax-ns#Property"⟩

/-- The item of a list cell. -/
def first : Iri := ⟨"http://www.w3.org/1999/02/22-rdf-syntax-ns#first"⟩

/-- The list after a list cell. -/
def rest : Iri := ⟨"http://www.w3.org/1999/02/22-rdf-syntax-ns#rest"⟩

/-- The empty list. -/
def nil : Iri := ⟨"http://www.w3.org/1999/02/22-rdf-syntax-ns#nil"⟩

/-- The datatype of texts with a language. -/
def langString : Iri :=
  ⟨"http://www.w3.org/1999/02/22-rdf-syntax-ns#langString"⟩

end Rdf

/-! ### RDF Schema -/

namespace Rdfs

/-- The class of classes. -/
def metaclass : Rdf.Iri := ⟨"http://www.w3.org/2000/01/rdf-schema#Class"⟩

/-- The class of datatypes. -/
def datatype : Rdf.Iri := ⟨"http://www.w3.org/2000/01/rdf-schema#Datatype"⟩

/-- The datatype of all literals. -/
def literal : Rdf.Iri := ⟨"http://www.w3.org/2000/01/rdf-schema#Literal"⟩

/-- The property from a class to a broader one. -/
def subClassOf : Rdf.Iri :=
  ⟨"http://www.w3.org/2000/01/rdf-schema#subClassOf"⟩

/-- The property from a property to a broader one. -/
def subPropertyOf : Rdf.Iri :=
  ⟨"http://www.w3.org/2000/01/rdf-schema#subPropertyOf"⟩

end Rdfs

/-! ### OWL -/

namespace Owl

/-- The class of all individuals. -/
def thing : Rdf.Iri := ⟨"http://www.w3.org/2002/07/owl#Thing"⟩

/-- The class without individuals. -/
def nothing : Rdf.Iri := ⟨"http://www.w3.org/2002/07/owl#Nothing"⟩

/-- The class of classes. -/
def metaclass : Rdf.Iri := ⟨"http://www.w3.org/2002/07/owl#Class"⟩

/-- The class of restrictions. -/
def restriction : Rdf.Iri := ⟨"http://www.w3.org/2002/07/owl#Restriction"⟩

/-- The class of properties between individuals. -/
def objectProperty : Rdf.Iri :=
  ⟨"http://www.w3.org/2002/07/owl#ObjectProperty"⟩

/-- The class of properties with literal values. -/
def datatypeProperty : Rdf.Iri :=
  ⟨"http://www.w3.org/2002/07/owl#DatatypeProperty"⟩

/-- The class of properties of annotations. -/
def annotationProperty : Rdf.Iri :=
  ⟨"http://www.w3.org/2002/07/owl#AnnotationProperty"⟩

/-- The class of transitive properties. -/
def transitiveProperty : Rdf.Iri :=
  ⟨"http://www.w3.org/2002/07/owl#TransitiveProperty"⟩

/-- The class of ontologies. -/
def ontology : Rdf.Iri := ⟨"http://www.w3.org/2002/07/owl#Ontology"⟩

/-- The class of groups of pairwise different individuals. -/
def allDifferent : Rdf.Iri := ⟨"http://www.w3.org/2002/07/owl#AllDifferent"⟩

/-- The class of denials. -/
def negativePropertyAssertion : Rdf.Iri :=
  ⟨"http://www.w3.org/2002/07/owl#NegativePropertyAssertion"⟩

/-- The class of individuals with an IRI. -/
def namedIndividual : Rdf.Iri :=
  ⟨"http://www.w3.org/2002/07/owl#NamedIndividual"⟩

/-- Two names of one individual. -/
def sameAs : Rdf.Iri := ⟨"http://www.w3.org/2002/07/owl#sameAs"⟩

/-- Names of two individuals. -/
def differentFrom : Rdf.Iri := ⟨"http://www.w3.org/2002/07/owl#differentFrom"⟩

/-- The list of members of a group. -/
def distinctMembers : Rdf.Iri :=
  ⟨"http://www.w3.org/2002/07/owl#distinctMembers"⟩

/-- The subject of a denial. -/
def sourceIndividual : Rdf.Iri :=
  ⟨"http://www.w3.org/2002/07/owl#sourceIndividual"⟩

/-- The property of a denial. -/
def assertionProperty : Rdf.Iri :=
  ⟨"http://www.w3.org/2002/07/owl#assertionProperty"⟩

/-- The individual that a denial is about. -/
def targetIndividual : Rdf.Iri :=
  ⟨"http://www.w3.org/2002/07/owl#targetIndividual"⟩

/-- The literal that a denial is about. -/
def targetValue : Rdf.Iri := ⟨"http://www.w3.org/2002/07/owl#targetValue"⟩

/-- Two classes with the same members. -/
def equivalentClass : Rdf.Iri :=
  ⟨"http://www.w3.org/2002/07/owl#equivalentClass"⟩

/-- Two properties that relate the same. -/
def equivalentProperty : Rdf.Iri :=
  ⟨"http://www.w3.org/2002/07/owl#equivalentProperty"⟩

/-- Two properties that read each other backwards. -/
def inverseOf : Rdf.Iri := ⟨"http://www.w3.org/2002/07/owl#inverseOf"⟩

end Owl

/-! ### XML Schema datatypes -/

namespace Xsd

/-- The datatype of texts. -/
def string : Rdf.Iri := ⟨"http://www.w3.org/2001/XMLSchema#string"⟩

/-- The datatype of truth values. -/
def boolean : Rdf.Iri := ⟨"http://www.w3.org/2001/XMLSchema#boolean"⟩

end Xsd

end Ontology
