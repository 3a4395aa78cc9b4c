/-
Why a description of a class cannot be read.

* `Keyword`: the words of OWL that describe classes; `Keyword.label`,
  `Keyword.iri`.
* `CatalogError`: the causes, and their messages.
-/
import Ontology.Class.Restriction
import Ontology.Rdf.Collection

namespace Ontology

/-! ### Keywords -/

/-- A word that describes a class. -/
inductive Keyword where
  | onProperty
  | onProperties
  | onDataRange
  | onClass
  | cardinality
  | minCardinality
  | maxCardinality
  | qualifiedCardinality
  | minQualifiedCardinality
  | maxQualifiedCardinality
  | allValuesFrom
  | someValuesFrom
  | hasValue
  | hasSelf
  | unionOf
  | intersectionOf
  | complementOf
  | oneOf
  deriving DecidableEq

namespace Keyword

/-- The name of a keyword in its vocabulary. -/
def name : Keyword → String
  | onProperty => "onProperty"
  | onProperties => "onProperties"
  | onDataRange => "onDataRange"
  | onClass => "onClass"
  | cardinality => "cardinality"
  | minCardinality => "minCardinality"
  | maxCardinality => "maxCardinality"
  | qualifiedCardinality => "qualifiedCardinality"
  | minQualifiedCardinality => "minQualifiedCardinality"
  | maxQualifiedCardinality => "maxQualifiedCardinality"
  | allValuesFrom => "allValuesFrom"
  | someValuesFrom => "someValuesFrom"
  | hasValue => "hasValue"
  | hasSelf => "hasSelf"
  | unionOf => "unionOf"
  | intersectionOf => "intersectionOf"
  | complementOf => "complementOf"
  | oneOf => "oneOf"

/-- The name with its prefix, as messages show it. -/
def label (k : Keyword) : String := "owl:" ++ k.name

/-- The IRI of a keyword. -/
def iri (k : Keyword) : Rdf.Iri := ⟨"http://www.w3.org/2002/07/owl#" ++ k.name⟩

end Keyword

/-! ### Errors -/

/-- What a value should have been. -/
inductive Expected where
  | literal
  | count
  | boolean
  | className
  | individual
  | property
  | propertyOrInverse
  deriving DecidableEq

/-- The words that say that a value is not what it should have been. -/
def Expected.denial : Expected → String
  | literal => "is not a literal"
  | count => "is not a non-negative integer"
  | boolean => "is not a boolean"
  | className => "is not a class"
  | individual => "is not an individual"
  | property => "is not a property"
  | propertyOrInverse =>
    "is neither a named property nor an owl:inverseOf expression"

/-- Restrictions that have no meaning here. -/
inductive Unsupported where
  /-- A restriction on several properties. -/
  | severalProperties
  /-- A count of the literals of a data range. -/
  | dataRange
  /-- A restriction that demands nothing. -/
  | noConstraint
  deriving DecidableEq

/-- The words for a restriction without meaning. -/
def Unsupported.message : Unsupported → String
  | severalProperties => "owl:onProperties (n-ary data restrictions)"
  | dataRange => "owl:onDataRange (qualified data cardinality)"
  | noConstraint => "no supported restriction property"

/-- Why a description of a class cannot be read. -/
inductive CatalogError where
  /-- A restriction lacks what it cannot do without. -/
  | missing (name : ClassName) (keyword : Keyword)
  | unsupported (name : ClassName) (cause : Unsupported)
  /-- The value of a keyword is not what it should be. -/
  | invalid (name : ClassName) (keyword : Keyword) (value : Rdf.Term)
      (expected : Expected)
  /-- A value begins no list. -/
  | malformedList (head : Rdf.Node) (fault : Rdf.ListFault)
  | bounds (error : BoundsError)
  deriving DecidableEq

/-- The message of an error. -/
def CatalogError.message : CatalogError → String
  | missing c k =>
    "Restriction " ++ c.written ++ " is missing required property " ++ k.label
  | unsupported c cause =>
    "Restriction " ++ c.written ++ " uses an unsupported construct: " ++
      cause.message
  | invalid c k v e =>
    "Invalid value for " ++ k.label ++ " on " ++ c.written ++ ": " ++
      v.written ++ " " ++ e.denial
  | malformedList head fault =>
    "Malformed RDF list starting at " ++ head.written ++ ": " ++ fault.message
  | bounds e => e.message

end Ontology
