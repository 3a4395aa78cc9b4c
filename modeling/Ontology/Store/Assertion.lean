/-
Assertions about individuals.

* `Assertion`: a subject has a value of a property, or is denied to have it.
* `Note`: a remark on an individual, from which nothing follows.
* `Pattern`: a part of an assertion left open; `Assertion.fits`.
-/
import Ontology.Names

namespace Ontology

/-- Whether an assertion states or denies. -/
inductive Polarity where
  | positive
  | negative
  deriving DecidableEq

/-- The other polarity. -/
def Polarity.opposite : Polarity → Polarity
  | positive => negative
  | negative => positive

@[simp] theorem Polarity.opposite_opposite (p : Polarity) :
    p.opposite.opposite = p := by
  cases p <;> rfl

/-- Whether the values of a property are individuals or literals. -/
inductive PropertyKind where
  | object
  | datatype
  deriving DecidableEq

/-- A subject has an object as a value of a property, or is denied to. -/
structure Assertion where
  polarity : Polarity
  subject : Individual
  property : Property
  object : Rdf.Term
  deriving DecidableEq

namespace Assertion

/-- The kind of property that an assertion uses. -/
def kind (a : Assertion) : PropertyKind :=
  match a.object with
  | .node _ => .object
  | .literal _ => .datatype

/-- The individuals that an assertion speaks about. -/
def individuals (a : Assertion) : List Individual :=
  a.subject :: a.object.node?.toList

/-- The assertion that contradicts an assertion. -/
def denied (a : Assertion) : Assertion :=
  { a with polarity := a.polarity.opposite }

/-- The written form of what is stated or denied. -/
def written (a : Assertion) : String :=
  a.property.written ++ "(" ++ a.subject.written ++ ", " ++ a.object.written ++
    ")"

/-- A stated relation between two individuals. -/
def link? (a : Assertion) : Option (Individual × Individual) :=
  match a.polarity with
  | .positive => a.object.node?.map (a.subject, ·)
  | .negative => none

end Assertion

/-- A remark on an individual. -/
structure Note where
  subject : Individual
  property : Property
  value : Rdf.Term
  deriving DecidableEq

/-- What is asked for in assertions: the parts left open fit everything. -/
structure Pattern where
  subject : Option Individual := none
  property : Option Property := none
  object : Option Rdf.Term := none
  deriving DecidableEq

/-- An assertion has the parts that a pattern asks for. -/
def Assertion.fits (a : Assertion) (p : Pattern) : Bool :=
  p.subject.all (· = a.subject) && p.property.all (· = a.property) &&
    p.object.all (· = a.object)

end Ontology
