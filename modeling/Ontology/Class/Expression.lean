/-
Class expressions: what a class is, one step deep.

* `ClassExpression`: a class known by its name only, a restriction, a
  combination of classes, or a list of individuals.
-/
import Ontology.Class.Restriction

namespace Ontology

/-- The structure of a class. -/
inductive ClassExpression where
  /-- A class defined by its place in the hierarchy. -/
  | named (name : ClassName)
  | restriction (restriction : Restriction)
  | union (members : List ClassName)
  | intersection (members : List ClassName)
  | complement (member : ClassName)
  /-- A closed list of individuals. -/
  | oneOf (individuals : List Individual)
  deriving DecidableEq

namespace ClassExpression

/-- The restriction of a class that is one. -/
def restriction? : ClassExpression → Option Restriction
  | restriction r => some r
  | _ => none

end ClassExpression

end Ontology
