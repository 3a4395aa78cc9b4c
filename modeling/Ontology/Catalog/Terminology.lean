/-
Terminologies: classes and properties declared one by one.

* `Clause`: a declaration about classes or properties; `Terminology`: the
  declarations made so far, the latest first.
* `Terminology.catalog`: the catalog of a terminology, in which the latest
  definition of a class is its structure.
-/
import Ontology.Catalog.Basic

namespace Ontology

/-- A declaration about classes or properties. -/
inductive Clause where
  /-- The structure of a class, in place of any earlier one. -/
  | define (name : ClassName) (expression : ClassExpression)
  | subClass (narrow broad : ClassName)
  | equivalentClasses (a b : ClassName)
  | subProperty (narrow broad : Property)
  | equivalentProperties (a b : Property)
  | inverseProperties (a b : Property)
  | transitiveProperty (property : Property)
  deriving DecidableEq

/-- Declarations, the latest first. -/
abbrev Terminology := List Clause

namespace Terminology

/-- The latest definition of a class. -/
def definition? (t : Terminology) (c : ClassName) : Option ClassExpression :=
  t.findSome? fun
    | .define d e => if d = c then some e else none
    | _ => none

/-- The structure of a class: its definition, or else its name. -/
def classify (t : Terminology) (c : ClassName) : ClassExpression :=
  (t.definition? c).getD (.named c)

/-- The order of the classes. -/
def classes (t : Terminology) : Hierarchy ClassName where
  narrower := t.filterMap fun
    | .subClass narrow broad => some (broad, narrow)
    | _ => none
  equivalent := t.filterMap fun
    | .equivalentClasses a b => some (a, b)
    | _ => none

/-- The order of the properties. -/
def properties (t : Terminology) : Hierarchy Property where
  narrower := t.filterMap fun
    | .subProperty narrow broad => some (broad, narrow)
    | _ => none
  equivalent := t.filterMap fun
    | .equivalentProperties a b => some (a, b)
    | _ => none

/-- The catalog of a terminology. No class is without structure. -/
def catalog (t : Terminology) : Catalog where
  classify c := .ok (t.classify c)
  classes := t.classes
  properties := t.properties
  inverses := t.filterMap fun
    | .inverseProperties a b => some (a, b)
    | _ => none
  transitive := t.filterMap fun
    | .transitiveProperty p => some p
    | _ => none

/-- A definition takes effect at once. -/
@[simp] theorem definition?_define (t : Terminology) (c : ClassName)
    (e : ClassExpression) : definition? (.define c e :: t) c = some e := by
  simp [definition?]

/-- A definition concerns one class. -/
theorem definition?_define_of_ne (t : Terminology) {c d : ClassName}
    (h : d ≠ c) (e : ClassExpression) :
    definition? (.define d e :: t) c = definition? t c := by
  simp [definition?, h]

@[simp] theorem classify_define (t : Terminology) (c : ClassName)
    (e : ClassExpression) : classify (.define c e :: t) c = e := by
  simp [classify]

theorem classify_define_of_ne (t : Terminology) {c d : ClassName}
    (h : d ≠ c) (e : ClassExpression) :
    classify (.define d e :: t) c = classify t c := by
  rw [classify, definition?_define_of_ne t h, classify]

end Terminology

end Ontology
