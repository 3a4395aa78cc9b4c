/-
Stores of facts.

* `Config`: whether contradictions are rejected, and the classes that have no
  instances of their own.
* `Store`, `Outcome`: `Store.judge` decides about a statement, and
  `Store.tell` records it if it is to be applied. This is what the operations of
  a store with indexes come to, whatever the order of their tests and writes.
* `Command`, `Store.run`: statements and the return to the empty store.
* `tell_eq_of_ne_applied`: whatever is not applied changes nothing.
-/
import Ontology.Store.Conflict

namespace Ontology

/-- How a store treats contradictions. -/
structure Config where
  /-- Statements that contradict the facts are rejected. -/
  protection : Bool := true
  /-- The classes to which no individual can be declared to belong. -/
  reserved : List ClassName :=
    [Owl.metaclass, Owl.restriction, Owl.objectProperty,
      Owl.datatypeProperty, Owl.annotationProperty, Owl.transitiveProperty,
      Owl.ontology, Owl.allDifferent, Owl.negativePropertyAssertion,
      Owl.nothing, Rdfs.metaclass, Rdfs.datatype, Rdf.property]
  deriving DecidableEq

/-- A store: what is known, and how contradictions are treated. -/
structure Store where
  config : Config := {}
  facts : Facts := {}
  deriving DecidableEq

/-- What becomes of a statement. -/
inductive Outcome where
  /-- It was recorded. -/
  | applied
  /-- It was known before. -/
  | unchanged
  /-- It contradicts the facts. -/
  | rejected (conflict : Conflict)
  /-- It makes no sense. -/
  | refused (fault : StatementFault)
  deriving DecidableEq

namespace Store

/-- The decision about a statement. Faults come first, and what is known is
not looked at for contradictions again. -/
def judge (s : Store) (t : Statement) : Outcome :=
  match t.fault? with
  | some fault => .refused fault
  | none =>
    if s.facts.holds t then .unchanged
    else if s.config.protection then
      match s.facts.conflict? s.config.reserved t with
      | some conflict => .rejected conflict
      | none => .applied
    else .applied

/-- Tells the store a statement. -/
def tell (s : Store) (t : Statement) : Store :=
  if s.judge t = .applied then { s with facts := s.facts.add t } else s

/-- The store without facts. -/
def reset (s : Store) : Store := { s with facts := {} }

/-- Whatever is not applied changes nothing. -/
theorem tell_eq_of_ne_applied {s : Store} {t : Statement}
    (h : s.judge t ≠ .applied) : s.tell t = s := by
  simp [tell, h]

/-- What is applied is added to the facts, and nothing else changes. -/
theorem tell_eq_of_applied {s : Store} {t : Statement}
    (h : s.judge t = .applied) :
    s.tell t = { s with facts := s.facts.add t } := by
  simp [tell, h]

@[simp] theorem config_tell (s : Store) (t : Statement) :
    (s.tell t).config = s.config := by
  unfold tell
  split <;> rfl

/-- Without protection nothing is rejected. -/
theorem judge_ne_rejected {s : Store} (h : s.config.protection = false)
    (t : Statement) (c : Conflict) : s.judge t ≠ .rejected c := by
  unfold judge
  split
  · simp
  · split <;> simp [h]

/-! ### Runs -/

end Store

/-- What a store can be told to do. -/
inductive Command where
  | tell (statement : Statement)
  | reset
  deriving DecidableEq

namespace Store

/-- One command. -/
def step (s : Store) : Command → Store
  | .tell t => s.tell t
  | .reset => s.reset

/-- Commands one after the other. -/
def run (s : Store) (cs : List Command) : Store := cs.foldl step s

@[simp] theorem run_append (s : Store) (cs ds : List Command) :
    s.run (cs ++ ds) = (s.run cs).run ds := by
  simp [run]

end Store

end Ontology
