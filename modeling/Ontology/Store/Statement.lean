/-
Statements: what can be told about individuals.

* `Statement`, and `individuals`, those it makes known.
* `Statement.fault?`: why a statement makes no sense, whatever is known.
* `Facts.holds`: a statement is recorded; `Facts.add` records it, `holds_add`.
-/
import Ontology.Store.Facts

namespace Ontology

/-- What can be told about individuals. -/
inductive Statement where
  | individual (i : Individual)
  | instanceOf (i : Individual) (c : ClassName)
  | assertion (a : Assertion)
  | sameAs (a b : Individual)
  | differentFrom (a b : Individual)
  | allDifferent (members : List Individual)
  | note (n : Note)
  deriving DecidableEq

/-- Why a statement makes no sense. -/
inductive StatementFault where
  | sameAsItself (i : Individual)
  | differentFromItself (i : Individual)
  | noMembers
  deriving DecidableEq

/-- The message of a fault. -/
def StatementFault.message : StatementFault → String
  | sameAsItself i => i.written ++ " cannot be declared the same as itself"
  | differentFromItself i =>
    i.written ++ " cannot be declared different from itself"
  | noMembers => "An owl:AllDifferent group needs at least one member"

namespace Statement

/-- The individuals that a statement makes known. A note makes only its
subject known. -/
def individuals : Statement → List Individual
  | individual i => [i]
  | instanceOf i _ => [i]
  | assertion a => a.individuals
  | sameAs a b => [a, b]
  | differentFrom a b => [a, b]
  | allDifferent members => members
  | note n => [n.subject]

/-- The fault of a statement that has one. -/
def fault? : Statement → Option StatementFault
  | sameAs a b => if a = b then some (.sameAsItself a) else none
  | differentFrom a b => if a = b then some (.differentFromItself a) else none
  | allDifferent members => if members = [] then some .noMembers else none
  | _ => none

end Statement

namespace Facts

/-- A statement is recorded. Pairs are recorded in either direction, and
groups as sets. -/
def holds (f : Facts) : Statement → Bool
  | .individual i => i ∈ f.individuals
  | .instanceOf i c => (i, c) ∈ f.types
  | .assertion a => a ∈ f.assertions
  | .sameAs a b => (a, b) ∈ f.sameAs.both
  | .differentFrom a b => (a, b) ∈ f.differentFrom.both
  | .allDifferent members =>
    f.groups.any fun g => g.all (· ∈ members) && members.all (· ∈ g)
  | .note n => n ∈ f.notes

/-- The facts with the content of a statement. A member of a group is listed
once. -/
def record (f : Facts) : Statement → Facts
  | .individual _ => f
  | .instanceOf i c => { f with types := f.types ++ [(i, c)] }
  | .assertion a => { f with assertions := f.assertions ++ [a] }
  | .sameAs a b => { f with sameAs := f.sameAs ++ [(a, b)] }
  | .differentFrom a b =>
    { f with differentFrom := f.differentFrom ++ [(a, b)] }
  | .allDifferent members =>
    { f with groups := f.groups ++ [members.eraseDups] }
  | .note n => { f with notes := f.notes ++ [n] }

/-- Records a statement and makes its individuals known. -/
def add (f : Facts) (s : Statement) : Facts :=
  (f.record s).declare s.individuals

/-- The individuals known after a statement. -/
@[simp] theorem mem_individuals_add {f : Facts} {s : Statement}
    {i : Individual} :
    i ∈ (f.add s).individuals ↔ i ∈ f.individuals ∨ i ∈ s.individuals := by
  rw [add, mem_declare]
  cases s <;> rfl

/-- A recorded statement holds. -/
theorem holds_add (f : Facts) (s : Statement) : (f.add s).holds s := by
  cases s with
  | individual i => simp [holds, Statement.individuals]
  | allDifferent members =>
    simp [holds, add, record, declare]
  | _ => simp [holds, add, record, declare]

end Facts

end Ontology
