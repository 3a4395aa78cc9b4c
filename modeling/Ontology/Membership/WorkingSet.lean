/-
Working sets: the values of a role by individual, read from indexes.

* `Index.rows`, `Index.converse`: the values that a property is stated to give,
  and the individuals that have an individual as a value.
* `WorkingSet.addForward`, `addBackward`: the values of a property, forwards
  and backwards, added to those known so far.
* `Reasoner.workingSet`: the values of a role.
* `Reasoner.select`: the members of a restriction by a working set.
-/
import Ontology.Membership.Meaning
import Ontology.Store.Indexed

namespace Ontology

/-! ### Stated values -/

namespace Index

variable (x : Index)

/-- The values that a property is stated to give: individuals, then
literals. -/
def rows (p : Property) : List (Individual × List Rdf.Term) :=
  ((x.relations.positive.subjectsOf p).map fun e =>
    (e.1, e.2.toList.map .node)) ++
    (x.values.positive.subjectsOf p).map fun e =>
      (e.1, e.2.toList.map .literal)

/-- The individuals that have an individual as a stated value of some
properties. -/
def converse (ps : List Property) : Table Individual (ListSet Individual) :=
  .extendAll .empty <| ps.flatMap fun p =>
    (x.relations.positive.subjectsOf p).flatMap fun e =>
      e.2.toList.map fun o => (o, [e.1])

end Index

/-! ### Working sets -/

/-- The values of individuals, each once. -/
abbrev WorkingSet := Table Individual (ListSet Rdf.Term)

namespace WorkingSet

variable (r : Reasoner) (x : Index)

/-- Adds the values of a property: those stated of the properties it covers,
and for the subjects of the transitive ones all ends of paths. -/
def addForward (w : WorkingSet) (p : Property) : WorkingSet :=
  let ps := r.expand p
  let ts := r.transitiveOf ps
  (w.extendAll (ps.flatMap x.rows)).extendAll <|
    (x.sources ts).eraseDups.map fun i => (i, (x.related ts i).map .node)

/-- Adds the values of a property read backwards. -/
def addBackward (w : WorkingSet) (p : Property) : WorkingSet :=
  let ps := r.expand p
  let stated := x.converse ps
  let steps := x.converse (r.transitiveOf ps)
  let next (i : Individual) := (steps.members i).toList
  (w.extendAll (stated.entries.map fun e => (e.1, e.2.toList.map .node))).extendAll <|
    steps.keys.map fun i => (i, (reachable steps.keys next (next i)).map .node)

end WorkingSet

namespace Reasoner

variable (r : Reasoner)

/-- The values of a role. A property that is read backwards also has the
values of the properties declared inverse to it. -/
def workingSet (x : Index) : Role → WorkingSet
  | .direct p => .addForward r x .empty p
  | .inverse p =>
    let inverses := (r.catalog.inversesOf p).foldl (.addForward r x) .empty
    .addBackward r x inverses p

/-- The individuals that satisfy a constraint by their values in a working
set: among all known ones for a count, and otherwise among those with
values. -/
def select (w : WorkingSet) (filler : Filler) (c : Constraint) :
    List Individual :=
  (if c.count?.isSome then r.facts.individuals else w.keys).filter fun i =>
    r.satisfies filler i (w.members i).toList c

end Reasoner

end Ontology
