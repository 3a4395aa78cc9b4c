/-
Indexes of facts.

* `AssertionIndex`: values by property and subject, and how many there are;
  `contains_insert`, `mem_select`, `contains_iff_mem_objects`, `mem_subjectsOf`.
* `PairIndex`: declared pairs, and the neighbours of each individual.
* `GroupIndex`: declared groups, and the positions of the groups of each
  individual; `peers`, the other members of these groups.
* `Index`: the known individuals, their classes and notes, and the indexes of
  all assertions, pairs and groups; `Index.record` enters what a statement
  says, and `Index.add` its individuals as well.
-/
import Ontology.Relation.Table
import Ontology.Store.Statement

namespace Ontology

/-! ### Assertions -/

/-- Assertions of one polarity and one kind: the objects by property and
subject. -/
structure AssertionIndex (ω : Type) where
  byProperty : Table Property (Table Individual (ListSet ω)) := .empty
  /-- The number of assertions, kept apart. -/
  size : Nat := 0

namespace AssertionIndex

variable {ω : Type}

/-- The objects of a subject and a property. -/
def objects? (x : AssertionIndex ω) (s : Individual) (p : Property) :
    Option (ListSet ω) :=
  (x.byProperty.get? p).bind (·.get? s)

/-- The subjects of a property, each with its objects. -/
def subjectsOf (x : AssertionIndex ω) (p : Property) :
    List (Individual × ListSet ω) :=
  ((x.byProperty.get? p).map (·.entries)).getD []

/-- The subjects of a property are those with objects. -/
theorem mem_subjectsOf {x : AssertionIndex ω} {s : Individual} {p : Property}
    {objects : ListSet ω} :
    (s, objects) ∈ x.subjectsOf p ↔ x.objects? s p = some objects := by
  rw [subjectsOf, objects?]
  cases x.byProperty.get? p <;> simp [Table.mem_entries]

/-- There are no assertions, by their number. -/
def isEmpty (x : AssertionIndex ω) : Bool := x.size = 0

variable [DecidableEq ω]

/-- An assertion is known. -/
def contains (x : AssertionIndex ω) (s : Individual) (p : Property) (o : ω) :
    Bool :=
  (x.objects? s p).any (o ∈ ·)

/-- A further assertion, if it is new. -/
def insert (x : AssertionIndex ω) (s : Individual) (p : Property) (o : ω) :
    AssertionIndex ω where
  byProperty :=
    x.byProperty.alter p fun subjects => (subjects.getD .empty).addTo s o
  size := if x.contains s p o then x.size else x.size + 1

/-- The assertions that have given parts. -/
def select (x : AssertionIndex ω) (subject : Option Individual)
    (property : Option Property) (object : Option ω) :
    List (Individual × Property × ω) :=
  (x.byProperty.entries.filter fun e => property.all (· = e.1)).flatMap
    fun e => (e.2.entries.filter fun d => subject.all (· = d.1)).flatMap
      fun d => (d.2.toList.filter fun o => object.all (· = o)).map
        fun o => (d.1, e.1, o)

/-- All assertions. -/
def toList (x : AssertionIndex ω) : List (Individual × Property × ω) :=
  x.select none none none

/-- An assertion of a property is known whose subject is in a list and whose
object passes a test. -/
def anyAssertion (x : AssertionIndex ω) (p : Property)
    (subjects : List Individual) (test : ω → Bool) : Bool :=
  subjects.any fun s => (x.objects? s p).any (·.toList.any test)

variable {x : AssertionIndex ω} {s s' : Individual} {p p' : Property} {o o' : ω}

theorem contains_iff :
    x.contains s p o ↔ ∃ subjects, x.byProperty.get? p = some subjects ∧
      o ∈ subjects.members s := by
  simp only [contains, objects?, Option.any_eq_true, Option.bind_eq_some_iff,
    decide_eq_true_eq, Table.mem_members]
  grind

/-- What is known is found with its subject. -/
theorem contains_iff_mem_objects :
    x.contains s p o ↔ ∃ objects, x.objects? s p = some objects ∧
      o ∈ objects := by
  simp only [contains, Option.any_eq_true, decide_eq_true_eq]

@[simp] theorem not_contains_empty :
    ({} : AssertionIndex ω).contains s p o = false := rfl

/-- An insertion makes known what is inserted, and nothing else. -/
@[simp] theorem contains_insert :
    (x.insert s p o).contains s' p' o' ↔
      x.contains s' p' o' ∨ s' = s ∧ p' = p ∧ o' = o := by
  simp only [contains_iff, insert, Table.get?_alter]
  by_cases hp : p' = p
  · subst hp
    cases x.byProperty.get? p' <;> simp
  · simp [hp]

/-- Assertions are selected by their parts. -/
theorem mem_select {subject : Option Individual} {property : Option Property}
    {object : Option ω} :
    (s, p, o) ∈ x.select subject property object ↔
      x.contains s p o ∧ subject.all (· = s) ∧ property.all (· = p) ∧
        object.all (· = o) := by
  simp only [select, List.mem_flatMap, List.mem_filter, List.mem_map,
    Prod.exists, Table.mem_entries, Prod.mk.injEq, contains_iff,
    Table.mem_members, ListSet.mem_toList]
  grind

@[simp] theorem mem_toList : (s, p, o) ∈ x.toList ↔ x.contains s p o := by
  simp [toList, mem_select]

theorem anyAssertion_iff {subjects : List Individual} {test : ω → Bool} :
    x.anyAssertion p subjects test ↔
      ∃ s ∈ subjects, ∃ o, x.contains s p o ∧ test o := by
  simp only [anyAssertion, contains, List.any_eq_true, Option.any_eq_true,
    decide_eq_true_eq, ListSet.mem_toList]
  grind

end AssertionIndex

/-! ### Pairs -/

/-- Declared pairs, in both directions by their ends. -/
structure PairIndex where
  edges : Table Individual (ListSet Individual) := .empty
  /-- The pairs as they were declared. -/
  declared : Edges Individual := []

namespace PairIndex

/-- The other ends of the pairs of an individual. -/
def neighbours (x : PairIndex) (a : Individual) : List Individual :=
  (x.edges.members a).toList

/-- A pair is known, in either direction. -/
def contains (x : PairIndex) (a b : Individual) : Bool := b ∈ x.edges.members a

/-- A further pair, if it is new. -/
def insert (x : PairIndex) (a b : Individual) : PairIndex :=
  if x.contains a b then x
  else
    { edges := (x.edges.addTo a b).addTo b a
      declared := x.declared ++ [(a, b)] }

/-- The individuals that some seeds reach from neighbour to neighbour. -/
def reach (x : PairIndex) (seeds : List Individual) : List Individual :=
  reachable x.edges.keys x.neighbours seeds

variable {x : PairIndex} {a b : Individual}

theorem contains_iff : x.contains a b ↔ b ∈ x.neighbours a := by
  simp [contains, neighbours]

end PairIndex

/-! ### Groups -/

/-- Declared groups, and where the groups of each individual stand. -/
structure GroupIndex where
  groups : List (List Individual) := []
  positions : Table Individual (List Nat) := .empty

namespace GroupIndex

/-- The positions of the groups of an individual. -/
def positionsOf (x : GroupIndex) (i : Individual) : List Nat :=
  (x.positions.get? i).getD []

/-- A further position for each of some members. -/
def place (positions : Table Individual (List Nat)) (members : List Individual)
    (n : Nat) : Table Individual (List Nat) :=
  members.foldl (fun t i => t.alter i fun ns => ns.getD [] ++ [n]) positions

/-- A further group. -/
def push (x : GroupIndex) (members : List Individual) : GroupIndex where
  groups := x.groups ++ [members]
  positions := place x.positions members x.groups.length

/-- A group with as many members, all of them among some members, is known. -/
def contains (x : GroupIndex) (members : List Individual) : Bool :=
  x.groups.any fun g =>
    g.length = members.length && g.all (· ∈ members)

/-- The other members of the groups of an individual. -/
def peers (x : GroupIndex) (a : Individual) : List Individual :=
  ((x.positionsOf a).filterMap (x.groups[·]?)).flatten.filter (· ≠ a)

end GroupIndex

/-! ### All indexes -/

/-- One for each polarity. -/
structure Polar (α : Type) where
  positive : α
  negative : α

namespace Polar

variable {α : Type}

/-- The one for a polarity. -/
def of (x : Polar α) : Polarity → α
  | .positive => x.positive
  | .negative => x.negative

/-- Another one for one of the polarities. -/
def alter (x : Polar α) (q : Polarity) (f : α → α) : Polar α :=
  match q with
  | .positive => { x with positive := f x.positive }
  | .negative => { x with negative := f x.negative }

@[simp] theorem of_alter {x : Polar α} {q r : Polarity} {f : α → α} :
    (x.alter q f).of r = if r = q then f (x.of r) else x.of r := by
  cases q <;> cases r <;> rfl

end Polar

/-- The indexes of a store. -/
structure Index where
  individuals : ListSet Individual := .empty
  /-- The classes by individual. -/
  types : Table Individual (ListSet ClassName) := .empty
  /-- Assertions between individuals. -/
  relations : Polar (AssertionIndex Individual) := ⟨{}, {}⟩
  /-- Assertions about literals. -/
  values : Polar (AssertionIndex Rdf.Literal) := ⟨{}, {}⟩
  sameAs : PairIndex := {}
  differentFrom : PairIndex := {}
  groups : GroupIndex := {}
  /-- The notes by subject: properties with their values. -/
  notes : Table Individual (List (Property × Rdf.Term)) := .empty

namespace Index

/-- The classes of an individual. -/
def typesOf (x : Index) (i : Individual) : List ClassName :=
  (x.types.members i).toList

/-- The notes on an individual. -/
def notesOf (x : Index) (i : Individual) : List (Property × Rdf.Term) :=
  (x.notes.get? i).getD []

/-- An assertion is known. -/
def contains (x : Index) (a : Assertion) : Bool :=
  match a.object with
  | .node o => (x.relations.of a.polarity).contains a.subject a.property o
  | .literal l => (x.values.of a.polarity).contains a.subject a.property l

/-- A further assertion. -/
def insert (x : Index) (a : Assertion) : Index :=
  match a.object with
  | .node o =>
    { x with
      relations :=
        x.relations.alter a.polarity (·.insert a.subject a.property o) }
  | .literal l =>
    { x with
      values := x.values.alter a.polarity (·.insert a.subject a.property l) }

/-- An entry for the notes on an individual, empty if there was none. -/
def openNotes (x : Index) (i : Individual) : Index :=
  { x with notes := x.notes.alter i fun ns => ns.getD [] }

/-- A further note. -/
def pushNote (x : Index) (n : Note) : Index :=
  { x with
    notes :=
      x.notes.alter n.subject fun ns => ns.getD [] ++ [(n.property, n.value)] }

/-- Makes individuals known. -/
def declare (x : Index) (is : List Individual) : Index :=
  { x with individuals := is.foldl .insert x.individuals }

/-- Enters what a statement says. -/
def record (x : Index) : Statement → Index
  | .individual _ => x
  | .instanceOf i c => { x with types := x.types.addTo i c }
  | .assertion a => x.insert a
  | .sameAs a b => { x with sameAs := x.sameAs.insert a b }
  | .differentFrom a b =>
    { x with differentFrom := x.differentFrom.insert a b }
  | .allDifferent members =>
    { x with groups := x.groups.push members.eraseDups }
  | .note n => x.pushNote n

/-- Enters a statement and makes its individuals known. -/
def add (x : Index) (t : Statement) : Index :=
  (x.record t).declare t.individuals

end Index

end Ontology
