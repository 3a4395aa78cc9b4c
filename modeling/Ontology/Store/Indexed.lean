/-
Stores that keep indexes.

* `Index.equals`, `Index.others`, `Index.different`: equality and difference
  by the neighbours of individuals and the positions of their groups.
* `Index.related`: the end points of paths, followed from object to object.
* `Index.opposes`, `Index.mergeOpposes`, `Index.equalMembers?`: what contradicts
  a statement. Contradicting assertions are not looked for in an index without
  assertions.
* `Indexed`: a store together with its indexes; `Update`: what reads and
  writes one.
* `enterIndividual` and the other writes, each to the facts and to the indexes.
* `declareIndividual`, `declareType`, `assertRelation`, `assertValue`,
  `declareSameAs`, `declareDifferentFrom`, `declareAllDifferent`, `annotate`:
  the operations, with their tests and their writes in order; `perform` carries
  out the one for a statement.
* `Indexed.judge`, `Indexed.tell`: the outcome of an operation and the store
  after it; `Indexed.run`.
* `Indexed.profile`: the profile of an individual by the indexes.
-/
import Ontology.Store.Basic
import Ontology.Store.Index
import Ontology.Store.Profile

namespace Ontology

namespace Index

variable (x : Index)

/-! ### Identity and difference -/

/-- An individual and all its other names. -/
def equals (a : Individual) : List Individual := x.sameAs.reach [a]

/-- The other names of an individual. -/
def others (a : Individual) : List Individual :=
  (x.equals a).filter (· ≠ a)

/-- Two names are known to be those of one individual. -/
def isSame (a b : Individual) : Bool := (x.equals a).contains b

/-- The individuals that are different from an individual by one
declaration. -/
def declaredDifferent (a : Individual) : List Individual :=
  x.differentFrom.neighbours a ++ x.groups.peers a

/-- The individuals known to be different from an individual. -/
def different (a : Individual) : List Individual :=
  (x.sameAs.reach ((x.equals a).flatMap x.declaredDifferent)).filter (· ≠ a)

/-- Two individuals are known to be different. -/
def isDifferent (a b : Individual) : Bool := (x.different a).contains b

/-! ### Paths -/

/-- The individuals that are stated values of an individual for some
properties. -/
def successors (ps : List Property) (a : Individual) : List Individual :=
  (ps.filterMap (x.relations.positive.objects? a)).flatMap (·.toList)

/-- The individuals with stated relations of some properties. -/
def sources (ps : List Property) : List Individual :=
  ps.flatMap fun p => (x.relations.positive.subjectsOf p).map (·.1)

/-- The individuals at the end of a path of at least one stated relation of
some properties. -/
def related (ps : List Property) (a : Individual) : List Individual :=
  reachable (x.sources ps) (x.successors ps) (x.successors ps a)

/-! ### Contradictions -/

/-- An assertion of the opposite polarity is known about an equal subject and
an equal object. -/
def opposes (a : Assertion) : Bool :=
  match a.object with
  | .node o =>
    let opposite := x.relations.of a.polarity.opposite
    !opposite.isEmpty &&
      let names := x.equals o
      opposite.anyAssertion a.property (x.equals a.subject) names.contains
  | .literal l =>
    let opposite := x.values.of a.polarity.opposite
    !opposite.isEmpty &&
      opposite.anyAssertion a.property (x.equals a.subject) (·.sameValue l)

/-- The names of an individual after the individuals with some names have
become one. -/
def equalsAfter (merged : List Individual) (i : Individual) :
    List Individual :=
  if i ∈ merged then merged else x.equals i

/-- A stated relation is also denied, after the individuals with some names
have become one. -/
def relationDeniedAfter (merged : List Individual) : Bool :=
  !x.relations.negative.isEmpty &&
    x.relations.positive.toList.any fun (s, p, o) =>
      (merged.contains s || merged.contains o) &&
        let names := x.equalsAfter merged o
        x.relations.negative.anyAssertion p (x.equalsAfter merged s)
          names.contains

/-- A stated value is also denied, after the individuals with some names have
become one. -/
def valueDeniedAfter (merged : List Individual) : Bool :=
  !x.values.negative.isEmpty &&
    x.values.positive.toList.any fun (s, p, l) =>
      merged.contains s &&
        x.values.negative.anyAssertion p merged (·.sameValue l)

/-- Making one individual of two would make a denied assertion hold. -/
def mergeOpposes (a b : Individual) : Bool :=
  let merged := x.equals a ++ x.equals b
  x.relationDeniedAfter merged || x.valueDeniedAfter merged

/-- The first member of a group that equals others of them. -/
def equalMembers? (members : List Individual) : Option Conflict :=
  members.findSome? fun m =>
    let names := x.others m
    match members.filter (· ∈ names) with
    | [] => none
    | first :: rest => some (.equalMembers m first rest)

end Index

/-! ### Stores -/

/-- A store with its indexes. -/
structure Indexed extends Store where
  index : Index := {}

/-- What reads a store with its indexes and writes to it. -/
abbrev Update := StateM Indexed

namespace Indexed

/-! ### Writes -/

/-- An individual becomes known. It tells whether it was unknown. -/
def enterIndividual (i : Individual) : Update Bool := do
  let s ← get
  if i ∈ s.index.individuals then return false
  set { s with
    facts := { s.facts with individuals := s.facts.individuals ++ [i] }
    index := { s.index with individuals := s.index.individuals.insert i } }
  return true

/-- A class of an individual is recorded. -/
def enterType (i : Individual) (c : ClassName) : Update Unit :=
  modify fun s =>
    { s with
      facts := s.facts.record (.instanceOf i c)
      index := { s.index with types := s.index.types.addTo i c } }

/-- An assertion is recorded. It tells whether it was unknown. -/
def enterAssertion (a : Assertion) : Update Bool := do
  let s ← get
  let inserted := !s.index.contains a
  set { s with
    facts := if inserted then s.facts.record (.assertion a) else s.facts
    index := s.index.insert a }
  return inserted

/-- Two names of one individual are recorded, unless they are known as such. -/
def enterSameAs (a b : Individual) : Update Bool := do
  let s ← get
  if s.index.sameAs.contains a b then return false
  set { s with
    facts := s.facts.record (.sameAs a b)
    index := { s.index with sameAs := s.index.sameAs.insert a b } }
  return true

/-- Two different individuals are recorded, unless they are known as such. -/
def enterDifferentFrom (a b : Individual) : Update Bool := do
  let s ← get
  if s.index.differentFrom.contains a b then return false
  set { s with
    facts := s.facts.record (.differentFrom a b)
    index :=
      { s.index with differentFrom := s.index.differentFrom.insert a b } }
  return true

/-- A group without repetition is recorded. -/
def pushGroup (members : List Individual) : Update Unit :=
  modify fun s =>
    { s with
      facts := { s.facts with groups := s.facts.groups ++ [members] }
      index := { s.index with groups := s.index.groups.push members } }

/-- An individual gets an entry for its notes, empty if there was none. -/
def openNotes (i : Individual) : Update Unit :=
  modify fun s => { s with index := s.index.openNotes i }

/-- A note is recorded. -/
def pushNote (n : Note) : Update Unit :=
  modify fun s =>
    { s with
      facts := s.facts.record (.note n)
      index := s.index.pushNote n }

/-! ### Operations -/

/-- The outcome of what is recorded unless it is known. -/
def outcome (inserted : Bool) : Outcome :=
  if inserted then .applied else .unchanged

def declareIndividual (i : Individual) : Update Outcome :=
  outcome <$> enterIndividual i

def declareType (i : Individual) (c : ClassName) : Update Outcome := do
  let s ← get
  if c ∈ s.index.types.members i then return .unchanged
  if s.config.protection && c ∈ s.config.reserved then
    return .rejected (.reserved i c)
  discard (enterIndividual i)
  enterType i c
  return .applied

/-- Asserts or denies a relation between two individuals. -/
def assertRelation (q : Polarity) (subject : Individual) (p : Property)
    (object : Individual) : Update Outcome := do
  let a : Assertion := ⟨q, subject, p, .node object⟩
  let s ← get
  if s.index.contains a then return .unchanged
  if s.config.protection && s.index.opposes a then
    return .rejected (.opposed a)
  discard (enterIndividual subject)
  discard (enterIndividual object)
  outcome <$> enterAssertion a

/-- Asserts or denies a literal as a value. -/
def assertValue (q : Polarity) (subject : Individual) (p : Property)
    (l : Rdf.Literal) : Update Outcome := do
  let a : Assertion := ⟨q, subject, p, .literal l⟩
  let s ← get
  if s.index.contains a then return .unchanged
  if s.config.protection && s.index.opposes a then
    return .rejected (.opposed a)
  discard (enterIndividual subject)
  outcome <$> enterAssertion a

def declareSameAs (a b : Individual) : Update Outcome := do
  if a = b then return .refused (.sameAsItself a)
  let s ← get
  if s.index.sameAs.contains a b then return .unchanged
  if s.config.protection && s.index.isDifferent a b then
    return .rejected (.knownDifferent a b)
  if s.config.protection && s.index.mergeOpposes a b then
    return .rejected (.merge a b)
  discard (enterIndividual a)
  discard (enterIndividual b)
  outcome <$> enterSameAs a b

def declareDifferentFrom (a b : Individual) : Update Outcome := do
  if a = b then return .refused (.differentFromItself a)
  let s ← get
  if s.index.differentFrom.contains a b then return .unchanged
  if s.config.protection && s.index.isSame a b then
    return .rejected (.knownSame a b)
  discard (enterIndividual a)
  discard (enterIndividual b)
  outcome <$> enterDifferentFrom a b

/-- A member that is listed twice counts once, before anything is tested. -/
def declareAllDifferent (members : List Individual) : Update Outcome := do
  let members := members.eraseDups
  if members = [] then return .refused .noMembers
  let s ← get
  if s.index.groups.contains members then return .unchanged
  if s.config.protection then
    if let some conflict := s.index.equalMembers? members then
      return .rejected conflict
  members.forM fun i => discard (enterIndividual i)
  pushGroup members
  return .applied

/-- The subject has its entry before the test for a known note. -/
def annotate (n : Note) : Update Outcome := do
  openNotes n.subject
  let s ← get
  if (n.property, n.value) ∈ s.index.notesOf n.subject then return .unchanged
  pushNote n
  discard (enterIndividual n.subject)
  return .applied

/-- Carries out the operation for a statement. -/
def perform : Statement → Update Outcome
  | .individual i => declareIndividual i
  | .instanceOf i c => declareType i c
  | .assertion ⟨q, s, p, .node o⟩ => assertRelation q s p o
  | .assertion ⟨q, s, p, .literal l⟩ => assertValue q s p l
  | .sameAs a b => declareSameAs a b
  | .differentFrom a b => declareDifferentFrom a b
  | .allDifferent members => declareAllDifferent members
  | .note n => annotate n

/-- The outcome of a statement. -/
def judge (s : Indexed) (t : Statement) : Outcome := ((perform t).run s).1

/-- Tells the store a statement. -/
def tell (s : Indexed) (t : Statement) : Indexed := ((perform t).run s).2

/-- The store without facts. -/
def reset (s : Indexed) : Indexed := { s with facts := {}, index := {} }

/-- One command. -/
def step (s : Indexed) : Command → Indexed
  | .tell t => s.tell t
  | .reset => s.reset

/-- Commands one after the other. -/
def run (s : Indexed) (cs : List Command) : Indexed := cs.foldl step s

/-! ### Profiles -/

/-- The profile of an individual. -/
def profile (s : Indexed) (i : Individual) : Profile where
  individual := i
  types := s.index.typesOf i
  sameAs := s.index.others i
  differentFrom := s.index.different i
  outgoing := (s.index.relations.positive.select (some i) none none).map
    fun e => (e.2.1, .node e.2.2)
  incoming := (s.index.relations.positive.select none none (some i)).map
    fun e => (e.1, e.2.1)
  literals := (s.index.values.positive.select (some i) none none).map
    fun e => (e.2.1, .literal e.2.2)
  denials :=
    (s.index.relations.negative.select (some i) none none).map
        (fun e => ⟨.negative, e.1, e.2.1, .node e.2.2⟩) ++
      (s.index.values.negative.select (some i) none none).map
        (fun e => ⟨.negative, e.1, e.2.1, .literal e.2.2⟩)
  notes := (s.index.notesOf i).map fun v => ⟨i, v.1, v.2⟩

end Indexed

end Ontology
