/-
Catalogs read from graphs, in the mapping of OWL to triples.

* `Graph.restriction`: the restriction that a node describes. Counts come
  before other constraints, and counts of the values in a class before others.
* `Graph.classify`: the structure of a class. A node that is called a
  restriction, or names a property to restrict, is one; other descriptions
  are tried in order.
* `Graph.catalog`: the catalog of a graph. In the order of the properties and
  among their inverses only IRIs count.
-/
import Ontology.Catalog.Basic
import Ontology.Text.Blank

namespace Ontology

/-- The count of an exact number or of bounds, whichever are given; an exact
number leaves the bounds aside. -/
def Count.ofBounds? (exact min max : Option UInt32) : Option Count :=
  match exact, min, max with
  | some n, _, _ => some (.exactly n)
  | none, some min, some max => some (.between min max)
  | none, some min, none => some (.atLeast min)
  | none, none, some max => some (.atMost max)
  | none, none, none => none

/-- The number of 32 bits that a text denotes. Blanks may surround it, and a
plus may precede it. -/
def readCount? (text : String) : Option UInt32 := do
  let digits :=
    match Text.trim text.toList with
    | '+' :: digits => digits
    | digits => digits
  let n ← Text.natural? digits
  if n < UInt32.size then some (.ofNat n) else none

/-- The truth value of a literal that is a truth value or a string. -/
def readTruth? (t : Rdf.Term) : Option Bool := do
  let l ← t.literal?
  guard (l.datatype = Xsd.boolean ∨ l.datatype = Xsd.string)
  if l.text = "true" ∨ l.text = "1" then some true
  else if l.text = "false" ∨ l.text = "0" then some false
  else none

namespace Rdf.Graph

variable (g : Graph)

/-! ### Values of keywords -/

/-- The value of a keyword. -/
def value? (n : Node) (k : Keyword) : Option Term := g.object? n k.iri

/-- The number that is the value of a keyword, if it has one. -/
def count? (n : Node) (k : Keyword) :
    Except CatalogError (Option UInt32) :=
  match g.value? n k with
  | none => .ok none
  | some (.node m) => .error (.invalid n k m .literal)
  | some (.literal l) =>
    match readCount? l.text with
    | some count => .ok (some count)
    | none => .error (.invalid n k l .count)

/-- The class that is the value of a keyword, if it has one. -/
def class? (n : Node) (k : Keyword) :
    Except CatalogError (Option ClassName) :=
  match g.value? n k with
  | none => .ok none
  | some (.node m) => .ok (some m)
  | some (.literal l) => .error (.invalid n k l .className)

/-- The items of the list that is the value of a keyword. -/
def items (head : Term) : Except CatalogError (List Term) :=
  match g.readList head with
  | .ok items => .ok items
  | .error fault => .error (.malformedList (head.node?.getD nil) fault)

/-- The nodes of a list, each of them of a kind. -/
def nodeItems (n : Node) (k : Keyword) (expected : Expected) (head : Term) :
    Except CatalogError (List Node) := do
  (← g.items head).mapM fun
    | .node m => .ok m
    | .literal l => .error (.invalid n k l expected)

/-! ### Restrictions -/

/-- The role of a restriction: a property, or a blank node that names the
property whose inverse it is. -/
def role (n : Node) : Except CatalogError Role :=
  match g.value? n .onProperty with
  | none => .error (.missing n .onProperty)
  | some (.node (.iri p)) => .ok (.direct p)
  | some (.node (.blank b)) =>
    match g.object? b Owl.inverseOf with
    | some (.node (.iri p)) => .ok (.inverse p)
    | _ => .error (.invalid n .onProperty b .propertyOrInverse)
  | some (.literal l) => .error (.invalid n .onProperty l .property)

/-- The class of the values that a restriction counts. -/
def onClass (n : Node) : Except CatalogError ClassName := do
  match ← g.class? n .onClass with
  | some c => return c
  | none => throw (.missing n .onClass)

/-- The constraint of a restriction that counts nothing. -/
def fillerConstraint (n : Node) : Except CatalogError Constraint := do
  if let some c ← g.class? n .allValuesFrom then
    return .allValuesFrom c
  if let some c ← g.class? n .someValuesFrom then
    return .someValuesFrom c
  if let some v := g.value? n .hasValue then
    return .hasValue v
  match g.value? n .hasSelf with
  | some v =>
    match readTruth? v with
    | some self => return .hasSelf self
    | none => throw (.invalid n .hasSelf v .boolean)
  | none => throw (.unsupported n .noConstraint)

/-- The constraint of a restriction. -/
def constraint (n : Node) : Except CatalogError Constraint := do
  let exact ← g.count? n .cardinality
  let min ← g.count? n .minCardinality
  let max ← g.count? n .maxCardinality
  let exactIn ← g.count? n .qualifiedCardinality
  let minIn ← g.count? n .minQualifiedCardinality
  let maxIn ← g.count? n .maxQualifiedCardinality
  match Count.ofBounds? exactIn minIn maxIn, Count.ofBounds? exact min max with
  | some c, _ => return .count c (some (← g.onClass n))
  | none, some c => return .count c none
  | none, none => g.fillerConstraint n

/-- The restriction that a node describes. -/
def restriction (n : Node) : Except CatalogError Restriction := do
  if (g.value? n .onProperties).isSome then
    throw (.unsupported n .severalProperties)
  if (g.value? n .onDataRange).isSome then
    throw (.unsupported n .dataRange)
  let role ← g.role n
  let constraint ← g.constraint n
  match Restriction.of role constraint with
  | .ok r => return r
  | .error e => throw (.bounds e)

/-! ### Classes -/

/-- A node is called a restriction, or names what it restricts. -/
def isRestriction (n : Node) : Bool :=
  decide (⟨n, type, Owl.restriction⟩ ∈ g) ||
    (g.value? n .onProperty).isSome || (g.value? n .onProperties).isSome

/-- The structure of a class. -/
def classify (c : ClassName) : Except CatalogError ClassExpression := do
  if g.isRestriction c then
    return .restriction (← g.restriction c)
  if let some head := g.value? c .unionOf then
    return .union (← g.nodeItems c .unionOf .className head)
  if let some head := g.value? c .intersectionOf then
    return .intersection (← g.nodeItems c .intersectionOf .className head)
  if let some member ← g.class? c .complementOf then
    return .complement member
  if let some head := g.value? c .oneOf then
    return .oneOf (← g.nodeItems c .oneOf .individual head)
  return .named c

/-! ### Hierarchies -/

/-- The pairs of IRIs that a predicate relates. -/
def propertyLinks (p : Iri) : Edges Property :=
  (g.links p).filterMap fun e =>
    match e with
    | (.iri a, .iri b) => some (a, b)
    | _ => none

/-- The catalog of a graph. -/
def catalog : Catalog where
  classify := g.classify
  classes :=
    { narrower := Edges.flip (g.links Rdfs.subClassOf)
      equivalent := g.links Owl.equivalentClass }
  properties :=
    { narrower := (g.propertyLinks Rdfs.subPropertyOf).flip
      equivalent := g.propertyLinks Owl.equivalentProperty }
  inverses := g.propertyLinks Owl.inverseOf
  transitive := (g.subjects type Owl.transitiveProperty).filterMap Node.iri?

@[simp] theorem mem_propertyLinks {p a b : Iri} :
    (a, b) ∈ g.propertyLinks p ↔ ⟨.iri a, p, .node (.iri b)⟩ ∈ g := by
  rw [← mem_links]
  simp only [propertyLinks, List.mem_filterMap]
  constructor
  · rintro ⟨⟨m, n⟩, h, he⟩
    cases m <;> cases n <;> simp at he
    obtain ⟨rfl, rfl⟩ := he
    exact h
  · exact fun h => ⟨_, h, rfl⟩

end Rdf.Graph

end Ontology
