/-
Terminologies as triples, in the mapping of OWL to graphs.

* `Constraint.triples`, `Role.triples`, `ClassExpression.triples`: the
  description of a class as triples about its name.
* `Clause.triples`: a declaration about two names is one triple.
* `Terminology.definitions`: the definitions in force; `mem_definitions`.
* `Terminology.triples`: the whole. The nodes that the triples need are named
  by a supply, in which the statement `k` stands for the `k`-th definition.
* `Terminology.graph`: the same triples, each once, with minted nodes.
-/
import Ontology.Catalog.Terminology
import Ontology.Value.Datatype

namespace Ontology

open Rdf (Triple Node BlankNode Term Graph Literal)

/-! ### Restrictions -/

/-- A number of values as a literal. -/
def countLiteral (n : UInt32) : Literal :=
  .typed (toString n.toNat) (Value.Datatype.integer .nonNegative).iri

/-- A truth value as a literal. -/
def truthLiteral (b : Bool) : Literal :=
  .typed (if b then "true" else "false") Xsd.boolean

/-- The bounds of a count, under the keywords of an exact number, of a lower
and of an upper bound. -/
def Count.triples (n : Node) (exact min max : Keyword) : Count → List Triple
  | exactly k => [⟨n, exact.iri, countLiteral k⟩]
  | atLeast k => [⟨n, min.iri, countLiteral k⟩]
  | atMost k => [⟨n, max.iri, countLiteral k⟩]
  | between j k => [⟨n, min.iri, countLiteral j⟩, ⟨n, max.iri, countLiteral k⟩]

/-- What a restriction demands. A count of the values in a class has keywords
of its own. -/
def Constraint.triples (n : Node) : Constraint → List Triple
  | count c none => c.triples n .cardinality .minCardinality .maxCardinality
  | count c (some filler) =>
    c.triples n .qualifiedCardinality .minQualifiedCardinality
        .maxQualifiedCardinality ++
      [⟨n, Keyword.onClass.iri, filler⟩]
  | allValuesFrom filler => [⟨n, Keyword.allValuesFrom.iri, filler⟩]
  | someValuesFrom filler => [⟨n, Keyword.someValuesFrom.iri, filler⟩]
  | hasValue v => [⟨n, Keyword.hasValue.iri, v⟩]
  | hasSelf self => [⟨n, Keyword.hasSelf.iri, truthLiteral self⟩]

/-- The role of a restriction. A property read backwards is a node of its own,
the inverse of the property. -/
def Role.triples (n : Node) (backwards : BlankNode) : Role → List Triple
  | direct p => [⟨n, Keyword.onProperty.iri, p⟩]
  | inverse p =>
    [⟨n, Keyword.onProperty.iri, backwards⟩, ⟨backwards, Owl.inverseOf, p⟩]

/-! ### Classes -/

/-- A keyword whose value is a list of nodes. -/
def listedTriples (n : Node) (k : Keyword) (place : Nat → BlankNode)
    (nodes : List Node) : List Triple :=
  let items := nodes.map Term.node
  ⟨n, k.iri, Rdf.listHead place 0 items⟩ :: Rdf.listTriples place 0 items

/-- The description of a class. A name by itself needs none. -/
def ClassExpression.triples (n : Node) (place : Nat → BlankNode) :
    ClassExpression → List Triple
  | named _ => []
  | restriction r => r.role.triples n (place 0) ++ r.constraint.triples n
  | union members => listedTriples n .unionOf place members
  | intersection members => listedTriples n .intersectionOf place members
  | complement member => [⟨n, Keyword.complementOf.iri, member⟩]
  | oneOf individuals => listedTriples n .oneOf place individuals

/-! ### Declarations -/

/-- A declaration about the order of classes or of properties, or about one
property. -/
def Clause.triples : Clause → List Triple
  | define _ _ => []
  | subClass narrow broad => [⟨narrow, Rdfs.subClassOf, broad⟩]
  | equivalentClasses a b => [⟨a, Owl.equivalentClass, b⟩]
  | subProperty narrow broad => [⟨.iri narrow, Rdfs.subPropertyOf, broad⟩]
  | equivalentProperties a b => [⟨.iri a, Owl.equivalentProperty, b⟩]
  | inverseProperties a b => [⟨.iri a, Owl.inverseOf, b⟩]
  | transitiveProperty p => [⟨.iri p, Rdf.type, Owl.transitiveProperty⟩]

namespace Terminology

/-- The defined classes, each with its latest definition. -/
def definitions (t : Terminology) : List (ClassName × ClassExpression) :=
  (t.filterMap fun
    | .define c _ => some c
    | _ => none).eraseDups.filterMap fun c => (t.definition? c).map (c, ·)

/-- A terminology as triples. -/
def triples (t : Terminology) (fresh : BlankNode.Supply) : List Triple :=
  t.flatMap Clause.triples ++
    t.definitions.zipIdx.flatMap fun d => d.1.2.triples d.1.1 (fresh d.2)

/-- The graph of a terminology. -/
def graph (t : Terminology) : Graph := .ofList (t.triples .minted)

/-- The definitions in force are the latest ones. -/
theorem mem_definitions {t : Terminology} {c : ClassName}
    {e : ClassExpression} :
    (c, e) ∈ t.definitions ↔ t.definition? c = some e := by
  simp only [definitions, List.mem_filterMap, List.mem_eraseDups,
    Option.map_eq_some_iff, Prod.mk.injEq]
  constructor
  · rintro ⟨_, _, _, h, rfl, rfl⟩
    exact h
  · intro h
    refine ⟨c, ?_, e, h, rfl, rfl⟩
    obtain ⟨k, hk, he⟩ := List.exists_of_findSome?_eq_some h
    refine ⟨k, hk, ?_⟩
    cases k <;> grind

/-- The graph has the triples. -/
theorem mem_graph {t : Terminology} {x : Triple} :
    x ∈ t.graph ↔ x ∈ t.triples .minted := by
  simp [graph]

end Terminology

end Ontology
