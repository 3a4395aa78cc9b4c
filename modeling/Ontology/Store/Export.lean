/-
Facts as triples, in the mapping of OWL to graphs.

* `denialTriples`: a denial is a node with a source, a property and a target.
* `groupTriples`: a group is a node with the list of its members.
* `Facts.triples`: all facts. The nodes that the triples need are named by a
  supply: the statement `0` stands for all denials, and the statement `k + 1`
  for the `k`-th group, which comes first among its places.
* `Facts.graph`: the same triples, each once, with minted nodes.
-/
import Ontology.Rdf.Collection
import Ontology.Store.Facts

namespace Ontology

open Rdf (Triple Node BlankNode Term Graph)

/-- The triples of a denial. -/
def denialTriples (node : BlankNode) (a : Assertion) : List Triple :=
  let target :=
    match a.object with
    | .node _ => Owl.targetIndividual
    | .literal _ => Owl.targetValue
  [⟨node, Rdf.type, Owl.negativePropertyAssertion⟩,
    ⟨node, Owl.sourceIndividual, a.subject⟩,
    ⟨node, Owl.assertionProperty, a.property⟩,
    ⟨node, target, a.object⟩]

/-- The triples of a group of pairwise different individuals: the group is at
place `0`, the cells of its list follow. -/
def groupTriples (place : Nat → BlankNode) (members : List Individual) :
    List Triple :=
  let items := members.map Term.node
  ⟨place 0, Rdf.type, Owl.allDifferent⟩ ::
    ⟨place 0, Owl.distinctMembers, Rdf.listHead place 1 items⟩ ::
    Rdf.listTriples place 1 items

namespace Facts

/-- The denials, in the order in which they became known. -/
def denials (f : Facts) : List Assertion :=
  f.assertions.filter fun a => a.polarity = .negative

/-- All facts as triples. -/
def triples (f : Facts) (fresh : BlankNode.Supply) : List Triple :=
  let named := f.individuals.filter fun i => i.iri?.isSome
  let stated := f.assertions.filter fun a => a.polarity = .positive
  named.map (fun i => ⟨i, Rdf.type, Owl.namedIndividual⟩) ++
    f.types.map (fun t => ⟨t.1, Rdf.type, t.2⟩) ++
    stated.map (fun a => ⟨a.subject, a.property, a.object⟩) ++
    f.denials.zipIdx.flatMap (fun a => denialTriples (fresh 0 a.2) a.1) ++
    f.sameAs.map (fun e => ⟨e.1, Owl.sameAs, e.2⟩) ++
    f.differentFrom.map (fun e => ⟨e.1, Owl.differentFrom, e.2⟩) ++
    f.groups.zipIdx.flatMap (fun g => groupTriples (fresh (g.2 + 1)) g.1) ++
    f.notes.map (fun n => ⟨n.subject, n.property, n.value⟩)

/-- The graph of all facts. -/
def graph (f : Facts) : Graph := .ofList (f.triples .minted)

/-- A denial gives four triples, and they share their subject. -/
theorem subject_of_mem_denialTriples {node : BlankNode} {a : Assertion}
    {t : Triple} (h : t ∈ denialTriples node a) : t.subject = .blank node := by
  simp only [denialTriples, List.mem_cons, List.not_mem_nil, or_false] at h
  rcases h with rfl | rfl | rfl | rfl <;> rfl

/-- The graph has the triples. -/
@[simp] theorem mem_graph {f : Facts} {t : Triple} :
    t ∈ f.graph ↔ t ∈ f.triples .minted := by
  simp [graph]

end Facts

end Ontology
