/-
What the look-ups of a catalog find.

* `Hierarchy.Exact`: the look-ups of a hierarchy, told by direct declarations;
  `Hierarchy.exact`: they are exact, whatever the cycles.
* `Catalog.Declared`: direct declarations about classes and properties;
  `Terminology.declared`, `Graph.declared`: those of a terminology and of a graph.
* `Catalog.Exact`: the look-ups of a catalog, told by such declarations;
  `Catalog.lookups_exact`: **the look-ups of both kinds of catalogs are exact**.
-/
import Ontology.Proofs.Catalog.Interchange
import Ontology.Proofs.Store.Paths

namespace Ontology

open Relation
open Rdf (Graph Node)

/-! ### Hierarchies -/

namespace Hierarchy

variable {α : Type} [DecidableEq α] {h : Hierarchy α}
  {narrower equivalent : α → α → Prop}

/-- The look-ups of a hierarchy, told by its direct declarations. The entities below
an entity are the others that a chain of one or more declarations puts under it; its
equivalents are the others connected to it by declarations read either way. -/
structure Exact (h : Hierarchy α) (narrower equivalent : α → α → Prop) : Prop where
  mem_below : ∀ a b, b ∈ h.below a ↔ b ≠ a ∧ TransGen narrower b a
  nodup_below : ∀ a, (h.below a).Nodup
  mem_equivalents : ∀ a b, b ∈ h.equivalents a ↔ b ≠ a ∧ EqvGen equivalent a b
  nodup_equivalents : ∀ a, (h.equivalents a).Nodup
  equivalents_symm : ∀ a b, b ∈ h.equivalents a ↔ a ∈ h.equivalents b

/-- The look-ups of a hierarchy that holds some declarations are exact. -/
lemma exact (hnarrower : ∀ a b, (b, a) ∈ h.narrower ↔ narrower a b)
    (hequivalent : ∀ a b, (a, b) ∈ h.equivalent ↔ equivalent a b) :
    h.Exact narrower equivalent where
  mem_below a b := by
    have hbelow : b ∈ h.below a ↔ b ≠ a ∧ b ∈ h.narrower.descendants a := by
      rw [Hierarchy.mem_below, Edges.mem_descendants]
    simp only [hbelow, Edges.mem_descendants_iff_transGen, hnarrower]
    rw [← transGen_swap]
  nodup_below _ := Hierarchy.nodup_below
  mem_equivalents a b := by
    simp only [Hierarchy.mem_equivalents, Edges.mem_component,
      Edges.reaches_both_iff_eqvGen, hequivalent]
  nodup_equivalents _ := Hierarchy.nodup_equivalents
  equivalents_symm _ _ := mem_equivalents_comm

end Hierarchy

/-! ### Catalogs -/

namespace Catalog

/-- Direct declarations about classes and properties. -/
structure Declared where
  subClass : ClassName → ClassName → Prop
  equivalentClasses : ClassName → ClassName → Prop
  subProperty : Property → Property → Prop
  equivalentProperties : Property → Property → Prop
  inverseProperties : Property → Property → Prop

/-- The look-ups of a catalog, told by direct declarations. The inverses of a
property are the others declared so, in either direction. -/
structure Exact (k : Catalog) (d : Declared) : Prop where
  classes : k.classes.Exact d.subClass d.equivalentClasses
  properties : k.properties.Exact d.subProperty d.equivalentProperties
  mem_inversesOf : ∀ p q, q ∈ k.inversesOf p ↔
    q ≠ p ∧ (d.inverseProperties p q ∨ d.inverseProperties q p)
  nodup_inversesOf : ∀ p, (k.inversesOf p).Nodup
  inversesOf_symm : ∀ p q, q ∈ k.inversesOf p ↔ p ∈ k.inversesOf q

end Catalog

/-- The declarations of a terminology. -/
def Terminology.declared (t : Terminology) : Catalog.Declared where
  subClass c d := .subClass c d ∈ t
  equivalentClasses c d := .equivalentClasses c d ∈ t
  subProperty p q := .subProperty p q ∈ t
  equivalentProperties p q := .equivalentProperties p q ∈ t
  inverseProperties p q := .inverseProperties p q ∈ t

/-- The declarations of a graph. Properties are IRIs, and nothing is declared of
literals. -/
def Rdf.Graph.declared (g : Graph) : Catalog.Declared where
  subClass c d := ⟨c, Rdfs.subClassOf, .node d⟩ ∈ g
  equivalentClasses c d := ⟨c, Owl.equivalentClass, .node d⟩ ∈ g
  subProperty p q := ⟨.iri p, Rdfs.subPropertyOf, .node (.iri q)⟩ ∈ g
  equivalentProperties p q := ⟨.iri p, Owl.equivalentProperty, .node (.iri q)⟩ ∈ g
  inverseProperties p q := ⟨.iri p, Owl.inverseOf, .node (.iri q)⟩ ∈ g

namespace Catalog

variable {k : Catalog} {d : Declared}

/-- The look-ups of a catalog whose hierarchies have exact ones are exact. -/
lemma exact_of_hierarchies
    (hclasses : k.classes.Exact d.subClass d.equivalentClasses)
    (hproperties : k.properties.Exact d.subProperty d.equivalentProperties)
    (hinverses : ∀ p q, (p, q) ∈ k.inverses ↔ d.inverseProperties p q) :
    k.Exact d where
  classes := hclasses
  properties := hproperties
  mem_inversesOf p q := by simp only [Catalog.mem_inversesOf, hinverses]
  nodup_inversesOf p := k.nodup_inversesOf p
  inversesOf_symm p q := by
    rw [Catalog.mem_inversesOf, Catalog.mem_inversesOf, ne_comm, or_comm]

/-- **Look-ups are exact**: those of a terminology, whatever is declared in whatever
order, and those of any graph. They find each entity once: below a class or a
property the others that a chain of one or more declarations puts under it, as
equivalents the others connected to it by declarations read either way, and as
inverses the other properties declared so in either direction. Chains that come back
to the entity lead on to the others in them, and in a graph those of properties pass
through IRIs alone. So equivalents and inverses are mutual. -/
theorem lookups_exact :
    (∀ t : Terminology, t.catalog.Exact t.declared) ∧
      ∀ g : Graph, g.catalog.Exact g.declared := by
  constructor
  · intro t
    refine exact_of_hierarchies (Hierarchy.exact ?_ ?_) (Hierarchy.exact ?_ ?_) ?_
    · exact fun _ _ => Terminology.mem_narrower_classes
    · exact fun _ _ => Terminology.mem_equivalent_classes
    · exact fun _ _ => Terminology.mem_narrower_properties
    · exact fun _ _ => Terminology.mem_equivalent_properties
    · exact fun _ _ => Terminology.mem_inverses
  · intro g
    refine exact_of_hierarchies (Hierarchy.exact ?_ ?_) (Hierarchy.exact ?_ ?_) ?_
    · exact fun _ _ => Edges.mem_flip.trans Graph.mem_links
    · exact fun _ _ => Graph.mem_links
    · exact fun _ _ => Edges.mem_flip.trans (Graph.mem_propertyLinks g)
    · exact fun _ _ => Graph.mem_propertyLinks g
    · exact fun _ _ => Graph.mem_propertyLinks g

-- a cycle through the class that is looked up keeps its other members
example :
    let c (n : String) : ClassName := .iri ⟨n⟩
    (Terminology.catalog [.subClass (c "A") (c "C"), .subClass (c "C") (c "B"),
      .subClass (c "B") (c "A")]).classes.below (c "A") = [c "C", c "B"] := by
  decide +kernel

end Catalog

end Ontology
