/-
A terminology and a graph that holds it are interchangeable.

* `Terminology.place`: the nodes that the definition of a class needs;
  `mem_triples`: the triples of a terminology are those of its declarations and
  of the structure of each class.
* `Graph.mem_iff_of_holds`: what a graph that holds a terminology says;
  `mem_iff_of_keyword`, `mem_iff_of_helper`, `mem_iff_of_clause`: what it says in
  the words of each kind;
  `describes_of_holds`: it describes every class.
* `catalog_agrees`: so its catalog agrees with the one of the terminology;
  `graph_interchangeable`: hence all answers are the same.
-/
import Ontology.Proofs.Catalog.Agreement
import Ontology.Proofs.Catalog.Description

namespace Ontology

open Rdf (Triple Node BlankNode Term Graph Iri)

/-! ### Declarations -/

lemma Clause.predicate_of_mem_triples {k : Clause} {x : Triple} (h : x ∈ k.triples) :
    x.predicate ∈ Clause.words := by
  cases k <;> simp_all [triples, words]

/-- A triple belongs to one declaration only. -/
lemma Clause.eq_of_mem_triples {k l : Clause} {x : Triple} (hk : x ∈ k.triples)
    (hl : x ∈ l.triples) : k = l := by
  cases k <;> cases l <;>
    simp_all [triples, Rdf.type, Rdfs.subClassOf, Rdfs.subPropertyOf,
      Owl.equivalentClass, Owl.equivalentProperty, Owl.inverseOf]

/-- Declarations that share a word with descriptions are about IRIs. -/
lemma Clause.subject_ne_blank {k : Clause} {x : Triple} {b : BlankNode}
    (h : x ∈ k.triples) (hword : x.predicate ∈ ClassExpression.words) :
    x.subject ≠ .blank b := by
  cases k with
  | inverseProperties p q =>
    obtain rfl := List.mem_singleton.mp h
    simp
  | define c e => exact absurd h List.not_mem_nil
  | _ =>
    obtain rfl := List.mem_singleton.mp h
    dsimp only at hword
    exact absurd hword (by decide)

namespace Terminology

variable {t : Terminology} {fresh : BlankNode.Supply} {c d : ClassName}
  {p q : Property} {e : ClassExpression} {x : Triple} {i j : ℕ}

/-- What a view makes of one declaration only is listed if it is declared. -/
lemma mem_filterMap_iff {β : Type} {f : Clause → Option β} {b : β} {k : Clause}
    (hf : ∀ l, f l = some b ↔ l = k) : b ∈ t.filterMap f ↔ k ∈ t := by
  simp [List.mem_filterMap, hf]

lemma mem_narrower_classes :
    (d, c) ∈ t.classes.narrower ↔ .subClass c d ∈ t :=
  mem_filterMap_iff fun l => by cases l <;> simp [and_comm]

lemma mem_equivalent_classes :
    (c, d) ∈ t.classes.equivalent ↔ .equivalentClasses c d ∈ t :=
  mem_filterMap_iff fun l => by cases l <;> simp

lemma mem_narrower_properties :
    (q, p) ∈ t.properties.narrower ↔ .subProperty p q ∈ t :=
  mem_filterMap_iff fun l => by cases l <;> simp [and_comm]

lemma mem_equivalent_properties :
    (p, q) ∈ t.properties.equivalent ↔ .equivalentProperties p q ∈ t :=
  mem_filterMap_iff fun l => by cases l <;> simp

lemma mem_inverses : (p, q) ∈ t.catalog.inverses ↔ .inverseProperties p q ∈ t :=
  mem_filterMap_iff fun l => by cases l <;> simp

lemma mem_transitive : p ∈ t.catalog.transitive ↔ .transitiveProperty p ∈ t :=
  mem_filterMap_iff fun l => by cases l <;> simp

/-! ### Definitions -/

/-- The classes with a definition, each once. -/
def defined (t : Terminology) : List ClassName := t.definitions.map (·.1)

lemma mem_defined : c ∈ t.defined ↔ ∃ e, t.definition? c = some e := by
  simp [defined, mem_definitions]

lemma nodup_defined (t : Terminology) : t.defined.Nodup := by
  rw [defined, definitions, List.map_filterMap]
  refine (nodup_eraseDups _).filterMap fun c c' d hc hc' => ?_
  simp only [Option.mem_def, Option.map_map, Option.map_eq_some_iff] at hc hc'
  obtain ⟨_, _, rfl⟩ := hc
  obtain ⟨_, _, h⟩ := hc'
  exact h.symm

lemma classify_eq_of_definition (h : t.definition? c = some e) :
    t.classify c = e := by
  simp [classify, h]

lemma classify_of_notMem_defined (h : c ∉ t.defined) :
    t.classify c = .named c := by
  have hnone : t.definition? c = none := by
    simpa [mem_defined, ← Option.ne_none_iff_exists'] using h
  simp [classify, hnone]

/-- The nodes that the definition of a class needs, by their places. -/
def place (t : Terminology) (fresh : BlankNode.Supply) (c : ClassName) :
    ℕ → BlankNode :=
  fresh (t.defined.idxOf c)

/-- Definitions of different classes need different nodes. -/
lemma place_inj (hfresh : Function.Injective2 fresh) (hc : c ∈ t.defined)
    (h : t.place fresh c i = t.place fresh d j) : c = d ∧ i = j := by
  obtain ⟨hstatement, hplace⟩ := hfresh h
  exact ⟨(List.idxOf_inj hc).mp hstatement, hplace⟩

lemma mem_zipIdx_definitions :
    ((c, e), i) ∈ t.definitions.zipIdx ↔
      t.definition? c = some e ∧ t.defined.idxOf c = i := by
  rw [List.mem_zipIdx_iff_getElem?]
  constructor
  · intro h
    refine ⟨mem_definitions.mp (List.mem_of_getElem? h), ?_⟩
    have hi : t.defined[i]? = some c := by simp [defined, h]
    obtain ⟨hlt, rfl⟩ := List.getElem?_eq_some_iff.mp hi
    exact t.nodup_defined.idxOf_getElem i hlt
  · rintro ⟨he, rfl⟩
    have hc : c ∈ t.defined := mem_defined.mpr ⟨e, he⟩
    have hdefined := List.getElem?_idxOf hc
    rw [defined, List.getElem?_map, Option.map_eq_some_iff] at hdefined
    obtain ⟨⟨c', e'⟩, hentry, rfl⟩ := hdefined
    have he' := mem_definitions.mp (List.mem_of_getElem? hentry)
    obtain rfl : e = e' := Option.some_inj.mp (he.symm.trans he')
    exact hentry

/-- The triples of a terminology are those of its declarations and those of the
structure of each class. -/
lemma mem_triples :
    x ∈ t.triples fresh ↔ (∃ k ∈ t, x ∈ k.triples) ∨
      ∃ c, x ∈ (t.classify c).triples c (t.place fresh c) := by
  simp only [triples, List.mem_append, List.mem_flatMap, Prod.exists,
    mem_zipIdx_definitions]
  refine or_congr .rfl ⟨?_, ?_⟩
  · rintro ⟨c, e, i, ⟨he, rfl⟩, hx⟩
    exact ⟨c, (classify_eq_of_definition he).symm ▸ hx⟩
  · rintro ⟨c, hx⟩
    by_cases hc : c ∈ t.defined
    · obtain ⟨e, he⟩ := mem_defined.mp hc
      exact ⟨c, e, _, ⟨he, rfl⟩, classify_eq_of_definition he ▸ hx⟩
    · rw [classify_of_notMem_defined hc] at hx
      exact absurd hx List.not_mem_nil

/-- Only defined classes need further nodes. -/
lemma mem_defined_of_mem_helpers {place : ℕ → BlankNode}
    (h : x ∈ (t.classify c).helpers place) : c ∈ t.defined := by
  by_contra hc
  rw [classify_of_notMem_defined hc] at h
  exact List.not_mem_nil h

end Terminology

/-! ### Graphs that hold a terminology -/

namespace Rdf.Graph

open Terminology

variable {t : Terminology} {fresh : BlankNode.Supply} {g : Graph}
  {c : ClassName} {x : Triple} {s : Node} {p : Iri} {o : Term}

section

variable (hg : ∀ x, x ∈ g ↔ x ∈ t.triples fresh)
include hg

/-- The graph holds declarations, what descriptions say of classes, and what they
say of the nodes that they need. -/
lemma mem_iff_of_holds :
    x ∈ g ↔ (∃ k ∈ t, x ∈ k.triples) ∨
      (∃ c, ∃ y ∈ (t.classify c).entries (t.place fresh c),
        x = ⟨c, y.1.iri, y.2⟩) ∨
      ∃ c, x ∈ (t.classify c).helpers (t.place fresh c) := by
  rw [hg, mem_triples]
  simp only [ClassExpression.mem_triples, exists_or]

/-- What is said in keywords is said by the description of the class. -/
lemma mem_iff_of_keyword {k : Keyword} :
    ⟨c, k.iri, o⟩ ∈ g ↔ (k, o) ∈ (t.classify c).entries (t.place fresh c) := by
  rw [mem_iff_of_holds hg]
  constructor
  · rintro (⟨l, -, hl⟩ | ⟨d, ⟨l, v⟩, hentry, he⟩ | ⟨d, hhelper⟩)
    · exact absurd (Clause.predicate_of_mem_triples hl) k.iri_notMem.1
    · simp only [Triple.mk.injEq, Keyword.iri_inj] at he
      obtain ⟨rfl, rfl, rfl⟩ := he
      exact hentry
    · exact absurd (ClassExpression.predicate_of_mem_helpers hhelper)
        k.iri_notMem.2
  · exact fun h => .inr (.inl ⟨c, _, h, rfl⟩)

/-- What is said of the nodes that a description needs is said by the
description. -/
lemma mem_iff_of_helper (hfresh : Function.Injective2 fresh)
    (hx : x ∈ (t.classify c).helpers (t.place fresh c)) :
    ⟨x.subject, x.predicate, o⟩ ∈ g ↔ x.object = o := by
  obtain ⟨i, hi⟩ := ClassExpression.subject_of_mem_helpers hx
  have hword := ClassExpression.predicate_of_mem_helpers hx
  rw [mem_iff_of_holds hg]
  constructor
  · rintro (⟨l, -, hl⟩ | ⟨d, ⟨l, v⟩, -, he⟩ | ⟨d, hhelper⟩)
    · -- declarations that share a word with it are about IRIs
      exact absurd hi (Clause.subject_ne_blank (x := ⟨x.subject, _, o⟩) hl hword)
    · rw [(Triple.mk.inj he).2.1] at hword
      exact absurd hword l.iri_notMem.2
    · -- no other definition has the node, and this one fills each slot once
      obtain ⟨j, hj⟩ := ClassExpression.subject_of_mem_helpers hhelper
      obtain ⟨rfl, -⟩ := place_inj hfresh (mem_defined_of_mem_helpers hx)
        (Node.blank.inj (hi.symm.trans hj))
      have hplace : Function.Injective (t.place fresh c) := hfresh.right _
      exact Triple.object_eq_of_slots (ClassExpression.nodup_slots_helpers hplace) hx
        hhelper
  · rintro rfl
    exact .inr (.inr ⟨c, hx⟩)

/-- What is said in the words of declarations is said by a declaration, unless
it is about a blank node. -/
lemma mem_iff_of_word (hword : x.predicate ∈ Clause.words)
    (hsubject : x.predicate ∈ ClassExpression.words → ∃ p : Iri, x.subject = p) :
    x ∈ g ↔ ∃ k ∈ t, x ∈ k.triples := by
  rw [mem_iff_of_holds hg]
  refine ⟨?_, .inl⟩
  rintro (h | ⟨d, ⟨l, v⟩, -, rfl⟩ | ⟨d, hhelper⟩)
  · exact h
  · exact absurd hword l.iri_notMem.1
  · obtain ⟨p, hp⟩ := hsubject (ClassExpression.predicate_of_mem_helpers hhelper)
    obtain ⟨i, hi⟩ := ClassExpression.subject_of_mem_helpers hhelper
    simp [hp] at hi

/-- A graph that holds a terminology finds what is said of each class. -/
lemma describes_of_holds (hfresh : Function.Injective2 fresh) (c : ClassName) :
    g.Describes c (t.place fresh c) (t.classify c) where
  value k := object?_eq fun o =>
    (mem_iff_of_keyword hg).trans (mem_iff_lookup ClassExpression.nodup_keywords)
  helper x hx := object?_eq fun o => by
    rw [mem_iff_of_helper hg hfresh hx, Option.some_inj]
  untyped h := by
    have hword : type ∈ Clause.words := by decide
    have hnot : type ∉ ClassExpression.words := by decide
    obtain ⟨k, -, hk⟩ := (mem_iff_of_word hg hword (absurd · hnot)).mp h
    have hobject : (Owl.restriction : Iri) ≠ Owl.transitiveProperty := by decide
    cases k <;>
      simp [Clause.triples, type, Rdfs.subClassOf, Rdfs.subPropertyOf,
        Owl.equivalentClass, Owl.equivalentProperty, Owl.inverseOf, hobject] at hk

/-- The triple of a declaration is in the graph just if it is declared. -/
lemma mem_iff_of_clause {k : Clause} (hk : ⟨s, p, o⟩ ∈ k.triples)
    (hsubject : p ∈ ClassExpression.words → ∃ q : Iri, s = q) :
    ⟨s, p, o⟩ ∈ g ↔ k ∈ t := by
  rw [mem_iff_of_word hg (Clause.predicate_of_mem_triples hk) hsubject]
  constructor
  · rintro ⟨l, hlt, hl⟩
    exact Clause.eq_of_mem_triples hk hl ▸ hlt
  · exact fun hkt => ⟨k, hkt, hk⟩

lemma classes_agree : g.catalog.classes.Agrees t.classes := by
  have hnarrower (c d : ClassName) :
      (c, d) ∈ g.catalog.classes.narrower ↔ (c, d) ∈ t.classes.narrower := by
    rw [mem_narrower_classes, catalog, Edges.mem_flip, mem_links]
    exact mem_iff_of_clause hg List.mem_cons_self (absurd · (by decide))
  have hequivalent (c d : ClassName) :
      (c, d) ∈ g.catalog.classes.equivalent ↔ (c, d) ∈ t.classes.equivalent := by
    rw [mem_equivalent_classes, catalog, mem_links]
    exact mem_iff_of_clause hg List.mem_cons_self (absurd · (by decide))
  exact Hierarchy.agrees_of_declarations (fun c d _ => hnarrower c d) fun c d _ => by
    simp only [Edges.mem_both, hequivalent]

lemma properties_agree : g.catalog.properties.Agrees t.properties := by
  have hnarrower (p q : Property) :
      (p, q) ∈ g.catalog.properties.narrower ↔ (p, q) ∈ t.properties.narrower := by
    rw [mem_narrower_properties, catalog, Edges.mem_flip, mem_propertyLinks]
    exact mem_iff_of_clause hg List.mem_cons_self (absurd · (by decide))
  have hequivalent (p q : Property) :
      (p, q) ∈ g.catalog.properties.equivalent ↔ (p, q) ∈ t.properties.equivalent := by
    rw [mem_equivalent_properties, catalog, mem_propertyLinks]
    exact mem_iff_of_clause hg List.mem_cons_self (absurd · (by decide))
  exact Hierarchy.agrees_of_declarations (fun p q _ => hnarrower p q) fun p q _ => by
    simp only [Edges.mem_both, hequivalent]

lemma mem_inverses_iff (p q : Property) :
    (p, q) ∈ g.catalog.inverses ↔ (p, q) ∈ t.catalog.inverses := by
  rw [mem_inverses, catalog, mem_propertyLinks]
  exact mem_iff_of_clause hg List.mem_cons_self fun _ => ⟨p, rfl⟩

/-- **Agreement**: the catalog of a graph that holds a terminology agrees with
the one of the terminology. -/
theorem catalog_agrees (hfresh : Function.Injective2 fresh)
    (hnamed : ∀ c d, t.definition? c = some (.named d) → d = c) :
    g.catalog.Agrees t.catalog where
  classify c := by
    refine (describes_of_holds hg hfresh c).classify_eq (hfresh.right _)
      fun d hd => ?_
    rw [Terminology.classify] at hd
    cases hdefinition : t.definition? c with
    | none => simp_all
    | some e => exact hnamed c d (by simp_all)
  classes := classes_agree hg
  properties := properties_agree hg
  mem_inversesOf_iff := Catalog.mem_inversesOf_congr fun p q _ => by
    simp only [Edges.mem_both, mem_inverses_iff hg]
  isTransitive_eq := Catalog.isTransitive_congr fun p => by
    rw [mem_transitive, catalog, List.mem_filterMap]
    simp only [mem_subjects, Node.iri?_eq_some_iff, exists_eq_right]
    exact mem_iff_of_clause hg List.mem_cons_self (absurd · (by decide))

end

end Rdf.Graph

namespace Terminology

variable {t : Terminology} {fresh : BlankNode.Supply} {g : Graph}

/-- **Interchangeability**: let no class be defined by the name of another. Then
a graph that holds the triples of a terminology, with different nodes where
nodes are needed, and nothing else, gives every class the same structure; every
look-up has the same answer, and so has every query for the members of a class,
whatever the facts and the limits. -/
theorem graph_interchangeable (hfresh : Function.Injective2 fresh)
    (hnamed : ∀ c d, t.definition? c = some (.named d) → d = c)
    (hg : ∀ x, x ∈ g ↔ x ∈ t.triples fresh) :
    (∀ c, g.catalog.classify c = t.catalog.classify c) ∧
      (∀ c d, d ∈ g.catalog.classes.below c ↔ d ∈ t.catalog.classes.below c) ∧
      (∀ c d, d ∈ g.catalog.classes.equivalents c ↔
        d ∈ t.catalog.classes.equivalents c) ∧
      (∀ p q, q ∈ g.catalog.properties.below p ↔
        q ∈ t.catalog.properties.below p) ∧
      (∀ p q, q ∈ g.catalog.properties.equivalents p ↔
        q ∈ t.catalog.properties.equivalents p) ∧
      (∀ p q, q ∈ g.catalog.inversesOf p ↔ q ∈ t.catalog.inversesOf p) ∧
      (∀ p, g.catalog.isTransitive p = t.catalog.isTransitive p) ∧
      ∀ (r : Reasoner) (c : ClassName),
        Reasoner.members { r with catalog := g.catalog } c =
          Reasoner.members { r with catalog := t.catalog } c := by
  have h : g.catalog.Agrees t.catalog :=
    Graph.catalog_agrees hg hfresh hnamed
  refine ⟨h.classify, ?_, ?_, ?_, ?_, ?_, h.isTransitive_eq, h.members_eq⟩
  · exact fun _ _ => h.classes.mem_below_iff
  · exact fun _ _ => h.classes.mem_equivalents_iff
  · exact fun _ _ => h.properties.mem_below_iff
  · exact fun _ _ => h.properties.mem_equivalents_iff
  · intro p q
    rw [h.inversesOf_eq]

/-- Byron is a parent, as he is somebody's father, whether this is read off the
terminology or off its graph. -/
theorem graph_interchangeable_of_parents :
    let hasParent : Property := ⟨"e:hasParent"⟩
    let hasFather : Property := ⟨"e:hasFather"⟩
    let person : ClassName := .iri ⟨"e:Person"⟩
    let poet : ClassName := .iri ⟨"e:Poet"⟩
    let parent : ClassName := .iri ⟨"e:Parent"⟩
    let ada : Individual := .iri ⟨"e:ada"⟩
    let byron : Individual := .iri ⟨"e:byron"⟩
    let t : Terminology := [
      .define parent (.restriction ⟨.inverse hasParent,
        .count (.atLeast 1) (some person),
        by simp [Constraint.Ordered, Constraint.count?, Count.max?]⟩),
      .define parent (.complement person),
      .define person (.union [poet, poet]),
      .equivalentClasses poet poet,
      .subProperty hasFather hasParent]
    let f : Facts := {
      individuals := [ada, byron]
      types := [(ada, poet)]
      assertions := [⟨.positive, ada, hasFather, .node byron⟩] }
    Reasoner.members { facts := f, catalog := t.graph.catalog } parent =
      .ok [byron] := by
  intro hasParent hasFather person poet parent ada byron t f
  have hfresh : Function.Injective2 BlankNode.minted :=
    fun _ _ _ _ h => BlankNode.minted.inj h
  have hnamed : ∀ c d, t.definition? c = some (.named d) → d = c := by
    intro c d h
    simp only [definition?, t, List.findSome?_cons, List.findSome?_nil] at h
    grind
  have hmembers : Reasoner.members { facts := f, catalog := t.catalog } parent =
      .ok [byron] := by
    decide +kernel
  have h := graph_interchangeable hfresh hnamed fun _ => mem_graph
  exact (h.2.2.2.2.2.2.2 { facts := f, catalog := t.catalog } parent).trans hmembers

end Terminology

end Ontology
