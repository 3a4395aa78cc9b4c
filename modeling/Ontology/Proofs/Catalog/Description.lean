/-
Descriptions of classes: what they say, and that they are read back.

* `Keyword.iri_inj`, `Keyword.iri_notMem`: keywords have IRIs of their
  own.
* `ClassExpression.entries`, `helpers`: what a description says of the class,
  by keywords, and what it says of the nodes that it needs besides;
  `mem_triples`: it says nothing else.
* `Graph.Describes`: a graph finds what a description says of a class, and
  nothing else; `Describes.classify_eq`: so it gives the class its structure.
-/
import Ontology.Proofs.Catalog.Literals
import Ontology.Proofs.Rdf.Collection

namespace Ontology

open Rdf (Triple Node BlankNode Term Graph Iri)

/-! ### Words -/

namespace Keyword

/-- All keywords. -/
def all : List Keyword :=
  [onProperty, onProperties, onDataRange, onClass, cardinality, minCardinality,
    maxCardinality, qualifiedCardinality, minQualifiedCardinality,
    maxQualifiedCardinality, allValuesFrom, someValuesFrom, hasValue, hasSelf,
    unionOf, intersectionOf, complementOf, oneOf]

/-- The keywords of counts. -/
def counts : List Keyword :=
  [cardinality, minCardinality, maxCardinality, qualifiedCardinality,
    minQualifiedCardinality, maxQualifiedCardinality]

lemma mem_all (k : Keyword) : k ∈ all := by
  cases k <;> simp [all]

/-- Keywords have different names. -/
lemma name_injective {k l : Keyword} (h : k.name = l.name) : k = l :=
  (by decide +kernel : ∀ k ∈ all, ∀ l ∈ all, k.name = l.name → k = l)
    k (mem_all k) l (mem_all l) h

/-- Keywords have different IRIs. -/
@[simp] lemma iri_inj {k l : Keyword} : k.iri = l.iri ↔ k = l := by
  refine ⟨fun h => name_injective ?_, congrArg iri⟩
  exact (String.append_right_inj _).mp (Rdf.Iri.mk.inj h)

end Keyword

/-- The words of declarations. -/
def Clause.words : List Iri :=
  [Rdf.type, Rdfs.subClassOf, Rdfs.subPropertyOf, Owl.equivalentClass,
    Owl.equivalentProperty, Owl.inverseOf]

/-- The words for the nodes that a description needs. -/
def ClassExpression.words : List Iri := [Rdf.first, Rdf.rest, Owl.inverseOf]

/-- No keyword is a word of another kind. -/
lemma Keyword.iri_notMem (k : Keyword) :
    k.iri ∉ Clause.words ∧ k.iri ∉ ClassExpression.words :=
  (by decide +kernel : ∀ k ∈ all,
    k.iri ∉ Clause.words ∧ k.iri ∉ ClassExpression.words) k (mem_all k)

/-! ### What a description says -/

/-- Where keys are listed once, a key is found with its value. -/
lemma mem_iff_lookup {α β : Type} [DecidableEq α] {l : List (α × β)}
    (h : (l.map (·.1)).Nodup) {k : α} {v : β} :
    (k, v) ∈ l ↔ l.lookup k = some v := by
  induction l with
  | nil => simp
  | cons y l ih =>
    obtain ⟨k', v'⟩ := y
    obtain ⟨hk', hl⟩ := List.nodup_cons.mp h
    by_cases hk : k = k'
    · subst hk
      have hnot : (k, v) ∉ l := fun hv => hk' (List.mem_map.mpr ⟨_, hv, rfl⟩)
      simp [hnot, eq_comm]
    · simp [List.lookup_cons, beq_false_of_ne hk, hk, ih hl]

/-- The bounds of a count, by keywords. -/
def Count.bounds (exact min max : Keyword) : Count → List (Keyword × UInt32)
  | exactly k => [(exact, k)]
  | atLeast k => [(min, k)]
  | atMost k => [(max, k)]
  | between j k => [(min, j), (max, k)]

namespace Constraint

/-- The bounds of a constraint, by keywords. -/
def bounds : Constraint → List (Keyword × UInt32)
  | count c none => c.bounds .cardinality .minCardinality .maxCardinality
  | count c (some _) =>
    c.bounds .qualifiedCardinality .minQualifiedCardinality
      .maxQualifiedCardinality
  | _ => []

/-- What a constraint names besides bounds, by keywords. -/
def values : Constraint → List (Keyword × Term)
  | count _ none => []
  | count _ (some filler) => [(.onClass, filler)]
  | allValuesFrom filler => [(.allValuesFrom, filler)]
  | someValuesFrom filler => [(.someValuesFrom, filler)]
  | hasValue v => [(.hasValue, v)]
  | hasSelf self => [(.hasSelf, truthLiteral self)]

/-- What a constraint demands, by keywords. -/
def entries (x : Constraint) : List (Keyword × Term) :=
  x.bounds.map (fun y => (y.1, .literal (countLiteral y.2))) ++ x.values

lemma triples_eq (n : Node) (x : Constraint) :
    x.triples n = x.entries.map fun y => ⟨n, y.1.iri, y.2⟩ := by
  cases x with
  | count c onClass => cases c <;> cases onClass <;> rfl
  | _ => rfl

lemma nodup_keywords (x : Constraint) : (x.entries.map (·.1)).Nodup := by
  cases x with
  | count c onClass =>
    cases c <;> cases onClass <;> simp [entries, bounds, values, Count.bounds]
  | _ => simp [entries, bounds, values]

/-- Constraints do not name properties or data ranges. -/
lemma lookup_eq_none (x : Constraint) :
    ∀ k ∈ [Keyword.onProperty, .onProperties, .onDataRange],
      x.entries.lookup k = none := by
  simp only [List.forall_mem_cons, List.not_mem_nil, false_imp_iff, implies_true,
    and_true]
  cases x with
  | count c onClass => cases c <;> cases onClass <;> exact ⟨rfl, rfl, rfl⟩
  | _ => exact ⟨rfl, rfl, rfl⟩

/-- The keywords of counts have bounds as values. -/
lemma lookup_of_mem_counts (x : Constraint) :
    ∀ k ∈ Keyword.counts,
      x.entries.lookup k = (x.bounds.lookup k).map (.literal <| countLiteral ·) := by
  simp only [Keyword.counts, List.forall_mem_cons, List.not_mem_nil,
    false_imp_iff, implies_true, and_true]
  cases x with
  | count c onClass =>
    cases c <;> cases onClass <;> exact ⟨rfl, rfl, rfl, rfl, rfl, rfl⟩
  | _ => exact ⟨rfl, rfl, rfl, rfl, rfl, rfl⟩

end Constraint

/-- The node that stands for a role. -/
def Role.node (backwards : BlankNode) : Role → Node
  | direct p => p
  | inverse _ => backwards

namespace ClassExpression

/-- What the description of a class says of the class, by keywords. -/
def entries (place : ℕ → BlankNode) : ClassExpression → List (Keyword × Term)
  | named _ => []
  | restriction r =>
    (.onProperty, r.role.node (place 0)) :: r.constraint.entries
  | union members => [(.unionOf, Rdf.listHead place 0 (members.map .node))]
  | intersection members =>
    [(.intersectionOf, Rdf.listHead place 0 (members.map .node))]
  | complement member => [(.complementOf, member)]
  | oneOf individuals => [(.oneOf, Rdf.listHead place 0 (individuals.map .node))]

/-- What the description of a class says of the nodes that it needs. -/
def helpers (place : ℕ → BlankNode) : ClassExpression → List Triple
  | named _ => []
  | restriction ⟨.direct _, _, _⟩ => []
  | restriction ⟨.inverse p, _, _⟩ => [⟨place 0, Owl.inverseOf, p⟩]
  | union members => Rdf.listTriples place 0 (members.map .node)
  | intersection members => Rdf.listTriples place 0 (members.map .node)
  | complement _ => []
  | oneOf individuals => Rdf.listTriples place 0 (individuals.map .node)

variable {e : ClassExpression} {n : Node} {place : ℕ → BlankNode} {x : Triple}

/-- A description says nothing else. -/
lemma mem_triples :
    x ∈ e.triples n place ↔
      (∃ y ∈ e.entries place, x = ⟨n, y.1.iri, y.2⟩) ∨ x ∈ e.helpers place := by
  cases e with
  | named c => simp [triples, entries, helpers]
  | restriction r =>
    obtain ⟨role, constraint, hordered⟩ := r
    cases role <;>
      simp [triples, entries, helpers, Role.triples, Role.node,
        Constraint.triples_eq, eq_comm, or_left_comm, or_comm]
  | union cs => simp [triples, listedTriples, entries, helpers]
  | intersection cs => simp [triples, listedTriples, entries, helpers]
  | complement c => simp [triples, entries, helpers]
  | oneOf is => simp [triples, listedTriples, entries, helpers]

/-- A description says one thing only under each keyword. -/
lemma nodup_keywords : ((e.entries place).map (·.1)).Nodup := by
  cases e with
  | restriction r =>
    refine List.nodup_cons.mpr ⟨fun hmem => ?_, r.constraint.nodup_keywords⟩
    obtain ⟨y, hy, hkeyword⟩ := List.mem_map.mp hmem
    have hnone := List.lookup_eq_none_iff.mp
      (r.constraint.lookup_eq_none .onProperty (by simp)) y hy
    simp [hkeyword] at hnone
  | _ => simp [entries]

/-- A description needs no further nodes, the inverse of a property, or the
cells of a list. -/
lemma helpers_cases (e : ClassExpression) (place : ℕ → BlankNode) :
    e.helpers place = [] ∨
      (∃ p : Iri, e.helpers place = [⟨place 0, Owl.inverseOf, p⟩]) ∨
      ∃ items, e.helpers place = Rdf.listTriples place 0 items := by
  cases e with
  | named c => exact .inl rfl
  | restriction r =>
    obtain ⟨role, constraint, hordered⟩ := r
    cases role with
    | direct p => exact .inl rfl
    | inverse p => exact .inr (.inl ⟨p, rfl⟩)
  | union cs => exact .inr (.inr ⟨_, rfl⟩)
  | intersection cs => exact .inr (.inr ⟨_, rfl⟩)
  | complement c => exact .inl rfl
  | oneOf is => exact .inr (.inr ⟨_, rfl⟩)

/-- The further nodes of a description are at their places. -/
lemma subject_of_mem_helpers (h : x ∈ e.helpers place) :
    ∃ i, x.subject = .blank (place i) := by
  rcases e.helpers_cases place with he | ⟨p, he⟩ | ⟨items, he⟩ <;> rw [he] at h
  · exact absurd h List.not_mem_nil
  · exact ⟨0, by rw [List.mem_singleton.mp h]⟩
  · obtain ⟨m, -, hm⟩ := Rdf.subject_of_mem_listTriples h
    exact ⟨m, hm⟩

lemma predicate_of_mem_helpers (h : x ∈ e.helpers place) :
    x.predicate ∈ words := by
  rcases e.helpers_cases place with he | ⟨p, he⟩ | ⟨items, he⟩ <;> rw [he] at h
  · exact absurd h List.not_mem_nil
  · simp [List.mem_singleton.mp h, words]
  · rcases Rdf.predicate_of_mem_listTriples h with hx | hx <;> simp [hx, words]

/-- A description says one thing only of each of its further nodes. -/
lemma nodup_slots_helpers (hplace : Function.Injective place) :
    ((e.helpers place).map Triple.slot).Nodup := by
  rcases e.helpers_cases place with he | ⟨p, he⟩ | ⟨items, he⟩ <;> rw [he]
  · exact .nil
  · exact List.nodup_singleton _
  · exact Rdf.nodup_slots_listTriples hplace

end ClassExpression

/-! ### Reading -/

namespace Rdf.Graph

variable {g : Graph} {c n : Node} {k : Keyword} {e : ClassExpression}
  {place : ℕ → BlankNode}

/-- A graph finds what the description of a class says of it, and nothing
else. -/
structure Describes (g : Graph) (c : Node) (place : ℕ → BlankNode)
    (e : ClassExpression) : Prop where
  value : ∀ k, g.value? c k = (e.entries place).lookup k
  helper : ∀ x ∈ e.helpers place, g.object? x.subject x.predicate = some x.object
  untyped : ⟨c, type, Owl.restriction⟩ ∉ g

lemma count?_eq {v : Option UInt32}
    (h : g.value? n k = v.map (.literal <| countLiteral ·)) :
    g.count? n k = .ok v := by
  cases v with
  | none => simp [count?, h]
  | some m => simp [count?, h, readCount?_text_countLiteral]

lemma class?_eq {v : Option ClassName} (h : g.value? n k = v.map .node) :
    g.class? n k = .ok v := by
  cases v <;> simp [class?, h]

/-- The role of a restriction is read back. -/
lemma role_eq {r : Role} {b : BlankNode}
    (h : g.value? n .onProperty = some (r.node b))
    (hinverse : ∀ p, r = .inverse p → g.object? b Owl.inverseOf = some p) :
    g.role n = .ok r := by
  cases r with
  | direct p => simp [role, h, Role.node]
  | inverse p => simp [role, h, Role.node, hinverse p rfl]

/-- A constraint that counts nothing is read back. -/
lemma fillerConstraint_eq {x : Constraint} (hx : x.count? = none)
    (h : ∀ k, k ≠ .onProperty → g.value? n k = x.entries.lookup k) :
    g.fillerConstraint n = .ok x := by
  cases x with
  | count c onClass => cases hx
  | allValuesFrom filler =>
    have hall : g.class? n .allValuesFrom = .ok (some filler) :=
      class?_eq (h _ (by decide))
    simp only [fillerConstraint, hall]
    rfl
  | someValuesFrom filler =>
    have hall : g.class? n .allValuesFrom = .ok none :=
      class?_eq (h _ (by decide))
    have hsome : g.class? n .someValuesFrom = .ok (some filler) :=
      class?_eq (h _ (by decide))
    simp only [fillerConstraint, hall, hsome]
    rfl
  | hasValue v =>
    have hall : g.class? n .allValuesFrom = .ok none :=
      class?_eq (h _ (by decide))
    have hsome : g.class? n .someValuesFrom = .ok none :=
      class?_eq (h _ (by decide))
    have hvalue : g.value? n .hasValue = some v := h _ (by decide)
    simp only [fillerConstraint, hall, hsome, hvalue]
    rfl
  | hasSelf self =>
    have hall : g.class? n .allValuesFrom = .ok none :=
      class?_eq (h _ (by decide))
    have hsome : g.class? n .someValuesFrom = .ok none :=
      class?_eq (h _ (by decide))
    have hvalue : g.value? n .hasValue = none := h _ (by decide)
    have hself : g.value? n .hasSelf = some (.literal (truthLiteral self)) :=
      h _ (by decide)
    simp only [fillerConstraint, hall, hsome, hvalue, hself,
      readTruth?_truthLiteral]
    rfl

/-- The constraint of a restriction is read back. -/
lemma constraint_eq {x : Constraint}
    (h : ∀ k, k ≠ .onProperty → g.value? n k = x.entries.lookup k) :
    g.constraint n = .ok x := by
  -- all six counts are read first, whatever the constraint
  have hcount : ∀ k ∈ Keyword.counts, g.count? n k = .ok (x.bounds.lookup k) := by
    intro k hk
    have hne : k ≠ .onProperty := by
      rintro rfl
      simp [Keyword.counts] at hk
    exact count?_eq ((h k hne).trans (x.lookup_of_mem_counts k hk))
  simp only [Keyword.counts, List.forall_mem_cons] at hcount
  obtain ⟨h1, h2, h3, h4, h5, h6, -⟩ := hcount
  simp only [constraint, h1, h2, h3, h4, h5, h6]
  cases x with
  | count c onClass =>
    cases onClass with
    | none => cases c <;> rfl
    | some filler =>
      have honClass : g.onClass n = .ok filler := by
        have hclass : g.class? n .onClass = .ok (some filler) :=
          class?_eq ((h .onClass (by decide)).trans (by cases c <;> rfl))
        simp only [onClass, hclass]
        rfl
      cases c <;> simp only [honClass] <;> rfl
  | _ => exact fillerConstraint_eq rfl h

lemma nodeItems_eq {head : Term} {nodes : List Node}
    (h : g.readList head = .ok (nodes.map .node)) (expected : Expected) :
    g.nodeItems n k expected head = .ok nodes := by
  simp only [nodeItems, items, h]
  show (nodes.map Term.node).mapM _ = _
  rw [List.mapM_map]
  exact (List.mapM_pure (f := id)).trans (congrArg Except.ok (List.map_id nodes))

namespace Describes

/-- What is said of a restriction besides its role is said by the constraint. -/
lemma value_of_ne {r : Restriction} (h : g.Describes c place (.restriction r))
    (hk : k ≠ .onProperty) : g.value? c k = r.constraint.entries.lookup k := by
  rw [h.value, ClassExpression.entries, List.lookup_cons, beq_false_of_ne hk]

/-- The restriction that a class is, is read back. -/
lemma restriction_eq {r : Restriction} (h : g.Describes c place (.restriction r)) :
    g.restriction c = .ok r := by
  have hrole : g.role c = .ok r.role := by
    refine role_eq (h.value .onProperty) fun p hp => ?_
    obtain ⟨role, constraint, hordered⟩ := r
    obtain rfl : role = .inverse p := hp
    exact h.helper _ List.mem_cons_self
  have hconstraint : g.constraint c = .ok r.constraint :=
    constraint_eq fun _ hk => h.value_of_ne hk
  have hof : Restriction.of r.role r.constraint = .ok r :=
    Restriction.of_eq_ok_iff.mpr ⟨rfl, rfl⟩
  have hproperties : g.value? c .onProperties = none :=
    (h.value_of_ne (by decide)).trans (r.constraint.lookup_eq_none _ (by simp))
  have hrange : g.value? c .onDataRange = none :=
    (h.value_of_ne (by decide)).trans (r.constraint.lookup_eq_none _ (by simp))
  simp [restriction, hproperties, hrange, hrole, hconstraint, hof, bind,
    Except.bind, pure, Except.pure]

lemma isRestriction_eq (h : g.Describes c place e) :
    g.isRestriction c = e.restriction?.isSome := by
  cases e <;>
    simp [isRestriction, h.untyped, h.value, ClassExpression.entries,
      ClassExpression.restriction?]

/-- **Descriptions are read back**: a graph that finds what the description of a
class says gives the class its structure. -/
theorem classify_eq (h : g.Describes c place e)
    (hplace : Function.Injective place) (hnamed : ∀ d, e = .named d → d = c) :
    g.classify c = .ok e := by
  have hrestriction := h.isRestriction_eq
  cases e with
  | named d =>
    obtain rfl := hnamed d rfl
    have hunion : g.value? d .unionOf = none := h.value _
    have hintersection : g.value? d .intersectionOf = none := h.value _
    have hcomplement : g.class? d .complementOf = .ok none :=
      class?_eq (h.value _)
    have honeOf : g.value? d .oneOf = none := h.value _
    simp only [classify, hrestriction, hunion, hintersection, hcomplement, honeOf]
    rfl
  | restriction r =>
    simp only [classify, hrestriction, h.restriction_eq]
    rfl
  | union cs =>
    have hunion : g.value? c .unionOf = some _ := h.value _
    have hitems := readList_listHead hplace h.helper
    simp only [classify, hrestriction, hunion, nodeItems_eq hitems]
    rfl
  | intersection cs =>
    have hunion : g.value? c .unionOf = none := h.value _
    have hintersection : g.value? c .intersectionOf = some _ := h.value _
    have hitems := readList_listHead hplace h.helper
    simp only [classify, hrestriction, hunion, hintersection, nodeItems_eq hitems]
    rfl
  | complement d =>
    have hunion : g.value? c .unionOf = none := h.value _
    have hintersection : g.value? c .intersectionOf = none := h.value _
    have hcomplement : g.class? c .complementOf = .ok (some d) :=
      class?_eq (h.value _)
    simp only [classify, hrestriction, hunion, hintersection, hcomplement]
    rfl
  | oneOf is =>
    have hunion : g.value? c .unionOf = none := h.value _
    have hintersection : g.value? c .intersectionOf = none := h.value _
    have hcomplement : g.class? c .complementOf = .ok none :=
      class?_eq (h.value _)
    have honeOf : g.value? c .oneOf = some _ := h.value _
    have hitems := readList_listHead hplace h.helper
    simp only [classify, hrestriction, hunion, hintersection, hcomplement, honeOf,
      nodeItems_eq hitems]
    rfl

end Describes

end Rdf.Graph

end Ontology
