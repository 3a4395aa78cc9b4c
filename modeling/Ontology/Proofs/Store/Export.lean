/-
Facts are read off the graph of their export.

* `eq_of_denialTriples_subset`, `nodup_slots_denialTriples`,
  `nodup_slots_groupTriples`: what the triples of a denial and those of a group
  say of the nodes made for them; `denialWords`, `groupWords`: the words by which
  they say it; `Triple.Plain`: all other triples.
* `Facts.Says`: the triples of an export, one case for each kind of fact.
* `Facts.words`, `Facts.kinds`, `Facts.Exportable`: the words by which an export
  tells the kinds apart, and facts that do not use them; `Says.of_new`: what is said
  of nodes made for an export; `Says.of_plain`, `Says.of_mark`: the other triples are
  told apart by their predicates.
* `Facts.Exported`: a graph holds an export, whose nodes are new;
  `Exported.denial_eq`, `Exported.group_eq`: a denial and a group are determined
  by what is said of the nodes made for them.
* `Facts.ReadOff`: what facts hold is read off a graph, whatever the nodes are;
  `Exported.readOff`: **it is read off the graph of their export**.
-/
import Ontology.Proofs.Rdf.Collection
import Ontology.Store.Export

namespace Ontology

open Rdf (Triple Node BlankNode Term Graph Iri)

/-! ### Denials and groups -/

section

variable {node : BlankNode} {place : ℕ → BlankNode} {a b : Assertion}
  {members : List Individual} {t : Triple}

/-- A denial is determined by what is said of its node. -/
lemma eq_of_denialTriples_subset (hpolarity : a.polarity = b.polarity)
    (h : ∀ t ∈ denialTriples node a, t ∈ denialTriples node b) : a = b := by
  obtain ⟨polarity, s, p, v⟩ := a
  obtain ⟨polarity', s', p', v'⟩ := b
  cases v <;> cases v' <;>
    simp_all [denialTriples, Owl.sourceIndividual, Owl.assertionProperty,
      Owl.targetIndividual, Owl.targetValue, Rdf.type]

/-- A denial says one thing only by each property. -/
lemma nodup_slots_denialTriples : ((denialTriples node a).map Triple.slot).Nodup := by
  obtain ⟨polarity, s, p, v⟩ := a
  cases v <;>
    simp [denialTriples, Triple.slot, Owl.sourceIndividual, Owl.assertionProperty,
      Owl.targetIndividual, Owl.targetValue, Rdf.type]

/-- The triples of a group are about the nodes at its places. -/
lemma subject_of_mem_groupTriples (h : t ∈ groupTriples place members) :
    ∃ n, t.subject = .blank (place n) := by
  rcases List.mem_cons.mp h with rfl | h
  · exact ⟨0, rfl⟩
  · rcases List.mem_cons.mp h with rfl | h
    · exact ⟨0, rfl⟩
    · obtain ⟨n, -, hn⟩ := Rdf.subject_of_mem_listTriples h
      exact ⟨n, hn⟩

/-- A group says one thing only by each property of the node at each place. -/
lemma nodup_slots_groupTriples (hplace : Function.Injective place) :
    ((groupTriples place members).map Triple.slot).Nodup := by
  have hlist (p : Iri) : (.blank (place 0), p) ∉
      (Rdf.listTriples place 1 (members.map Term.node)).map Triple.slot := by
    intro h
    obtain ⟨x, hx, hslot⟩ := List.mem_map.mp h
    obtain ⟨m, hm, hsubject⟩ := Rdf.subject_of_mem_listTriples hx
    have := hplace (Node.blank.inj (hsubject.symm.trans (congrArg Prod.fst hslot)))
    omega
  simp only [groupTriples, List.map_cons, List.nodup_cons, List.mem_cons, not_or]
  exact ⟨⟨by simp [Triple.slot, Rdf.type, Owl.distinctMembers], hlist _⟩, hlist _,
    Rdf.nodup_slots_listTriples hplace⟩

/-- The properties by which a denial is written, apart from its mark. -/
def denialWords : List Iri :=
  [Owl.sourceIndividual, Owl.assertionProperty, Owl.targetIndividual, Owl.targetValue]

/-- The properties by which a group is written, apart from its mark. -/
def groupWords : List Iri := [Owl.distinctMembers, Rdf.first, Rdf.rest]

/-- A triple of a denial marks its node, or is written by a word of denials. -/
lemma eq_mark_or_mem_denialWords (h : t ∈ denialTriples node a) :
    t = ⟨node, Rdf.type, Owl.negativePropertyAssertion⟩ ∨ t.predicate ∈ denialWords := by
  obtain ⟨polarity, s, p, v⟩ := a
  cases v <;>
    simp only [denialTriples, List.mem_cons, List.not_mem_nil, or_false] at h <;>
    obtain rfl | rfl | rfl | rfl := h <;> simp [denialWords]

/-- A triple of a group marks the node at its first place, or is written by a word
of groups. -/
lemma eq_mark_or_mem_groupWords (h : t ∈ groupTriples place members) :
    t = ⟨place 0, Rdf.type, Owl.allDifferent⟩ ∨ t.predicate ∈ groupWords := by
  rcases List.mem_cons.mp h with rfl | h
  · exact .inl rfl
  · rcases List.mem_cons.mp h with rfl | h
    · simp [groupWords]
    · rcases Rdf.predicate_of_mem_listTriples h with hp | hp <;> simp [groupWords, hp]

/-- Triples that are neither those of a denial nor those of a group. -/
structure Rdf.Triple.Plain (t : Triple) : Prop where
  predicate : t.predicate ∉ denialWords ++ groupWords
  mark : t.predicate = Rdf.type →
    t.object ≠ Owl.negativePropertyAssertion ∧ t.object ≠ Owl.allDifferent

lemma not_plain_of_mem_denialTriples (h : t ∈ denialTriples node a) : ¬ t.Plain := by
  intro hplain
  rcases eq_mark_or_mem_denialWords h with rfl | hword
  · exact (hplain.mark rfl).1 rfl
  · exact hplain.predicate (List.mem_append_left _ hword)

lemma not_plain_of_mem_groupTriples (h : t ∈ groupTriples place members) :
    ¬ t.Plain := by
  intro hplain
  rcases eq_mark_or_mem_groupWords h with rfl | hword
  · exact (hplain.mark rfl).2 rfl
  · exact hplain.predicate (List.mem_append_right _ hword)

end

namespace Facts

variable {f : Facts} {fresh : BlankNode.Supply} {g : Graph} {t : Triple} {s : Node}
  {p : Iri} {v w : Term}

/-! ### Exports -/

lemma mem_denials {a : Assertion} :
    a ∈ f.denials ↔ a ∈ f.assertions ∧ a.polarity = .negative := by
  simp [denials]

/-- The triples of an export, one case for each kind of fact. -/
inductive Says (f : Facts) (fresh : BlankNode.Supply) : Triple → Prop
  | individual {i : Individual} (hi : i ∈ f.individuals) (hiri : i.iri?.isSome) :
    Says f fresh ⟨i, Rdf.type, Owl.namedIndividual⟩
  | instanceOf {i : Individual} {c : ClassName} (hc : (i, c) ∈ f.types) :
    Says f fresh ⟨i, Rdf.type, c⟩
  | assertion {s : Individual} {p : Property} {v : Term}
    (ha : ⟨.positive, s, p, v⟩ ∈ f.assertions) : Says f fresh ⟨s, p, v⟩
  | denial {n : ℕ} {a : Assertion} {t : Triple} (ha : f.denials[n]? = some a)
    (ht : t ∈ denialTriples (fresh 0 n) a) : Says f fresh t
  | sameAs {a b : Individual} (hab : (a, b) ∈ f.sameAs) :
    Says f fresh ⟨a, Owl.sameAs, b⟩
  | differentFrom {a b : Individual} (hab : (a, b) ∈ f.differentFrom) :
    Says f fresh ⟨a, Owl.differentFrom, b⟩
  | group {n : ℕ} {members : List Individual} {t : Triple}
    (hm : f.groups[n]? = some members)
    (ht : t ∈ groupTriples (fresh (n + 1)) members) : Says f fresh t
  | note {s : Individual} {p : Property} {v : Term} (hn : ⟨s, p, v⟩ ∈ f.notes) :
    Says f fresh ⟨s, p, v⟩

lemma mem_triples_iff : t ∈ f.triples fresh ↔ f.Says fresh t := by
  simp only [triples, List.mem_append, List.mem_map, List.mem_filter,
    List.mem_flatMap, List.mem_zipIdx_iff_getElem?, decide_eq_true_eq, or_assoc]
  constructor
  · rintro (⟨i, ⟨hi, hiri⟩, rfl⟩ | ⟨x, hx, rfl⟩ | ⟨⟨polarity, s, p, v⟩, ⟨ha, rfl⟩, rfl⟩ |
      ⟨x, hx, ht⟩ | ⟨e, he, rfl⟩ | ⟨e, he, rfl⟩ | ⟨x, hx, ht⟩ | ⟨n, hn, rfl⟩)
    · exact .individual hi hiri
    · exact .instanceOf hx
    · exact .assertion ha
    · exact .denial hx ht
    · exact .sameAs he
    · exact .differentFrom he
    · exact .group hx ht
    · exact .note hn
  · intro h
    cases h with
    | individual hi hiri => exact .inl ⟨_, ⟨hi, hiri⟩, rfl⟩
    | instanceOf hc => exact .inr (.inl ⟨_, hc, rfl⟩)
    | assertion ha => exact .inr (.inr (.inl ⟨_, ⟨ha, rfl⟩, rfl⟩))
    | denial ha ht => exact .inr (.inr (.inr (.inl ⟨(_, _), ha, ht⟩)))
    | sameAs hab => exact .inr (.inr (.inr (.inr (.inl ⟨_, hab, rfl⟩))))
    | differentFrom hab =>
      exact .inr (.inr (.inr (.inr (.inr (.inl ⟨_, hab, rfl⟩)))))
    | group hm ht =>
      exact .inr (.inr (.inr (.inr (.inr (.inr (.inl ⟨(_, _), hm, ht⟩))))))
    | note hn => exact .inr (.inr (.inr (.inr (.inr (.inr (.inr ⟨_, hn, rfl⟩))))))

/-- The properties by which an export says something else than that an assertion
or a note holds. -/
def words : List Iri :=
  [Rdf.type, Rdf.first, Rdf.rest, Owl.sameAs, Owl.differentFrom, Owl.distinctMembers,
    Owl.sourceIndividual, Owl.assertionProperty, Owl.targetIndividual,
    Owl.targetValue]

/-- The classes by which an export marks individuals with an IRI, groups and
denials. -/
def kinds : List ClassName :=
  [.iri Owl.namedIndividual, .iri Owl.allDifferent, .iri Owl.negativePropertyAssertion]

/-- Facts that do not use the words of an export. -/
structure Exportable (f : Facts) : Prop where
  assertions : ∀ a ∈ f.assertions, a.polarity = .positive → a.property ∉ words
  notes : ∀ n ∈ f.notes, n.property ∉ words
  types : ∀ x ∈ f.types, x.2 ∉ kinds

/-- The nodes that facts mention. -/
def nodes (f : Facts) : List Node :=
  f.individuals ++ f.types.flatMap (fun x => [x.1, x.2]) ++
    f.assertions.flatMap Assertion.individuals ++
    (f.sameAs ++ f.differentFrom).flatMap (fun e => [e.1, e.2]) ++ f.groups.flatten ++
    f.notes.flatMap fun n => n.subject :: n.value.node?.toList

/-- A graph holds the export of facts. The nodes that were made for it differ from
each other and from those that the facts mention. -/
structure Exported (f : Facts) (fresh : BlankNode.Supply) (g : Graph) : Prop where
  mem_iff : ∀ t, t ∈ g ↔ t ∈ f.triples fresh
  injective : Function.Injective2 fresh
  new : ∀ n m, .blank (fresh n m) ∉ f.nodes

lemma mem_nodes_of_assertion {a : Assertion} (ha : a ∈ f.assertions) {i : Individual}
    (hi : i ∈ a.individuals) : i ∈ f.nodes := by
  simp only [nodes, List.mem_append, List.mem_flatMap]
  grind

lemma mem_nodes_of_group {members : List Individual} (hm : members ∈ f.groups)
    {i : Individual} (hi : i ∈ members) : i ∈ f.nodes := by
  simp only [nodes, List.mem_append, List.mem_flatten]
  grind

/-- A class that is no mark of an export makes a plain triple, and so does the mark
of an individual. -/
lemma plain_of_type (i : Individual) {c : ClassName}
    (hc : c = Owl.namedIndividual ∨ c ∉ kinds) :
    Triple.Plain ⟨i, Rdf.type, .node c⟩ where
  predicate := show Rdf.type ∉ _ by decide
  mark _ := by
    rcases hc with rfl | hc
    · simp [Owl.namedIndividual, Owl.negativePropertyAssertion, Owl.allDifferent]
    · simp_all [kinds]

/-- A pair of names makes a plain triple. -/
lemma plain_of_pair (a b : Individual) :
    Triple.Plain ⟨a, Owl.sameAs, .node b⟩ ∧ Triple.Plain ⟨a, Owl.differentFrom, .node b⟩ :=
  ⟨⟨show Owl.sameAs ∉ _ by decide,
      fun h => absurd h (show Owl.sameAs ≠ Rdf.type by decide)⟩,
    ⟨show Owl.differentFrom ∉ _ by decide,
      fun h => absurd h (show Owl.differentFrom ≠ Rdf.type by decide)⟩⟩

/-- A property that is no word of an export makes plain triples. -/
lemma plain_of_notMem_words (hp : p ∉ words) : Triple.Plain ⟨s, p, v⟩ where
  predicate := by simp_all [words, denialWords, groupWords]
  mark h := by simp_all [words]

namespace Says

/-- What is said is about nodes that the facts mention, or else belongs to a denial
or to a group. -/
lemma mem_nodes_or (h : f.Says fresh t) :
    (t.subject ∈ f.nodes ∧ ∀ b, t.object = .node (.blank b) → .blank b ∈ f.nodes) ∨
      (∃ n a, f.denials[n]? = some a ∧ t ∈ denialTriples (fresh 0 n) a) ∨
      ∃ n members, f.groups[n]? = some members ∧
        t ∈ groupTriples (fresh (n + 1)) members := by
  simp only [nodes, List.mem_append, List.mem_flatMap]
  cases h with
  | denial ha ht => exact .inr (.inl ⟨_, _, ha, ht⟩)
  | group hm ht => exact .inr (.inr ⟨_, _, hm, ht⟩)
  | _ =>
    left
    grind [Assertion.individuals, Rdf.Term.node?]

/-- Plain triples are about nodes that the facts mention. -/
lemma mem_nodes (h : f.Says fresh t) (ht : t.Plain) :
    t.subject ∈ f.nodes ∧ ∀ b, t.object = .node (.blank b) → .blank b ∈ f.nodes := by
  rcases h.mem_nodes_or with hnodes | ⟨_, _, _, hmem⟩ | ⟨_, _, _, hmem⟩
  · exact hnodes
  · exact absurd ht (not_plain_of_mem_denialTriples hmem)
  · exact absurd ht (not_plain_of_mem_groupTriples hmem)

/-- What is said of a node that was made for an export, and that the facts do not
mention, belongs to one denial or to one group. -/
lemma of_new (h : f.Says fresh t) (hfresh : Function.Injective2 fresh) {n m : ℕ}
    (hnew : .blank (fresh n m) ∉ f.nodes) (hsubject : t.subject = .blank (fresh n m)) :
    (n = 0 ∧ ∃ a, f.denials[m]? = some a ∧ t ∈ denialTriples (fresh 0 m) a) ∨
      ∃ j members, n = j + 1 ∧ f.groups[j]? = some members ∧
        t ∈ groupTriples (fresh (j + 1)) members := by
  rcases h.mem_nodes_or with ⟨hnode, _⟩ | ⟨_, a, ha, ht⟩ | ⟨_, members, hm, ht⟩
  · exact absurd (hsubject ▸ hnode) hnew
  · have hnode := (subject_of_mem_denialTriples ht).symm.trans hsubject
    obtain ⟨rfl, rfl⟩ := hfresh (Node.blank.inj hnode)
    exact .inl ⟨rfl, a, ha, ht⟩
  · obtain ⟨_, hplace⟩ := subject_of_mem_groupTriples ht
    obtain ⟨rfl, rfl⟩ := hfresh (Node.blank.inj (hplace.symm.trans hsubject))
    exact .inr ⟨_, members, rfl, hm, ht⟩

/-- Plain triples are told apart by their predicates. -/
lemma of_plain (hf : f.Exportable) (h : f.Says fresh t) (ht : t.Plain) :
    (t.predicate = Rdf.type → (t.object = Owl.namedIndividual ∧ t.subject ∈ f.individuals) ∨
      ∃ c, t.object = .node c ∧ (t.subject, c) ∈ f.types) ∧
    (t.predicate = Owl.sameAs → ∃ b, t.object = .node b ∧ (t.subject, b) ∈ f.sameAs) ∧
    (t.predicate = Owl.differentFrom →
      ∃ b, t.object = .node b ∧ (t.subject, b) ∈ f.differentFrom) ∧
    (t.predicate ∉ words →
      ⟨.positive, t.subject, t.predicate, t.object⟩ ∈ f.assertions ∨
        ⟨t.subject, t.predicate, t.object⟩ ∈ f.notes) := by
  have hwords : Rdf.type ∈ words ∧ Owl.sameAs ∈ words ∧ Owl.differentFrom ∈ words := by
    decide
  have hne : Rdf.type ≠ Owl.sameAs ∧ Rdf.type ≠ Owl.differentFrom ∧
      Owl.sameAs ≠ Owl.differentFrom := by decide
  cases h with
  | denial _ hmem => exact absurd ht (not_plain_of_mem_denialTriples hmem)
  | group _ hmem => exact absurd ht (not_plain_of_mem_groupTriples hmem)
  | assertion ha =>
    have hword := hf.assertions _ ha rfl
    grind
  | note hn =>
    have hword := hf.notes _ hn
    grind
  | _ => grind

/-- What is not plain and marks a node, marks that of a denial or a group. -/
lemma of_mark (hf : f.Exportable) (h : f.Says fresh t) (hp : t.predicate = Rdf.type)
    (hmark : t.object = Owl.negativePropertyAssertion ∨ t.object = Owl.allDifferent) :
    (t.object = Owl.negativePropertyAssertion ∧
      ∃ n a, f.denials[n]? = some a ∧ t.subject = .blank (fresh 0 n)) ∨
    (t.object = Owl.allDifferent ∧
      ∃ n members, f.groups[n]? = some members ∧
        t.subject = .blank (fresh (n + 1) 0)) := by
  have hword : t.predicate ∈ words := hp ▸ by decide
  cases h with
  | denial ha hmem =>
    have heq := (eq_mark_or_mem_denialWords hmem).resolve_right (hp ▸ by decide)
    exact .inl (heq ▸ ⟨rfl, _, _, ha, rfl⟩)
  | group hm hmem =>
    have heq := (eq_mark_or_mem_groupWords hmem).resolve_right (hp ▸ by decide)
    exact .inr (heq ▸ ⟨rfl, _, _, hm, rfl⟩)
  | individual _ => simp [Owl.namedIndividual, Owl.negativePropertyAssertion,
      Owl.allDifferent] at hmark
  | instanceOf hc =>
    refine absurd ?_ (hf.types _ hc)
    rcases hmark with hmark | hmark <;> cases hmark <;> simp [kinds]
  | sameAs _ => exact absurd hp (show Owl.sameAs ≠ Rdf.type by decide)
  | differentFrom _ => exact absurd hp (show Owl.differentFrom ≠ Rdf.type by decide)
  | assertion ha => exact absurd hword (hf.assertions _ ha rfl)
  | note hn => exact absurd hword (hf.notes _ hn)

end Says

/-! ### Reading off -/

/-- What facts hold is read off a graph, whatever nodes are made for denials and
groups. -/
structure ReadOff (f : Facts) (g : Graph) : Prop where
  individuals : ∀ i : Iri, .iri i ∈ f.individuals ↔ ⟨i, Rdf.type, Owl.namedIndividual⟩ ∈ g
  types : ∀ i c, c ∉ kinds → ((i, c) ∈ f.types ↔ ⟨i, Rdf.type, .node c⟩ ∈ g)
  /-- Assertions and notes are read alike. -/
  values : ∀ s p v, p ∉ words →
    (⟨.positive, s, p, v⟩ ∈ f.assertions ∨ ⟨s, p, v⟩ ∈ f.notes ↔ ⟨s, p, v⟩ ∈ g)
  denials : ∀ a : Assertion, a.polarity = .negative →
    (a ∈ f.assertions ↔ ∃ node, ∀ t ∈ denialTriples node a, t ∈ g)
  sameAs : ∀ a b, (a, b) ∈ f.sameAs ↔ ⟨a, Owl.sameAs, .node b⟩ ∈ g
  differentFrom : ∀ a b, (a, b) ∈ f.differentFrom ↔ ⟨a, Owl.differentFrom, .node b⟩ ∈ g
  groups : ∀ members, members ∈ f.groups ↔
    ∃ place, ∀ t ∈ groupTriples place members, t ∈ g

namespace Exported

lemma says_iff (hg : f.Exported fresh g) : t ∈ g ↔ f.Says fresh t :=
  (hg.mem_iff t).trans mem_triples_iff

/-- What is said of a node that was made for an export belongs to one denial or to
one group. -/
lemma of_new (hg : f.Exported fresh g) (ht : t ∈ g) {n m : ℕ}
    (hsubject : t.subject = .blank (fresh n m)) :
    (n = 0 ∧ ∃ a, f.denials[m]? = some a ∧ t ∈ denialTriples (fresh 0 m) a) ∨
      ∃ j members, n = j + 1 ∧ f.groups[j]? = some members ∧
        t ∈ groupTriples (fresh (j + 1)) members :=
  (hg.says_iff.mp ht).of_new hg.injective (hg.new n m) hsubject

/-- The mark of a denial is that of a denial of the facts. -/
lemma denial_of_mark (hg : f.Exported fresh g) (hf : f.Exportable)
    (h : ⟨s, Rdf.type, Owl.negativePropertyAssertion⟩ ∈ g) :
    ∃ n a, f.denials[n]? = some a ∧ s = .blank (fresh 0 n) := by
  rcases (hg.says_iff.mp h).of_mark hf rfl (.inl rfl) with ⟨_, hdenial⟩ | ⟨hne, _⟩
  · exact hdenial
  · simp [Owl.negativePropertyAssertion, Owl.allDifferent] at hne

/-- The mark of a group is that of a group of the facts. -/
lemma group_of_mark (hg : f.Exported fresh g) (hf : f.Exportable)
    (h : ⟨s, Rdf.type, Owl.allDifferent⟩ ∈ g) :
    ∃ n members, f.groups[n]? = some members ∧ s = .blank (fresh (n + 1) 0) := by
  rcases (hg.says_iff.mp h).of_mark hf rfl (.inr rfl) with ⟨hne, _⟩ | ⟨_, hgroup⟩
  · simp [Owl.negativePropertyAssertion, Owl.allDifferent] at hne
  · exact hgroup

/-- A denial is determined by what is said of the node that was made for it. -/
lemma denial_eq (hg : f.Exported fresh g) {n : ℕ} {a b : Assertion}
    (ha : f.denials[n]? = some a) (hb : b.polarity = .negative)
    (h : ∀ t ∈ denialTriples (fresh 0 n) b, t ∈ g) : b = a := by
  have hpolarity := (mem_denials.mp (List.mem_of_getElem? ha)).2
  have hown : ∀ t ∈ denialTriples (fresh 0 n) b, t ∈ denialTriples (fresh 0 n) a := by
    intro t ht
    rcases hg.of_new (h t ht) (subject_of_mem_denialTriples ht) with
      ⟨_, a', ha', hmem⟩ | ⟨_, _, hne, _⟩
    · rwa [Option.some.inj (ha.symm.trans ha')]
    · cases hne
  exact eq_of_denialTriples_subset (hb.trans hpolarity.symm) hown

/-- Of a node that was made for an export one object at most is said by each
property. -/
lemma object_unique (hg : f.Exported fresh g) {n m : ℕ}
    (hv : ⟨.blank (fresh n m), p, v⟩ ∈ g) (hw : ⟨.blank (fresh n m), p, w⟩ ∈ g) :
    v = w := by
  rcases hg.of_new hv rfl with ⟨rfl, a, ha, hv⟩ | ⟨j, members, rfl, hm, hv⟩
  · rcases hg.of_new hw rfl with ⟨_, a', ha', hw⟩ | ⟨_, _, hne, _⟩
    · obtain rfl := Option.some.inj (ha.symm.trans ha')
      exact Triple.object_eq_of_slots nodup_slots_denialTriples hv hw
    · cases hne
  · rcases hg.of_new hw rfl with ⟨hne, _⟩ | ⟨j', members', hj, hm', hw⟩
    · cases hne
    · obtain rfl := Nat.succ.inj hj
      obtain rfl := Option.some.inj (hm.symm.trans hm')
      exact Triple.object_eq_of_slots
        (nodup_slots_groupTriples (hg.injective.right _)) hv hw

/-- A group is determined by what is said of the nodes that were made for it. -/
lemma group_eq (hg : f.Exported fresh g) {n : ℕ} {members members' : List Individual}
    {place : ℕ → BlankNode} (hm : f.groups[n]? = some members)
    (hplace : place 0 = fresh (n + 1) 0)
    (h : ∀ t ∈ groupTriples place members', t ∈ g) : members' = members := by
  have hown : ∀ t ∈ groupTriples (fresh (n + 1)) members, t ∈ g :=
    fun t ht => hg.says_iff.mpr (.group hm ht)
  simp only [groupTriples, List.forall_mem_cons, hplace] at h hown
  obtain ⟨_, hmembers, hlist⟩ := h
  obtain ⟨_, hmembers', hlist'⟩ := hown
  have hhead := hg.object_unique hmembers hmembers'
  have hitems := Rdf.eq_of_listHead_eq (S := (· ∈ g))
    (fun _ _ _ _ => hg.object_unique) hlist hlist' hhead
  exact List.map_injective_iff.mpr (fun _ _ h => Term.node.inj h) hitems

/-- **Reading off**: what facts hold is read off the graph of their export. -/
theorem readOff (hg : f.Exported fresh g) (hf : f.Exportable) : f.ReadOff g where
  individuals i := by
    refine ⟨fun hi => hg.says_iff.mpr (.individual hi rfl), fun h => ?_⟩
    obtain ⟨htype, _⟩ := (hg.says_iff.mp h).of_plain hf (plain_of_type _ (.inl rfl))
    rcases htype rfl with ⟨_, hi⟩ | ⟨c, hc, hmem⟩
    · exact hi
    · obtain rfl := Term.node.inj hc
      exact absurd (show Node.iri Owl.namedIndividual ∈ kinds by decide)
        (hf.types _ hmem)
  types i c hc := by
    refine ⟨fun h => hg.says_iff.mpr (.instanceOf h), fun h => ?_⟩
    obtain ⟨htype, _⟩ := (hg.says_iff.mp h).of_plain hf (plain_of_type _ (.inr hc))
    rcases htype rfl with ⟨hnamed, _⟩ | ⟨c', hc', hmem⟩
    · obtain rfl := Term.node.inj hnamed
      exact absurd (show _ ∈ kinds by decide) hc
    · obtain rfl := Term.node.inj hc'
      exact hmem
  values s p v hp := by
    refine ⟨fun h => hg.says_iff.mpr (h.elim .assertion .note), fun h => ?_⟩
    obtain ⟨_, _, _, hvalue⟩ :=
      (hg.says_iff.mp h).of_plain hf (plain_of_notMem_words hp)
    exact hvalue hp
  sameAs a b := by
    refine ⟨fun h => hg.says_iff.mpr (.sameAs h), fun h => ?_⟩
    obtain ⟨_, hsame, _⟩ := (hg.says_iff.mp h).of_plain hf (plain_of_pair a b).1
    obtain ⟨b', hb', hmem⟩ := hsame rfl
    obtain rfl := Term.node.inj hb'
    exact hmem
  differentFrom a b := by
    refine ⟨fun h => hg.says_iff.mpr (.differentFrom h), fun h => ?_⟩
    obtain ⟨_, _, hdifferent, _⟩ :=
      (hg.says_iff.mp h).of_plain hf (plain_of_pair a b).2
    obtain ⟨b', hb', hmem⟩ := hdifferent rfl
    obtain rfl := Term.node.inj hb'
    exact hmem
  denials a ha := by
    constructor
    · intro hmem
      obtain ⟨n, hn⟩ := List.mem_iff_getElem?.mp (mem_denials.mpr ⟨hmem, ha⟩)
      exact ⟨fresh 0 n, fun t ht => hg.says_iff.mpr (.denial hn ht)⟩
    · rintro ⟨node, h⟩
      obtain ⟨n, b, hb, hnode⟩ := hg.denial_of_mark hf (h _ List.mem_cons_self)
      obtain rfl := Node.blank.inj hnode
      obtain rfl := hg.denial_eq hb ha h
      exact (mem_denials.mp (List.mem_of_getElem? hb)).1
  groups members := by
    constructor
    · intro hmem
      obtain ⟨n, hn⟩ := List.mem_iff_getElem?.mp hmem
      exact ⟨fresh (n + 1), fun t ht => hg.says_iff.mpr (.group hn ht)⟩
    · rintro ⟨place, h⟩
      obtain ⟨n, members', hm, hplace⟩ := hg.group_of_mark hf (h _ List.mem_cons_self)
      obtain rfl := hg.group_eq hm (Node.blank.inj hplace) h
      exact List.mem_of_getElem? hm

end Exported

/-- Facts that mention no minted node are exported to their graph. -/
lemma exported_graph (h : ∀ n ∈ f.nodes, n.isMinted = false) :
    f.Exported .minted f.graph where
  mem_iff _ := mem_graph
  injective _ _ _ _ h := BlankNode.minted.inj h
  new n m hmem := absurd (h _ hmem) (by simp [Node.isMinted, BlankNode.isMinted])

end Facts

end Ontology
