/-
Graphs.

* `Triple`: a subject, a predicate and an object.
* `Graph`: triples without repetition, in the order of their insertion;
  `mem_insert`, `mem_ofList` say what a graph holds.
* `objects`, `object?`, `subjects`, `links`: the triples around a predicate,
  `mem_objects`, `mem_subjects`, `mem_links`.
-/
import Ontology.Rdf.Term

namespace Ontology.Rdf

/-- A triple relates a subject to an object. -/
structure Triple where
  subject : Node
  predicate : Iri
  object : Term
  deriving DecidableEq

/-- A graph: triples without repetition. -/
structure Graph where
  triples : List Triple
  nodup : triples.Nodup
  deriving DecidableEq

namespace Graph

instance : Membership Triple Graph := ⟨fun g t => t ∈ g.triples⟩

instance (t : Triple) (g : Graph) : Decidable (t ∈ g) :=
  inferInstanceAs (Decidable (t ∈ g.triples))

/-- The graph without triples. -/
def empty : Graph := ⟨[], .nil⟩

/-- Adds a triple, unless the graph has it. -/
def insert (g : Graph) (t : Triple) : Graph :=
  if h : t ∈ g.triples then g
  else
    ⟨g.triples ++ [t], by
      rw [List.nodup_append]
      refine ⟨g.nodup, by simp, ?_⟩
      rintro a ha b hb rfl
      exact h (List.mem_singleton.mp hb ▸ ha)⟩

/-- The graph of a list of triples. -/
def ofList (ts : List Triple) : Graph := ts.foldl insert empty

/-- The number of triples. -/
def size (g : Graph) : Nat := g.triples.length

theorem mem_def {g : Graph} {t : Triple} : t ∈ g ↔ t ∈ g.triples := .rfl

/-- Inserting adds the triple and nothing else. -/
@[simp] theorem mem_insert {g : Graph} {t u : Triple} :
    u ∈ g.insert t ↔ u ∈ g ∨ u = t := by
  unfold insert
  split
  · constructor
    · exact .inl
    · rintro (h | rfl)
      · exact h
      · assumption
  · simp [mem_def]

theorem mem_foldl_insert {ts : List Triple} {g : Graph} {u : Triple} :
    u ∈ ts.foldl insert g ↔ u ∈ g ∨ u ∈ ts := by
  induction ts generalizing g with
  | nil => simp
  | cons t ts ih => simp [ih, or_assoc]

/-- The graph of a list holds the members of the list. -/
@[simp] theorem mem_ofList {ts : List Triple} {u : Triple} :
    u ∈ ofList ts ↔ u ∈ ts := by
  rw [ofList, mem_foldl_insert]
  simp [mem_def, empty]

/-! ### The triples of a predicate -/

/-- The objects of a subject and a predicate. -/
def objects (g : Graph) (s : Node) (p : Iri) : List Term :=
  (g.triples.filter fun t => t.subject = s ∧ t.predicate = p).map (·.object)

/-- The object of a subject and a predicate; the earliest of several. -/
def object? (g : Graph) (s : Node) (p : Iri) : Option Term :=
  (g.objects s p).head?

/-- The subjects of a predicate and an object. -/
def subjects (g : Graph) (p : Iri) (o : Term) : List Node :=
  (g.triples.filter fun t => t.predicate = p ∧ t.object = o).map (·.subject)

/-- The pairs of nodes that a predicate relates. -/
def links (g : Graph) (p : Iri) : List (Node × Node) :=
  g.triples.filterMap fun t =>
    if t.predicate = p then t.object.node?.map (t.subject, ·) else none

@[simp] theorem mem_objects {g : Graph} {s : Node} {p : Iri} {o : Term} :
    o ∈ g.objects s p ↔ ⟨s, p, o⟩ ∈ g := by
  simp only [objects, List.mem_map, List.mem_filter, decide_eq_true_eq]
  constructor
  · rintro ⟨t, ⟨h, rfl, rfl⟩, rfl⟩
    exact h
  · exact fun h => ⟨_, ⟨h, rfl, rfl⟩, rfl⟩

@[simp] theorem mem_subjects {g : Graph} {s : Node} {p : Iri} {o : Term} :
    s ∈ g.subjects p o ↔ ⟨s, p, o⟩ ∈ g := by
  simp only [subjects, List.mem_map, List.mem_filter, decide_eq_true_eq]
  constructor
  · rintro ⟨t, ⟨h, rfl, rfl⟩, rfl⟩
    exact h
  · exact fun h => ⟨_, ⟨h, rfl, rfl⟩, rfl⟩

@[simp] theorem mem_links {g : Graph} {s o : Node} {p : Iri} :
    (s, o) ∈ g.links p ↔ ⟨s, p, .node o⟩ ∈ g := by
  simp only [links, List.mem_filterMap]
  constructor
  · rintro ⟨⟨s', p', o'⟩, h, he⟩
    cases o' <;> simp [Term.node?] at he
    obtain ⟨rfl, rfl, rfl⟩ := he
    exact h
  · intro h
    exact ⟨_, h, by simp [Term.node?]⟩

end Graph

end Ontology.Rdf
