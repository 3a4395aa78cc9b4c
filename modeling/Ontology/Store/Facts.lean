/-
Facts about individuals.

* `Facts`: what is known, each part in the order in which it became known.
* `declare`: makes individuals known, each once; `mem_declare`,
  `nodup_declare`.
* `index`, `select`: the assertions of one polarity and kind, and their look-up
  by parts.
* `links`: the stated relations of some properties between individuals.
-/
import Ontology.Relation.Edges
import Ontology.Store.Assertion

namespace Ontology

/-- What is known about individuals. -/
structure Facts where
  individuals : List Individual := []
  types : List (Individual × ClassName) := []
  assertions : List Assertion := []
  /-- Declared pairs of names of one individual. -/
  sameAs : Edges Individual := []
  /-- Declared pairs of different individuals. -/
  differentFrom : Edges Individual := []
  /-- Groups of pairwise different individuals. -/
  groups : List (List Individual) := []
  notes : List Note := []
  deriving DecidableEq

namespace Facts

/-! ### Individuals -/

/-- The individuals known so far, and a further one. -/
def insertNew (known : List Individual) (i : Individual) : List Individual :=
  if i ∈ known then known else known ++ [i]

/-- Makes individuals known. -/
def declare (f : Facts) (is : List Individual) : Facts :=
  { f with individuals := is.foldl insertNew f.individuals }

theorem mem_foldl_insertNew {is known : List Individual} {j : Individual} :
    j ∈ is.foldl insertNew known ↔ j ∈ known ∨ j ∈ is := by
  induction is generalizing known with
  | nil => simp
  | cons i is ih =>
    rw [List.foldl_cons, ih, insertNew]
    split <;> grind

theorem nodup_foldl_insertNew {is known : List Individual}
    (h : known.Nodup) : (is.foldl insertNew known).Nodup := by
  induction is generalizing known with
  | nil => exact h
  | cons i is ih =>
    refine ih ?_
    unfold insertNew
    split
    · exact h
    · next hi =>
      rw [List.nodup_append]
      refine ⟨h, by simp, ?_⟩
      rintro a ha b hb rfl
      exact hi (List.mem_singleton.mp hb ▸ ha)

/-- Declaring makes the individuals known and no others. -/
@[simp] theorem mem_declare {f : Facts} {is : List Individual}
    {j : Individual} :
    j ∈ (f.declare is).individuals ↔ j ∈ f.individuals ∨ j ∈ is :=
  mem_foldl_insertNew

/-- No individual is declared twice. -/
theorem nodup_declare {f : Facts} (is : List Individual)
    (h : f.individuals.Nodup) : (f.declare is).individuals.Nodup :=
  nodup_foldl_insertNew h

/-! ### Assertions -/

/-- The assertions of one polarity and kind. -/
def index (f : Facts) (polarity : Polarity) (kind : PropertyKind) :
    List Assertion :=
  f.assertions.filter fun a => a.polarity = polarity ∧ a.kind = kind

/-- The assertions of one polarity and kind that fit a pattern. -/
def select (f : Facts) (polarity : Polarity) (kind : PropertyKind)
    (pattern : Pattern) : List Assertion :=
  (f.index polarity kind).filter (·.fits pattern)

/-- The stated relations of some properties between individuals. -/
def links (f : Facts) (ps : List Property) : Edges Individual :=
  (f.assertions.filter fun a => a.property ∈ ps).filterMap Assertion.link?

/-- The classes that an individual is declared to belong to. -/
def typesOf (f : Facts) (i : Individual) : List ClassName :=
  (f.types.filter fun t => t.1 = i).map (·.2)

/-- The remarks on an individual. -/
def notesOf (f : Facts) (i : Individual) : List Note :=
  f.notes.filter fun n => n.subject = i

theorem mem_select {f : Facts} {polarity : Polarity} {kind : PropertyKind}
    {pattern : Pattern} {a : Assertion} :
    a ∈ f.select polarity kind pattern ↔
      a ∈ f.assertions ∧ a.polarity = polarity ∧ a.kind = kind ∧
        a.fits pattern := by
  simp only [select, index, List.mem_filter, decide_eq_true_eq, and_assoc]

@[simp] theorem mem_typesOf {f : Facts} {i : Individual} {c : ClassName} :
    c ∈ f.typesOf i ↔ (i, c) ∈ f.types := by
  simp [typesOf]

/-- A link is a positive assertion between individuals. -/
theorem mem_links {f : Facts} {ps : List Property} {s o : Individual} :
    (s, o) ∈ f.links ps ↔
      ∃ p ∈ ps, ⟨.positive, s, p, .node o⟩ ∈ f.assertions := by
  simp only [links, List.mem_filterMap, List.mem_filter, decide_eq_true_eq]
  constructor
  · rintro ⟨⟨polarity, s', p, o'⟩, ⟨h, hp⟩, he⟩
    cases polarity <;> cases o' <;> simp [Assertion.link?, Rdf.Term.node?] at he
    obtain ⟨rfl, rfl⟩ := he
    exact ⟨p, hp, h⟩
  · rintro ⟨p, hp, h⟩
    exact ⟨_, ⟨h, hp⟩, rfl⟩

end Facts

end Ontology
