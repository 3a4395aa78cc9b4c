/-
Terminologies kept in tables.

* `Table.edges`, `Table.closed`: the pairs of a table of neighbours, and what a
  node leads to in it, without the node; `mem_edges`, `mem_closed`.
* `Table.insertSymmetric`: a further pair, entered from both ends unless they
  are one.
* `Lexicon`: the latest structure of each class, and the neighbours of classes
  and properties; `Lexicon.enter` enters a declaration, and `Lexicon.of` those
  of a terminology one after the other.
* `Lexicon.classify`, `subClassesOf`, `equivalentClassesOf`, `subPropertiesOf`,
  `equivalentPropertiesOf`, `inversesOf`, `isTransitive`: the look-ups.
* `Lexicon.catalog`: the same as a catalog.
-/
import Ontology.Catalog.Terminology
import Ontology.Relation.Table

namespace Ontology

/-! ### Tables of neighbours -/

namespace Table

variable {α : Type} [DecidableEq α]

/-- The pairs of a table of neighbours. -/
def edges (t : Table α (ListSet α)) : Edges α :=
  t.entries.flatMap fun e => e.2.toList.map fun b => (e.1, b)

/-- What a node leads to, the node itself left out. -/
def closed (t : Table α (ListSet α)) (a : α) : List α :=
  (reachable t.keys (fun b => (t.members b).toList) (t.members a).toList).filter
    (· ≠ a)

/-- Two nodes become neighbours of each other. A node is not its own
neighbour. -/
def insertSymmetric (t : Table α (ListSet α)) (a b : α) :
    Table α (ListSet α) :=
  if a = b then t else (t.addTo a b).addTo b a

variable {t : Table α (ListSet α)} {a b : α}

@[simp] theorem mem_edges : (a, b) ∈ t.edges ↔ b ∈ t.members a := by
  simp only [edges, List.mem_flatMap, List.mem_map, Prod.mk.injEq, Prod.exists,
    mem_entries, mem_members, ListSet.mem_toList]
  constructor
  · rintro ⟨_, s, hs, _, hb, rfl, rfl⟩
    exact ⟨s, hs, hb⟩
  · rintro ⟨s, hs, hb⟩
    exact ⟨a, s, hs, b, hb, rfl, rfl⟩

/-- What is found from neighbour to neighbour is what the pairs lead to. -/
theorem mem_closed : b ∈ t.closed a ↔ b ∈ t.edges.others a := by
  simp only [closed, Edges.others, List.mem_filter]
  refine and_congr_left fun _ => ?_
  exact Edges.mem_reachable_iff_descendants (fun _ _ => mem_edges.symm)
    fun _ _ => mem_keys_of_mem_members

theorem nodup_closed : (t.closed a).Nodup := (nodup_reachable ..).filter _

/-- A pair is entered from both ends. -/
@[simp] theorem mem_members_insertSymmetric {c d : α} :
    d ∈ (t.insertSymmetric a b).members c ↔
      d ∈ t.members c ∨ a ≠ b ∧ (c = a ∧ d = b ∨ c = b ∧ d = a) := by
  unfold insertSymmetric
  split
  · next h => simp [h]
  · next h => simp [h, or_assoc]

end Table

/-! ### Lexicons -/

/-- Declarations about classes and properties, in tables. -/
structure Lexicon where
  definitions : Table ClassName ClassExpression := .empty
  /-- The classes declared directly narrower than a class. -/
  subClasses : Table ClassName (ListSet ClassName) := .empty
  equivalentClasses : Table ClassName (ListSet ClassName) := .empty
  /-- The properties declared directly narrower than a property. -/
  subProperties : Table Property (ListSet Property) := .empty
  equivalentProperties : Table Property (ListSet Property) := .empty
  inverseProperties : Table Property (ListSet Property) := .empty
  transitiveProperties : ListSet Property := .empty

namespace Lexicon

/-- Enters a declaration. -/
def enter (x : Lexicon) : Clause → Lexicon
  | .define c e => { x with definitions := x.definitions.alter c fun _ => e }
  | .subClass narrow broad =>
    { x with subClasses := x.subClasses.addTo broad narrow }
  | .equivalentClasses a b =>
    { x with equivalentClasses := x.equivalentClasses.insertSymmetric a b }
  | .subProperty narrow broad =>
    { x with subProperties := x.subProperties.addTo broad narrow }
  | .equivalentProperties a b =>
    { x with
      equivalentProperties := x.equivalentProperties.insertSymmetric a b }
  | .inverseProperties a b =>
    { x with inverseProperties := x.inverseProperties.insertSymmetric a b }
  | .transitiveProperty p =>
    { x with transitiveProperties := x.transitiveProperties.insert p }

/-- The declarations of a terminology entered one after the other, the earliest
first. -/
def of (t : Terminology) : Lexicon := t.foldr (fun k x => x.enter k) {}

variable (x : Lexicon)

/-- The structure of a class: its definition, or else its name. -/
def classify (c : ClassName) : ClassExpression :=
  (x.definitions.get? c).getD (.named c)

def subClassesOf (c : ClassName) : List ClassName := x.subClasses.closed c

def equivalentClassesOf (c : ClassName) : List ClassName :=
  x.equivalentClasses.closed c

def subPropertiesOf (p : Property) : List Property := x.subProperties.closed p

def equivalentPropertiesOf (p : Property) : List Property :=
  x.equivalentProperties.closed p

/-- The properties declared inverse to a property, in either direction. -/
def inversesOf (p : Property) : List Property :=
  (x.inverseProperties.members p).toList

def isTransitive (p : Property) : Bool := p ∈ x.transitiveProperties

/-- The catalog of a lexicon. -/
def catalog : Catalog where
  classify c := .ok (x.classify c)
  classes := ⟨x.subClasses.edges, x.equivalentClasses.edges⟩
  properties := ⟨x.subProperties.edges, x.equivalentProperties.edges⟩
  inverses := x.inverseProperties.edges
  transitive := x.transitiveProperties.toList

end Lexicon

end Ontology
