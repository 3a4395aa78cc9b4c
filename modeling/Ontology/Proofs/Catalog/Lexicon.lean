/-
Tables answer like declarations.

* `Lexicon.Holds`: the tables have what a terminology declares; `Holds.enter`: so they
  do after each declaration, and `holds_of`: after all of them.
* `Lexicon.Answers`: the look-ups of a lexicon are those of a catalog;
  `Lexicon.of_answers`: **the tables of a terminology answer like its catalog**.
* `Lexicon.members_of`: hence queries for members have the same answers.
-/
import Ontology.Catalog.Lexicon
import Ontology.Proofs.Catalog.Interchange

namespace Ontology.Lexicon

open Terminology

variable {x : Lexicon} {t : Terminology}

/-! ### What the tables have -/

/-- The tables have what a terminology declares. A pair of a class or a property with
itself is left out. -/
structure Holds (x : Lexicon) (t : Terminology) : Prop where
  definition : ∀ c, x.definitions.get? c = t.definition? c
  subClasses : ∀ c d, d ∈ x.subClasses.members c ↔ .subClass d c ∈ t
  equivalentClasses : ∀ c d, d ∈ x.equivalentClasses.members c ↔
    c ≠ d ∧ (.equivalentClasses c d ∈ t ∨ .equivalentClasses d c ∈ t)
  subProperties : ∀ p q, q ∈ x.subProperties.members p ↔ .subProperty q p ∈ t
  equivalentProperties : ∀ p q, q ∈ x.equivalentProperties.members p ↔
    p ≠ q ∧ (.equivalentProperties p q ∈ t ∨ .equivalentProperties q p ∈ t)
  inverseProperties : ∀ p q, q ∈ x.inverseProperties.members p ↔
    p ≠ q ∧ (.inverseProperties p q ∈ t ∨ .inverseProperties q p ∈ t)
  transitiveProperties : ∀ p, p ∈ x.transitiveProperties ↔ .transitiveProperty p ∈ t

lemma holds_empty : Holds {} [] := by
  constructor <;> simp [definition?]

/-- A declaration enters the tables as it joins the terminology. -/
lemma Holds.enter (h : x.Holds t) (k : Clause) : (x.enter k).Holds (k :: t) where
  definition c := by
    have hold : x.definitions.get? c = t.definition? c := h.definition c
    cases k with
    | define d e =>
      rw [Lexicon.enter, Table.get?_alter]
      split
      · next hc => rw [hc, definition?_define]
      · next hc => rw [hold, definition?_define_of_ne t (Ne.symm hc)]
    | _ => exact hold
  subClasses c d := by
    cases k with
    | subClass narrow broad => simp [Lexicon.enter, h.subClasses, or_comm, and_comm]
    | _ => simp [Lexicon.enter, h.subClasses]
  equivalentClasses c d := by
    cases k with
    | equivalentClasses a b =>
      simp only [Lexicon.enter, Table.mem_members_insertSymmetric, h.equivalentClasses,
        List.mem_cons, Clause.equivalentClasses.injEq]
      grind
    | _ => simp [Lexicon.enter, h.equivalentClasses]
  subProperties p q := by
    cases k with
    | subProperty narrow broad => simp [Lexicon.enter, h.subProperties, or_comm, and_comm]
    | _ => simp [Lexicon.enter, h.subProperties]
  equivalentProperties p q := by
    cases k with
    | equivalentProperties a b =>
      simp only [Lexicon.enter, Table.mem_members_insertSymmetric, h.equivalentProperties,
        List.mem_cons, Clause.equivalentProperties.injEq]
      grind
    | _ => simp [Lexicon.enter, h.equivalentProperties]
  inverseProperties p q := by
    cases k with
    | inverseProperties a b =>
      simp only [Lexicon.enter, Table.mem_members_insertSymmetric, h.inverseProperties,
        List.mem_cons, Clause.inverseProperties.injEq]
      grind
    | _ => simp [Lexicon.enter, h.inverseProperties]
  transitiveProperties p := by
    cases k with
    | transitiveProperty q => simp [Lexicon.enter, h.transitiveProperties, or_comm]
    | _ => simp [Lexicon.enter, h.transitiveProperties]

/-- After all declarations the tables have what the terminology declares. -/
lemma holds_of (t : Terminology) : (of t).Holds t := by
  induction t with
  | nil => exact holds_empty
  | cons k t ih => exact ih.enter k

/-! ### Look-ups -/

/-- The look-ups of a lexicon are those of a catalog, in whatever order they list what
they find. -/
structure Answers (x : Lexicon) (k : Catalog) : Prop where
  classify : ∀ c, k.classify c = .ok (x.classify c)
  subClassesOf : ∀ c, (x.subClassesOf c).Perm (k.classes.below c)
  equivalentClassesOf : ∀ c, (x.equivalentClassesOf c).Perm (k.classes.equivalents c)
  subPropertiesOf : ∀ p, (x.subPropertiesOf p).Perm (k.properties.below p)
  equivalentPropertiesOf : ∀ p,
    (x.equivalentPropertiesOf p).Perm (k.properties.equivalents p)
  inversesOf : ∀ p, (x.inversesOf p).Perm (k.inversesOf p)
  isTransitive : ∀ p, x.isTransitive p = k.isTransitive p

/-- A table of neighbours leads where the pairs of two nodes each lead that it has. -/
lemma closed_perm {α : Type} [DecidableEq α] {n : Table α (ListSet α)} {edges : Edges α}
    (h : ∀ a b, a ≠ b → (b ∈ n.members a ↔ (a, b) ∈ edges)) (a : α) :
    (n.closed a).Perm (edges.others a) := by
  refine (List.perm_ext_iff_of_nodup Table.nodup_closed (Edges.nodup_others a)).mpr
    fun b => ?_
  rw [Table.mem_closed]
  exact Edges.mem_others_congr fun c d hne => Table.mem_edges.trans (h c d hne)

/-- A table of mutual neighbours has the pairs that it has, read in either direction. -/
lemma mem_both_edges_iff {α : Type} [DecidableEq α] {n : Table α (ListSet α)}
    {edges : Edges α} (h : ∀ a b, a ≠ b → (b ∈ n.members a ↔ (a, b) ∈ edges.both))
    (a b : α) (hne : a ≠ b) : (a, b) ∈ n.edges.both ↔ (a, b) ∈ edges.both := by
  rw [Edges.mem_both, Table.mem_edges, Table.mem_edges, h a b hne, h b a hne.symm,
    Edges.mem_both, Edges.mem_both]
  tauto

namespace Holds

variable (h : x.Holds t)

include h

lemma classify_eq (c : ClassName) : x.classify c = t.classify c := by
  rw [Lexicon.classify, h.definition, Terminology.classify]

lemma mem_subClasses_iff (c d : ClassName) :
    d ∈ x.subClasses.members c ↔ (c, d) ∈ t.classes.narrower :=
  (h.subClasses c d).trans mem_narrower_classes.symm

lemma mem_equivalentClasses_iff (c d : ClassName) (hne : c ≠ d) :
    d ∈ x.equivalentClasses.members c ↔ (c, d) ∈ t.classes.equivalent.both := by
  rw [h.equivalentClasses, and_iff_right hne, Edges.mem_both, mem_equivalent_classes,
    mem_equivalent_classes]

lemma mem_subProperties_iff (p q : Property) :
    q ∈ x.subProperties.members p ↔ (p, q) ∈ t.properties.narrower :=
  (h.subProperties p q).trans mem_narrower_properties.symm

lemma mem_equivalentProperties_iff (p q : Property) (hne : p ≠ q) :
    q ∈ x.equivalentProperties.members p ↔ (p, q) ∈ t.properties.equivalent.both := by
  rw [h.equivalentProperties, and_iff_right hne, Edges.mem_both, mem_equivalent_properties,
    mem_equivalent_properties]

lemma mem_inverseProperties_iff (p q : Property) (hne : p ≠ q) :
    q ∈ x.inverseProperties.members p ↔ (p, q) ∈ t.catalog.inverses.both := by
  rw [h.inverseProperties, and_iff_right hne, Edges.mem_both, mem_inverses, mem_inverses]

lemma mem_inversesOf_iff (p q : Property) :
    q ∈ x.inversesOf p ↔ q ∈ t.catalog.inversesOf p := by
  rw [inversesOf, ListSet.mem_toList, h.inverseProperties, Catalog.mem_inversesOf,
    mem_inverses, mem_inverses, ne_comm]

lemma isTransitive_eq (p : Property) : x.isTransitive p = t.catalog.isTransitive p := by
  rw [Bool.eq_iff_iff]
  simp [Lexicon.isTransitive, Catalog.isTransitive, h.transitiveProperties, mem_transitive]

/-- Tables that have what a terminology declares answer like its catalog. -/
lemma answers : x.Answers t.catalog where
  classify c := congrArg Except.ok (h.classify_eq c).symm
  subClassesOf := closed_perm fun c d _ => h.mem_subClasses_iff c d
  equivalentClassesOf := closed_perm h.mem_equivalentClasses_iff
  subPropertiesOf := closed_perm fun p q _ => h.mem_subProperties_iff p q
  equivalentPropertiesOf := closed_perm h.mem_equivalentProperties_iff
  inversesOf p :=
    (List.perm_ext_iff_of_nodup (x.inverseProperties.members p).nodup
      (t.catalog.nodup_inversesOf p)).mpr (h.mem_inversesOf_iff p)
  isTransitive := h.isTransitive_eq

/-- Their catalog agrees with that of the terminology. -/
lemma catalog_agrees : x.catalog.Agrees t.catalog where
  classify c := congrArg Except.ok (h.classify_eq c)
  classes := Hierarchy.agrees_of_declarations
    (fun c d _ => Table.mem_edges.trans (h.mem_subClasses_iff c d))
    (mem_both_edges_iff h.mem_equivalentClasses_iff)
  properties := Hierarchy.agrees_of_declarations
    (fun p q _ => Table.mem_edges.trans (h.mem_subProperties_iff p q))
    (mem_both_edges_iff h.mem_equivalentProperties_iff)
  mem_inversesOf_iff :=
    Catalog.mem_inversesOf_congr (mem_both_edges_iff h.mem_inverseProperties_iff)
  isTransitive_eq p := by
    rw [← h.isTransitive_eq, Bool.eq_iff_iff]
    simp [Lexicon.isTransitive, Catalog.isTransitive, Lexicon.catalog]

end Holds

/-- **The tables of a terminology answer like its catalog**: whatever is declared in
whatever order, each class has its latest structure, and each look-up finds what the
declarations, read in both directions where they are mutual, lead to. -/
theorem of_answers (t : Terminology) : (of t).Answers t.catalog := (holds_of t).answers

/-- **Same answers**: queries for members have the same answers from the tables of a
terminology as from its declarations. -/
theorem members_of (t : Terminology) (r : Reasoner) (c : ClassName) :
    Reasoner.members { r with catalog := (of t).catalog } c =
      Reasoner.members { r with catalog := t.catalog } c :=
  (holds_of t).catalog_agrees.members_eq r c

end Ontology.Lexicon
