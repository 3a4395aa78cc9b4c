/-
The members of classes known by their names.

* `Reasoner.covers_iff_chain`: a class covers those that a chain of declarations
  puts under it or makes equivalent to it.
* `mem_instancesOf_of_isSame`: equals of an instance are instances.
* `Reasoner.members_of_name_exact`: **the members of a name** are the individuals
  with a name of which such a class is declared, under all their names.
-/
import Ontology.Proofs.Membership.Subsumption
import Ontology.Proofs.Store.Equality
import Ontology.Proofs.Store.Paths

namespace Ontology.Reasoner

open Relation

variable {r : Reasoner} {c d : ClassName} {i j : Individual}

/-- A class is declared narrower than another. -/
def Narrower (r : Reasoner) (d c : ClassName) : Prop :=
  (c, d) ∈ r.catalog.classes.narrower

/-- A class covers itself, what a chain of declarations puts under it, and what a
chain of declarations, read in either direction, makes equivalent to it. -/
lemma covers_iff_chain :
    r.Covers c d ↔ d = c ∨ TransGen r.Narrower d c ∨
      EqvGen (fun a b => (a, b) ∈ r.catalog.classes.equivalent) c d := by
  have hnarrower : Reaches r.catalog.classes.narrower.targets c d ↔
      d = c ∨ TransGen r.Narrower d c := by
    rw [Edges.reaches_iff_reflTransGen, reflTransGen_iff_eq_or_transGen,
      ← transGen_swap]
    rfl
  rw [Covers, hnarrower, Edges.reaches_both_iff_eqvGen, or_assoc]

/-- Equals of an instance are instances. -/
lemma mem_instancesOf_of_isSame (hr : r.facts.Declares) (hij : r.facts.isSame i j)
    (hi : i ∈ r.instancesOf c) : j ∈ r.instancesOf c := by
  by_cases hc : c = .iri Owl.thing
  · subst hc
    rw [mem_instancesOf_thing] at hi ⊢
    exact hr.mem_individuals_of_isSame hij hi
  · obtain ⟨k, d, htype, hcovers, hki⟩ := (mem_instancesOf hc).mp hi
    exact (mem_instancesOf hc).mpr
      ⟨k, d, htype, hcovers, r.facts.equality.trans hki hij⟩

/-- **The members of a name**: a class known by its name has members. For the class
of everything they are all that are known; otherwise, the individuals that equal
one of which a class is declared that is this class, or that a chain of
declarations puts under it or makes equivalent to it. In the facts of a store,
whoever equals a member is one. -/
theorem members_of_name_exact (r : Reasoner) (c : ClassName)
    (hc : r.catalog.classify c = .ok (.named c)) :
    ∃ is, r.members c = .ok is ∧
      (c = .iri Owl.thing → ∀ i, i ∈ is ↔ i ∈ r.facts.individuals) ∧
      (c ≠ .iri Owl.thing → ∀ i, i ∈ is ↔
        ∃ j d, r.facts.isSame i j ∧ (j, d) ∈ r.facts.types ∧
          (d = c ∨ TransGen r.Narrower d c ∨
            EqvGen (fun a b => (a, b) ∈ r.catalog.classes.equivalent) c d)) ∧
      (r.facts.Reached → ∀ i j, r.facts.isSame i j → i ∈ is → j ∈ is) := by
  refine ⟨r.named c, members_of_named hc, ?_, fun hne i => ?_,
    fun hreached i j hij => ?_⟩
  · rintro rfl i
    rw [mem_named_iff, mem_instancesOf_thing]
  · rw [mem_named_iff, mem_instancesOf hne]
    simp only [covers_iff_chain]
    refine exists₂_congr fun j d => ?_
    constructor
    · rintro ⟨htype, hcovers, hji⟩
      exact ⟨r.facts.equality.symm hji, htype, hcovers⟩
    · rintro ⟨hij, htype, hcovers⟩
      exact ⟨htype, hcovers, r.facts.equality.symm hij⟩
  · rw [mem_named_iff, mem_named_iff]
    exact mem_instancesOf_of_isSame hreached.declares hij

/-- Poets are writers, writers are persons, and persons are poets again. Byron, a
poet, is a person under both of his names. -/
theorem members_of_name_exact_of_poets :
    let ada : Individual := .iri ⟨"e:ada"⟩
    let byron : Individual := .iri ⟨"e:byron"⟩
    let gordon : Individual := .iri ⟨"e:gordon"⟩
    let person : ClassName := .iri ⟨"e:Person"⟩
    let human : ClassName := .iri ⟨"e:Human"⟩
    let mortal : ClassName := .iri ⟨"e:Mortal"⟩
    let writer : ClassName := .iri ⟨"e:Writer"⟩
    let poet : ClassName := .iri ⟨"e:Poet"⟩
    let cs : List Command := [.tell (.instanceOf byron poet),
      .tell (.instanceOf ada mortal), .tell (.sameAs gordon byron)]
    let r : Reasoner := {
      facts := (Store.run {} cs).facts
      catalog := Terminology.catalog [
        .subClass writer person, .subClass poet writer, .subClass person poet,
        .equivalentClasses human person, .equivalentClasses mortal human] }
    r.catalog.classify person = .ok (.named person) ∧ person ≠ .iri Owl.thing ∧
      r.facts.Reached ∧ r.facts.isSame byron gordon ∧
      (∃ is, r.members person = .ok is ∧ byron ∈ is ∧ gordon ∈ is ∧
        ∃ j d, r.facts.isSame gordon j ∧ (j, d) ∈ r.facts.types ∧
          (d = person ∨ TransGen r.Narrower d person ∨
            EqvGen (fun a b => (a, b) ∈ r.catalog.classes.equivalent) person d)) ∧
      r.catalog.classify (.iri Owl.thing) = .ok (.named (.iri Owl.thing)) ∧
      ∃ is, r.members (.iri Owl.thing) = .ok is ∧
        ∀ i, i ∈ is ↔ i ∈ r.facts.individuals := by
  intro ada byron gordon person human mortal writer poet cs r
  have hreached : r.facts.Reached := by
    dsimp only [r]
    exact ⟨{}, cs, rfl⟩
  have hne : person ≠ .iri Owl.thing := by decide
  have hsame : r.facts.isSame byron gordon := by decide
  have hpoet : r.Narrower poet writer := by
    simp only [Narrower]
    decide
  have hwriter : r.Narrower writer person := by
    simp only [Narrower]
    decide
  obtain ⟨is, his, -, hmem, hclosed⟩ := members_of_name_exact r person rfl
  obtain ⟨ts, hts, hthing, -, -⟩ := members_of_name_exact r (.iri Owl.thing) rfl
  have hbyron : byron ∈ is := (hmem hne byron).mpr ⟨byron, poet, by decide,
    by decide +kernel, .inr (.inl (.tail (.single hpoet) hwriter))⟩
  have hgordon : gordon ∈ is := hclosed hreached byron gordon hsame hbyron
  exact ⟨rfl, hne, hreached, hsame,
    ⟨is, his, hbyron, hgordon, (hmem hne gordon).mp hgordon⟩,
    rfl, ts, hts, hthing rfl⟩

end Ontology.Reasoner
