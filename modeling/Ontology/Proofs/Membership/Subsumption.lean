/-
Named classes and the order declared of them.

* `Reasoner.Includes`: two classes have members, and those of one are among
  those of the other.
* `includes_iff_covers`: whatever a store holds, a named class includes another
  just if it is the class of everything, or covers all that the other covers;
  `covers_iff_of_narrower`, `covers_iff_of_equivalent`: what remains to be
  covered by a class if the other is declared narrower, or equivalent.
* `named_respects_declarations_iff`: the catalogs in which a declared subclass
  is included, and in which declared equivalents have the same members.
-/
import Ontology.Proofs.Membership.Evaluation
import Ontology.Proofs.Store.Reached

namespace Ontology

namespace Reasoner

variable {r : Reasoner} {a b c d : ClassName} {i : Individual}

/-! ### Instances of names -/

/-- A class that is known by its name has the instances of the name. -/
lemma members_of_named (hc : r.catalog.classify c = .ok (.named d)) :
    r.members c = .ok (r.named d) :=
  members_of_interpret hc fun _ => rfl

/-- Both classes have members, and those of the narrow one are among those of
the broad one. -/
def Includes (r : Reasoner) (broad narrow : ClassName) : Prop :=
  ∃ is js, r.members narrow = .ok is ∧ r.members broad = .ok js ∧
    ∀ i ∈ is, i ∈ js

/-- Named classes include each other as their instances do. -/
lemma includes_iff (ha : r.catalog.classify a = .ok (.named a))
    (hb : r.catalog.classify b = .ok (.named b)) :
    r.Includes b a ↔ r.instancesOf a ⊆ r.instancesOf b := by
  have hinstances : r.instancesOf a ⊆ r.instancesOf b ↔
      ∀ i ∈ r.named a, i ∈ r.named b := by
    simp only [mem_named_iff]
    rfl
  rw [hinstances, Includes, members_of_named ha, members_of_named hb]
  simp

lemma mem_instancesOf_thing :
    i ∈ r.instancesOf (.iri Owl.thing) ↔ i ∈ r.facts.individuals := by
  simp [instancesOf]

lemma mem_instancesOf (hc : c ≠ .iri Owl.thing) :
    i ∈ r.instancesOf c ↔
      ∃ j d, (j, d) ∈ r.facts.types ∧ r.Covers c d ∧ r.facts.isSame j i := by
  simp [instancesOf, hc]

/-- Instances are known, whatever the class. -/
lemma instancesOf_subset (hf : r.facts.Declares) (c : ClassName) :
    r.instancesOf c ⊆ {i | i ∈ r.facts.individuals} := by
  intro i hi
  by_cases hc : c = .iri Owl.thing
  · subst hc
    exact mem_instancesOf_thing.mp hi
  · obtain ⟨j, d, htype, _, hsame⟩ := (mem_instancesOf hc).mp hi
    have hj : j ∈ r.facts.individuals :=
      hf (.instanceOf j d) (Facts.holds_instanceOf_iff.mpr htype) j
        (by simp [Statement.individuals])
    exact hf.mem_individuals_of_isSame hsame hj

/-- A class that covers more has more instances. -/
lemma instancesOf_mono (ha : a ≠ .iri Owl.thing) (hb : b ≠ .iri Owl.thing)
    (h : ∀ d, r.Covers a d → r.Covers b d) :
    r.instancesOf a ⊆ r.instancesOf b := by
  intro i hi
  obtain ⟨j, d, htype, hcovers, hsame⟩ := (mem_instancesOf ha).mp hi
  exact (mem_instancesOf hb).mpr ⟨j, d, htype, h d hcovers, hsame⟩

/-! ### Inclusion in every store -/

/-- If a class includes the class of everything whatever a store holds, it is
this class itself. -/
lemma eq_thing_of_subset
    (h : ∀ f : Facts, f.Reached →
      instancesOf { r with facts := f } (.iri Owl.thing) ⊆
        instancesOf { r with facts := f } b) :
    b = .iri Owl.thing := by
  by_contra hb
  -- an individual of which no class is declared
  let i : Individual := .iri ⟨"e:ada"⟩
  have hts : ∀ t ∈ [Statement.individual i], t.fault? = none := by
    simp [Statement.fault?]
  obtain ⟨f, hf, hholds⟩ := Facts.exists_reached hts
  have hi : i ∈ f.individuals := Facts.holds_individual_iff.mp
    ((hholds _).mpr ⟨_, List.mem_singleton_self _, .inl (.refl _)⟩)
  obtain ⟨j, d, htype, _⟩ :=
    (mem_instancesOf hb).mp (h f hf (mem_instancesOf_thing.mpr hi))
  rw [← Facts.holds_instanceOf_iff, hholds] at htype
  simp [Statement.Tells, Statement.Alike] at htype

/-- If a class includes another whatever a store holds, it covers what the
other covers. -/
lemma covers_of_subset (ha : a ≠ .iri Owl.thing) (hb : b ≠ .iri Owl.thing)
    (h : ∀ f : Facts, f.Reached →
      instancesOf { r with facts := f } a ⊆ instancesOf { r with facts := f } b)
    (hd : r.Covers a d) : r.Covers b d := by
  -- an individual of which only the covered class is declared
  let i : Individual := .iri ⟨"e:ada"⟩
  have hts : ∀ t ∈ [Statement.instanceOf i d], t.fault? = none := by
    simp [Statement.fault?]
  obtain ⟨f, hf, hholds, hsame⟩ := Facts.exists_reached_apart hts (by simp)
  have htypes : ∀ j e, (j, e) ∈ f.types ↔ j = i ∧ e = d := by
    intro j e
    rw [← Facts.holds_instanceOf_iff, hholds]
    simp [Statement.Tells, Statement.Alike]
  have hi : i ∈ instancesOf { r with facts := f } a :=
    (mem_instancesOf ha).mpr
      ⟨i, d, (htypes i d).mpr ⟨rfl, rfl⟩, hd, (hsame i i).mpr rfl⟩
  obtain ⟨j, e, htype, hcovers, _⟩ := (mem_instancesOf hb).mp (h f hf hi)
  obtain ⟨_, rfl⟩ := (htypes j e).mp htype
  exact hcovers

/-- **Inclusion**: whatever a store holds, a named class includes another just
if it is the class of everything, or the other is not and it covers all that
the other covers. -/
theorem includes_iff_covers (ha : r.catalog.classify a = .ok (.named a))
    (hb : r.catalog.classify b = .ok (.named b)) :
    (∀ f : Facts, f.Reached → Includes { r with facts := f } b a) ↔
      b = .iri Owl.thing ∨
        a ≠ .iri Owl.thing ∧ ∀ d, r.Covers a d → r.Covers b d := by
  have hincludes : ∀ f, Includes { r with facts := f } b a ↔
      instancesOf { r with facts := f } a ⊆ instancesOf { r with facts := f } b :=
    fun f => includes_iff ha hb
  simp only [hincludes]
  by_cases hbt : b = .iri Owl.thing
  · refine ⟨fun _ => .inl hbt, fun _ f hf i hi => ?_⟩
    rw [hbt]
    exact mem_instancesOf_thing.mpr (instancesOf_subset hf.declares a hi)
  constructor
  · intro h
    have hat : a ≠ .iri Owl.thing := by
      rintro rfl
      exact hbt (eq_thing_of_subset h)
    exact .inr ⟨hat, fun d => covers_of_subset hat hbt h⟩
  · rintro (hb' | ⟨hat, hcovers⟩) f _
    · exact absurd hb' hbt
    · exact instancesOf_mono hat hbt hcovers

/-! ### Declared order -/

/-- A class covers what is narrower than a subclass of it. The equivalents of
the subclass are another matter. -/
lemma covers_iff_of_narrower (h : (b, a) ∈ r.catalog.classes.narrower) :
    (∀ d, r.Covers a d → r.Covers b d) ↔
      ∀ d ∈ r.catalog.classes.equivalents a, r.Covers b d := by
  refine ⟨fun hall d hd => hall d (covers_iff.mpr (.inr (.inr hd))),
    fun hall d hd => ?_⟩
  have hstep : a ∈ r.catalog.classes.narrower.targets b :=
    Edges.mem_targets.mpr h
  rcases covers_iff.mp hd with rfl | hbelow | hequivalent
  · exact .inl (.single hstep)
  · obtain ⟨_, e, he, hreaches⟩ := Hierarchy.mem_below.mp hbelow
    exact .inl (.step hstep (.step (Edges.mem_targets.mpr he) hreaches))
  · exact hall d hequivalent

/-- A class covers what is equivalent to an equivalent of it. The subclasses of
the equivalent are another matter. -/
lemma covers_iff_of_equivalent (h : (b, a) ∈ r.catalog.classes.equivalent.both) :
    (∀ d, r.Covers a d → r.Covers b d) ↔
      ∀ d ∈ r.catalog.classes.below a, r.Covers b d := by
  refine ⟨fun hall d hd => hall d (covers_iff.mpr (.inr (.inl hd))),
    fun hall d hd => ?_⟩
  have hstep : a ∈ r.catalog.classes.equivalent.both.targets b :=
    Edges.mem_targets.mpr h
  rcases covers_iff.mp hd with rfl | hbelow | hequivalent
  · exact .inr (.single hstep)
  · exact hall d hbelow
  · have hreaches := (Hierarchy.mem_equivalents.mp hequivalent).2
    exact .inr (.step hstep (Edges.mem_component.mp hreaches))

/-- **Named classes and the declared order**: whatever a store holds, a declared
subclass is included just if the broad class is the class of everything, or the
narrow one is not and each class equivalent to it is covered; declared
equivalents have the same members just if they are one class, or neither is the
class of everything and each covers the subclasses of the other. -/
theorem named_respects_declarations_iff
    (ha : r.catalog.classify a = .ok (.named a))
    (hb : r.catalog.classify b = .ok (.named b)) :
    ((b, a) ∈ r.catalog.classes.narrower →
      ((∀ f : Facts, f.Reached → Includes { r with facts := f } b a) ↔
        b = .iri Owl.thing ∨ a ≠ .iri Owl.thing ∧
          ∀ d ∈ r.catalog.classes.equivalents a, r.Covers b d)) ∧
    ((a, b) ∈ r.catalog.classes.equivalent.both →
      ((∀ f : Facts, f.Reached → Includes { r with facts := f } b a ∧
          Includes { r with facts := f } a b) ↔
        a = b ∨ (a ≠ .iri Owl.thing ∧ b ≠ .iri Owl.thing) ∧
          (∀ d ∈ r.catalog.classes.below a, r.Covers b d) ∧
          ∀ d ∈ r.catalog.classes.below b, r.Covers a d)) := by
  refine ⟨fun h => ?_, fun h => ?_⟩
  · rw [includes_iff_covers ha hb, covers_iff_of_narrower h]
  · have h' : (b, a) ∈ r.catalog.classes.equivalent.both := by
      rw [Edges.mem_both] at h ⊢
      exact h.symm
    rw [forall₂_and, includes_iff_covers ha hb, includes_iff_covers hb ha,
      covers_iff_of_equivalent h, covers_iff_of_equivalent h']
    constructor
    · rintro ⟨hbt | ⟨hat, hab⟩, hat' | ⟨hbt', hba⟩⟩
      · exact .inl (hat'.trans hbt.symm)
      · exact absurd hbt hbt'
      · exact absurd hat' hat
      · exact .inr ⟨⟨hat, hbt'⟩, hab, hba⟩
    · rintro (rfl | ⟨⟨hat, hbt⟩, hab, hba⟩)
      · have hself : ∀ d ∈ r.catalog.classes.below a, r.Covers a d :=
          fun d hd => covers_iff.mpr (.inr (.inl hd))
        by_cases hat : a = .iri Owl.thing
        · exact ⟨.inl hat, .inl hat⟩
        · exact ⟨.inr ⟨hat, hself⟩, .inr ⟨hat, hself⟩⟩
      · exact ⟨.inr ⟨hat, hab⟩, .inr ⟨hbt, hba⟩⟩

/-- Poets are writers and writers are persons, whoever they are. -/
theorem named_respects_declarations_of_chain :
    let person : ClassName := .iri ⟨"e:Person"⟩
    let writer : ClassName := .iri ⟨"e:Writer"⟩
    let poet : ClassName := .iri ⟨"e:Poet"⟩
    let r : Reasoner := {
      facts := {}
      catalog := Terminology.catalog [
        .subClass poet writer, .subClass writer person] }
    r.catalog.classify writer = .ok (.named writer) ∧
      r.catalog.classify person = .ok (.named person) ∧
      (person, writer) ∈ r.catalog.classes.narrower ∧
      ∀ f : Facts, f.Reached → Includes { r with facts := f } person writer := by
  intro person writer poet r
  have hwriter : r.catalog.classify writer = .ok (.named writer) := rfl
  have hperson : r.catalog.classify person = .ok (.named person) := rfl
  have hnarrower : (person, writer) ∈ r.catalog.classes.narrower := by decide
  have hequivalents : r.catalog.classes.equivalents writer = [] := by decide
  refine ⟨hwriter, hperson, hnarrower,
    ((named_respects_declarations_iff hwriter hperson).1 hnarrower).mpr
      (.inr ⟨by decide, ?_⟩)⟩
  simp [hequivalents]

/-- Writers are authors and poets are writers, but no poet is found among the
authors. -/
theorem named_misses_subclass_of_equivalent :
    let author : ClassName := .iri ⟨"e:Author"⟩
    let writer : ClassName := .iri ⟨"e:Writer"⟩
    let poet : ClassName := .iri ⟨"e:Poet"⟩
    let ada : Individual := .iri ⟨"e:ada"⟩
    let r : Reasoner := {
      facts := (Store.run {} [.tell (.instanceOf ada poet)]).facts
      catalog := Terminology.catalog [
        .equivalentClasses author writer, .subClass poet writer] }
    r.catalog.classify author = .ok (.named author) ∧
      r.catalog.classify writer = .ok (.named writer) ∧
      (author, writer) ∈ r.catalog.classes.equivalent.both ∧
      r.members author = .ok [] ∧ r.members writer = .ok [ada] ∧
      ¬ r.Includes author writer := by
  intro author writer poet ada r
  have hauthor : r.members author = .ok [] := by decide +kernel
  have hwriter : r.members writer = .ok [ada] := by decide +kernel
  refine ⟨rfl, rfl, by decide, hauthor, hwriter, ?_⟩
  rintro ⟨is, js, his, hjs, hincluded⟩
  obtain rfl : [ada] = is := Except.ok.inj (hwriter.symm.trans his)
  obtain rfl : [] = js := Except.ok.inj (hauthor.symm.trans hjs)
  exact List.not_mem_nil (hincluded ada (List.mem_singleton_self ada))

end Reasoner

end Ontology
