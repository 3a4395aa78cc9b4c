/-
Queries lead to individuals that are known.

* `Facts.Grounded`: whoever is mentioned in some part of the facts is known;
  `Declares.grounded`.
* `Declares.mem_of_others`, `mem_of_different`, `mem_of_related`: the closures of
  equality, difference and properties lead to known individuals.
* `Reasoner.Lists`: a class lists an individual, or is put together of classes of
  which one does; `Denotes.mem_individuals_or_lists`: the instances of a class
  are known or listed.
* `Reasoner.answers_known`: **no query invents an individual**.
-/
import Ontology.Proofs.Membership.Errors
import Ontology.Proofs.Membership.Roles
import Ontology.Proofs.Membership.Subsumption

namespace Ontology

open Relation

/-! ### Facts -/

namespace Facts

variable {f : Facts} {a b : Individual} {ps : List Property}

/-- Whoever is mentioned in some part of the facts is known. -/
structure Grounded (f : Facts) : Prop where
  types : ∀ x ∈ f.types, x.1 ∈ f.individuals
  /-- Whether an assertion states or denies. -/
  assertions : ∀ x ∈ f.assertions, ∀ i ∈ x.individuals, i ∈ f.individuals
  sameAs : ∀ x ∈ f.sameAs, x.1 ∈ f.individuals ∧ x.2 ∈ f.individuals
  differentFrom : ∀ x ∈ f.differentFrom, x.1 ∈ f.individuals ∧ x.2 ∈ f.individuals
  groups : ∀ g ∈ f.groups, ∀ i ∈ g, i ∈ f.individuals
  notes : ∀ n ∈ f.notes, n.subject ∈ f.individuals

namespace Declares

/-- If individuals are known where a statement about them holds, then they are
in every part of the facts. -/
lemma grounded (hf : f.Declares) : f.Grounded where
  types x hx := hf (.instanceOf x.1 x.2) (holds_instanceOf_iff.mpr hx) x.1
    (List.mem_singleton_self _)
  assertions _ hx _ hi := hf.mem_individuals_of_assertion hx hi
  sameAs x hx := by
    have hpair := hf (.sameAs x.1 x.2) (holds_sameAs_iff.mpr (.inl hx))
    exact ⟨hpair x.1 (by simp [Statement.individuals]),
      hpair x.2 (by simp [Statement.individuals])⟩
  differentFrom x hx := by
    have hpair := hf (.differentFrom x.1 x.2) (holds_differentFrom_iff.mpr (.inl hx))
    exact ⟨hpair x.1 (by simp [Statement.individuals]),
      hpair x.2 (by simp [Statement.individuals])⟩
  groups g hg := hf (.allDifferent g) (holds_allDifferent_iff.mpr ⟨g, hg, fun _ => .rfl⟩)
  notes n hn := hf (.note n) (holds_note_iff.mpr hn) n.subject
    (List.mem_singleton_self _)

/-- The other names of an individual are known. -/
lemma mem_of_others (hf : f.Declares) (h : b ∈ f.others a) : b ∈ f.individuals := by
  obtain ⟨hne, hequal⟩ := mem_others.mp h
  -- the first pair of the path makes the individual itself known
  have ha : a ∈ f.individuals := by
    cases mem_equals.mp hequal with
    | refl => exact absurd rfl hne
    | step hc _ =>
      rw [Edges.mem_targets, Edges.mem_both, ← holds_sameAs_iff] at hc
      exact hf _ hc a (by simp [Statement.individuals])
  exact hf.mem_individuals_of_isSame (isSame_iff.mpr hequal) ha

/-- Whoever is declared different from an individual is known. -/
lemma mem_of_declaredDifferent (hf : f.Declares) (h : b ∈ f.declaredDifferent a) :
    b ∈ f.individuals := by
  rcases mem_declaredDifferent.mp h with hab | hba | ⟨_, g, hg, _, hb⟩
  · exact (hf.grounded.differentFrom (a, b) hab).2
  · exact (hf.grounded.differentFrom (b, a) hba).1
  · exact hf.grounded.groups g hg b hb

/-- Whoever is different from an individual is known. -/
lemma mem_of_different (hf : f.Declares) (h : b ∈ f.different a) :
    b ∈ f.individuals := by
  obtain ⟨_, a', _, b', hdifferent, hequal⟩ := mem_different.mp h
  exact hf.mem_individuals_of_isSame (isSame_iff.mpr hequal)
    (hf.mem_of_declaredDifferent hdifferent)

/-- Whoever is at the end of a path is known. -/
lemma mem_of_related (hf : f.Declares) (h : b ∈ f.related ps a) :
    b ∈ f.individuals :=
  (hf.mem_individuals_of_path (mem_related_iff_path.mp h)).2

end Declares

end Facts

/-! ### Classes -/

/-- The classes that select their members from the individuals that are known:
those known by their names, restrictions and complements. -/
def ClassExpression.Selects : ClassExpression → Prop
  | named _ => True
  | restriction _ => True
  | complement _ => True
  | union _ => False
  | intersection _ => False
  | oneOf _ => False

namespace Reasoner

variable {r : Reasoner} {c : ClassName} {S : Set Individual} {i : Individual}
  {x : Restriction} {e : ClassExpression}

/-- A class lists an individual, or is put together of classes of which one
does. -/
inductive Lists (r : Reasoner) (i : Individual) : ClassName → Prop
  | oneOf {c : ClassName} {is : List Individual}
    (hc : r.catalog.classify c = .ok (.oneOf is)) (hi : i ∈ is) : Lists r i c
  | union {c d : ClassName} {ds : List ClassName}
    (hc : r.catalog.classify c = .ok (.union ds)) (hd : d ∈ ds)
    (hi : Lists r i d) : Lists r i c
  | intersection {c d : ClassName} {ds : List ClassName}
    (hc : r.catalog.classify c = .ok (.intersection ds)) (hd : d ∈ ds)
    (hi : Lists r i d) : Lists r i c

/-- A class depends on the one by which it lists an individual. -/
lemma Lists.exists_needs (h : r.Lists i c) :
    ∃ d is, ReflTransGen r.Needs c d ∧ r.catalog.classify d = .ok (.oneOf is) ∧
      i ∈ is := by
  induction h with
  | oneOf hc hi => exact ⟨_, _, .refl, hc, hi⟩
  | union hc hd _ ih =>
    obtain ⟨d, is, hneeds, hlist⟩ := ih
    exact ⟨d, is, .head ⟨_, hc, hd⟩ hneeds, hlist⟩
  | intersection hc hd _ ih =>
    obtain ⟨d, is, hneeds, hlist⟩ := ih
    exact ⟨d, is, .head ⟨_, hc, hd⟩ hneeds, hlist⟩

/-- A class that selects its members lists no individual. -/
lemma not_lists_of_selects (he : r.catalog.classify c = .ok e) (hselects : e.Selects) :
    ¬ r.Lists i c := by
  intro h
  cases h with
  | oneOf hc | union hc | intersection hc =>
    cases he.symm.trans hc
    exact hselects

/-- An individual that satisfies a restriction is known. -/
lemma Satisfies.mem_individuals {asked : Set Rdf.Term} (hr : r.facts.Declares)
    (h : r.Satisfies x asked i) : i ∈ r.facts.individuals := by
  -- apart from a count, every constraint asks for a value
  have hvalue : ∀ v ∈ r.values x.role i, i ∈ r.facts.individuals :=
    fun v hv => mem_individuals_of_mem_values hr hv
  obtain ⟨role, constraint, hordered⟩ := x
  cases constraint with
  | count k c => exact h.1
  | allValuesFrom c => exact hvalue _ h.1.some_mem
  | someValuesFrom c => exact hvalue _ h.some_mem.1
  | hasValue v =>
    obtain ⟨w, hw, _⟩ := h
    exact hvalue w hw
  | hasSelf self =>
    cases self with
    | true => exact hvalue _ h
    | false => exact hvalue _ h.1.some_mem

/-- **Instances are known or listed**, whatever the class. -/
theorem Denotes.mem_individuals_or_lists (hr : r.facts.Declares)
    (hS : r.Denotes c S) (hi : i ∈ S) : i ∈ r.facts.individuals ∨ r.Lists i c := by
  induction hS with
  | named hc => exact .inl (instancesOf_subset hr _ hi)
  | oneOf hc => exact .inr (.oneOf hc hi)
  | complement hc _ _ => exact .inl hi.1
  | union hc _ ih =>
    obtain ⟨d, hd, hi⟩ := hi
    exact (ih d hd hi).imp_right (.union hc hd)
  | intersection hc _ ih =>
    obtain ⟨hne, hall⟩ := hi
    obtain ⟨d, hd⟩ := List.exists_mem_of_ne_nil _ hne
    exact (ih d hd (hall d hd)).imp_right (.intersection hc hd)
  | disjoint => exact hi.elim
  | unbounded => exact .inl hi
  | restriction => exact .inl (Satisfies.mem_individuals hr hi)
  | qualified => exact .inl (Satisfies.mem_individuals hr hi)

/-- **No query invents an individual**: whoever the facts of a store mention is
known, and so are the other names of an individual, those different from it,
and those at the end of its paths. The members of a class are known, or listed
in one on which it depends; those of a class that selects its members are
known. -/
theorem answers_known (r : Reasoner) (hr : r.facts.Reached) :
    r.facts.Grounded ∧
    (∀ a b, b ∈ r.facts.others a → b ∈ r.facts.individuals) ∧
    (∀ a b, b ∈ r.facts.different a → b ∈ r.facts.individuals) ∧
    (∀ ps a b, b ∈ r.facts.related ps a → b ∈ r.facts.individuals) ∧
    ∀ c is, r.members c = .ok is →
      (∀ i ∈ is, i ∈ r.facts.individuals ∨
        ∃ d js, ReflTransGen r.Needs c d ∧ r.catalog.classify d = .ok (.oneOf js) ∧
          i ∈ js) ∧
      ∀ e, r.catalog.classify c = .ok e → e.Selects →
        ∀ i ∈ is, i ∈ r.facts.individuals := by
  have hdeclares := hr.declares
  refine ⟨hdeclares.grounded, fun a b => hdeclares.mem_of_others,
    fun a b => hdeclares.mem_of_different, fun ps a b => hdeclares.mem_of_related,
    fun c is his => ?_⟩
  have hmem : ∀ i ∈ is, i ∈ r.facts.individuals ∨ r.Lists i c := fun i hi =>
    (denotes_of_members his).mem_individuals_or_lists hdeclares hi
  exact ⟨fun i hi => (hmem i hi).imp_right Lists.exists_needs,
    fun e he hselects i hi =>
      (hmem i hi).resolve_right (not_lists_of_selects he hselects)⟩

/-- Charles is on a list of friends and nowhere else. He is found among the guests,
who are poets or friends, but not among the laymen, who are no poets. -/
theorem answers_known_of_list :
    let ada : Individual := .iri ⟨"e:ada"⟩
    let lovelace : Individual := .iri ⟨"e:lovelace"⟩
    let byron : Individual := .iri ⟨"e:byron"⟩
    let charles : Individual := .iri ⟨"e:charles"⟩
    let poet : ClassName := .iri ⟨"e:Poet"⟩
    let layman : ClassName := .iri ⟨"e:Layman"⟩
    let friend : ClassName := .iri ⟨"e:Friend"⟩
    let guest : ClassName := .iri ⟨"e:Guest"⟩
    let cs : List Command := [.tell (.instanceOf byron poet),
      .tell (.sameAs ada lovelace)]
    let r : Reasoner := {
      facts := (Store.run {} cs).facts
      catalog := Terminology.catalog [
        .define friend (.oneOf [ada, charles]),
        .define guest (.union [poet, friend]),
        .define layman (.complement poet)] }
    charles ∉ r.facts.individuals ∧
      (∃ is, r.members guest = .ok is ∧ charles ∈ is) ∧
      (∃ d js, ReflTransGen r.Needs guest d ∧
        r.catalog.classify d = .ok (.oneOf js) ∧ charles ∈ js) ∧
      ∃ is, r.members layman = .ok is ∧ ∀ i ∈ is, i ∈ r.facts.individuals := by
  intro ada lovelace byron charles poet layman friend guest cs r
  have hreached : r.facts.Reached := by
    dsimp only [r]
    exact ⟨{}, cs, rfl⟩
  have hunknown : charles ∉ r.facts.individuals := by decide +kernel
  have hguest : r.members guest = .ok [byron, ada, charles] := by decide +kernel
  have hlayman : r.members layman = .ok [ada, lovelace] := by decide +kernel
  obtain ⟨_, _, _, _, hanswers⟩ := answers_known r hreached
  have hlisted := (hanswers guest [byron, ada, charles] hguest).1 charles (by decide)
  have hknown := (hanswers layman [ada, lovelace] hlayman).2 (.complement poet) rfl
    trivial
  exact ⟨hunknown, ⟨_, hguest, by decide⟩, hlisted.resolve_left hunknown,
    _, hlayman, hknown⟩

end Reasoner

end Ontology
