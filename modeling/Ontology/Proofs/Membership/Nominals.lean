/-
Restrictions to an individual, and the class of its names.

* `Reasoner.Restricts`: a class is described by a constraint on a role.
* `Reasoner.Nominal`: a class without an IRI lists an individual under all its
  names.
* `Restricts.exists_members_iff`: a restriction to some value in such a class has
  members as soon as one expression may be nested in another.
* `Finds.mem_hasValue_node_iff`, `Finds.mem_some_nominal_iff`: who is found by a
  restriction to the individual, and to some value in the class.
* `hasValue_is_some_of_names`: **to have an individual as a value** is to have
  some value in the class of its names, and the name does not matter.
-/
import Ontology.Proofs.Membership.Reordering
import Ontology.Proofs.Membership.Restrictions
import Ontology.Proofs.Store.Equality

namespace Ontology.Reasoner

variable {r : Reasoner} {c d e : ClassName} {is js : List Individual}
  {i v w : Individual} {role : Role} {constraint : Constraint}

/-! ### Restrictions on a role -/

/-- A class is described by a constraint on a role. -/
def Restricts (r : Reasoner) (c : ClassName) (role : Role)
    (constraint : Constraint) : Prop :=
  ∃ x, r.catalog.classify c = .ok (.restriction x) ∧ x.role = role ∧
    x.constraint = constraint

namespace Restricts

lemma finds (h : r.Restricts c role constraint) (his : r.members c = .ok is) :
    r.Finds role constraint is := by
  obtain ⟨x, hc, hrole, hx⟩ := h
  exact ⟨c, x, hc, hrole, hx, his⟩

/-- A restriction to a value needs no other class. -/
lemma exists_members_of_hasValue {v : Rdf.Term}
    (h : r.Restricts c role (.hasValue v)) : ∃ is, r.members c = .ok is := by
  obtain ⟨x, hc, rfl, hx⟩ := h
  refine ⟨r.restricted x .all, members_of_interpret hc fun members => ?_⟩
  simp [interpret, interpretRestriction, hx, Constraint.trivial,
    Constraint.count?, Constraint.filler?]

end Restricts

/-! ### Names of an individual -/

/-- A class without an IRI lists an individual under all its names. -/
structure Nominal (r : Reasoner) (e : ClassName) (v : Individual) : Prop where
  anonymous : e.iri? = none
  exists_names : ∃ is, r.catalog.classify e = .ok (.oneOf is) ∧
    ∀ i, i ∈ is ↔ i = v ∨ i ∈ r.facts.others v

namespace Nominal

/-- The instances are the names of the individual. -/
lemma denotes (h : r.Nominal e v) : r.Denotes e {i | r.facts.isSame v i} := by
  obtain ⟨is, he, hmem⟩ := h.exists_names
  have hnames : {i | i ∈ is} = {i | r.facts.isSame v i} := by
    ext i
    by_cases hi : i = v <;> simp [hmem, hi]
  exact hnames ▸ .oneOf he

/-- The values in the class are individuals alone. -/
lemma mem_valuesIn_iff (h : r.Nominal e v) {S : Set Individual} {t : Rdf.Term} :
    t ∈ valuesIn e S ↔ ∃ i ∈ S, t = .node i := by
  simp [valuesIn, h.anonymous]

/-- The class needs no other. -/
lemma not_needs (h : r.Nominal e v) : ¬ r.Needs e d := by
  obtain ⟨is, he, -⟩ := h.exists_names
  rintro ⟨x, hx, hd⟩
  cases he.symm.trans hx
  simp [ClassExpression.operands] at hd

end Nominal

/-! ### Values in the class of names -/

/-- A class with a meaning that needs only classes that need no others has members,
as soon as one expression may be nested in another. -/
lemma Denotes.exists_members_of_not_needs {S : Set Individual} (hS : r.Denotes c S)
    (hc : ∀ d, r.Needs c d → ∀ e, ¬ r.Needs d e) (hdepth : 1 ≤ r.maxDepth) :
    ∃ is, r.members c = .ok is := by
  obtain ⟨is, his, -⟩ | hdeep := members_of_denotes hS
  · exact ⟨is, his⟩
  · -- a path to the limit would go on
    obtain ⟨_ | ⟨d, _ | ⟨e, ds⟩⟩, hds, hlength, -⟩ := path_of_tooDeep hdeep
    · simp at hlength
    · simp only [List.length_cons, List.length_nil] at hlength
      omega
    · obtain ⟨hcd, hrest⟩ := List.isChain_cons_cons.mp hds
      exact absurd (List.isChain_cons_cons.mp hrest).1 (hc d hcd e)

/-- A restriction to some value in the class of names has members as soon as one
expression may be nested in another. -/
lemma Restricts.exists_members_iff (h : r.Restricts d role (.someValuesFrom e))
    (he : r.Nominal e v) : (∃ js, r.members d = .ok js) ↔ 1 ≤ r.maxDepth := by
  obtain ⟨x, hd, rfl, hx⟩ := h
  have htrivial : x.constraint.trivial = false := by
    simp [hx, Constraint.trivial, Constraint.count?]
  have hfiller : x.constraint.filler? = some e := by simp [hx, Constraint.filler?]
  constructor
  · rintro ⟨js, hjs⟩
    exact one_le_maxDepth_of_filler hd htrivial hfiller hjs
  · refine Denotes.exists_members_of_not_needs
      (.qualified hd htrivial hfiller he.denotes) fun d₁ hneeds => ?_
    obtain ⟨e', he', hmem⟩ := hneeds
    cases hd.symm.trans he'
    obtain rfl : d₁ = e := by
      simpa [ClassExpression.operands, hfiller, eq_comm] using hmem
    exact fun _ => he.not_needs

namespace Finds

/-- Those found by a restriction to an individual have it as a value under one of
its names. -/
lemma mem_hasValue_node_iff (h : r.Finds role (.hasValue (.node v)) is) :
    i ∈ is ↔ ∃ w, r.facts.isSame v w ∧ .node w ∈ r.values role i := by
  rw [h.mem_hasValue_iff, exists_sameTerm_node_iff]

/-- Those found by a restriction to some value in the class of names have one of
the names as a value. -/
lemma mem_some_nominal_iff (h : r.Finds role (.someValuesFrom e) js)
    (he : r.Nominal e v) :
    i ∈ js ↔ ∃ w, r.facts.isSame v w ∧ .node w ∈ r.values role i := by
  obtain ⟨A, hA⟩ := h.exists_asks rfl
  rw [h.mem_some_iff hA]
  cases hA with
  | @ofClass _ ks hks =>
    have hnames := (denotes_of_members hks).unique he.denotes
    rw [hnames]
    constructor
    · rintro ⟨t, ht, hA⟩
      obtain ⟨w, hw, rfl⟩ := he.mem_valuesIn_iff.mp hA
      exact ⟨w, hw, ht⟩
    · rintro ⟨w, hsame, hw⟩
      exact ⟨_, hw, he.mem_valuesIn_iff.mpr ⟨w, hsame, rfl⟩⟩

end Finds

/-- **To have an individual as a value is to have some value in the class of its
names**, whatever the role: a restriction to the individual always has members, and
the restriction to some value in the class has the same, if the limit allows for
one nested expression at all. Restrictions to two names of one individual have the
same members. -/
theorem hasValue_is_some_of_names (r : Reasoner) (role : Role) (v : Individual) :
    (∀ c d e, r.Restricts c role (.hasValue (.node v)) →
      r.Restricts d role (.someValuesFrom e) → r.Nominal e v →
      ∃ is, r.members c = .ok is ∧
        (∀ js, r.members d = .ok js → ∀ i, i ∈ is ↔ i ∈ js) ∧
        ((∃ js, r.members d = .ok js) ↔ 1 ≤ r.maxDepth)) ∧
    ∀ w c d, r.facts.isSame v w → r.Restricts c role (.hasValue (.node v)) →
      r.Restricts d role (.hasValue (.node w)) →
      ∃ is js, r.members c = .ok is ∧ r.members d = .ok js ∧
        ∀ i, i ∈ is ↔ i ∈ js := by
  refine ⟨fun c d e hc hd he => ?_, fun w c d hvw hc hd => ?_⟩
  · obtain ⟨is, his⟩ := hc.exists_members_of_hasValue
    refine ⟨is, his, fun js hjs i => ?_, hd.exists_members_iff he⟩
    rw [(hc.finds his).mem_hasValue_node_iff, (hd.finds hjs).mem_some_nominal_iff he]
  · obtain ⟨is, his⟩ := hc.exists_members_of_hasValue
    obtain ⟨js, hjs⟩ := hd.exists_members_of_hasValue
    have hnames : ∀ u, r.facts.isSame v u ↔ r.facts.isSame w u := fun u =>
      ⟨r.facts.equality.trans (r.facts.equality.symm hvw), r.facts.equality.trans hvw⟩
    refine ⟨is, js, his, hjs, fun i => ?_⟩
    rw [(hc.finds his).mem_hasValue_node_iff, (hd.finds hjs).mem_hasValue_node_iff]
    simp only [hnames]

/-- Byron is also called Gordon. Byron taught Ada, who taught Charles, and Dora was
taught by Gordon and Edward by a text. -/
theorem hasValue_is_some_of_names_of_pupils :
    let ada : Individual := .iri ⟨"e:ada"⟩
    let byron : Individual := .iri ⟨"e:byron"⟩
    let gordon : Individual := .iri ⟨"e:gordon"⟩
    let charles : Individual := .iri ⟨"e:charles"⟩
    let dora : Individual := .iri ⟨"e:dora"⟩
    let edward : Individual := .iri ⟨"e:edward"⟩
    let taught : Property := ⟨"e:taught"⟩
    let taughtBy : Property := ⟨"e:taughtBy"⟩
    let role : Role := .inverse taught
    let pupil : ClassName := .iri ⟨"e:Pupil"⟩
    let pupilOfGordon : ClassName := .iri ⟨"e:PupilOfGordon"⟩
    let pupilOfSome : ClassName := .iri ⟨"e:PupilOfSome"⟩
    let names : ClassName := .blank (.labelled "names")
    let r : Reasoner := {
      facts := (Store.run {} [
        .tell (.sameAs byron gordon),
        .tell (.assertion ⟨.positive, byron, taught, .node ada⟩),
        .tell (.assertion ⟨.positive, ada, taught, .node charles⟩),
        .tell (.assertion ⟨.positive, dora, taughtBy, .node gordon⟩),
        .tell (.assertion ⟨.positive, edward, taughtBy,
          .literal (.typed "Byron" Xsd.string)⟩)]).facts
      catalog := Terminology.catalog [
        .transitiveProperty taught, .inverseProperties taught taughtBy,
        .define pupil (.restriction ⟨role, .hasValue (.node byron),
          by simp [Constraint.Ordered, Constraint.count?]⟩),
        .define pupilOfGordon (.restriction ⟨role, .hasValue (.node gordon),
          by simp [Constraint.Ordered, Constraint.count?]⟩),
        .define pupilOfSome (.restriction ⟨role, .someValuesFrom names,
          by simp [Constraint.Ordered, Constraint.count?]⟩),
        .define names (.oneOf [gordon, byron])]
      maxDepth := 1 }
    r.Restricts pupil role (.hasValue (.node byron)) ∧
      r.Restricts pupilOfGordon role (.hasValue (.node gordon)) ∧
      r.Restricts pupilOfSome role (.someValuesFrom names) ∧
      r.Nominal names byron ∧ r.facts.isSame byron gordon ∧
      r.members pupil = .ok [dora, ada, charles] ∧
      (∃ js, r.members pupilOfSome = .ok js ∧
        ∀ i, i ∈ [dora, ada, charles] ↔ i ∈ js) ∧
      ∃ js, r.members pupilOfGordon = .ok js ∧
        ∀ i, i ∈ [dora, ada, charles] ↔ i ∈ js := by
  intro ada byron gordon charles dora edward taught taughtBy role pupil pupilOfGordon
    pupilOfSome names r
  have hpupil : r.Restricts pupil role (.hasValue (.node byron)) :=
    ⟨_, rfl, rfl, rfl⟩
  have hgordon : r.Restricts pupilOfGordon role (.hasValue (.node gordon)) :=
    ⟨_, rfl, rfl, rfl⟩
  have hsome : r.Restricts pupilOfSome role (.someValuesFrom names) :=
    ⟨_, rfl, rfl, rfl⟩
  have hnames : r.Nominal names byron := by
    refine ⟨rfl, [gordon, byron], rfl, fun i => ?_⟩
    have hothers : r.facts.others byron = [gordon] := by decide +kernel
    simp [hothers, or_comm]
  have hsame : r.facts.isSame byron gordon := by decide +kernel
  have hmembers : r.members pupil = .ok [dora, ada, charles] := by decide +kernel
  obtain ⟨hvalue, hname⟩ := hasValue_is_some_of_names r role byron
  obtain ⟨is, his, hjs, hdepth⟩ := hvalue pupil pupilOfSome names hpupil hsome hnames
  cases hmembers.symm.trans his
  obtain ⟨is, ks, his, hks, hiff⟩ :=
    hname gordon pupil pupilOfGordon hsame hpupil hgordon
  cases hmembers.symm.trans his
  obtain ⟨js, hfound⟩ := hdepth.mpr le_rfl
  exact ⟨hpupil, hgordon, hsome, hnames, hsame, hmembers,
    ⟨js, hfound, hjs js hfound⟩, ks, hks, hiff⟩

end Ontology.Reasoner
