/-
Positive classes keep their members when more is known.

* `Constraint.Positive`, `ClassExpression.Positive`: structures that ask for
  nothing to be absent; `Reasoner.Positive`: classes that depend on such
  structures alone.
* `instancesOf_subset_of_within`: more facts make more instances of a name;
  `Satisfies.of_subset`, `Satisfies.mono`: with more values, hence with more
  facts, more individuals satisfy a positive constraint.
* `Denotes.mono`: with more facts a positive class has more instances.
* `Reasoner.members_grow`: whatever a store is told, **positive classes keep
  their members**.
-/
import Ontology.Proofs.Membership.Errors
import Ontology.Proofs.Membership.Roles
import Ontology.Proofs.Membership.Subsumption

namespace Ontology

open Relation

/-! ### Positive structures -/

/-- The constraints that ask for values, and not for the absence of any. -/
def Constraint.Positive : Constraint → Prop
  | count k _ => k.max? = none
  | allValuesFrom _ => False
  | someValuesFrom _ => True
  | hasValue _ => True
  | hasSelf self => self = true

/-- The structures that ask for nothing to be absent. -/
def ClassExpression.Positive : ClassExpression → Prop
  | named _ => True
  | restriction x => x.constraint.Positive
  | union _ => True
  | intersection _ => True
  | complement _ => False
  | oneOf _ => True

/-- Where no definition asks for anything to be absent, no class does. -/
lemma Terminology.positive_classify {t : Terminology}
    (ht : ∀ c e, .define c e ∈ t → e.Positive) (c : ClassName) :
    (t.classify c).Positive := by
  unfold classify
  cases hdefinition : t.definition? c with
  | none => trivial
  | some e =>
    obtain ⟨clause, hclause, h⟩ := List.exists_of_findSome?_eq_some hdefinition
    cases clause with
    | define d e' =>
      obtain rfl : e' = e := by simp at h; exact h.2
      exact ht d e' hclause
    | _ => simp at h

/-- What counts without an upper bound counts more. -/
lemma Count.Admits.mono {k : Count} {m n : ℕ} (hk : k.max? = none) (hmn : m ≤ n)
    (h : k.Admits m) : k.Admits n :=
  ⟨fun min hmin => (h.1 min hmin).trans hmn, by simp [hk]⟩

/-- Terms that stand for the same still do when more is known. -/
lemma Facts.SameTerm.mono {f g : Facts} (hfg : f.Within g) {v w : Rdf.Term}
    (h : f.SameTerm v w) : g.SameTerm v w := by
  cases v <;> cases w <;> simp only [SameTerm] at h ⊢
  · exact hfg.mem_equals h
  · exact h

namespace Reasoner

variable {r : Reasoner} {f g : Facts} {c d : ClassName} {S T : Set Individual}
  {i : Individual}

/-- Classes that depend on positive structures alone. -/
def Positive (r : Reasoner) (c : ClassName) : Prop :=
  ∀ d e, ReflTransGen r.Needs c d → r.catalog.classify d = .ok e → e.Positive

/-- The operands of a positive class are positive. -/
lemma Positive.operand (hc : r.Positive c) (hcd : r.Needs c d) : r.Positive d :=
  fun d' e hneeds he => hc d' e (.head hcd hneeds) he

/-! ### Names and restrictions -/

/-- With more facts a name has more instances. -/
lemma instancesOf_subset_of_within (hfg : f.Within g) (c : ClassName) :
    instancesOf { r with facts := f } c ⊆ instancesOf { r with facts := g } c := by
  intro i hi
  by_cases hc : c = .iri Owl.thing
  · subst hc
    exact mem_instancesOf_thing.mpr (hfg.mem_individuals (mem_instancesOf_thing.mp hi))
  · obtain ⟨j, d, htype, hcovers, hsame⟩ := (mem_instancesOf hc).mp hi
    have hsame' : g.isSame j i :=
      Facts.isSame_iff.mpr (hfg.mem_equals (Facts.isSame_iff.mp hsame))
    exact (mem_instancesOf hc).mpr ⟨j, d, hfg.mem_types htype, hcovers, hsame'⟩

/-- With more members a class has more values in it. -/
lemma valuesIn_subset (h : S ⊆ T) : valuesIn c S ⊆ valuesIn c T := by
  rintro v (⟨i, hi, rfl⟩ | hliteral)
  · exact .inl ⟨i, h hi, rfl⟩
  · exact .inr hliteral

/-- **Positive constraints**: an individual that satisfies one satisfies it with
more values, and with more values asked for. -/
theorem Satisfies.of_subset {r r' : Reasoner} {x y : Restriction}
    {asked asked' : Set Rdf.Term} (hxy : x.constraint = y.constraint)
    (hx : x.constraint.Positive)
    (hknown : i ∈ r.facts.individuals → i ∈ r'.facts.individuals)
    (hterms : ∀ v w, r.facts.SameTerm v w → r'.facts.SameTerm v w)
    (hvalues : r.values x.role i ⊆ r'.values y.role i) (hasked : asked ⊆ asked')
    (h : r.Satisfies x asked i) : r'.Satisfies y asked' i := by
  have hboth := Set.inter_subset_inter hvalues hasked
  obtain ⟨role, constraint, hordered⟩ := x
  obtain ⟨role', constraint', hordered'⟩ := y
  obtain rfl : constraint = constraint' := hxy
  cases constraint with
  | count k c =>
    obtain ⟨hi, hadmits⟩ := h
    have hcount := Set.ncard_le_ncard hboth ((finite_values role' i).inter_of_left _)
    exact ⟨hknown hi, hadmits.mono hx (min_le_min_right _ hcount)⟩
  | allValuesFrom c => exact hx.elim
  | someValuesFrom c => exact Set.Nonempty.mono hboth h
  | hasValue v =>
    obtain ⟨w, hw, hsame⟩ := h
    exact ⟨w, hvalues hw, hterms v w hsame⟩
  | hasSelf self =>
    obtain rfl : self = true := hx
    exact hvalues h

/-- With more facts, and with more values asked for, more individuals satisfy a
positive restriction. -/
lemma Satisfies.mono {x : Restriction} {asked asked' : Set Rdf.Term}
    (hfg : f.Within g) (hx : x.constraint.Positive) (hasked : asked ⊆ asked')
    (h : Satisfies { r with facts := f } x asked i) :
    Satisfies { r with facts := g } x asked' i :=
  h.of_subset rfl hx hfg.mem_individuals (fun _ _ => .mono hfg)
    (values_subset (fun _ => hfg.mem_assertions) x.role i) hasked

/-! ### Classes -/

/-- **Instances**: with more facts a positive class has more instances. -/
theorem Denotes.mono (hfg : f.Within g) (hc : r.Positive c)
    (hS : Denotes { r with facts := f } c S) (hT : Denotes { r with facts := g } c T) :
    S ⊆ T := by
  induction hS generalizing T with
  | named hnamed =>
    cases hT with
    | named hnamed' =>
      cases hnamed.symm.trans hnamed'
      exact instancesOf_subset_of_within hfg _
    | _ => simp_all
  | oneOf hlist =>
    cases hT with
    | oneOf hlist' =>
      cases hlist.symm.trans hlist'
      exact subset_rfl
    | _ => simp_all
  | complement hcomplement => exact (hc _ _ .refl hcomplement).elim
  | union hunion _ ih =>
    cases hT with
    | union hunion' hds' =>
      cases hunion.symm.trans hunion'
      rintro i ⟨d, hd, hi⟩
      exact ⟨d, hd, ih d hd (hc.operand ⟨_, hunion, hd⟩) (hds' d hd) hi⟩
    | _ => simp_all
  | intersection hinter _ ih =>
    rintro i ⟨hne, hall⟩
    cases hT with
    | intersection hinter' hds' =>
      cases hinter.symm.trans hinter'
      exact ⟨hne, fun d hd =>
        ih d hd (hc.operand ⟨_, hinter, hd⟩) (hds' d hd) (hall d hd)⟩
    | @disjoint _ ds es _ hinter' hds' hempty' =>
      cases hinter.symm.trans hinter'
      -- with more facts some of the first classes would lose the individual
      obtain ⟨d, hd, hid⟩ := hempty' i
      have hmem : d ∈ ds ++ es := List.mem_append_left es hd
      exact hid (ih d hmem (hc.operand ⟨_, hinter, hmem⟩) (hds' d hd) (hall d hmem))
    | _ => simp_all
  | disjoint => exact Set.empty_subset T
  | unbounded hrestriction hx =>
    cases hT with
    | unbounded => exact fun i hi => hfg.mem_individuals hi
    | _ => simp_all
  | restriction hrestriction hx hfiller =>
    cases hT with
    | restriction hrestriction' =>
      cases hrestriction.symm.trans hrestriction'
      exact fun i hi => hi.mono hfg (hc _ _ .refl hrestriction) subset_rfl
    | _ => simp_all
  | @qualified c d x _ hrestriction hx hfiller _ ih =>
    cases hT with
    | qualified hrestriction' _ hfiller' hd' =>
      cases hrestriction.symm.trans hrestriction'
      cases hfiller.symm.trans hfiller'
      have hneeds : d ∈ (ClassExpression.restriction x).operands := by
        simp [ClassExpression.operands, hfiller]
      exact fun i hi => hi.mono hfg (hc _ _ .refl hrestriction)
        (valuesIn_subset (ih (hc.operand ⟨_, hrestriction, hneeds⟩) hd'))
    | _ => simp_all

/-- **Positive classes keep their members**: whatever a store is told, and
whatever becomes of it, if a class that depends on positive structures alone has
members before and has members after, then those before are among those
after. -/
theorem members_grow (r : Reasoner) (s : Store) (ts : List Statement)
    (hc : r.Positive c) {is js : List Individual}
    (his : members { r with facts := s.facts } c = .ok is)
    (hjs : members { r with facts := (s.tellAll ts).facts } c = .ok js) :
    ∀ i ∈ is, i ∈ js := by
  have hmono := (denotes_of_members his).mono (s.within_tellAll ts) hc
    (denotes_of_members hjs)
  exact fun i hi => hmono hi

/-- Ada reads two poets, and stays among the guests when it turns out that one
of them has another name, and that she is different from both. -/
theorem members_grow_of_readers :
    let ada : Individual := .iri ⟨"e:ada"⟩
    let byron : Individual := .iri ⟨"e:byron"⟩
    let gordon : Individual := .iri ⟨"e:gordon"⟩
    let shelley : Individual := .iri ⟨"e:shelley"⟩
    let poet : ClassName := .iri ⟨"e:Poet"⟩
    let reader : ClassName := .iri ⟨"e:Reader"⟩
    let guest : ClassName := .iri ⟨"e:Guest"⟩
    let reads : Property := ⟨"e:reads"⟩
    let r : Reasoner := {
      facts := {}
      catalog := Terminology.catalog [
        .define reader (.restriction ⟨.direct reads, .count (.atLeast 2) poet,
          by simp [Constraint.Ordered, Constraint.count?, Count.max?]⟩),
        .define guest (.union [poet, reader])] }
    let s := Store.run {} [
      .tell (.instanceOf byron poet), .tell (.instanceOf shelley poet),
      .tell (.assertion ⟨.positive, ada, reads, .node byron⟩),
      .tell (.assertion ⟨.positive, ada, reads, .node shelley⟩)]
    let ts : List Statement := [.sameAs gordon byron,
      .allDifferent [ada, shelley, gordon]]
    r.Positive guest ∧
      members { r with facts := s.facts } guest = .ok [byron, shelley, ada] ∧
      members { r with facts := (s.tellAll ts).facts } guest =
        .ok [gordon, byron, shelley, ada] ∧
      ∀ i ∈ [byron, shelley, ada], i ∈ [gordon, byron, shelley, ada] := by
  intro ada byron gordon shelley poet reader guest reads r s ts
  have hpositive : r.Positive guest := by
    rintro d e - he
    obtain rfl := Except.ok.inj he
    refine Terminology.positive_classify (fun c e hdefine => ?_) d
    simp only [List.mem_cons, Clause.define.injEq, List.not_mem_nil, or_false] at hdefine
    obtain ⟨_, rfl⟩ | ⟨_, rfl⟩ := hdefine
    · rfl
    · trivial
  have hbefore : members { r with facts := s.facts } guest =
      .ok [byron, shelley, ada] := by decide +kernel
  have hafter : members { r with facts := (s.tellAll ts).facts } guest =
      .ok [gordon, byron, shelley, ada] := by decide +kernel
  exact ⟨hpositive, hbefore, hafter, members_grow r s ts hpositive hbefore hafter⟩

end Reasoner

end Ontology
