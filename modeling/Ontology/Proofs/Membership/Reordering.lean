/-
The order of the members of a union.

* `ClassExpression.Reorders`, `Terminology.Reorders`: the same structures, and
  the same declarations, but for the order of the members of unions.
* `Denotes.reorders`: classes mean the same.
* `Reasoner.path_of_tooDeep`: the limit stops a query on a path of different
  classes; `defined_of_isChain`: each of them is defined.
* `members_reorders`: queries have the same answer, unless the limit stops one
  of the two on such a path. A class that has been evaluated before is met again
  without regard to the limit, so the limit can stop one order of evaluation and
  not the other: `members_depend_on_order`.
-/
import Ontology.Proofs.Catalog.Interchange
import Ontology.Proofs.Membership.Completeness

namespace Ontology

/-! ### Structures and terminologies -/

/-- Two structures are the same, or unions of the same classes in another
order. -/
inductive ClassExpression.Reorders : ClassExpression → ClassExpression → Prop
  | same (e : ClassExpression) : Reorders e e
  | union {cs ds : List ClassName} (h : cs.Perm ds) :
    Reorders (.union cs) (.union ds)

/-- Two declarations are the same, or define a class by structures that differ
in the order of a union. -/
inductive Clause.Reorders : Clause → Clause → Prop
  | same (k : Clause) : Reorders k k
  | define (c : ClassName) {e e' : ClassExpression} (h : e.Reorders e') :
    Reorders (.define c e) (.define c e')

/-- Two terminologies have the same declarations, one by one, but for the order
of the members of unions. -/
def Terminology.Reorders (t t' : Terminology) : Prop :=
  List.Forall₂ Clause.Reorders t t'

lemma ClassExpression.Reorders.symm {e e' : ClassExpression}
    (h : e.Reorders e') : e'.Reorders e := by
  cases h with
  | same => exact .same e
  | union h => exact .union h.symm

lemma ClassExpression.Reorders.mem_operands_iff {e e' : ClassExpression}
    (h : e.Reorders e') {d : ClassName} : d ∈ e.operands ↔ d ∈ e'.operands := by
  cases h with
  | same => rfl
  | union h => exact h.mem_iff

/-- Apart from unions, structures are the same. -/
lemma ClassExpression.Reorders.eq_of_ne_union {e e' : ClassExpression}
    (h : e.Reorders e') (hne : ∀ ds, e ≠ .union ds) : e' = e := by
  cases h with
  | same => rfl
  | @union cs => exact absurd rfl (hne cs)

/-- A union is a union of the same classes. -/
lemma ClassExpression.Reorders.exists_union {cs : List ClassName}
    {e : ClassExpression} (h : (ClassExpression.union cs).Reorders e) :
    ∃ ds, e = .union ds ∧ cs.Perm ds := by
  cases h with
  | same => exact ⟨cs, rfl, .refl cs⟩
  | union h => exact ⟨_, rfl, h⟩

lemma Clause.Reorders.symm {k k' : Clause} (h : k.Reorders k') :
    k'.Reorders k := by
  cases h with
  | same => exact .same k
  | define c h => exact .define c h.symm

namespace Terminology.Reorders

variable {t t' : Terminology} (h : t.Reorders t')
include h

lemma symm : t'.Reorders t := (h.imp fun _ _ => Clause.Reorders.symm).flip

/-- A view that makes nothing of definitions does not tell them apart. -/
lemma filterMap_eq {β : Type} (f : Clause → Option β)
    (hf : ∀ c e, f (.define c e) = none) : t.filterMap f = t'.filterMap f := by
  induction h with
  | nil => rfl
  | cons hk _ ih =>
    cases hk with
    | same => simp only [List.filterMap_cons, ih]
    | define c => simp only [List.filterMap_cons, hf, ih]

/-- Every class has the same structure, but for the order of a union. -/
lemma classify (c : ClassName) : (t.classify c).Reorders (t'.classify c) := by
  induction h with
  | nil => exact .same _
  | @cons k k' t t' hk _ ih =>
    cases hk with
    | define d he =>
      by_cases hd : d = c
      · subst hd
        simpa only [classify_define] using he
      · simpa only [classify_define_of_ne _ hd] using ih
    | same =>
      cases k with
      | define d e =>
        by_cases hd : d = c
        · subst hd
          simpa only [classify_define] using .same e
        · simpa only [classify_define_of_ne _ hd] using ih
      | _ => exact ih

/-- The catalogs differ in the structures of classes only. -/
lemma catalog_eq :
    t'.catalog = { t.catalog with classify := t'.catalog.classify } := by
  have hview := @filterMap_eq t t' h
  simp only [catalog, classes, properties, Catalog.mk.injEq, Hierarchy.mk.injEq,
    true_and]
  refine ⟨⟨?_, ?_⟩, ⟨?_, ?_⟩, ?_, ?_⟩ <;>
    exact (hview _ fun _ _ => rfl).symm

end Terminology.Reorders

namespace Reasoner

variable {r : Reasoner} {t t' : Terminology} {c d : ClassName}
  {S : Set Individual} {ds : List ClassName}

/-! ### Meanings -/

lemma needs_terminology_iff :
    Needs { r with catalog := t.catalog } c d ↔ d ∈ (t.classify c).operands := by
  simp [Needs, Terminology.catalog]

/-- **The order of unions does not matter** to what classes mean. -/
theorem Denotes.reorders (h : t.Reorders t')
    (hS : Denotes { r with catalog := t.catalog } c S) :
    Denotes { r with catalog := t'.catalog } c S := by
  have hkeep : ∀ {c e}, t.catalog.classify c = .ok e → (∀ ds, e ≠ .union ds) →
      t'.catalog.classify c = .ok e := by
    rintro c e he hne
    obtain rfl := Except.ok.inj he
    exact congrArg Except.ok ((h.classify c).eq_of_ne_union hne)
  rw [h.catalog_eq]
  induction hS with
  | @union c ds F hc _ ih =>
    obtain ⟨es, hes, hperm⟩ := (Except.ok.inj hc ▸ h.classify c).exists_union
    simp only [hperm.mem_iff] at ih ⊢
    exact .union (congrArg Except.ok hes) ih
  | named hc => exact .named (hkeep hc (by simp))
  | oneOf hc => exact .oneOf (hkeep hc (by simp))
  | complement hc _ ih => exact .complement (hkeep hc (by simp)) ih
  | intersection hc _ ih => exact .intersection (hkeep hc (by simp)) ih
  | disjoint hc _ hempty ih => exact .disjoint (hkeep hc (by simp)) ih hempty
  | unbounded hc hx => exact .unbounded (hkeep hc (by simp)) hx
  | restriction hc hx hfiller =>
    exact .restriction (hkeep hc (by simp)) hx hfiller
  | qualified hc hx hfiller _ ih =>
    exact .qualified (hkeep hc (by simp)) hx hfiller ih

/-! ### The limit -/

/-- The limit stops a query on a path of dependencies one longer than it, that
comes to no class twice before its end. -/
lemma path_of_tooDeep {limit : ℕ} (h : r.members c = .error (.tooDeep limit)) :
    ∃ ds, (c :: ds).IsChain r.Needs ∧ ds.length = r.maxDepth + 1 ∧
      (c :: ds).dropLast.Nodup := by
  cases causes_of_members h with
  | path hds hlength hnodup => exact ⟨_, hds, hlength, hnodup⟩

/-- What a path of dependencies comes to before its end is defined. -/
lemma defined_of_isChain
    (h : (c :: ds).IsChain (Needs { r with catalog := t.catalog })) :
    (c :: ds).dropLast ⊆ t.defined := by
  induction ds generalizing c with
  | nil => simp
  | cons d ds ih =>
    obtain ⟨hcd, hds⟩ := List.isChain_cons_cons.mp h
    rw [List.dropLast_cons_cons, List.cons_subset]
    refine ⟨?_, ih hds⟩
    by_contra hc
    rw [needs_terminology_iff, Terminology.classify_of_notMem_defined hc] at hcd
    exact absurd hcd List.not_mem_nil

/-! ### Answers -/

/-- Two answers are alike: the same members, or an error each. -/
def AnswersAlike (x y : Except MembershipError (List Individual)) : Prop :=
  (∃ is js, x = .ok is ∧ y = .ok js ∧ ∀ i, i ∈ is ↔ i ∈ js) ∨
    (∃ e, x = .error e) ∧ ∃ e, y = .error e

/-- An answer is found in every order of the unions, unless the limit stops the
query. -/
lemma members_reorders_of_ok (h : t.Reorders t') {is : List Individual}
    (his : members { r with catalog := t.catalog } c = .ok is) :
    (∃ js, members { r with catalog := t'.catalog } c = .ok js ∧
        ∀ i, i ∈ is ↔ i ∈ js) ∨
      members { r with catalog := t'.catalog } c = .error (.tooDeep r.maxDepth) := by
  have hdenotes := (denotes_of_members his).reorders h
  refine (members_of_denotes hdenotes).imp_left ?_
  rintro ⟨js, hjs, hset⟩
  exact ⟨js, hjs, fun i => (Set.ext_iff.mp hset i).symm⟩

/-- **Unions in another order**: if the members of unions are put in another
order, a query has the same members or an error both before and after, unless it
is stopped by the limit on one side alone. This happens only where a path of
dependencies, along different classes, is longer than the limit, and so not if
there are no more definitions than the limit says. -/
theorem members_reorders (r : Reasoner) (h : t.Reorders t') (c : ClassName) :
    let before := members { r with catalog := t.catalog } c
    let after := members { r with catalog := t'.catalog } c
    (AnswersAlike before after ∨
      (((∃ is, before = .ok is) ∧ after = .error (.tooDeep r.maxDepth)) ∨
        before = .error (.tooDeep r.maxDepth) ∧ ∃ is, after = .ok is) ∧
      ∃ ds, (c :: ds).IsChain (Needs { r with catalog := t.catalog }) ∧
        ds.length = r.maxDepth + 1 ∧ (c :: ds).dropLast.Nodup) ∧
    (t.defined.length ≤ r.maxDepth → AnswersAlike before after) := by
  intro before after
  have hmain : AnswersAlike before after ∨
      (((∃ is, before = .ok is) ∧ after = .error (.tooDeep r.maxDepth)) ∨
        before = .error (.tooDeep r.maxDepth) ∧ ∃ is, after = .ok is) ∧
      ∃ ds, (c :: ds).IsChain (Needs { r with catalog := t.catalog }) ∧
        ds.length = r.maxDepth + 1 ∧ (c :: ds).dropLast.Nodup := by
    cases hbefore : before with
    | ok is =>
      rcases members_reorders_of_ok h hbefore with ⟨js, hjs, hiff⟩ | hdeep
      · exact .inl (.inl ⟨is, js, rfl, hjs, hiff⟩)
      · -- the path is one of the dependencies before, since these are the same
        obtain ⟨ds, hds, hpath⟩ := path_of_tooDeep hdeep
        refine .inr ⟨.inl ⟨⟨is, rfl⟩, hdeep⟩, ds, hds.imp fun x y hxy => ?_, hpath⟩
        rw [needs_terminology_iff] at hxy ⊢
        exact (h.classify x).mem_operands_iff.mpr hxy
    | error e =>
      cases hafter : after with
      | ok js =>
        rcases members_reorders_of_ok h.symm hafter with ⟨is, his, -⟩ | hdeep
        · cases hbefore.symm.trans his
        · obtain rfl := Except.error.inj (hbefore.symm.trans hdeep)
          exact .inr ⟨.inr ⟨rfl, js, rfl⟩, path_of_tooDeep hdeep⟩
      | error e' => exact .inl (.inr ⟨⟨e, rfl⟩, e', rfl⟩)
  refine ⟨hmain, fun hlimit => hmain.resolve_right ?_⟩
  rintro ⟨-, ds, hds, hlength, hnodup⟩
  have hle := (List.subperm_of_subset hnodup (defined_of_isChain hds)).length_le
  simp only [List.length_dropLast, List.length_cons] at hle
  omega

/-- Guests are poets and readers, and readers are poets. With a limit of two
definitions it does not matter who comes first. -/
theorem members_reorders_of_guests :
    let byron : Individual := .iri ⟨"e:byron"⟩
    let poet : ClassName := .iri ⟨"e:Poet"⟩
    let reader : ClassName := .iri ⟨"e:Reader"⟩
    let guest : ClassName := .iri ⟨"e:Guest"⟩
    let r : Reasoner := {
      facts := (Store.run {} [.tell (.instanceOf byron poet)]).facts
      catalog := Terminology.catalog []
      maxDepth := 2 }
    let t : Terminology :=
      [.define guest (.union [poet, reader]), .define reader (.union [poet])]
    let t' : Terminology :=
      [.define guest (.union [reader, poet]), .define reader (.union [poet])]
    t.Reorders t' ∧ t.defined.length ≤ r.maxDepth ∧
      members { r with catalog := t.catalog } guest = .ok [byron] ∧
      AnswersAlike (members { r with catalog := t.catalog } guest)
        (members { r with catalog := t'.catalog } guest) := by
  intro byron poet reader guest r t t'
  have hreorders : t.Reorders t' :=
    .cons (.define guest (.union (.swap reader poet []))) (.cons (.same _) .nil)
  have hlimit : t.defined.length ≤ r.maxDepth := by decide
  exact ⟨hreorders, hlimit, by decide +kernel,
    (members_reorders r hreorders guest).2 hlimit⟩

/-- With a limit of one, guests are found if the poets come before the readers:
the poets are known when the readers ask for them. If the readers come first,
their asking for the poets is one too deep. -/
theorem members_depend_on_order :
    let byron : Individual := .iri ⟨"e:byron"⟩
    let poet : ClassName := .iri ⟨"e:Poet"⟩
    let reader : ClassName := .iri ⟨"e:Reader"⟩
    let guest : ClassName := .iri ⟨"e:Guest"⟩
    let r : Reasoner := {
      facts := (Store.run {} [.tell (.instanceOf byron poet)]).facts
      catalog := Terminology.catalog []
      maxDepth := 1 }
    let t : Terminology :=
      [.define guest (.union [poet, reader]), .define reader (.union [poet])]
    let t' : Terminology :=
      [.define guest (.union [reader, poet]), .define reader (.union [poet])]
    t.Reorders t' ∧
      members { r with catalog := t.catalog } guest = .ok [byron] ∧
      members { r with catalog := t'.catalog } guest = .error (.tooDeep 1) ∧
      ¬ AnswersAlike (members { r with catalog := t.catalog } guest)
        (members { r with catalog := t'.catalog } guest) := by
  intro byron poet reader guest r t t'
  have hbefore : members { r with catalog := t.catalog } guest = .ok [byron] := by
    decide +kernel
  have hafter : members { r with catalog := t'.catalog } guest =
      .error (.tooDeep 1) := by decide +kernel
  refine ⟨.cons (.define guest (.union (.swap reader poet []))) (.cons (.same _) .nil),
    hbefore, hafter, ?_⟩
  rw [hbefore, hafter]
  rintro (⟨_, _, _, h, _⟩ | ⟨⟨_, h⟩, _⟩) <;> cases h

end Reasoner

end Ontology
