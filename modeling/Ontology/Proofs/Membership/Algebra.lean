/-
The algebra of unions, intersections and complements.

* `Reasoner.meaning`: what a class means, as a function of its name;
  `mem_meaning_complement_iff` and its like: the meaning of a composite from the
  meanings of its operands.
* `Reasoner.Complements`: the complements of some classes.
  `mem_meaning_complement_of_union_iff`, `mem_meaning_complement_of_intersection_iff`:
  the laws of De Morgan.
* `composites_form_boolean_algebra`: the laws, for the members that queries find.
-/
import Ontology.Proofs.Membership.Restrictions

namespace Ontology.Reasoner

variable {r : Reasoner} {b c d u : ClassName} {bs cs : List ClassName}
  {is js : List Individual} {S : Set Individual} {i : Individual}

/-! ### Meanings -/

/-- What a class means, and nothing if it has no meaning. -/
def meaning (r : Reasoner) (c : ClassName) : Set Individual :=
  {i | ∃ S, r.Denotes c S ∧ i ∈ S}

/-- A class has a meaning. -/
def Meaningful (r : Reasoner) (c : ClassName) : Prop := ∃ S, r.Denotes c S

lemma Denotes.eq_meaning (h : r.Denotes c S) : S = r.meaning c :=
  Set.ext fun _ => ⟨fun hi => ⟨S, h, hi⟩, fun ⟨_, hT, hi⟩ => h.unique hT ▸ hi⟩

lemma Meaningful.denotes (h : r.Meaningful c) : r.Denotes c (r.meaning c) := by
  obtain ⟨S, hS⟩ := h
  exact hS.eq_meaning ▸ hS

lemma meaningful_of_members (h : r.members c = .ok is) : r.Meaningful c :=
  ⟨_, denotes_of_members h⟩

/-- The members that a query finds are those of the meaning. -/
lemma mem_members_iff (h : r.members c = .ok is) : i ∈ is ↔ i ∈ r.meaning c :=
  Set.ext_iff.mp (denotes_of_members h).eq_meaning i

section Complement

variable (hc : r.catalog.classify c = .ok (.complement b))

include hc

lemma meaningful_complement_iff : r.Meaningful c ↔ r.Meaningful b := by
  refine ⟨fun ⟨_, h⟩ => ?_, fun h => ⟨_, .complement hc h.denotes⟩⟩
  cases h with
  | complement hc' hb =>
    cases hc.symm.trans hc'
    exact ⟨_, hb⟩
  | _ => simp_all

lemma mem_meaning_complement_iff (hb : r.Meaningful b) :
    i ∈ r.meaning c ↔ i ∈ r.facts.individuals ∧ i ∉ r.meaning b :=
  Set.ext_iff.mp (Denotes.complement hc hb.denotes).eq_meaning.symm i

/-- A complement is found from the members of its operand. -/
lemma exists_members_of_complement (h : r.members c = .ok js) :
    ∃ is, r.members b = .ok is ∧ ∀ i, i ∈ js ↔ i ∈ r.facts.individuals ∧ i ∉ is := by
  obtain ⟨q, hrun⟩ := exists_interpret_of_members hc h
  obtain ⟨is, p, hb, -⟩ := Query.bind_eq_ok_iff.mp hrun
  have his : r.members b = .ok is := members_of_evaluate r.maxDepth.le_succ hb
  refine ⟨is, his, fun i => ?_⟩
  rw [mem_members_iff h, mem_meaning_complement_iff hc (meaningful_of_members his),
    mem_members_iff his]

end Complement

section Union

variable (hu : r.catalog.classify u = .ok (.union bs))

include hu

lemma meaningful_union_iff : r.Meaningful u ↔ ∀ b ∈ bs, r.Meaningful b := by
  refine ⟨fun ⟨_, h⟩ => ?_, fun h => ⟨_, .union hu fun b hb => (h b hb).denotes⟩⟩
  cases h with
  | union hu' hbs =>
    cases hu.symm.trans hu'
    exact fun b hb => ⟨_, hbs b hb⟩
  | _ => simp_all

lemma mem_meaning_union_iff (hbs : ∀ b ∈ bs, r.Meaningful b) :
    i ∈ r.meaning u ↔ ∃ b ∈ bs, i ∈ r.meaning b :=
  Set.ext_iff.mp (Denotes.union hu fun b hb => (hbs b hb).denotes).eq_meaning.symm i

end Union

section Intersection

-- an intersection that stops early may have a meaning without these
variable (hu : r.catalog.classify u = .ok (.intersection bs))
  (hbs : ∀ b ∈ bs, r.Meaningful b)

include hu hbs

lemma meaningful_intersection : r.Meaningful u :=
  ⟨_, .intersection hu fun b hb => (hbs b hb).denotes⟩

lemma mem_meaning_intersection_iff :
    i ∈ r.meaning u ↔ bs ≠ [] ∧ ∀ b ∈ bs, i ∈ r.meaning b :=
  Set.ext_iff.mp
    (Denotes.intersection hu fun b hb => (hbs b hb).denotes).eq_meaning.symm i

end Intersection

/-! ### Complements of some classes -/

/-- Classes are the complements of some others, in any order. -/
structure Complements (r : Reasoner) (cs bs : List ClassName) : Prop where
  of_mem : ∀ c ∈ cs, ∃ b ∈ bs, r.catalog.classify c = .ok (.complement b)
  exists_mem : ∀ b ∈ bs, ∃ c ∈ cs, r.catalog.classify c = .ok (.complement b)

namespace Complements

lemma ne_nil (h : r.Complements cs bs) (hbs : bs ≠ []) : cs ≠ [] := by
  obtain ⟨b, hb⟩ := List.exists_mem_of_ne_nil bs hbs
  obtain ⟨c, hc, -⟩ := h.exists_mem b hb
  exact List.ne_nil_of_mem hc

/-- If a complement has one property just if its operand has another, then all
complements have the one just if all operands have the other. -/
lemma forall_iff (h : r.Complements cs bs) {p q : ClassName → Prop}
    (hpq : ∀ c b, b ∈ bs → r.catalog.classify c = .ok (.complement b) →
      (p c ↔ q b)) : (∀ c ∈ cs, p c) ↔ ∀ b ∈ bs, q b := by
  constructor
  · intro hp b hb
    obtain ⟨c, hc, hcb⟩ := h.exists_mem b hb
    exact (hpq c b hb hcb).mp (hp c hc)
  · intro hq c hc
    obtain ⟨b, hb, hcb⟩ := h.of_mem c hc
    exact (hpq c b hb hcb).mpr (hq b hb)

lemma exists_iff (h : r.Complements cs bs) {p q : ClassName → Prop}
    (hpq : ∀ c b, b ∈ bs → r.catalog.classify c = .ok (.complement b) →
      (p c ↔ q b)) : (∃ c ∈ cs, p c) ↔ ∃ b ∈ bs, q b := by
  have hnone : (∀ c ∈ cs, ¬ p c) ↔ ∀ b ∈ bs, ¬ q b :=
    h.forall_iff fun c b hb hcb => not_congr (hpq c b hb hcb)
  simpa using not_congr hnone

lemma meaningful_iff (h : r.Complements cs bs) :
    (∀ c ∈ cs, r.Meaningful c) ↔ ∀ b ∈ bs, r.Meaningful b :=
  h.forall_iff fun _ _ _ hcb => meaningful_complement_iff hcb

end Complements

/-- **The complement of a union** has the individuals that all complements have. -/
theorem mem_meaning_complement_of_union_iff (hbs : bs ≠ [])
    (hcs : r.Complements cs bs) (hm : ∀ b ∈ bs, r.Meaningful b)
    (hu : r.catalog.classify u = .ok (.union bs))
    (hc : r.catalog.classify c = .ok (.complement u))
    (hd : r.catalog.classify d = .ok (.intersection cs)) :
    i ∈ r.meaning c ↔ i ∈ r.meaning d := by
  obtain ⟨b₀, hb₀⟩ := List.exists_mem_of_ne_nil bs hbs
  calc i ∈ r.meaning c
    _ ↔ i ∈ r.facts.individuals ∧ i ∉ r.meaning u :=
      mem_meaning_complement_iff hc ((meaningful_union_iff hu).mpr hm)
    _ ↔ i ∈ r.facts.individuals ∧ ∀ b ∈ bs, i ∉ r.meaning b := by
      simp [mem_meaning_union_iff hu hm]
    _ ↔ ∀ b ∈ bs, i ∈ r.facts.individuals ∧ i ∉ r.meaning b :=
      ⟨fun ⟨hi, h⟩ b hb => ⟨hi, h b hb⟩,
        fun h => ⟨(h b₀ hb₀).1, fun b hb => (h b hb).2⟩⟩
    _ ↔ ∀ c ∈ cs, i ∈ r.meaning c :=
      (hcs.forall_iff fun _ b hb hcb => mem_meaning_complement_iff hcb (hm b hb)).symm
    _ ↔ i ∈ r.meaning d := by
      rw [mem_meaning_intersection_iff hd (hcs.meaningful_iff.mpr hm),
        and_iff_right (hcs.ne_nil hbs)]

/-- **The complement of an intersection** has the individuals that some complement
has. -/
theorem mem_meaning_complement_of_intersection_iff (hbs : bs ≠ [])
    (hcs : r.Complements cs bs) (hm : ∀ b ∈ bs, r.Meaningful b)
    (hu : r.catalog.classify u = .ok (.intersection bs))
    (hc : r.catalog.classify c = .ok (.complement u))
    (hd : r.catalog.classify d = .ok (.union cs)) :
    i ∈ r.meaning c ↔ i ∈ r.meaning d := by
  calc i ∈ r.meaning c
    _ ↔ i ∈ r.facts.individuals ∧ i ∉ r.meaning u :=
      mem_meaning_complement_iff hc (meaningful_intersection hu hm)
    _ ↔ i ∈ r.facts.individuals ∧ ∃ b ∈ bs, i ∉ r.meaning b := by
      simp [mem_meaning_intersection_iff hu hm, hbs]
    _ ↔ ∃ b ∈ bs, i ∈ r.facts.individuals ∧ i ∉ r.meaning b := by
      simp only [← exists_and_left, and_left_comm]
    _ ↔ ∃ c ∈ cs, i ∈ r.meaning c :=
      (hcs.exists_iff fun _ b hb hcb => mem_meaning_complement_iff hcb (hm b hb)).symm
    _ ↔ i ∈ r.meaning d :=
      (mem_meaning_union_iff hd (hcs.meaningful_iff.mpr hm)).symm

/-! ### The members of composites -/

/-- Two queries that both succeed find the same members. -/
def SameMembers (r r' : Reasoner) (c d : ClassName) : Prop :=
  ∀ is js, r.members c = .ok is → r'.members d = .ok js → ∀ i, i ∈ is ↔ i ∈ js

/-- Intersections of the same classes have the same members, whatever catalog
describes them, if nothing else about the structures differs. -/
lemma sameMembers_of_rearranges
    {structures : ClassName → Except CatalogError ClassExpression}
    (h : ∀ c e e', r.catalog.classify c = .ok e → structures c = .ok e' →
      e.Rearranges e')
    (hcd : ∀ e e', r.catalog.classify c = .ok e → structures d = .ok e' →
      e.Rearranges e') : SameMembers r (r.redescribed structures) c d := by
  intro is js his hjs
  exact Set.ext_iff.mp
    ((denotes_of_members his).eq_of_rearranges h hcd (denotes_of_members hjs))

/-- **Composites form a Boolean algebra** over the known individuals. Of all
queries that succeed: the complement of a union of some classes finds what the
intersection of their complements does, and the complement of their intersection
what the union of the complements does; a complement of a complement has the
known members of a class; a class and its complement have no member in common, and
have all known individuals together; and neither the order nor the repetitions of
an intersection matter, between two classes or between two catalogs. -/
theorem composites_form_boolean_algebra (r : Reasoner) :
    (∀ bs cs u c d, bs ≠ [] → r.Complements cs bs →
      r.catalog.classify u = .ok (.union bs) →
      r.catalog.classify c = .ok (.complement u) →
      r.catalog.classify d = .ok (.intersection cs) → SameMembers r r c d) ∧
    (∀ bs cs u c d, bs ≠ [] → r.Complements cs bs →
      r.catalog.classify u = .ok (.intersection bs) →
      r.catalog.classify c = .ok (.complement u) →
      r.catalog.classify d = .ok (.union cs) → SameMembers r r c d) ∧
    (∀ a b c, r.catalog.classify b = .ok (.complement a) →
      r.catalog.classify c = .ok (.complement b) →
      ∀ ks, r.members c = .ok ks → ∃ is, r.members a = .ok is ∧
        ∀ i, i ∈ ks ↔ i ∈ r.facts.individuals ∧ i ∈ is) ∧
    (∀ a b, r.catalog.classify b = .ok (.complement a) →
      ∀ js, r.members b = .ok js → ∃ is, r.members a = .ok is ∧
        (∀ i, ¬ (i ∈ is ∧ i ∈ js)) ∧
          ∀ i ∈ r.facts.individuals, i ∈ is ∨ i ∈ js) ∧
    (∀ ds es c d, (∀ b, b ∈ ds ↔ b ∈ es) →
      r.catalog.classify c = .ok (.intersection ds) →
      r.catalog.classify d = .ok (.intersection es) → SameMembers r r c d) ∧
    ∀ structures, (∀ c e e', r.catalog.classify c = .ok e →
      structures c = .ok e' → e.Rearranges e') →
      ∀ c, SameMembers r (r.redescribed structures) c c := by
  refine ⟨?_, ?_, ?_, ?_, ?_, fun structures h c => sameMembers_of_rearranges h (h c)⟩
  · intro bs cs u c d hbs hcs hu hc hd is js his hjs i
    have hm : ∀ b ∈ bs, r.Meaningful b := (meaningful_union_iff hu).mp
      ((meaningful_complement_iff hc).mp (meaningful_of_members his))
    rw [mem_members_iff his, mem_members_iff hjs]
    exact mem_meaning_complement_of_union_iff hbs hcs hm hu hc hd
  · intro bs cs u c d hbs hcs hu hc hd is js his hjs i
    have hm : ∀ b ∈ bs, r.Meaningful b := hcs.meaningful_iff.mp
      ((meaningful_union_iff hd).mp (meaningful_of_members hjs))
    rw [mem_members_iff his, mem_members_iff hjs]
    exact mem_meaning_complement_of_intersection_iff hbs hcs hm hu hc hd
  · intro a b c hb hc ks hks
    obtain ⟨js, hjs, hmem⟩ := exists_members_of_complement hc hks
    obtain ⟨is, his, hmem'⟩ := exists_members_of_complement hb hjs
    refine ⟨is, his, fun i => ?_⟩
    rw [hmem, hmem']
    tauto
  · intro a b hb js hjs
    obtain ⟨is, his, hmem⟩ := exists_members_of_complement hb hjs
    refine ⟨is, his, fun i ⟨hi, hi'⟩ => ((hmem i).mp hi').2 hi, fun i hi => ?_⟩
    rw [hmem]
    tauto
  · intro ds es c d hds hc hd
    refine sameMembers_of_rearranges
      (fun _ _ _ he he' => .inl (Except.ok.inj (he.symm.trans he')))
      fun e e' he he' => .inr ⟨ds, es, ?_, ?_, hds⟩
    · exact Except.ok.inj (he.symm.trans hc)
    · exact Except.ok.inj (he'.symm.trans hd)

/-- Ada and Byron are poets, and Charles and Dora are known. Ada is a guest, and so
is a stranger of whom nothing is known. -/
theorem composites_form_boolean_algebra_of_guests :
    let ada : Individual := .iri ⟨"e:ada"⟩
    let byron : Individual := .iri ⟨"e:byron"⟩
    let charles : Individual := .iri ⟨"e:charles"⟩
    let dora : Individual := .iri ⟨"e:dora"⟩
    let stranger : Individual := .iri ⟨"e:stranger"⟩
    let named (n : String) : ClassName := .iri ⟨n⟩
    let poet := named "e:Poet"
    let guest := named "e:Guest"
    let notPoet := named "e:NotPoet"
    let notGuest := named "e:NotGuest"
    let either := named "e:Either"
    let neither := named "e:Neither"
    let both := named "e:Both"
    let again := named "e:Again"
    let r : Reasoner := {
      facts := (Store.run {} [
        .tell (.instanceOf ada poet), .tell (.instanceOf byron poet),
        .tell (.individual charles), .tell (.individual dora)]).facts
      catalog := Terminology.catalog [
        .define guest (.oneOf [ada, stranger]),
        .define notPoet (.complement poet), .define notGuest (.complement guest),
        .define either (.union [poet, guest]), .define neither (.complement either),
        .define (named "e:AllNot") (.intersection [notGuest, notPoet]),
        .define both (.intersection [poet, guest]),
        .define (named "e:NotBoth") (.complement both),
        .define (named "e:SomeNot") (.union [notGuest, notPoet]),
        .define (named "e:NotNotGuest") (.complement notGuest),
        .define again (.intersection [guest, poet, guest])] }
    let r' : Reasoner := r.redescribed fun c =>
      if c = both then .ok (.intersection [guest, guest, poet])
      else r.catalog.classify c
    (r.members neither = .ok [charles, dora] ∧
      r.members (named "e:AllNot") = .ok [charles, dora] ∧
      SameMembers r r neither (named "e:AllNot")) ∧
    (r.members (named "e:NotBoth") = .ok [byron, charles, dora] ∧
      r.members (named "e:SomeNot") = .ok [byron, charles, dora] ∧
      SameMembers r r (named "e:NotBoth") (named "e:SomeNot")) ∧
    (r.members (named "e:NotNotGuest") = .ok [ada] ∧
      ∃ is, r.members guest = .ok is ∧
        ∀ i, i ∈ [ada] ↔ i ∈ r.facts.individuals ∧ i ∈ is) ∧
    (r.members notGuest = .ok [byron, charles, dora] ∧
      ∃ is, r.members guest = .ok is ∧
        (∀ i, ¬ (i ∈ is ∧ i ∈ [byron, charles, dora])) ∧
          ∀ i ∈ r.facts.individuals, i ∈ is ∨ i ∈ [byron, charles, dora]) ∧
    (r.members both = .ok [ada] ∧ r.members again = .ok [ada] ∧
      SameMembers r r both again) ∧
    r'.members both = .ok [ada] ∧ SameMembers r r' both both := by
  intro ada byron charles dora stranger named poet guest notPoet notGuest either
    neither both again r r'
  have hcs : r.Complements [notGuest, notPoet] [poet, guest] := {
    of_mem := List.forall_mem_cons.mpr ⟨⟨guest, by simp, rfl⟩,
      List.forall_mem_singleton.mpr ⟨poet, by simp, rfl⟩⟩
    exists_mem := List.forall_mem_cons.mpr ⟨⟨notPoet, by simp, rfl⟩,
      List.forall_mem_singleton.mpr ⟨notGuest, by simp, rfl⟩⟩ }
  have hsame : ∀ b, b ∈ [poet, guest] ↔ b ∈ [guest, poet, guest] := by simp
  have hstructures : ∀ c e e', r.catalog.classify c = .ok e →
      r'.catalog.classify c = .ok e' → e.Rearranges e' := by
    intro c e e' he he'
    by_cases hc : c = both
    · subst hc
      cases he
      cases he'
      exact .inr ⟨_, _, rfl, rfl, by simp; tauto⟩
    · have heq : r'.catalog.classify c = r.catalog.classify c := if_neg hc
      exact .inl (Except.ok.inj (he.symm.trans (heq.symm.trans he')))
  have htwice : r.members (named "e:NotNotGuest") = .ok [ada] := by decide +kernel
  have honce : r.members notGuest = .ok [byron, charles, dora] := by decide +kernel
  obtain ⟨hunion, hintersection, hinvolution, hcomplement, horder, hcatalogs⟩ :=
    composites_form_boolean_algebra r
  refine ⟨⟨by decide +kernel, by decide +kernel, ?_⟩,
    ⟨by decide +kernel, by decide +kernel, ?_⟩,
    ⟨htwice, hinvolution guest notGuest _ rfl rfl _ htwice⟩,
    ⟨honce, hcomplement guest _ rfl _ honce⟩,
    ⟨by decide +kernel, by decide +kernel, horder _ _ _ _ hsame rfl rfl⟩,
    by decide +kernel, hcatalogs _ hstructures both⟩
  · exact hunion _ _ either _ _ (by simp) hcs rfl rfl rfl
  · exact hintersection _ _ both _ _ (by simp) hcs rfl rfl rfl

end Ontology.Reasoner
