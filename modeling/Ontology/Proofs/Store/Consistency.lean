/-
Protected stores are consistent.

* `Facts.Contrary`: two assertions of opposite polarity about equal subjects
  and equal objects; `Facts.Consistent`: no two assertions are contrary, and
  no individuals declared to be different are equal.
* `Facts.mergeOpposes_iff_contrary`: looking at the assertions about two
  individuals alone finds out whether making one of them leads to contrary
  assertions.
* `Facts.conflict?_isSome_iff`: a statement is found to contradict consistent
  facts when recording it would make them inconsistent, or when it declares an
  instance of a reserved class, and only then.
* `Store.run_consistent`: the facts of a protected store stay consistent;
  `Store.run_states_nothing_denied` and `Store.run_distinguishes_nothing_equal`
  say what that excludes.
-/
import Mathlib.Tactic.ByContra
import Ontology.Proofs.Store.Content
import Ontology.Proofs.Store.Runs

namespace Ontology

namespace Facts

variable {f g : Facts} {a b c i j : Individual} {x y : Assertion}

/-! ### Consistent facts -/

/-- One of two assertions denies what the other states. -/
structure Contrary (f : Facts) (x y : Assertion) : Prop where
  polarity : y.polarity = x.polarity.opposite
  property : y.property = x.property
  subject : y.subject ∈ f.equals x.subject
  object : f.SameTerm x.object y.object

/-- Nothing is both stated and denied, and nothing is both equal and declared
to be different. -/
structure Consistent (f : Facts) : Prop where
  noContrary : ∀ x ∈ f.assertions, ∀ y ∈ f.assertions, ¬ f.Contrary x y
  apart : ∀ a b, b ∈ f.declaredDifferent a → b ∉ f.equals a

lemma Contrary.symm (h : f.Contrary x y) : f.Contrary y x where
  polarity := by rw [h.polarity, Polarity.opposite_opposite]
  property := h.property.symm
  subject := mem_equals_comm.mp h.subject
  object := h.object.symm

/-- Whether assertions are contrary depends on the equality of individuals
alone, and grows with it. -/
lemma Contrary.mono (h : f.Contrary x y)
    (hsub : ∀ a b, b ∈ f.equals a → b ∈ g.equals a) : g.Contrary x y where
  polarity := h.polarity
  property := h.property
  subject := hsub _ _ h.subject
  object := by
    have hobject := h.object
    cases hx : x.object <;> cases hy : y.object <;>
      simp only [hx, hy, SameTerm] at hobject ⊢
    · exact hsub _ _ hobject
    · exact hobject

/-- Milder facts are consistent if stricter ones are. -/
lemma Consistent.of_milder (hg : g.Consistent) (h : f.Milder g) :
    f.Consistent where
  noContrary x hx y hy hxy :=
    hg.noContrary x (h.assertions x hx) y (h.assertions y hy)
      (hxy.mono fun _ _ => h.mem_equals)
  apart a b hdiff heq :=
    hg.apart a b (h.declaredDifferent a b hdiff) (h.mem_equals heq)

/-- Fewer facts are consistent if more of them are. -/
lemma Consistent.of_within (hg : g.Consistent) (h : f.Within g) :
    f.Consistent :=
  hg.of_milder h.milder

/-- In consistent facts no individuals are both equal and known to be
different, by whatever declarations. -/
lemma Consistent.not_mem_different (hf : f.Consistent) (hb : b ∈ f.equals a) :
    b ∉ f.different a := by
  intro hdiff
  obtain ⟨_, a', ha', b', hb', hbb'⟩ := mem_different.mp hdiff
  -- `a'` and `b'` are declared different, and equal by way of `a` and `b`
  refine hf.apart a' b' hb' ?_
  have haa' : a ∈ f.equals a' := mem_equals_comm.mp ha'
  have hbb'' : b' ∈ f.equals b := mem_equals_comm.mp hbb'
  exact mem_equals_trans (mem_equals_trans haa' hb) hbb''

lemma declaredDifferent_comm :
    b ∈ f.declaredDifferent a ↔ a ∈ f.declaredDifferent b := by
  rw [mem_declaredDifferent, mem_declaredDifferent]
  grind

/-- Nothing contradicts no facts. -/
lemma consistent_empty : Consistent {} where
  noContrary := by simp
  apart a b := by simp [mem_declaredDifferent]

/-! ### A new assertion -/

lemma sameTerm_node_iff {o : Individual} {v : Rdf.Term} :
    f.SameTerm (.node o) v ↔ isAmong (f.equals o) v := by
  cases v <;> simp [SameTerm, isAmong, Rdf.Term.node?]

lemma sameTerm_literal_iff {l : Rdf.Literal} {v : Rdf.Term} :
    f.SameTerm (.literal l) v ↔ hasValueOf l v := by
  cases v <;> simp [SameTerm, hasValueOf, Rdf.Term.literal?,
    Rdf.Literal.sameValue_comm]

/-- A search of the known assertions for one about equal subjects and equal
objects finds a contrary one; equality may be that of other facts. -/
lemma anyAssertion_iff_contrary (x : Assertion) {subjects : List Individual}
    {test : Rdf.Term → Bool}
    (hsubjects : ∀ i, i ∈ subjects ↔ i ∈ g.equals x.subject)
    (htest : ∀ v, test v ↔ g.SameTerm x.object v) :
    f.anyAssertion x.polarity.opposite x.property subjects test ↔
      ∃ y ∈ f.assertions, g.Contrary x y := by
  rw [anyAssertion_iff]
  constructor
  · rintro ⟨s, hs, v, hy, hv⟩
    exact ⟨_, hy, rfl, rfl, (hsubjects s).mp hs, (htest v).mp hv⟩
  · rintro ⟨⟨polarity, s, p, v⟩, hy, hpolarity, hproperty, hs, hv⟩
    obtain rfl : polarity = x.polarity.opposite := hpolarity
    obtain rfl : p = x.property := hproperty
    exact ⟨s, (hsubjects s).mpr hs, v, hy, (htest v).mpr hv⟩

/-- An assertion is opposed by a contrary one. -/
lemma opposes_iff_contrary :
    f.opposes x ↔ ∃ y ∈ f.assertions, f.Contrary x y := by
  obtain ⟨polarity, s, p, v⟩ := x
  cases v with
  | node o =>
    exact anyAssertion_iff_contrary ⟨polarity, s, p, .node o⟩
      (fun _ => .rfl) fun _ => sameTerm_node_iff.symm
  | literal l =>
    exact anyAssertion_iff_contrary ⟨polarity, s, p, .literal l⟩
      (fun _ => .rfl) fun _ => sameTerm_literal_iff.symm

/-- No assertion is contrary to itself. -/
lemma not_contrary_self : ¬ f.Contrary x x := by
  intro h
  have := h.polarity
  cases hx : x.polarity <;> simp [hx, Polarity.opposite] at this

/-- A new assertion makes consistent facts inconsistent when it is opposed. -/
lemma consistent_add_assertion_iff (hf : f.Consistent) :
    (f.add (.assertion x)).Consistent ↔ ¬ f.opposes x := by
  have hassertions : (f.add (.assertion x)).assertions = f.assertions ++ [x] := rfl
  rw [opposes_iff_contrary]
  constructor
  · rintro h ⟨y, hy, hxy⟩
    have hxmem : x ∈ (f.add (.assertion x)).assertions :=
      List.mem_append_right _ (List.mem_singleton_self x)
    have hymem : y ∈ (f.add (.assertion x)).assertions :=
      List.mem_append_left _ hy
    exact h.noContrary x hxmem y hymem (hxy.mono fun _ _ => id)
  · intro h
    refine ⟨fun y hy z hz hyz => ?_, hf.apart⟩
    have hyz' : f.Contrary y z := hyz.mono fun _ _ => id
    rw [hassertions, List.mem_append, List.mem_singleton] at hy hz
    rcases hy with hy | rfl <;> rcases hz with hz | rfl
    · exact hf.noContrary y hy z hz hyz'
    · exact h ⟨y, hy, hyz'.symm⟩
    · exact h ⟨z, hz, hyz'⟩
    · exact not_contrary_self hyz'

/-! ### A new equality -/

/-- Two individuals are equal after a pair is recorded if they were before, or
if the pair bridges them. -/
lemma mem_equals_add_sameAs :
    j ∈ (f.add (.sameAs a b)).equals i ↔
      j ∈ f.equals i ∨ (a ∈ f.equals i ∧ j ∈ f.equals b) ∨
        (b ∈ f.equals i ∧ j ∈ f.equals a) := by
  simp only [mem_equals]
  exact Edges.reaches_both_concat

/-- The names of an individual after a merge are its names after the pair is
recorded. -/
lemma mem_equalsAfter :
    j ∈ f.equalsAfter (f.equals a ++ f.equals b) i ↔
      j ∈ (f.add (.sameAs a b)).equals i := by
  rw [mem_equals_add_sameAs, equalsAfter]
  by_cases hi : i ∈ f.equals a ++ f.equals b
  · rw [if_pos hi, List.mem_append]
    rcases List.mem_append.mp hi with ha | hb
    · have hai : a ∈ f.equals i := mem_equals_comm.mp ha
      constructor
      · rintro (h | h)
        · exact .inl (mem_equals_trans hai h)
        · exact .inr (.inl ⟨hai, h⟩)
      · rintro (h | ⟨_, h⟩ | ⟨_, h⟩)
        · exact .inl (mem_equals_trans ha h)
        · exact .inr h
        · exact .inl h
    · have hbi : b ∈ f.equals i := mem_equals_comm.mp hb
      constructor
      · rintro (h | h)
        · exact .inr (.inr ⟨hbi, h⟩)
        · exact .inl (mem_equals_trans hbi h)
      · rintro (h | ⟨_, h⟩ | ⟨_, h⟩)
        · exact .inr (mem_equals_trans hb h)
        · exact .inr h
        · exact .inl h
  · rw [if_neg hi]
    rw [List.mem_append, not_or, mem_equals_comm, mem_equals_comm (a := b)] at hi
    tauto

/-- A merge that touches neither side of an assertion makes no other assertion
contrary to it. -/
lemma contrary_of_untouched
    (hsubject : x.subject ∉ f.equals a ++ f.equals b)
    (hobject : ∀ o, x.object = .node o → o ∉ f.equals a ++ f.equals b)
    (h : (f.add (.sameAs a b)).Contrary x y) : f.Contrary x y where
  polarity := h.polarity
  property := h.property
  subject := by
    have := mem_equalsAfter.mpr h.subject
    rwa [equalsAfter, if_neg hsubject] at this
  object := by
    have hxy := h.object
    cases hx : x.object <;> cases hy : y.object <;>
      simp only [hx, hy, SameTerm] at hxy ⊢
    · have := mem_equalsAfter.mpr hxy
      rwa [equalsAfter, if_neg (hobject _ hx)] at this
    · exact hxy

/-- A stated assertion is found to be denied after a merge when the merge
touches it and it is contrary to an assertion then. -/
lemma deniedAfter_iff_contrary (hx : x.polarity = .positive) :
    f.deniedAfter (f.equals a ++ f.equals b) x ↔
      (x.subject ∈ f.equals a ++ f.equals b ∨
        ∃ o, x.object = .node o ∧ o ∈ f.equals a ++ f.equals b) ∧
      ∃ y ∈ f.assertions, (f.add (.sameAs a b)).Contrary x y := by
  obtain ⟨polarity, s, p, v⟩ := x
  obtain rfl : polarity = .positive := hx
  have hsubjects : ∀ i, i ∈ f.equalsAfter (f.equals a ++ f.equals b) s ↔
      i ∈ (f.add (.sameAs a b)).equals s := fun _ => mem_equalsAfter
  cases v with
  | node o =>
    have htest : ∀ v, isAmong (f.equalsAfter (f.equals a ++ f.equals b) o) v ↔
        (f.add (.sameAs a b)).SameTerm (.node o) v := fun v => by
      rw [sameTerm_node_iff]
      simp only [isAmong, Option.any_eq_true, List.contains_iff_mem,
        mem_equalsAfter]
    rw [← anyAssertion_iff_contrary ⟨.positive, s, p, .node o⟩ hsubjects htest]
    simp only [deniedAfter, Bool.and_eq_true, Bool.or_eq_true,
      List.contains_iff_mem, Rdf.Term.node.injEq, exists_eq_left']
    rfl
  | literal l =>
    have htest : ∀ v, hasValueOf l v ↔
        (f.add (.sameAs a b)).SameTerm (.literal l) v := fun v =>
      sameTerm_literal_iff.symm
    rw [← anyAssertion_iff_contrary ⟨.positive, s, p, .literal l⟩ hsubjects htest]
    simp only [deniedAfter, Bool.and_eq_true, List.contains_iff_mem,
      reduceCtorEq, false_and, exists_false, or_false]
    -- the names after the merge are the merged ones, the subject being one
    refine and_congr_right fun hs => ?_
    rw [equalsAfter, if_pos hs]
    rfl

/-- **Merges**: the assertions about two individuals alone tell whether making
one of them leads to contrary assertions. -/
theorem mergeOpposes_iff_contrary
    (hf : ∀ x ∈ f.assertions, ∀ y ∈ f.assertions, ¬ f.Contrary x y) :
    f.mergeOpposes a b ↔
      ∃ x ∈ f.assertions, ∃ y ∈ f.assertions,
        (f.add (.sameAs a b)).Contrary x y := by
  rw [mergeOpposes_iff]
  constructor
  · rintro ⟨x, hx, hpositive, hdenied⟩
    obtain ⟨_, y, hy, hxy⟩ := (deniedAfter_iff_contrary hpositive).mp hdenied
    exact ⟨x, hx, y, hy, hxy⟩
  · rintro ⟨x, hx, y, hy, hxy⟩
    -- one of the two states, and the merge touches it: it was not contrary before
    have key : ∀ x ∈ f.assertions, ∀ y ∈ f.assertions,
        (f.add (.sameAs a b)).Contrary x y → x.polarity = .positive →
        ∃ x ∈ f.assertions, x.polarity = .positive ∧
          f.deniedAfter (f.equals a ++ f.equals b) x := by
      intro x hx y hy hxy hpositive
      refine ⟨x, hx, hpositive, (deniedAfter_iff_contrary hpositive).mpr
        ⟨?_, y, hy, hxy⟩⟩
      by_contra huntouched
      rw [not_or, not_exists] at huntouched
      exact hf x hx y hy (contrary_of_untouched huntouched.1
        (fun o ho hmem => huntouched.2 o ⟨ho, hmem⟩) hxy)
    cases hpolarity : x.polarity with
    | positive => exact key x hx y hy hxy hpolarity
    | negative =>
      refine key y hy x hx hxy.symm ?_
      rw [hxy.polarity, hpolarity]
      rfl

/-- A new pair of equal individuals makes consistent facts inconsistent when
the two are known to be different, or when it merges contrary assertions. -/
lemma consistent_add_sameAs_iff (hf : f.Consistent) (hne : a ≠ b) :
    (f.add (.sameAs a b)).Consistent ↔
      ¬ f.isDifferent a b ∧ ¬ f.mergeOpposes a b := by
  rw [isDifferent_iff, mergeOpposes_iff_contrary hf.noContrary]
  constructor
  · intro h
    refine ⟨fun hdiff => ?_, fun ⟨x, hx, y, hy, hxy⟩ => h.noContrary x hx y hy hxy⟩
    obtain ⟨_, a', ha', b', hb', hbb'⟩ := mem_different.mp hdiff
    refine h.apart a' b' hb' (mem_equals_add_sameAs.mpr (.inr (.inl ⟨?_, ?_⟩)))
    · exact mem_equals_comm.mp ha'
    · exact mem_equals_comm.mp hbb'
  · rintro ⟨hdiff, hmerge⟩
    refine ⟨fun x hx y hy hxy => hmerge ⟨x, hx, y, hy, hxy⟩, fun i j hij heq => ?_⟩
    have hij' : j ∈ f.declaredDifferent i := hij
    rw [mem_different] at hdiff
    rcases mem_equals_add_sameAs.mp heq with heq | ⟨ha, hb⟩ | ⟨hb, ha⟩
    · exact hf.apart i j hij' heq
    · exact hdiff ⟨hne.symm, i, mem_equals_comm.mp ha, j, hij',
        mem_equals_comm.mp hb⟩
    · exact hdiff ⟨hne.symm, j, ha, i, declaredDifferent_comm.mp hij', hb⟩

/-! ### New differences -/

/-- New declared differences leave consistent facts consistent when they are
not between equal individuals. -/
lemma consistent_iff_of_differences (hf : f.Consistent)
    {r : Individual → Individual → Prop}
    (hdiff : ∀ a b, b ∈ g.declaredDifferent a ↔ b ∈ f.declaredDifferent a ∨ r a b)
    (hassertions : g.assertions = f.assertions) (hsame : g.sameAs = f.sameAs) :
    g.Consistent ↔ ∀ a b, r a b → b ∉ f.equals a := by
  have hequals : ∀ a, g.equals a = f.equals a := fun a => by rw [equals, equals, hsame]
  constructor
  · intro h a b hr
    rw [← hequals]
    exact h.apart a b ((hdiff a b).mpr (.inr hr))
  · intro h
    constructor
    · intro x hx y hy hxy
      rw [hassertions] at hx hy
      exact hf.noContrary x hx y hy (hxy.mono fun a b hb => hequals a ▸ hb)
    · intro a b hab
      rw [hequals]
      rcases (hdiff a b).mp hab with hab | hr
      · exact hf.apart a b hab
      · exact h a b hr

/-- A new pair of different individuals makes consistent facts inconsistent
when the two are equal. -/
lemma consistent_add_differentFrom_iff (hf : f.Consistent) :
    (f.add (.differentFrom a b)).Consistent ↔ ¬ f.isSame a b := by
  have hdiff : ∀ i j, j ∈ (f.add (.differentFrom a b)).declaredDifferent i ↔
      j ∈ f.declaredDifferent i ∨ (i = a ∧ j = b ∨ i = b ∧ j = a) := by
    intro i j
    simp only [mem_declaredDifferent, add, record, declare, List.mem_append,
      List.mem_singleton, Prod.mk.injEq]
    grind
  rw [consistent_iff_of_differences hf hdiff rfl rfl, isSame_iff]
  constructor
  · exact fun h => h a b (.inl ⟨rfl, rfl⟩)
  · rintro h i j (⟨rfl, rfl⟩ | ⟨rfl, rfl⟩)
    · exact h
    · rwa [mem_equals_comm]

/-- A new group makes consistent facts inconsistent when two of its members
are equal. -/
lemma consistent_add_allDifferent_iff (hf : f.Consistent)
    {members : List Individual} :
    (f.add (.allDifferent members)).Consistent ↔
      ¬ (f.equalMembers? members.eraseDups).isSome := by
  have hdiff : ∀ i j, j ∈ (f.add (.allDifferent members)).declaredDifferent i ↔
      j ∈ f.declaredDifferent i ∨ (j ≠ i ∧ i ∈ members ∧ j ∈ members) := by
    intro i j
    simp only [mem_declaredDifferent, add, record, declare, List.mem_append,
      List.mem_singleton, or_and_right, exists_or, exists_eq_left,
      List.mem_eraseDups]
    grind
  rw [consistent_iff_of_differences hf hdiff rfl rfl, equalMembers?_isSome]
  simp only [List.mem_eraseDups]
  grind

/-! ### Conflicts -/

/-- A statement that adds no assertion, no equality and no difference leaves
consistent facts consistent. -/
lemma Consistent.of_same_parts (hf : f.Consistent)
    (hassertions : g.assertions = f.assertions) (hsame : g.sameAs = f.sameAs)
    (hdifferent : g.differentFrom = f.differentFrom)
    (hgroups : g.groups = f.groups) : g.Consistent := by
  have hdiff : ∀ a b, b ∈ g.declaredDifferent a ↔
      b ∈ f.declaredDifferent a ∨ False := by
    intro a b
    rw [mem_declaredDifferent, mem_declaredDifferent, hdifferent, hgroups, or_false]
  rw [consistent_iff_of_differences hf hdiff hassertions hsame]
  exact fun _ _ h => h.elim

/-- **Conflicts**: a statement is found to contradict consistent facts when
recording it would make them inconsistent, or when it declares an instance of
a reserved class, and only then. -/
theorem conflict?_isSome_iff {reserved : List ClassName} {t : Statement}
    (hf : f.Consistent) (ht : t.fault? = none) :
    (f.conflict? reserved t).isSome ↔
      ¬ (f.add t).Consistent ∨ ∃ i, ∃ c ∈ reserved, t = .instanceOf i c := by
  cases t with
  | individual i =>
    have hadd := hf.of_same_parts (g := f.add (.individual i)) rfl rfl rfl rfl
    simp [conflict?, hadd]
  | instanceOf i c =>
    have hadd := hf.of_same_parts (g := f.add (.instanceOf i c)) rfl rfl rfl rfl
    by_cases hc : c ∈ reserved <;> simp [conflict?, hadd, hc]
  | note n =>
    have hadd := hf.of_same_parts (g := f.add (.note n)) rfl rfl rfl rfl
    simp [conflict?, hadd]
  | assertion x =>
    rw [consistent_add_assertion_iff hf]
    by_cases h : f.opposes x <;> simp [conflict?, h]
  | sameAs a b =>
    have hne : a ≠ b := by simpa [Statement.fault?] using ht
    rw [consistent_add_sameAs_iff hf hne]
    by_cases hdiff : f.isDifferent a b
    · simp [conflict?, hdiff]
    · by_cases hmerge : f.mergeOpposes a b <;> simp [conflict?, hdiff, hmerge]
  | differentFrom a b =>
    rw [consistent_add_differentFrom_iff hf]
    by_cases h : f.isSame a b <;> simp [conflict?, h]
  | allDifferent members =>
    rw [consistent_add_allDifferent_iff hf, not_not]
    simp [conflict?]

/-- A statement that makes sense and does not conflict leaves consistent facts
consistent. -/
lemma Consistent.add (hf : f.Consistent) {reserved : List ClassName}
    {t : Statement} (ht : t.fault? = none)
    (hconflict : f.conflict? reserved t = none) : (f.add t).Consistent := by
  have h : ¬ (f.conflict? reserved t).isSome := by simp [hconflict]
  rw [conflict?_isSome_iff hf ht, not_or, not_not] at h
  exact h.1

end Facts

/-! ### Runs -/

namespace Store

/-- **The facts of a protected store are consistent** after every run. -/
theorem run_consistent {config : Config} (hprotection : config.protection = true)
    (cs : List Command) : (run { config } cs).facts.Consistent := by
  refine run_induction Facts.consistent_empty (fun f t hf happlied => ?_) cs
  obtain ⟨hfault, _, hconflict⟩ := judge_eq_applied_iff.mp happlied
  exact hf.add hfault (hconflict hprotection)

/-- **Nothing stated is denied**: after every run of a protected store no
assertion between individuals is stated and denied of equal subjects and equal
objects, and no assertion of a literal is stated and denied of equal subjects
and equal values. -/
theorem run_states_nothing_denied {config : Config}
    (hprotection : config.protection = true) (cs : List Command) :
    let f := (run { config } cs).facts
    (∀ p s o s' o', ⟨.positive, s, p, .node o⟩ ∈ f.assertions →
      ⟨.negative, s', p, .node o'⟩ ∈ f.assertions →
      ¬ (f.isSame s s' ∧ f.isSame o o')) ∧
    (∀ p s v s' w, ⟨.positive, s, p, .literal v⟩ ∈ f.assertions →
      ⟨.negative, s', p, .literal w⟩ ∈ f.assertions →
      ¬ (f.isSame s s' ∧ v.sameValue w)) := by
  intro f
  have hf : f.Consistent := run_consistent hprotection cs
  constructor
  · rintro p s o s' o' hstated hdenied ⟨hs, ho⟩
    exact hf.noContrary _ hstated _ hdenied
      ⟨rfl, rfl, Facts.isSame_iff.mp hs, Facts.isSame_iff.mp ho⟩
  · rintro p s v s' w hstated hdenied ⟨hs, hv⟩
    exact hf.noContrary _ hstated _ hdenied
      ⟨rfl, rfl, Facts.isSame_iff.mp hs, hv⟩

/-- Two names of a subject are merged, and so the names of a denied object
cannot be. -/
theorem run_states_nothing_denied_of_merge :
    let ada : Individual := .iri ⟨"e:ada"⟩
    let lovelace : Individual := .iri ⟨"e:lovelace"⟩
    let charles : Individual := .iri ⟨"e:charles"⟩
    let babbage : Individual := .iri ⟨"e:babbage"⟩
    let knows : Property := ⟨"e:knows"⟩
    let f := (run {} [
      .tell (.assertion ⟨.positive, ada, knows, .node charles⟩),
      .tell (.assertion ⟨.negative, lovelace, knows, .node babbage⟩),
      .tell (.sameAs ada lovelace), .tell (.sameAs babbage charles)]).facts
    ({} : Config).protection = true ∧ f.isSame ada lovelace ∧
      ¬ f.isSame charles babbage := by
  intro ada lovelace charles babbage knows f
  have hmerged : f.isSame ada lovelace := by decide
  refine ⟨rfl, hmerged, fun h => ?_⟩
  exact (run_states_nothing_denied rfl _).1 knows ada charles lovelace babbage
    (by decide) (by decide) ⟨hmerged, h⟩

/-- **Nothing equal is different**: after every run of a protected store no two
individuals are known to be both the same and different. No declared
difference and no two members of a group are within one class of equal
individuals. -/
theorem run_distinguishes_nothing_equal {config : Config}
    (hprotection : config.protection = true) (cs : List Command) :
    let f := (run { config } cs).facts
    (∀ a b, ¬ (f.isSame a b ∧ f.isDifferent a b)) ∧
    (∀ a b, (a, b) ∈ f.differentFrom → ¬ f.isSame a b) ∧
    (∀ g ∈ f.groups, ∀ a ∈ g, ∀ b ∈ g, a ≠ b → ¬ f.isSame a b) := by
  intro f
  have hf : f.Consistent := run_consistent hprotection cs
  simp only [Facts.isSame_iff, Facts.isDifferent_iff]
  refine ⟨fun a b h => hf.not_mem_different h.1 h.2, fun a b hab => ?_,
    fun g hg a ha b hb hne => ?_⟩
  · exact hf.apart a b (Facts.mem_declaredDifferent.mpr (.inl hab))
  · exact hf.apart a b
      (Facts.mem_declaredDifferent.mpr (.inr (.inr ⟨hne.symm, g, hg, ha, hb⟩)))

/-- A chain of names cannot be closed between two members of a group. -/
theorem run_distinguishes_nothing_equal_of_chain :
    let ada : Individual := .iri ⟨"e:ada"⟩
    let lovelace : Individual := .iri ⟨"e:lovelace"⟩
    let byron : Individual := .iri ⟨"e:byron"⟩
    let poet : Individual := .iri ⟨"e:poet"⟩
    let f := (run {} [
      .tell (.sameAs ada lovelace), .tell (.allDifferent [ada, byron]),
      .tell (.sameAs byron poet), .tell (.sameAs lovelace poet)]).facts
    ({} : Config).protection = true ∧ f.isSame byron poet ∧
      f.isDifferent lovelace poet ∧ ¬ f.isSame lovelace poet := by
  intro ada lovelace byron poet f
  have hdiff : f.isDifferent lovelace poet := by decide
  refine ⟨rfl, by decide, hdiff, fun h => ?_⟩
  exact (run_distinguishes_nothing_equal rfl _).1 lovelace poet ⟨h, hdiff⟩

end Store

end Ontology
