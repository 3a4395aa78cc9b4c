/-
Rejected statements are those that would contradict the facts.

* `Facts.Contradiction`: facts that cannot all be true, one case for each way
  in which they clash.
* `Facts.Consistent.not_contradiction`, `Facts.contradiction_of_not_consistent`:
  facts without individuals declared different from themselves are
  contradictory when they are not consistent, and only then.
* `Store.judge_eq_rejected_iff`: when a statement is rejected.
* `Store.run_rejects_iff_contradiction`: after every run a statement is
  rejected when the store is protected, the facts are free of contradictions,
  and they would not be with the statement recorded.
-/
import Mathlib.Tactic.ByContra
import Ontology.Proofs.Store.Acceptance

namespace Ontology

namespace Facts

variable {f : Facts} {reserved : List ClassName} {t : Statement}
  {a b : Individual}

/-! ### Contradictory facts -/

/-- Facts that cannot all be true, if some classes have no instances of their
own. -/
inductive Contradiction (reserved : List ClassName) (f : Facts) : Prop
  /-- A relation is stated of some individuals, and denied of equal ones. -/
  | relation {p : Property} {s o s' o' : Individual}
    (hstated : ⟨.positive, s, p, .node o⟩ ∈ f.assertions)
    (hdenied : ⟨.negative, s', p, .node o'⟩ ∈ f.assertions)
    (hs : f.isSame s s') (ho : f.isSame o o') : Contradiction reserved f
  /-- A literal is stated of an individual, and an equal value is denied of an
  equal individual. -/
  | value {p : Property} {s s' : Individual} {v w : Rdf.Literal}
    (hstated : ⟨.positive, s, p, .literal v⟩ ∈ f.assertions)
    (hdenied : ⟨.negative, s', p, .literal w⟩ ∈ f.assertions)
    (hs : f.isSame s s') (hv : v.sameValue w) : Contradiction reserved f
  /-- Two individuals are both the same and different. -/
  | identity {a b : Individual} (hsame : f.isSame a b)
    (hdifferent : f.isDifferent a b) : Contradiction reserved f
  /-- An individual is declared to belong to a class without instances. -/
  | type {i : Individual} {c : ClassName} (hic : (i, c) ∈ f.types)
    (hc : c ∈ reserved) : Contradiction reserved f

/-- Consistent facts are contradictory only in the classes that they name. -/
lemma Consistent.not_contradiction (hf : f.Consistent)
    (htypes : ∀ i, ∀ c ∈ reserved, (i, c) ∉ f.types) :
    ¬ f.Contradiction reserved := by
  intro h
  cases h with
  | relation hstated hdenied hs ho =>
    exact hf.noContrary _ hstated _ hdenied
      ⟨rfl, rfl, isSame_iff.mp hs, isSame_iff.mp ho⟩
  | value hstated hdenied hs hv =>
    exact hf.noContrary _ hstated _ hdenied ⟨rfl, rfl, isSame_iff.mp hs, hv⟩
  | identity hsame hdifferent =>
    exact hf.not_mem_different (isSame_iff.mp hsame)
      (isDifferent_iff.mp hdifferent)
  | type hic hc => exact htypes _ _ hc hic

/-- Contrary assertions are a contradiction, whichever of them denies. -/
lemma Contrary.contradiction {x y : Assertion} (h : f.Contrary x y)
    (hx : x ∈ f.assertions) (hy : y ∈ f.assertions) :
    f.Contradiction reserved := by
  -- it is enough to look at the one of the two that states
  have key : ∀ {x y : Assertion}, f.Contrary x y → x ∈ f.assertions →
      y ∈ f.assertions → x.polarity = .positive → f.Contradiction reserved := by
    rintro ⟨polarity, s, p, v⟩ ⟨polarity', s', p', w⟩ h hx hy hpositive
    obtain rfl : polarity = .positive := hpositive
    obtain rfl : polarity' = .negative := h.polarity
    obtain rfl : p' = p := h.property
    have hs : f.isSame s s' := isSame_iff.mpr h.subject
    have hobject : f.SameTerm v w := h.object
    cases v with
    | node o =>
      cases w with
      | node o' => exact .relation hx hy hs (isSame_iff.mpr hobject)
      | literal w => exact hobject.elim
    | literal v =>
      cases w with
      | node o' => exact hobject.elim
      | literal w => exact .value hx hy hs hobject
  cases hpolarity : x.polarity with
  | positive => exact key h hx hy hpolarity
  | negative =>
    refine key h.symm hy hx ?_
    rw [h.polarity, hpolarity]
    rfl

/-- Facts that are not consistent are contradictory, if no individual is
declared to be different from itself. -/
lemma contradiction_of_not_consistent (hself : ∀ a, (a, a) ∉ f.differentFrom)
    (hf : ¬ f.Consistent) : f.Contradiction reserved := by
  by_contra hnone
  refine hf ⟨fun x hx y hy hxy => hnone (hxy.contradiction hx hy),
    fun a b hdiff hsame => ?_⟩
  have hne : b ≠ a := by
    rintro rfl
    rw [mem_declaredDifferent] at hdiff
    simp [hself] at hdiff
  have hdifferent : b ∈ f.different a :=
    mem_different.mpr ⟨hne, a, self_mem_equals, b, hdiff, self_mem_equals⟩
  exact hnone (.identity (isSame_iff.mpr hsame) (isDifferent_iff.mpr hdifferent))

/-- In consistent facts no individual is declared to be different from itself,
nor is it when a statement is recorded that makes sense. -/
lemma Consistent.not_mem_differentFrom_add (hf : f.Consistent)
    (ht : t.fault? = none) (a : Individual) :
    (a, a) ∉ (f.add t).differentFrom := by
  intro ha
  have hholds : (f.add t).holds (.differentFrom a a) :=
    holds_differentFrom_iff.mpr (.inl ha)
  rcases holds_add_iff.mp hholds with hold | halike | ⟨i, _, h⟩
  · rw [holds_differentFrom_iff, or_self] at hold
    exact hf.apart a a (mem_declaredDifferent.mpr (.inl hold)) self_mem_equals
  · cases t with
    | differentFrom b c =>
      rcases halike with ⟨rfl, rfl⟩ | ⟨rfl, rfl⟩ <;> simp [Statement.fault?] at ht
    | _ => simp [Statement.Alike] at halike
  · exact absurd h (by simp)

/-- The classes declared after a statement is recorded. -/
lemma mem_types_add {i : Individual} {c : ClassName} :
    (i, c) ∈ (f.add t).types ↔ (i, c) ∈ f.types ∨ t = .instanceOf i c := by
  cases t <;> simp [add, record, declare, eq_comm]

/-- A statement contradicts facts that are consistent when they do not stay so,
or when it declares an instance of a class that has none. -/
lemma contradiction_add_iff (hf : f.Consistent)
    (htypes : ∀ i, ∀ c ∈ reserved, (i, c) ∉ f.types) (ht : t.fault? = none) :
    (f.add t).Contradiction reserved ↔
      ¬ (f.add t).Consistent ∨ ∃ i, ∃ c ∈ reserved, t = .instanceOf i c := by
  constructor
  · intro h
    by_contra! hnone
    obtain ⟨hadd, hreserved⟩ := hnone
    refine hadd.not_contradiction (fun i c hc hic => ?_) h
    rcases mem_types_add.mp hic with hold | hnew
    · exact htypes i c hc hold
    · exact hreserved i c hc hnew
  · rintro (h | ⟨i, c, hc, rfl⟩)
    · exact contradiction_of_not_consistent (hf.not_mem_differentFrom_add ht) h
    · exact .type (mem_types_add.mpr (.inr rfl)) hc

end Facts

namespace Store

variable {s : Store} {t : Statement}

/-! ### Rejections -/

/-- Rejected is what makes sense, is new and, in a protected store, contradicts
the facts. -/
lemma judge_eq_rejected_iff :
    (∃ c, s.judge t = .rejected c) ↔
      t.fault? = none ∧ ¬ s.facts.holds t ∧ s.config.protection ∧
        (s.facts.conflict? s.config.reserved t).isSome := by
  rcases judge_cases s t with ⟨_, hf, h⟩ | ⟨hf, hh, h⟩ | ⟨hf, hh, hp, _, hc, h⟩ |
    ⟨hf, hh, hc, h⟩ <;> simp_all

/-- **Rejections are contradictions**: after every run, a statement is rejected
when the store is protected, the statement makes sense and is new, and
recording it would make a contradiction of facts that have none; and only then.
So nothing is rejected without a reason, nor without protection. -/
theorem run_rejects_iff_contradiction (config : Config) (cs : List Command)
    (t : Statement) :
    let s := run { config } cs
    (∃ c, s.judge t = .rejected c) ↔
      config.protection = true ∧ t.fault? = none ∧ ¬ s.facts.holds t ∧
        ¬ s.facts.Contradiction config.reserved ∧
          (s.facts.add t).Contradiction config.reserved := by
  intro s
  have hconfig : s.config = config := config_run _ cs
  rw [judge_eq_rejected_iff, hconfig]
  by_cases hp : config.protection = true
  · have hf : s.facts.Consistent := run_consistent hp cs
    have htypes : ∀ i, ∀ c ∈ config.reserved, (i, c) ∉ s.facts.types :=
      fun i c hc hic => run_unreserved hp cs (Facts.holds_instanceOf_iff.mpr hic) hc
    have hnone := hf.not_contradiction htypes
    by_cases ht : t.fault? = none
    · rw [Facts.conflict?_isSome_iff hf ht, Facts.contradiction_add_iff hf htypes ht]
      tauto
    · simp [ht]
  · simp [hp]

end Store

end Ontology
