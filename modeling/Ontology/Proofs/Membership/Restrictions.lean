/-
Queries for the members of restrictions.

* `evaluate_relieved`: an evaluation that succeeds does the same with fewer
  classes under way and more nesting left; `members_of_evaluate`: what is found
  inside a query is found by a query of its own; `exists_interpret_of_members`:
  the members of a class are those of its structure.
* `Reasoner.Asks`: the values that a constraint asks for, if its class has
  members; `Denotes.mem_iff_satisfies`: the instances of a restriction satisfy
  it for these values.
* `Reasoner.Finds`: a class described by a constraint on a role has members.
  `Finds.exists_asks`: then so has the class that the constraint asks for;
  `Finds.mem_count_iff` and its like: who is found, for each kind of constraint.
-/
import Ontology.Proofs.Membership.Evaluation

namespace Ontology

/-! ### Counts -/

namespace Count

/-- A number lies between the bounds that are set. The greatest word, as an upper
bound, bounds nothing. -/
def Encloses (k : Count) (n : ℕ) : Prop :=
  (∀ min ∈ k.min?, min.toNat ≤ n) ∧
    ∀ max ∈ k.max?, max.toNat = 2 ^ 32 - 1 ∨ n ≤ max.toNat

variable {k : Count} {m : UInt32} {n : ℕ}

/-- Numbers beyond the words count as the greatest word. -/
lemma admits_min_iff : k.Admits (min n (2 ^ 32 - 1)) ↔ k.Encloses n := by
  refine and_congr (forall₂_congr fun m _ => ?_) (forall₂_congr fun m _ => ?_)
  all_goals
    have hm : m.toNat < 2 ^ 32 := m.toNat_lt
    omega

@[simp] lemma encloses_atLeast_iff : (atLeast m).Encloses n ↔ m.toNat ≤ n := by
  simp [Encloses, min?, max?]

@[simp] lemma encloses_atMost_iff :
    (atMost m).Encloses n ↔ m.toNat = 2 ^ 32 - 1 ∨ n ≤ m.toNat := by
  simp [Encloses, min?, max?]

@[simp] lemma encloses_exactly_iff :
    (exactly m).Encloses n ↔
      m.toNat ≤ n ∧ (m.toNat = 2 ^ 32 - 1 ∨ n ≤ m.toNat) := by
  simp [Encloses, min?, max?]

/-- Trivial bounds enclose every number. -/
lemma encloses_of_trivial (hk : k.trivial) (n : ℕ) : k.Encloses n := by
  cases k <;> simp_all [Encloses, trivial, toBounds, CountBounds.trivial, min?, max?]

end Count

namespace Reasoner

variable {r : Reasoner} {n m : ℕ} {c d : ClassName} {is js : List Individual}
  {p q : Progress} {us : List ClassName} {S : Set Individual} {i : Individual}
  {x : Restriction} {A : Set Rdf.Term}

/-! ### Queries inside queries -/

/-- A query leaves under way what was under way, and another does the same
without some of it. -/
def Relieved (us : List ClassName) (α : Type) (x y : Query α) : Prop :=
  ∀ p a q, x p = .ok (a, q) → q.underway = p.underway ∧
    ∀ vs, p.underway = vs ++ us → y ⟨p.known, vs⟩ = .ok (a, ⟨q.known, vs⟩)

lemma relieved_compositional : Compositional (Relieved us) where
  pure a p b q h := by
    obtain ⟨rfl, rfl⟩ := Query.pure_eq_ok_iff.mp h
    exact ⟨rfl, fun _ _ => rfl⟩
  bind hxy hfg p b q h := by
    obtain ⟨a, p', hx, hf⟩ := Query.bind_eq_ok_iff.mp h
    obtain ⟨hp', hy⟩ := hxy p a p' hx
    obtain ⟨hq, hg⟩ := hfg a p' b q hf
    refine ⟨hq.trans hp', fun vs hvs => ?_⟩
    exact Query.bind_eq_ok_iff.mpr ⟨a, _, hy vs hvs, hg vs (hp'.trans hvs)⟩

/-- **Evaluation with less under way**: an evaluation that succeeds does the same
with fewer classes under way, and with more nesting allowed. -/
theorem evaluate_relieved (hnm : n ≤ m) (c : ClassName) :
    Relieved us _ (r.evaluate n c) (r.evaluate m c) := by
  induction n using Nat.strong_induction_on generalizing m c with
  | _ n ih =>
    intro p is q h
    obtain ⟨hknown, rfl⟩ | ⟨hnew, hc, n, e, q, rfl, he, hrun, rfl⟩ :=
      evaluate_eq_ok_iff.mp h
    · exact ⟨rfl, fun vs _ => evaluate_eq_ok_iff.mpr (.inl ⟨hknown, rfl⟩)⟩
    · obtain ⟨m, rfl⟩ : ∃ m', m = m' + 1 := ⟨m - 1, by omega⟩
      have hoperands : Relieved us _ (r.interpret (r.evaluate n) e)
          (r.interpret (r.evaluate m) e) :=
        interpret_related relieved_compositional
          (ih n n.lt_succ_self (Nat.le_of_succ_le_succ hnm)) e
      obtain ⟨hunderway, hless⟩ := hoperands (p.start c) is q hrun
      refine ⟨Progress.underway_finish_start p q c is hunderway, fun vs hvs => ?_⟩
      have hcvs : c ∉ vs := fun hmem => hc (hvs ▸ List.mem_append_left us hmem)
      have hrun' := hless (c :: vs) (congrArg (c :: ·) hvs)
      refine evaluate_eq_ok_iff.mpr
        (.inr ⟨hnew, hcvs, m, e, ⟨q.known, c :: vs⟩, rfl, he, hrun', ?_⟩)
      simp [Progress.finish]

/-- What is found inside a query, from no progress, is found by a query of its
own. -/
lemma members_of_evaluate (hn : n ≤ r.maxDepth + 1)
    (h : r.evaluate n c ⟨[], us⟩ = .ok (is, q)) : r.members c = .ok is := by
  have hrelieved : Relieved us _ (r.evaluate n c) (r.evaluate (r.maxDepth + 1) c) :=
    evaluate_relieved hn c
  obtain ⟨-, hown⟩ := hrelieved _ is q h
  exact members_eq_ok_iff.mpr ⟨_, hown [] rfl⟩

/-- The members of a class are those of its structure, whose operands are found
with as much nesting as the limit says. -/
lemma exists_interpret_of_members {e : ClassExpression}
    (hc : r.catalog.classify c = .ok e) (h : r.members c = .ok is) :
    ∃ q, r.interpret (r.evaluate r.maxDepth) e (Progress.start {} c) =
      .ok (is, q) := by
  obtain ⟨q, hq⟩ := members_eq_ok_iff.mp h
  obtain ⟨hknown, -⟩ | ⟨-, -, n, e', q', hn, he, hrun, -⟩ :=
    evaluate_eq_ok_iff.mp hq
  · simp [Progress.members?] at hknown
  · obtain rfl : e' = e := Except.ok.inj (he.symm.trans hc)
    obtain rfl : r.maxDepth = n := Nat.succ.inj hn
    exact ⟨q', hrun⟩

section

variable (hc : r.catalog.classify c = .ok (.restriction x))
  (hx : x.constraint.trivial = false) (hd : x.constraint.filler? = some d)
  (h : r.members c = .ok is)

include hc hx hd h

/-- If a restriction has members, the class that it asks for is evaluated, unless
every individual satisfies it. -/
lemma exists_evaluate_of_filler :
    ∃ js q, r.evaluate r.maxDepth d (Progress.start {} c) = .ok (js, q) := by
  obtain ⟨q, hrun⟩ := exists_interpret_of_members hc h
  simp only [interpret, interpretRestriction, Constraint.uncounted_eq_trivial, hx, hd,
    Bool.false_eq_true, if_false] at hrun
  obtain ⟨js, p', hjs, -⟩ := Query.bind_eq_ok_iff.mp hrun
  exact ⟨js, p', hjs⟩

/-- Then the class that it asks for has members too. -/
lemma exists_members_of_filler : ∃ js, r.members d = .ok js := by
  obtain ⟨js, q, hjs⟩ := exists_evaluate_of_filler hc hx hd h
  exact ⟨js, members_of_evaluate r.maxDepth.le_succ hjs⟩

/-- Then one expression may be nested in another. -/
lemma one_le_maxDepth_of_filler : 1 ≤ r.maxDepth := by
  obtain ⟨js, q, hjs⟩ := exists_evaluate_of_filler hc hx hd h
  -- nothing is known at the start
  obtain ⟨hknown, -⟩ | ⟨-, -, n, -, -, hn, -⟩ := evaluate_eq_ok_iff.mp hjs
  · simp [Progress.members?, Progress.start] at hknown
  · omega

end

/-! ### Values asked for -/

/-- The values that a constraint asks for: all of them, or those in a class that
has members. -/
inductive Asks (r : Reasoner) : Option ClassName → Set Rdf.Term → Prop
  | all : Asks r none Set.univ
  | ofClass {d : ClassName} {js : List Individual} (hd : r.members d = .ok js) :
    Asks r (some d) (valuesIn d {j | j ∈ js})

/-- An individual satisfies trivial bounds if it is known. -/
lemma satisfies_iff_of_trivial (hx : x.constraint.trivial) :
    r.Satisfies x A i ↔ i ∈ r.facts.individuals := by
  obtain ⟨role, constraint, hordered⟩ := x
  cases constraint with
  | count k c =>
    refine and_iff_left (Count.admits_min_iff.mpr (Count.encloses_of_trivial ?_ _))
    simpa [Constraint.trivial, Constraint.count?] using hx
  | _ => simp [Constraint.trivial, Constraint.count?] at hx

/-- **The instances of a restriction** satisfy it for the values that it asks
for, whether or not its bounds are trivial. -/
theorem Denotes.mem_iff_satisfies (hS : r.Denotes c S)
    (hc : r.catalog.classify c = .ok (.restriction x))
    (hA : r.Asks x.constraint.filler? A) : i ∈ S ↔ r.Satisfies x A i := by
  cases hS with
  | unbounded hc' hx =>
    cases hc.symm.trans hc'
    exact (satisfies_iff_of_trivial hx).symm
  | restriction hc' hx hfiller =>
    cases hc.symm.trans hc'
    rw [hfiller] at hA
    cases hA
    rfl
  | qualified hc' hx hfiller hd =>
    cases hc.symm.trans hc'
    rw [hfiller] at hA
    cases hA with
    | ofClass hd' =>
      rw [hd.unique (denotes_of_members hd')]
      rfl
  | _ => simp_all

/-! ### Restrictions that are found -/

/-- A query for a class that is described by a constraint on a role finds its
members. -/
def Finds (r : Reasoner) (role : Role) (constraint : Constraint)
    (is : List Individual) : Prop :=
  ∃ c x, r.catalog.classify c = .ok (.restriction x) ∧ x.role = role ∧
    x.constraint = constraint ∧ r.members c = .ok is

namespace Finds

variable {role role' : Role} {constraint : Constraint} {k : Count}
  {on : Option ClassName}

/-- The class that a constraint asks for has members, if the restriction has and
does not hold of every individual. -/
lemma exists_asks (h : r.Finds role constraint is)
    (hconstraint : constraint.trivial = false) :
    ∃ A, r.Asks constraint.filler? A := by
  obtain ⟨c, x, hc, rfl, rfl, his⟩ := h
  cases hfiller : x.constraint.filler? with
  | none => exact ⟨_, .all⟩
  | some d =>
    obtain ⟨js, hd⟩ := exists_members_of_filler hc hconstraint hfiller his
    exact ⟨_, .ofClass hd⟩

/-- If every individual satisfies a constraint, all that are known are found. -/
lemma mem_iff_of_trivial (h : r.Finds role constraint is)
    (hconstraint : constraint.trivial) : i ∈ is ↔ i ∈ r.facts.individuals := by
  obtain ⟨c, x, hc, rfl, rfl, his⟩ := h
  have hunbounded := (denotes_of_members his).unique (.unbounded hc hconstraint)
  exact Set.ext_iff.mp hunbounded i

/-- Those found satisfy a restriction for the values that it asks for. -/
lemma exists_satisfies (h : r.Finds role constraint is) :
    ∃ x : Restriction, x.role = role ∧ x.constraint = constraint ∧
      ∀ A, r.Asks constraint.filler? A → ∀ i, i ∈ is ↔ r.Satisfies x A i := by
  obtain ⟨c, x, hc, rfl, rfl, his⟩ := h
  exact ⟨x, rfl, rfl, fun A hA i => (denotes_of_members his).mem_iff_satisfies hc hA⟩

/-- Those found by one constraint on two roles satisfy it for the same values. -/
lemma exists_satisfies_both (his : r.Finds role constraint is)
    (hjs : r.Finds role' constraint js) :
    ∃ (x y : Restriction) (A : Set Rdf.Term),
      (x.role = role ∧ x.constraint = constraint) ∧
      (y.role = role' ∧ y.constraint = constraint) ∧
      ∀ i, (i ∈ is ↔ r.Satisfies x A i) ∧ (i ∈ js ↔ r.Satisfies y A i) := by
  obtain ⟨x, hrole, hx, hmem⟩ := his.exists_satisfies
  obtain ⟨y, hrole', hy, hmem'⟩ := hjs.exists_satisfies
  by_cases htrivial : constraint.trivial = true
  · refine ⟨x, y, ∅, ⟨hrole, hx⟩, ⟨hrole', hy⟩, fun i => ⟨?_, ?_⟩⟩
    · rw [his.mem_iff_of_trivial htrivial, satisfies_iff_of_trivial (hx ▸ htrivial)]
    · rw [hjs.mem_iff_of_trivial htrivial, satisfies_iff_of_trivial (hy ▸ htrivial)]
  · obtain ⟨A, hA⟩ := his.exists_asks (Bool.eq_false_iff.mpr htrivial)
    exact ⟨x, y, A, ⟨hrole, hx⟩, ⟨hrole', hy⟩, fun i => ⟨hmem A hA i, hmem' A hA i⟩⟩

lemma mem_count_iff (h : r.Finds role (.count k on) is) (hA : r.Asks on A) :
    i ∈ is ↔ i ∈ r.facts.individuals ∧ k.Encloses (r.values role i ∩ A).ncard := by
  obtain ⟨x, rfl, hx, hmem⟩ := h.exists_satisfies
  rw [hmem A hA, Satisfies, hx]
  exact and_congr_right fun _ => Count.admits_min_iff

lemma mem_some_iff (h : r.Finds role (.someValuesFrom d) is)
    (hA : r.Asks (some d) A) : i ∈ is ↔ (r.values role i ∩ A).Nonempty := by
  obtain ⟨x, rfl, hx, hmem⟩ := h.exists_satisfies
  rw [hmem A hA, Satisfies, hx]

lemma mem_all_iff (h : r.Finds role (.allValuesFrom d) is)
    (hA : r.Asks (some d) A) :
    i ∈ is ↔ (r.values role i).Nonempty ∧ r.values role i ⊆ A := by
  obtain ⟨x, rfl, hx, hmem⟩ := h.exists_satisfies
  rw [hmem A hA, Satisfies, hx]

lemma mem_hasValue_iff {v : Rdf.Term} (h : r.Finds role (.hasValue v) is) :
    i ∈ is ↔ ∃ w ∈ r.values role i, r.facts.SameTerm v w := by
  obtain ⟨x, rfl, hx, hmem⟩ := h.exists_satisfies
  rw [hmem _ .all, Satisfies, hx]

lemma mem_self_iff (h : r.Finds role (.hasSelf true) is) :
    i ∈ is ↔ .node i ∈ r.values role i := by
  obtain ⟨x, rfl, hx, hmem⟩ := h.exists_satisfies
  rw [hmem _ .all, Satisfies, hx]

lemma mem_noSelf_iff (h : r.Finds role (.hasSelf false) is) :
    i ∈ is ↔ (r.values role i).Nonempty ∧ .node i ∉ r.values role i := by
  obtain ⟨x, rfl, hx, hmem⟩ := h.exists_satisfies
  rw [hmem _ .all, Satisfies, hx]

end Finds

end Reasoner

end Ontology
