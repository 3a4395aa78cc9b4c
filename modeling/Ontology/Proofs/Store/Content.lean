/-
The content of facts, read off as the statements that hold.

* `Statement.Alike`: statements that say the same; `Statement.Tells`: what a
  statement says, and that its individuals are known.
* `Facts.holds_add_iff`: after a statement is recorded there holds what held
  before and what the statement tells.
* `Facts.Declares`: individuals are known where they are mentioned;
  `Declares.add`.
* `Facts.SameTerm`: terms that stand for the same.
* `Facts.Milder`: facts with fewer assertions, equalities and differences.
  Equality and difference grow with the declared ones: `Milder.mem_equals`,
  `Milder.mem_different`.
* `Facts.Within`: what holds in some facts holds in others, which makes them
  milder: `Within.milder`.
-/
import Mathlib.Tactic.Lemma
import Mathlib.Tactic.Tauto
import Ontology.Proofs.Relation.Bridge
import Ontology.Store.Identity
import Ontology.Store.Statement
import Ontology.Value.Literal

namespace Ontology

/-! ### What a statement tells -/

namespace Statement

/-- Two statements say the same: pairs are read in either direction, and
groups as sets. -/
def Alike : Statement → Statement → Prop
  | sameAs a b, sameAs c d => (a = c ∧ b = d) ∨ (a = d ∧ b = c)
  | differentFrom a b, differentFrom c d => (a = c ∧ b = d) ∨ (a = d ∧ b = c)
  | allDifferent ms, allDifferent ns => ∀ i, i ∈ ms ↔ i ∈ ns
  | t, u => u = t

/-- A statement tells what it says, and that its individuals are known. -/
def Tells (t u : Statement) : Prop :=
  t.Alike u ∨ ∃ i ∈ t.individuals, u = .individual i

variable {t u : Statement}

lemma Alike.refl (t : Statement) : t.Alike t := by
  cases t <;> simp [Alike]

/-- Statements that say the same are about the same individuals. -/
lemma Alike.mem_individuals_iff (h : t.Alike u) (i : Individual) :
    i ∈ t.individuals ↔ i ∈ u.individuals := by
  cases t <;> cases u <;> simp_all [Alike, individuals]
  all_goals
    rcases h with ⟨rfl, rfl⟩ | ⟨rfl, rfl⟩ <;> tauto

/-- A statement tells nothing about individuals other than its own. -/
lemma Tells.mem_individuals (h : t.Tells u) {i : Individual}
    (hi : i ∈ u.individuals) : i ∈ t.individuals := by
  rcases h with h | ⟨j, hj, rfl⟩
  · exact (h.mem_individuals_iff i).mpr hi
  · rwa [List.mem_singleton.mp hi]

end Statement

namespace Facts

variable {f g h : Facts} {t u : Statement} {a b i : Individual}

/-! ### What holds -/

@[simp] lemma holds_individual_iff :
    f.holds (.individual i) ↔ i ∈ f.individuals := by
  simp [holds]

@[simp] lemma holds_instanceOf_iff {c : ClassName} :
    f.holds (.instanceOf i c) ↔ (i, c) ∈ f.types := by
  simp [holds]

@[simp] lemma holds_assertion_iff {x : Assertion} :
    f.holds (.assertion x) ↔ x ∈ f.assertions := by
  simp [holds]

@[simp] lemma holds_sameAs_iff :
    f.holds (.sameAs a b) ↔ (a, b) ∈ f.sameAs ∨ (b, a) ∈ f.sameAs := by
  simp [holds]

@[simp] lemma holds_differentFrom_iff :
    f.holds (.differentFrom a b) ↔
      (a, b) ∈ f.differentFrom ∨ (b, a) ∈ f.differentFrom := by
  simp [holds]

/-- A group holds under the members of a recorded one. -/
@[simp] lemma holds_allDifferent_iff {members : List Individual} :
    f.holds (.allDifferent members) ↔
      ∃ g ∈ f.groups, ∀ i, i ∈ g ↔ i ∈ members := by
  simp only [holds, List.any_eq_true, Bool.and_eq_true, List.all_eq_true,
    decide_eq_true_eq]
  constructor
  · rintro ⟨g, hg, hsub, hsup⟩
    exact ⟨g, hg, fun i => ⟨hsub i, hsup i⟩⟩
  · rintro ⟨g, hg, hiff⟩
    exact ⟨g, hg, fun i => (hiff i).mp, fun i => (hiff i).mpr⟩

@[simp] lemma holds_note_iff {n : Note} :
    f.holds (.note n) ↔ n ∈ f.notes := by
  simp [holds]

/-- Nothing holds at first. -/
lemma not_holds_empty : ¬ ({} : Facts).holds t := by
  cases t <;> simp

/-- Statements that say the same hold together. -/
lemma holds_congr (h : t.Alike u) : f.holds t ↔ f.holds u := by
  cases t <;> cases u <;> simp only [Statement.Alike, reduceCtorEq] at h
  case sameAs.sameAs =>
    rcases h with ⟨rfl, rfl⟩ | ⟨rfl, rfl⟩
    · rfl
    · simp [or_comm]
  case differentFrom.differentFrom =>
    rcases h with ⟨rfl, rfl⟩ | ⟨rfl, rfl⟩
    · rfl
    · simp [or_comm]
  case allDifferent.allDifferent => simp only [holds_allDifferent_iff, h]
  all_goals rw [h]

/-- **Recording**: after a statement is recorded there holds what held before
and what the statement tells. -/
theorem holds_add_iff : (f.add t).holds u ↔ f.holds u ∨ t.Tells u := by
  cases u with
  | individual i =>
    have hown : t.Alike (.individual i) → i ∈ t.individuals := fun h =>
      (h.mem_individuals_iff i).mpr (List.mem_singleton_self i)
    simp only [holds_individual_iff, mem_individuals_add, Statement.Tells,
      Statement.individual.injEq, exists_eq_right']
    tauto
  | sameAs a b =>
    cases t <;> simp [add, record, declare, Statement.Tells, Statement.Alike]
    -- the new pair is the same one, or the same one read backwards
    tauto
  | differentFrom a b =>
    cases t <;> simp [add, record, declare, Statement.Tells, Statement.Alike]
    tauto
  | _ => cases t <;> simp [add, record, declare, Statement.Tells, Statement.Alike]

/-! ### Known individuals -/

/-- Individuals are known where a statement about them holds. -/
def Declares (f : Facts) : Prop :=
  ∀ t, f.holds t → ∀ i ∈ t.individuals, i ∈ f.individuals

lemma declares_empty : Declares {} := fun _ ht => absurd ht not_holds_empty

/-- Recording a statement makes known whom it is about. -/
lemma Declares.add (hf : f.Declares) (t : Statement) : (f.add t).Declares := by
  intro u hu i hi
  rw [mem_individuals_add]
  rcases holds_add_iff.mp hu with h | h
  · exact .inl (hf u h i hi)
  · exact .inr (h.mem_individuals hi)

/-- With a statement there holds all that it tells. -/
lemma Declares.holds_of_tells (hf : f.Declares) (ht : f.holds t)
    (htu : t.Tells u) : f.holds u := by
  rcases htu with h | ⟨i, hi, rfl⟩
  · exact (holds_congr h).mp ht
  · exact holds_individual_iff.mpr (hf t ht i hi)

/-! ### Equal terms -/

/-- Two terms stand for the same: equal individuals, or literals with equal
values. -/
def SameTerm (f : Facts) : Rdf.Term → Rdf.Term → Prop
  | .node a, .node b => b ∈ f.equals a
  | .literal v, .literal w => v.sameValue w
  | _, _ => False

lemma SameTerm.symm {v w : Rdf.Term} (h : f.SameTerm v w) : f.SameTerm w v := by
  cases v <;> cases w <;> simp only [SameTerm] at h ⊢
  · exact mem_equals_comm.mp h
  · rwa [Rdf.Literal.sameValue_comm]

/-! ### More and less content -/

/-- The assertions, the equalities and the declared differences of `f` are among
those of `g`, whether pairs or groups declare the differences. -/
structure Milder (f g : Facts) : Prop where
  assertions : ∀ x ∈ f.assertions, x ∈ g.assertions
  sameAs : ∀ a b, (a, b) ∈ f.sameAs.both → (a, b) ∈ g.sameAs.both
  declaredDifferent : ∀ a b,
    b ∈ f.declaredDifferent a → b ∈ g.declaredDifferent a

namespace Milder

lemma refl (f : Facts) : f.Milder f := ⟨fun _ => id, fun _ _ => id, fun _ _ => id⟩

lemma trans (hfg : f.Milder g) (hgh : g.Milder h) : f.Milder h where
  assertions x hx := hgh.assertions x (hfg.assertions x hx)
  sameAs a b hab := hgh.sameAs a b (hfg.sameAs a b hab)
  declaredDifferent a b hab :=
    hgh.declaredDifferent a b (hfg.declaredDifferent a b hab)

/-- Equal individuals stay equal when more is declared. -/
lemma mem_equals (hf : f.Milder g) (hb : b ∈ f.equals a) : b ∈ g.equals a := by
  rw [Facts.mem_equals] at hb ⊢
  exact Edges.reaches_both_mono hf.sameAs hb

/-- Known differences stay known when more is declared. -/
lemma mem_different (hf : f.Milder g) (hb : b ∈ f.different a) :
    b ∈ g.different a := by
  rw [Facts.mem_different] at hb ⊢
  obtain ⟨hne, a', ha', b', hb', hbb'⟩ := hb
  exact ⟨hne, a', hf.mem_equals ha', b', hf.declaredDifferent a' b' hb',
    hf.mem_equals hbb'⟩

end Milder

/-- What holds in `f` holds in `g`. -/
def Within (f g : Facts) : Prop := ∀ t, f.holds t → g.holds t

namespace Within

lemma empty (f : Facts) : Within {} f := fun _ ht => absurd ht not_holds_empty

/-- Recording a statement loses nothing. -/
lemma add (f : Facts) (t : Statement) : f.Within (f.add t) :=
  fun _ hu => holds_add_iff.mpr (.inl hu)

/-- Recording a statement that holds elsewhere adds nothing to what holds
there. -/
lemma add_of_holds (hf : f.Within g) (hg : g.Declares) (ht : g.holds t) :
    (f.add t).Within g := by
  intro u hu
  rcases holds_add_iff.mp hu with h | h
  · exact hf u h
  · exact hg.holds_of_tells ht h

lemma mem_individuals (hf : f.Within g) (hi : i ∈ f.individuals) :
    i ∈ g.individuals :=
  holds_individual_iff.mp (hf _ (holds_individual_iff.mpr hi))

lemma mem_types (hf : f.Within g) {c : ClassName} (hc : (i, c) ∈ f.types) :
    (i, c) ∈ g.types :=
  holds_instanceOf_iff.mp (hf _ (holds_instanceOf_iff.mpr hc))

lemma mem_assertions (hf : f.Within g) {x : Assertion}
    (hx : x ∈ f.assertions) : x ∈ g.assertions :=
  holds_assertion_iff.mp (hf _ (holds_assertion_iff.mpr hx))

/-- Declared differences stay declared when more is known. -/
lemma mem_declaredDifferent (hf : f.Within g)
    (hb : b ∈ f.declaredDifferent a) : b ∈ g.declaredDifferent a := by
  rw [Facts.mem_declaredDifferent, ← or_assoc] at hb ⊢
  rcases hb with hpair | ⟨hne, m, hm, ha, hb⟩
  · rw [← holds_differentFrom_iff] at hpair ⊢
    exact .inl (hf _ hpair)
  · have hgroup := hf (.allDifferent m)
      (holds_allDifferent_iff.mpr ⟨m, hm, fun _ => .rfl⟩)
    obtain ⟨n, hn, hnm⟩ := holds_allDifferent_iff.mp hgroup
    exact .inr ⟨hne, n, hn, (hnm a).mpr ha, (hnm b).mpr hb⟩

/-- What is known less of is milder. -/
lemma milder (hf : f.Within g) : f.Milder g where
  assertions _ := hf.mem_assertions
  sameAs a b hab := by
    rw [Edges.mem_both, ← holds_sameAs_iff] at hab ⊢
    exact hf _ hab
  declaredDifferent _ _ := hf.mem_declaredDifferent

lemma mem_equals (hf : f.Within g) (hb : b ∈ f.equals a) : b ∈ g.equals a :=
  hf.milder.mem_equals hb

lemma mem_different (hf : f.Within g) (hb : b ∈ f.different a) :
    b ∈ g.different a :=
  hf.milder.mem_different hb

end Within

end Facts

end Ontology
