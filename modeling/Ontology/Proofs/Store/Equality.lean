/-
Equality and difference as relations between individuals.

* `Facts.equality`: equality, as an equivalence relation; `isLeast_equality`: it
  is the least one that holds the declared pairs.
* `Facts.Distinct`, `Facts.Apart`: individuals that one declaration makes
  different, and individuals with equals that it does. `Apart` is symmetric and
  does not tell equal individuals from one another: `apart_comm`, `apart_congr`.
* `mem_different_iff_apart`: difference is being apart, of two individuals.
* `Store.run_difference_respects_equality`: equality and difference after every
  run, and when one can put an equal for an individual.
-/
import Mathlib.Data.Setoid.Basic
import Mathlib.Order.Bounds.Basic
import Ontology.Proofs.Store.Consistency

namespace Ontology

namespace Facts

variable {f : Facts} {a b a' b' : Individual}

/-! ### Equality -/

/-- Equality is an equivalence relation. -/
def equality (f : Facts) : Setoid Individual where
  r a b := f.isSame a b
  iseqv := {
    refl := fun _ => isSame_iff.mpr self_mem_equals
    symm := fun h => isSame_iff.mpr (mem_equals_comm.mp (isSame_iff.mp h))
    trans := fun h h' =>
      isSame_iff.mpr (mem_equals_trans (isSame_iff.mp h) (isSame_iff.mp h')) }

lemma equality_iff : f.equality a b ↔ f.isSame a b := .rfl

/-- An equivalence relation that holds the declared pairs holds all equal
individuals. -/
lemma equality_le {S : Setoid Individual}
    (hS : ∀ a b, (a, b) ∈ f.sameAs → S a b) : f.equality ≤ S := by
  intro a b hab
  rw [equality_iff, isSame_iff, mem_equals] at hab
  -- what `S` relates to `a` is closed under declared pairs, read in either way
  refine hab.mem_of_closed (s := S a) (fun x hx y hy => ?_) (S.refl a)
  rw [Edges.mem_targets, Edges.mem_both] at hy
  rcases hy with hxy | hyx
  · exact S.trans hx (hS x y hxy)
  · exact S.trans hx (S.symm (hS y x hyx))

/-- **Equality** is the least equivalence relation that holds the declared
pairs. -/
theorem isLeast_equality (f : Facts) :
    IsLeast {S : Setoid Individual | ∀ a b, (a, b) ∈ f.sameAs → S a b}
      f.equality := by
  refine ⟨fun a b hab => ?_, fun S hS => equality_le hS⟩
  rw [equality_iff, isSame_iff, mem_equals]
  exact .single (Edges.mem_targets.mpr (Edges.mem_both.mpr (.inl hab)))

/-! ### Difference -/

/-- One declaration makes two individuals different: a pair, in either order, or
a group with both of them. -/
def Distinct (f : Facts) (a b : Individual) : Prop :=
  (a, b) ∈ f.differentFrom ∨ (b, a) ∈ f.differentFrom ∨
    a ≠ b ∧ ∃ g ∈ f.groups, a ∈ g ∧ b ∈ g

/-- One declaration makes equals of two individuals different. -/
def Apart (f : Facts) (a b : Individual) : Prop :=
  ∃ a' b', f.isSame a a' ∧ f.isSame b b' ∧ f.Distinct a' b'

lemma distinct_iff : f.Distinct a b ↔ b ∈ f.declaredDifferent a := by
  rw [Distinct, mem_declaredDifferent, ne_comm]

lemma Apart.symm (h : f.Apart a b) : f.Apart b a := by
  obtain ⟨a', b', ha, hb, hab⟩ := h
  exact ⟨b', a', hb, ha, distinct_iff.mpr
    (declaredDifferent_comm.mp (distinct_iff.mp hab))⟩

lemma apart_comm : f.Apart a b ↔ f.Apart b a := ⟨.symm, .symm⟩

lemma Apart.congr (h : f.Apart a b) (ha : f.isSame a a') (hb : f.isSame b b') :
    f.Apart a' b' := by
  obtain ⟨x, y, hx, hy, hxy⟩ := h
  exact ⟨x, y, f.equality.trans (f.equality.symm ha) hx,
    f.equality.trans (f.equality.symm hb) hy, hxy⟩

/-- Equal individuals are apart from the same ones. -/
lemma apart_congr (ha : f.isSame a a') (hb : f.isSame b b') :
    f.Apart a b ↔ f.Apart a' b' :=
  ⟨fun h => h.congr ha hb,
    fun h => h.congr (f.equality.symm ha) (f.equality.symm hb)⟩

/-- **Difference** is being apart, of two individuals. -/
theorem mem_different_iff_apart : b ∈ f.different a ↔ b ≠ a ∧ f.Apart a b := by
  rw [mem_different]
  refine and_congr_right fun _ => ⟨?_, ?_⟩
  · rintro ⟨a', ha, b', hab, hb⟩
    exact ⟨a', b', isSame_iff.mpr ha, isSame_iff.mpr (mem_equals_comm.mp hb),
      distinct_iff.mpr hab⟩
  · rintro ⟨a', b', ha, hb, hab⟩
    exact ⟨a', isSame_iff.mp ha, b', distinct_iff.mp hab,
      mem_equals_comm.mp (isSame_iff.mp hb)⟩

lemma isDifferent_iff_apart : f.isDifferent a b ↔ b ≠ a ∧ f.Apart a b := by
  rw [isDifferent_iff, mem_different_iff_apart]

/-- In consistent facts no equals are apart. -/
lemma Consistent.not_apart (hf : f.Consistent) (hab : f.isSame a b) :
    ¬ f.Apart a b := by
  rintro ⟨a', b', ha, hb, hdistinct⟩
  have hsame : f.isSame a' b' :=
    f.equality.trans (f.equality.symm ha) (f.equality.trans hab hb)
  exact hf.apart a' b' (distinct_iff.mp hdistinct) (isSame_iff.mp hsame)

end Facts

namespace Store

/-- **Equality and difference** after every run: equality is the least
equivalence relation that holds the declared pairs; two individuals are
different when a declaration makes equals of theirs different. Difference is
symmetric and irreflexive, and it stays when equals are put for individuals, as
long as these are two before and after; in a protected store it always stays. -/
theorem run_difference_respects_equality (config : Config) (cs : List Command) :
    let f := (run { config } cs).facts
    IsLeast {S : Setoid Individual | ∀ a b, (a, b) ∈ f.sameAs → S a b}
      f.equality ∧
    (∀ a b, b ∈ f.others a ↔ b ≠ a ∧ f.isSame a b) ∧
    (∀ a b, b ∈ f.different a ↔ b ≠ a ∧
      ∃ a' b', f.isSame a a' ∧ f.isSame b b' ∧
        ((a', b') ∈ f.differentFrom ∨ (b', a') ∈ f.differentFrom ∨
          a' ≠ b' ∧ ∃ g ∈ f.groups, a' ∈ g ∧ b' ∈ g)) ∧
    (∀ a b, f.isDifferent a b ↔ b ∈ f.different a) ∧
    (∀ a b, f.isDifferent a b ↔ f.isDifferent b a) ∧
    (∀ a, ¬ f.isDifferent a a) ∧
    (∀ a b a' b', f.isSame a a' → f.isSame b b' →
      (a ≠ b ∧ a' ≠ b') ∨ config.protection = true →
        (f.isDifferent a b ↔ f.isDifferent a' b')) := by
  intro f
  refine ⟨f.isLeast_equality, fun a b => by simp,
    fun a b => Facts.mem_different_iff_apart, fun a b => Facts.isDifferent_iff,
    fun a b => ?_, fun a => ?_, fun a b a' b' ha hb h => ?_⟩
  · rw [Facts.isDifferent_iff_apart, Facts.isDifferent_iff_apart, ne_comm,
      Facts.apart_comm]
  · rw [Facts.isDifferent_iff_apart]
    exact fun h => h.1 rfl
  · rw [Facts.isDifferent_iff_apart, Facts.isDifferent_iff_apart,
      Facts.apart_congr ha hb]
    rcases h with ⟨hne, hne'⟩ | hprotection
    · rw [and_iff_right hne.symm, and_iff_right hne'.symm]
    · -- where no equals are apart, those apart are two
      have hf : f.Consistent := run_consistent hprotection cs
      refine and_congr_left fun hapart => iff_of_true ?_ ?_
      · rintro rfl
        exact hf.not_apart (f.equality.refl b)
          ((Facts.apart_congr ha hb).mpr hapart)
      · rintro rfl
        exact hf.not_apart (f.equality.refl b') hapart

/-- The names of two poets are told apart, whatever names are put for them. -/
theorem run_difference_respects_equality_of_names :
    let ada : Individual := .iri ⟨"e:ada"⟩
    let lovelace : Individual := .iri ⟨"e:lovelace"⟩
    let byron : Individual := .iri ⟨"e:byron"⟩
    let poet : Individual := .iri ⟨"e:poet"⟩
    let f := (run {} [.tell (.allDifferent [ada, byron]),
      .tell (.sameAs ada lovelace), .tell (.sameAs byron poet)]).facts
    f.isSame ada lovelace ∧ f.isSame byron poet ∧ ada ≠ byron ∧
      lovelace ≠ poet ∧ f.isDifferent ada byron ∧ f.isDifferent lovelace poet := by
  intro ada lovelace byron poet f
  have hada : f.isSame ada lovelace := by decide
  have hbyron : f.isSame byron poet := by decide
  have hne : ada ≠ byron ∧ lovelace ≠ poet := by decide
  have hdiff : f.isDifferent ada byron := by decide
  obtain ⟨_, _, _, _, _, _, hcongr⟩ := run_difference_respects_equality {} _
  exact ⟨hada, hbyron, hne.1, hne.2, hdiff,
    (hcongr ada byron lovelace poet hada hbyron (.inl hne)).mp hdiff⟩

/-- Without protection two names of a poet can be declared different. Nobody is
different from themselves, but put one name for the other, and they are. -/
theorem run_difference_changes_of_itself :
    let ada : Individual := .iri ⟨"e:ada"⟩
    let lovelace : Individual := .iri ⟨"e:lovelace"⟩
    let config : Config := { protection := false }
    let f := (run { config } [.tell (.sameAs ada lovelace),
      .tell (.differentFrom ada lovelace)]).facts
    f.isSame ada lovelace ∧ lovelace ≠ ada ∧
      ¬ (f.isDifferent ada ada ↔ f.isDifferent lovelace ada) := by
  decide

end Store

end Ontology
