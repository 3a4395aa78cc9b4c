/-
What a store does with statements, and what its runs keep.

* `judge_cases`: the outcomes, each with all that leads to it;
  `judge_eq_applied_iff`, `judge_eq_unchanged_iff`.
* `run_induction`: what holds of no facts, and stays true whenever a statement
  is applied, holds of the facts after every run.
-/
import Mathlib.Tactic.Lemma
import Ontology.Store.Basic

namespace Ontology.Store

variable {s : Store} {t : Statement}

/-! ### Outcomes -/

/-- The four outcomes, each with all that leads to it. -/
lemma judge_cases (s : Store) (t : Statement) :
    (∃ fault, t.fault? = some fault ∧ s.judge t = .refused fault) ∨
      (t.fault? = none ∧ s.facts.holds t ∧ s.judge t = .unchanged) ∨
      (t.fault? = none ∧ ¬ s.facts.holds t ∧ s.config.protection ∧
        ∃ c, s.facts.conflict? s.config.reserved t = some c ∧
          s.judge t = .rejected c) ∨
      (t.fault? = none ∧ ¬ s.facts.holds t ∧
        (s.config.protection → s.facts.conflict? s.config.reserved t = none) ∧
        s.judge t = .applied) := by
  unfold judge
  cases t.fault? with
  | some fault => exact .inl ⟨fault, rfl, rfl⟩
  | none =>
    by_cases hholds : s.facts.holds t
    · exact .inr (.inl ⟨rfl, hholds, by simp [hholds]⟩)
    · by_cases hp : s.config.protection
      · cases hc : s.facts.conflict? s.config.reserved t with
        | some c => exact .inr (.inr (.inl ⟨rfl, hholds, hp, c, rfl, by simp [*]⟩))
        | none => exact .inr (.inr (.inr ⟨rfl, hholds, fun _ => rfl, by simp [*]⟩))
      · exact .inr (.inr (.inr ⟨rfl, hholds, fun h => absurd h hp, by simp [*]⟩))

/-- Applied is what makes sense, is new and, in a protected store, contradicts
nothing. -/
lemma judge_eq_applied_iff :
    s.judge t = .applied ↔
      t.fault? = none ∧ ¬ s.facts.holds t ∧
        (s.config.protection → s.facts.conflict? s.config.reserved t = none) := by
  rcases judge_cases s t with ⟨_, hf, h⟩ | ⟨hf, hh, h⟩ | ⟨hf, hh, hp, _, hc, h⟩ |
    ⟨hf, hh, hc, h⟩ <;> simp_all

/-- Unchanged is what makes sense and holds. -/
lemma judge_eq_unchanged_iff :
    s.judge t = .unchanged ↔ t.fault? = none ∧ s.facts.holds t := by
  rcases judge_cases s t with ⟨_, hf, h⟩ | ⟨hf, hh, h⟩ | ⟨hf, hh, hp, _, hc, h⟩ |
    ⟨hf, hh, hc, h⟩ <;> simp_all

/-! ### Runs -/

@[simp] lemma config_step (s : Store) (c : Command) :
    (s.step c).config = s.config := by
  cases c with
  | tell t => exact config_tell s t
  | reset => rfl

/-- No run changes how contradictions are treated. -/
@[simp] lemma config_run (s : Store) (cs : List Command) :
    (s.run cs).config = s.config := by
  induction cs generalizing s with
  | nil => rfl
  | cons c cs ih => exact (ih (s.step c)).trans (config_step s c)

/-- One command keeps what holds of no facts and stays true whenever a
statement is applied. -/
lemma step_induction {P : Facts → Prop} (hempty : P {})
    (hadd : ∀ f t, P f → judge ⟨s.config, f⟩ t = .applied → P (f.add t))
    (hs : P s.facts) (c : Command) : P (s.step c).facts := by
  cases c with
  | reset => exact hempty
  | tell t =>
    by_cases h : s.judge t = .applied
    · rw [show s.step (.tell t) = _ from tell_eq_of_applied h]
      exact hadd s.facts t hs h
    · rwa [show s.step (.tell t) = s from tell_eq_of_ne_applied h]

/-- **Induction on runs**: what holds of no facts, and stays true whenever a
statement is applied, holds after every run from the empty store. -/
theorem run_induction {P : Facts → Prop} {config : Config} (hempty : P {})
    (hadd : ∀ f t, P f → judge ⟨config, f⟩ t = .applied → P (f.add t))
    (cs : List Command) : P (run { config } cs).facts := by
  have key : ∀ s : Store, s.config = config → P s.facts → P (s.run cs).facts := by
    induction cs with
    | nil => exact fun _ _ hs => hs
    | cons c cs ih =>
      intro s hconfig hs
      subst hconfig
      exact ih (s.step c) (config_step s c) (step_induction hempty hadd hs c)
  exact key _ rfl hempty

end Ontology.Store
