/-
What a store says once it says again.

* `Statement.Alike.fault?_eq_none_iff`, `Facts.Milder.add_of_alike`: statements
  that say the same make sense together, and lead to as much.
* `Store.holds_tell`: a statement that is accepted holds from then on.
* `Guarded.rejects_of_milder`: what a protected store rejects is rejected by
  every one that knows more.
* `Store.run_verdicts_last`: after whatever else a store is told, a statement
  that was accepted is known, and one that was rejected is rejected.
-/
import Ontology.Proofs.Store.Groups

namespace Ontology

/-! ### Statements that say the same -/

/-- Statements that say the same make sense together. -/
lemma Statement.Alike.fault?_eq_none_iff {t u : Statement} (h : t.Alike u) :
    t.fault? = none ↔ u.fault? = none := by
  cases t <;> cases u <;> simp only [Alike, reduceCtorEq] at h
  case sameAs.sameAs =>
    rcases h with ⟨rfl, rfl⟩ | ⟨rfl, rfl⟩ <;> simp [fault?, eq_comm]
  case differentFrom.differentFrom =>
    rcases h with ⟨rfl, rfl⟩ | ⟨rfl, rfl⟩ <;> simp [fault?, eq_comm]
  case allDifferent.allDifferent =>
    simp [fault?, List.eq_nil_iff_forall_not_mem, h]
  all_goals rfl

/-- With more facts, a statement leads to as much as one that says the same. -/
lemma Facts.Milder.add_of_alike {f g : Facts} {t u : Statement}
    (hfg : f.Milder g) (h : t.Alike u) : (f.add t).Milder (g.add u) := by
  have hholds : (g.add u).holds t := (holds_congr h).mpr (g.holds_add u)
  have hgrows : g.Milder (g.add u) := (Within.add g u).milder
  exact add_milder_iff.mpr ⟨hfg.trans hgrows, entry_milder_of_holds hholds⟩

namespace Store

variable {s s' : Store} {t u : Statement}

/-! ### Accepted statements -/

/-- A statement that is applied, or known, holds from then on. -/
lemma holds_tell (h : s.judge t = .applied ∨ s.judge t = .unchanged) :
    (s.tell t).facts.holds t := by
  rcases h with h | h
  · rw [tell_eq_of_applied h]
    exact s.facts.holds_add t
  · rw [tell_eq_of_ne_applied (by simp [h])]
    exact (judge_eq_unchanged_iff.mp h).2

/-- Statements that are applied, or known, make sense. -/
lemma fault?_eq_none_of_accepted
    (h : s.judge t = .applied ∨ s.judge t = .unchanged) : t.fault? = none :=
  h.elim (fun h => (judge_eq_applied_iff.mp h).1)
    fun h => (judge_eq_unchanged_iff.mp h).1

/-! ### Rejected statements -/

/-- What a protected store rejects, in whatever words, is rejected by every
protected store that knows more. -/
lemma Guarded.rejects_of_milder (hs : s.Guarded) (hs' : s'.Guarded)
    (hconfig : s'.config = s.config) (hfacts : s.facts.Milder s'.facts)
    (htu : t.Alike u) (h : ∃ c, s.judge t = .rejected c) :
    ∃ c, s'.judge u = .rejected c := by
  rw [hs.rejects_iff] at h
  rw [hs'.rejects_iff, hconfig, ← htu.fault?_eq_none_iff]
  refine h.imp_right (Or.imp ?_ ?_)
  · exact fun hbad hgood => hbad (hgood.of_milder (hfacts.add_of_alike htu))
  · rintro ⟨i, c, hc, rfl⟩
    exact ⟨i, c, hc, htu⟩

/-- **Verdicts last**: after every run, if a statement is applied or known, then
whatever else the store is told afterwards, the statement is known; if it is
rejected, it is rejected again. Instead of the statement another can be repeated
that says the same: a pair the other way round, or a group with its members in
another order or several times. -/
theorem run_verdicts_last (config : Config) (cs : List Command)
    (ts : List Statement) (h : t.Alike u) :
    let s := run { config } cs
    let later := (s.tell t).tellAll ts
    (s.judge t = .applied ∨ s.judge t = .unchanged → later.judge u = .unchanged) ∧
      ((∃ c, s.judge t = .rejected c) → ∃ c, later.judge u = .rejected c) := by
  intro s later
  have hlater : (s.tell t).facts.Within later.facts := within_tellAll (s.tell t) ts
  constructor
  · intro haccepted
    have hholds : later.facts.holds t := hlater t (holds_tell haccepted)
    have hfault := fault?_eq_none_of_accepted haccepted
    exact judge_eq_unchanged_iff.mpr
      ⟨h.fault?_eq_none_iff.mp hfault, (Facts.holds_congr h).mp hholds⟩
  · intro hrejected
    have hprotection : config.protection = true := by
      have hprotected := (judge_eq_rejected_iff.mp hrejected).2.2.1
      rwa [config_run] at hprotected
    have hs : s.Guarded := guarded_run hprotection cs
    have hs' : later.Guarded := hs.run (.tell t :: ts.map .tell)
    have hconfig : later.config = s.config := by
      rw [show later = s.run (.tell t :: ts.map .tell) from rfl, config_run]
    have hfacts : s.facts.Within later.facts := fun v hv =>
      hlater v (within_tell s t v hv)
    exact hs.rejects_of_milder hs' hconfig hfacts.milder h hrejected

/-- Ada and Byron are two, however often and in whatever order that is said. So
long as they are, they are not one, also when both have got more names. -/
theorem run_verdicts_last_of_names :
    let ada : Individual := .iri ⟨"e:ada"⟩
    let lovelace : Individual := .iri ⟨"e:lovelace"⟩
    let byron : Individual := .iri ⟨"e:byron"⟩
    let gordon : Individual := .iri ⟨"e:gordon"⟩
    let s := run {} [.tell (.differentFrom ada byron)]
    let later : List Statement := [.sameAs ada lovelace, .sameAs gordon byron]
    let group : Statement := .allDifferent [ada, byron]
    let again : Statement := .allDifferent [byron, ada, byron]
    let merge : Statement := .sameAs ada byron
    let back : Statement := .sameAs byron ada
    group.Alike again ∧ s.judge group = .applied ∧
      ((s.tell group).tellAll later).judge again = .unchanged ∧
      merge.Alike back ∧ (∃ c, s.judge merge = .rejected c) ∧
      ∃ c, ((s.tell merge).tellAll later).judge back = .rejected c := by
  intro ada lovelace byron gordon s later group again merge back
  have hagain : group.Alike again := by
    intro i
    simp only [List.mem_cons, List.not_mem_nil, or_false]
    tauto
  have hback : merge.Alike back := .inr ⟨rfl, rfl⟩
  have hgroup : s.judge group = .applied := by decide
  have hmerge : ∃ c, s.judge merge = .rejected c :=
    ⟨.knownDifferent ada byron, by decide⟩
  exact ⟨hagain, hgroup,
    (run_verdicts_last {} [.tell (.differentFrom ada byron)] later hagain).1
      (.inl hgroup),
    hback, hmerge,
    (run_verdicts_last {} [.tell (.differentFrom ada byron)] later hback).2 hmerge⟩

end Store

end Ontology
