/-
Reasoners that match.

* `Reasoner.Matches`: all that queries consult is the same.
* `Matches.restricted_eq`, `interpret_eq`: restrictions, and class expressions in
  computations of any kind, have the same members; `Matches.members_eq`: hence
  all queries for the members of classes have the same answer.
-/
import Mathlib.Data.Nat.Notation
import Mathlib.Tactic.Lemma
import Ontology.Membership.Query

namespace Ontology.Reasoner

/-- Two reasoners describe classes alike, know the same individuals under the
same names, and give the same members to names and the same values to roles. -/
structure Matches (r r' : Reasoner) : Prop where
  maxDepth : r.maxDepth = r'.maxDepth
  classify : ∀ c, r.catalog.classify c = r'.catalog.classify c
  individuals : r.facts.individuals = r'.facts.individuals
  equals : ∀ i, r.facts.equals i = r'.facts.equals i
  named : ∀ c, r.named c = r'.named c
  roleLinks : ∀ x, r.roleLinks x = r'.roleLinks x

namespace Matches

variable {r r' : Reasoner} (h : r.Matches r')
include h

lemma sameValue_eq (v w : Rdf.Term) : r.sameValue v w = r'.sameValue v w := by
  cases v <;> cases w <;> simp [sameValue, Facts.isSame, h.equals]

lemma satisfies_eq (filler : Filler) (i : Individual) (values : List Rdf.Term)
    (c : Constraint) :
    r.satisfies filler i values c = r'.satisfies filler i values c := by
  cases c with
  | hasValue v => simp only [satisfies, funext (h.sameValue_eq v)]
  | _ => rfl

/-- Restrictions have the same members. -/
lemma restricted_eq (x : Restriction) (filler : Filler) :
    r.restricted x filler = r'.restricted x filler := by
  simp only [restricted, candidates, h.roleLinks, h.individuals, h.satisfies_eq]

/-- Class expressions have the same members, whatever the members of the
classes in them. -/
lemma interpret_eq {m : Type → Type} [Monad m]
    (members : ClassName → m (List Individual)) (e : ClassExpression) :
    r.interpret members e = r'.interpret members e := by
  cases e with
  | named c => simp only [interpret, h.named]
  | restriction x =>
    simp only [interpret, interpretRestriction, h.individuals, h.restricted_eq]
  | union cs => rfl
  | intersection cs => cases cs <;> rfl
  | complement c => simp only [interpret, h.individuals]
  | oneOf is => rfl

lemma evaluate_eq (n : ℕ) (c : ClassName) : r.evaluate n c = r'.evaluate n c := by
  induction n generalizing c with
  | zero => simp only [evaluate, h.maxDepth]
  | succ n ih =>
    simp only [evaluate, describe, h.classify, h.interpret_eq, funext ih]

/-- **Same answers**: a query for the members of a class has the same answer. -/
theorem members_eq (c : ClassName) : r.members c = r'.members c := by
  simp only [members, membersQuery, h.maxDepth, h.evaluate_eq]

end Matches

end Ontology.Reasoner
