/-
What queries read of the facts.

* `Facts.affirmed`: the facts without negative assertions, differences and
  remarks; `members_affirmed`, `related_affirmed`: queries read nothing else.
* `Statement.silent`: the statements that affirm nothing; `affirmed_tell`: told
  about known individuals, they leave the affirmed facts as they are.
* `Facts.SameAnswers`, `Facts.SameClosures`, and `silent_tells_nothing`: what
  silent statements on known individuals do not change.
-/
import Mathlib.Data.List.Basic
import Ontology.Proofs.Membership.Matching
import Ontology.Proofs.Store.Remarks

namespace Ontology

/-- Statements that say what does not hold, which individuals differ, or
something that has no bearing on classes. -/
def Statement.silent : Statement → Bool
  | assertion a => a.polarity = .negative
  | differentFrom _ _ | allDifferent _ | note _ => true
  | individual _ | instanceOf _ _ | sameAs _ _ => false

/-! ### Affirmed facts -/

namespace Facts

variable {f g : Facts} {t : Statement}

/-- The individuals, their classes, their names and the positive assertions. -/
def affirmed (f : Facts) : Facts where
  individuals := f.individuals
  types := f.types
  assertions := f.assertions.filter fun a => a.polarity = .positive
  sameAs := f.sameAs

/-- A negative assertion is no link. -/
lemma links_affirmed (f : Facts) (ps : List Property) :
    f.affirmed.links ps = f.links ps := by
  simp only [links, affirmed, List.filter_filter, List.filterMap_filter]
  refine List.filterMap_congr fun a _ => ?_
  cases ha : a.polarity <;> simp [Assertion.link?, ha]

lemma related_affirmed (f : Facts) (ps : List Property) (a : Individual) :
    f.affirmed.related ps a = f.related ps a := by
  rw [related, links_affirmed, related]

/-- A silent statement on known individuals is recorded apart from what is
affirmed. -/
lemma affirmed_add (ht : t.silent) (hknown : ∀ i ∈ t.individuals, i ∈ f.individuals) :
    (f.add t).affirmed = f.affirmed := by
  have hrecord : (f.record t).individuals = f.individuals := by cases t <;> rfl
  rw [add, declare_of_known (hrecord ▸ hknown)]
  cases t with
  | assertion a =>
    have ha : a.polarity = .negative := of_decide_eq_true ht
    simp [affirmed, record, ha]
  | differentFrom a b => rfl
  | allDifferent is => rfl
  | note n => rfl
  | _ => cases ht

/-- Remarks affirm nothing. -/
lemma affirmed_congr (h : f.bare = g.bare) : f.affirmed = g.affirmed :=
  calc
    f.affirmed = f.bare.affirmed := rfl
    _ = g.bare.affirmed := congrArg affirmed h
    _ = g.affirmed := rfl

end Facts

lemma Store.affirmed_tell {s : Store} {t : Statement} (ht : t.silent)
    (hknown : ∀ i ∈ t.individuals, i ∈ s.facts.individuals) :
    (s.tell t).facts.affirmed = s.facts.affirmed := by
  by_cases happlied : s.judge t = .applied
  · rw [tell_eq_of_applied happlied]
    exact Facts.affirmed_add ht hknown
  · rw [tell_eq_of_ne_applied happlied]

/-! ### Queries -/

namespace Reasoner

/-- A query with the affirmed facts only. -/
def affirmed (r : Reasoner) : Reasoner := { r with facts := r.facts.affirmed }

variable (r : Reasoner)

lemma stated_affirmed (ps : List Property) : r.affirmed.stated ps = r.stated ps := by
  simp only [stated, affirmed, Facts.affirmed, List.filter_filter]
  refine congrArg (List.map _) (List.filter_congr fun a _ => ?_)
  grind

lemma forward_affirmed (p : Property) : r.affirmed.forward p = r.forward p :=
  congrArg₂ (fun vs es => vs ++ Links.ofEdges (Edges.closure es))
    (r.stated_affirmed (r.expand p))
    (r.facts.links_affirmed (r.transitiveOf (r.expand p)))

lemma backward_affirmed (p : Property) : r.affirmed.backward p = r.backward p :=
  congrArg₂ (fun es ts : Edges Individual =>
    Links.ofEdges es.flip ++ Links.ofEdges ts.flip.closure)
    (r.facts.links_affirmed (r.expand p))
    (r.facts.links_affirmed (r.transitiveOf (r.expand p)))

/-- Roles have the same values. -/
lemma roleLinks_affirmed (x : Role) : r.affirmed.roleLinks x = r.roleLinks x := by
  cases x with
  | direct p => exact r.forward_affirmed p
  | inverse p =>
    simp only [roleLinks, r.backward_affirmed, funext r.forward_affirmed]
    rfl

lemma affirmed_matches : r.affirmed.Matches r where
  maxDepth := rfl
  classify _ := rfl
  individuals := rfl
  equals _ := rfl
  named _ := rfl
  roleLinks := r.roleLinks_affirmed

/-- **Only what is affirmed counts**: a query for the members of a class reads
no negative assertion, no difference and no remark. -/
theorem members_affirmed (c : ClassName) : r.affirmed.members c = r.members c :=
  r.affirmed_matches.members_eq c

end Reasoner

/-! ### What silent statements do not change -/

namespace Facts

variable {f g : Facts}

/-- Facts from which all queries have the same answers. -/
structure SameAnswers (f g : Facts) : Prop where
  members : ∀ (r : Reasoner) (c : ClassName),
    Reasoner.members { r with facts := f } c =
      Reasoner.members { r with facts := g } c
  related : ∀ (r : Reasoner) (p : Property) (i : Individual),
    Reasoner.related { r with facts := f } p i =
      Reasoner.related { r with facts := g } p i

/-- Facts with the same equalities, differences and paths. -/
structure SameClosures (f g : Facts) : Prop where
  equals : ∀ a, f.equals a = g.equals a
  different : ∀ a, f.different a = g.different a
  related : ∀ ps a, f.related ps a = g.related ps a

lemma sameAnswers_of_affirmed (h : f.affirmed = g.affirmed) : f.SameAnswers g where
  members r c := by
    rw [← Reasoner.members_affirmed, ← Reasoner.members_affirmed { r with facts := g }]
    simp only [Reasoner.affirmed, h]
  related r p i := by
    rw [Reasoner.related, ← related_affirmed, h, related_affirmed]
    rfl

lemma sameClosures_of_bare (h : f.bare = g.bare) : f.SameClosures g where
  equals a := by rw [← equals_bare, h, equals_bare]
  different a := by rw [← different_bare, h, different_bare]
  related ps a := by rw [← related_bare, h, related_bare]

end Facts

namespace Store

/-- **Silent statements tell queries nothing.** In every store that a run leads
to, a negative assertion, a difference or a remark that mentions known
individuals only changes no answer to a query. Remarks on known individuals, put
in anywhere in a run, change no answer, no closure and none of the other outcomes
of the run. -/
theorem silent_tells_nothing (config : Config) :
    (∀ (cs : List Command) (t : Statement), t.silent →
      (∀ i ∈ t.individuals, i ∈ (run { config } cs).facts.individuals) →
      ((run { config } cs).tell t).facts.SameAnswers (run { config } cs).facts) ∧
    ∀ cs ds : List Command, Remarked { config } cs ds →
      outcomes { config } cs = outcomes { config } ds ∧
      (run { config } cs).facts.SameClosures (run { config } ds).facts ∧
      (run { config } cs).facts.SameAnswers (run { config } ds).facts := by
  refine ⟨fun cs t ht hknown => Facts.sameAnswers_of_affirmed (affirmed_tell ht hknown),
    fun cs ds hds => ?_⟩
  have hstart : SameButRemarks { config } { config } :=
    ⟨rfl, rfl, Facts.declares_empty, Facts.declares_empty⟩
  obtain ⟨houtcomes, hrun⟩ := hstart.run hds
  exact ⟨houtcomes, Facts.sameClosures_of_bare hrun.bare,
    Facts.sameAnswers_of_affirmed (Facts.affirmed_congr hrun.bare)⟩

/-- That Ada does not write to Byron can be recorded, and so can a remark on her
before he is known. -/
theorem silent_tells_nothing_of_letters :
    let ada : Individual := .iri ⟨"e:ada"⟩
    let byron : Individual := .iri ⟨"e:byron"⟩
    let writes : Property := ⟨"e:writes"⟩
    let remark : Statement := .note ⟨ada, writes, .node byron⟩
    let denial : Statement := .assertion ⟨.negative, ada, writes, .node byron⟩
    let cs : List Command := [.tell (.individual ada), .tell (.individual byron)]
    let ds : List Command :=
      [.tell (.individual ada), .tell remark, .tell (.individual byron)]
    denial.silent ∧ (∀ i ∈ denial.individuals, i ∈ (run {} cs).facts.individuals) ∧
      (run {} cs).judge denial = .applied ∧
      ((run {} cs).tell denial).facts.SameAnswers (run {} cs).facts ∧
      Remarked {} cs ds ∧ run {} cs ≠ run {} ds ∧
      outcomes {} cs = outcomes {} ds ∧
      (run {} cs).facts.SameClosures (run {} ds).facts ∧
      (run {} cs).facts.SameAnswers (run {} ds).facts := by
  intro ada byron writes remark denial cs ds
  have hsilent : denial.silent := by decide
  have hknown : ∀ i ∈ denial.individuals, i ∈ (run {} cs).facts.individuals := by
    decide
  have hds : Remarked {} cs ds :=
    .command _ (.remark _ (by decide) (.command _ (.nil _)))
  exact ⟨hsilent, hknown, by decide,
    (silent_tells_nothing {}).1 cs denial hsilent hknown, hds, by decide,
    (silent_tells_nothing {}).2 cs ds hds⟩

end Store

end Ontology
