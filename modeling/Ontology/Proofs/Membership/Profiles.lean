/-
Profiles ask about many classes in one query.

* `Reasoner.holdsIn`: the question about one class, which may follow others.
* `exists_holdsIn_of_isMember`: it has the answer that a query of its own has.
* `exists_filterAuxM`: so have the questions about a list of classes, one after the
  other.
* `profile_agrees_with_queries`: **profiles agree with separate queries**.
-/
import Ontology.Proofs.Membership.Evaluation

namespace Ontology.Reasoner

variable {r : Reasoner} {i : Individual} {c : ClassName} {cs found : List ClassName}
  {p : Progress} {b : Bool}

/-! ### One class -/

/-- The members of a class are asked for, and whether an individual is one. -/
def holdsIn (r : Reasoner) (i : Individual) (c : ClassName) : Query Bool :=
  return (← r.membersQuery c).contains i

lemma memberOf_eq :
    r.memberOf i cs = answer (cs.filterM (r.holdsIn i)) := rfl

lemma isMember_eq_ok_iff :
    r.isMember i c = .ok b ↔ ∃ is, r.members c = .ok is ∧ is.contains i = b := by
  rw [isMember]
  cases r.members c with
  | ok is => simp [bind, Except.bind, pure, Except.pure]
  | error e => simp

/-- A question that has an answer of its own has the same answer after any other
queries, and more may follow. -/
lemma exists_holdsIn_of_isMember (hp : r.Attained p) (h : r.isMember i c = .ok b) :
    ∃ q, r.Attained q ∧ r.holdsIn i c p = .ok (b, q) := by
  obtain ⟨is, his, rfl⟩ := isMember_eq_ok_iff.mp h
  obtain ⟨q, hq⟩ := membersQuery_of_attained hp his
  exact ⟨q, .query hp hq,
    Query.bind_eq_ok_iff.mpr ⟨is, q, hq, Query.pure_eq_ok_iff.mpr ⟨rfl, rfl⟩⟩⟩

/-! ### Some classes -/

/-- If each question has an answer of its own, those of which it is yes are found
one after the other. -/
lemma exists_filterAuxM (hp : r.Attained p)
    (h : ∀ c ∈ cs, ∃ b, r.isMember i c = .ok b) :
    ∃ q, r.Attained q ∧ List.filterAuxM (r.holdsIn i) cs found p =
      .ok ((cs.filter fun c => r.isMember i c = .ok true).reverse ++ found, q) := by
  induction cs generalizing p found with
  | nil => exact ⟨p, hp, rfl⟩
  | cons c cs ih =>
    obtain ⟨⟨b, hb⟩, hcs⟩ := List.forall_mem_cons.mp h
    obtain ⟨p', hp', hc⟩ := exists_holdsIn_of_isMember hp hb
    obtain ⟨q, hq, hrest⟩ := ih hp' hcs
    refine ⟨q, hq, Query.bind_eq_ok_iff.mpr ⟨b, p', hc, ?_⟩⟩
    rw [hrest]
    cases b <;> simp [hb]

lemma memberOf_eq_ok (h : ∀ c ∈ cs, ∃ b, r.isMember i c = .ok b) :
    r.memberOf i cs = .ok (cs.filter fun c => r.isMember i c = .ok true) := by
  obtain ⟨q, -, hrun⟩ := exists_filterAuxM .start h
  have hfilter : cs.filterM (r.holdsIn i) {} =
      .ok (cs.filter fun c => r.isMember i c = .ok true, q) :=
    Query.bind_eq_ok_iff.mpr ⟨_, q, hrun, by simp [Query.pure_eq_ok_iff]⟩
  rw [memberOf_eq, answer, StateT.run', hfilter]
  rfl

/-- **Profiles agree with separate queries**: if for each of some classes a query
tells whether an individual is a member, then the profile of the individual with
these classes is found, and is what the facts tell of the individual with the
classes of which it is a member, in their order and with their repetitions. -/
theorem profile_agrees_with_queries (r : Reasoner) (i : Individual)
    (cs : List ClassName) (h : ∀ c ∈ cs, ∃ b, r.isMember i c = .ok b) :
    r.profile i cs = .ok { r.facts.profile i with
      memberOf := cs.filter fun c => r.isMember i c = .ok true } := by
  rw [profile, memberOf_eq_ok h]
  rfl

/-- Readers and critics are described through poets, and critics through readers;
Ada is asked about, and about critics twice. -/
theorem profile_agrees_with_queries_of_critics :
    let ada : Individual := .iri ⟨"e:ada"⟩
    let byron : Individual := .iri ⟨"e:byron"⟩
    let poet : ClassName := .iri ⟨"e:Poet"⟩
    let layman : ClassName := .iri ⟨"e:Layman"⟩
    let reader : ClassName := .iri ⟨"e:Reader"⟩
    let critic : ClassName := .iri ⟨"e:Critic"⟩
    let reads : Property := ⟨"e:reads"⟩
    let cs := [critic, poet, reader, critic, layman]
    let r : Reasoner := {
      facts := (Store.run {} [.tell (.instanceOf byron poet),
        .tell (.assertion ⟨.positive, ada, reads, .node byron⟩)]).facts
      catalog := Terminology.catalog [
        .define layman (.complement poet),
        .define reader (.restriction ⟨.direct reads, .someValuesFrom poet,
          by simp [Constraint.Ordered, Constraint.count?]⟩),
        .define critic (.intersection [layman, reader])]
      maxDepth := 2 }
    (∀ c ∈ cs, ∃ b, r.isMember ada c = .ok b) ∧
      (cs.filter fun c => r.isMember ada c = .ok true) =
        [critic, reader, critic, layman] ∧
      r.profile ada cs = .ok { r.facts.profile ada with
        memberOf := [critic, reader, critic, layman] } := by
  intro ada byron poet layman reader critic reads cs r
  have hanswers : ∀ c ∈ cs, ∃ b, r.isMember ada c = .ok b := by
    have hcritic : r.isMember ada critic = .ok true := by decide +kernel
    have hpoet : r.isMember ada poet = .ok false := by decide +kernel
    have hreader : r.isMember ada reader = .ok true := by decide +kernel
    have hlayman : r.isMember ada layman = .ok true := by decide +kernel
    simp [cs, hcritic, hpoet, hreader, hlayman]
  have hfound : (cs.filter fun c => r.isMember ada c = .ok true) =
      [critic, reader, critic, layman] := by decide +kernel
  have hprofile := profile_agrees_with_queries r ada cs hanswers
  rw [hfound] at hprofile
  exact ⟨hanswers, hfound, hprofile⟩

end Ontology.Reasoner
