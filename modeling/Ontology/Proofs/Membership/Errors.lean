/-
The errors of evaluation are genuine.

* `Reasoner.Needs`: a class depends on the operands of its structure.
* `evaluate_eq_error_iff`: how an evaluation can fail.
* `Reasoner.Causes`: what is behind an error; `Causes.needed`: the cause of an
  error of an operand is one of the class.
* `evaluate_causes`: an evaluation fails only with a cause, and keeps track of
  the classes that are under way.
* `not_tooDeep_of_length_le`: a query ends by itself, with or without a limit;
  `members_errors_genuine`: without cycles, long paths and classes that cannot
  be read it has an answer.
-/
import Mathlib.Data.List.Chain
import Mathlib.Data.List.Perm.Subperm
import Mathlib.Logic.Relation
import Ontology.Proofs.Membership.Evaluation

namespace Ontology

open Relation

/-! ### Steps of a query that fail -/

namespace Query

variable {α β : Type} {x : Query α} {f : α → Query β} {p : Progress}
  {e : MembershipError}

lemma pure_ne_error {a : α} : (pure a : Query α) p ≠ .error e := by
  show Except.ok (a, p) ≠ .error e
  simp

lemma bind_eq_error_iff :
    (x >>= f) p = .error e ↔
      x p = .error e ∨ ∃ a p', x p = .ok (a, p') ∧ f a p' = .error e := by
  simp only [bind, StateT.bind, Except.bind]
  cases x p with
  | error e => simp
  | ok y => cases y; simp

lemma get_ne_error : (get : Query Progress) p ≠ .error e := by
  simp [get, getThe, MonadStateOf.get, StateT.get, pure, Except.pure]

lemma modify_ne_error {g : Progress → Progress} :
    (modify g : Query PUnit) p ≠ .error e := by
  simp [modify, modifyGet, MonadStateOf.modifyGet, StateT.modifyGet, pure,
    Except.pure]

lemma throw_eq_error_iff {e' : MembershipError} :
    (throw e : Query α) p = .error e' ↔ e = e' := by
  simp [throw, throwThe, MonadExceptOf.throw, StateT.lift, bind, Except.bind]

end Query

namespace Reasoner

variable {r : Reasoner} {n : ℕ} {c d : ClassName} {e : MembershipError}
  {p q : Progress} {us : List ClassName}

/-! ### Dependencies -/

/-- A class depends on another that its structure is made of. -/
def Needs (r : Reasoner) (c d : ClassName) : Prop :=
  ∃ x, r.catalog.classify c = .ok x ∧ d ∈ x.operands

lemma describe_eq_error_iff :
    r.describe c p = .error e ↔
      ∃ x, r.catalog.classify c = .error x ∧ .catalog x = e := by
  rw [describe]
  cases r.catalog.classify c with
  | ok x => simp [Query.pure_ne_error]
  | error x => simp [Query.throw_eq_error_iff]

/-- An evaluation fails when the class is not known and the limit is reached,
the class is under way, it cannot be read, or its structure has no members. -/
lemma evaluate_eq_error_iff :
    r.evaluate n c p = .error e ↔ p.members? c = none ∧
      ((n = 0 ∧ .tooDeep r.maxDepth = e) ∨ ∃ n', n = n' + 1 ∧
        ((c ∈ p.underway ∧ .cyclic c = e) ∨ c ∉ p.underway ∧
          ((∃ x, r.catalog.classify c = .error x ∧ .catalog x = e) ∨
            ∃ x, r.catalog.classify c = .ok x ∧
              r.interpret (r.evaluate n') x (p.start c) = .error e))) := by
  unfold evaluate
  rw [Query.bind_eq_error_iff]
  simp only [Query.get_ne_error, Query.get_eq_ok_iff, false_or,
    exists_and_left, exists_eq_left', and_assoc]
  cases hknown : p.members? c with
  | some is => simp [Query.pure_ne_error]
  | none =>
    cases n with
    | zero => simp [Query.throw_eq_error_iff]
    | succ n =>
      by_cases hunderway : c ∈ p.underway
      · simp [Query.bind_eq_error_iff, Query.get_ne_error, Query.get_eq_ok_iff,
          hunderway, Query.throw_eq_error_iff, Query.throw_ne_ok]
      · simp [-bind_pure_comp, Query.bind_eq_error_iff, Query.get_ne_error,
          Query.get_eq_ok_iff, hunderway, Query.modify_ne_error,
          Query.modify_eq_ok_iff, describe_eq_error_iff, describe_eq_ok_iff,
          Query.pure_ne_error]

/-! ### Causes -/

/-- What is behind an error of the evaluation of a class, with a number of
nested expressions left and some classes under way around it. -/
inductive Causes (r : Reasoner) (us : List ClassName) (n : ℕ) (c : ClassName) :
    MembershipError → Prop
  /-- A class that is needed is under way around the evaluation. -/
  | underway {d : ClassName} (hcd : ReflTransGen r.Needs c d) (hd : d ∈ us) :
    Causes r us n c (.cyclic d)
  /-- A class that is needed depends on itself. -/
  | cycle {d : ClassName} (hcd : ReflTransGen r.Needs c d)
    (hdd : TransGen r.Needs d d) : Causes r us n c (.cyclic d)
  /-- A path of dependencies is as long as what is left, and before its end comes
  to no class twice and to none that is under way. -/
  | path {ds : List ClassName} (hds : (c :: ds).IsChain r.Needs)
    (hlength : ds.length = n) (hnodup : (c :: ds).dropLast.Nodup)
    (hnew : ∀ d ∈ (c :: ds).dropLast, d ∉ us) :
    Causes r us n c (.tooDeep r.maxDepth)
  /-- A class that is needed cannot be read. -/
  | unreadable {d : ClassName} {x : CatalogError}
    (hcd : ReflTransGen r.Needs c d) (hd : r.catalog.classify d = .error x) :
    Causes r us n c (.catalog x)

/-- The cause of an error of a class that another depends on is one of the
other. -/
lemma Causes.needed (hcd : r.Needs c d) (hc : c ∉ us)
    (h : r.Causes (c :: us) n d e) : r.Causes us (n + 1) c e := by
  cases h with
  | underway hdx hx =>
    rcases List.mem_cons.mp hx with rfl | hx
    · exact .cycle .refl (.head' hcd hdx)
    · exact .underway (.head hcd hdx) hx
  | cycle hdx hx => exact .cycle (.head hcd hdx) hx
  | @path ds hds hlength hnodup hnew =>
    have hdrop : (c :: d :: ds).dropLast = c :: (d :: ds).dropLast := rfl
    refine .path (.cons_cons hcd hds) (congrArg (· + 1) hlength) ?_ ?_
    · rw [hdrop, List.nodup_cons]
      exact ⟨fun hmem => hnew c hmem List.mem_cons_self, hnodup⟩
    · rw [hdrop, List.forall_mem_cons]
      exact ⟨hc, fun x hx hus => hnew x hx (List.mem_cons_of_mem _ hus)⟩
  | unreadable hdx hx => exact .unreadable (.head hcd hdx) hx

/-- The classes under way in sound progress. -/
structure Stands (r : Reasoner) (us : List ClassName) (p : Progress) : Prop where
  sound : r.Sound p
  underway : p.underway = us

/-- A query leaves the same classes under way, and fails only with errors of a
kind. -/
def FailsOnly (r : Reasoner) (us : List ClassName) (B : MembershipError → Prop)
    {α : Type} (x : Query α) : Prop :=
  ∀ p, r.Stands us p →
    (∀ a q, x p = .ok (a, q) → r.Stands us q) ∧ ∀ e, x p = .error e → B e

lemma failsOnly_compositional {B : MembershipError → Prop} :
    Compositional (m := Query) (n := Id) fun _ x _ => r.FailsOnly us B x where
  pure a p hp := by
    refine ⟨fun b q h => ?_, fun e h => absurd h Query.pure_ne_error⟩
    obtain ⟨-, rfl⟩ := Query.pure_eq_ok_iff.mp h
    exact hp
  bind hx hf p hp := by
    obtain ⟨hok, herror⟩ := hx p hp
    refine ⟨fun b q h => ?_, fun e h => ?_⟩
    · obtain ⟨a, p', ha, hb⟩ := Query.bind_eq_ok_iff.mp h
      exact (hf a p' (hok a p' ha)).1 b q hb
    · rcases Query.bind_eq_error_iff.mp h with h | ⟨a, p', ha, h⟩
      · exact herror e h
      · exact (hf a p' (hok a p' ha)).2 e h

/-- **Evaluation fails only with a cause**, and otherwise leaves under way what
was under way. -/
theorem evaluate_causes (r : Reasoner) (us : List ClassName) (n : ℕ)
    (c : ClassName) : r.FailsOnly us (r.Causes us n c) (r.evaluate n c) := by
  induction n using Nat.strong_induction_on generalizing us c with
  | _ n ih =>
    refine fun p hp => ⟨fun is q h => ?_, fun e h => ?_⟩
    · have hgrows : r.Grows p q := (evaluate_sound hp.sound h).1
      exact ⟨hgrows.sound, hgrows.underway.trans hp.underway⟩
    obtain ⟨hnew, ⟨rfl, rfl⟩ | ⟨n, rfl, ⟨hunderway, rfl⟩ |
      ⟨hunderway, ⟨x, hx, rfl⟩ | ⟨x, hx, hrun⟩⟩⟩⟩ := evaluate_eq_error_iff.mp h
    · exact .path (.singleton c) rfl .nil fun _ h => absurd h List.not_mem_nil
    · exact .underway .refl (hp.underway ▸ hunderway)
    · exact .unreadable .refl hx
    · -- the operands are evaluated with the class under way around them
      have hc : c ∉ us := hp.underway ▸ hunderway
      have hoperands : r.FailsOnly (c :: us) (r.Causes us (n + 1) c)
          (r.interpret (r.evaluate n) x) := by
        refine interpret_related_of_operands (g := fun _ => (pure [] : Id _))
          failsOnly_compositional fun d hd p hp => ?_
        obtain ⟨hok, herror⟩ := ih n (Nat.lt_succ_self n) (c :: us) d p hp
        exact ⟨hok, fun e he => (herror e he).needed ⟨x, hx, hd⟩ hc⟩
      have hstart : r.Stands (c :: us) (p.start c) :=
        ⟨hp.sound.start hnew, congrArg (c :: ·) hp.underway⟩
      exact (hoperands _ hstart).2 e hrun

/-- What a path comes to is needed. -/
lemma reflTransGen_of_isChain {ds : List ClassName} (h : (c :: ds).IsChain r.Needs) :
    ∀ d ∈ c :: ds, ReflTransGen r.Needs c d := by
  induction ds generalizing c with
  | nil => simp [ReflTransGen.refl]
  | cons d ds ih =>
    obtain ⟨hcd, hds⟩ := List.isChain_cons_cons.mp h
    rw [List.forall_mem_cons]
    exact ⟨.refl, fun x hx => .head hcd (ih hds x hx)⟩

/-! ### Queries -/

/-- A query of its own fails as it does from no progress. -/
lemma members_eq_error_iff :
    r.members c = .error e ↔ r.membersQuery c {} = .error e := by
  simp only [members, answer, StateT.run', Functor.map, Except.map]
  cases r.membersQuery c {} with
  | error e => simp
  | ok y => simp

/-- A query of its own fails only with a cause, no class being under way. -/
lemma causes_of_members (h : r.members c = .error e) :
    r.Causes [] (r.maxDepth + 1) c e :=
  (evaluate_causes r [] (r.maxDepth + 1) c {} ⟨sound_empty, rfl⟩).2 e
    (members_eq_error_iff.mp h)

/-- Where no more classes are needed than the limit says, it is not reached. -/
lemma not_tooDeep_of_length_le {cs : List ClassName}
    (hcs : ∀ d, ReflTransGen r.Needs c d → d ∈ cs) (hlength : cs.length ≤ r.maxDepth)
    (limit : ℕ) : r.members c ≠ .error (.tooDeep limit) := by
  intro h
  cases causes_of_members h with
  | @path ds hds hpath hnodup _ =>
    have hsub : (c :: ds).dropLast ⊆ cs := fun d hd =>
      hcs d (reflTransGen_of_isChain hds d (List.mem_of_mem_dropLast hd))
    have hle := (List.subperm_of_subset hnodup hsub).length_le
    simp only [List.length_dropLast, List.length_cons] at hle
    omega

/-- **Errors are genuine**: a query says that a class is cyclic only if it is
needed and depends on itself, that expressions are nested too deep only if a
path of dependencies is longer than the limit, and that a description cannot be
read only if this is so of a class that is needed. So there is an answer where
no class that is needed depends on itself, no path of dependencies is longer
than the limit, and all classes that are needed can be read. Even with cycles a
query ends by itself: the limit is not reached if it is not smaller than the
number of the classes that are needed. -/
theorem members_errors_genuine (r : Reasoner) (c : ClassName) :
    (∀ d, r.members c = .error (.cyclic d) →
      ReflTransGen r.Needs c d ∧ TransGen r.Needs d d) ∧
    (∀ limit, r.members c = .error (.tooDeep limit) → limit = r.maxDepth ∧
      ∃ ds, (c :: ds).IsChain r.Needs ∧ r.maxDepth < ds.length) ∧
    (∀ x, r.members c = .error (.catalog x) →
      ∃ d, ReflTransGen r.Needs c d ∧ r.catalog.classify d = .error x) ∧
    ((∀ d, ReflTransGen r.Needs c d → ¬ TransGen r.Needs d d) →
      (∀ ds, (c :: ds).IsChain r.Needs → ds.length ≤ r.maxDepth) →
      (∀ d, ReflTransGen r.Needs c d → ∃ x, r.catalog.classify d = .ok x) →
        ∃ is, r.members c = .ok is) ∧
    ∀ cs : List ClassName, (∀ d, ReflTransGen r.Needs c d → d ∈ cs) →
      cs.length ≤ r.maxDepth → ∀ limit, r.members c ≠ .error (.tooDeep limit) := by
  have hcyclic : ∀ d, r.members c = .error (.cyclic d) →
      ReflTransGen r.Needs c d ∧ TransGen r.Needs d d := by
    intro d h
    cases causes_of_members h with
    | underway _ hd => exact absurd hd List.not_mem_nil
    | cycle hcd hdd => exact ⟨hcd, hdd⟩
  have hdeep : ∀ limit, r.members c = .error (.tooDeep limit) →
      limit = r.maxDepth ∧
        ∃ ds, (c :: ds).IsChain r.Needs ∧ r.maxDepth < ds.length := by
    intro limit h
    cases causes_of_members h with
    | path hds hlength => exact ⟨rfl, _, hds, by omega⟩
  have hread : ∀ x, r.members c = .error (.catalog x) →
      ∃ d, ReflTransGen r.Needs c d ∧ r.catalog.classify d = .error x := by
    intro x h
    cases causes_of_members h with
    | unreadable hcd hd => exact ⟨_, hcd, hd⟩
  refine ⟨hcyclic, hdeep, hread, fun hacyclic hshort hok => ?_,
    fun _ => not_tooDeep_of_length_le⟩
  cases h : r.members c with
  | ok is => exact ⟨is, rfl⟩
  | error e =>
    cases e with
    | cyclic d => exact absurd (hcyclic d h).2 (hacyclic d (hcyclic d h).1)
    | tooDeep limit =>
      obtain ⟨_, ds, hds, hlong⟩ := hdeep limit h
      exact absurd (hshort ds hds) (by omega)
    | catalog x =>
      obtain ⟨d, hcd, hd⟩ := hread x h
      obtain ⟨y, hy⟩ := hok d hcd
      rw [hd] at hy
      cases hy

/-- A class that is the complement of another has members at the least depth
that allows for both; critics who are read by critics have none at any. -/
theorem members_errors_genuine_of_definitions :
    let poet : ClassName := .iri ⟨"e:Poet"⟩
    let layman : ClassName := .iri ⟨"e:Layman"⟩
    let critic : ClassName := .iri ⟨"e:Critic"⟩
    let reader : ClassName := .iri ⟨"e:Reader"⟩
    let r : Reasoner := {
      facts := {}
      catalog := Terminology.catalog [.define layman (.complement poet)]
      maxDepth := 1 }
    let s : Reasoner := {
      facts := {}
      catalog := Terminology.catalog [
        .define critic (.union [poet, reader]),
        .define reader (.restriction ⟨.direct ⟨"e:reads"⟩, .someValuesFrom critic,
          by simp [Constraint.Ordered, Constraint.count?]⟩)] }
    (∃ is, r.members layman = .ok is) ∧
      s.members critic = .error (.cyclic critic) ∧
      TransGen s.Needs critic critic := by
  intro poet layman critic reader r s
  have hneeds : ∀ c d, r.Needs c d → c = layman ∧ d = poet := by
    rintro c d ⟨x, hx, hd⟩
    obtain rfl : Terminology.classify [.define layman (.complement poet)] c = x :=
      Except.ok.inj hx
    by_cases hc : layman = c
    · simp_all [Terminology.classify, Terminology.definition?,
        ClassExpression.operands]
    · simp [Terminology.classify, Terminology.definition?, hc,
        ClassExpression.operands] at hd
  have hne : layman ≠ poet := by decide
  have hacyclic : ∀ d, ReflTransGen r.Needs layman d → ¬ TransGen r.Needs d d := by
    intro d _ h
    obtain ⟨_, hfirst, _⟩ := TransGen.head'_iff.mp h
    obtain ⟨_, _, hlast⟩ := TransGen.tail'_iff.mp h
    exact hne ((hneeds _ _ hfirst).1.symm.trans (hneeds _ _ hlast).2)
  have hshort : ∀ ds, (layman :: ds).IsChain r.Needs → ds.length ≤ 1 := by
    rintro (_ | ⟨d, _ | ⟨e, ds⟩⟩) hds
    · simp
    · simp
    · obtain ⟨hfirst, hrest⟩ := List.isChain_cons_cons.mp hds
      have hsecond := (List.isChain_cons_cons.mp hrest).1
      exact absurd ((hneeds _ _ hsecond).1.symm.trans (hneeds _ _ hfirst).2) hne
  have hcritic : s.members critic = .error (.cyclic critic) := by decide +kernel
  exact ⟨(members_errors_genuine r layman).2.2.2.1 hacyclic hshort
      fun d _ => ⟨_, rfl⟩,
    hcritic, ((members_errors_genuine s critic).1 critic hcritic).2⟩

end Reasoner

end Ontology
