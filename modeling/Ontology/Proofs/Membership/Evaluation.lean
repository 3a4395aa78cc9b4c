/-
Evaluation finds the meaning of a class.

* `evaluate_eq_ok_iff`: how an evaluation can succeed.
* `Progress.Within`: more members are known; `Reasoner.Sound`: what is known
  follows from the structures of the classes, and is their meaning.
* `Reasoner.Grows`: sound progress becomes more; `evaluate_sound`: an
  evaluation makes it grow.
* `evaluate_agrees`: what is found from little progress is found from more, and
  with more nesting allowed.
* `Reasoner.Attained`: the progress that earlier queries leave behind.
* `members_meaning`: **answers are the meanings of classes**, whatever earlier
  queries have left behind, and however much nesting is allowed beyond what is
  enough.
-/
import Ontology.Catalog.Terminology
import Ontology.Membership.Query
import Ontology.Proofs.Membership.Interpretation
import Ontology.Store.Basic

namespace Ontology

/-! ### Steps of a query -/

namespace Query

variable {α β : Type} {x : Query α} {f : α → Query β} {p q : Progress}

lemma pure_eq_ok_iff {a b : α} :
    (pure a : Query α) p = .ok (b, q) ↔ a = b ∧ p = q := by
  show Except.ok (a, p) = .ok (b, q) ↔ a = b ∧ p = q
  rw [Except.ok.injEq, Prod.mk.injEq]

lemma bind_eq_ok_iff {b : β} :
    (x >>= f) p = .ok (b, q) ↔
      ∃ a p', x p = .ok (a, p') ∧ f a p' = .ok (b, q) := by
  simp only [bind, StateT.bind, Except.bind]
  cases x p with
  | error e => simp
  | ok y => cases y; simp

lemma get_eq_ok_iff {a : Progress} :
    (get : Query Progress) p = .ok (a, q) ↔ p = a ∧ p = q := by
  simp [get, getThe, MonadStateOf.get, StateT.get, pure, Except.pure]

lemma modify_eq_ok_iff {g : Progress → Progress} {u : PUnit} :
    (modify g : Query PUnit) p = .ok (u, q) ↔ g p = q := by
  simp [modify, modifyGet, MonadStateOf.modifyGet, StateT.modifyGet, pure,
    Except.pure]

lemma throw_ne_ok {e : MembershipError} {a : α} :
    (throw e : Query α) p ≠ .ok (a, q) := by
  simp [throw, throwThe, MonadExceptOf.throw, StateT.lift, bind, Except.bind]

end Query

namespace Progress

variable {p q k : Progress} {c d : ClassName} {is : List Individual}

/-- What is known of one progress is known of another. -/
def Within (p q : Progress) : Prop :=
  ∀ c is, p.members? c = some is → q.members? c = some is

lemma Within.refl (p : Progress) : p.Within p := fun _ _ h => h

lemma Within.trans (hpq : p.Within q) (hqk : q.Within k) : p.Within k :=
  fun c is h => hqk c is (hpq c is h)

lemma empty_within (p : Progress) : Within {} p := by
  intro c is h
  simp [members?] at h

lemma members?_finish_of_ne (h : d ≠ c) :
    (p.finish c is).members? d = p.members? d := by
  simp [members?, finish, List.lookup_cons, beq_false_of_ne h]

/-- What is known when a class is finished was known before, or is the
class. -/
lemma members?_finish_eq_some_iff {js : List Individual} :
    (p.finish c is).members? d = some js ↔
      (d = c ∧ is = js) ∨ (d ≠ c ∧ p.members? d = some js) := by
  by_cases hne : d = c
  · subst hne
    simp
  · rw [members?_finish_of_ne hne]
    simp [hne]

/-- A class that was not known before is finished. -/
lemma Within.finish (h : p.members? c = none) : p.Within (p.finish c is) := by
  intro d js hd
  refine members?_finish_eq_some_iff.mpr (.inr ⟨?_, hd⟩)
  rintro rfl
  simp [h] at hd

/-- A class is finished in the same way in both. -/
lemma Within.finish_both (h : p.Within q) :
    (p.finish c is).Within (q.finish c is) := by
  intro d js hd
  rw [members?_finish_eq_some_iff] at hd ⊢
  exact hd.imp_right (And.imp_right (h d js))

/-- Finishing a class as it is known elsewhere adds nothing to what is known
there. -/
lemma Within.finish_of_known (h : p.Within k) (hc : k.members? c = some is) :
    (p.finish c is).Within k := by
  intro d js hd
  rcases members?_finish_eq_some_iff.mp hd with ⟨rfl, rfl⟩ | ⟨_, hd⟩
  · exact hc
  · exact h d js hd

end Progress

namespace Reasoner

variable {r : Reasoner} {n m : ℕ} {c : ClassName} {is : List Individual}
  {p q k : Progress}

lemma describe_eq_ok_iff {e : ClassExpression} :
    r.describe c p = .ok (e, q) ↔ r.catalog.classify c = .ok e ∧ p = q := by
  rw [describe]
  cases r.catalog.classify c with
  | ok e' => simp [Query.pure_eq_ok_iff]
  | error e' => simp [Query.throw_ne_ok]

/-- An evaluation succeeds with what is known already, or else with the
members of the structure of the class, found at the next depth. -/
lemma evaluate_eq_ok_iff :
    r.evaluate n c p = .ok (is, q) ↔
      (p.members? c = some is ∧ p = q) ∨
        (p.members? c = none ∧ c ∉ p.underway ∧ ∃ n' e q', n = n' + 1 ∧
          r.catalog.classify c = .ok e ∧
          r.interpret (r.evaluate n') e (p.start c) = .ok (is, q') ∧
          q'.finish c is = q) := by
  unfold evaluate
  rw [Query.bind_eq_ok_iff]
  simp only [Query.get_eq_ok_iff, exists_and_left, and_assoc, exists_eq_left']
  cases hknown : p.members? c with
  | some js => simp [Query.pure_eq_ok_iff]
  | none =>
    cases n with
    | zero => simp [Query.throw_ne_ok]
    | succ n =>
      by_cases hunderway : c ∈ p.underway
      · simp [Query.bind_eq_ok_iff, Query.get_eq_ok_iff, hunderway,
          Query.throw_ne_ok]
      · simp [-bind_pure_comp, Query.bind_eq_ok_iff, Query.get_eq_ok_iff,
          hunderway, Query.modify_eq_ok_iff, describe_eq_ok_iff,
          Query.pure_eq_ok_iff]

/-! ### Sound progress -/

/-- Progress that queries can make. -/
structure Sound (r : Reasoner) (p : Progress) : Prop where
  /-- No class under way is known. -/
  apart : ∀ c ∈ p.underway, p.members? c = none
  /-- What is known of a class follows from what is known of the classes in
  its structure. -/
  coherent : ∀ c is, p.members? c = some is →
    ∃ e, r.catalog.classify c = .ok e ∧ r.interpret p.members? e = some is
  /-- The members of a class that is known are its meaning. -/
  denotes : ∀ c is, p.members? c = some is → r.Denotes c {i | i ∈ is}

lemma sound_empty : r.Sound {} := by
  refine ⟨by simp, fun c is h => ?_, fun c is h => ?_⟩ <;>
    simp [Progress.members?] at h

/-- A class that is not known can begin. -/
lemma Sound.start (hp : r.Sound p) (hc : p.members? c = none) :
    r.Sound (p.start c) where
  apart d hd := by
    rcases List.mem_cons.mp hd with rfl | hd
    · exact hc
    · exact hp.apart d hd
  coherent := hp.coherent
  denotes := hp.denotes

/-- A class ends whose members follow from what is known by then. -/
lemma Sound.finish (hq : r.Sound q) (hc : c ∉ q.underway.erase c)
    (hnew : q.members? c = none) {e : ClassExpression}
    (he : r.catalog.classify c = .ok e)
    (his : r.interpret q.members? e = some is) : r.Sound (q.finish c is) where
  apart d hd := by
    have hne : d ≠ c := by
      rintro rfl
      exact hc hd
    rw [Progress.members?_finish_of_ne hne]
    exact hq.apart d (List.mem_of_mem_erase hd)
  coherent d js hd := by
    have hwithin : q.Within (q.finish c is) := .finish hnew
    rcases Progress.members?_finish_eq_some_iff.mp hd with ⟨rfl, rfl⟩ | ⟨_, hd⟩
    · exact ⟨e, he, interpret_mono hwithin his⟩
    · obtain ⟨e', he', hjs⟩ := hq.coherent d js hd
      exact ⟨e', he', interpret_mono hwithin hjs⟩
  denotes d js hd := by
    rcases Progress.members?_finish_eq_some_iff.mp hd with ⟨rfl, rfl⟩ | ⟨_, hd⟩
    · exact denotes_of_interpret hq.denotes he his
    · exact hq.denotes d js hd

/-- Sound progress that comes after other progress: nothing is forgotten, and
the same classes are under way. -/
structure Grows (r : Reasoner) (p q : Progress) : Prop where
  sound : r.Sound q
  within : p.Within q
  underway : q.underway = p.underway

lemma Grows.trans (hpq : r.Grows p q) (hqk : r.Grows q k) : r.Grows p k where
  sound := hqk.sound
  within := hpq.within.trans hqk.within
  underway := hqk.underway.trans hpq.underway

/-- What the evaluation of a class comes to know makes progress grow, when the
class has begun and ends. -/
lemma Grows.finish (h : r.Grows (p.start c) q)
    (hunderway : c ∉ p.underway) {e : ClassExpression}
    (he : r.catalog.classify c = .ok e)
    (his : r.interpret q.members? e = some is) : r.Grows p (q.finish c is) := by
  have hnew : q.members? c = none := by
    refine h.sound.apart c ?_
    rw [h.underway]
    exact List.mem_cons_self
  have herase : (q.finish c is).underway = p.underway :=
    Progress.underway_finish_start p q c is h.underway
  refine ⟨h.sound.finish ?_ hnew he his, ?_, herase⟩
  · rwa [← herase] at hunderway
  · exact Progress.Within.trans h.within (.finish hnew)

/-- A query makes sound progress grow, and its result is that of a look-up in
progress that has all that is known by then. -/
def Follows (r : Reasoner) (k : Progress) (α : Type) (x : Query α)
    (y : Option α) : Prop :=
  ∀ p a q, r.Sound p → x p = .ok (a, q) →
    r.Grows p q ∧ (q.Within k → y = some a)

lemma follows_compositional : Compositional (r.Follows k) where
  pure a p b q hp h := by
    obtain ⟨rfl, rfl⟩ := Query.pure_eq_ok_iff.mp h
    exact ⟨⟨hp, .refl p, rfl⟩, fun _ => rfl⟩
  bind hxy hfg p b q hp h := by
    obtain ⟨a, p', hx, hf⟩ := Query.bind_eq_ok_iff.mp h
    obtain ⟨hgrows, hy⟩ := hxy p a p' hp hx
    obtain ⟨hgrows', hg⟩ := hfg a p' b q hgrows.sound hf
    refine ⟨hgrows.trans hgrows', fun hk => ?_⟩
    exact Option.bind_eq_some_iff.mpr ⟨a, hy (hgrows'.within.trans hk), hg hk⟩

/-- **Evaluation is sound**: it makes sound progress grow, and the members of
the class are known after it. -/
theorem evaluate_sound (hp : r.Sound p) (h : r.evaluate n c p = .ok (is, q)) :
    r.Grows p q ∧ q.members? c = some is := by
  induction n using Nat.strong_induction_on generalizing c p q is with
  | _ n ih =>
    obtain ⟨hknown, rfl⟩ | ⟨hnew, hunderway, n, e, q, rfl, he, hrun, rfl⟩ :=
      evaluate_eq_ok_iff.mp h
    · exact ⟨⟨hp, .refl p, rfl⟩, hknown⟩
    have hfollows : r.Follows q _ (r.interpret (r.evaluate n) e)
        (r.interpret q.members? e) := by
      refine interpret_related follows_compositional (fun d p js q hp h => ?_) e
      obtain ⟨hgrows, hknown⟩ := ih n (Nat.lt_succ_self n) hp h
      exact ⟨hgrows, fun hk => hk d js hknown⟩
    obtain ⟨hgrows, his⟩ := hfollows _ is q (hp.start hnew) hrun
    exact ⟨hgrows.finish hunderway he (his (.refl q)),
      Progress.members?_finish q c is⟩

/-! ### Evaluation from more progress -/

/-- A query adds nothing to what is known, and its result is that of a
look-up. -/
def Repeats (k : Progress) (α : Type) (x : Query α) (y : Option α) : Prop :=
  ∀ p a q b, p.Within k → x p = .ok (a, q) → y = some b → q.Within k ∧ a = b

lemma repeats_compositional : Compositional (Repeats k) where
  pure a p b q d hp h hd := by
    obtain ⟨rfl, rfl⟩ := Query.pure_eq_ok_iff.mp h
    exact ⟨hp, Option.some.inj hd⟩
  bind hxy hfg p b q d hp h hd := by
    obtain ⟨a, p', hx, hf⟩ := Query.bind_eq_ok_iff.mp h
    obtain ⟨a', hy, hg⟩ := Option.bind_eq_some_iff.mp hd
    obtain ⟨hp', rfl⟩ := hxy p a p' a' hp hx hy
    exact hfg a p' b q d hp' hf hg

/-- To evaluate a class again that is known elsewhere leads to the members
known there, and comes to know nothing else. -/
lemma evaluate_known {js : List Individual} (hk : r.Sound k) (hpk : p.Within k)
    (hc : k.members? c = some js) (h : r.evaluate n c p = .ok (is, q)) :
    q.Within k ∧ is = js := by
  induction n using Nat.strong_induction_on generalizing c p q is js with
  | _ n ih =>
    obtain ⟨hknown, rfl⟩ | ⟨_, _, n, e, q, rfl, he, hrun, rfl⟩ :=
      evaluate_eq_ok_iff.mp h
    · exact ⟨hpk, Option.some.inj ((hpk c is hknown).symm.trans hc)⟩
    -- what is known of the class follows from its structure there
    obtain ⟨e', he', hjs⟩ := hk.coherent c js hc
    obtain rfl : e = e' := Except.ok.inj (he.symm.trans he')
    have hrepeats : Repeats k _ (r.interpret (r.evaluate n) e)
        (r.interpret k.members? e) :=
      interpret_related repeats_compositional
        (fun d p js q js' hp hd hjs => ih n (Nat.lt_succ_self n) hp hjs hd) e
    obtain ⟨hq, rfl⟩ := hrepeats (p.start c) is q js hpk hrun hjs
    exact ⟨hq.finish_of_known hc, rfl⟩

/-- Queries with the same results, of which the second starts from more
progress, and ends with more. -/
def Agrees (r : Reasoner) (α : Type) (x y : Query α) : Prop :=
  ∀ p a q k, r.Sound p → x p = .ok (a, q) → r.Sound k → p.Within k →
    k.underway = p.underway →
      ∃ k', y k = .ok (a, k') ∧ r.Grows p q ∧ r.Grows k k' ∧ q.Within k'

lemma agrees_compositional : Compositional r.Agrees where
  pure a p b q k hp h hk hpk _ := by
    obtain ⟨rfl, rfl⟩ := Query.pure_eq_ok_iff.mp h
    exact ⟨k, rfl, ⟨hp, .refl p, rfl⟩, ⟨hk, .refl k, rfl⟩, hpk⟩
  bind hxy hfg p b q k hp h hk hpk hunderway := by
    obtain ⟨a, p', hx, hf⟩ := Query.bind_eq_ok_iff.mp h
    obtain ⟨k', hy, hgrows, hgrows', hpk'⟩ := hxy p a p' k hp hx hk hpk hunderway
    have hunderway' : k'.underway = p'.underway := by
      rw [hgrows'.underway, hgrows.underway, hunderway]
    obtain ⟨k'', hg, hgrows₂, hgrows₂', hqk⟩ :=
      hfg a p' b q k' hgrows.sound hf hgrows'.sound hpk' hunderway'
    exact ⟨k'', Query.bind_eq_ok_iff.mpr ⟨a, k', hy, hg⟩,
      hgrows.trans hgrows₂, hgrows'.trans hgrows₂', hqk⟩

/-- **Evaluation from more progress** leads to the same members, and so does
evaluation at a lesser depth. -/
theorem evaluate_agrees (hnm : n ≤ m) (c : ClassName) :
    r.Agrees _ (r.evaluate n c) (r.evaluate m c) := by
  induction n using Nat.strong_induction_on generalizing m c with
  | _ n ih =>
    intro p is q k hp h hk hpk hunderway
    have hgrows : r.Grows p q := (evaluate_sound hp h).1
    cases hc : k.members? c with
    | some js =>
      obtain ⟨hqk, rfl⟩ := evaluate_known hk hpk hc h
      exact ⟨k, evaluate_eq_ok_iff.mpr (.inl ⟨hc, rfl⟩), hgrows,
        ⟨hk, .refl k, rfl⟩, hqk⟩
    | none =>
      obtain ⟨hknown, rfl⟩ | ⟨hnew, hc', n, e, q, rfl, he, hrun, rfl⟩ :=
        evaluate_eq_ok_iff.mp h
      · simp [hpk c is hknown] at hc
      obtain ⟨m, rfl⟩ : ∃ m', m = m' + 1 := ⟨m - 1, by omega⟩
      have hagrees : r.Agrees _ (r.interpret (r.evaluate n) e)
          (r.interpret (r.evaluate m) e) :=
        interpret_related agrees_compositional
          (ih n (Nat.lt_succ_self n) (Nat.le_of_succ_le_succ hnm)) e
      have hstart : (k.start c).underway = (p.start c).underway :=
        congrArg (c :: ·) hunderway
      obtain ⟨k', hrun', -, -, hqk⟩ := hagrees (p.start c) is q (k.start c)
        (hp.start hnew) hrun (hk.start hc) hpk hstart
      have heval : r.evaluate (m + 1) c k = .ok (is, k'.finish c is) :=
        evaluate_eq_ok_iff.mpr
          (.inr ⟨hc, hunderway ▸ hc', m, e, k', rfl, he, hrun', rfl⟩)
      exact ⟨_, heval, hgrows, (evaluate_sound hk heval).1, hqk.finish_both⟩

/-- With as much nesting left the limit matters to errors alone. -/
lemma evaluate_maxDepth (limit : ℕ) (h : r.evaluate n c p = .ok (is, q)) :
    ({ r with maxDepth := limit } : Reasoner).evaluate n c p = .ok (is, q) := by
  have hR : Compositional fun α (x y : Query α) =>
      ∀ p a q, x p = .ok (a, q) → y p = .ok (a, q) := by
    refine ⟨fun _ _ _ _ => id, fun hxy hfg p b q hb => ?_⟩
    obtain ⟨a, p', ha, hb⟩ := Query.bind_eq_ok_iff.mp hb
    exact Query.bind_eq_ok_iff.mpr ⟨a, p', hxy p a p' ha, hfg a p' b q hb⟩
  induction n using Nat.strong_induction_on generalizing c p q is with
  | _ n ih =>
    rw [evaluate_eq_ok_iff]
    obtain h | ⟨hc, hunderway, n, e, q, rfl, he, hrun, rfl⟩ :=
      evaluate_eq_ok_iff.mp h
    · exact .inl h
    · refine .inr ⟨hc, hunderway, n, e, q, rfl, he, ?_, rfl⟩
      exact interpret_related hR
        (fun d p js q => ih n (Nat.lt_succ_self n)) e _ is q hrun

/-! ### Queries -/

/-- The progress that successful queries leave behind, one after the other. -/
inductive Attained (r : Reasoner) : Progress → Prop
  | start : Attained r {}
  | query {c : ClassName} {is : List Individual} {p q : Progress}
    (hp : Attained r p) (h : r.membersQuery c p = .ok (is, q)) : Attained r q

/-- Between queries progress is sound, and no class is under way. -/
lemma Attained.sound (hp : r.Attained p) : r.Sound p ∧ p.underway = [] := by
  induction hp with
  | start => exact ⟨sound_empty, rfl⟩
  | query _ h ih =>
    have hgrows := (evaluate_sound ih.1 h).1
    exact ⟨hgrows.sound, hgrows.underway.trans ih.2⟩

/-- The answers of queries are the meanings of classes. -/
lemma Attained.denotes (hp : r.Attained p)
    (h : r.membersQuery c p = .ok (is, q)) : r.Denotes c {i | i ∈ is} := by
  obtain ⟨hgrows, hknown⟩ := evaluate_sound hp.sound.1 h
  exact hgrows.sound.denotes c is hknown

/-- The answer to a query of its own is found from no progress. -/
lemma members_eq_ok_iff :
    r.members c = .ok is ↔ ∃ q, r.membersQuery c {} = .ok (is, q) := by
  simp only [members, answer, StateT.run', Functor.map, Except.map]
  cases r.membersQuery c {} with
  | error e => simp
  | ok y => cases y; simp

/-- The answer to a query of its own is the meaning of the class. -/
lemma denotes_of_members (h : r.members c = .ok is) : r.Denotes c {i | i ∈ is} := by
  obtain ⟨_, hq⟩ := members_eq_ok_iff.mp h
  exact Attained.start.denotes hq

/-- A class whose structure asks for the members of no other class has its
members at once. -/
lemma members_of_interpret {e : ClassExpression}
    (he : r.catalog.classify c = .ok e)
    (his : ∀ members : ClassName → Query (List Individual),
      r.interpret members e = pure is) : r.members c = .ok is := by
  have hrun : r.interpret (r.evaluate r.maxDepth) e (Progress.start {} c) =
      .ok (is, Progress.start {} c) := by rw [his]; rfl
  have heval : r.membersQuery c {} = .ok (is, _) :=
    evaluate_eq_ok_iff.mpr (.inr ⟨rfl, by simp, _, e, _, rfl, he, hrun, rfl⟩)
  exact members_eq_ok_iff.mpr ⟨_, heval⟩

/-- An answer found from no progress is found from whatever earlier queries
leave behind. -/
lemma membersQuery_of_attained (hp : r.Attained p) (h : r.members c = .ok is) :
    ∃ q, r.membersQuery c p = .ok (is, q) := by
  obtain ⟨hsound, hunderway⟩ := hp.sound
  obtain ⟨q, hq⟩ := members_eq_ok_iff.mp h
  obtain ⟨k, hk, -⟩ := evaluate_agrees le_rfl c {} is q p sound_empty hq hsound
    (Progress.empty_within p) hunderway
  exact ⟨k, hk⟩

/-- An answer found under a limit is found under every higher one. -/
lemma members_of_le_maxDepth {limit : ℕ} (hlimit : r.maxDepth ≤ limit)
    (h : r.members c = .ok is) :
    ({ r with maxDepth := limit } : Reasoner).members c = .ok is := by
  obtain ⟨q, hq⟩ := members_eq_ok_iff.mp h
  obtain ⟨k, hk, -⟩ := evaluate_agrees (Nat.succ_le_succ hlimit) c {} is q {}
    sound_empty hq sound_empty (.refl {}) rfl
  exact members_eq_ok_iff.mpr ⟨k, evaluate_maxDepth limit hk⟩

/-- **Answers are the meanings of classes**: what a query finds from whatever
earlier ones have left behind is the one meaning of its class. An answer that
is found from no progress is found from all that earlier queries can leave
behind, and under every higher limit. -/
theorem members_meaning (r : Reasoner) (c : ClassName) :
    (∀ p is q, r.Attained p → r.membersQuery c p = .ok (is, q) →
      ∀ S, r.Denotes c S ↔ S = {i | i ∈ is}) ∧
    (∀ is, r.members c = .ok is →
      (∀ S, r.Denotes c S ↔ S = {i | i ∈ is}) ∧
      (∀ p, r.Attained p → ∃ q, r.membersQuery c p = .ok (is, q)) ∧
      ∀ limit, r.maxDepth ≤ limit →
        ({ r with maxDepth := limit } : Reasoner).members c = .ok is) := by
  have hmeaning : ∀ p is q, r.Attained p → r.membersQuery c p = .ok (is, q) →
      ∀ S, r.Denotes c S ↔ S = {i | i ∈ is} := by
    intro p is q hp h S
    have hdenotes := hp.denotes h
    refine ⟨fun hS => hS.unique hdenotes, ?_⟩
    rintro rfl
    exact hdenotes
  refine ⟨hmeaning, fun is h => ⟨?_, fun p hp => membersQuery_of_attained hp h,
    fun limit hlimit => members_of_le_maxDepth hlimit h⟩⟩
  obtain ⟨q, hq⟩ := members_eq_ok_iff.mp h
  exact hmeaning {} is q .start hq

/-- A class that two parts of another have in common, and of which one part was
asked for before. -/
theorem members_meaning_of_shared_class :
    let ada : Individual := .iri ⟨"e:ada"⟩
    let byron : Individual := .iri ⟨"e:byron"⟩
    let poet : ClassName := .iri ⟨"e:Poet"⟩
    let layman : ClassName := .iri ⟨"e:Layman"⟩
    let reader : ClassName := .iri ⟨"e:Reader"⟩
    let critic : ClassName := .iri ⟨"e:Critic"⟩
    let reads : Property := ⟨"e:reads"⟩
    let r : Reasoner := {
      facts := (Store.run {} [.tell (.instanceOf byron poet),
        .tell (.assertion ⟨.positive, ada, reads, .node byron⟩)]).facts
      catalog := Terminology.catalog [
        .define layman (.complement poet),
        .define reader (.restriction ⟨.direct reads, .someValuesFrom poet,
          by simp [Constraint.Ordered, Constraint.count?]⟩),
        .define critic (.intersection [layman, reader])]
      maxDepth := 2 }
    r.members critic = .ok [ada] ∧
      (∀ S, r.Denotes critic S ↔ S = {i | i ∈ [ada]}) ∧
      (∃ p q, r.membersQuery layman {} = .ok ([ada], p) ∧
        r.membersQuery critic p = .ok ([ada], q)) ∧
      ({ r with maxDepth := 64 } : Reasoner).members critic = .ok [ada] := by
  intro ada byron poet layman reader critic reads r
  have hcritic : r.members critic = .ok [ada] := by decide +kernel
  have hlayman : r.members layman = .ok [ada] := by decide +kernel
  obtain ⟨hdenotes, hattained, hlimit⟩ :=
    (members_meaning r critic).2 [ada] hcritic
  obtain ⟨p, hp⟩ := members_eq_ok_iff.mp hlayman
  obtain ⟨q, hq⟩ := hattained p (.query .start hp)
  exact ⟨hcritic, hdenotes, ⟨p, q, hp, hq⟩, hlimit 64 (by decide)⟩

end Reasoner

end Ontology
