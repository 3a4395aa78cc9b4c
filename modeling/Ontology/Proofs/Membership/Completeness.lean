/-
Evaluation finds what classes mean, unless the limit stops it.

* `Reasoner.afresh`: the members of a class by recursion alone, with nothing
  remembered and no class under way; `Denotes.afresh`: every meaning is found
  in this way, from some depth on.
* `evaluate_of_afresh`: what is found afresh is found by an evaluation that
  has none of the classes under way that take as much nesting.
* `evaluate_unhindered`: an evaluation that the limit does not stop ends in the
  same way with more nesting allowed.
* `members_of_denotes`: hence a query for a class that has a meaning finds it,
  or is stopped by the limit.
-/
import Ontology.Proofs.Membership.Errors

namespace Ontology.Reasoner

variable {r : Reasoner} {n m : ℕ} {c d : ClassName} {is js : List Individual}
  {S : Set Individual} {p q : Progress} {us : List ClassName}

/-! ### Expressions whose operands have members -/

section

variable {known : ClassName → Option (List Individual)} {ds es : List ClassName}
  {current : List Individual}

lemma exists_mapM_eq_some (hds : ∀ d ∈ ds, ∃ is, known d = some is) :
    ∃ iss, ds.mapM known = some iss := by
  induction ds with
  | nil => exact ⟨[], rfl⟩
  | cons d ds ih =>
    obtain ⟨⟨is, hd⟩, hds⟩ := List.forall_mem_cons.mp hds
    obtain ⟨iss, hiss⟩ := ih hds
    exact ⟨is :: iss, by simp [List.mapM_cons, hd, hiss]⟩

/-- A meet has an outcome if the first classes have members, and either these
are all classes or they leave nothing over. -/
lemma exists_meet_eq_some (hds : ∀ d ∈ ds, ∃ is, known d = some is)
    (hes : es = [] ∨ ∀ i ∈ current, ∃ d ∈ ds, i ∉ found known d) :
    ∃ is, meet known current (ds ++ es) = some is := by
  induction ds generalizing current with
  | nil =>
    cases es with
    | nil => exact ⟨current, rfl⟩
    | cons e es =>
      have hout := hes.resolve_left (List.cons_ne_nil e es)
      obtain rfl : current = [] := by
        simpa [List.eq_nil_iff_forall_not_mem] using hout
      exact ⟨[], rfl⟩
  | cons d ds ih =>
    obtain ⟨⟨js, hd⟩, hds⟩ := List.forall_mem_cons.mp hds
    by_cases hcurrent : current.isEmpty
    · exact ⟨[], by simp [meet, hcurrent]⟩
    · have hrest : es = [] ∨ ∀ i ∈ current.filter js.contains,
          ∃ d ∈ ds, i ∉ found known d := by
        refine hes.imp_right fun hout i hi => ?_
        obtain ⟨hi, hjs⟩ := List.mem_filter.mp hi
        obtain ⟨e, he, hie⟩ := hout i hi
        rcases List.mem_cons.mp he with rfl | he
        · rw [found_eq hd] at hie
          exact absurd (List.contains_iff_mem.mp hjs) hie
        · exact ⟨e, he, hie⟩
      obtain ⟨is, his⟩ := ih hds hrest
      exact ⟨is, by simp [meet, hcurrent, hd, his]⟩

lemma exists_interpret_intersection (hds : ∀ d ∈ ds, ∃ is, known d = some is)
    (hes : es = [] ∨ ∀ i, ∃ d ∈ ds, i ∉ found known d) :
    ∃ is, r.interpret known (.intersection (ds ++ es)) = some is := by
  cases ds with
  | nil =>
    obtain rfl : es = [] := hes.elim id fun hout => by
      obtain ⟨d, hd, -⟩ := hout (.iri Owl.thing)
      exact absurd hd List.not_mem_nil
    exact ⟨[], rfl⟩
  | cons d ds =>
    obtain ⟨⟨js, hd⟩, hds⟩ := List.forall_mem_cons.mp hds
    have hrest : es = [] ∨ ∀ i ∈ js, ∃ d ∈ ds, i ∉ found known d := by
      refine hes.imp_right fun hout i hi => ?_
      obtain ⟨e, he, hie⟩ := hout i
      rcases List.mem_cons.mp he with rfl | he
      · rw [found_eq hd] at hie
        exact absurd hi hie
      · exact ⟨e, he, hie⟩
    obtain ⟨is, his⟩ := exists_meet_eq_some hds hrest
    exact ⟨is, by simp [interpret, hd, his]⟩

end

/-! ### Members found afresh -/

/-- The members of a class, found again whenever they are asked for, with a
number of nested expressions left. -/
def afresh (r : Reasoner) : ℕ → ClassName → Option (List Individual)
  | 0, _ => none
  | n + 1, c =>
    match r.catalog.classify c with
    | .ok e => r.interpret (afresh r n) e
    | .error _ => none

lemma afresh_succ_eq_some_iff :
    r.afresh (n + 1) c = some is ↔ ∃ e, r.catalog.classify c = .ok e ∧
      r.interpret (r.afresh n) e = some is := by
  rw [afresh]
  cases r.catalog.classify c <;> simp

/-- With more nesting allowed the same is found. -/
lemma afresh_mono (hnm : n ≤ m) (h : r.afresh n c = some is) :
    r.afresh m c = some is := by
  induction n generalizing m c is with
  | zero => simp [afresh] at h
  | succ n ih =>
    obtain ⟨m, rfl⟩ : ∃ m', m = m' + 1 := ⟨m - 1, by omega⟩
    obtain ⟨e, he, his⟩ := afresh_succ_eq_some_iff.mp h
    refine afresh_succ_eq_some_iff.mpr ⟨e, he, ?_⟩
    exact interpret_mono (fun _ _ => ih (Nat.le_of_succ_le_succ hnm)) his

/-- What is not found is not found with less nesting allowed. -/
lemma afresh_eq_none_of_le (hnm : n ≤ m) (h : r.afresh m c = none) :
    r.afresh n c = none := by
  rw [Option.eq_none_iff_forall_ne_some] at h ⊢
  exact fun is his => h is (afresh_mono hnm his)

/-- What is found afresh is the meaning of the class. -/
lemma denotes_of_afresh (h : r.afresh n c = some is) :
    r.Denotes c {i | i ∈ is} := by
  induction n generalizing c is with
  | zero => simp [afresh] at h
  | succ n ih =>
    obtain ⟨e, he, his⟩ := afresh_succ_eq_some_iff.mp h
    exact denotes_of_interpret (fun _ _ => ih) he his

/-- Several classes are found afresh at one depth. -/
lemma exists_forall_afresh {ds : List ClassName}
    (hds : ∀ d ∈ ds, ∃ n is, r.afresh n d = some is) :
    ∃ n, ∀ d ∈ ds, ∃ is, r.afresh n d = some is := by
  induction ds with
  | nil => exact ⟨0, by simp⟩
  | cons d ds ih =>
    obtain ⟨⟨n, is, hd⟩, hds⟩ := List.forall_mem_cons.mp hds
    obtain ⟨m, hm⟩ := ih hds
    refine ⟨max n m, List.forall_mem_cons.mpr ⟨?_, fun e he => ?_⟩⟩
    · exact ⟨is, afresh_mono (le_max_left n m) hd⟩
    · obtain ⟨js, hjs⟩ := hm e he
      exact ⟨js, afresh_mono (le_max_right n m) hjs⟩

/-- A class is found afresh if its structure has members at some depth. -/
lemma exists_afresh_of_interpret (n : ℕ) {e : ClassExpression}
    (he : r.catalog.classify c = .ok e)
    (hrun : ∃ is, r.interpret (r.afresh n) e = some is) :
    ∃ n is, r.afresh n c = some is := by
  obtain ⟨is, his⟩ := hrun
  exact ⟨n + 1, is, afresh_succ_eq_some_iff.mpr ⟨e, he, his⟩⟩

/-- **Every meaning is found afresh**, from some depth on. -/
theorem Denotes.afresh (h : r.Denotes c S) : ∃ n is, r.afresh n c = some is := by
  induction h with
  | named hc => exact exists_afresh_of_interpret 0 hc ⟨_, rfl⟩
  | oneOf hc => exact exists_afresh_of_interpret 0 hc ⟨_, rfl⟩
  | complement hc _ ih =>
    obtain ⟨n, js, hjs⟩ := ih
    exact exists_afresh_of_interpret n hc ⟨_, by rw [interpret, hjs]; rfl⟩
  | union hc _ ih =>
    obtain ⟨n, hn⟩ := exists_forall_afresh ih
    obtain ⟨iss, hiss⟩ := exists_mapM_eq_some hn
    exact exists_afresh_of_interpret n hc ⟨_, by rw [interpret, hiss]; rfl⟩
  | @intersection _ ds _ hc _ ih =>
    obtain ⟨n, hn⟩ := exists_forall_afresh ih
    refine exists_afresh_of_interpret n hc ?_
    have h : ∃ is, r.interpret (r.afresh n) (.intersection (ds ++ [])) = some is :=
      exists_interpret_intersection hn (.inl rfl)
    rwa [List.append_nil] at h
  | disjoint hc hds hempty ih =>
    obtain ⟨n, hn⟩ := exists_forall_afresh ih
    refine exists_afresh_of_interpret n hc
      (exists_interpret_intersection hn (.inr fun i => ?_))
    obtain ⟨d, hd, hid⟩ := hempty i
    obtain ⟨js, hjs⟩ := hn d hd
    refine ⟨d, hd, ?_⟩
    rwa [found_eq hjs, (denotes_of_afresh hjs).unique (hds d hd)]
  | unbounded hc hx =>
    exact exists_afresh_of_interpret 0 hc
      ⟨_, by
        rw [interpret, interpretRestriction, Constraint.uncounted_eq_trivial, if_pos hx]
        rfl⟩
  | restriction hc hx hfiller =>
    exact exists_afresh_of_interpret 0 hc
      ⟨_, by
        simp only [interpret, interpretRestriction, Constraint.uncounted_eq_trivial, hx,
          hfiller]
        rfl⟩
  | qualified hc hx hfiller _ ih =>
    obtain ⟨n, js, hjs⟩ := ih
    exact exists_afresh_of_interpret n hc
      ⟨_, by
        simp only [interpret, interpretRestriction, Constraint.uncounted_eq_trivial, hx,
          hfiller, hjs]
        rfl⟩

/-! ### Evaluation against members found afresh -/

/-- What is known of a class in sound progress is found afresh too, if anything
is. -/
lemma Sound.eq_of_afresh (hp : r.Sound p) (hknown : p.members? c = some js)
    (h : r.afresh n c = some is) : js = is := by
  have hR : Compositional fun α (x y : Option α) =>
      ∀ a b, x = some a → y = some b → a = b := by
    refine ⟨fun a b d hb hd => ?_, fun hxy hfg b d hb hd => ?_⟩
    · exact (Option.some.inj hb).symm.trans (Option.some.inj hd)
    · obtain ⟨a, ha, hb⟩ := Option.bind_eq_some_iff.mp hb
      obtain ⟨a', ha', hd⟩ := Option.bind_eq_some_iff.mp hd
      obtain rfl := hxy a a' ha ha'
      exact hfg a b d hb hd
  induction n generalizing c js is with
  | zero => simp [afresh] at h
  | succ n ih =>
    obtain ⟨e, he, his⟩ := afresh_succ_eq_some_iff.mp h
    obtain ⟨e', he', hjs⟩ := hp.coherent c js hknown
    obtain rfl : e = e' := Except.ok.inj (he.symm.trans he')
    exact interpret_related hR (fun _ _ _ => ih) e js is hjs his

/-- A query has the result of a computation that has one, and leaves under way
what was under way. -/
def Reproduces (r : Reasoner) (us : List ClassName) (α : Type) (x : Query α)
    (y : Option α) : Prop :=
  ∀ a, y = some a → ∀ p, r.Stands us p → ∃ q, x p = .ok (a, q) ∧ r.Stands us q

lemma reproduces_compositional : Compositional (r.Reproduces us) where
  pure a b hb p hp := by
    obtain rfl := Option.some.inj hb
    exact ⟨p, rfl, hp⟩
  bind hxy hfg b hb p hp := by
    obtain ⟨a, ha, hb⟩ := Option.bind_eq_some_iff.mp hb
    obtain ⟨p', hx, hp'⟩ := hxy a ha p hp
    obtain ⟨q, hf, hq⟩ := hfg a b hb p' hp'
    exact ⟨q, Query.bind_eq_ok_iff.mpr ⟨a, p', hx, hf⟩, hq⟩

/-- **Evaluation finds what is found afresh**, as long as the classes that are
under way take more nesting. -/
theorem evaluate_of_afresh (hnm : n ≤ m) (hus : ∀ u ∈ us, r.afresh n u = none) :
    r.Reproduces us _ (r.evaluate m c) (r.afresh n c) := by
  induction n using Nat.strong_induction_on generalizing m c us with
  | _ n ih =>
    intro is his p hp
    cases hknown : p.members? c with
    | some js =>
      obtain rfl := hp.sound.eq_of_afresh hknown his
      exact ⟨p, evaluate_eq_ok_iff.mpr (.inl ⟨hknown, rfl⟩), hp⟩
    | none =>
      by_cases hless : ∃ k < n, r.afresh k c ≠ none
      · obtain ⟨k, hk, hne⟩ := hless
        obtain ⟨js, hjs⟩ := Option.ne_none_iff_exists'.mp hne
        obtain rfl : is = js :=
          Option.some.inj (his.symm.trans (afresh_mono hk.le hjs))
        exact ih k hk (hk.le.trans hnm)
          (fun u hu => afresh_eq_none_of_le hk.le (hus u hu)) is hjs p hp
      · -- at the least depth the operands take less nesting than the class
        obtain ⟨n, rfl⟩ : ∃ n', n = n' + 1 :=
          Nat.exists_eq_succ_of_ne_zero (by rintro rfl; simp [afresh] at his)
        obtain ⟨m, rfl⟩ : ∃ m', m = m' + 1 := ⟨m - 1, by omega⟩
        obtain ⟨e, he, hrun⟩ := afresh_succ_eq_some_iff.mp his
        have hc : c ∉ us := fun hc => by simp [hus c hc] at his
        have hnone : ∀ u ∈ c :: us, r.afresh n u = none := by
          refine List.forall_mem_cons.mpr ⟨?_, fun u hu => ?_⟩
          · exact not_not.mp fun hne => hless ⟨n, n.lt_succ_self, hne⟩
          · exact afresh_eq_none_of_le n.le_succ (hus u hu)
        have hoperands : r.Reproduces (c :: us) _ (r.interpret (r.evaluate m) e)
            (r.interpret (r.afresh n) e) :=
          interpret_related reproduces_compositional
            (fun d => ih n n.lt_succ_self (Nat.le_of_succ_le_succ hnm) hnone) e
        have hstart : r.Stands (c :: us) (p.start c) :=
          ⟨hp.sound.start hknown, congrArg (c :: ·) hp.underway⟩
        obtain ⟨q, hq, -⟩ := hoperands is hrun _ hstart
        have heval : r.evaluate (m + 1) c p = .ok (is, q.finish c is) :=
          evaluate_eq_ok_iff.mpr
            (.inr ⟨hknown, hp.underway ▸ hc, m, e, q, rfl, he, hq, rfl⟩)
        have hgrows := (evaluate_sound hp.sound heval).1
        exact ⟨_, heval, hgrows.sound, hgrows.underway.trans hp.underway⟩

/-! ### The limit -/

/-- A query does the same as another that the limit does not stop. -/
def Unhindered (α : Type) (x y : Query α) : Prop :=
  ∀ p, (∀ limit, x p ≠ .error (.tooDeep limit)) → y p = x p

lemma unhindered_compositional : Compositional Unhindered where
  pure a p _ := rfl
  bind {α β x y f g} hxy hfg p h := by
    have hx : y p = x p := hxy p fun limit hlimit =>
      h limit (Query.bind_eq_error_iff.mpr (.inl hlimit))
    cases hrun : x p with
    | error e =>
      rw [Query.bind_eq_error_iff.mpr (.inl hrun),
        Query.bind_eq_error_iff.mpr (.inl (hx.trans hrun))]
    | ok a =>
      have hf : g a.1 a.2 = f a.1 a.2 := hfg a.1 a.2 fun limit hlimit =>
        h limit (Query.bind_eq_error_iff.mpr (.inr ⟨a.1, a.2, hrun, hlimit⟩))
      simp only [bind, StateT.bind, Except.bind, hx, hrun, hf]

/-- **Evaluation without hindrance**: an evaluation that the limit does not stop
ends in the same way with more nesting allowed. -/
theorem evaluate_unhindered (hnm : n ≤ m) (c : ClassName) :
    Unhindered _ (r.evaluate n c) (r.evaluate m c) := by
  induction n generalizing m c with
  | zero =>
    intro p h
    cases hrun : r.evaluate 0 c p with
    | ok a =>
      obtain hknown | ⟨_, _, _, _, _, hn, _⟩ := evaluate_eq_ok_iff.mp hrun
      · exact evaluate_eq_ok_iff.mpr (.inl hknown)
      · omega
    | error e =>
      obtain ⟨_, ⟨-, rfl⟩ | ⟨_, hn, _⟩⟩ := evaluate_eq_error_iff.mp hrun
      · exact absurd hrun (h _)
      · omega
  | succ n ih =>
    intro p h
    obtain ⟨m, rfl⟩ : ∃ m', m = m' + 1 := ⟨m - 1, by omega⟩
    have hoperands := fun e => interpret_related (r := r) unhindered_compositional
      (ih (Nat.le_of_succ_le_succ hnm)) e (p.start c)
    cases hrun : r.evaluate (n + 1) c p with
    | ok a =>
      obtain hknown | ⟨hnew, hc, _, e, q, hn, he, hq, hfinish⟩ :=
        evaluate_eq_ok_iff.mp hrun
      · exact evaluate_eq_ok_iff.mpr (.inl hknown)
      · obtain rfl := Nat.succ.inj hn
        have hq' := (hoperands e (by simp [hq])).trans hq
        exact evaluate_eq_ok_iff.mpr
          (.inr ⟨hnew, hc, m, e, q, rfl, he, hq', hfinish⟩)
    | error x =>
      obtain ⟨hnew, ⟨hn, _⟩ | ⟨_, hn, hcause⟩⟩ := evaluate_eq_error_iff.mp hrun
      · omega
      · obtain rfl := Nat.succ.inj hn
        refine evaluate_eq_error_iff.mpr ⟨hnew, .inr ⟨m, rfl, ?_⟩⟩
        refine hcause.imp_right (And.imp_right (Or.imp_right ?_))
        rintro ⟨e, he, hx⟩
        have hdeep : ∀ limit, x ≠ .tooDeep limit := by
          rintro limit rfl
          exact h limit hrun
        exact ⟨e, he, (hoperands e (by simpa [hx] using hdeep)).trans hx⟩

/-- The limit that a query says to have reached is that of the reasoner. -/
lemma eq_maxDepth_of_tooDeep {limit : ℕ}
    (h : r.members c = .error (.tooDeep limit)) : limit = r.maxDepth := by
  cases causes_of_members h
  rfl

/-- **Queries find meanings**: a query for a class that has a meaning finds it,
or is stopped by the limit. -/
theorem members_of_denotes (h : r.Denotes c S) :
    (∃ is, r.members c = .ok is ∧ {i | i ∈ is} = S) ∨
      r.members c = .error (.tooDeep r.maxDepth) := by
  cases hmembers : r.members c with
  | ok is => exact .inl ⟨is, rfl, (denotes_of_members hmembers).unique h⟩
  | error e =>
    refine .inr ?_
    by_cases hdeep : ∃ limit, e = .tooDeep limit
    · obtain ⟨limit, rfl⟩ := hdeep
      rw [eq_maxDepth_of_tooDeep hmembers]
    · -- with enough nesting the same error would be in place of the meaning
      have hrun := members_eq_error_iff.mp hmembers
      obtain ⟨n, is, his⟩ := h.afresh
      have hdepth := le_max_left n (r.maxDepth + 1)
      have hstart : r.Stands [] {} := ⟨sound_empty, rfl⟩
      have hnone : ∀ u ∈ [], r.afresh n u = none := by simp
      obtain ⟨q, hq, -⟩ := evaluate_of_afresh hdepth hnone is his {} hstart
      have hsame : r.evaluate (max n (r.maxDepth + 1)) c {} = r.membersQuery c {} :=
        evaluate_unhindered (le_max_right n (r.maxDepth + 1)) c {} fun limit hlimit =>
          hdeep ⟨limit, Except.error.inj (hrun.symm.trans hlimit)⟩
      rw [hq, hrun] at hsame
      cases hsame

end Ontology.Reasoner
