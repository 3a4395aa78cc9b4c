/-
The operations of a store do what the facts call for, as a whole or not at all.

* `Indexed.settled`: the judgement on a statement by the facts, and the store with the
  statement entered, if it is to be applied.
* `SameIndividuals.run_enterIndividual`, `run_discard`, `run_forM`: individuals become
  known.
* `Sound.run_perform`: **each operation**, with its own tests and writes one after the
  other, comes to what is settled; one lemma for each operation.
* `Indexed.run_coherent`: **indexes stay coherent**, and the store they decide for is
  the one without indexes; `Indexed.run_judge`.
-/
import Ontology.Proofs.Store.Indexed
import Ontology.Proofs.Store.Runs

namespace Ontology.Indexed

variable {s : Indexed} {t : Statement}

/-! ### What is to come of a statement -/

/-- The judgement on a statement by the facts, and the store with the statement entered,
if it is to be applied. -/
def settled (s : Indexed) (t : Statement) : Outcome × Indexed :=
  (s.toStore.judge t, if s.toStore.judge t = .applied then s.add t else s)

lemma settled_of_fault {fault : StatementFault} (hfault : t.fault? = some fault) :
    s.settled t = (.refused fault, s) := by
  simp [settled, Store.judge, hfault]

lemma settled_of_holds (hfault : t.fault? = none) (hholds : s.facts.holds t) :
    s.settled t = (.unchanged, s) := by
  simp [settled, Store.judge, hfault, hholds]

lemma settled_of_conflict {conflict : Conflict} (hfault : t.fault? = none)
    (hholds : ¬ s.facts.holds t) (hprotection : s.config.protection)
    (hconflict : s.facts.conflict? s.config.reserved t = some conflict) :
    s.settled t = (.rejected conflict, s) := by
  simp [settled, Store.judge, hfault, hholds, hprotection, hconflict]

lemma settled_of_new (hfault : t.fault? = none) (hholds : ¬ s.facts.holds t)
    (hconflict : s.config.protection → s.facts.conflict? s.config.reserved t = none) :
    s.settled t = (.applied, s.add t) := by
  have hjudge : s.toStore.judge t = .applied :=
    Store.judge_eq_applied_iff.mpr ⟨hfault, hholds, hconflict⟩
  simp [settled, hjudge]

/-! ### Individuals -/

/-- The store with further individuals known. -/
def declare (s : Indexed) (is : List Individual) : Indexed :=
  { s with facts := s.facts.declare is, index := s.index.declare is }

/-- The individuals of the facts are those of the indexes. -/
def SameIndividuals (s : Indexed) : Prop := s.index.individuals.toList = s.facts.individuals

namespace SameIndividuals

variable (h : s.SameIndividuals)

include h

lemma mem_iff {i : Individual} :
    i ∈ s.index.individuals ↔ s.facts.holds (.individual i) := by
  rw [← ListSet.mem_toList, show s.index.individuals.toList = _ from h]
  simp [Facts.holds]

lemma declare (is : List Individual) : (s.declare is).SameIndividuals := by
  change (is.foldl ListSet.insert s.index.individuals).toList = _
  rw [Index.toList_foldl_insert, h]
  rfl

/-- A known individual does not become known again. -/
lemma declare_of_holds {i : Individual} (hi : s.facts.holds (.individual i)) :
    s.declare [i] = s := by
  have hmem : i ∈ s.facts.individuals := by simpa [Facts.holds] using hi
  simp [Indexed.declare, Facts.declare, Index.declare, Facts.insertNew, ListSet.insert, hmem,
    h.mem_iff.mpr hi]

lemma run_enterIndividual (i : Individual) :
    (enterIndividual i).run s = pure (!s.facts.holds (.individual i), s.declare [i]) := by
  simp only [enterIndividual, StateT.run_bind, StateT.run_get, pure_bind, h.mem_iff]
  split
  · next hi =>
    rw [h.declare_of_holds hi, hi]
    rfl
  · next hi =>
    have hmem : i ∉ s.facts.individuals := by simpa [Facts.holds] using hi
    simp [Indexed.declare, Facts.declare, Index.declare, Facts.insertNew, hi, hmem]

lemma run_discard {α : Type} (i : Individual) (x : Update α) :
    (do discard (enterIndividual i); x).run s = x.run (s.declare [i]) := by
  have hdiscard :
      (discard (enterIndividual i)).run s =
        Prod.map (fun _ => ()) id <$> (enterIndividual i).run s := rfl
  rw [StateT.run_bind, hdiscard, h.run_enterIndividual]
  rfl

lemma run_discard_both {α : Type} (i j : Individual) (x : Update α) :
    (do discard (enterIndividual i); discard (enterIndividual j); x).run s =
      x.run (s.declare [i, j]) := by
  rw [h.run_discard, (h.declare [i]).run_discard]
  rfl

lemma run_forM {α : Type} (is : List Individual) (x : Update α) :
    (do is.forM fun i => discard (enterIndividual i); x).run s = x.run (s.declare is) := by
  induction is generalizing s with
  | nil => rfl
  | cons i is ih =>
    rw [List.forM_eq_forM, List.forM_cons, bind_assoc, h.run_discard]
    exact ih (h.declare [i])

end SameIndividuals

/-! ### Writes after the individuals of a statement are known -/

lemma run_enterAssertion {a : Assertion} (ha : ¬ s.index.contains a) :
    (enterAssertion a).run (s.declare a.individuals) = pure (true, s.add (.assertion a)) := by
  have hnew : ¬ (s.declare a.individuals).index.contains a := ha
  simp only [enterAssertion, StateT.run_bind, StateT.run_get, pure_bind, hnew]
  obtain ⟨q, subject, p, v⟩ := a
  cases v <;> rfl

lemma run_enterSameAs {a b : Individual} (hab : ¬ s.index.sameAs.contains a b) :
    (enterSameAs a b).run (s.declare [a, b]) = pure (true, s.add (.sameAs a b)) := by
  have hnew : ¬ (s.declare [a, b]).index.sameAs.contains a b := hab
  simp only [enterSameAs, StateT.run_bind, StateT.run_get, pure_bind, if_neg hnew]
  rfl

lemma run_enterDifferentFrom {a b : Individual} (hab : ¬ s.index.differentFrom.contains a b) :
    (enterDifferentFrom a b).run (s.declare [a, b]) =
      pure (true, s.add (.differentFrom a b)) := by
  have hnew : ¬ (s.declare [a, b]).index.differentFrom.contains a b := hab
  simp only [enterDifferentFrom, StateT.run_bind, StateT.run_get, pure_bind, if_neg hnew]
  rfl

/-- The members of a group become known as if it were told with its repetitions. -/
lemma declare_eraseDups (s : Indexed) (is : List Individual) :
    s.declare is.eraseDups = s.declare is := by
  have hknown : is.eraseDups.foldl ListSet.insert s.index.individuals =
      is.foldl .insert s.index.individuals := by
    ext1
    simp only [Index.toList_foldl_insert, Facts.foldl_insertNew_eraseDups]
  simp only [declare, Facts.declare, Index.declare, Facts.foldl_insertNew_eraseDups, hknown]

lemma run_pushGroup (members : List Individual) :
    (pushGroup members.eraseDups).run (s.declare members.eraseDups) =
      pure ((), s.add (.allDifferent members)) := by
  rw [declare_eraseDups]
  rfl

/-! ### Operations -/

/-- A statement that is known is left alone, and a new one is tested where the store is
protected and else entered. -/
lemma run_tests {known : Prop} [Decidable known] {clash : Bool} {conflict : Conflict}
    {enter : Update Outcome} (hfault : t.fault? = none) (hholds : known ↔ s.facts.holds t)
    (hconflict : s.facts.conflict? s.config.reserved t = if clash then some conflict else none)
    (henter : ¬ known → enter.run s = pure (.applied, s.add t)) :
    (if known then pure .unchanged
      else if s.config.protection && clash then pure (.rejected conflict)
      else enter : Update Outcome).run s = pure (s.settled t) := by
  split
  · next hknown => rw [settled_of_holds hfault (hholds.mp hknown)]; rfl
  next hknown =>
  have hnew := hholds.not.mp hknown
  split
  · next hclash =>
    rw [Bool.and_eq_true] at hclash
    rw [settled_of_conflict hfault hnew hclash.1 (hconflict.trans (if_pos hclash.2))]
    rfl
  · next hclash =>
    rw [Bool.and_eq_true, not_and] at hclash
    rw [settled_of_new hfault hnew fun hp => hconflict.trans (if_neg (hclash hp)),
      henter hknown]

namespace Sound

variable (h : s.Sound)

include h

lemma sameIndividuals : s.SameIndividuals := h.shows.individuals

lemma run_declareIndividual (i : Individual) :
    (declareIndividual i).run s = pure (s.settled (.individual i)) := by
  rw [declareIndividual, StateT.run_map, h.sameIndividuals.run_enterIndividual, map_pure]
  by_cases hi : s.facts.holds (.individual i)
  · rw [settled_of_holds rfl hi, h.sameIndividuals.declare_of_holds hi, hi]
    rfl
  · rw [settled_of_new rfl hi fun _ => rfl, Bool.eq_false_iff.mpr hi]
    rfl

lemma run_declareType (i : Individual) (c : ClassName) :
    (declareType i c).run s = pure (s.settled (.instanceOf i c)) := by
  simp only [declareType, StateT.run_bind, StateT.run_get, pure_bind]
  refine run_tests rfl (Index.mem_members_types_iff h.shows) ?_ fun _ => ?_
  · simp [Facts.conflict?]
  · rw [h.sameIndividuals.run_discard]
    rfl

lemma conflict?_assertion (a : Assertion) :
    s.facts.conflict? s.config.reserved (.assertion a) =
      if s.index.opposes a then some (.opposed a) else none := by
  rw [Index.opposes_eq h.coherent h.shows]
  rfl

lemma run_assertRelation (q : Polarity) (subject : Individual) (p : Property)
    (object : Individual) :
    (assertRelation q subject p object).run s =
      pure (s.settled (.assertion ⟨q, subject, p, .node object⟩)) := by
  simp only [assertRelation, StateT.run_bind, StateT.run_get, pure_bind]
  refine run_tests rfl (Index.contains_iff_holds h.shows _) (h.conflict?_assertion _)
    fun hnew => ?_
  rw [h.sameIndividuals.run_discard_both, StateT.run_map]
  exact congrArg _ (run_enterAssertion hnew)

lemma run_assertValue (q : Polarity) (subject : Individual) (p : Property)
    (l : Rdf.Literal) :
    (assertValue q subject p l).run s =
      pure (s.settled (.assertion ⟨q, subject, p, .literal l⟩)) := by
  simp only [assertValue, StateT.run_bind, StateT.run_get, pure_bind]
  refine run_tests rfl (Index.contains_iff_holds h.shows _) (h.conflict?_assertion _)
    fun hnew => ?_
  rw [h.sameIndividuals.run_discard, StateT.run_map]
  exact congrArg _ (run_enterAssertion hnew)

lemma run_declareSameAs (a b : Individual) :
    (declareSameAs a b).run s = pure (s.settled (.sameAs a b)) := by
  have hholds := Index.contains_sameAs_iff h.coherent h.shows (a := a) (b := b)
  rw [declareSameAs]
  split
  · next hab => rw [settled_of_fault (t := .sameAs a b) (if_pos hab)]; rfl
  next hab =>
  have hfault : (Statement.sameAs a b).fault? = none := if_neg hab
  simp only [StateT.run_bind, StateT.run_get, pure_bind]
  split
  · next hknown => rw [settled_of_holds hfault (hholds.mp hknown)]; rfl
  next hknown =>
  have hnew := hholds.not.mp hknown
  rw [Index.isDifferent_eq h.coherent h.shows, Index.mergeOpposes_eq h.coherent h.shows]
  split
  · next hdifferent =>
    rw [Bool.and_eq_true] at hdifferent
    rw [settled_of_conflict hfault hnew hdifferent.1 (if_pos hdifferent.2)]
    rfl
  next hdifferent =>
  rw [Bool.and_eq_true, not_and] at hdifferent
  split
  · next hmerge =>
    rw [Bool.and_eq_true] at hmerge
    rw [settled_of_conflict hfault hnew hmerge.1
      ((if_neg (hdifferent hmerge.1)).trans (if_pos hmerge.2))]
    rfl
  · next hmerge =>
    rw [Bool.and_eq_true, not_and] at hmerge
    rw [settled_of_new hfault hnew fun hp =>
        (if_neg (hdifferent hp)).trans (if_neg (hmerge hp)),
      h.sameIndividuals.run_discard_both, StateT.run_map, run_enterSameAs hknown]
    rfl

lemma run_declareDifferentFrom (a b : Individual) :
    (declareDifferentFrom a b).run s = pure (s.settled (.differentFrom a b)) := by
  rw [declareDifferentFrom]
  split
  · next hab => rw [settled_of_fault (t := .differentFrom a b) (if_pos hab)]; rfl
  next hab =>
  simp only [StateT.run_bind, StateT.run_get, pure_bind]
  refine run_tests (if_neg hab) (Index.contains_differentFrom_iff h.coherent h.shows) ?_
    fun hnew => ?_
  · rw [Index.isSame_eq h.coherent h.shows]
    rfl
  · rw [h.sameIndividuals.run_discard_both, StateT.run_map, run_enterDifferentFrom hnew]
    rfl

lemma run_declareAllDifferent (members : List Individual) :
    (declareAllDifferent members).run s = pure (s.settled (.allDifferent members)) := by
  have hholds := Index.contains_groups_iff h.coherent h.shows members
  rw [declareAllDifferent]
  split
  · next hmembers =>
    have hnil : members = [] := by
      by_contra hne
      exact eraseDups_ne_nil hne hmembers
    rw [settled_of_fault (t := .allDifferent members) (if_pos hnil)]
    rfl
  next hmembers =>
  have hfault : (Statement.allDifferent members).fault? = none :=
    if_neg fun hnil : members = [] => hmembers (by rw [hnil]; rfl)
  simp only [StateT.run_bind, StateT.run_get, pure_bind]
  split
  · next hknown => rw [settled_of_holds hfault (hholds.mp hknown)]; rfl
  next hknown =>
  have hnew := hholds.not.mp hknown
  have henter (hconflict : s.config.protection →
      s.facts.equalMembers? members.eraseDups = none) :
      StateT.run (do
        members.eraseDups.forM fun i => discard (enterIndividual i)
        pushGroup members.eraseDups
        return Outcome.applied) s = pure (s.settled (.allDifferent members)) := by
    rw [settled_of_new hfault hnew hconflict, h.sameIndividuals.run_forM, StateT.run_bind,
      run_pushGroup]
    rfl
  rw [Index.equalMembers?_eq h.coherent h.shows]
  split
  · next hprotection =>
    cases hequal : s.facts.equalMembers? members.eraseDups with
    | some conflict =>
      rw [settled_of_conflict hfault hnew hprotection hequal]
      rfl
    | none => exact henter fun _ => hequal
  · next hprotection => exact henter fun hp => absurd hp hprotection

/-- Where the note is known its subject had an entry before, and where it is new it finds
the entry that was made for it. -/
lemma run_annotate (n : Note) : (annotate n).run s = pure (s.settled (.note n)) := by
  have hrun : (annotate n).run s =
      StateT.run (if (n.property, n.value) ∈ s.index.notesOf n.subject then return .unchanged
        else do
          pushNote n
          discard (enterIndividual n.subject)
          return .applied) { s with index := s.index.openNotes n.subject } := by
    rw [← Index.notesOf_openNotes s.index n.subject]
    rfl
  rw [hrun]
  split
  · next hknown =>
    rw [settled_of_holds rfl ((Index.mem_notesOf_iff h.shows n).mp hknown),
      Index.openNotes_of_mem hknown]
    rfl
  · next hknown =>
    rw [settled_of_new rfl ((Index.mem_notesOf_iff h.shows n).not.mp hknown) fun _ => rfl]
    have hpush : (pushNote n).run { s with index := s.index.openNotes n.subject } =
        pure ((), { s with
          facts := s.facts.record (.note n), index := s.index.record (.note n) }) := by
      rw [Index.record, ← Index.pushNote_openNotes]
      rfl
    have hsame : SameIndividuals { s with
        facts := s.facts.record (.note n), index := s.index.record (.note n) } :=
      h.sameIndividuals
    rw [StateT.run_bind, hpush, pure_bind, hsame.run_discard]
    rfl

/-- **Each operation** comes to what is settled. -/
theorem run_perform (t : Statement) : (perform t).run s = pure (s.settled t) := by
  cases t with
  | individual i => exact h.run_declareIndividual i
  | instanceOf i c => exact h.run_declareType i c
  | assertion a =>
    obtain ⟨q, subject, p, v⟩ := a
    cases v with
    | node o => exact h.run_assertRelation q subject p o
    | literal l => exact h.run_assertValue q subject p l
  | sameAs a b => exact h.run_declareSameAs a b
  | differentFrom a b => exact h.run_declareDifferentFrom a b
  | allDifferent members => exact h.run_declareAllDifferent members
  | note n => exact h.run_annotate n

lemma judge_eq (t : Statement) : s.judge t = s.toStore.judge t :=
  congrArg Prod.fst (h.run_perform t)

lemma tell_eq (t : Statement) :
    s.tell t = if s.toStore.judge t = .applied then s.add t else s :=
  congrArg Prod.snd (h.run_perform t)

/-- A statement is told to the store as it is without indexes, -/
lemma toStore_tell (t : Statement) : (s.tell t).toStore = s.toStore.tell t := by
  rw [h.tell_eq, Store.tell]
  split <;> rfl

/-- and the indexes stay sound. -/
lemma tell (t : Statement) : (s.tell t).Sound := by
  rw [h.tell_eq]
  split
  · next happlied =>
    obtain ⟨hfault, hnew, -⟩ := Store.judge_eq_applied_iff.mp happlied
    exact h.add hfault hnew
  · exact h

/-! ### Runs -/

lemma step (c : Command) : (s.step c).Sound ∧ (s.step c).toStore = s.toStore.step c := by
  cases c with
  | tell t => exact ⟨h.tell t, h.toStore_tell t⟩
  | reset => exact ⟨empty s.config, rfl⟩

lemma run (cs : List Command) : (s.run cs).Sound ∧ (s.run cs).toStore = s.toStore.run cs := by
  induction cs generalizing s with
  | nil => exact ⟨h, rfl⟩
  | cons c cs ih =>
    obtain ⟨hsound, hstore⟩ := h.step c
    refine ⟨(ih hsound).1, (ih hsound).2.trans ?_⟩
    rw [hstore]
    rfl

end Sound

/-- **Indexes stay coherent**, after every run. They show the facts of the store, so the
store that decides by them is the one that looks through all facts. -/
theorem run_coherent (config : Config) (cs : List Command) :
    (run { config } cs).index.Coherent ∧
      (run { config } cs).index.Shows (run { config } cs).facts ∧
        (run { config } cs).toStore = Store.run { config } cs :=
  have ⟨hsound, hstore⟩ := (Sound.empty config).run cs
  ⟨hsound.coherent, hsound.shows, hstore⟩

/-- After every run a statement is judged as without indexes. -/
theorem run_judge (config : Config) (cs : List Command) (t : Statement) :
    (run { config } cs).judge t = (Store.run { config } cs).judge t := by
  obtain ⟨hsound, hstore⟩ := (Sound.empty config).run cs
  rw [hsound.judge_eq, hstore]

end Ontology.Indexed
