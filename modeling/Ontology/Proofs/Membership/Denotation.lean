/-
What classes mean, whatever the way their members are found.

* `Reasoner.instancesOf`: the instances of a name; `mem_named_iff`.
* `Reasoner.Satisfies`: an individual satisfies the constraint of a
  restriction, for a set of values asked for; `mem_restricted_iff`.
* `Reasoner.Denotes`: the meaning of a class as a set, one case for each kind
  of structure. Nothing is remembered, and nothing is limited.
* `ClassExpression.Rearranges`: structures that differ in the order and the
  repetitions of an intersection; `Denotes.eq_of_rearranges`: they mean the same.
* `Denotes.unique`: a class has one meaning at most.
-/
import Mathlib.Data.Set.Card
import Mathlib.Tactic.Lemma
import Ontology.Membership.Meaning
import Ontology.Proofs.Store.Unrepeated

namespace Ontology

/-! ### Counting -/

/-- A list without repetition is as long as it has elements. -/
lemma ncard_eq_length {α : Type} [DecidableEq α] {l : List α} (hl : l.Nodup) :
    {a | a ∈ l}.ncard = l.length := by
  rw [show {a | a ∈ l} = (l.toFinset : Set α) from by ext; simp,
    Set.ncard_coe_finset, List.toFinset_card_of_nodup hl]

namespace Count

/-- A number lies within the bounds. -/
def Admits (k : Count) (n : ℕ) : Prop :=
  (∀ min ∈ k.min?, min.toNat ≤ n) ∧ ∀ max ∈ k.max?, n ≤ max.toNat

/-- Numbers beyond the words are taken for the greatest word. -/
lemma accepts_ofLength_iff {α : Type} {k : Count} (l : List α) :
    k.toBounds.accepts (ofLength l) ↔ k.Admits (min l.length (2 ^ 32 - 1)) := by
  have hlen : (ofLength l).toNat = min l.length (2 ^ 32 - 1) := by
    have hsize : UInt32.size = 2 ^ 32 := rfl
    unfold ofLength
    split
    · next h => rw [UInt32.toNat_ofNat_of_lt' h]; omega
    · next h => rw [show UInt32.toNat 4294967295 = 2 ^ 32 - 1 from rfl]; omega
  simp only [CountBounds.accepts, toBounds, Admits, Bool.and_eq_true, Option.all_eq_true,
    decide_eq_true_eq, UInt32.le_iff_toNat_le, hlen, Option.mem_def]

end Count

/-- Two structures are the same, or intersections of the same classes, in any
order and with any repetitions. -/
def ClassExpression.Rearranges (e e' : ClassExpression) : Prop :=
  e = e' ∨ ∃ ds es, e = .intersection ds ∧ e' = .intersection es ∧
    ∀ d, d ∈ ds ↔ d ∈ es

namespace Reasoner

variable {r : Reasoner} {c d : ClassName} {S T : Set Individual}
  {i : Individual}

/-! ### Names -/

/-- A class is another, or stands above it, or is equivalent to it. -/
def Covers (r : Reasoner) (c d : ClassName) : Prop :=
  Reaches r.catalog.classes.narrower.targets c d ∨
    Reaches r.catalog.classes.equivalent.both.targets c d

lemma covers_iff :
    r.Covers c d ↔ d = c ∨ d ∈ r.catalog.classes.below c ∨
      d ∈ r.catalog.classes.equivalents c := by
  rw [Covers, Hierarchy.mem_equivalents, Edges.mem_component,
    Hierarchy.mem_below]
  have hnarrower : d ≠ c → (Reaches r.catalog.classes.narrower.targets c d ↔
      ∃ e, (c, e) ∈ r.catalog.classes.narrower ∧
        Reaches r.catalog.classes.narrower.targets e d) := by
    intro hne
    constructor
    · intro h
      cases h with
      | refl => exact absurd rfl hne
      | step he h => exact ⟨_, Edges.mem_targets.mp he, h⟩
    · rintro ⟨e, he, h⟩
      exact .step (Edges.mem_targets.mpr he) h
  by_cases hne : d = c
  · subst hne
    exact ⟨fun _ => .inl rfl, fun _ => .inl (.refl d)⟩
  · simp [hne, hnarrower hne]

/-- The instances of a name: all individuals for the class of everything, and
otherwise those with a name of which a type is declared that the class
covers. -/
def instancesOf (r : Reasoner) (c : ClassName) : Set Individual :=
  {i | if c = .iri Owl.thing then i ∈ r.facts.individuals
    else ∃ j d, (j, d) ∈ r.facts.types ∧ r.Covers c d ∧ r.facts.isSame j i}

lemma mem_named_iff : i ∈ r.named c ↔ i ∈ r.instancesOf c := by
  simp only [instancesOf, Set.mem_ofPred_eq, Facts.isSame_iff, covers_iff]
  split
  · next hc => simp [named, hc]
  · next hc =>
    rw [mem_named hc]
    simp only [and_comm (b := i ∈ _)]

/-! ### Restrictions -/

/-- The values of a role of an individual. -/
def values (r : Reasoner) (role : Role) (i : Individual) : Set Rdf.Term :=
  {v | (i, v) ∈ r.roleLinks role}

/-- The values in a class: its members, and if it has an IRI the literals of
the datatype with that IRI. -/
def valuesIn (c : ClassName) (S : Set Individual) : Set Rdf.Term :=
  {v | (∃ i ∈ S, v = .node i) ∨
    ∃ iri ∈ c.iri?, ∃ l, v = .literal l ∧ l.hasDatatype iri}

/-- An individual satisfies the constraint of a restriction that asks for some
values. -/
def Satisfies (r : Reasoner) (x : Restriction) (asked : Set Rdf.Term)
    (i : Individual) : Prop :=
  match x.constraint with
  | .count k _ =>
    i ∈ r.facts.individuals ∧
      k.Admits (min (r.values x.role i ∩ asked).ncard (2 ^ 32 - 1))
  | .allValuesFrom _ =>
    (r.values x.role i).Nonempty ∧ r.values x.role i ⊆ asked
  | .someValuesFrom _ => (r.values x.role i ∩ asked).Nonempty
  | .hasValue v => ∃ w ∈ r.values x.role i, r.facts.SameTerm v w
  | .hasSelf true => .node i ∈ r.values x.role i
  | .hasSelf false =>
    (r.values x.role i).Nonempty ∧ .node i ∉ r.values x.role i

@[simp] lemma mem_values {role : Role} {v : Rdf.Term} :
    v ∈ r.values role i ↔ (i, v) ∈ r.roleLinks role := .rfl

lemma sameValue_iff {v w : Rdf.Term} :
    r.sameValue v w ↔ r.facts.SameTerm v w := by
  cases v <;> cases w <;>
    simp [sameValue, Facts.SameTerm, Rdf.Literal.sameValue_comm]

/-- Terms that stand for an individual are its names. -/
lemma exists_sameTerm_node_iff {A : Set Rdf.Term} :
    (∃ t ∈ A, r.facts.SameTerm (.node i) t) ↔
      ∃ j, r.facts.isSame i j ∧ .node j ∈ A := by
  constructor
  · rintro ⟨t, ht, hsame⟩
    cases t with
    | node j => exact ⟨j, Facts.isSame_iff.mpr hsame, ht⟩
    | literal l => exact hsame.elim
  · rintro ⟨j, hsame, hj⟩
    exact ⟨_, hj, Facts.isSame_iff.mp hsame⟩

/-- The values of a list are counted as those of a set. -/
lemma ncard_values (role : Role) (i : Individual) (test : Rdf.Term → Bool) :
    (r.values role i ∩ {v | test v}).ncard =
      (((r.roleLinks role).valuesOf i).filter test).length := by
  have hnodup : ((r.roleLinks role).valuesOf i).Nodup := nodup_eraseDups _
  rw [← ncard_eq_length (hnodup.filter test)]
  congr 1
  ext v
  simp [values]

/-- The members of a restriction are those that satisfy its constraint. -/
lemma mem_restricted_iff {x : Restriction} {filler : Filler} :
    i ∈ r.restricted x filler ↔ r.Satisfies x {v | filler.holds v} i := by
  obtain ⟨role, constraint, hordered⟩ := x
  have hvalues : ((r.roleLinks role).valuesOf i).isEmpty = false ↔
      (r.values role i).Nonempty := by
    rw [List.isEmpty_eq_false_iff_exists_mem]
    simp [Set.Nonempty]
  have hsubjects : i ∈ (r.roleLinks role).subjects ↔
      (r.values role i).Nonempty := Links.mem_subjects
  simp only [restricted, candidates, Satisfies, List.mem_filter]
  -- apart from a count, every constraint asks for a value
  cases constraint with
  | count k c =>
    simp [satisfies, Constraint.count?, Count.accepts_ofLength_iff,
      ncard_values]
  | allValuesFrom c =>
    simp [satisfies, Constraint.count?, hsubjects, hvalues, Set.subset_def]
  | someValuesFrom c =>
    have hasked : (∃ v, (i, v) ∈ r.roleLinks role ∧ filler.holds v) ↔
        (r.values role i ∩ {v | filler.holds v}).Nonempty := .rfl
    simp only [satisfies, Constraint.count?, Option.isSome_none,
      Bool.false_eq_true, if_false, hsubjects, List.any_eq_true,
      Links.mem_valuesOf, hasked]
    exact and_iff_right_of_imp Set.Nonempty.left
  | hasValue v =>
    simp only [satisfies, Constraint.count?, Option.isSome_none,
      Bool.false_eq_true, if_false, hsubjects, List.any_eq_true,
      Links.mem_valuesOf, sameValue_iff, mem_values]
    exact and_iff_right_of_imp fun h => h.imp fun _ => And.left
  | hasSelf self =>
    cases self with
    | false => simp [satisfies, Constraint.count?, hsubjects, hvalues]
    | true =>
      have hself : .node i ∈ r.values role i → (r.values role i).Nonempty :=
        fun h => ⟨_, h⟩
      simpa [satisfies, Constraint.count?, hsubjects, hvalues] using hself

/-- Without a class every value is asked for. -/
lemma holds_all : {v | Filler.all.holds v} = Set.univ := by
  ext v
  simp [Filler.holds]

/-- With a class the values in it are asked for. -/
lemma holds_ofClass (c : ClassName) (members : List Individual) :
    {v | (Filler.ofClass c members).holds v} = valuesIn c {i | i ∈ members} := by
  ext v
  cases v <;> simp [Filler.holds, valuesIn, Option.any_eq_true]

/-! ### Classes -/

/-- A set is the meaning of a class. What a class means rests on the meanings
of the classes in its structure. -/
inductive Denotes (r : Reasoner) : ClassName → Set Individual → Prop
  /-- The instances of a name. -/
  | named {c d : ClassName} (hc : r.catalog.classify c = .ok (.named d)) :
    Denotes r c (r.instancesOf d)
  /-- The individuals on a list. -/
  | oneOf {c : ClassName} {is : List Individual}
    (hc : r.catalog.classify c = .ok (.oneOf is)) : Denotes r c {i | i ∈ is}
  /-- The known individuals outside a class. -/
  | complement {c d : ClassName} {S : Set Individual}
    (hc : r.catalog.classify c = .ok (.complement d)) (hd : Denotes r d S) :
    Denotes r c {i | i ∈ r.facts.individuals ∧ i ∉ S}
  /-- The members of any class. -/
  | union {c : ClassName} {ds : List ClassName}
    {F : ClassName → Set Individual}
    (hc : r.catalog.classify c = .ok (.union ds))
    (hds : ∀ d ∈ ds, Denotes r d (F d)) : Denotes r c {i | ∃ d ∈ ds, i ∈ F d}
  /-- The members of all classes, and nothing if there are none. -/
  | intersection {c : ClassName} {ds : List ClassName}
    {F : ClassName → Set Individual}
    (hc : r.catalog.classify c = .ok (.intersection ds))
    (hds : ∀ d ∈ ds, Denotes r d (F d)) :
    Denotes r c {i | ds ≠ [] ∧ ∀ d ∈ ds, i ∈ F d}
  /-- Nothing, as soon as the first classes have no member in common. -/
  | disjoint {c : ClassName} {ds es : List ClassName}
    {F : ClassName → Set Individual}
    (hc : r.catalog.classify c = .ok (.intersection (ds ++ es)))
    (hds : ∀ d ∈ ds, Denotes r d (F d)) (hempty : ∀ i, ∃ d ∈ ds, i ∉ F d) :
    Denotes r c ∅
  /-- All known individuals, if every one satisfies a restriction. -/
  | unbounded {c : ClassName} {x : Restriction}
    (hc : r.catalog.classify c = .ok (.restriction x))
    (hx : x.constraint.trivial = true) : Denotes r c {i | i ∈ r.facts.individuals}
  /-- Those that satisfy a restriction on all values. -/
  | restriction {c : ClassName} {x : Restriction}
    (hc : r.catalog.classify c = .ok (.restriction x))
    (hx : x.constraint.trivial = false) (hfiller : x.constraint.filler? = none) :
    Denotes r c {i | r.Satisfies x Set.univ i}
  /-- Those that satisfy a restriction on the values in a class. -/
  | qualified {c d : ClassName} {x : Restriction} {S : Set Individual}
    (hc : r.catalog.classify c = .ok (.restriction x))
    (hx : x.constraint.trivial = false)
    (hfiller : x.constraint.filler? = some d) (hd : Denotes r d S) :
    Denotes r c {i | r.Satisfies x (valuesIn d S) i}

/-! ### Rearranged intersections -/

/-- The reasoner with other structures of classes. -/
def redescribed (r : Reasoner)
    (structures : ClassName → Except CatalogError ClassExpression) : Reasoner :=
  { r with catalog := { r.catalog with classify := structures } }

section

variable {structures : ClassName → Except CatalogError ClassExpression}
  {e : ClassExpression} {ds : List ClassName}

@[simp] lemma classify_redescribed :
    (r.redescribed structures).catalog.classify = structures := rfl

@[simp] lemma facts_redescribed : (r.redescribed structures).facts = r.facts := rfl

@[simp] lemma satisfies_redescribed :
    (r.redescribed structures).Satisfies = r.Satisfies := rfl

/-- A rearranged structure that has a meaning is the same, unless it is an
intersection. -/
lemma Denotes.classify_eq (hT : (r.redescribed structures).Denotes d T)
    (he : ∀ e', structures d = .ok e' → e.Rearranges e')
    (hne : ∀ ds, e ≠ .intersection ds) : structures d = .ok e := by
  obtain ⟨e', he'⟩ : ∃ e', structures d = .ok e' := by cases hT <;> exact ⟨_, ‹_›⟩
  obtain rfl | ⟨ds, _, hds, _⟩ := he e' he'
  · exact he'
  · exact absurd hds (hne ds)

/-- The meaning of a rearranged intersection is what some of the classes have in
common, and all of them unless that is nothing. -/
lemma Denotes.exists_first (hT : (r.redescribed structures).Denotes d T)
    (hds : ∀ e', structures d = .ok e' →
      (ClassExpression.intersection ds).Rearranges e') :
    ∃ (es : List ClassName) (F : ClassName → Set Individual), es ⊆ ds ∧
      (∀ d ∈ es, (r.redescribed structures).Denotes d (F d)) ∧
      (∀ i, i ∈ T ↔ ds ≠ [] ∧ ∀ d ∈ es, i ∈ F d) ∧ (T.Nonempty → ds ⊆ es) := by
  have hmem : ∀ es, structures d = .ok (.intersection es) →
      ∀ d, d ∈ ds ↔ d ∈ es := by
    intro es hes
    obtain heq | ⟨_, _, hds, hes, hmem⟩ := hds _ hes
    · cases heq
      exact fun _ => .rfl
    · cases hds
      cases hes
      exact hmem
  cases hT with
  | @intersection _ es F hd hes =>
    refine ⟨es, F, fun d => (hmem es hd d).mpr, hes, fun i => ?_,
      fun _ d => (hmem es hd d).mp⟩
    simp [List.eq_nil_iff_forall_not_mem, hmem es hd]
  | @disjoint _ es fs F hd hes hempty =>
    refine ⟨es, F, fun d h => (hmem _ hd d).mpr (List.mem_append_left fs h), hes,
      fun i => ?_, fun h => absurd h Set.not_nonempty_empty⟩
    simpa using fun _ => hempty i
  | named hd | oneOf hd | complement hd | union hd | unbounded hd | restriction hd
  | qualified hd => simpa [ClassExpression.Rearranges] using hds _ hd

/-- **The arrangement of intersections does not matter**: where both of two
catalogs describe a class, let its structures be the same but for the order and
the repetitions of an intersection. Then two classes of which this is true mean
the same. -/
theorem Denotes.eq_of_rearranges
    (h : ∀ c e e', r.catalog.classify c = .ok e → structures c = .ok e' →
      e.Rearranges e')
    (hcd : ∀ e e', r.catalog.classify c = .ok e → structures d = .ok e' →
      e.Rearranges e')
    (hS : r.Denotes c S) (hT : (r.redescribed structures).Denotes d T) : S = T := by
  induction hS generalizing d T with
  | named hc | oneOf hc =>
    have hd := hT.classify_eq (fun e' => hcd _ e' hc) (by simp)
    cases hT <;> cases hd.symm.trans ‹_›
    rfl
  | complement hc _ ih =>
    have hd := hT.classify_eq (fun e' => hcd _ e' hc) (by simp)
    cases hT with
    | complement hd' hT =>
      cases hd.symm.trans hd'
      rw [ih (h _) hT]
      rfl
    | _ => cases hd.symm.trans ‹_›
  | union hc _ ih =>
    have hd := hT.classify_eq (fun e' => hcd _ e' hc) (by simp)
    cases hT with
    | union hd' hT =>
      cases hd.symm.trans hd'
      ext i
      exact exists_congr fun x => and_congr_right fun hx => by
        rw [ih x hx (h x) (hT x hx)]
    | _ => cases hd.symm.trans ‹_›
  | @intersection _ _ F hc _ ih =>
    obtain ⟨es, G, hsub, hes, hmem, hall⟩ :=
      hT.exists_first fun e' => hcd _ e' hc
    have hFG : ∀ x ∈ es, F x = G x := fun x hx => ih x (hsub hx) (h x) (hes x hx)
    ext i
    rw [hmem]
    refine and_congr_right fun hne => ⟨fun hi x hx => hFG x hx ▸ hi x (hsub hx),
      fun hi x hx => ?_⟩
    have hx' := hall ⟨i, (hmem i).mpr ⟨hne, hi⟩⟩ hx
    exact hFG x hx' ▸ hi x hx'
  | @disjoint _ _ fs _ hc _ hempty ih =>
    obtain ⟨es, G, _, hes, hmem, hall⟩ := hT.exists_first fun e' => hcd _ e' hc
    refine (Set.eq_empty_iff_forall_notMem.mpr fun i hi => ?_).symm
    -- the first classes have nothing in common, and even less have all
    obtain ⟨x, hx, hix⟩ := hempty i
    have hx' := hall ⟨i, hi⟩ (List.mem_append_left fs hx)
    exact hix (ih x hx (h x) (hes x hx') ▸ ((hmem i).mp hi).2 x hx')
  | unbounded hc hx =>
    have hd := hT.classify_eq (fun e' => hcd _ e' hc) (by simp)
    cases hT <;> cases hd.symm.trans ‹_› <;> simp_all
  | restriction hc hx hfiller =>
    have hd := hT.classify_eq (fun e' => hcd _ e' hc) (by simp)
    cases hT <;> cases hd.symm.trans ‹_› <;> simp_all
  | qualified hc hx hfiller _ ih =>
    have hd := hT.classify_eq (fun e' => hcd _ e' hc) (by simp)
    cases hT with
    | qualified hd' _ hfiller' hT =>
      cases hd.symm.trans hd'
      cases hfiller.symm.trans hfiller'
      rw [ih (h _) hT]
      rfl
    | _ => cases hd.symm.trans ‹_› <;> simp_all

/-- **A class has one meaning** at most. -/
theorem Denotes.unique (hS : r.Denotes c S) (hT : r.Denotes c T) : S = T := by
  have hsame : ∀ c e e', r.catalog.classify c = .ok e →
      r.catalog.classify c = .ok e' → e.Rearranges e' :=
    fun _ _ _ he he' => .inl (Except.ok.inj (he.symm.trans he'))
  exact hS.eq_of_rearranges hsame (hsame c) hT

end

end Reasoner

end Ontology
