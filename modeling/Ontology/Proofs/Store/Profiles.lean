/-
What the profiles of all individuals show together.

* `mem_map_select_subject`, `nodup_incoming`: the look-ups of which a profile is made, by
  subject and by object; where no assertion is repeated, nothing is found twice.
* `Profile.shown`: the assertions about an individual as their subject, as its profile
  shows them; `count_shown`: each is shown once, and by no other profile.
* `Facts.ProfilesExact`: profiles show what is known, once and where it belongs, and
  both ends of a relation, of an equality and of a difference show it.
* `Facts.profilesExact`: the profiles that look through all facts are exact.
* `Profile.Alike`: profiles that show the same in whatever order;
  `Indexed.Sound.profile_alike`: those that are looked up in indexes show this as well.
* `Indexed.run_profiles_exact`: **the profiles of a store are exact**.
-/
import Ontology.Proofs.Store.Equality
import Ontology.Proofs.Store.Reached
import Ontology.Proofs.Store.Updates

namespace Ontology

namespace Facts

variable {f : Facts} {q : Polarity} {k : PropertyKind} {i s o : Individual} {p : Property}
  {v : Rdf.Term} {a : Assertion}

/-! ### Look-ups -/

lemma mem_index : a ∈ f.index q k ↔ a ∈ f.assertions ∧ a.polarity = q ∧ a.kind = k := by
  simp [index]

lemma mem_select_subject :
    a ∈ f.select q k { subject := some i } ↔ a ∈ f.index q k ∧ a.subject = i := by
  simp [select, Assertion.fits, eq_comm]

lemma mem_select_object :
    a ∈ f.select q k { object := some v } ↔ a ∈ f.index q k ∧ a.object = v := by
  simp [select, Assertion.fits, eq_comm]

lemma nodup_select (hf : f.assertions.Nodup) (pattern : Pattern) :
    (f.select q k pattern).Nodup :=
  (hf.filter _).filter _

/-- The properties of a subject with their values are those asserted of it. -/
lemma mem_map_select_subject :
    (p, v) ∈ (f.select q k { subject := some i }).map (fun a => (a.property, a.object)) ↔
      ⟨q, i, p, v⟩ ∈ f.index q k := by
  simp only [List.mem_map, mem_select_subject, Prod.mk.injEq]
  constructor
  · rintro ⟨a, ⟨ha, rfl⟩, rfl, rfl⟩
    obtain rfl := (mem_index.mp ha).2.1
    exact ha
  · exact fun h => ⟨_, ⟨h, rfl⟩, rfl, rfl⟩

/-- Assertions of one polarity with one subject differ in the property or in the
value. -/
lemma nodup_map_select_subject (hf : f.assertions.Nodup) :
    ((f.select q k { subject := some i }).map fun a => (a.property, a.object)).Nodup := by
  refine (nodup_select hf _).map_on fun a ha b hb hab => ?_
  obtain ⟨hindex, hsubject⟩ := mem_select_subject.mp ha
  obtain ⟨hindex', hsubject'⟩ := mem_select_subject.mp hb
  obtain ⟨hproperty, hobject⟩ := Prod.mk.inj hab
  have hpolarity := (mem_index.mp hindex).2.1.trans (mem_index.mp hindex').2.1.symm
  cases a
  cases b
  simp_all

/-- Relations with one value differ in the subject or in the property. -/
lemma nodup_incoming (hf : f.assertions.Nodup) : (f.profile o).incoming.Nodup := by
  refine (nodup_select hf _).map_on fun a ha b hb hab => ?_
  obtain ⟨hindex, hobject⟩ := mem_select_object.mp ha
  obtain ⟨hindex', hobject'⟩ := mem_select_object.mp hb
  obtain ⟨hsubject, hproperty⟩ := Prod.mk.inj hab
  have hpolarity := (mem_index.mp hindex).2.1.trans (mem_index.mp hindex').2.1.symm
  cases a
  cases b
  simp_all

end Facts

/-! ### Assertions about one subject -/

/-- The assertions that a profile shows of its individual as their subject. -/
def Profile.shown (x : Profile) : List Assertion :=
  (x.outgoing ++ x.literals).map (fun e => ⟨.positive, x.individual, e.1, e.2⟩) ++ x.denials

namespace Facts

variable {f : Facts} {q : Polarity} {k : PropertyKind} {i s o : Individual} {p : Property}
  {v : Rdf.Term} {a : Assertion}

/-- The assertions of a subject are put together again from properties and values. -/
lemma map_map_select_subject (f : Facts) (k : PropertyKind) (i : Individual) :
    (((f.select .positive k { subject := some i }).map fun a => (a.property, a.object)).map
      fun e => (⟨.positive, i, e.1, e.2⟩ : Assertion)) =
        f.select .positive k { subject := some i } := by
  rw [List.map_map]
  refine (List.map_congr_left fun a ha => ?_).trans (List.map_id _)
  obtain ⟨hindex, rfl⟩ := mem_select_subject.mp ha
  rw [Function.comp_apply, ← (mem_index.mp hindex).2.1, id_eq]

/-- A profile shows the assertions about its individual, one kind after the other. -/
lemma shown_eq (f : Facts) (i : Individual) :
    (f.profile i).shown =
      f.select .positive .object { subject := some i } ++
        f.select .positive .datatype { subject := some i } ++
        (f.select .negative .object { subject := some i } ++
          f.select .negative .datatype { subject := some i }) := by
  rw [← map_map_select_subject f .object i, ← map_map_select_subject f .datatype i,
    ← List.map_append]
  rfl

/-- The denials of a profile are those about its individual. -/
lemma count_denials (hf : f.assertions.Nodup) :
    (f.profile i).denials.count a =
      if a ∈ f.assertions ∧ a.polarity = .negative ∧ a.subject = i then 1 else 0 := by
  rw [profile, List.count_append, (nodup_select hf _).count, (nodup_select hf _).count]
  simp only [mem_select_subject, mem_index]
  cases hkind : a.kind <;> simp [and_assoc]

/-- Each assertion is shown once, by the profile of its subject and by no other. -/
lemma count_shown (hf : f.assertions.Nodup) :
    (f.profile i).shown.count a = if a ∈ f.assertions ∧ a.subject = i then 1 else 0 := by
  rw [shown_eq, List.count_append, List.count_append, List.count_append]
  simp only [(nodup_select hf _).count, mem_select_subject, mem_index]
  cases hpolarity : a.polarity <;> cases hkind : a.kind <;> simp

lemma mem_shown (hf : f.assertions.Nodup) :
    a ∈ (f.profile i).shown ↔ a ∈ f.assertions ∧ a.subject = i := by
  rw [← List.count_pos_iff, count_shown hf]
  split <;> simp_all

lemma nodup_shown (hf : f.assertions.Nodup) : (f.profile i).shown.Nodup := by
  refine List.nodup_iff_count_le_one.mpr fun a => ?_
  rw [count_shown hf]
  split <;> simp

/-- The profiles of all individuals together show every assertion once. -/
lemma flatMap_shown_perm (hf : f.Unrepeated) (hdeclares : f.Declares) :
    (f.individuals.flatMap fun i => (f.profile i).shown).Perm f.assertions := by
  have hnodup : (f.individuals.flatMap fun i => (f.profile i).shown).Nodup := by
    refine List.nodup_flatMap.mpr ⟨fun i _ => nodup_shown hf.assertions, ?_⟩
    refine hf.individuals.imp fun {i j} hne a hi hj => hne ?_
    exact ((mem_shown hf.assertions).mp hi).2.symm.trans ((mem_shown hf.assertions).mp hj).2
  refine (List.perm_ext_iff_of_nodup hnodup hf.assertions).mpr fun a => ?_
  simp only [List.mem_flatMap, mem_shown hf.assertions]
  refine ⟨fun ⟨_, _, ha, _⟩ => ha, fun ha => ⟨a.subject, ?_, ha, rfl⟩⟩
  exact hdeclares (.assertion a) (holds_assertion_iff.mpr ha) a.subject
    (by simp [Statement.individuals, Assertion.individuals])

/-! ### All profiles -/

/-- **Profiles are exact**: every fact is shown once where it belongs, and what is shown
is a fact. A relation is shown by its subject as outgoing and by its value as incoming;
a statement about a literal and a denial are shown by their subject alone. Equality and
difference are shown by both individuals. -/
structure ProfilesExact (f : Facts) (profile : Individual → Profile) : Prop where
  outgoing_iff_incoming : ∀ s p o,
    (p, .node o) ∈ (profile s).outgoing ↔ (s, p) ∈ (profile o).incoming
  count_outgoing : ∀ s p o, (profile s).outgoing.count (p, .node o) =
    if ⟨.positive, s, p, .node o⟩ ∈ f.assertions then 1 else 0
  count_incoming : ∀ s p o, (profile o).incoming.count (s, p) =
    if ⟨.positive, s, p, .node o⟩ ∈ f.assertions then 1 else 0
  count_literals : ∀ s p l, (profile s).literals.count (p, .literal l) =
    if ⟨.positive, s, p, .literal l⟩ ∈ f.assertions then 1 else 0
  count_denials : ∀ i a, (profile i).denials.count a =
    if a ∈ f.assertions ∧ a.polarity = .negative ∧ a.subject = i then 1 else 0
  /-- Every assertion is shown by the profile of its subject, and by no other. -/
  count_shown : ∀ i a, (profile i).shown.count a =
    if a ∈ f.assertions ∧ a.subject = i then 1 else 0
  /-- All known individuals together show all assertions. -/
  together : (f.individuals.flatMap fun i => (profile i).shown).Perm f.assertions
  count_sameAs : ∀ a b, (profile a).sameAs.count b =
    if b ≠ a ∧ f.isSame a b then 1 else 0
  sameAs_symm : ∀ a b, b ∈ (profile a).sameAs ↔ a ∈ (profile b).sameAs
  count_differentFrom : ∀ a b, (profile a).differentFrom.count b =
    if f.isDifferent a b then 1 else 0
  differentFrom_symm : ∀ a b,
    b ∈ (profile a).differentFrom ↔ a ∈ (profile b).differentFrom
  count_types : ∀ i c, (profile i).types.count c = if (i, c) ∈ f.types then 1 else 0
  count_notes : ∀ i n, (profile i).notes.count n =
    if n ∈ f.notes ∧ n.subject = i then 1 else 0

lemma nodup_typesOf (hf : f.types.Nodup) (i : Individual) : (f.typesOf i).Nodup := by
  refine (hf.filter _).map_on fun t ht u hu htu => Prod.ext ?_ htu
  have ht := (List.mem_filter.mp ht).2
  have hu := (List.mem_filter.mp hu).2
  simp only [decide_eq_true_eq] at ht hu
  rw [ht, hu]

/-- Where nothing is repeated and individuals are known, the profiles that look through
all facts are exact. -/
lemma profilesExact (hf : f.Unrepeated) (hdeclares : f.Declares) :
    f.ProfilesExact f.profile where
  outgoing_iff_incoming _ _ _ := mem_outgoing_iff.trans mem_incoming_iff.symm
  count_outgoing s p o := by
    simp only [← mem_outgoing_iff]
    exact (nodup_map_select_subject hf.assertions).count
  count_incoming s p o := by
    simp only [← mem_incoming_iff]
    exact (nodup_incoming hf.assertions).count
  count_literals s p l := by
    have hindex : ⟨.positive, s, p, .literal l⟩ ∈ f.index .positive .datatype ↔
        ⟨.positive, s, p, .literal l⟩ ∈ f.assertions :=
      mem_index.trans (and_iff_left ⟨rfl, rfl⟩)
    simp only [← hindex, ← mem_map_select_subject]
    exact (nodup_map_select_subject hf.assertions).count
  count_denials _ _ := Facts.count_denials hf.assertions
  count_shown _ _ := Facts.count_shown hf.assertions
  together := flatMap_shown_perm hf hdeclares
  count_sameAs a b := by
    have hnodup : (f.others a).Nodup := nodup_equals.filter _
    simp only [isSame_iff, ← mem_others]
    exact hnodup.count
  sameAs_symm a b := by
    simp only [profile, mem_others]
    rw [ne_comm, mem_equals_comm]
  count_differentFrom a b := by
    simp only [isDifferent_iff]
    exact nodup_different.count
  differentFrom_symm a b := by
    simp only [profile, ← isDifferent_iff, isDifferent_iff_apart]
    rw [ne_comm, apart_comm]
  count_types i c := by
    simp only [← mem_typesOf]
    exact (nodup_typesOf hf.types i).count
  count_notes i n := by
    rw [show (f.profile i).notes = f.notes.filter fun n => n.subject = i from rfl,
      (hf.notes.filter _).count]
    simp

end Facts

/-! ### Profiles that show the same -/

/-- Two profiles of one individual show the same, in whatever order. -/
structure Profile.Alike (x y : Profile) : Prop where
  individual : x.individual = y.individual
  types : x.types.Perm y.types
  sameAs : x.sameAs.Perm y.sameAs
  differentFrom : x.differentFrom.Perm y.differentFrom
  outgoing : x.outgoing.Perm y.outgoing
  incoming : x.incoming.Perm y.incoming
  literals : x.literals.Perm y.literals
  denials : x.denials.Perm y.denials
  notes : x.notes.Perm y.notes

lemma Profile.Alike.shown {x y : Profile} (h : x.Alike y) : x.shown.Perm y.shown := by
  rw [Profile.shown, Profile.shown, h.individual]
  exact ((h.outgoing.append h.literals).map _).append h.denials

/-- Exactness does not depend on the order. -/
lemma Facts.ProfilesExact.of_alike {f : Facts} {profile profile' : Individual → Profile}
    (h : f.ProfilesExact profile) (halike : ∀ i, (profile' i).Alike (profile i)) :
    f.ProfilesExact profile' where
  outgoing_iff_incoming s p o := by
    rw [(halike s).outgoing.mem_iff, (halike o).incoming.mem_iff,
      h.outgoing_iff_incoming]
  count_outgoing s p o := ((halike s).outgoing.count_eq _).trans (h.count_outgoing s p o)
  count_incoming s p o := ((halike o).incoming.count_eq _).trans (h.count_incoming s p o)
  count_literals s p l := ((halike s).literals.count_eq _).trans (h.count_literals s p l)
  count_denials i a := ((halike i).denials.count_eq _).trans (h.count_denials i a)
  count_shown i a := ((halike i).shown.count_eq _).trans (h.count_shown i a)
  together := (List.Perm.flatMap_left _ fun i _ => (halike i).shown).trans h.together
  count_sameAs a b := ((halike a).sameAs.count_eq _).trans (h.count_sameAs a b)
  sameAs_symm a b := by
    rw [(halike a).sameAs.mem_iff, (halike b).sameAs.mem_iff, h.sameAs_symm]
  count_differentFrom a b :=
    ((halike a).differentFrom.count_eq _).trans (h.count_differentFrom a b)
  differentFrom_symm a b := by
    rw [(halike a).differentFrom.mem_iff, (halike b).differentFrom.mem_iff,
      h.differentFrom_symm]
  count_types i c := ((halike i).types.count_eq _).trans (h.count_types i c)
  count_notes i n := ((halike i).notes.count_eq _).trans (h.count_notes i n)

/-! ### Profiles by indexes -/

/-- What an index selects is what is selected among all assertions, if it has the
assertions of one polarity and one kind of object. -/
lemma AssertionIndex.select_perm {ω : Type} [DecidableEq ω] {x : AssertionIndex ω}
    {f : Facts} {q : Polarity} {k : PropertyKind} {term : ω → Rdf.Term}
    (hterm : term.Injective) (hkind : ∀ a : Assertion, a.kind = k ↔ ∃ o, a.object = term o)
    (hx : ∀ s p o, x.contains s p o ↔ ⟨q, s, p, term o⟩ ∈ f.assertions)
    (hf : f.assertions.Nodup) (subject : Option Individual) (property : Option Property)
    (object : Option ω) :
    ((x.select subject property object).map
      fun e => (⟨q, e.1, e.2.1, term e.2.2⟩ : Assertion)).Perm
        (f.select q k ⟨subject, property, object.map term⟩) := by
  have hobject (o : ω) : (object.map term).all (· = term o) ↔ object.all (· = o) := by
    cases object <;> simp [hterm.eq_iff]
  refine (List.perm_ext_iff_of_nodup ?_ (Facts.nodup_select hf _)).mpr fun a => ?_
  · refine (x.nodup_select ..).map fun e e' h => ?_
    obtain ⟨-, hs, hp, ho⟩ := Assertion.mk.inj h
    exact Prod.ext hs (Prod.ext hp (hterm ho))
  · simp only [Facts.mem_select, List.mem_map, Prod.exists, mem_select, hx, Assertion.fits,
      Bool.and_eq_true]
    constructor
    · rintro ⟨s, p, o, ⟨ha, hs, hp, ho⟩, rfl⟩
      exact ⟨ha, rfl, (hkind _).mpr ⟨o, rfl⟩, ⟨hs, hp⟩, (hobject o).mpr ho⟩
    · rintro ⟨ha, rfl, hk, ⟨hs, hp⟩, ho⟩
      obtain ⟨o, hterm⟩ := (hkind a).mp hk
      rw [hterm] at ho
      exact ⟨a.subject, a.property, o, ⟨hterm ▸ ha, hs, hp, (hobject o).mp ho⟩,
        by rw [← hterm]⟩

namespace Index

variable {x : Index} {f : Facts}

lemma Shows.select_relations_perm (hx : x.Shows f) (hf : f.assertions.Nodup) (q : Polarity)
    (subject object : Option Individual) :
    (((x.relations.of q).select subject none object).map
      fun e => (⟨q, e.1, e.2.1, .node e.2.2⟩ : Assertion)).Perm
        (f.select q .object ⟨subject, none, object.map .node⟩) := by
  have hcontains (s : Individual) (p : Property) (o : Individual) :
      (x.relations.of q).contains s p o ↔ ⟨q, s, p, .node o⟩ ∈ f.assertions :=
    hx.contains_iff ⟨q, s, p, .node o⟩
  refine AssertionIndex.select_perm (fun _ _ => Rdf.Term.node.inj) (fun a => ?_)
    hcontains hf subject none object
  cases h : a.object <;> simp [Assertion.kind, h]

lemma Shows.select_values_perm (hx : x.Shows f) (hf : f.assertions.Nodup) (q : Polarity)
    (subject : Option Individual) :
    (((x.values.of q).select subject none none).map
      fun e => (⟨q, e.1, e.2.1, .literal e.2.2⟩ : Assertion)).Perm
        (f.select q .datatype ⟨subject, none, none⟩) := by
  have hcontains (s : Individual) (p : Property) (l : Rdf.Literal) :
      (x.values.of q).contains s p l ↔ ⟨q, s, p, .literal l⟩ ∈ f.assertions :=
    hx.contains_iff ⟨q, s, p, .literal l⟩
  refine AssertionIndex.select_perm (fun _ _ => Rdf.Term.literal.inj) (fun a => ?_)
    hcontains hf subject none none
  cases h : a.object <;> simp [Assertion.kind, h]

end Index

/-- Indexes show of an individual what is found among all facts. -/
lemma Indexed.Sound.profile_alike {s : Indexed} (h : s.Sound) (hf : s.facts.assertions.Nodup)
    (i : Individual) : (s.profile i).Alike (s.facts.profile i) where
  individual := rfl
  types := .of_eq (h.shows.typesOf i)
  sameAs := by
    refine (List.perm_ext_iff_of_nodup ?_ (Facts.nodup_equals.filter _)).mpr fun b => ?_
    · exact (nodup_reachable ..).filter _
    · exact Index.mem_others h.coherent h.shows
  differentFrom := by
    refine (List.perm_ext_iff_of_nodup ?_ Facts.nodup_different).mpr fun b => ?_
    · exact (nodup_reachable ..).filter _
    · exact Index.mem_different h.coherent h.shows
  outgoing := by
    have := (h.shows.select_relations_perm hf .positive (some i) none).map
      fun a => (a.property, a.object)
    rwa [List.map_map] at this
  incoming := by
    have := (h.shows.select_relations_perm hf .positive none (some i)).map
      fun a => (a.subject, a.property)
    rwa [List.map_map] at this
  literals := by
    have := (h.shows.select_values_perm hf .positive (some i)).map
      fun a => (a.property, a.object)
    rwa [List.map_map] at this
  denials :=
    (h.shows.select_relations_perm hf .negative (some i) none).append
      (h.shows.select_values_perm hf .negative (some i))
  notes := by
    refine .of_eq ?_
    change (s.index.notesOf i).map _ = s.facts.notesOf i
    rw [h.shows.notesOf, List.map_map]
    refine (List.map_congr_left fun n hn => ?_).trans (List.map_id _)
    rw [← of_decide_eq_true (List.mem_filter.mp hn).2]
    rfl

/-- **The profiles of a store are exact**, after every run: taken together they show
every fact once and where it belongs, and nothing else, and both ends of a relation, of
an equality and of a difference show it. -/
theorem Indexed.run_profiles_exact (config : Config) (cs : List Command) :
    (run { config } cs).facts.ProfilesExact (run { config } cs).profile := by
  obtain ⟨hsound, hstore⟩ := (Sound.empty config).run cs
  have hfacts : (run { config } cs).facts = (Store.run { config } cs).facts :=
    congrArg Store.facts hstore
  have hunrepeated := Store.run_unrepeated config cs
  have hexact := Facts.profilesExact hunrepeated (Facts.Reached.declares ⟨config, cs, rfl⟩)
  rw [← hfacts] at hexact hunrepeated
  exact hexact.of_alike (hsound.profile_alike hunrepeated.assertions)

-- who admires himself is shown at both ends of the relation
example :
    let byron : Individual := .iri ⟨"e:byron"⟩
    let admires : Property := ⟨"e:admires"⟩
    let s := Indexed.run {} [.tell (.assertion ⟨.positive, byron, admires, .node byron⟩)]
    (s.profile byron).outgoing = [(admires, .node byron)] ∧
      (s.profile byron).incoming = [(byron, admires)] := by
  decide

end Ontology
