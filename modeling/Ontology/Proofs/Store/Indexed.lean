/-
Indexes answer as the facts do.

* `Index.Shows`: the indexes have the individuals, their classes and notes, and the
  assertions, pairs and groups of some facts.
* `Index.contains_sameAs_iff` and its like: what the indexes have is what holds.
* `Index.isDifferent_eq`, `Index.opposes_eq`, `Index.mergeOpposes_eq`,
  `Index.equalMembers?_eq`: what coherent indexes find is what the facts give.
* `Index.Coherent.add`, `Index.Shows.add`: a new statement keeps indexes coherent.
* `Indexed.Sound`: an indexed store whose indexes are coherent and show its facts;
  `Sound.add`.
-/
import Ontology.Proofs.Store.Index
import Ontology.Store.Indexed

namespace Ontology

namespace Index

/-- The indexes have what some facts have: the individuals, their classes and notes, the
assertions, the pairs and the groups. -/
structure Shows (x : Index) (f : Facts) : Prop where
  individuals : x.individuals.toList = f.individuals
  typesOf : ∀ i, x.typesOf i = f.typesOf i
  contains_iff : ∀ a, x.contains a ↔ a ∈ f.assertions
  sameAs : x.sameAs.declared = f.sameAs
  differentFrom : x.differentFrom.declared = f.differentFrom
  groups : x.groups.groups = f.groups
  notesOf : ∀ i, x.notesOf i = (f.notesOf i).map fun n => (n.property, n.value)

variable {x : Index} {f : Facts} {a b : Individual} {t : Statement}

lemma shows_empty : Shows {} {} where
  individuals := rfl
  typesOf _ := rfl
  contains_iff := by
    rintro ⟨q, s, p, v⟩
    cases q <;> cases v <;> simp [contains, Polar.of]
  sameAs := rfl
  differentFrom := rfl
  groups := rfl
  notesOf _ := rfl

/-! ### Look-ups -/

section

variable (hx : x.Coherent) (hf : x.Shows f)

include hx hf

lemma mem_equals : b ∈ x.equals a ↔ b ∈ f.equals a := by
  rw [equals, hx.sameAs.mem_reach, hf.sameAs]
  rfl

lemma mem_others : b ∈ x.others a ↔ b ∈ f.others a := by
  simp only [others, List.mem_filter, mem_equals hx hf, Facts.others]

lemma isSame_eq : x.isSame a b = f.isSame a b := by
  rw [Bool.eq_iff_iff, isSame, List.contains_iff_mem, mem_equals hx hf, Facts.isSame_iff]

lemma mem_declaredDifferent : b ∈ x.declaredDifferent a ↔ b ∈ f.declaredDifferent a := by
  rw [declaredDifferent, List.mem_append, hx.differentFrom.mem_neighbours,
    hx.groups.mem_peers, hf.differentFrom, hf.groups, Edges.mem_both,
    Facts.mem_declaredDifferent, or_assoc]

lemma mem_different : b ∈ x.different a ↔ b ∈ f.different a := by
  simp only [different, Facts.different, List.mem_filter, hx.sameAs.mem_reach, hf.sameAs,
    Edges.mem_reach, List.mem_flatMap, mem_equals hx hf, mem_declaredDifferent hx hf]

lemma isDifferent_eq : x.isDifferent a b = f.isDifferent a b := by
  rw [Bool.eq_iff_iff, isDifferent, List.contains_iff_mem, mem_different hx hf,
    Facts.isDifferent_iff]

omit hx in
/-- A stated relation is found with its subject. -/
lemma exists_mem_objects_iff {p : Property} :
    (∃ objects, x.relations.positive.objects? a p = some objects ∧ b ∈ objects) ↔
      ⟨.positive, a, p, .node b⟩ ∈ f.assertions := by
  rw [← AssertionIndex.contains_iff_mem_objects, ← hf.contains_iff]
  rfl

omit hx in
lemma mem_successors {ps : List Property} : b ∈ x.successors ps a ↔ (a, b) ∈ f.links ps := by
  simp only [successors, List.mem_flatMap, List.mem_filterMap, ListSet.mem_toList,
    Facts.mem_links, ← exists_mem_objects_iff hf]
  grind

omit hx hf in
/-- Who has objects is one of the subjects. -/
lemma mem_sources_of_successors {ps : List Property} (h : b ∈ x.successors ps a) :
    a ∈ x.sources ps := by
  obtain ⟨objects, hobjects, -⟩ := List.mem_flatMap.mp h
  obtain ⟨p, hp, hobjects⟩ := List.mem_filterMap.mp hobjects
  refine List.mem_flatMap.mpr ⟨p, hp, ?_⟩
  exact List.mem_map.mpr ⟨_, AssertionIndex.mem_subjectsOf.mpr hobjects, rfl⟩

omit hx in
/-- Paths are found from object to object. -/
lemma mem_related {ps : List Property} : b ∈ x.related ps a ↔ b ∈ f.related ps a :=
  Edges.mem_reachable_iff_descendants (fun _ _ => mem_successors hf)
    fun _ _ => mem_sources_of_successors

/-! ### Recorded statements -/

omit hx in
lemma mem_members_types_iff {c : ClassName} :
    c ∈ x.types.members a ↔ f.holds (.instanceOf a c) := by
  rw [← ListSet.mem_toList, show (x.types.members a).toList = _ from hf.typesOf a,
    Facts.mem_typesOf]
  simp [Facts.holds]

omit hx in
lemma contains_iff_holds (y : Assertion) : x.contains y ↔ f.holds (.assertion y) := by
  rw [hf.contains_iff, Facts.holds_assertion_iff]

lemma contains_sameAs_iff : x.sameAs.contains a b ↔ f.holds (.sameAs a b) := by
  rw [Facts.holds_sameAs_iff, ← Edges.mem_both, ← hf.sameAs, hx.sameAs.contains_iff]

lemma contains_differentFrom_iff :
    x.differentFrom.contains a b ↔ f.holds (.differentFrom a b) := by
  rw [Facts.holds_differentFrom_iff, ← Edges.mem_both, ← hf.differentFrom,
    hx.differentFrom.contains_iff]

lemma contains_groups_iff (members : List Individual) :
    x.groups.contains members.eraseDups ↔ f.holds (.allDifferent members) := by
  rw [Facts.holds_allDifferent_iff, ← hf.groups,
    hx.groups.contains_iff (nodup_eraseDups members)]
  simp only [List.mem_eraseDups]

omit hx in
lemma mem_notesOf_iff (n : Note) :
    (n.property, n.value) ∈ x.notesOf n.subject ↔ f.holds (.note n) := by
  rw [hf.notesOf, List.mem_map]
  simp only [Facts.notesOf, List.mem_filter, Facts.holds, decide_eq_true_eq, Prod.mk.injEq]
  constructor
  · rintro ⟨⟨_, _, _⟩, ⟨hm, rfl⟩, rfl, rfl⟩
    exact hm
  · exact fun hn => ⟨n, ⟨hn, rfl⟩, rfl, rfl⟩

/-! ### Contradictions -/

/-- An index of relations finds the asserted ones. -/
lemma anyRelation_iff {q : Polarity} {p : Property} {subjects names : List Individual} :
    (!(x.relations.of q).isEmpty &&
        (x.relations.of q).anyAssertion p subjects names.contains) ↔
      ∃ s ∈ subjects, ∃ o ∈ names, ⟨q, s, p, .node o⟩ ∈ f.assertions := by
  rw [(hx.relations q).anyAssertion_iff]
  refine exists_congr fun s => and_congr_right fun _ => exists_congr fun o => ?_
  rw [List.contains_iff_mem, ← hf.contains_iff, and_comm]
  rfl

/-- An index of literals finds the asserted ones with the same value. -/
lemma anyValue_iff {q : Polarity} {p : Property} {subjects : List Individual}
    {l : Rdf.Literal} :
    (!(x.values.of q).isEmpty &&
        (x.values.of q).anyAssertion p subjects (·.sameValue l)) ↔
      ∃ s ∈ subjects, ∃ m, m.sameValue l ∧ ⟨q, s, p, .literal m⟩ ∈ f.assertions := by
  rw [(hx.values q).anyAssertion_iff]
  refine exists_congr fun s => and_congr_right fun _ => exists_congr fun m => ?_
  rw [← hf.contains_iff, and_comm]
  rfl

lemma opposes_eq (y : Assertion) : x.opposes y = f.opposes y := by
  obtain ⟨q, s, p, v⟩ := y
  rw [Bool.eq_iff_iff]
  cases v with
  | node o =>
    rw [Facts.opposes_node_iff]
    refine (anyRelation_iff hx hf).trans ?_
    simp only [mem_equals hx hf]
  | literal l =>
    rw [Facts.opposes_literal_iff]
    refine (anyValue_iff hx hf).trans ?_
    simp only [mem_equals hx hf]

lemma mem_equalsAfter {merged merged' : List Individual}
    (hmerged : ∀ i, i ∈ merged ↔ i ∈ merged') :
    b ∈ x.equalsAfter merged a ↔ b ∈ f.equalsAfter merged' a := by
  simp only [equalsAfter, Facts.equalsAfter, hmerged]
  split
  · exact hmerged b
  · exact mem_equals hx hf

lemma relationDeniedAfter_iff {merged : List Individual} :
    x.relationDeniedAfter merged ↔ ∃ s p o, ⟨.positive, s, p, .node o⟩ ∈ f.assertions ∧
      (s ∈ merged ∨ o ∈ merged) ∧
        ∃ s' ∈ x.equalsAfter merged s, ∃ o' ∈ x.equalsAfter merged o,
          ⟨.negative, s', p, .node o'⟩ ∈ f.assertions := by
  -- the test for an empty index can be made anew for each stated relation
  have hany : x.relationDeniedAfter merged ↔ ∃ s p o,
      (x.relations.of .positive).contains s p o ∧ (s ∈ merged ∨ o ∈ merged) ∧
        (!(x.relations.of .negative).isEmpty && (x.relations.of .negative).anyAssertion p
          (x.equalsAfter merged s) (x.equalsAfter merged o).contains) := by
    simp only [relationDeniedAfter, Polar.of, Bool.and_eq_true, List.any_eq_true,
      Prod.exists, AssertionIndex.mem_toList, Bool.or_eq_true, List.contains_iff_mem]
    exact ⟨fun ⟨hne, s, p, o, hstated, hmerged, hdenied⟩ =>
        ⟨s, p, o, hstated, hmerged, hne, hdenied⟩,
      fun ⟨s, p, o, hstated, hmerged, hne, hdenied⟩ =>
        ⟨hne, s, p, o, hstated, hmerged, hdenied⟩⟩
  rw [hany]
  refine exists_congr fun s => exists_congr fun p => exists_congr fun o => ?_
  rw [anyRelation_iff hx hf, ← hf.contains_iff]
  rfl

lemma valueDeniedAfter_iff {merged : List Individual} :
    x.valueDeniedAfter merged ↔ ∃ s p l, ⟨.positive, s, p, .literal l⟩ ∈ f.assertions ∧
      s ∈ merged ∧ ∃ s' ∈ merged, ∃ m, m.sameValue l ∧
        ⟨.negative, s', p, .literal m⟩ ∈ f.assertions := by
  have hany : x.valueDeniedAfter merged ↔ ∃ s p l,
      (x.values.of .positive).contains s p l ∧ s ∈ merged ∧
        (!(x.values.of .negative).isEmpty &&
          (x.values.of .negative).anyAssertion p merged (·.sameValue l)) := by
    simp only [valueDeniedAfter, Polar.of, Bool.and_eq_true, List.any_eq_true,
      Prod.exists, AssertionIndex.mem_toList, List.contains_iff_mem]
    exact ⟨fun ⟨hne, s, p, l, hstated, hmerged, hdenied⟩ =>
        ⟨s, p, l, hstated, hmerged, hne, hdenied⟩,
      fun ⟨s, p, l, hstated, hmerged, hne, hdenied⟩ =>
        ⟨hne, s, p, l, hstated, hmerged, hdenied⟩⟩
  rw [hany]
  refine exists_congr fun s => exists_congr fun p => exists_congr fun l => ?_
  rw [anyValue_iff hx hf, ← hf.contains_iff]
  rfl

omit hx hf in
lemma deniedAfter_node_iff {merged : List Individual} {q : Polarity} {s o : Individual}
    {p : Property} :
    f.deniedAfter merged ⟨q, s, p, .node o⟩ ↔ (s ∈ merged ∨ o ∈ merged) ∧
      ∃ s' ∈ f.equalsAfter merged s, ∃ o' ∈ f.equalsAfter merged o,
        ⟨.negative, s', p, .node o'⟩ ∈ f.assertions := by
  simp only [Facts.deniedAfter, Bool.and_eq_true, Bool.or_eq_true, List.contains_iff_mem,
    Facts.anyAssertion_iff, Facts.isAmong, Option.any_eq_true, Rdf.Term.node?_eq_some_iff]
  grind

omit hx hf in
lemma deniedAfter_literal_iff {merged : List Individual} {q : Polarity} {s : Individual}
    {p : Property} {l : Rdf.Literal} :
    f.deniedAfter merged ⟨q, s, p, .literal l⟩ ↔ s ∈ merged ∧
      ∃ s' ∈ merged, ∃ m, m.sameValue l ∧
        ⟨.negative, s', p, .literal m⟩ ∈ f.assertions := by
  simp only [Facts.deniedAfter, Bool.and_eq_true, List.contains_iff_mem,
    Facts.anyAssertion_iff, Facts.hasValueOf, Option.any_eq_true,
    Rdf.Term.literal?_eq_some_iff]
  grind

lemma mergeOpposes_eq : x.mergeOpposes a b = f.mergeOpposes a b := by
  have hmerged : ∀ i, i ∈ x.equals a ++ x.equals b ↔ i ∈ f.equals a ++ f.equals b :=
    fun i => by simp only [List.mem_append, mem_equals hx hf]
  rw [Bool.eq_iff_iff, Facts.mergeOpposes_iff, mergeOpposes, Bool.or_eq_true,
    relationDeniedAfter_iff hx hf, valueDeniedAfter_iff hx hf]
  simp only [mem_equalsAfter hx hf hmerged, hmerged]
  constructor
  · rintro (⟨s, p, o, hstated, hdenied⟩ | ⟨s, p, l, hstated, hdenied⟩)
    · exact ⟨_, hstated, rfl, deniedAfter_node_iff.mpr hdenied⟩
    · exact ⟨_, hstated, rfl, deniedAfter_literal_iff.mpr hdenied⟩
  · rintro ⟨⟨_, s, p, v⟩, hstated, rfl, hdenied⟩
    cases v with
    | node o => exact .inl ⟨s, p, o, hstated, deniedAfter_node_iff.mp hdenied⟩
    | literal l => exact .inr ⟨s, p, l, hstated, deniedAfter_literal_iff.mp hdenied⟩

lemma equalMembers?_eq (members : List Individual) :
    x.equalMembers? members = f.equalMembers? members := by
  have hothers (m : Individual) :
      members.filter (· ∈ x.others m) = members.filter (· ∈ f.others m) := by
    simp only [mem_others hx hf]
  unfold equalMembers? Facts.equalMembers?
  refine congrArg (List.findSome? · members) (funext fun m => ?_)
  cases hm : members.filter (· ∈ f.others m) <;> simp only [hothers, hm]

end

/-! ### New statements -/

section

variable (hx : x.Coherent) (hf : x.Shows f)

/-- Individuals become known where they are not. -/
lemma toList_foldl_insert (known : ListSet Individual) (is : List Individual) :
    (is.foldl .insert known).toList = is.foldl Facts.insertNew known.toList := by
  induction is generalizing known with
  | nil => rfl
  | cons i is ih => rw [List.foldl_cons, ih, ListSet.toList_insert]; rfl

include hf in
lemma Shows.declare (is : List Individual) : (x.declare is).Shows (f.declare is) :=
  { hf with
    individuals := by
      change (is.foldl ListSet.insert x.individuals).toList = _
      rw [toList_foldl_insert, hf.individuals]
      rfl }

/-- An insertion makes known what is inserted, and nothing else. -/
lemma contains_insert (y z : Assertion) :
    (x.insert y).contains z ↔ x.contains z ∨ z = y := by
  obtain ⟨q, s, p, v⟩ := y
  obtain ⟨r, s', p', w⟩ := z
  by_cases hr : r = q
  · subst hr
    cases v <;> cases w <;> simp [insert, contains]
  · cases v <;> cases w <;> simp [insert, contains, hr]

include hx in
lemma Coherent.insert (y : Assertion) : (x.insert y).Coherent := by
  obtain ⟨q, s, p, v⟩ := y
  cases v with
  | node o =>
    refine { hx with relations := fun r => ?_ }
    change ((x.relations.alter q (·.insert s p o)).of r).Coherent
    rw [Polar.of_alter]
    split
    · exact (hx.relations r).insert s p o
    · exact hx.relations r
  | literal l =>
    refine { hx with values := fun r => ?_ }
    change ((x.values.alter q (·.insert s p l)).of r).Coherent
    rw [Polar.of_alter]
    split
    · exact (hx.values r).insert s p l
    · exact hx.values r

include hf in
lemma Shows.insert (y : Assertion) : (x.insert y).Shows (f.record (.assertion y)) := by
  have hcontains (z : Assertion) : (x.insert y).contains z ↔ z ∈ f.assertions ++ [y] := by
    rw [contains_insert, hf.contains_iff, List.mem_append, List.mem_singleton]
  obtain ⟨q, s, p, v⟩ := y
  cases v <;> exact { hf with contains_iff := hcontains }

include hf in
/-- A new class of an individual follows its others. -/
lemma Shows.typesOf_addTo {c : ClassName} (hnew : c ∉ x.types.members a) (i : Individual) :
    ((x.types.addTo a c).members i).toList = (f.record (.instanceOf a c)).typesOf i := by
  have hold (j : Individual) : (x.types.members j).toList = f.typesOf j := hf.typesOf j
  rw [Table.members_addTo]
  simp only [Facts.record, Facts.typesOf, List.filter_append, List.map_append]
  split
  · next hi =>
    subst hi
    rw [ListSet.toList_insert, if_neg hnew, hold]
    simp [Facts.typesOf]
  · next hi => simp [hold, Facts.typesOf, Ne.symm hi]

/-- The notes of the subject grow by a further note. -/
lemma notesOf_pushNote (n : Note) (i : Individual) :
    (x.pushNote n).notesOf i =
      x.notesOf i ++ if i = n.subject then [(n.property, n.value)] else [] := by
  simp only [notesOf, pushNote, Table.get?_alter]
  split
  · next h => simp [h]
  · simp

/-- An empty entry says nothing. -/
lemma notesOf_openNotes (x : Index) (i j : Individual) :
    (x.openNotes i).notesOf j = x.notesOf j := by
  simp only [notesOf, openNotes, Table.get?_alter]
  split
  · next h => simp [h]
  · rfl

/-- Who has notes has an entry. -/
lemma openNotes_of_mem {i : Individual} {v : Property × Rdf.Term} (hv : v ∈ x.notesOf i) :
    x.openNotes i = x := by
  unfold notesOf at hv
  cases hi : x.notes.get? i with
  | none => simp [hi] at hv
  | some ns => rw [openNotes, Table.alter_eq_self hi rfl]

/-- A note that finds its entry is the note that makes it. -/
lemma pushNote_openNotes (x : Index) (n : Note) :
    (x.openNotes n.subject).pushNote n = x.pushNote n := by
  simp only [Index.pushNote, openNotes, Table.alter_alter, Option.getD_some]

include hx in
lemma Coherent.pushNote (n : Note) : (x.pushNote n).Coherent := by
  refine { hx with notes_ne := fun i ns hi => ?_ }
  rw [Index.pushNote, Table.get?_alter] at hi
  split at hi
  · obtain rfl := Option.some.inj hi
    simp
  · exact hx.notes_ne i ns hi

include hf in
lemma Shows.pushNote (n : Note) : (x.pushNote n).Shows (f.record (.note n)) := by
  refine { hf with notesOf := fun i => ?_ }
  rw [notesOf_pushNote, hf.notesOf]
  simp only [Facts.notesOf, Facts.record, List.filter_append, List.map_append]
  by_cases hi : i = n.subject
  · simp [hi]
  · simp [hi, Ne.symm hi]

include hx hf

/-- A statement that makes sense and is new keeps the indexes coherent. -/
lemma Coherent.add (hfault : t.fault? = none) (hnew : ¬ f.holds t) : (x.add t).Coherent := by
  suffices h : (x.record t).Coherent from { h with }
  cases t with
  | individual _ => exact hx
  | instanceOf i c => exact { hx with types_ne := Table.toList_ne_nil_addTo hx.types_ne }
  | assertion y => exact hx.insert y
  | sameAs a b =>
    have hne : a ≠ b := by simpa [Statement.fault?] using hfault
    exact { hx with sameAs := hx.sameAs.insert hne }
  | differentFrom a b =>
    have hne : a ≠ b := by simpa [Statement.fault?] using hfault
    exact { hx with differentFrom := hx.differentFrom.insert hne }
  | allDifferent members =>
    rw [Facts.holds_allDifferent_iff] at hnew
    have hne : members ≠ [] := by simpa [Statement.fault?] using hfault
    refine { hx with
      groups := hx.groups.push (eraseDups_ne_nil hne) (nodup_eraseDups members) ?_ }
    simpa only [List.mem_eraseDups, hf.groups] using hnew
  | note n => exact hx.pushNote n

/-- A new statement is entered where it is recorded. -/
lemma Shows.add (hnew : ¬ f.holds t) : (x.add t).Shows (f.add t) := by
  refine Shows.declare ?_ t.individuals
  cases t with
  | individual _ => exact hf
  | instanceOf i c =>
    exact { hf with typesOf := hf.typesOf_addTo ((mem_members_types_iff hf).not.mpr hnew) }
  | assertion y => exact hf.insert y
  | sameAs a b =>
    rw [Facts.holds_sameAs_iff, ← Edges.mem_both, ← hf.sameAs] at hnew
    exact { hf with sameAs := (hx.sameAs.declared_insert hnew).trans (by rw [hf.sameAs]; rfl) }
  | differentFrom a b =>
    rw [Facts.holds_differentFrom_iff, ← Edges.mem_both, ← hf.differentFrom] at hnew
    exact { hf with
      differentFrom :=
        (hx.differentFrom.declared_insert hnew).trans (by rw [hf.differentFrom]; rfl) }
  | allDifferent members =>
    exact { hf with groups := congrArg (· ++ [members.eraseDups]) hf.groups }
  | note n => exact hf.pushNote n

end

end Index

/-! ### Stores -/

namespace Indexed

/-- The indexes are coherent and show the facts. -/
structure Sound (s : Indexed) : Prop where
  coherent : s.index.Coherent
  shows : s.index.Shows s.facts

/-- The store with a statement entered. -/
def add (s : Indexed) (t : Statement) : Indexed :=
  { s with facts := s.facts.add t, index := s.index.add t }

namespace Sound

variable {s : Indexed} {t : Statement}

lemma empty (config : Config) : Sound { config } where
  coherent := Index.coherent_empty
  shows := Index.shows_empty

/-- A store stays sound when a statement that makes sense and is new is entered. -/
lemma add (h : s.Sound) (hfault : t.fault? = none) (hnew : ¬ s.facts.holds t) :
    (s.add t).Sound where
  coherent := h.coherent.add h.shows hfault hnew
  shows := h.shows.add h.coherent hnew

end Sound

end Indexed

end Ontology
