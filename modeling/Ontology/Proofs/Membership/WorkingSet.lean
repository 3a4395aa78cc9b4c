/-
Working sets hold the values of roles.

* `Index.mem_rows`, `Index.mem_converse`: the indexes of assertions list what is stated.
* `WorkingSet.mem_addForward`, `mem_addBackward`: the values of a property, in both
  directions; `Reasoner.mem_workingSet`: those of a role.
* `Reasoner.mem_select_iff`: restrictions have the same members by a working set.
* `Indexed.run_values`: **roles are read from the indexes**, after every run.
-/
import Ontology.Membership.WorkingSet
import Ontology.Proofs.Store.Updates

namespace Ontology

/-- What the entries of a table hold are the members of its sets. -/
lemma Table.exists_mem_entries_iff {κ α : Type} [DecidableEq κ]
    {t : Table κ (ListSet α)} {k : κ} {a : α} :
    (∃ s, (k, s) ∈ t.entries ∧ a ∈ s) ↔ a ∈ t.members k := by
  simp only [mem_entries, mem_members]

/-! ### Stated values -/

namespace Index

variable {x : Index} {f : Facts} {i o : Individual} {p : Property} {v : Rdf.Term}
  {ps : List Property}

/-- The objects that an index lists with their subjects, in rows of terms. -/
lemma exists_mem_map_subjectsOf {ω : Type} [DecidableEq ω] {y : AssertionIndex ω}
    {g : ω → Rdf.Term} :
    (∃ vs, (i, vs) ∈ (y.subjectsOf p).map (fun e => (e.1, e.2.toList.map g)) ∧ v ∈ vs) ↔
      ∃ o, y.contains i p o ∧ v = g o := by
  simp only [AssertionIndex.contains_iff_mem_objects, ← AssertionIndex.mem_subjectsOf,
    List.mem_map, Prod.mk.injEq]
  constructor
  · rintro ⟨_, ⟨⟨_, objects⟩, hobjects, rfl, rfl⟩, hv⟩
    obtain ⟨o, ho, rfl⟩ := List.mem_map.mp hv
    exact ⟨o, ⟨objects, hobjects, ho⟩, rfl⟩
  · rintro ⟨o, ⟨objects, hobjects, ho⟩, rfl⟩
    exact ⟨_, ⟨_, hobjects, rfl, rfl⟩, List.mem_map_of_mem ho⟩

section

variable (hf : x.Shows f)

include hf

/-- The rows of a property are what is stated of it. -/
lemma mem_rows : (∃ vs, (i, vs) ∈ x.rows p ∧ v ∈ vs) ↔
    ⟨.positive, i, p, v⟩ ∈ f.assertions := by
  simp only [rows, List.mem_append, or_and_right, exists_or, exists_mem_map_subjectsOf,
    ← hf.contains_iff]
  cases v with
  | node o => simp [contains, Polar.of]
  | literal l => simp [contains, Polar.of]

/-- The converse of some properties is what is stated of them, backwards. -/
lemma mem_converse : i ∈ (x.converse ps).members o ↔ (i, o) ∈ f.links ps := by
  simp only [converse, Table.mem_members_extendAll, Table.members_empty,
    ListSet.not_mem_empty, false_or, List.mem_flatMap, List.mem_map, Facts.mem_links,
    ← exists_mem_objects_iff hf, ← AssertionIndex.mem_subjectsOf]
  grind [ListSet.mem_toList]

end

end Index

/-! ### Values of properties -/

namespace WorkingSet

variable {r : Reasoner} {x : Index} {w : WorkingSet} {i : Individual} {v : Rdf.Term}
  {p : Property}

/-- Individuals as values, in rows. -/
lemma exists_mem_map_node {is : List Individual} {ends : Individual → List Individual} :
    (∃ vs, (i, vs) ∈ is.map (fun j => (j, (ends j).map .node)) ∧ v ∈ vs) ↔
      i ∈ is ∧ ∃ o, v = .node o ∧ o ∈ ends i := by
  simp only [List.mem_map, Prod.mk.injEq]
  grind

variable (hf : x.Shows r.facts)

include hf

/-- The values of a property are added. -/
lemma mem_addForward :
    v ∈ (w.addForward r x p).members i ↔ v ∈ w.members i ∨ (i, v) ∈ r.forward p := by
  have hpaths (ts : List Property) :
      (i ∈ (x.sources ts).eraseDups ∧ ∃ o, v = .node o ∧ o ∈ x.related ts i) ↔
        ∃ o, v = .node o ∧ (i, o) ∈ (r.facts.links ts).closure := by
    simp only [List.mem_eraseDups, Edges.mem_closure, Index.mem_related hf]
    refine and_iff_right_of_imp fun ⟨o, _, ho⟩ => ?_
    obtain ⟨c, hc⟩ := Edges.exists_mem_of_mem_descendants ho
    exact Index.mem_sources_of_successors ((Index.mem_successors hf).mpr hc)
  have hstated (ps : List Property) :
      (∃ vs, (i, vs) ∈ ps.flatMap x.rows ∧ v ∈ vs) ↔ (i, v) ∈ r.stated ps := by
    simp only [Reasoner.mem_stated, ← Index.mem_rows hf, List.mem_flatMap]
    grind
  simp only [addForward, Reasoner.forward, Table.mem_members_extendAll, exists_mem_map_node,
    hpaths, hstated, List.mem_append, Links.mem_ofEdges, or_assoc]

/-- The values of a property read backwards are added. -/
lemma mem_addBackward :
    v ∈ (w.addBackward r x p).members i ↔ v ∈ w.members i ∨ (i, v) ∈ r.backward p := by
  have hconverse (ps : List Property) (j k : Individual) :
      k ∈ (x.converse ps).members j ↔ (j, k) ∈ (r.facts.links ps).flip := by
    rw [Index.mem_converse hf, Edges.mem_flip]
  have hends (ts : List Property) (o : Individual) :
      o ∈ reachable (x.converse ts).keys (fun j => ((x.converse ts).members j).toList)
        ((x.converse ts).members i).toList ↔
          (i, o) ∈ (r.facts.links ts).flip.closure :=
    (Edges.mem_reachable_iff_descendants (hconverse ts)
      fun _ _ => Table.mem_keys_of_mem_members).trans Edges.mem_closure.symm
  have hpaths (ts : List Property) :
      (i ∈ (x.converse ts).keys ∧
        ∃ o, v = .node o ∧ (i, o) ∈ (r.facts.links ts).flip.closure) ↔
          ∃ o, v = .node o ∧ (i, o) ∈ (r.facts.links ts).flip.closure := by
    refine and_iff_right_of_imp fun ⟨o, _, ho⟩ => ?_
    obtain ⟨c, hc⟩ := Edges.exists_mem_of_mem_descendants (Edges.mem_closure.mp ho)
    exact Table.mem_keys_of_mem_members ((hconverse ts i c).mpr hc)
  have hstated (ps : List Property) :
      (∃ vs, (i, vs) ∈ (x.converse ps).entries.map (fun e => (e.1, e.2.toList.map .node)) ∧
        v ∈ vs) ↔ ∃ o, v = .node o ∧ (i, o) ∈ (r.facts.links ps).flip := by
    simp only [← hconverse, ← Table.exists_mem_entries_iff, List.mem_map, Prod.mk.injEq]
    grind [ListSet.mem_toList]
  simp only [addBackward, Reasoner.backward, Table.mem_members_extendAll,
    exists_mem_map_node, hends, hpaths, hstated, List.mem_append, Links.mem_ofEdges, or_assoc]

/-- The values of several properties are added one after the other. -/
lemma mem_foldl_addForward {ps : List Property} :
    v ∈ (ps.foldl (addForward r x) w).members i ↔
      v ∈ w.members i ∨ (i, v) ∈ ps.flatMap r.forward := by
  induction ps generalizing w with
  | nil => simp
  | cons p ps ih =>
    rw [List.foldl_cons, ih, mem_addForward hf, List.flatMap_cons, List.mem_append, or_assoc]

end WorkingSet

/-! ### Values of roles -/

namespace Reasoner

variable {r : Reasoner} {x : Index} {i : Individual} {v : Rdf.Term} {role : Role}
  {c : Restriction} {filler : Filler}

/-- **A working set** holds the values of its role. -/
theorem mem_workingSet (hf : x.Shows r.facts) :
    v ∈ (r.workingSet x role).members i ↔ (i, v) ∈ r.roleLinks role := by
  cases role with
  | direct p =>
    rw [workingSet, WorkingSet.mem_addForward hf]
    simp [roleLinks]
  | inverse p =>
    rw [workingSet, WorkingSet.mem_addBackward hf, WorkingSet.mem_foldl_addForward hf]
    simp [roleLinks]

/-- The order of the values does not matter to a constraint. -/
lemma satisfies_perm {vs ws : List Rdf.Term} (h : vs.Perm ws) (k : Constraint) :
    r.satisfies filler i vs k = r.satisfies filler i ws k := by
  cases k with
  | count k on => simp only [satisfies, Count.ofLength, (h.filter _).length_eq]
  | allValuesFrom d => simp only [satisfies, h.isEmpty_eq, h.all_eq]
  | someValuesFrom d => exact h.any_eq
  | hasValue u => exact h.any_eq
  | hasSelf self => simp only [satisfies, h.isEmpty_eq, h.contains_eq]

/-- Without values an individual satisfies no constraint but a count. -/
lemma not_satisfies_nil {k : Constraint} (hk : k.count? = none) :
    r.satisfies filler i [] k = false := by
  cases k <;> simp_all [satisfies, Constraint.count?]

/-- Restrictions have the same members by a working set. -/
theorem mem_select_iff (hf : x.Shows r.facts) :
    i ∈ r.select (r.workingSet x c.role) filler c.constraint ↔ i ∈ r.restricted c filler := by
  have hvalues : ((r.workingSet x c.role).members i).toList.Perm
      ((r.roleLinks c.role).valuesOf i) := by
    have hnodup : ((r.roleLinks c.role).valuesOf i).Nodup := nodup_eraseDups _
    refine (List.perm_ext_iff_of_nodup (ListSet.nodup _) hnodup).mpr fun v => ?_
    rw [ListSet.mem_toList, mem_workingSet hf, Links.mem_valuesOf]
  simp only [select, restricted, candidates, List.mem_filter, satisfies_perm hvalues]
  refine and_congr_left fun hsat => ?_
  split
  · rfl
  · next hk =>
    -- who satisfies the constraint has a value, and so stands in both lists
    rw [Option.not_isSome_iff_eq_none] at hk
    obtain ⟨v, hv⟩ : ∃ v, v ∈ (r.roleLinks c.role).valuesOf i := by
      refine List.exists_mem_of_ne_nil _ fun hnil => ?_
      rw [hnil, not_satisfies_nil hk] at hsat
      exact Bool.false_ne_true hsat
    rw [Links.mem_valuesOf] at hv
    exact iff_of_true (Table.mem_keys_of_mem_members ((mem_workingSet hf).mpr hv))
      (Links.mem_subjects.mpr ⟨v, hv⟩)

end Reasoner

/-! ### Runs -/

/-- **Queries read the indexes**: after every run, the values of roles, the ends of paths
and the members of restrictions by the indexes of the store are those by its facts. -/
theorem Indexed.run_values (config : Config) (cs : List Command) (r : Reasoner) :
    let x := (run { config } cs).index
    let r := { r with facts := (Store.run { config } cs).facts }
    (∀ role i v, v ∈ (r.workingSet x role).members i ↔ (i, v) ∈ r.roleLinks role) ∧
      (∀ p i j, j ∈ x.related (r.expand p) i ↔ j ∈ r.related p i) ∧
      ∀ (c : Restriction) filler i,
        i ∈ r.select (r.workingSet x c.role) filler c.constraint ↔
          i ∈ r.restricted c filler := by
  intro x r
  have hf : x.Shows r.facts := by
    obtain ⟨-, hshows, hstore⟩ := run_coherent config cs
    rwa [show (run { config } cs).facts = r.facts from congrArg Store.facts hstore] at hshows
  exact ⟨fun _ _ _ => Reasoner.mem_workingSet hf, fun _ _ _ => Index.mem_related hf,
    fun _ _ _ => Reasoner.mem_select_iff hf⟩

end Ontology
