/-
Coherence of indexes: what they keep twice agrees.

* `AssertionIndex.Coherent`: assertions are listed once each and counted, and no table
  has an empty part; `Coherent.insert`, `Coherent.isEmpty_iff`.
* `PairIndex.Coherent`: the neighbours are the other ends of the declared pairs;
  `Coherent.insert`, `Coherent.mem_reach`.
* `GroupIndex.Coherent`: the positions of an individual are those of its groups;
  `Coherent.push`, `Coherent.mem_peers`, `Coherent.contains_iff`.
* `Index.Coherent`: all indexes are coherent.
-/
import Mathlib.Data.List.Nodup
import Mathlib.Data.List.Perm.Subperm
import Ontology.Proofs.Store.Unrepeated
import Ontology.Store.Index

namespace Ontology

/-! ### Entries of tables -/

/-- What is listed entry by entry is listed once, if it shows the key of its entry and
no two entries have one key. -/
lemma nodup_flatMap_of_keys {κ ν β : Type} {es : List (κ × ν)} (hes : (es.map (·.1)).Nodup)
    {f : κ × ν → List β} (key : β → κ) (hf : ∀ e ∈ es, (f e).Nodup)
    (hkey : ∀ e ∈ es, ∀ b ∈ f e, key b = e.1) : (es.flatMap f).Nodup := by
  refine List.nodup_flatMap.mpr ⟨hf, ?_⟩
  refine (List.pairwise_map.mp hes).imp_of_mem fun {d e} hd he hne b hbd hbe => hne ?_
  exact (hkey d hd b hbd).symm.trans (hkey e he b hbe)

namespace Table

/-- No set of a table is empty after one has got a member. -/
lemma toList_ne_nil_addTo {κ α : Type} [DecidableEq κ] [DecidableEq α]
    {t : Table κ (ListSet α)} {k : κ} {a : α}
    (ht : ∀ j as, t.get? j = some as → as.toList ≠ []) :
    ∀ j as, (t.addTo k a).get? j = some as → as.toList ≠ [] := by
  intro j as hj
  rw [addTo, Table.get?_alter] at hj
  split at hj
  · obtain rfl := Option.some.inj hj
    exact List.ne_nil_of_mem (ListSet.mem_insert.mpr (.inr rfl))
  · exact ht j as hj

end Table

/-! ### Assertions -/

namespace AssertionIndex

variable {ω : Type} [DecidableEq ω] {x : AssertionIndex ω} {s : Individual} {p : Property}
  {o : ω}

/-- Assertions are listed once each, and their number is the one kept apart. No property
is without subjects, and no subject without objects. -/
structure Coherent (x : AssertionIndex ω) : Prop where
  nodup : x.toList.Nodup
  size_eq : x.size = x.toList.length
  subjects_ne : ∀ p subjects, x.byProperty.get? p = some subjects → subjects.entries ≠ []
  objects_ne : ∀ p subjects s objects, x.byProperty.get? p = some subjects →
    subjects.get? s = some objects → objects.toList ≠ []

/-- No assertion is selected twice. -/
lemma nodup_select (x : AssertionIndex ω) (subject : Option Individual)
    (property : Option Property) (object : Option ω) :
    (x.select subject property object).Nodup := by
  have hfilter {κ ν : Type} (t : Table κ ν) (test : κ × ν → Bool) :
      ((t.entries.filter test).map (·.1)).Nodup := t.nodup.sublist (.map _ List.filter_sublist)
  refine nodup_flatMap_of_keys (hfilter _ _) (·.2.1) (fun e _ => ?_) fun e _ b hb => ?_
  · refine nodup_flatMap_of_keys (hfilter _ _) (·.1) (fun d _ => ?_) fun d _ b hb => ?_
    · refine (d.2.nodup.filter _).map fun o o' h => ?_
      exact (Prod.mk.inj (Prod.mk.inj h).2).2
    · obtain ⟨o, _, rfl⟩ := List.mem_map.mp hb
      rfl
  · obtain ⟨d, _, hb⟩ := List.mem_flatMap.mp hb
    obtain ⟨o, _, rfl⟩ := List.mem_map.mp hb
    rfl

lemma nodup_toList (x : AssertionIndex ω) : x.toList.Nodup := nodup_select ..

lemma coherent_empty : ({} : AssertionIndex ω).Coherent where
  nodup := nodup_toList _
  size_eq := rfl
  subjects_ne p subjects h := absurd h (by simp)
  objects_ne p subjects s objects h := absurd h (by simp)

/-- A known assertion is not listed again. -/
lemma toList_insert_of_contains (hx : x.contains s p o) :
    (x.insert s p o).toList.Perm x.toList := by
  refine (List.perm_ext_iff_of_nodup (nodup_toList _) (nodup_toList _)).mpr ?_
  rintro ⟨s', p', o'⟩
  rw [mem_toList, mem_toList, contains_insert]
  refine or_iff_left_of_imp ?_
  rintro ⟨rfl, rfl, rfl⟩
  exact hx

/-- A new assertion is listed with the others. -/
lemma toList_insert_of_not_contains (hx : ¬ x.contains s p o) :
    (x.insert s p o).toList.Perm ((s, p, o) :: x.toList) := by
  have hnodup : ((s, p, o) :: x.toList).Nodup :=
    List.nodup_cons.mpr ⟨mem_toList.not.mpr hx, nodup_toList _⟩
  refine (List.perm_ext_iff_of_nodup (nodup_toList _) hnodup).mpr ?_
  rintro ⟨s', p', o'⟩
  rw [mem_toList, contains_insert, List.mem_cons, mem_toList, Prod.mk.injEq, Prod.mk.injEq,
    or_comm]

namespace Coherent

/-- An insertion keeps coherence, and counts what is new. -/
lemma insert (h : x.Coherent) (s : Individual) (p : Property) (o : ω) :
    (x.insert s p o).Coherent where
  nodup := nodup_toList _
  size_eq := by
    by_cases hx : x.contains s p o
    · rw [(toList_insert_of_contains hx).length_eq, ← h.size_eq]
      exact if_pos hx
    · rw [(toList_insert_of_not_contains hx).length_eq, List.length_cons, ← h.size_eq]
      exact if_neg hx
  subjects_ne q subjects hq := by
    rw [AssertionIndex.insert, Table.get?_alter] at hq
    split at hq
    · -- the subject of the new assertion is one
      obtain rfl := Option.some.inj hq
      have hs : o ∈ (((x.byProperty.get? p).getD .empty).addTo s o).members s := by simp
      obtain ⟨objects, hobjects, -⟩ := Table.mem_members.mp hs
      exact List.ne_nil_of_mem (Table.mem_entries.mpr hobjects)
    · exact h.subjects_ne q subjects hq
  objects_ne q subjects r objects hq hr := by
    rw [AssertionIndex.insert, Table.get?_alter] at hq
    split at hq
    · obtain rfl := Option.some.inj hq
      refine Table.toList_ne_nil_addTo (fun r' objects' hr' => ?_) r objects hr
      cases hp : x.byProperty.get? p with
      | none => simp [hp] at hr'
      | some subjects => exact h.objects_ne p subjects r' objects' hp (by simpa [hp] using hr')
    · exact h.objects_ne q subjects r objects hq hr

/-- The number tells whether there are assertions. -/
lemma isEmpty_iff (h : x.Coherent) : x.isEmpty ↔ ∀ s p o, ¬ x.contains s p o := by
  rw [isEmpty, decide_eq_true_eq, h.size_eq, List.length_eq_zero_iff,
    List.eq_nil_iff_forall_not_mem]
  simp only [Prod.forall, mem_toList]

/-- The look-up in an index that is not empty finds what any look-up finds. -/
lemma anyAssertion_iff (h : x.Coherent) {subjects : List Individual} {test : ω → Bool} :
    (!x.isEmpty && x.anyAssertion p subjects test) ↔
      ∃ s ∈ subjects, ∃ o, x.contains s p o ∧ test o := by
  rw [Bool.and_eq_true, AssertionIndex.anyAssertion_iff]
  refine and_iff_right_of_imp ?_
  rintro ⟨s, _, o, hx, _⟩
  rw [Bool.not_eq_true', Bool.eq_false_iff]
  exact fun hempty => h.isEmpty_iff.mp hempty s p o hx

end Coherent

end AssertionIndex

/-! ### Pairs -/

namespace PairIndex

variable {x : PairIndex} {a b : Individual}

/-- The neighbours of an individual are the other ends of the declared pairs, which are
pairs of two individuals, none declared twice in whichever direction. -/
structure Coherent (x : PairIndex) : Prop where
  mem_neighbours : ∀ a b, b ∈ x.neighbours a ↔ (a, b) ∈ x.declared.both
  neighbours_ne : ∀ a bs, x.edges.get? a = some bs → bs.toList ≠ []
  unrepeated : x.declared.Unrepeated

lemma coherent_empty : ({} : PairIndex).Coherent where
  mem_neighbours a b := by simp [neighbours, ListSet.empty]
  neighbours_ne a bs h := absurd h (by simp)
  unrepeated := ⟨by simp, .nil⟩

namespace Coherent

lemma contains_iff (h : x.Coherent) : x.contains a b ↔ (a, b) ∈ x.declared.both := by
  rw [PairIndex.contains_iff, h.mem_neighbours]

/-- A pair of two individuals can be inserted. -/
lemma insert (h : x.Coherent) (hne : a ≠ b) : (x.insert a b).Coherent := by
  unfold PairIndex.insert
  split
  · exact h
  · next hx =>
    rw [h.contains_iff] at hx
    refine ⟨fun c d => ?_, Table.toList_ne_nil_addTo (Table.toList_ne_nil_addTo h.neighbours_ne),
      h.unrepeated.concat hne hx⟩
    have hold := h.mem_neighbours c d
    simp only [neighbours, ListSet.mem_toList, Table.mem_members_addTo, Edges.mem_both,
      List.mem_append, List.mem_singleton, Prod.mk.injEq] at hold ⊢
    rw [hold]
    tauto

/-- A new pair is declared after the others. -/
lemma declared_insert (h : x.Coherent) (hnew : (a, b) ∉ x.declared.both) :
    (x.insert a b).declared = x.declared ++ [(a, b)] := by
  rw [PairIndex.insert, if_neg (h.contains_iff.not.mpr hnew)]

/-- From neighbour to neighbour one comes where the declared pairs lead. -/
lemma mem_reach (h : x.Coherent) {seeds : List Individual} :
    b ∈ x.reach seeds ↔ b ∈ x.declared.both.reach seeds :=
  Edges.mem_reachable_iff_reach h.mem_neighbours
    fun _ _ => Table.mem_keys_of_mem_members

end Coherent

end PairIndex

/-! ### Groups -/

namespace GroupIndex

variable {x : GroupIndex} {members : List Individual} {a b : Individual}

/-- Groups have members and list each of them once, and none is declared twice in
whatever order. The positions of an individual are those of its groups, once each. -/
structure Coherent (x : GroupIndex) : Prop where
  unrepeated : Groups.Unrepeated x.groups
  mem_positionsOf : ∀ i n, n ∈ x.positionsOf i ↔ ∃ g, x.groups[n]? = some g ∧ i ∈ g
  nodup_positionsOf : ∀ i, (x.positionsOf i).Nodup

lemma coherent_empty : ({} : GroupIndex).Coherent where
  unrepeated := ⟨by simp, by simp, .nil⟩
  mem_positionsOf i n := by simp [positionsOf]
  nodup_positionsOf i := by simp [positionsOf]

/-- Members without repetition get one further position each. -/
lemma getD_get?_place (hnodup : members.Nodup) (positions : Table Individual (List Nat))
    (n : Nat) (i : Individual) :
    ((place positions members n).get? i).getD [] =
      (positions.get? i).getD [] ++ if i ∈ members then [n] else [] := by
  unfold place
  induction members generalizing positions with
  | nil => simp
  | cons m members ih =>
    obtain ⟨hm, hnodup⟩ := List.nodup_cons.mp hnodup
    rw [List.foldl_cons, ih hnodup, Table.get?_alter]
    by_cases him : i = m
    · subst him
      simp [hm]
    · simp [him]

/-- Others keep their entry. -/
lemma get?_place_of_notMem {i : Individual} (hi : i ∉ members)
    (positions : Table Individual (List Nat)) (n : Nat) :
    (place positions members n).get? i = positions.get? i := by
  unfold place
  induction members generalizing positions with
  | nil => rfl
  | cons m members ih =>
    rw [List.mem_cons, not_or] at hi
    rw [List.foldl_cons, ih hi.2, Table.get?_alter, if_neg hi.1]

/-- The positions of an individual after a further group. -/
lemma positionsOf_push (hnodup : members.Nodup) (x : GroupIndex) (i : Individual) :
    (x.push members).positionsOf i =
      x.positionsOf i ++ if i ∈ members then [x.groups.length] else [] :=
  getD_get?_place hnodup ..

namespace Coherent

/-- Positions are in range. -/
lemma lt_length (h : x.Coherent) {i : Individual} {n : Nat} (hn : n ∈ x.positionsOf i) :
    n < x.groups.length := by
  obtain ⟨g, hg, -⟩ := (h.mem_positionsOf i n).mp hn
  exact (List.getElem?_eq_some_iff.mp hg).1

/-- A new group of some members can follow. -/
lemma push (h : x.Coherent) (hne : members ≠ []) (hnodup : members.Nodup)
    (hnew : ¬ ∃ g ∈ x.groups, ∀ i, i ∈ g ↔ i ∈ members) :
    (x.push members).Coherent where
  unrepeated := h.unrepeated.concat hne hnodup hnew
  mem_positionsOf i n := by
    rw [positionsOf_push hnodup, List.mem_append, h.mem_positionsOf]
    change _ ↔ ∃ g, (x.groups ++ [members])[n]? = some g ∧ i ∈ g
    rcases Nat.lt_trichotomy n x.groups.length with hn | rfl | hn
    · rw [List.getElem?_append_left hn]
      refine or_iff_left_of_imp fun hi => ?_
      split at hi
      · exact absurd (List.mem_singleton.mp hi) (Nat.ne_of_lt hn)
      · exact absurd hi List.not_mem_nil
    · simp
    · have hout : (x.groups ++ [members])[n]? = none :=
        List.getElem?_eq_none (by simpa using Nat.succ_le_of_lt hn)
      rw [hout, List.getElem?_eq_none (Nat.le_of_lt hn)]
      split <;> simp [Nat.ne_of_gt hn]
  nodup_positionsOf i := by
    rw [positionsOf_push hnodup]
    refine List.nodup_append.mpr ⟨h.nodup_positionsOf i, by split <;> simp, ?_⟩
    -- the earlier positions are before the new one
    rintro n hn m hm rfl
    split at hm
    · exact Nat.ne_of_lt (h.lt_length hn) (List.mem_singleton.mp hm)
    · exact absurd hm List.not_mem_nil

/-- The peers found by positions are the other members of the groups. -/
lemma mem_peers (h : x.Coherent) :
    b ∈ x.peers a ↔ b ≠ a ∧ ∃ g ∈ x.groups, a ∈ g ∧ b ∈ g := by
  simp only [peers, List.mem_filter, List.mem_flatten, List.mem_filterMap,
    h.mem_positionsOf, decide_eq_true_eq, and_comm (b := b ≠ a)]
  refine and_congr_right fun _ => ?_
  simp only [List.mem_iff_getElem?]
  constructor
  · rintro ⟨g, ⟨n, ⟨g', hg', ha⟩, hg⟩, hb⟩
    obtain rfl := Option.some.inj (hg.symm.trans hg')
    exact ⟨g, ⟨n, hg⟩, ha, hb⟩
  · rintro ⟨g, ⟨n, hg⟩, ha, hb⟩
    exact ⟨g, ⟨n, ⟨g, hg, ha⟩, hg⟩, hb⟩

/-- As many members, all of them among those of a group, are the members of the group. -/
lemma contains_iff (h : x.Coherent) (hnodup : members.Nodup) :
    x.contains members ↔ ∃ g ∈ x.groups, ∀ i, i ∈ g ↔ i ∈ members := by
  simp only [contains, List.any_eq_true, Bool.and_eq_true, decide_eq_true_eq,
    List.all_eq_true]
  refine exists_congr fun g => and_congr_right fun hg => ?_
  have hgnodup := h.unrepeated.nodup g hg
  constructor
  · rintro ⟨hlength, hsub⟩ i
    exact ((hgnodup.subperm hsub).perm_of_length_le (Nat.le_of_eq hlength.symm)).mem_iff
  · intro hiff
    exact ⟨((List.perm_ext_iff_of_nodup hgnodup hnodup).mpr hiff).length_eq,
      fun i hi => (hiff i).mp hi⟩

end Coherent

end GroupIndex

/-! ### All indexes -/

/-- Nothing that an index keeps twice differs, and no entry is empty. -/
structure Index.Coherent (x : Index) : Prop where
  types_ne : ∀ i cs, x.types.get? i = some cs → cs.toList ≠ []
  relations : ∀ q, (x.relations.of q).Coherent
  values : ∀ q, (x.values.of q).Coherent
  sameAs : x.sameAs.Coherent
  differentFrom : x.differentFrom.Coherent
  groups : x.groups.Coherent
  notes_ne : ∀ i ns, x.notes.get? i = some ns → ns ≠ []

lemma Index.coherent_empty : Index.Coherent {} where
  types_ne i cs h := absurd h (by simp)
  relations q := by cases q <;> exact AssertionIndex.coherent_empty
  values q := by cases q <;> exact AssertionIndex.coherent_empty
  sameAs := PairIndex.coherent_empty
  differentFrom := PairIndex.coherent_empty
  groups := GroupIndex.coherent_empty
  notes_ne i ns h := absurd h (by simp)

end Ontology
