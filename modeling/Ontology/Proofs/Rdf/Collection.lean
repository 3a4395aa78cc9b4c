/-
Lists that are written are read back.

* `Graph.object?_eq`: the object of a subject and a predicate, where there is at
  most one; `Triple.slot`: the two that it is the object of;
  `Graph.object?_eq_of_slots`: triples that fill every slot once are found in a graph
  that says nothing else of theirs.
* `nodup_slots_listTriples`: a list that is written fills every slot once;
  `passes_listHead`: a graph that finds what its triples say leads from its head past
  its cells; `readList_listHead`: so this graph gives it back; `items_listHead`: so
  does one that says nothing else of its cells.
* `eq_of_listHead_eq`: lists with the same head have the same items, where one
  thing at most is said of each cell.
-/
import Ontology.Proofs.Rdf.Chain

namespace Ontology.Rdf

/-! ### Objects -/

/-- The subject and the predicate of a triple. -/
def Triple.slot (t : Triple) : Node × Iri := (t.subject, t.predicate)

/-- Of triples that fill every slot once, two with the same slot have the same
object. -/
lemma Triple.object_eq_of_slots {ts : List Triple} {s : Node} {p : Iri} {v w : Term}
    (hts : (ts.map Triple.slot).Nodup) (hv : ⟨s, p, v⟩ ∈ ts) (hw : ⟨s, p, w⟩ ∈ ts) :
    v = w :=
  congrArg Triple.object (List.inj_on_of_nodup_map hts hv hw rfl)

namespace Graph

variable {g : Graph} {s : Node} {p : Iri} {o : Term}

/-- The object that is found is the only one, where there is at most one. -/
lemma object?_eq {v : Option Term} (h : ∀ o, ⟨s, p, o⟩ ∈ g ↔ v = some o) :
    g.object? s p = v := by
  have hmem (o : Term) : o ∈ g.objects s p ↔ v = some o := mem_objects.trans (h o)
  rw [object?]
  cases hobjects : g.objects s p with
  | nil =>
    refine (Option.eq_none_iff_forall_ne_some.mpr fun o ho => ?_).symm
    simpa [hobjects] using (hmem o).mpr ho
  | cons o os => exact ((hmem o).mp (hobjects ▸ List.mem_cons_self)).symm

/-- What a graph says is found, if it belongs to triples that fill every slot once,
and the graph says nothing else of its slot. -/
lemma object?_eq_of_slots {ts : List Triple} (hts : (ts.map Triple.slot).Nodup)
    (hmem : ⟨s, p, o⟩ ∈ g) (hx : ⟨s, p, o⟩ ∈ ts)
    (honly : ∀ v, ⟨s, p, v⟩ ∈ g → ⟨s, p, v⟩ ∈ ts) : g.object? s p = some o := by
  refine object?_eq fun v => ⟨fun hv => ?_, fun hv => ?_⟩
  · exact congrArg some (Triple.object_eq_of_slots hts hx (honly v hv))
  · obtain rfl := Option.some.inj hv
    exact hmem

end Graph

/-! ### Written lists -/

variable {cell : ℕ → BlankNode} {n : ℕ} {items : List Term} {x : Triple}

/-- The triples of a list are about its cells. -/
lemma subject_of_mem_listTriples (h : x ∈ listTriples cell n items) :
    ∃ m, n ≤ m ∧ x.subject = .blank (cell m) := by
  induction items generalizing n with
  | nil => simp [listTriples] at h
  | cons item items ih =>
    rcases List.mem_cons.mp h with rfl | h
    · exact ⟨n, Nat.le_refl n, rfl⟩
    · rcases List.mem_cons.mp h with rfl | h
      · exact ⟨n, Nat.le_refl n, rfl⟩
      · obtain ⟨m, hm, hx⟩ := ih h
        exact ⟨m, by omega, hx⟩

lemma predicate_of_mem_listTriples (h : x ∈ listTriples cell n items) :
    x.predicate = first ∨ x.predicate = rest := by
  induction items generalizing n with
  | nil => simp [listTriples] at h
  | cons item items ih =>
    rcases List.mem_cons.mp h with rfl | h
    · exact .inl rfl
    · rcases List.mem_cons.mp h with rfl | h
      · exact .inr rfl
      · exact ih h

/-- A list says one thing only of each of its cells. -/
lemma nodup_slots_listTriples (hcell : Function.Injective cell) :
    ((listTriples cell n items).map Triple.slot).Nodup := by
  induction items generalizing n with
  | nil => exact .nil
  | cons item items ih =>
    have hlater (p : Iri) : (.blank (cell n), p) ∉
        (listTriples cell (n + 1) items).map Triple.slot := by
      intro h
      obtain ⟨x, hx, hslot⟩ := List.mem_map.mp h
      obtain ⟨m, hm, hsubject⟩ := subject_of_mem_listTriples hx
      have hmn : Node.blank (cell m) = .blank (cell n) :=
        hsubject.symm.trans (congrArg Prod.fst hslot)
      have := hcell (Node.blank.inj hmn)
      omega
    simp only [listTriples, List.map_cons, List.nodup_cons, List.mem_cons,
      not_or]
    exact ⟨⟨by simp [Triple.slot, first, rest], hlater _⟩, hlater _, ih⟩

/-- A graph that finds what the triples of a list say leads past its cells to the
empty list. -/
lemma passes_listHead {g : Graph}
    (h : ∀ x ∈ listTriples cell n items,
      g.object? x.subject x.predicate = some x.object) :
    g.Passes ((List.range' n items.length).map fun m => .blank (cell m))
      (listHead cell n items) items (.node Rdf.nil) := by
  induction items generalizing n with
  | nil => exact .refl _
  | cons item items ih =>
    simp only [listTriples, List.forall_mem_cons] at h
    obtain ⟨hfirst, hrest, htail⟩ := h
    exact .cons (by simp) hfirst hrest (ih htail)

/-- **Written lists are read back**: a graph that finds what the triples of a
list say gives its items. -/
theorem readList_listHead {g : Graph} (hcell : Function.Injective cell)
    (h : ∀ x ∈ listTriples cell n items,
      g.object? x.subject x.predicate = some x.object) :
    g.readList (listHead cell n items) = .ok items :=
  (passes_listHead h).readList_eq_ok
    (List.Nodup.map (fun _ _ h => hcell (Node.blank.inj h)) List.nodup_range')

/-- A graph that says of the cells of a list what its triples say, and nothing else,
gives its items. -/
theorem items_listHead {g : Graph} (hcell : Function.Injective cell)
    (hmem : ∀ x ∈ listTriples cell n items, x ∈ g)
    (honly : ∀ x ∈ g, ∀ m, n ≤ m → x.subject = .blank (cell m) →
      x ∈ listTriples cell n items) :
    g.items (listHead cell n items) = .ok items := by
  have hread : g.readList (listHead cell n items) = .ok items := by
    refine readList_listHead hcell fun x hx => ?_
    obtain ⟨m, hm, hsubject⟩ := subject_of_mem_listTriples hx
    exact Graph.object?_eq_of_slots (nodup_slots_listTriples hcell) (hmem x hx) hx
      fun v hv => honly _ hv m hm hsubject
  rw [Graph.items, hread]

/-- A list is determined by its head, where one item and one rest at most is said
of each cell. -/
lemma eq_of_listHead_eq {S : Triple → Prop} {cell cell' : ℕ → BlankNode} {n n' : ℕ}
    {items items' : List Term}
    (hone : ∀ m p v w, S ⟨.blank (cell' m), p, v⟩ → S ⟨.blank (cell' m), p, w⟩ → v = w)
    (h : ∀ t ∈ listTriples cell n items, S t)
    (h' : ∀ t ∈ listTriples cell' n' items', S t)
    (hhead : listHead cell n items = listHead cell' n' items') : items = items' := by
  induction items generalizing n n' items' with
  | nil =>
    cases items' with
    | nil => rfl
    | cons item' items' => simp [listHead] at hhead
  | cons item items ih =>
    cases items' with
    | nil => simp [listHead] at hhead
    | cons item' items' =>
      have hcell : cell n = cell' n' := Node.blank.inj (Term.node.inj hhead)
      simp only [listTriples, List.forall_mem_cons, hcell] at h h'
      obtain ⟨hfirst, hrest, htail⟩ := h
      obtain ⟨hfirst', hrest', htail'⟩ := h'
      rw [hone n' first item item' hfirst hfirst',
        ih htail htail' (hone n' rest _ _ hrest hrest')]

end Ontology.Rdf
