/-
Chains of cells in a graph, and how far they can be followed.

* `Graph.Passes`: cells passed on the way from one term to another, and the items
  that they hold; `Passes.length_le`: there are not more of them than triples, if no
  cell comes twice.
* `Graph.Stops`: why a chain goes no further, after some cells;
  `exists_passes_stops`: every chain reaches the empty list or stops.
* `Passes.readCells_eq`, `Stops.readCells_eq`: what the reader does on the way and at
  its end.
* `Graph.items_read_exactly`: **lists are read exactly or refused**, for the reason
  for which their chain stops.
-/
import Mathlib.Data.List.Nodup
import Mathlib.Data.List.Perm.Subperm
import Ontology.Catalog.OfGraph

namespace Ontology.Rdf.Graph

variable {g : Graph} {cell : Node} {cells seen : List Node}
  {head last item next : Term} {items : List Term} {fault : ListFault}

/-! ### Cells on the way -/

/-- Cells that are passed on the way from a term to another, and the items that they
hold. The empty list is no cell. -/
inductive Passes (g : Graph) : List Node → Term → List Term → Term → Prop
  | refl (last : Term) : Passes g [] last [] last
  | cons {cell : Node} {cells : List Node} {item next last : Term}
      {items : List Term} (hcell : cell ≠ Rdf.nil)
      (hfirst : g.object? cell first = some item)
      (hrest : g.object? cell rest = some next)
      (hnext : Passes g cells next items last) :
    Passes g (cell :: cells) (.node cell) (item :: items) last

namespace Passes

/-- A way goes on through a further cell. -/
lemma concat (h : g.Passes cells head items (.node cell)) (hcell : cell ≠ Rdf.nil)
    (hfirst : g.object? cell first = some item)
    (hrest : g.object? cell rest = some next) :
    g.Passes (cells ++ [cell]) head (items ++ [item]) next := by
  generalize hlast : Term.node cell = last at h
  induction h with
  | refl =>
    subst hlast
    exact .cons hcell hfirst hrest (.refl next)
  | cons hcell' hfirst' hrest' _ ih => exact .cons hcell' hfirst' hrest' (ih hlast)

/-- There are not more cells than triples, if no cell comes twice. -/
lemma length_le (h : g.Passes cells head items last) (hnodup : cells.Nodup) :
    cells.length ≤ g.size := by
  have hsub : cells ⊆ g.triples.map (·.subject) := by
    clear hnodup
    induction h with
    | refl => exact List.nil_subset _
    | cons _ hfirst _ _ ih =>
      exact List.cons_subset.mpr
        ⟨List.mem_map.mpr ⟨_, mem_of_object? hfirst, rfl⟩, ih⟩
  simpa [size] using (List.subperm_of_subset hnodup hsub).length_le

/-- The reader passes cells that it has not seen, and keeps their items. -/
lemma readCells_eq (h : g.Passes cells head items last) (hnodup : cells.Nodup)
    (hseen : ∀ cell ∈ cells, cell ∉ seen) (steps : ℕ) :
    g.readCells (steps + cells.length) seen head =
      (g.readCells steps (cells.reverse ++ seen) last).map (·.map (items ++ ·)) := by
  -- on the way, no cell to come has been passed
  induction h generalizing seen with
  | refl last =>
    obtain hread | ⟨_ | _, hread⟩ := (g.readCells steps seen last).eq_none_or_eq_some <;>
      simp [Except.map, hread]
  | @cons cell cells item next last items hcell hfirst hrest _ ih =>
    obtain ⟨hcells, hnodup⟩ := List.nodup_cons.mp hnodup
    have hpassed : ∀ c ∈ cells, c ∉ cell :: seen := by
      rintro c hc (_ | ⟨_, hcs⟩)
      · exact hcells hc
      · exact hseen c (List.mem_cons_of_mem _ hc) hcs
    have hnot : Term.node cell ≠ .node Rdf.nil := by simpa using hcell
    have hread := ih hnodup hpassed
    rw [List.length_cons, ← Nat.add_assoc, readCells, if_neg hnot]
    simp only [hseen cell List.mem_cons_self, if_false, hfirst, hrest, hread,
      List.reverse_cons, List.append_assoc, List.singleton_append]
    obtain hend | ⟨_ | _, hend⟩ :=
        (g.readCells steps (cells.reverse ++ cell :: seen) last).eq_none_or_eq_some <;>
      simp [Except.map, hend]

end Passes

/-! ### Where a chain stops -/

/-- Why a chain goes no further at a term, after some cells. -/
inductive Stops (g : Graph) (cells : List Node) : Term → ListFault → Prop
  | notACell (l : Literal) : Stops g cells (.literal l) (.notACell (.literal l))
  | cyclic {cell : Node} (hcell : cell ≠ Rdf.nil) (hpassed : cell ∈ cells) :
    Stops g cells (.node cell) .cyclic
  | noFirst {cell : Node} (hcell : cell ≠ Rdf.nil) (hnew : cell ∉ cells)
      (hfirst : g.object? cell first = none) : Stops g cells (.node cell) .noFirst
  | noRest {cell : Node} {item : Term} (hcell : cell ≠ Rdf.nil) (hnew : cell ∉ cells)
      (hfirst : g.object? cell first = some item)
      (hrest : g.object? cell rest = none) : Stops g cells (.node cell) .noRest

/-- The reader reports why a chain stops. -/
lemma Stops.readCells_eq (h : g.Stops cells last fault)
    (hseen : ∀ c, c ∈ seen ↔ c ∈ cells) (steps : ℕ) :
    g.readCells (steps + 1) seen last = some (.error fault) := by
  cases h with
  | notACell l => simp [readCells]
  | cyclic hcell hpassed => simp [readCells, hcell, hseen, hpassed]
  | noFirst hcell hnew hfirst => simp [readCells, hcell, hseen, hnew, hfirst]
  | noRest hcell hnew hfirst hrest =>
    simp [readCells, hcell, hseen, hnew, hfirst, hrest]

/-- A chain is at its end, or stops, or goes on through a cell that it has not
passed. -/
lemma stops_or_next (g : Graph) (cells : List Node) (last : Term) :
    last = .node Rdf.nil ∨ (∃ fault, g.Stops cells last fault) ∨
      ∃ cell item next, last = .node cell ∧ cell ≠ Rdf.nil ∧ cell ∉ cells ∧
        g.object? cell first = some item ∧ g.object? cell rest = some next := by
  cases last with
  | literal l => exact .inr (.inl ⟨_, .notACell l⟩)
  | node cell =>
    by_cases hcell : cell = Rdf.nil
    · exact .inl (congrArg Term.node hcell)
    refine .inr ?_
    by_cases hpassed : cell ∈ cells
    · exact .inl ⟨_, .cyclic hcell hpassed⟩
    cases hfirst : g.object? cell first with
    | none => exact .inl ⟨_, .noFirst hcell hpassed hfirst⟩
    | some item =>
      cases hrest : g.object? cell rest with
      | none => exact .inl ⟨_, .noRest hcell hpassed hfirst hrest⟩
      | some next => exact .inr ⟨cell, item, next, rfl, hcell, hpassed, hfirst, hrest⟩

/-- **Every chain ends**: from any term on it reaches the empty list or stops, and
no cell comes twice until then. -/
theorem exists_passes_stops (g : Graph) (head : Term) :
    ∃ cells items last, cells.Nodup ∧ g.Passes cells head items last ∧
      (last = .node Rdf.nil ∨ ∃ fault, g.Stops cells last fault) := by
  by_contra hno
  push Not at hno
  -- otherwise there are ways past any number of cells
  have hlong (n : ℕ) : ∃ cells items last, cells.Nodup ∧ cells.length = n ∧
      g.Passes cells head items last := by
    induction n with
    | zero => exact ⟨[], [], head, .nil, rfl, .refl head⟩
    | succ n ih =>
      obtain ⟨cells, items, last, hnodup, hlength, hpasses⟩ := ih
      obtain ⟨hnil, hstops⟩ := hno cells items last hnodup hpasses
      obtain hend | ⟨fault, hfault⟩ | ⟨cell, item, next, rfl, hcell, hnew, hfirst, hrest⟩ :=
        g.stops_or_next cells last
      · exact absurd hend hnil
      · exact absurd hfault (hstops fault)
      · exact ⟨cells ++ [cell], items ++ [item], next,
          by simpa using hnodup.concat hnew, by simp [hlength],
          hpasses.concat hcell hfirst hrest⟩
  obtain ⟨cells, items, last, hnodup, hlength, hpasses⟩ := hlong (g.size + 1)
  have hle := hpasses.length_le hnodup
  omega

/-! ### Reading -/

/-- The reader follows a way without repetitions to its end. -/
lemma Passes.readCells_size_eq (h : g.Passes cells head items last) (hnodup : cells.Nodup) :
    ∃ steps, g.readCells (g.size + 1) [] head =
      (g.readCells (steps + 1) cells.reverse last).map (·.map (items ++ ·)) := by
  obtain ⟨steps, hsteps⟩ := Nat.exists_eq_add_of_le' (h.length_le hnodup)
  have hunseen : ∀ cell ∈ cells, cell ∉ ([] : List Node) := by simp
  have hread := h.readCells_eq hnodup hunseen (steps + 1)
  rw [List.append_nil, Nat.add_right_comm, ← hsteps] at hread
  exact ⟨steps, hread⟩

/-- A chain that reaches the empty list is read as the items of its cells. -/
lemma Passes.readList_eq_ok (h : g.Passes cells head items (.node Rdf.nil))
    (hnodup : cells.Nodup) : g.readList head = .ok items := by
  obtain ⟨steps, hread⟩ := h.readCells_size_eq hnodup
  rw [readList_eq_iff, hread]
  simp [readCells, Except.map]

/-- A chain that stops is refused for the reason for which it does. -/
lemma Passes.readList_eq_error (h : g.Passes cells head items last)
    (hnodup : cells.Nodup) (hstops : g.Stops cells last fault) :
    g.readList head = .error fault := by
  obtain ⟨steps, hread⟩ := h.readCells_size_eq hnodup
  rw [readList_eq_iff, hread, hstops.readCells_eq (by simp)]
  rfl

lemma readList_eq_ok_iff :
    g.readList head = .ok items ↔
      ∃ cells, cells.Nodup ∧ g.Passes cells head items (.node Rdf.nil) := by
  refine ⟨fun h => ?_, fun ⟨_, hnodup, hpasses⟩ => hpasses.readList_eq_ok hnodup⟩
  obtain ⟨cells, items', last, hnodup, hpasses, rfl | ⟨fault, hstops⟩⟩ :=
    g.exists_passes_stops head
  · obtain rfl : items' = items :=
      Except.ok.inj ((hpasses.readList_eq_ok hnodup).symm.trans h)
    exact ⟨cells, hnodup, hpasses⟩
  · cases (hpasses.readList_eq_error hnodup hstops).symm.trans h

lemma readList_eq_error_iff :
    g.readList head = .error fault ↔ ∃ cells items last, cells.Nodup ∧
      g.Passes cells head items last ∧ g.Stops cells last fault := by
  refine ⟨fun h => ?_,
    fun ⟨_, _, _, hnodup, hpasses, hstops⟩ => hpasses.readList_eq_error hnodup hstops⟩
  obtain ⟨cells, items, last, hnodup, hpasses, rfl | ⟨fault', hstops⟩⟩ :=
    g.exists_passes_stops head
  · cases (hpasses.readList_eq_ok hnodup).symm.trans h
  · obtain rfl : fault' = fault :=
      Except.error.inj ((hpasses.readList_eq_error hnodup hstops).symm.trans h)
    exact ⟨cells, items, last, hnodup, hpasses, hstops⟩

/-- **Lists are read exactly or refused**: a term begins a list if the empty list is
reached from it past cells of which none comes twice, each with an item and a rest,
and then the list has their items in order. Otherwise it is refused as a malformed
list of that name, or of that of the empty list if it is a literal, for the reason
for which its chain stops: at a literal, at a cell already passed, or at one without
an item or without a rest. -/
theorem items_read_exactly (g : Graph) (head : Term) :
    (∀ items, g.items head = .ok items ↔
      ∃ cells, cells.Nodup ∧ g.Passes cells head items (.node Rdf.nil)) ∧
    (∀ e, g.items head = .error e ↔
      ∃ fault, e = .malformedList (head.node?.getD Rdf.nil) fault ∧
        ∃ cells items last, cells.Nodup ∧ g.Passes cells head items last ∧
          g.Stops cells last fault) ∧
    ((∃ cells items, cells.Nodup ∧ g.Passes cells head items (.node Rdf.nil)) ∨
      ∃ fault, g.items head =
        .error (.malformedList (head.node?.getD Rdf.nil) fault)) := by
  have hok (items : List Term) : g.items head = .ok items ↔
      ∃ cells, cells.Nodup ∧ g.Passes cells head items (.node Rdf.nil) := by
    rw [← readList_eq_ok_iff, Graph.items]
    cases g.readList head <;> simp
  have herror (e : CatalogError) : g.items head = .error e ↔
      ∃ fault, e = .malformedList (head.node?.getD Rdf.nil) fault ∧
        g.readList head = .error fault := by
    rw [Graph.items]
    cases g.readList head <;> simp [eq_comm]
  refine ⟨hok, fun e => ?_, ?_⟩
  · simp only [herror, readList_eq_error_iff]
  · cases hitems : g.items head with
    | ok items =>
      obtain ⟨cells, hnodup, hpasses⟩ := (hok items).mp hitems
      exact .inl ⟨cells, items, hnodup, hpasses⟩
    | error e =>
      obtain ⟨fault, rfl, -⟩ := (herror e).mp hitems
      exact .inr ⟨fault, rfl⟩

-- a cycle that the head leads into and is no part of
example :
    let cell (n : ℕ) : Node := .blank (.minted 0 n)
    let g := Graph.ofList [⟨cell 0, first, cell 1⟩, ⟨cell 0, rest, cell 1⟩,
      ⟨cell 1, first, Rdf.nil⟩, ⟨cell 1, rest, cell 2⟩,
      ⟨cell 2, first, cell 2⟩, ⟨cell 2, rest, cell 1⟩]
    g.items (cell 0) = .error (.malformedList (cell 0) .cyclic) := by
  decide +kernel

end Ontology.Rdf.Graph
