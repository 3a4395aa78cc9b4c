/-
Lists in a graph: chains of cells, each with a first item and a rest.

* `Graph.readCells`: follows a chain for a number of steps;
  `isSome_readCells`: one step more than the graph has triples is enough.
* `Graph.readList`: the items of the list that begins at a term, or why there
  is none (`ListFault`).
* `listHead`, `listTriples`: the head and the triples of a list whose cells
  are named by their places.
-/
import Ontology.Rdf.Graph

namespace Ontology.Rdf

/-! ### Reading -/

/-- Why a term begins no list. -/
inductive ListFault where
  | notACell (term : Term)
  | cyclic
  | noFirst
  | noRest
  deriving DecidableEq

/-- The message of a fault. -/
def ListFault.message : ListFault → String
  | notACell t => t.written ++ " is not a list node"
  | cyclic => "cyclic list"
  | noFirst => "missing rdf:first"
  | noRest => "missing rdf:rest"

namespace Graph

/-- Follows a chain from a term, the cells already passed being `seen`. There
is no answer when the steps run out. -/
def readCells (g : Graph) :
    Nat → List Node → Term → Option (Except ListFault (List Term))
  | 0, _, _ => none
  | steps + 1, seen, current =>
    if current = .node nil then some (.ok [])
    else
      match current with
      | .literal _ => some (.error (.notACell current))
      | .node cell =>
        if cell ∈ seen then some (.error .cyclic)
        else
          match g.object? cell first, g.object? cell rest with
          | none, _ => some (.error .noFirst)
          | some _, none => some (.error .noRest)
          | some item, some next =>
            (g.readCells steps (cell :: seen) next).map (·.map (item :: ·))

/-- The triples about nodes that are not in a list. -/
def unseen (g : Graph) (seen : List Node) : List Triple :=
  g.triples.filter (·.subject ∉ seen)

theorem mem_of_object? {g : Graph} {s : Node} {p : Iri} {o : Term}
    (h : g.object? s p = some o) : ⟨s, p, o⟩ ∈ g :=
  mem_objects.mp (List.mem_of_mem_head? h)

/-- A cell with an item has a triple, which is left behind with it. -/
theorem length_unseen_cons {g : Graph} {seen : List Node} {cell : Node}
    {item : Term} (hcell : cell ∉ seen)
    (hitem : g.object? cell first = some item) :
    (g.unseen (cell :: seen)).length < (g.unseen seen).length := by
  have hfilter : g.unseen (cell :: seen) =
      (g.unseen seen).filter (·.subject ≠ cell) := by
    simp [unseen, List.filter_filter]
  have hmem : (⟨cell, first, item⟩ : Triple) ∈ g.unseen seen :=
    List.mem_filter.mpr ⟨mem_of_object? hitem, by simpa using hcell⟩
  rw [hfilter, List.length_filter_lt_length_iff_exists]
  exact ⟨_, hmem, by simp⟩

/-- The steps do not run out before the triples about cells that have not been
passed. -/
theorem isSome_readCells {g : Graph} {steps : Nat} {seen : List Node}
    {current : Term} (h : (g.unseen seen).length < steps) :
    (g.readCells steps seen current).isSome := by
  induction steps generalizing seen current with
  | zero => omega
  | succ steps ih =>
    unfold readCells
    split
    · rfl
    split
    · rfl
    split
    · rfl
    next cell hcell =>
    split
    · rfl
    · rfl
    · next item next hitem _ =>
      rw [Option.isSome_map]
      exact ih (by have := length_unseen_cons hcell hitem; omega)

/-- The items of the list that begins at a term. -/
def readList (g : Graph) (head : Term) : Except ListFault (List Term) :=
  (g.readCells (g.size + 1) [] head).get <| isSome_readCells <|
    Nat.lt_succ_of_le (List.length_filter_le ..)

theorem readList_eq_iff {g : Graph} {head : Term}
    {r : Except ListFault (List Term)} :
    g.readList head = r ↔ g.readCells (g.size + 1) [] head = some r := by
  constructor
  · rintro rfl
    exact (Option.some_get _).symm
  · intro h
    simp only [readList, h, Option.get_some]

/-- The empty list has no items. -/
@[simp] theorem readList_nil (g : Graph) : g.readList (.node nil) = .ok [] := by
  simp [readList_eq_iff, readCells]

end Graph

/-! ### Writing -/

/-- The head of a list of terms whose first cell is at place `n`. -/
def listHead (cell : Nat → BlankNode) (n : Nat) : List Term → Term
  | [] => nil
  | _ :: _ => cell n

/-- The triples of a list of terms whose first cell is at place `n`. -/
def listTriples (cell : Nat → BlankNode) (n : Nat) : List Term → List Triple
  | [] => []
  | item :: items =>
    ⟨cell n, first, item⟩ :: ⟨cell n, rest, listHead cell (n + 1) items⟩ ::
      listTriples cell (n + 1) items

/-- A cell gives two triples. -/
@[simp] theorem length_listTriples (cell : Nat → BlankNode) (n : Nat)
    (items : List Term) :
    (listTriples cell n items).length = 2 * items.length := by
  induction items generalizing n with
  | nil => rfl
  | cons item items ih =>
    simp only [listTriples, List.length_cons, ih]
    omega

end Ontology.Rdf
