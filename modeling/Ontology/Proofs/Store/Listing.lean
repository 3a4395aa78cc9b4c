/-
Lists inside larger graphs.

* `Rdf.items_insert_listTriples`: a list that is inserted into a graph, with new
  cells, is read back.
* `Facts.Says.mem_groupTriples`: what an export says of the nodes made for a group
  belongs to this group; `Facts.items_of_group`: so the list of its members is read
  back; `Facts.object?_distinctMembers`: and it is the list that is found, if the
  facts do not mention the group.
* `Facts.written_lists_read_back`: **the writer and the reader of lists are inverse
  to each other**, in any graph and in any export.
-/
import Ontology.Proofs.Store.Export
import Ontology.Store.Basic

namespace Ontology

open Rdf (Triple Node BlankNode Term Graph)

/-- A list whose cells are new to a graph is read back after its triples have been
inserted. -/
lemma Rdf.items_insert_listTriples {g : Graph} {cell : ℕ → BlankNode}
    (hcell : Function.Injective cell) (hnew : ∀ m, ∀ x ∈ g, x.subject ≠ .blank (cell m))
    (n : ℕ) (items : List Term) :
    ((listTriples cell n items).foldl Graph.insert g).items (listHead cell n items) =
      .ok items := by
  refine items_listHead hcell (fun x hx => ?_) fun x hx m _ hsubject => ?_
  · exact Graph.mem_foldl_insert.mpr (.inr hx)
  · exact (Graph.mem_foldl_insert.mp hx).resolve_left fun hold => hnew m x hold hsubject

namespace Facts

variable {f : Facts} {fresh : BlankNode.Supply} {g : Graph} {t : Triple} {k m : ℕ}
  {members : List Individual}

/-- The graph of an export says what the facts say. -/
lemma mem_ofList_triples : t ∈ Graph.ofList (f.triples fresh) ↔ f.Says fresh t := by
  rw [Graph.mem_ofList, mem_triples_iff]

/-- What an export says of a node that was made for a group, and that the facts do
not mention, belongs to this group. -/
lemma Says.mem_groupTriples (h : f.Says fresh t) (hfresh : Function.Injective2 fresh)
    (hm : f.groups[k]? = some members) (hnew : .blank (fresh (k + 1) m) ∉ f.nodes)
    (hsubject : t.subject = .blank (fresh (k + 1) m)) :
    t ∈ groupTriples (fresh (k + 1)) members := by
  rcases h.of_new hfresh hnew hsubject with ⟨hne, _⟩ | ⟨j, members', hj, hm', ht⟩
  · cases hne
  · obtain rfl := Nat.succ.inj hj
    obtain rfl := Option.some.inj (hm.symm.trans hm')
    exact ht

section

variable (hfresh : Function.Injective2 fresh) (hm : f.groups[k]? = some members)

include hfresh hm

/-- The list of the members of a group is read back, if its cells are new. -/
lemma items_of_group (hnew : ∀ m, .blank (fresh (k + 1) (m + 1)) ∉ f.nodes) :
    (Graph.ofList (f.triples fresh)).items
      (Rdf.listHead (fresh (k + 1)) 1 (members.map Term.node)) =
        .ok (members.map Term.node) := by
  have hplace : Function.Injective (fresh (k + 1)) := hfresh.right _
  refine Rdf.items_listHead hplace (fun x hx => ?_) fun x hx m hle hsubject => ?_
  · exact mem_ofList_triples.mpr
      (.group hm (List.mem_cons_of_mem _ (List.mem_cons_of_mem _ hx)))
  · obtain ⟨m, rfl⟩ := Nat.exists_eq_add_of_le' hle
    have hx := (mem_ofList_triples.mp hx).mem_groupTriples hfresh hm (hnew m) hsubject
    -- the other two triples of the group are about the group itself
    have hother : ∀ p v, x ≠ ⟨.blank (fresh (k + 1) 0), p, v⟩ := by
      rintro p v rfl
      have := hplace (Node.blank.inj hsubject)
      omega
    rcases List.mem_cons.mp hx with rfl | hx
    · exact absurd rfl (hother _ _)
    · rcases List.mem_cons.mp hx with rfl | hx
      · exact absurd rfl (hother _ _)
      · exact hx

/-- The list of its members is what is found for a group that the facts do not
mention. -/
lemma object?_distinctMembers (hnew : .blank (fresh (k + 1) 0) ∉ f.nodes) :
    (Graph.ofList (f.triples fresh)).object? (.blank (fresh (k + 1) 0))
      Owl.distinctMembers =
        some (Rdf.listHead (fresh (k + 1)) 1 (members.map Term.node)) := by
  have hmem : ⟨.blank (fresh (k + 1) 0), Owl.distinctMembers,
      Rdf.listHead (fresh (k + 1)) 1 (members.map Term.node)⟩ ∈
        groupTriples (fresh (k + 1)) members :=
    List.mem_cons_of_mem _ List.mem_cons_self
  refine Graph.object?_eq_of_slots (nodup_slots_groupTriples (hfresh.right (k + 1)))
    (mem_ofList_triples.mpr (.group hm hmem)) hmem fun v hv => ?_
  exact (mem_ofList_triples.mp hv).mem_groupTriples hfresh hm hnew rfl

end

/-- **The writer and the reader of lists are inverse to each other**: whatever terms a
list holds, and whatever else a graph says, the triples of the list are inserted into
the graph, with cells that differ from each other and of which it says nothing, and
reading gives the list back. So, in the graph of an export whose nodes differ from
each other, the list of the members of every group gives the members back in order,
if the facts do not mention the cells of the list; and it is the list that is found,
if they do not mention the group. -/
theorem written_lists_read_back :
    (∀ (g : Graph) (cell : ℕ → BlankNode) (n : ℕ) (items : List Term),
      Function.Injective cell → (∀ m, ∀ x ∈ g, x.subject ≠ .blank (cell m)) →
        ((Rdf.listTriples cell n items).foldl Graph.insert g).items
          (Rdf.listHead cell n items) = .ok items) ∧
    ∀ (f : Facts) (fresh : BlankNode.Supply) (k : ℕ) (members : List Individual),
      f.groups[k]? = some members → Function.Injective2 fresh →
      (∀ m, .blank (fresh (k + 1) (m + 1)) ∉ f.nodes) →
      ∃ head,
        ⟨.blank (fresh (k + 1) 0), Owl.distinctMembers, head⟩ ∈
          Graph.ofList (f.triples fresh) ∧
        (Graph.ofList (f.triples fresh)).items head = .ok (members.map Term.node) ∧
        (.blank (fresh (k + 1) 0) ∉ f.nodes →
          (Graph.ofList (f.triples fresh)).object? (.blank (fresh (k + 1) 0))
            Owl.distinctMembers = some head) := by
  refine ⟨fun g cell n items hcell hnew => Rdf.items_insert_listTriples hcell hnew n items,
    fun f fresh k members hm hfresh hnew => ?_⟩
  refine ⟨Rdf.listHead (fresh (k + 1)) 1 (members.map Term.node), ?_,
    items_of_group hfresh hm hnew, object?_distinctMembers hfresh hm⟩
  exact mem_ofList_triples.mpr
    (.group hm (List.mem_cons_of_mem _ List.mem_cons_self))

/-- A list of the empty list, a text and a node, twice, in a graph that says of the
node that it is a cell; and the second of two groups of a store that is told the same
of one of its members. -/
theorem written_lists_read_back_of_cells :
    let ada : Individual := .iri ⟨"e:ada"⟩
    let byron : Individual := .iri ⟨"e:byron"⟩
    let someone : Individual := .blank (.labelled "x")
    let g : Graph := .ofList [⟨someone, Rdf.first, .node someone⟩,
      ⟨someone, Rdf.rest, .node ada⟩]
    let items : List Term :=
      [.node (.iri Rdf.nil), .literal (.simple "x"), .node someone, .node someone]
    let cs : List Command := [
      .tell (.allDifferent [ada, byron]),
      .tell (.assertion ⟨.positive, someone, Rdf.first, .node byron⟩),
      .tell (.note ⟨someone, Rdf.rest, .node (.iri Rdf.nil)⟩),
      .tell (.assertion ⟨.negative, ada, Rdf.first, .node someone⟩),
      .tell (.allDifferent [byron, someone, ada, someone])]
    let f := (Store.run {} cs).facts
    Function.Injective2 BlankNode.minted ∧
      (∀ m, ∀ x ∈ g, x.subject ≠ .blank (.minted 7 m)) ∧
      ((Rdf.listTriples (.minted 7) 0 items).foldl Graph.insert g).items
        (Rdf.listHead (.minted 7) 0 items) = .ok items ∧
      f.groups[1]? = some [byron, someone, ada] ∧
      (∀ m, .blank (.minted 2 m) ∉ f.nodes) ∧
      ∃ head, f.graph.object? (.blank (.minted 2 0)) Owl.distinctMembers = some head ∧
        f.graph.items head = .ok [.node byron, .node someone, .node ada] := by
  intro ada byron someone g items cs f
  have hinjective : Function.Injective2 BlankNode.minted :=
    fun _ _ _ _ h => BlankNode.minted.inj h
  have hnew : ∀ m, ∀ x ∈ g, x.subject ≠ .blank (.minted 7 m) := by
    intro m x hx
    have hlabelled : x.subject = someone := by
      rcases List.mem_cons.mp (Graph.mem_ofList.mp hx) with rfl | hx
      · rfl
      · rw [List.mem_singleton.mp hx]
    simp [hlabelled, someone]
  have hgroup : f.groups[1]? = some [byron, someone, ada] := by decide +kernel
  have hunmentioned : ∀ n ∈ f.nodes, n.isMinted = false := by decide +kernel
  have hcells (m : ℕ) : .blank (.minted 2 m) ∉ f.nodes :=
    fun hmem => absurd (hunmentioned _ hmem) (by simp [Node.isMinted, BlankNode.isMinted])
  obtain ⟨hlist, hexport⟩ := written_lists_read_back
  obtain ⟨head, -, hitems, hobject⟩ :=
    hexport f .minted 1 _ hgroup hinjective fun m => hcells (m + 1)
  exact ⟨hinjective, hnew, hlist g _ 0 items (hinjective.right 7) hnew, hgroup, hcells,
    head, hobject (hcells 0), hitems⟩

end Facts

end Ontology
