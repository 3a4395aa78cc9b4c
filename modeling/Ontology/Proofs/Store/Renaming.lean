/-
Exports are equal up to renaming only for facts that agree.

* `Triple.rename`: a triple with other blank nodes in place of its own;
  `rename_denialTriples`, `rename_groupTriples`: the triples of a denial and of
  a group are renamed by renaming the nodes made for them.
* `Exported.mem_iff_of_plain`: a renamed graph has the same plain triples;
  `Exported.mem_of_denial`, `Exported.mem_of_group`: its denials and groups are
  those of the facts.
* `Facts.ExportsAlike`: facts agree on all that an export says;
  `Facts.export_determines`: **the export loses and confuses nothing**.
-/
import Ontology.Proofs.Store.Export
import Ontology.Store.Basic

namespace Ontology

open Rdf (Triple Node BlankNode Term Graph Iri)

/-! ### Renaming -/

namespace Rdf

variable {ρ : BlankNode → BlankNode}

/-- A node, with another blank node in place of a blank one. -/
def Node.rename (ρ : BlankNode → BlankNode) : Node → Node
  | iri i => iri i
  | blank b => blank (ρ b)

/-- A term, with another blank node in place of a blank one. -/
def Term.rename (ρ : BlankNode → BlankNode) : Term → Term
  | node n => node (n.rename ρ)
  | literal l => literal l

/-- A triple, with other blank nodes in place of its own. -/
def Triple.rename (ρ : BlankNode → BlankNode) (t : Triple) : Triple :=
  ⟨t.subject.rename ρ, t.predicate, t.object.rename ρ⟩

@[simp] lemma Node.rename_iri (i : Iri) : (iri i).rename ρ = .iri i := rfl

@[simp] lemma Node.rename_blank (b : BlankNode) : (blank b).rename ρ = .blank (ρ b) :=
  rfl

@[simp] lemma Term.rename_node (n : Node) : (node n).rename ρ = .node (n.rename ρ) :=
  rfl

@[simp] lemma Term.rename_literal (l : Literal) : (literal l).rename ρ = .literal l :=
  rfl

/-- No blank node becomes an IRI. -/
@[simp] lemma Node.rename_eq_iri_iff {n : Node} {i : Iri} :
    n.rename ρ = .iri i ↔ n = .iri i := by
  cases n <;> simp

@[simp] lemma Term.rename_eq_iri_iff {v : Term} {i : Iri} :
    v.rename ρ = .node (.iri i) ↔ v = .node (.iri i) := by
  cases v <;> simp

lemma rename_listHead (cell : ℕ → BlankNode) (n : ℕ) (items : List Term) :
    (listHead cell n items).rename ρ = listHead (fun m => ρ (cell m)) n items := by
  cases items <;> rfl

/-- Lists of terms that are kept are renamed by renaming their cells. -/
lemma rename_listTriples {cell : ℕ → BlankNode} {n : ℕ} {items : List Term}
    (hitems : ∀ v ∈ items, v.rename ρ = v) :
    (listTriples cell n items).map (Triple.rename ρ) =
      listTriples (fun m => ρ (cell m)) n items := by
  induction items generalizing n with
  | nil => rfl
  | cons item items ih =>
    obtain ⟨hitem, hitems⟩ := List.forall_mem_cons.mp hitems
    simp only [listTriples, List.map_cons, ih hitems, Triple.rename, Node.rename_blank,
      hitem, rename_listHead]

end Rdf

section

variable {ρ : BlankNode → BlankNode} {node : BlankNode} {place : ℕ → BlankNode}
  {a : Assertion} {members : List Individual}

/-- A denial of nodes that are kept is renamed by renaming its own node. -/
lemma rename_denialTriples (hsubject : a.subject.rename ρ = a.subject)
    (hobject : a.object.rename ρ = a.object) :
    (denialTriples node a).map (Triple.rename ρ) = denialTriples (ρ node) a := by
  obtain ⟨polarity, s, p, v⟩ := a
  cases v <;> simp_all [denialTriples, Triple.rename]

/-- A group of nodes that are kept is renamed by renaming the nodes at its
places. -/
lemma rename_groupTriples (hmembers : ∀ i ∈ members, i.rename ρ = i) :
    (groupTriples place members).map (Triple.rename ρ) =
      groupTriples (fun n => ρ (place n)) members := by
  have hitems : ∀ v ∈ members.map Term.node, v.rename ρ = v := by
    simpa using hmembers
  simp [groupTriples, Triple.rename, Rdf.rename_listHead, Rdf.rename_listTriples hitems]

end

namespace Facts

variable {f k : Facts} {fresh fresh' : BlankNode.Supply} {g h : Graph} {t : Triple}
  {s : Node} {p : Iri} {v : Term}

/-! ### Renamed exports -/

/-- Facts agree on all that an export says of them. -/
structure ExportsAlike (f k : Facts) : Prop where
  individuals : ∀ i : Iri, .iri i ∈ f.individuals ↔ .iri i ∈ k.individuals
  types : ∀ i c, (i, c) ∈ f.types ↔ (i, c) ∈ k.types
  /-- Assertions and notes are written alike. -/
  values : ∀ s p v, ⟨.positive, s, p, v⟩ ∈ f.assertions ∨ ⟨s, p, v⟩ ∈ f.notes ↔
    ⟨.positive, s, p, v⟩ ∈ k.assertions ∨ ⟨s, p, v⟩ ∈ k.notes
  denials : ∀ a : Assertion, a.polarity = .negative →
    (a ∈ f.assertions ↔ a ∈ k.assertions)
  sameAs : ∀ a b, (a, b) ∈ f.sameAs ↔ (a, b) ∈ k.sameAs
  differentFrom : ∀ a b, (a, b) ∈ f.differentFrom ↔ (a, b) ∈ k.differentFrom
  /-- Members are listed in the same order. -/
  groups : ∀ members, members ∈ f.groups ↔ members ∈ k.groups

section

variable {ρ : BlankNode → BlankNode}

/-- Plain triples stay plain. -/
lemma plain_rename_iff : (t.rename ρ).Plain ↔ t.Plain := by
  refine ⟨fun h => ⟨h.predicate, fun hp => ?_⟩, fun h => ⟨h.predicate, fun hp => ?_⟩⟩
  · simpa [Triple.rename] using h.mark hp
  · simpa [Triple.rename] using h.mark hp

variable (hρ : ∀ n ∈ f.nodes, n.rename ρ = n)

include hρ

/-- Plain triples are kept where the nodes that the facts mention are. -/
lemma Says.rename_eq (htriple : f.Says fresh t) (ht : t.Plain) : t.rename ρ = t := by
  obtain ⟨hsubject, hobject⟩ := htriple.mem_nodes ht
  obtain ⟨s, p, v⟩ := t
  have hv : v.rename ρ = v := by
    cases v with
    | literal l => rfl
    | node n =>
      cases n with
      | iri i => rfl
      | blank b => exact congrArg Term.node (hρ _ (hobject b rfl))
  rw [Triple.rename, hρ s hsubject, hv]

variable (hgh : ∀ t, t ∈ h ↔ ∃ u ∈ g, u.rename ρ = t)

include hgh

/-- A renamed graph has the same plain triples. -/
lemma Exported.mem_iff_of_plain (hg : f.Exported fresh g) (ht : t.Plain) :
    t ∈ g ↔ t ∈ h := by
  rw [hgh]
  constructor
  · exact fun hmem => ⟨t, hmem, (hg.says_iff.mp hmem).rename_eq hρ ht⟩
  · rintro ⟨u, hu, rfl⟩
    rwa [(hg.says_iff.mp hu).rename_eq hρ (plain_rename_iff.mp ht)]

/-- A renamed graph has the same denials, about renamed nodes. -/
lemma mem_of_mem_denialTriples {node : BlankNode} {a : Assertion} (ha : a ∈ f.assertions)
    (hmem : ∀ t ∈ denialTriples node a, t ∈ g) :
    ∀ t ∈ denialTriples (ρ node) a, t ∈ h := by
  have hsubject : a.subject.rename ρ = a.subject :=
    hρ _ (mem_nodes_of_assertion ha List.mem_cons_self)
  have hobject : a.object.rename ρ = a.object := by
    cases hv : a.object with
    | literal l => rfl
    | node i =>
      have hi : i ∈ a.individuals := by simp [Assertion.individuals, hv, Term.node?]
      exact congrArg Term.node (hρ i (mem_nodes_of_assertion ha hi))
  rw [← rename_denialTriples hsubject hobject, List.forall_mem_map]
  exact fun t ht => (hgh _).mpr ⟨t, hmem t ht, rfl⟩

/-- A renamed graph has the same groups, about renamed nodes. -/
lemma mem_of_mem_groupTriples {place : ℕ → BlankNode} {members : List Individual}
    (hm : members ∈ f.groups) (hmem : ∀ t ∈ groupTriples place members, t ∈ g) :
    ∀ t ∈ groupTriples (fun n => ρ (place n)) members, t ∈ h := by
  rw [← rename_groupTriples fun i hi => hρ i (mem_nodes_of_group hm hi),
    List.forall_mem_map]
  exact fun t ht => (hgh _).mpr ⟨t, hmem t ht, rfl⟩

omit hρ in
/-- A node of a renamed graph is marked as the node that it was. -/
lemma exists_of_mark {c : Iri} (hmem : ⟨s, p, .node (.iri c)⟩ ∈ h) :
    ∃ s', s'.rename ρ = s ∧ ⟨s', p, .node (.iri c)⟩ ∈ g := by
  obtain ⟨⟨s', p', v⟩, hu, hrename⟩ := (hgh _).mp hmem
  simp only [Triple.rename, Triple.mk.injEq, Term.rename_eq_iri_iff] at hrename
  obtain ⟨hs, rfl, rfl⟩ := hrename
  exact ⟨s', hs, hu⟩

/-- A denial in a renamed graph is one of the facts. -/
lemma Exported.mem_of_denial (hg : f.Exported fresh g) (hf : f.Exportable)
    (hh : k.Exported fresh' h) {a : Assertion} (ha : a.polarity = .negative)
    (hmem : a ∈ k.assertions) : a ∈ f.assertions := by
  obtain ⟨n, hn⟩ := List.mem_iff_getElem?.mp (mem_denials.mpr ⟨hmem, ha⟩)
  obtain ⟨s, hs, hmark⟩ :=
    exists_of_mark hgh (hh.says_iff.mpr (.denial hn List.mem_cons_self))
  obtain ⟨m, b, hb, rfl⟩ := hg.denial_of_mark hf hmark
  obtain ⟨hbmem, hbneg⟩ := mem_denials.mp (List.mem_of_getElem? hb)
  have hblock := mem_of_mem_denialTriples hρ hgh hbmem fun t ht =>
    hg.says_iff.mpr (.denial hb ht)
  rw [Node.blank.inj hs] at hblock
  exact hh.denial_eq hn hbneg hblock ▸ hbmem

/-- A group in a renamed graph is one of the facts. -/
lemma Exported.mem_of_group (hg : f.Exported fresh g) (hf : f.Exportable)
    (hh : k.Exported fresh' h) {members : List Individual}
    (hmem : members ∈ k.groups) : members ∈ f.groups := by
  obtain ⟨n, hn⟩ := List.mem_iff_getElem?.mp hmem
  obtain ⟨s, hs, hmark⟩ :=
    exists_of_mark hgh (hh.says_iff.mpr (.group hn List.mem_cons_self))
  obtain ⟨m, members', hm, rfl⟩ := hg.group_of_mark hf hmark
  have hmmem := List.mem_of_getElem? hm
  have hblock := mem_of_mem_groupTriples hρ hgh hmmem fun t ht =>
    hg.says_iff.mpr (.group hm ht)
  have hplace : ρ (fresh (m + 1) 0) = fresh' (n + 1) 0 := Node.blank.inj hs
  exact hh.group_eq hn hplace hblock ▸ hmmem

/-- **Renamed exports**: facts of which the graphs are equal, but for the names of
the nodes that were made for them, agree. -/
theorem Exported.exportsAlike (hg : f.Exported fresh g) (hf : f.Exportable)
    (hh : k.Exported fresh' h) (hk : k.Exportable) : f.ExportsAlike k where
  individuals i := by
    rw [(hg.readOff hf).individuals, (hh.readOff hk).individuals]
    exact hg.mem_iff_of_plain hρ hgh (plain_of_type _ (.inl rfl))
  types i c := by
    by_cases hc : c ∈ kinds
    · exact iff_of_false (fun h => hf.types _ h hc) fun h => hk.types _ h hc
    · rw [(hg.readOff hf).types i c hc, (hh.readOff hk).types i c hc]
      exact hg.mem_iff_of_plain hρ hgh (plain_of_type i (.inr hc))
  values s p v := by
    by_cases hp : p ∈ words
    · refine iff_of_false ?_ ?_
      · exact fun h => h.elim (fun h => hf.assertions _ h rfl hp) (hf.notes _ · hp)
      · exact fun h => h.elim (fun h => hk.assertions _ h rfl hp) (hk.notes _ · hp)
    · rw [(hg.readOff hf).values s p v hp, (hh.readOff hk).values s p v hp]
      exact hg.mem_iff_of_plain hρ hgh (plain_of_notMem_words hp)
  denials a ha := by
    refine ⟨fun hmem => ?_, hg.mem_of_denial hρ hgh hf hh ha⟩
    obtain ⟨node, hblock⟩ := ((hg.readOff hf).denials a ha).mp hmem
    exact ((hh.readOff hk).denials a ha).mpr
      ⟨ρ node, mem_of_mem_denialTriples hρ hgh hmem hblock⟩
  sameAs a b := by
    rw [(hg.readOff hf).sameAs, (hh.readOff hk).sameAs]
    exact hg.mem_iff_of_plain hρ hgh (plain_of_pair a b).1
  differentFrom a b := by
    rw [(hg.readOff hf).differentFrom, (hh.readOff hk).differentFrom]
    exact hg.mem_iff_of_plain hρ hgh (plain_of_pair a b).2
  groups members := by
    refine ⟨fun hmem => ?_, hg.mem_of_group hρ hgh hf hh⟩
    obtain ⟨place, hblock⟩ := ((hg.readOff hf).groups members).mp hmem
    exact ((hh.readOff hk).groups members).mpr
      ⟨fun n => ρ (place n), mem_of_mem_groupTriples hρ hgh hmem hblock⟩

end

/-- **The export loses and confuses nothing**: the graph of facts that do not use
the words of an export determines all that the export says. A triple of another
property is an assertion or a note, a type of another class is a type, and
denials and groups are told by what is said of any nodes. So facts of which the
graphs are equal, but for the names of the nodes that were made for them,
agree. -/
theorem export_determines (hf : f.Exportable) (hg : f.Exported fresh g) :
    f.ReadOff g ∧ ∀ (k : Facts) (fresh' : BlankNode.Supply) (h : Graph)
      (ρ : BlankNode → BlankNode), k.Exportable → k.Exported fresh' h →
      (∀ n ∈ f.nodes, n.rename ρ = n) → (∀ t, t ∈ h ↔ ∃ u ∈ g, u.rename ρ = t) →
        f.ExportsAlike k :=
  ⟨hg.readOff hf, fun _ _ _ _ hk hh hρ hgh => hg.exportsAlike hρ hgh hf hh hk⟩

/-- Two stores are told the same in different order, and what is an assertion to one
is a note to the other. In their graphs the nodes of the two denials are
swapped. -/
theorem export_determines_of_order :
    let ada : Individual := .iri ⟨"e:ada"⟩
    let byron : Individual := .iri ⟨"e:byron"⟩
    let someone : Individual := .blank (.labelled "x")
    let poet : ClassName := .iri ⟨"e:Poet"⟩
    let knows : Property := ⟨"e:knows"⟩
    let denied : Assertion := ⟨.negative, ada, knows, .node byron⟩
    let denied' : Assertion := ⟨.negative, someone, knows, .literal (.simple "him")⟩
    let f := (Store.run {} [.tell (.assertion denied), .tell (.assertion denied'),
      .tell (.allDifferent [byron, someone, ada]), .tell (.instanceOf byron poet),
      .tell (.assertion ⟨.positive, someone, knows, .node ada⟩)]).facts
    let k := (Store.run {} [.tell (.note ⟨someone, knows, .node ada⟩),
      .tell (.assertion denied'), .tell (.assertion denied),
      .tell (.allDifferent [byron, someone, ada]), .tell (.instanceOf byron poet),
      .tell (.assertion denied)]).facts
    let swap : BlankNode → BlankNode := fun b =>
      if b = .minted 0 0 then .minted 0 1
      else if b = .minted 0 1 then .minted 0 0
      else b
    f.Exportable ∧ f.Exported .minted f.graph ∧ k.Exportable ∧
      k.Exported .minted k.graph ∧ (∀ n ∈ f.nodes, n.rename swap = n) ∧
      (∀ t, t ∈ k.graph ↔ ∃ u ∈ f.graph, u.rename swap = t) ∧
      f.ExportsAlike k := by
  intro ada byron someone poet knows denied denied' f k swap
  have hf : f.Exportable := ⟨by decide +kernel, by decide +kernel, by decide +kernel⟩
  have hk : k.Exportable := ⟨by decide +kernel, by decide +kernel, by decide +kernel⟩
  have hg : f.Exported .minted f.graph := exported_graph (by decide +kernel)
  have hh : k.Exported .minted k.graph := exported_graph (by decide +kernel)
  have hkept : ∀ n ∈ f.nodes, n.rename swap = n := by decide +kernel
  have hforth : ∀ u ∈ f.triples .minted, u.rename swap ∈ k.triples .minted := by
    decide +kernel
  have hback : ∀ t ∈ k.triples .minted, ∃ u ∈ f.triples .minted, u.rename swap = t := by
    decide +kernel
  have hrenamed : ∀ t, t ∈ k.graph ↔ ∃ u ∈ f.graph, u.rename swap = t := by
    intro t
    simp only [mem_graph]
    refine ⟨hback t, ?_⟩
    rintro ⟨u, hu, rfl⟩
    exact hforth u hu
  exact ⟨hf, hg, hk, hh, hkept, hrenamed,
    (export_determines hf hg).2 k .minted k.graph swap hk hh hkept hrenamed⟩

end Facts

end Ontology
