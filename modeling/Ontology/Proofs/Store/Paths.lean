/-
Paths of stated relations.

* `Facts.Linked`, `Facts.Path`: one of some properties is stated between two
  individuals, and a path of one or more such steps.
* `mem_related_iff_path`: the related individuals are the ends of paths;
  `mem_closure_links_iff_path`: the closure of the stated relations has an edge
  for every path.
* `Facts.chain`: relations stated one after the other, each between the next
  two of a row of individuals; `exists_reached_chain`: a store can hold a chain
  and no other assertions.
* `IsChain.path`: a chain is a path from its start to its end;
  `IsChain.mem_of_path`: every path from one to the other uses all of it.
* `worklist_exact`: **work lists find what is reached, and paths their ends**.
-/
import Mathlib.Logic.Relation
import Ontology.Proofs.Relation.Worklist
import Ontology.Proofs.Store.Reached

namespace Ontology

open Relation

namespace Edges

variable {α : Type} [DecidableEq α] {edges : Edges α} {a b : α}

lemma reaches_iff_reflTransGen :
    Reaches edges.targets a b ↔ ReflTransGen (fun x y => (x, y) ∈ edges) a b := by
  constructor
  · intro h
    induction h with
    | refl => exact .refl
    | step hb _ ih => exact .head (mem_targets.mp hb) ih
  · intro h
    induction h using ReflTransGen.head_induction_on with
    | refl => exact .refl _
    | head hb _ ih => exact .step (mem_targets.mpr hb) ih

/-- What the edges connect in either direction is what the equivalence relation
that they generate relates. -/
lemma reaches_both_iff_eqvGen :
    Reaches edges.both.targets a b ↔ EqvGen (fun x y => (x, y) ∈ edges) a b := by
  simp only [reaches_iff_reflTransGen, mem_both, ← EqvGen.reflTransGen_symmGen]
  rfl

/-- Descendants are the ends of paths of one or more edges. -/
lemma mem_descendants_iff_transGen :
    b ∈ edges.descendants a ↔ TransGen (fun x y => (x, y) ∈ edges) a b := by
  simp only [mem_descendants, TransGen.head'_iff, reaches_iff_reflTransGen]

end Edges

namespace Facts

variable {f g : Facts} {ps qs : Set Property} {a b : Individual}

/-! ### Paths -/

/-- One of some properties is stated between two individuals. -/
def Linked (f : Facts) (ps : Set Property) (a b : Individual) : Prop :=
  ∃ p ∈ ps, ⟨.positive, a, p, .node b⟩ ∈ f.assertions

/-- A path of one or more stated relations, each of one of some properties. -/
def Path (f : Facts) (ps : Set Property) : Individual → Individual → Prop :=
  TransGen (f.Linked ps)

/-- With more properties there are more paths. -/
lemma Path.mono (h : f.Path ps a b) (hsub : ps ⊆ qs) : f.Path qs a b :=
  TransGen.mono (fun _ _ ⟨p, hp, hab⟩ => ⟨p, hsub hp, hab⟩) a b h

/-- A path uses a property. -/
lemma Path.exists_mem (h : f.Path ps a b) : ∃ p, p ∈ ps := by
  obtain ⟨_, ⟨p, hp, _⟩, _⟩ := TransGen.head'_iff.mp h
  exact ⟨p, hp⟩

/-- The related individuals are the ends of paths. -/
theorem mem_related_iff_path {ps : List Property} :
    b ∈ f.related ps a ↔ f.Path {p | p ∈ ps} a b := by
  simp only [related, Edges.mem_descendants_iff_transGen, mem_links]
  rfl

/-- The closure of the stated relations has an edge for every path. -/
theorem mem_closure_links_iff_path {ps : List Property} :
    (a, b) ∈ (f.links ps).closure ↔ f.Path {p | p ∈ ps} a b :=
  Edges.mem_closure.trans mem_related_iff_path

/-! ### Chains -/

/-- A row of individuals without end. -/
def stop (n : ℕ) : Individual :=
  .blank (.labelled (String.ofList (List.replicate (n + 1) 'x')))

/-- The relations of some properties, in order, each between the next two
individuals of the row. -/
def chain (ps : List Property) : List Assertion :=
  ps.zipIdx.map fun (p, n) => ⟨.positive, stop n, p, .node (stop (n + 1))⟩

lemma stop_inj {m n : ℕ} : stop m = stop n ↔ m = n := by
  refine ⟨fun h => ?_, congrArg stop⟩
  simp only [stop, Rdf.Node.blank.injEq, Rdf.BlankNode.labelled.injEq] at h
  simpa using congrArg List.length (String.ofList_injective h)

lemma mem_chain {ps : List Property} {p : Property} {v : Rdf.Term} :
    ⟨.positive, a, p, v⟩ ∈ chain ps ↔
      ∃ n, ps[n]? = some p ∧ a = stop n ∧ v = .node (stop (n + 1)) := by
  simp only [chain, List.mem_map, List.mem_zipIdx_iff_getElem?, Prod.exists,
    Assertion.mk.injEq, true_and]
  constructor
  · rintro ⟨p, n, hp, rfl, rfl, rfl⟩
    exact ⟨n, hp, rfl, rfl⟩
  · rintro ⟨n, hp, rfl, rfl⟩
    exact ⟨p, n, hp, rfl, rfl, rfl⟩

/-- Facts with the assertions of a chain and no others. -/
structure IsChain (f : Facts) (ps : List Property) : Prop where
  mem_assertions : ∀ x, x ∈ f.assertions ↔ x ∈ chain ps
  isSame : ∀ a b, f.isSame a b ↔ a = b

/-- A store can come to hold a chain and no other assertions. -/
lemma exists_reached_chain (ps : List Property) :
    ∃ f : Facts, f.Reached ∧ f.IsChain ps := by
  have hts : ∀ t ∈ (chain ps).map Statement.assertion, t.fault? = none := by
    simp [Statement.fault?]
  obtain ⟨f, hf, hholds, hsame⟩ := exists_reached_apart hts (by simp)
  refine ⟨f, hf, fun x => ?_, hsame⟩
  rw [← holds_assertion_iff, hholds]
  simp [Statement.Tells, Statement.Alike]

namespace IsChain

variable {us : List Property}

/-- The relations of a chain are a path from its start to its end. -/
lemma path (hf : f.IsChain us) (hus : us ≠ []) (hps : ∀ u ∈ us, u ∈ ps) :
    f.Path ps (stop 0) (stop us.length) := by
  have hlink : ∀ n, n < us.length → f.Linked ps (stop n) (stop (n + 1)) := by
    intro n hn
    refine ⟨us[n], hps _ (List.getElem_mem hn), (hf.mem_assertions _).mpr ?_⟩
    exact mem_chain.mpr ⟨n, List.getElem?_eq_getElem hn, rfl, rfl⟩
  have key : ∀ n, n < us.length → f.Path ps (stop 0) (stop (n + 1)) := by
    intro n
    induction n with
    | zero => exact fun hn => .single (hlink 0 hn)
    | succ n ih => exact fun hn => .tail (ih (by omega)) (hlink (n + 1) hn)
  have hpos : 0 < us.length := List.length_pos_iff.mpr hus
  have hlast := key (us.length - 1) (by omega)
  rwa [show us.length - 1 + 1 = us.length from by omega] at hlast

/-- The only step from an individual of a chain is to the next one. -/
lemma linked_stop (hf : f.IsChain us) {n : ℕ} (h : f.Linked ps (stop n) b) :
    b = stop (n + 1) ∧ ∃ u ∈ ps, us[n]? = some u := by
  obtain ⟨u, hu, hmem⟩ := h
  obtain ⟨m, hm, hstop, hb⟩ := mem_chain.mp ((hf.mem_assertions _).mp hmem)
  obtain rfl : n = m := stop_inj.mp hstop
  exact ⟨Rdf.Term.node.inj hb, u, hu, hm⟩

/-- A path from the start of a chain uses each of its relations up to where it
ends. -/
lemma property_of_path (hf : f.IsChain us) (h : f.Path ps (stop 0) b) :
    ∃ n, b = stop (n + 1) ∧ ∀ m ≤ n, ∃ u ∈ ps, us[m]? = some u := by
  induction h with
  | single h =>
    obtain ⟨hb, hu⟩ := hf.linked_stop h
    refine ⟨0, hb, fun m hm => ?_⟩
    rwa [Nat.le_zero.mp hm]
  | tail _ h ih =>
    obtain ⟨n, rfl, hprefix⟩ := ih
    obtain ⟨hb, hu⟩ := hf.linked_stop h
    refine ⟨n + 1, hb, fun m hm => ?_⟩
    rcases Nat.le_succ_iff.mp hm with hm | rfl
    · exact hprefix m hm
    · exact hu

/-- A path from the start of a chain to its end uses all of its relations. -/
lemma mem_of_path (hf : f.IsChain us)
    (h : f.Path ps (stop 0) (stop us.length)) : ∀ u ∈ us, u ∈ ps := by
  obtain ⟨n, hn, hused⟩ := hf.property_of_path h
  have hlength : us.length = n + 1 := stop_inj.mp hn
  intro u hu
  obtain ⟨m, hm⟩ := List.mem_iff_getElem?.mp hu
  have hlt : m < us.length := (List.getElem?_eq_some_iff.mp hm).1
  obtain ⟨u', hu', hm'⟩ := hused m (by omega)
  obtain rfl : u = u' := Option.some.inj (hm.symm.trans hm')
  exact hu'

end IsChain

end Facts

/-! ### Work lists -/

/-- **Work lists are exact**: whatever the seeds and the successors of nodes are, a
search ends just if finitely many nodes are reached, in whatever order pending nodes
are taken, and every search that has ended has seen, each once, the nodes of the least
set that holds the seeds and is closed under successors. These are the nodes of
`reachable`, whose steps suffice for the search if they are bounded by a list of the
reached nodes that have successors, of which there is one, and for edges the list of
their sources; the order and the repetition of seeds and successors do not matter. So
the individuals related to one by some properties, each found once, are the ends of
the paths of one or more stated relations of these properties; it is itself among them
just if it lies on a cycle, and with more properties there are more of them. -/
theorem worklist_exact :
    (∀ (α : Type) [DecidableEq α] (next : α → List α) (seeds : List α),
      (Search.Ends next ⟨seeds, []⟩ ↔ (reached next seeds).Finite) ∧
      (∀ t, Search.Leads next ⟨seeds, []⟩ t → t.pending = [] →
        t.seen.Nodup ∧ IsLeast {S | ClosedOver next seeds S} {b | b ∈ t.seen}) ∧
      ((reached next seeds).Finite → ∃ nodes, Bounds nodes next seeds) ∧
      ∀ nodes, Bounds nodes next seeds →
        Search.Leads next ⟨seeds, []⟩ ⟨[], reachable nodes next seeds⟩ ∧
        (reachable nodes next seeds).Nodup ∧
        IsLeast {S | ClosedOver next seeds S} {b | b ∈ reachable nodes next seeds} ∧
        ∀ nodes' next' seeds', Bounds nodes' next' seeds' →
          (∀ a, a ∈ seeds' ↔ a ∈ seeds) → (∀ a b, b ∈ next' a ↔ b ∈ next a) →
            (reachable nodes' next' seeds').Perm (reachable nodes next seeds)) ∧
    (∀ (α : Type) [DecidableEq α] (edges : Edges α) (seeds : List α),
      (reached edges.targets seeds).Finite ∧
        Bounds (edges.map (·.1)) edges.targets seeds) ∧
    ∀ (f : Facts) (ps : List Property) (a : Individual),
      (f.related ps a).Nodup ∧
      (∀ b, b ∈ f.related ps a ↔ f.Path {p | p ∈ ps} a b) ∧
      (a ∈ f.related ps a ↔ f.Path {p | p ∈ ps} a a) ∧
      ∀ qs, ps ⊆ qs → f.related ps a ⊆ f.related qs a := by
  refine ⟨fun α _ next seeds => ?_, fun α _ edges seeds => ?_, fun f ps a => ?_⟩
  · have hseen : ∀ t, Search.Leads next ⟨seeds, []⟩ t → t.pending = [] →
        t.seen.Nodup ∧ IsLeast {S | ClosedOver next seeds S} {b | b ∈ t.seen} := by
      intro t hleads hend
      have hprogress := (Search.Progress.start next seeds).leads hleads
      rw [hprogress.seen_eq_reached hend]
      exact ⟨hprogress.nodup, isLeast_reached next seeds⟩
    refine ⟨Search.ends_iff_finite, hseen, exists_bounds, fun nodes hnodes => ?_⟩
    have hleads := leads_reachable hnodes
    obtain ⟨hnodup, hleast⟩ := hseen _ hleads rfl
    exact ⟨hleads, hnodup, hleast, fun nodes' next' seeds' hnodes' =>
      reachable_perm hnodes hnodes'⟩
  · exact ⟨edges.finite_reached seeds, edges.bounds_sources seeds⟩
  · refine ⟨Edges.nodup_reach _, fun b => Facts.mem_related_iff_path,
      Facts.mem_related_iff_path, fun qs hsub b hb => ?_⟩
    rw [Facts.mem_related_iff_path] at hb ⊢
    exact hb.mono fun p hp => hsub hp

/-- Three numbers on a cycle and one beside it, with a seed given twice; and poets who
taught each other, the first of whom admired a third one. -/
theorem worklist_exact_of_cycles :
    let edges : Edges ℕ := [(1, 2), (2, 3), (3, 1), (3, 4)]
    let ada : Individual := .iri ⟨"e:ada"⟩
    let byron : Individual := .iri ⟨"e:byron"⟩
    let clare : Individual := .iri ⟨"e:clare"⟩
    let taught : Property := ⟨"e:taught"⟩
    let admired : Property := ⟨"e:admired"⟩
    let f := (Store.run {} [
      .tell (.assertion ⟨.positive, ada, taught, .node byron⟩),
      .tell (.assertion ⟨.positive, byron, taught, .node ada⟩),
      .tell (.assertion ⟨.positive, ada, admired, .node clare⟩)]).facts
    Search.Ends edges.targets ⟨[2, 2], []⟩ ∧
      Bounds [1, 2, 3, 3] edges.targets [2, 2] ∧
      IsLeast {S | ClosedOver edges.targets [2, 2] S} {b | b ∈ [4, 1, 3, 2]} ∧
      reachable [1, 2, 3, 3] edges.targets [2, 2] = [4, 1, 3, 2] ∧
      [taught] ⊆ [admired, taught] ∧ f.Path {p | p ∈ [taught]} ada ada ∧
      f.related [taught] byron ⊆ f.related [admired, taught] byron ∧
      clare ∈ f.related [admired, taught] byron ∧ clare ∉ f.related [taught] byron := by
  intro edges ada byron clare taught admired f
  obtain ⟨hsearch, hedges, hrelated⟩ := worklist_exact
  obtain ⟨hends, -, -, hreachable⟩ := hsearch ℕ edges.targets [2, 2]
  obtain ⟨hfinite, hsources⟩ := hedges ℕ edges [2, 2]
  have hbounds : Bounds [1, 2, 3, 3] edges.targets [2, 2] := hsources
  have hresult : reachable [1, 2, 3, 3] edges.targets [2, 2] = [4, 1, 3, 2] := by
    decide
  obtain ⟨-, -, hleast, -⟩ := hreachable _ hbounds
  rw [hresult] at hleast
  have hsub : [taught] ⊆ [admired, taught] := List.subset_cons_self ..
  obtain ⟨-, -, hcycle, -⟩ := hrelated f [taught] ada
  obtain ⟨-, -, -, hmono⟩ := hrelated f [taught] byron
  exact ⟨hends.mpr hfinite, hbounds, hleast, hresult, hsub, hcycle.mp (by decide),
    hmono _ hsub, by decide, by decide⟩

end Ontology
