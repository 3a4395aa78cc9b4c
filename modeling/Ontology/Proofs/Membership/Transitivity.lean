/-
Transitive properties: which paths count as values.

* `Reasoner.transitives`: the properties under a property whose paths count;
  `mem_values_direct_iff`: the values of a property are those stated, and the
  ends of paths of these; `mem_related_iff`: the related individuals are the
  ends of all paths.
* `Reasoner.Entails`: a value is stated, or ends a path of one transitive
  property; `values_direct_sound_iff`: the catalogs in which every value is
  entailed.
* `Restriction.hasValue`: the restriction of a property to a value;
  `Reasoner.ReadsPaths`: its members are those that a path leads to the value;
  `hasValue_reads_paths_iff`: the catalogs in which they are.
-/
import Ontology.Proofs.Membership.Evaluation
import Ontology.Proofs.Store.Paths

namespace Ontology

open Facts (chain stop)

/-- The restriction of a property to a value. -/
def Restriction.hasValue (p : Property) (v : Rdf.Term) : Restriction where
  role := .direct p
  constraint := .hasValue v
  ordered := by simp [Constraint.Ordered, Constraint.count?]

namespace Reasoner

variable {r : Reasoner} {p : Property} {s i o : Individual} {v : Rdf.Term}
  {c : ClassName}

/-! ### Values of a property -/

/-- The properties that a property covers and whose paths count: the transitive
ones, if paths count at all. -/
def transitives (r : Reasoner) (p : Property) : Set Property :=
  {t | t ∈ r.transitiveOf (r.expand p)}

lemma mem_transitives {t : Property} :
    t ∈ r.transitives p ↔
      r.transitiveInference ∧ t ∈ r.expand p ∧ r.catalog.isTransitive t := by
  simp only [transitives, transitiveOf, Set.mem_ofPred_eq]
  split <;> simp_all

/-- A value is stated, of one of the properties that a property covers. -/
def States (r : Reasoner) (p : Property) (s : Individual) (v : Rdf.Term) : Prop :=
  ∃ q ∈ r.expand p, ⟨.positive, s, q, v⟩ ∈ r.facts.assertions

/-- The values of a property are those stated of the properties that it covers,
and the ends of paths of the transitive ones. -/
lemma mem_values_direct_iff :
    v ∈ r.values (.direct p) s ↔
      r.States p s v ∨
        ∃ o, v = .node o ∧ r.facts.Path (r.transitives p) s o := by
  simp only [mem_values, roleLinks, forward, List.mem_append, mem_stated,
    Links.mem_ofEdges, Facts.mem_closure_links_iff_path]
  rfl

lemma mem_related_iff :
    o ∈ r.related p s ↔ r.facts.Path {q | q ∈ r.expand p} s o :=
  Facts.mem_related_iff_path

/-! ### Paths of one transitive property -/

/-- A value of a property is entailed: it is stated, or it ends a path of one
transitive property that the property covers. -/
def Entails (r : Reasoner) (p : Property) (s : Individual) (v : Rdf.Term) :
    Prop :=
  r.States p s v ∨ ∃ t ∈ r.expand p, r.catalog.isTransitive t ∧
    ∃ o, v = .node o ∧ r.facts.Path {q | q ∈ r.expand t} s o

/-- If one of the transitive properties covers the others, all values are
entailed. -/
lemma entails_of_mem_values
    (h : r.transitives p = ∅ ∨
      ∃ t ∈ r.transitives p, ∀ u ∈ r.transitives p, u ∈ r.expand t)
    (hv : v ∈ r.values (.direct p) s) : r.Entails p s v := by
  rcases mem_values_direct_iff.mp hv with hstates | ⟨o, rfl, hpath⟩
  · exact .inl hstates
  rcases h with hnone | ⟨t, ht, hcovers⟩
  · obtain ⟨u, hu⟩ := hpath.exists_mem
    simp [hnone] at hu
  · obtain ⟨_, hpt, htrans⟩ := mem_transitives.mp ht
    exact .inr ⟨t, hpt, htrans, o, rfl, hpath.mono hcovers⟩

/-- If the end of a chain of all the transitive properties is entailed as a
value, then one of these covers the others. -/
lemma covers_of_entails {f : Facts} {ts : List Property}
    (hts : ∀ t, t ∈ ts ↔ t ∈ r.transitives p) (hne : ts ≠ []) (hf : f.IsChain ts)
    (hentails : Entails { r with facts := f } p (stop 0) (.node (stop ts.length))) :
    ∃ t ∈ r.transitives p, ∀ u ∈ r.transitives p, u ∈ r.expand t := by
  -- a value stated at the end of the chain is a path of one step
  obtain ⟨t, ht, hpath⟩ : ∃ t ∈ r.transitives p,
      f.Path {q | q ∈ r.expand t} (stop 0) (stop ts.length) := by
    rcases hentails with ⟨q, _, hstated⟩ | ⟨t, hpt, htrans, o, ho, hpath⟩
    · have hq : q ∈ ts := by
        obtain ⟨n, hn, _⟩ := Facts.mem_chain.mp ((hf.mem_assertions _).mp hstated)
        exact List.mem_of_getElem? hn
      exact ⟨q, (hts q).mp hq, .single ⟨q, Hierarchy.self_mem_expand, hstated⟩⟩
    · obtain rfl : stop ts.length = o := Rdf.Term.node.inj ho
      obtain ⟨u, hu⟩ := List.exists_mem_of_ne_nil ts hne
      have hinference := (mem_transitives.mp ((hts u).mp hu)).1
      exact ⟨t, mem_transitives.mpr ⟨hinference, hpt, htrans⟩, hpath⟩
  exact ⟨t, ht, fun u hu => hf.mem_of_path hpath u ((hts u).mpr hu)⟩

/-- **Values of a property**: they are those stated of the properties that it
covers, and the ends of paths of the transitive ones among these. The steps of
a path may be of several transitive properties. Whatever a store holds, one of
them alone entails each value just if one of them, where there are any, covers
the others. -/
theorem values_direct_sound_iff (r : Reasoner) (p : Property) :
    (∀ s v, v ∈ r.values (.direct p) s ↔
      (∃ q ∈ r.expand p, ⟨.positive, s, q, v⟩ ∈ r.facts.assertions) ∨
        ∃ o, v = .node o ∧ r.facts.Path (r.transitives p) s o) ∧
    ((∀ f : Facts, f.Reached →
      ∀ s, ∀ v ∈ values { r with facts := f } (.direct p) s,
        Entails { r with facts := f } p s v) ↔
      r.transitives p = ∅ ∨
        ∃ t ∈ r.transitives p, ∀ u ∈ r.transitives p, u ∈ r.expand t) := by
  refine ⟨fun s v => mem_values_direct_iff, fun hall => ?_,
    fun h f _ s v hv => entails_of_mem_values h hv⟩
  by_cases hnone : r.transitiveOf (r.expand p) = []
  · left
    ext t
    simp [transitives, hnone]
  · right
    obtain ⟨f, hreached, hf⟩ :=
      Facts.exists_reached_chain (r.transitiveOf (r.expand p))
    have hpath : f.Path (r.transitives p) (stop 0) (stop _) :=
      hf.path hnone fun _ => id
    have hvalue : _ ∈ values { r with facts := f } (.direct p) (stop 0) :=
      mem_values_direct_iff.mpr (.inr ⟨_, rfl, hpath⟩)
    exact covers_of_entails (fun _ => .rfl) hnone hf (hall f hreached _ _ hvalue)

/-- An ancestor and a teacher are both an influence: the teacher of an ancestor
counts as one, though nobody is stated to be, and neither relation leads from
one end to the other. -/
theorem values_direct_mix_transitives :
    let ada : Individual := .iri ⟨"e:ada"⟩
    let byron : Individual := .iri ⟨"e:byron"⟩
    let charles : Individual := .iri ⟨"e:charles"⟩
    let ancestor : Property := ⟨"e:ancestor"⟩
    let teacher : Property := ⟨"e:teacher"⟩
    let influence : Property := ⟨"e:influence"⟩
    let r : Reasoner := {
      facts := (Store.run {} [
        .tell (.assertion ⟨.positive, ada, ancestor, .node byron⟩),
        .tell (.assertion ⟨.positive, byron, teacher, .node charles⟩)]).facts
      catalog := Terminology.catalog [
        .subProperty ancestor influence, .subProperty teacher influence,
        .transitiveProperty ancestor, .transitiveProperty teacher] }
    .node charles ∈ r.values (.direct influence) ada ∧
      ¬ r.Entails influence ada (.node charles) := by
  intro ada byron charles ancestor teacher influence r
  have hvalue : (ada, .node charles) ∈ r.roleLinks (.direct influence) := by
    decide +kernel
  have hstates : ∀ q ∈ r.expand influence,
      ⟨.positive, ada, q, .node charles⟩ ∉ r.facts.assertions := by
    decide +kernel
  have hpaths : ∀ t ∈ r.expand influence, r.catalog.isTransitive t →
      charles ∉ r.related t ada := by decide +kernel
  refine ⟨mem_values.mpr hvalue, ?_⟩
  rintro (⟨q, hq, hstated⟩ | ⟨t, ht, htrans, o, ho, hpath⟩)
  · exact hstates q hq hstated
  · obtain rfl : charles = o := Rdf.Term.node.inj ho
    exact hpaths t ht htrans (mem_related_iff.mpr hpath)

/-! ### Restrictions to a value -/

/-- A class described as a restriction to a value has its members at once. -/
lemma members_of_hasValue
    (hc : r.catalog.classify c = .ok (.restriction (.hasValue p v))) :
    r.members c = .ok (r.restricted (.hasValue p v) .all) :=
  members_of_interpret hc fun _ => rfl

/-- The members of a restriction to an individual have it as a value, under one
of its names. -/
lemma mem_restricted_hasValue_iff :
    i ∈ r.restricted (.hasValue p (.node o)) .all ↔
      ∃ o', r.facts.isSame o o' ∧ .node o' ∈ r.values (.direct p) i := by
  rw [mem_restricted_iff]
  exact exists_sameTerm_node_iff

/-- Values that are individuals are related. -/
lemma mem_related_of_mem_values (h : .node o ∈ r.values (.direct p) s) :
    o ∈ r.related p s := by
  rw [mem_related_iff]
  rcases mem_values_direct_iff.mp h with ⟨q, hq, hstated⟩ | ⟨o', ho, hpath⟩
  · exact .single ⟨q, hq, hstated⟩
  · obtain rfl : o = o' := Rdf.Term.node.inj ho
    exact hpath.mono fun t ht => (mem_transitives.mp ht).2.1

/-- The restriction of a property to an individual has those members that are
related to the individual, under one of its names. -/
def ReadsPaths (r : Reasoner) (p : Property) : Prop :=
  ∀ s o, s ∈ r.restricted (.hasValue p (.node o)) .all ↔
    ∃ o', r.facts.isSame o o' ∧ o' ∈ r.related p s

/-- If every covered property is transitive, all paths count. -/
lemma readsPaths_of_subset (h : ∀ q ∈ r.expand p, q ∈ r.transitives p) :
    r.ReadsPaths p := by
  intro s o
  rw [mem_restricted_hasValue_iff]
  refine exists_congr fun o' => and_congr_right fun _ =>
    ⟨mem_related_of_mem_values, fun hrelated => ?_⟩
  have hpath := (mem_related_iff.mp hrelated).mono h
  exact mem_values_direct_iff.mpr (.inr ⟨o', rfl, hpath⟩)

/-- If all paths count in a store that holds two steps of one covered property,
then this property is transitive. -/
lemma mem_transitives_of_readsPaths {f : Facts} {q : Property}
    (hq : q ∈ r.expand p) (hf : f.IsChain [q, q])
    (hreads : ReadsPaths { r with facts := f } p) : q ∈ r.transitives p := by
  have hcovered : ∀ u ∈ [q, q], u ∈ r.expand p := by simpa using hq
  have hrelated : stop 2 ∈ related { r with facts := f } p (stop 0) :=
    mem_related_iff.mpr (hf.path (by simp) hcovered)
  obtain ⟨o, hsame, hvalue⟩ := mem_restricted_hasValue_iff.mp
    ((hreads (stop 0) (stop 2)).mpr ⟨_, (hf.isSame _ _).mpr rfl, hrelated⟩)
  obtain rfl : stop 2 = o := (hf.isSame _ _).mp hsame
  rcases mem_values_direct_iff.mp hvalue with ⟨u, _, hstated⟩ | ⟨o', ho, hpath⟩
  · -- no assertion leads two steps on
    obtain ⟨n, _, h0, h2⟩ := Facts.mem_chain.mp ((hf.mem_assertions _).mp hstated)
    have hn := Facts.stop_inj.mp h0
    have hn' := Facts.stop_inj.mp (Rdf.Term.node.inj h2)
    omega
  · obtain rfl : stop 2 = o' := Rdf.Term.node.inj ho
    exact hf.mem_of_path hpath q (by simp)

/-- **Restrictions and paths**: a class described as the restriction of a
property to an individual has an answer; its members are all related to the
individual, by a path of covered properties. Whatever a store holds, those
related to it are all members just if paths count and every property that the
property covers is transitive. -/
theorem hasValue_reads_paths_iff (r : Reasoner) (p : Property) :
    (∀ c o, r.catalog.classify c = .ok (.restriction (.hasValue p (.node o))) →
      r.members c = .ok (r.restricted (.hasValue p (.node o)) .all)) ∧
    (∀ s o, s ∈ r.restricted (.hasValue p (.node o)) .all →
      ∃ o', r.facts.isSame o o' ∧ o' ∈ r.related p s) ∧
    (∀ s o, o ∈ r.related p s ↔ r.facts.Path {q | q ∈ r.expand p} s o) ∧
    ((∀ f : Facts, f.Reached → ReadsPaths { r with facts := f } p) ↔
      r.transitiveInference = true ∧
        ∀ q ∈ r.expand p, r.catalog.isTransitive q = true) := by
  refine ⟨fun c o hc => members_of_hasValue hc, fun s o hs => ?_,
    fun s o => mem_related_iff, fun hall => ?_, fun ⟨hinference, htrans⟩ f _ => ?_⟩
  · obtain ⟨o', hsame, hvalue⟩ := mem_restricted_hasValue_iff.mp hs
    exact ⟨o', hsame, mem_related_of_mem_values hvalue⟩
  · have hmem : ∀ q ∈ r.expand p, q ∈ r.transitives p := by
      intro q hq
      obtain ⟨f, hreached, hf⟩ := Facts.exists_reached_chain [q, q]
      exact mem_transitives_of_readsPaths hq hf (hall f hreached)
    have hself : p ∈ r.transitives p := hmem p Hierarchy.self_mem_expand
    exact ⟨(mem_transitives.mp hself).1,
      fun q hq => (mem_transitives.mp (hmem q hq)).2.2⟩
  · exact readsPaths_of_subset fun q hq =>
      mem_transitives.mpr ⟨hinference, hq, htrans q hq⟩

/-- The parts of a part are parts, but not if they are bolted to it. -/
theorem hasValue_misses_path :
    let spoke : Individual := .iri ⟨"e:spoke"⟩
    let wheel : Individual := .iri ⟨"e:wheel"⟩
    let car : Individual := .iri ⟨"e:car"⟩
    let partOf : Property := ⟨"e:partOf"⟩
    let boltedTo : Property := ⟨"e:boltedTo"⟩
    let inCar : ClassName := .iri ⟨"e:InCar"⟩
    let r : Reasoner := {
      facts := (Store.run {} [
        .tell (.assertion ⟨.positive, spoke, boltedTo, .node wheel⟩),
        .tell (.assertion ⟨.positive, wheel, boltedTo, .node car⟩)]).facts
      catalog := Terminology.catalog [
        .subProperty boltedTo partOf, .transitiveProperty partOf,
        .define inCar (.restriction (.hasValue partOf (.node car)))] }
    r.transitiveInference = true ∧ r.catalog.isTransitive partOf = true ∧
      ∃ is, r.members inCar = .ok is ∧
        ¬ (spoke ∈ is ↔
          ∃ o, r.facts.isSame car o ∧ o ∈ r.related partOf spoke) := by
  intro spoke wheel car partOf boltedTo inCar r
  have hmembers : r.members inCar = .ok [wheel] := by decide +kernel
  have hrelated : car ∈ r.related partOf spoke := by decide +kernel
  refine ⟨rfl, by decide, [wheel], hmembers, fun h => ?_⟩
  have hspoke : spoke ∈ [wheel] := h.mpr ⟨car, by simp, hrelated⟩
  exact absurd hspoke (by decide)

end Reasoner

end Ontology
