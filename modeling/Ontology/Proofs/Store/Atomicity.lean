/-
Statements take effect as a whole or not at all.

* `Statement.entry`: what a statement says, as facts of its own.
* `Facts.Extends`: facts that are others with the entry of a statement after
  them and with its individuals known, part by part; `extends_add`.
* `AssertionIndex.Extends`, `PairIndex.Extends`, `GroupIndex.Extends`: indexes
  that have some more assertions, pairs or groups than others, and nothing else.
* `Index.Extends`: indexes that are others with a statement entered, component
  by component; `Index.extends_add`.
* `Indexed.effective`: the commands that a run carries out;
  `Indexed.run_effective`: the others leave no trace.
* `Indexed.perform_all_or_nothing`: after every run the operation for a
  statement leaves facts and indexes as they were, or the statement was not
  known, and facts and indexes are extended by it.
-/
import Ontology.Proofs.Store.Content
import Ontology.Proofs.Store.Updates

namespace Ontology

/-- What a statement says, as facts of its own. A member of a group is listed
once. -/
def Statement.entry : Statement → Facts
  | individual _ => {}
  | instanceOf i c => { types := [(i, c)] }
  | assertion a => { assertions := [a] }
  | sameAs a b => { sameAs := [(a, b)] }
  | differentFrom a b => { differentFrom := [(a, b)] }
  | allDifferent members => { groups := [members.eraseDups] }
  | note n => { notes := [n] }

namespace Edges

lemma mem_both_append {α : Type} {es fs : Edges α} {a b : α} :
    (a, b) ∈ Edges.both (es ++ fs) ↔ (a, b) ∈ es.both ∨ (a, b) ∈ fs.both := by
  simp only [mem_both, List.mem_append]
  tauto

end Edges

namespace Facts

variable {f g : Facts} {t : Statement}

/-! ### Extended facts -/

/-- The facts `g` are the facts `f`, each part in its order, with the entry of a
statement at the end, and with those of its individuals that were not known.
What is looked up in the parts grows with them. -/
structure Extends (f : Facts) (t : Statement) (g : Facts) : Prop where
  individuals : ∃ new, g.individuals = f.individuals ++ new ∧ new.Nodup ∧
    ∀ i, i ∈ new ↔ i ∈ t.individuals ∧ i ∉ f.individuals
  types : g.types = f.types ++ t.entry.types
  index : ∀ polarity kind,
    g.index polarity kind = f.index polarity kind ++ t.entry.index polarity kind
  sameAs : g.sameAs = f.sameAs ++ t.entry.sameAs
  mem_both_sameAs : ∀ a b, (a, b) ∈ g.sameAs.both ↔
    (a, b) ∈ f.sameAs.both ∨ (a, b) ∈ t.entry.sameAs.both
  differentFrom : g.differentFrom = f.differentFrom ++ t.entry.differentFrom
  mem_both_differentFrom : ∀ a b, (a, b) ∈ g.differentFrom.both ↔
    (a, b) ∈ f.differentFrom.both ∨ (a, b) ∈ t.entry.differentFrom.both
  groups : g.groups = f.groups ++ t.entry.groups
  groupsOf : ∀ i, g.groupsOf i = f.groupsOf i ++ t.entry.groupsOf i
  notes : g.notes = f.notes ++ t.entry.notes
  /-- There holds what held, what the statement says, and that its individuals
  are known. -/
  holds_iff : ∀ u, g.holds u ↔ f.holds u ∨ t.Alike u ∨
    ∃ i ∈ t.individuals, u = .individual i

/-- Individuals that are declared follow the known ones, each once, if they were
not known. -/
lemma exists_foldl_insertNew (is known : List Individual) :
    ∃ new, is.foldl insertNew known = known ++ new ∧ new.Nodup ∧
      ∀ i, i ∈ new ↔ i ∈ is ∧ i ∉ known := by
  induction is generalizing known with
  | nil => exact ⟨[], by simp⟩
  | cons i is ih =>
    rw [List.foldl_cons, insertNew]
    split
    · next hi =>
      obtain ⟨new, hnew, hnodup, hmem⟩ := ih known
      refine ⟨new, hnew, hnodup, fun j => ?_⟩
      rw [hmem, List.mem_cons]
      grind
    · next hi =>
      obtain ⟨new, hnew, hnodup, hmem⟩ := ih (known ++ [i])
      refine ⟨i :: new, by simp [hnew], List.nodup_cons.mpr ⟨?_, hnodup⟩,
        fun j => ?_⟩
      · simp [hmem]
      · rw [List.mem_cons, hmem]
        grind

/-- The parts of the facts with a statement recorded. -/
lemma record_eq (f : Facts) (t : Statement) :
    f.record t = {
      individuals := f.individuals
      types := f.types ++ t.entry.types
      assertions := f.assertions ++ t.entry.assertions
      sameAs := f.sameAs ++ t.entry.sameAs
      differentFrom := f.differentFrom ++ t.entry.differentFrom
      groups := f.groups ++ t.entry.groups
      notes := f.notes ++ t.entry.notes } := by
  cases t <;> simp [record, Statement.entry]

/-- **Recording** a statement extends the facts. -/
theorem extends_add (f : Facts) (t : Statement) : f.Extends t (f.add t) := by
  have hholds : ∀ u, (f.add t).holds u ↔ f.holds u ∨ t.Tells u :=
    fun u => holds_add_iff
  rw [add, record_eq] at hholds ⊢
  exact {
    individuals := exists_foldl_insertNew t.individuals f.individuals
    types := rfl
    index := fun _ _ => List.filter_append ..
    sameAs := rfl
    mem_both_sameAs := fun _ _ => Edges.mem_both_append
    differentFrom := rfl
    mem_both_differentFrom := fun _ _ => Edges.mem_both_append
    groups := rfl
    groupsOf := fun _ => List.filter_append ..
    notes := rfl
    holds_iff := hholds }

end Facts

/-! ### Extended indexes -/

namespace AssertionIndex

variable {ω : Type} [DecidableEq ω] {x y : AssertionIndex ω}

/-- The index `y` has the assertions of `x` and some new ones, and counts them.
No other entry is touched. -/
structure Extends (x : AssertionIndex ω) (new : List (Individual × Property × ω))
    (y : AssertionIndex ω) : Prop where
  contains_iff : ∀ s p o, y.contains s p o ↔ x.contains s p o ∨ (s, p, o) ∈ new
  size_eq : y.size = x.size + new.length
  objects?_eq : ∀ s p, (∀ o, (s, p, o) ∉ new) → y.objects? s p = x.objects? s p
  get?_byProperty : ∀ p, (∀ s o, (s, p, o) ∉ new) → y.byProperty.get? p = x.byProperty.get? p
  eq_of_nil : new = [] → y = x

lemma extends_nil (x : AssertionIndex ω) : x.Extends [] x :=
  ⟨by simp, rfl, fun _ _ _ => rfl, fun _ _ => rfl, fun _ => rfl⟩

lemma extends_insert {s : Individual} {p : Property} {o : ω}
    (hnew : ¬ x.contains s p o) : x.Extends [(s, p, o)] (x.insert s p o) where
  contains_iff := by simp
  size_eq := if_neg hnew
  objects?_eq r q hrq := by
    simp only [objects?, insert, Table.get?_alter]
    split
    · next hq =>
      subst hq
      have hr : r ≠ s := by
        rintro rfl
        exact hrq o (.head _)
      cases x.byProperty.get? q <;> simp [Table.addTo, Table.get?_alter, hr]
    · rfl
  get?_byProperty q hq := by
    have hqp : q ≠ p := by
      rintro rfl
      exact hq s o (.head _)
    rw [insert, Table.get?_alter, if_neg hqp]
  eq_of_nil h := absurd h (List.cons_ne_nil _ _)

/-- A new assertion of one polarity leaves the index of the other alone. -/
lemma extends_alter {indexes : Polar (AssertionIndex ω)} {r : Polarity} {s : Individual}
    {p : Property} {o : ω} (hnew : ¬ (indexes.of r).contains s p o) (q : Polarity) :
    (indexes.of q).Extends (if q = r then [(s, p, o)] else [])
      ((indexes.alter r (·.insert s p o)).of q) := by
  rw [Polar.of_alter]
  split
  · next hq =>
    subst hq
    exact extends_insert hnew
  · exact extends_nil _

end AssertionIndex

namespace PairIndex

variable {x y : PairIndex} {a b : Individual}

/-- The index `y` has the pairs of `x` and after them some new ones, which it
finds from both ends. No other entry is touched. -/
structure Extends (x : PairIndex) (new : Edges Individual) (y : PairIndex) :
    Prop where
  declared : y.declared = x.declared ++ new
  mem_neighbours : ∀ a b, b ∈ y.neighbours a ↔ b ∈ x.neighbours a ∨ (a, b) ∈ new.both
  get?_edges : ∀ a, (∀ b, (a, b) ∉ new.both) → y.edges.get? a = x.edges.get? a
  eq_of_nil : new = [] → y = x

lemma extends_nil (x : PairIndex) : x.Extends [] x :=
  ⟨by simp, by simp [Edges.both, Edges.flip], fun _ _ => rfl, fun _ => rfl⟩

lemma extends_insert (hnew : ¬ x.contains a b) : x.Extends [(a, b)] (x.insert a b) := by
  rw [insert, if_neg hnew]
  refine ⟨rfl, fun c d => ?_, fun c hc => ?_, fun h => absurd h (List.cons_ne_nil _ _)⟩
  · simp only [neighbours, ListSet.mem_toList, Table.mem_members_addTo, Edges.mem_both,
      List.mem_singleton, Prod.mk.injEq]
    tauto
  · have hca : c ≠ a := by
      rintro rfl
      exact hc b (by simp)
    have hcb : c ≠ b := by
      rintro rfl
      exact hc a (by simp)
    simp [Table.addTo, Table.get?_alter, hca, hcb]

end PairIndex

namespace GroupIndex

variable {x y : GroupIndex} {members : List Individual}

/-- The index `y` has the groups of `x` and after them some new ones, and their
positions with each of their members. No other entry is touched. -/
structure Extends (x : GroupIndex) (new : List (List Individual)) (y : GroupIndex) :
    Prop where
  groups : y.groups = x.groups ++ new
  positionsOf : ∀ i, y.positionsOf i =
    x.positionsOf i ++ ((new.zipIdx x.groups.length).filter (i ∈ ·.1)).map (·.2)
  get?_positions : ∀ i, (∀ g ∈ new, i ∉ g) → y.positions.get? i = x.positions.get? i
  eq_of_nil : new = [] → y = x

lemma extends_nil (x : GroupIndex) : x.Extends [] x :=
  ⟨by simp, by simp, fun _ _ => rfl, fun _ => rfl⟩

lemma extends_push (hnodup : members.Nodup) (x : GroupIndex) :
    x.Extends [members] (x.push members) where
  groups := rfl
  positionsOf i := by
    rw [positionsOf_push hnodup]
    by_cases hi : i ∈ members <;> simp [hi]
  get?_positions i hi := get?_place_of_notMem (hi members (.head _)) ..
  eq_of_nil h := absurd h (List.cons_ne_nil _ _)

end GroupIndex

/-- The stated or the denied relations among facts. -/
def Facts.relations (f : Facts) (q : Polarity) :
    List (Individual × Property × Individual) :=
  (f.index q .object).filterMap fun a =>
    a.object.node?.map fun o => (a.subject, a.property, o)

/-- The stated or the denied values among facts. -/
def Facts.values (f : Facts) (q : Polarity) :
    List (Individual × Property × Rdf.Literal) :=
  (f.index q .datatype).filterMap fun a =>
    a.object.literal?.map fun l => (a.subject, a.property, l)

namespace Index

variable {x y : Index} {f : Facts} {t : Statement}

/-- The indexes `y` are the indexes `x` with a statement entered: each component
has what it had, then what the statement says, and nothing else. -/
structure Extends (x : Index) (t : Statement) (y : Index) : Prop where
  individuals : ∃ new, y.individuals.toList = x.individuals.toList ++ new ∧ new.Nodup ∧
    ∀ i, i ∈ new ↔ i ∈ t.individuals ∧ i ∉ x.individuals
  typesOf : ∀ i, y.typesOf i = x.typesOf i ++ t.entry.typesOf i
  get?_types : ∀ i, t.entry.typesOf i = [] → y.types.get? i = x.types.get? i
  relations : ∀ q, (x.relations.of q).Extends (t.entry.relations q) (y.relations.of q)
  values : ∀ q, (x.values.of q).Extends (t.entry.values q) (y.values.of q)
  sameAs : x.sameAs.Extends t.entry.sameAs y.sameAs
  differentFrom : x.differentFrom.Extends t.entry.differentFrom y.differentFrom
  groups : x.groups.Extends t.entry.groups y.groups
  notesOf : ∀ i, y.notesOf i =
    x.notesOf i ++ (t.entry.notesOf i).map fun n => (n.property, n.value)
  get?_notes : ∀ i, t.entry.notesOf i = [] → y.notes.get? i = x.notes.get? i

/-- A new relation extends the index of its polarity. -/
lemma extends_relations {a : Assertion} (hnew : ¬ x.contains a) (q : Polarity) :
    (x.relations.of q).Extends ((Statement.assertion a).entry.relations q)
      ((x.insert a).relations.of q) := by
  obtain ⟨r, s, p, o | l⟩ := a
  · have hentry : (Statement.assertion ⟨r, s, p, .node o⟩).entry.relations q =
        if q = r then [(s, p, o)] else [] := by
      cases q <;> cases r <;> rfl
    rw [hentry]
    exact AssertionIndex.extends_alter hnew q
  · have hentry : (Statement.assertion ⟨r, s, p, .literal l⟩).entry.relations q = [] := by
      cases q <;> cases r <;> rfl
    rw [hentry]
    exact AssertionIndex.extends_nil _

/-- A new value extends the index of its polarity. -/
lemma extends_values {a : Assertion} (hnew : ¬ x.contains a) (q : Polarity) :
    (x.values.of q).Extends ((Statement.assertion a).entry.values q)
      ((x.insert a).values.of q) := by
  obtain ⟨r, s, p, o | l⟩ := a
  · have hentry : (Statement.assertion ⟨r, s, p, .node o⟩).entry.values q = [] := by
      cases q <;> cases r <;> rfl
    rw [hentry]
    exact AssertionIndex.extends_nil _
  · have hentry : (Statement.assertion ⟨r, s, p, .literal l⟩).entry.values q =
        if q = r then [(s, p, l)] else [] := by
      cases q <;> cases r <;> rfl
    rw [hentry]
    exact AssertionIndex.extends_alter hnew q

/-- **Entering** a new statement extends the indexes. -/
theorem extends_add (hx : x.Coherent) (hf : x.Shows f) (hnew : ¬ f.holds t) :
    x.Extends t (x.add t) := by
  have hadd : (x.add t).Shows (f.add t) := hf.add hx hnew
  have hfacts : f.Extends t (f.add t) := f.extends_add t
  exact {
    individuals := by
      obtain ⟨new, heq, hnodup, hmem⟩ := hfacts.individuals
      refine ⟨new, ?_, hnodup, fun i => ?_⟩
      · rw [hadd.individuals, heq, hf.individuals]
      · rw [hmem, ← hf.individuals, ListSet.mem_toList]
    typesOf := fun i => by
      rw [hadd.typesOf, hf.typesOf, Facts.typesOf, hfacts.types, List.filter_append,
        List.map_append]
      rfl
    get?_types := fun i hi => by
      cases t with
      | instanceOf j c =>
        have hij : i ≠ j := by
          rintro rfl
          simp [Statement.entry, Facts.typesOf] at hi
        change (x.types.addTo j c).get? i = _
        rw [Table.addTo, Table.get?_alter, if_neg hij]
      | assertion a => obtain ⟨_, _, _, _ | _⟩ := a <;> rfl
      | _ => rfl
    relations := fun q => by
      cases t with
      | assertion a => exact extends_relations ((contains_iff_holds hf a).not.mpr hnew) q
      | _ => exact AssertionIndex.extends_nil _
    values := fun q => by
      cases t with
      | assertion a => exact extends_values ((contains_iff_holds hf a).not.mpr hnew) q
      | _ => exact AssertionIndex.extends_nil _
    sameAs := by
      cases t with
      | sameAs a b => exact PairIndex.extends_insert ((contains_sameAs_iff hx hf).not.mpr hnew)
      | assertion a => obtain ⟨_, _, _, _ | _⟩ := a <;> exact PairIndex.extends_nil _
      | _ => exact PairIndex.extends_nil _
    differentFrom := by
      cases t with
      | differentFrom a b =>
        exact PairIndex.extends_insert ((contains_differentFrom_iff hx hf).not.mpr hnew)
      | assertion a => obtain ⟨_, _, _, _ | _⟩ := a <;> exact PairIndex.extends_nil _
      | _ => exact PairIndex.extends_nil _
    groups := by
      cases t with
      | allDifferent members => exact GroupIndex.extends_push (nodup_eraseDups members) _
      | assertion a => obtain ⟨_, _, _, _ | _⟩ := a <;> exact GroupIndex.extends_nil _
      | _ => exact GroupIndex.extends_nil _
    notesOf := fun i => by
      rw [hadd.notesOf, hf.notesOf, Facts.notesOf, hfacts.notes, List.filter_append,
        List.map_append]
      rfl
    get?_notes := fun i hi => by
      cases t with
      | note n =>
        have hin : i ≠ n.subject := by
          rintro rfl
          simp [Statement.entry, Facts.notesOf] at hi
        change (x.pushNote n).notes.get? i = _
        rw [pushNote, Table.get?_alter, if_neg hin]
      | assertion a => obtain ⟨_, _, _, _ | _⟩ := a <;> rfl
      | _ => rfl }

end Index

/-! ### Operations -/

namespace Indexed

variable {s : Indexed} {t : Statement}

/-- **What is not carried out leaves no trace**: no component of the store is
touched. -/
lemma Sound.tell_of_ne_applied (h : s.Sound) (ht : s.judge t ≠ .applied) :
    s.tell t = s := by
  rw [h.tell_eq, if_neg (h.judge_eq t ▸ ht)]

lemma Sound.tell_of_applied (h : s.Sound) (ht : s.judge t = .applied) :
    s.tell t = s.add t := by
  rw [h.tell_eq, if_pos (h.judge_eq t ▸ ht)]

/-- The commands that a run carries out: every return to the empty store, and
the statements that are applied. -/
def effective (s : Indexed) : List Command → List Command
  | [] => []
  | .reset :: cs => .reset :: s.reset.effective cs
  | .tell t :: cs =>
    if s.judge t = .applied then .tell t :: (s.tell t).effective cs
    else s.effective cs

/-- Without the other commands a run comes to the same store. -/
theorem Sound.run_effective (h : s.Sound) (cs : List Command) :
    s.run (s.effective cs) = s.run cs := by
  induction cs generalizing s with
  | nil => rfl
  | cons c cs ih =>
    cases c with
    | reset => exact ih (h.step .reset).1
    | tell t =>
      rw [effective]
      split
      · exact ih (h.tell t)
      · next ht =>
        rw [ih h, show s.run (.tell t :: cs) = (s.tell t).run cs from rfl,
          h.tell_of_ne_applied ht]

/-- **All or nothing**: after every run, the operation for a statement that
makes no sense, is known or contradicts the facts leaves every component of the
store and of its indexes as it was. The operation for one that is applied finds
it unknown and extends facts and indexes by what it says and by its
individuals. So each run comes to the store to which the commands that it
carries out lead by themselves. -/
theorem perform_all_or_nothing (config : Config) (cs : List Command)
    (t : Statement) :
    let s := run { config } cs
    let r : Outcome × Indexed := (perform t).run s
    (r.1 ≠ .applied → r.2 = s) ∧
    (r.1 = .applied → ¬ s.facts.holds t ∧ r.2.config = config ∧
      s.facts.Extends t r.2.facts ∧ s.index.Extends t r.2.index) ∧
    s = run { config } (effective { config } cs) := by
  intro s r
  obtain ⟨h, hstore⟩ := (Sound.empty config).run cs
  have hconfig : s.config = config :=
    (congrArg Store.config hstore).trans (Store.config_run _ cs)
  refine ⟨h.tell_of_ne_applied, fun happlied => ?_, ((Sound.empty config).run_effective cs).symm⟩
  have hnew : ¬ s.facts.holds t :=
    (Store.judge_eq_applied_iff.mp ((h.judge_eq t).symm.trans happlied)).2.1
  rw [show r.2 = s.add t from h.tell_of_applied happlied]
  exact ⟨hnew, hconfig, s.facts.extends_add t, Index.extends_add h.coherent h.shows hnew⟩

/-- Two members of a group are not merged, a remark is not made twice, and a
further one makes its subject known but not the individual that it mentions. -/
theorem perform_all_or_nothing_of_remark :
    let ada : Individual := .iri ⟨"e:ada"⟩
    let byron : Individual := .iri ⟨"e:byron"⟩
    let charles : Individual := .iri ⟨"e:charles"⟩
    let clement : Rdf.Term := .node (.iri ⟨"e:clement"⟩)
    let known : Statement := .note ⟨ada, ⟨"e:mentor"⟩, clement⟩
    let merge : Statement := .sameAs byron ada
    let remark : Statement := .note ⟨charles, ⟨"e:mentor"⟩, clement⟩
    let cs : List Command := [.tell (.allDifferent [ada, byron]), .tell known]
    let s := run {} cs
    (((perform merge).run s).1 ≠ .applied ∧ ((perform merge).run s).2 = s) ∧
      (((perform known).run s).1 ≠ .applied ∧ ((perform known).run s).2 = s) ∧
      ((perform remark).run s).1 = .applied ∧
      s.index.Extends remark ((perform remark).run s).2.index ∧
      ((perform remark).run s).2.index.individuals.toList = [ada, byron, charles] := by
  intro ada byron charles clement known merge remark cs
  have hmerge : ((perform merge).run (run {} cs)).1 ≠ .applied := by decide
  have hknown : ((perform known).run (run {} cs)).1 ≠ .applied := by decide
  have hremark : ((perform remark).run (run {} cs)).1 = .applied := by decide
  refine ⟨⟨hmerge, (perform_all_or_nothing {} cs merge).1 hmerge⟩,
    ⟨hknown, (perform_all_or_nothing {} cs known).1 hknown⟩, hremark,
    ((perform_all_or_nothing {} cs remark).2.1 hremark).2.2.2, ?_⟩
  decide

end Indexed

end Ontology
