/-
Lists of statements that a store accepts, in whatever order they come.

* `Facts.Same`: the same content, read as sets; pairs count in either
  direction. `Facts.Within.antisymm`.
* `Facts.together`: statements recorded one after the other without a look at
  contradictions; `holds_together_iff`.
* `Store.Accepts`: every statement of a list is applied or known.
* `Store.accepts_iff`: a list is accepted when each of its statements makes
  sense and, in a protected store, all of them together are consistent and
  declare no instances of reserved classes.
* `Store.accepts_in_every_order`: hence the order does not matter.
-/
import Mathlib.Data.Set.Basic
import Ontology.Proofs.Store.Consistency

namespace Ontology

namespace Facts

variable {f g : Facts} {ts us : List Statement} {t u : Statement}

/-! ### The same content -/

/-- The same content: pairs count in either direction, groups are sets of
members, and repetition and order do not matter. -/
structure Same (f g : Facts) : Prop where
  individuals : ∀ i, i ∈ f.individuals ↔ i ∈ g.individuals
  types : ∀ i c, (i, c) ∈ f.types ↔ (i, c) ∈ g.types
  assertions : ∀ polarity kind x,
    x ∈ f.index polarity kind ↔ x ∈ g.index polarity kind
  sameAs : ∀ a b, (a, b) ∈ f.sameAs.both ↔ (a, b) ∈ g.sameAs.both
  isSame : ∀ a b, f.isSame a b ↔ g.isSame a b
  differentFrom : ∀ a b,
    (a, b) ∈ f.differentFrom.both ↔ (a, b) ∈ g.differentFrom.both
  isDifferent : ∀ a b, f.isDifferent a b ↔ g.isDifferent a b
  groups : {s : Set Individual | ∃ m ∈ f.groups, {i | i ∈ m} = s} =
    {s : Set Individual | ∃ m ∈ g.groups, {i | i ∈ m} = s}
  notes : ∀ n, n ∈ f.notes ↔ n ∈ g.notes

/-- Every group is a group of richer facts, as a set. -/
lemma Within.groups_subset (h : f.Within g) :
    {s : Set Individual | ∃ m ∈ f.groups, {i | i ∈ m} = s} ⊆
      {s : Set Individual | ∃ m ∈ g.groups, {i | i ∈ m} = s} := by
  rintro s ⟨m, hm, rfl⟩
  have hgroup := h (.allDifferent m)
    (holds_allDifferent_iff.mpr ⟨m, hm, fun _ => .rfl⟩)
  obtain ⟨n, hn, hnm⟩ := holds_allDifferent_iff.mp hgroup
  exact ⟨n, hn, Set.ext hnm⟩

/-- Facts with the same statements have the same content. -/
lemma Within.antisymm (hfg : f.Within g) (hgf : g.Within f) : f.Same g := by
  have hiff : ∀ t, f.holds t ↔ g.holds t := fun t => ⟨hfg t, hgf t⟩
  refine ⟨fun i => ?_, fun i c => ?_, fun polarity kind x => ?_, fun a b => ?_,
    fun a b => ?_, fun a b => ?_, fun a b => ?_,
    Set.Subset.antisymm hfg.groups_subset hgf.groups_subset, fun n => ?_⟩
  · simpa using hiff (.individual i)
  · simpa using hiff (.instanceOf i c)
  · have hx : x ∈ f.assertions ↔ x ∈ g.assertions := by
      simpa using hiff (.assertion x)
    simp only [index, List.mem_filter, hx]
  · simpa using hiff (.sameAs a b)
  · rw [isSame_iff, isSame_iff]
    exact ⟨hfg.mem_equals, hgf.mem_equals⟩
  · simpa using hiff (.differentFrom a b)
  · rw [isDifferent_iff, isDifferent_iff]
    exact ⟨hfg.mem_different, hgf.mem_different⟩
  · simpa using hiff (.note n)

/-! ### Statements together -/

/-- The facts with all statements of a list, contradictory or not. -/
def together (ts : List Statement) : Facts := ts.foldl add {}

lemma holds_foldl_add_iff :
    (ts.foldl add f).holds u ↔ f.holds u ∨ ∃ t ∈ ts, t.Tells u := by
  induction ts generalizing f with
  | nil => simp
  | cons t ts ih =>
    rw [List.foldl_cons, ih, holds_add_iff]
    simp [or_assoc]

/-- Together statements hold what each of them tells. -/
lemma holds_together_iff :
    (together ts).holds u ↔ ∃ t ∈ ts, t.Tells u := by
  rw [together, holds_foldl_add_iff]
  simp [not_holds_empty]

lemma holds_together_of_mem (ht : t ∈ ts) : (together ts).holds t :=
  holds_together_iff.mpr ⟨t, ht, .inl (.refl t)⟩

lemma Declares.foldl_add (hf : f.Declares) (ts : List Statement) :
    (ts.foldl Facts.add f).Declares := by
  induction ts generalizing f with
  | nil => exact hf
  | cons t ts ih => exact ih (hf.add t)

lemma declares_together (ts : List Statement) : (together ts).Declares :=
  Declares.foldl_add declares_empty ts

/-- The order of statements does not matter to what they tell together. -/
lemma together_within_of_subset (h : ∀ t ∈ ts, t ∈ us) :
    (together ts).Within (together us) := by
  intro u hu
  obtain ⟨t, ht, htu⟩ := holds_together_iff.mp hu
  exact holds_together_iff.mpr ⟨t, h t ht, htu⟩

end Facts

namespace Store

variable {s : Store} {config : Config} {ts us : List Statement} {g : Facts}

/-! ### Accepted lists -/

/-- Every statement of a list is applied or known when its turn comes. -/
def Accepts : Store → List Statement → Prop
  | _, [] => True
  | s, t :: ts =>
    (s.judge t = .applied ∨ s.judge t = .unchanged) ∧ (s.tell t).Accepts ts

/-- The facts after a list of statements. -/
def tellAll (s : Store) (ts : List Statement) : Store := s.run (ts.map .tell)

@[simp] lemma tellAll_cons (s : Store) (t : Statement) (ts : List Statement) :
    s.tellAll (t :: ts) = (s.tell t).tellAll ts := rfl

/-- What an accepted statement leaves behind. -/
lemma holds_tell_iff {u : Statement} (hs : s.facts.Declares) {t : Statement}
    (ht : s.judge t = .applied ∨ s.judge t = .unchanged) :
    (s.tell t).facts.holds u ↔ s.facts.holds u ∨ t.Tells u := by
  rcases ht with h | h
  · rw [tell_eq_of_applied h, Facts.holds_add_iff]
  · have hholds := (judge_eq_unchanged_iff.mp h).2
    rw [tell_eq_of_ne_applied (by simp [h]), iff_self_or]
    exact hs.holds_of_tells hholds

lemma declares_tell (hs : s.facts.Declares) (t : Statement) :
    (s.tell t).facts.Declares := by
  by_cases h : s.judge t = .applied
  · rw [tell_eq_of_applied h]
    exact hs.add t
  · rwa [tell_eq_of_ne_applied h]

/-- A store forgets nothing by what it is told. -/
lemma within_tell (s : Store) (t : Statement) : s.facts.Within (s.tell t).facts := by
  by_cases h : s.judge t = .applied
  · rw [tell_eq_of_applied h]
    exact .add s.facts t
  · rw [tell_eq_of_ne_applied h]
    exact fun _ => id

lemma within_tellAll (s : Store) (ts : List Statement) :
    s.facts.Within (s.tellAll ts).facts := by
  induction ts generalizing s with
  | nil => exact fun _ => id
  | cons t ts ih => exact fun u hu => ih (s.tell t) u (within_tell s t u hu)

/-- An accepted list leaves behind what was known and what its statements
tell. -/
lemma holds_tellAll_iff {u : Statement} (hs : s.facts.Declares)
    (hts : s.Accepts ts) :
    (s.tellAll ts).facts.holds u ↔ s.facts.holds u ∨ ∃ t ∈ ts, t.Tells u := by
  induction ts generalizing s with
  | nil => simp [tellAll, run]
  | cons t ts ih =>
    rw [tellAll_cons, ih (declares_tell hs t) hts.2, holds_tell_iff hs hts.1]
    simp [or_assoc]

/-- An accepted list makes the same known as its statements together. -/
lemma holds_tellAll_iff_together {u : Statement}
    (hts : ({ config } : Store).Accepts ts) :
    (({ config } : Store).tellAll ts).facts.holds u ↔
      (Facts.together ts).holds u := by
  rw [holds_tellAll_iff Facts.declares_empty hts, Facts.holds_together_iff]
  simp [Facts.not_holds_empty]

/-! ### Which lists are accepted -/

/-- No statement declares an instance of a reserved class. -/
def Unreserved (config : Config) (ts : List Statement) : Prop :=
  ∀ i c, .instanceOf i c ∈ ts → c ∉ config.reserved

/-- Statements with sense are accepted as long as all that is known stays
within consistent facts in which they hold. -/
lemma accepts_of_within (hg : g.Declares) (hsg : s.facts.Within g)
    (hfault : ∀ t ∈ ts, t.fault? = none) (hholds : ∀ t ∈ ts, g.holds t)
    (hconsistent : s.config.protection → g.Consistent)
    (hunreserved : s.config.protection → Unreserved s.config ts) :
    s.Accepts ts := by
  induction ts generalizing s with
  | nil => trivial
  | cons t ts ih =>
    obtain ⟨ht, hts⟩ := List.forall_mem_cons.mp hfault
    obtain ⟨hgt, hgts⟩ := List.forall_mem_cons.mp hholds
    have hadd : (s.facts.add t).Within g := hsg.add_of_holds hg hgt
    have hjudge : s.judge t = .applied ∨ s.judge t = .unchanged := by
      rw [judge_eq_applied_iff, judge_eq_unchanged_iff]
      by_cases hold : s.facts.holds t
      · exact .inr ⟨ht, hold⟩
      · refine .inl ⟨ht, hold, fun hp => ?_⟩
        -- a conflict would make `g` inconsistent, or name a reserved class
        rw [← Option.not_isSome_iff_eq_none,
          Facts.conflict?_isSome_iff ((hconsistent hp).of_within hsg) ht]
        rintro (hbad | ⟨i, c, hc, rfl⟩)
        · exact hbad ((hconsistent hp).of_within hadd)
        · exact hunreserved hp i c List.mem_cons_self hc
    have htell : (s.tell t).facts.Within g := by
      by_cases h : s.judge t = .applied
      · rwa [tell_eq_of_applied h]
      · rwa [tell_eq_of_ne_applied h]
    refine ⟨hjudge, ih htell hts hgts ?_ ?_⟩
    · rwa [config_tell]
    · rw [config_tell]
      exact fun hp i c hic => hunreserved hp i c (List.mem_cons_of_mem t hic)

/-- In a protected store nothing is an instance of a reserved class. -/
lemma run_unreserved (hprotection : config.protection = true)
    (cs : List Command) {i : Individual} {c : ClassName}
    (hic : (run { config } cs).facts.holds (.instanceOf i c)) :
    c ∉ config.reserved := by
  revert i c
  refine run_induction (P := fun f => ∀ {i c}, f.holds (.instanceOf i c) →
    c ∉ config.reserved) (fun h => absurd h Facts.not_holds_empty) ?_ cs
  intro f t hf happlied i c hic hc
  obtain ⟨_, _, hconflict⟩ := judge_eq_applied_iff.mp happlied
  rcases Facts.holds_add_iff.mp hic with hold | htells
  · exact hf hold hc
  · have ht : t = .instanceOf i c := by
      cases t <;> simp_all [Statement.Tells, Statement.Alike]
    subst ht
    simpa [Facts.conflict?, hc] using hconflict hprotection

/-- Accepted statements make sense. -/
lemma Accepts.fault_eq_none (hts : s.Accepts ts) {t : Statement}
    (ht : t ∈ ts) : t.fault? = none := by
  induction ts generalizing s with
  | nil => simp at ht
  | cons u us ih =>
    rcases List.mem_cons.mp ht with rfl | ht
    · rcases hts.1 with h | h
      · exact (judge_eq_applied_iff.mp h).1
      · exact (judge_eq_unchanged_iff.mp h).1
    · exact ih hts.2 ht

/-- **Acceptance is consistency of the whole**: a list is accepted from the
empty store when each statement makes sense and, in a protected store, all of
them together are consistent and name no reserved class as a type. -/
theorem accepts_iff :
    ({ config } : Store).Accepts ts ↔
      (∀ t ∈ ts, t.fault? = none) ∧
        (config.protection →
          (Facts.together ts).Consistent ∧ Unreserved config ts) := by
  constructor
  · intro hts
    have hheld : ∀ u, (Facts.together ts).holds u →
        (run { config } (ts.map .tell)).facts.holds u :=
      fun u => (holds_tellAll_iff_together hts).mpr
    refine ⟨fun t => hts.fault_eq_none, fun hp => ⟨?_, fun i c hic => ?_⟩⟩
    · exact (run_consistent hp _).of_within hheld
    · exact run_unreserved hp _ (hheld _ (Facts.holds_together_of_mem hic))
  · rintro ⟨hfault, hprotected⟩
    exact accepts_of_within (Facts.declares_together ts) (Facts.Within.empty _)
      hfault (fun _ => Facts.holds_together_of_mem) (fun hp => (hprotected hp).1)
      (fun hp => (hprotected hp).2)

/-- **The order of statements does not matter**: if a list is accepted from the
empty store, then it is accepted in every other order, and leaves behind the
same content. -/
theorem accepts_in_every_order (hperm : ts.Perm us)
    (hts : ({ config } : Store).Accepts ts) :
    ({ config } : Store).Accepts us ∧
      (({ config } : Store).tellAll ts).facts.Same
        (({ config } : Store).tellAll us).facts := by
  obtain ⟨hfault, hprotected⟩ := accepts_iff.mp hts
  have hus : ({ config } : Store).Accepts us := by
    refine accepts_iff.mpr ⟨fun t ht => hfault t (hperm.mem_iff.mpr ht),
      fun hp => ⟨?_, fun i c hic => ?_⟩⟩
    · exact (hprotected hp).1.of_within
        (Facts.together_within_of_subset fun t => hperm.mem_iff.mpr)
    · exact (hprotected hp).2 i c (hperm.mem_iff.mpr hic)
  refine ⟨hus, Facts.Within.antisymm (fun u hu => ?_) fun u hu => ?_⟩
  · rw [holds_tellAll_iff_together hts] at hu
    rw [holds_tellAll_iff_together hus]
    exact Facts.together_within_of_subset (fun t => hperm.mem_iff.mp) u hu
  · rw [holds_tellAll_iff_together hus] at hu
    rw [holds_tellAll_iff_together hts]
    exact Facts.together_within_of_subset (fun t => hperm.mem_iff.mpr) u hu

/-- Names that are merged first may as well be merged last, after the
assertions and the group that the merge bears upon. -/
theorem accepts_in_every_order_of_merge :
    let ada : Individual := .iri ⟨"e:ada"⟩
    let lovelace : Individual := .iri ⟨"e:lovelace"⟩
    let byron : Individual := .iri ⟨"e:byron"⟩
    let knows : Property := ⟨"e:knows"⟩
    let merge : Statement := .sameAs ada lovelace
    let others : List Statement :=
      [.assertion ⟨.positive, ada, knows, .node byron⟩,
        .assertion ⟨.negative, byron, knows, .node lovelace⟩,
        .allDifferent [lovelace, byron], .instanceOf ada (.iri ⟨"e:Poet"⟩)]
    (merge :: others).Perm (others ++ [merge]) ∧
      ({} : Store).Accepts (merge :: others) ∧
      ({} : Store).Accepts (others ++ [merge]) ∧
      (({} : Store).tellAll (merge :: others)).facts.Same
        (({} : Store).tellAll (others ++ [merge])).facts := by
  intro ada lovelace byron knows merge others
  have hperm : (merge :: others).Perm (others ++ [merge]) :=
    (List.perm_append_singleton merge others).symm
  have hts : ({} : Store).Accepts (merge :: others) := by
    refine ⟨?_, ?_, ?_, ?_, ?_, trivial⟩ <;> decide
  exact ⟨hperm, hts, accepts_in_every_order hperm hts⟩

end Store

end Ontology
