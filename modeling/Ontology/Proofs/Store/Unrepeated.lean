/-
What stores hold, they hold once.

* `nodup_eraseDups`, `eraseDups_ne_nil`: no repetition is left by `eraseDups`, but
  members are; `Facts.foldl_insertNew_eraseDups`: they become known as with repetitions.
* `Edges.Unrepeated`: declared pairs of two individuals each, and no pair a second
  time, in whichever direction; `Unrepeated.concat`.
* `Groups.Unrepeated`: groups that list their members once, and no group a second time,
  in whatever order; `Unrepeated.concat`.
* `Facts.Unrepeated`: no part of the facts has a repetition; `Unrepeated.add`,
  `Store.run_unrepeated`: neither does any part of the facts of a store.
-/
import Mathlib.Data.List.Nodup
import Ontology.Proofs.Store.Content
import Ontology.Proofs.Store.Runs

namespace Ontology

/-- No repetition is left by `eraseDups`. -/
lemma nodup_eraseDups {α : Type} [DecidableEq α] (l : List α) : l.eraseDups.Nodup := by
  cases l with
  | nil => simp
  | cons a l =>
    rw [List.eraseDups_cons, List.nodup_cons]
    exact ⟨by simp, nodup_eraseDups (l.filter fun b => !b == a)⟩
termination_by l.length
decreasing_by exact Nat.lt_succ_of_le (List.length_filter_le ..)

lemma eraseDups_ne_nil {α : Type} [DecidableEq α] {l : List α} (h : l ≠ []) :
    l.eraseDups ≠ [] := by
  obtain ⟨a, ha⟩ := List.exists_mem_of_ne_nil l h
  exact List.ne_nil_of_mem (List.mem_eraseDups.mpr ha)

namespace Facts

/-- Whoever is known need not be told again. -/
lemma foldl_insertNew_filter {known : List Individual} {i : Individual} (hi : i ∈ known)
    (is : List Individual) :
    (is.filter fun j => !j == i).foldl insertNew known = is.foldl insertNew known := by
  induction is generalizing known with
  | nil => rfl
  | cons j is ih =>
    by_cases hj : j = i
    · subst hj
      simp [insertNew, hi, ih hi]
    · rw [List.filter_cons_of_pos (by simpa using hj), List.foldl_cons, List.foldl_cons]
      refine ih ?_
      unfold insertNew
      split <;> simp [hi]

/-- Individuals become known in the order in which they are first told. -/
lemma foldl_insertNew_eraseDups (is known : List Individual) :
    is.eraseDups.foldl insertNew known = is.foldl insertNew known := by
  cases is with
  | nil => rfl
  | cons i is =>
    have hi : i ∈ insertNew known i := by
      unfold insertNew
      split <;> simp [*]
    rw [List.eraseDups_cons, List.foldl_cons, foldl_insertNew_eraseDups,
      foldl_insertNew_filter hi, List.foldl_cons]
termination_by is.length
decreasing_by exact Nat.lt_succ_of_le (List.length_filter_le ..)

end Facts

variable {α : Type} {edges : Edges α} {groups : List (List α)} {members : List α}
  {a b : α}

/-! ### Pairs -/

/-- Each pair is one of two nodes, and no pair comes a second time, in whichever
direction. -/
structure Edges.Unrepeated (edges : Edges α) : Prop where
  ne : ∀ a b, (a, b) ∈ edges → a ≠ b
  pairwise : edges.Pairwise fun d e => e ≠ d ∧ e ≠ d.swap

/-- A pair of two nodes can follow, if it is not known in either direction. -/
lemma Edges.Unrepeated.concat (h : edges.Unrepeated) (hne : a ≠ b)
    (hnew : (a, b) ∉ edges.both) : Edges.Unrepeated (edges ++ [(a, b)]) where
  ne c d hcd := by
    rcases List.mem_append.mp hcd with hcd | hcd
    · exact h.ne c d hcd
    · obtain ⟨rfl, rfl⟩ := Prod.mk.inj (List.mem_singleton.mp hcd)
      exact hne
  pairwise := by
    refine List.pairwise_append.mpr ⟨h.pairwise, List.pairwise_singleton .., ?_⟩
    rintro ⟨c, d⟩ hcd e he
    rw [List.mem_singleton.mp he]
    refine ⟨fun hsame => hnew (Edges.mem_both.mpr (.inl ?_)),
      fun hswap => hnew (Edges.mem_both.mpr (.inr ?_))⟩
    · rwa [hsame]
    · obtain ⟨rfl, rfl⟩ := Prod.mk.inj hswap
      exact hcd

/-! ### Groups -/

/-- Each group has members and lists each of them once, and no group comes a second
time, in whatever order. -/
structure Groups.Unrepeated (groups : List (List α)) : Prop where
  ne_nil : ∀ g ∈ groups, g ≠ []
  nodup : ∀ g ∈ groups, g.Nodup
  pairwise : groups.Pairwise fun g h => ¬ ∀ i, i ∈ g ↔ i ∈ h

/-- A group of some members can follow, if no other has just these members. -/
lemma Groups.Unrepeated.concat (h : Groups.Unrepeated groups) (hne : members ≠ [])
    (hnodup : members.Nodup) (hnew : ¬ ∃ g ∈ groups, ∀ i, i ∈ g ↔ i ∈ members) :
    Groups.Unrepeated (groups ++ [members]) where
  ne_nil g hg := by
    rcases List.mem_append.mp hg with hg | hg
    · exact h.ne_nil g hg
    · rwa [List.mem_singleton.mp hg]
  nodup g hg := by
    rcases List.mem_append.mp hg with hg | hg
    · exact h.nodup g hg
    · rwa [List.mem_singleton.mp hg]
  pairwise := by
    refine List.pairwise_append.mpr ⟨h.pairwise, List.pairwise_singleton .., ?_⟩
    intro g hg g' hg' hsame
    rw [List.mem_singleton.mp hg'] at hsame
    exact hnew ⟨g, hg, hsame⟩

/-! ### Facts -/

namespace Facts

variable {f : Facts} {t : Statement}

/-- No part of the facts has a repetition. -/
structure Unrepeated (f : Facts) : Prop where
  individuals : f.individuals.Nodup
  types : f.types.Nodup
  assertions : f.assertions.Nodup
  sameAs : f.sameAs.Unrepeated
  differentFrom : f.differentFrom.Unrepeated
  groups : Groups.Unrepeated f.groups
  notes : f.notes.Nodup

lemma unrepeated_empty : Unrepeated {} where
  individuals := .nil
  types := .nil
  assertions := .nil
  sameAs := ⟨by simp, .nil⟩
  differentFrom := ⟨by simp, .nil⟩
  groups := ⟨by simp, by simp, .nil⟩
  notes := .nil

/-- A statement that makes sense and does not hold can be recorded. -/
lemma Unrepeated.record (h : f.Unrepeated) (hfault : t.fault? = none)
    (hnew : ¬ f.holds t) : (f.record t).Unrepeated := by
  have concat {β : Type} {l : List β} {x : β} (hl : l.Nodup) (hx : x ∉ l) :
      (l ++ [x]).Nodup := by simpa using hl.concat hx
  cases t with
  | individual i => exact h
  | instanceOf i c =>
    rw [holds_instanceOf_iff] at hnew
    exact { h with types := concat h.types hnew }
  | assertion x =>
    rw [holds_assertion_iff] at hnew
    exact { h with assertions := concat h.assertions hnew }
  | sameAs a b =>
    rw [holds_sameAs_iff, ← Edges.mem_both] at hnew
    have hne : a ≠ b := by simpa [Statement.fault?] using hfault
    exact { h with sameAs := h.sameAs.concat hne hnew }
  | differentFrom a b =>
    rw [holds_differentFrom_iff, ← Edges.mem_both] at hnew
    have hne : a ≠ b := by simpa [Statement.fault?] using hfault
    exact { h with differentFrom := h.differentFrom.concat hne hnew }
  | allDifferent members =>
    rw [holds_allDifferent_iff] at hnew
    have hne : members ≠ [] := by simpa [Statement.fault?] using hfault
    refine { h with
      groups := h.groups.concat (eraseDups_ne_nil hne) (nodup_eraseDups members) ?_ }
    simpa only [List.mem_eraseDups] using hnew
  | note n =>
    rw [holds_note_iff] at hnew
    exact { h with notes := concat h.notes hnew }

/-- Making individuals known repeats nothing. -/
lemma Unrepeated.declare (h : f.Unrepeated) (is : List Individual) :
    (f.declare is).Unrepeated :=
  { h with individuals := nodup_declare is h.individuals }

lemma Unrepeated.add (h : f.Unrepeated) (hfault : t.fault? = none)
    (hnew : ¬ f.holds t) : (f.add t).Unrepeated :=
  (h.record hfault hnew).declare t.individuals

end Facts

/-- **Stores hold everything once**, after every run. -/
theorem Store.run_unrepeated (config : Config) (cs : List Command) :
    (run { config } cs).facts.Unrepeated :=
  run_induction Facts.unrepeated_empty (fun _ _ hf happlied =>
    have ⟨hfault, hnew, _⟩ := judge_eq_applied_iff.mp happlied
    hf.add hfault hnew) cs

end Ontology
