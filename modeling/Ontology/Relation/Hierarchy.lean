/-
Hierarchies of classes or of properties.

* `Hierarchy`: direct declarations that an entity is broader than another, and
  that two entities are equivalent.
* `below`, `equivalents`: the indirect answers, without the entity itself;
  `mem_below`, `mem_equivalents`.
* `expand`: the entity and what the two look-ups, one after the other in any
  way, put under it; `mem_expand`: just what the declarations themselves reach.
-/
import Ontology.Relation.Edges

namespace Ontology

/-- Declarations about the order of entities. -/
structure Hierarchy (α : Type) where
  /-- Edges from a broader entity to a narrower one. -/
  narrower : Edges α := []
  /-- Edges between equivalent entities, in either direction. -/
  equivalent : Edges α := []
  deriving DecidableEq

namespace Hierarchy

variable {α : Type} [DecidableEq α] (h : Hierarchy α)

/-- The entities declared narrower than an entity, directly or not. -/
def below (a : α) : List α := h.narrower.others a

/-- The entities declared equivalent to an entity, directly or not. -/
def equivalents (a : α) : List α := h.equivalent.both.others a

/-- Edges from an entity to those that it covers directly. -/
def covering : Edges α := h.narrower ++ h.equivalent.both

/-- What is narrower than an entity or equivalent to it. -/
def covered (a : α) : List α := h.below a ++ h.equivalents a

/-- An entity, and all that it covers. -/
def expand (a : α) : List α :=
  reachable (h.covering.map (·.1)) h.covered [a]

variable {h} {a b : α}

theorem mem_below :
    b ∈ h.below a ↔
      b ≠ a ∧ ∃ c, (a, c) ∈ h.narrower ∧ Reaches h.narrower.targets c b :=
  Edges.mem_others

theorem nodup_below : (h.below a).Nodup := Edges.nodup_others a

theorem mem_equivalents :
    b ∈ h.equivalents a ↔ b ≠ a ∧ b ∈ h.equivalent.component a := by
  rw [equivalents, Edges.mem_others_iff_reaches, Edges.mem_component]

theorem nodup_equivalents : (h.equivalents a).Nodup := Edges.nodup_others a

/-- Equivalence is symmetric. -/
theorem mem_equivalents_comm :
    b ∈ h.equivalents a ↔ a ∈ h.equivalents b := by
  rw [mem_equivalents, mem_equivalents, Edges.mem_component_comm,
    ne_comm]

/-- An entity is not in its own look-ups. -/
theorem ne_of_mem_covered (hb : b ∈ h.covered a) : b ≠ a := by
  rcases List.mem_append.mp hb with hb | hb
  · exact (mem_below.mp hb).1
  · exact (mem_equivalents.mp hb).1

/-- What is covered is reached by declarations. -/
theorem reaches_of_mem_covered (hb : b ∈ h.covered a) :
    Reaches h.covering.targets a b := by
  rcases List.mem_append.mp hb with hb | hb
  · refine (Edges.mem_others_iff_reaches.mp hb).2.mono fun x y hy => ?_
    rw [Edges.mem_targets] at hy ⊢
    exact List.mem_append_left _ hy
  · refine (Edges.mem_others_iff_reaches.mp hb).2.mono fun x y hy => ?_
    rw [Edges.mem_targets] at hy ⊢
    exact List.mem_append_right _ hy

/-- A declaration about two entities puts one into a look-up of the other. -/
theorem mem_covered_of_mem_covering (hne : b ≠ a) (hab : (a, b) ∈ h.covering) :
    b ∈ h.covered a := by
  rcases List.mem_append.mp hab with hab | hab
  · exact List.mem_append_left _ (mem_below.mpr ⟨hne, b, hab, .refl b⟩)
  · refine List.mem_append_right _ (mem_equivalents.mpr ⟨hne, ?_⟩)
    exact Edges.mem_component.mpr (.single (Edges.mem_targets.mpr hab))

/-- From look-up to look-up one comes where the declarations lead. The start of
a look-up is not in its answer, and is reached all the same. -/
theorem reaches_covered_iff :
    Reaches h.covered a b ↔ Reaches h.covering.targets a b := by
  constructor
  · exact Reaches.of_steps fun _ _ hy => reaches_of_mem_covered hy
  · refine Reaches.of_steps fun x y hy => ?_
    by_cases hne : y = x
    · exact hne ▸ .refl y
    · exact .single (mem_covered_of_mem_covering hne (Edges.mem_targets.mp hy))

/-- Expanding goes from look-up to look-up. -/
theorem mem_expand_iff_reaches_covered :
    b ∈ h.expand a ↔ Reaches h.covered a b := by
  rw [expand, mem_reachable_iff]
  · simp
  · -- whoever covers something is the source of a declaration
    intro _ _ c _ hc
    obtain ⟨d, hd⟩ := List.exists_mem_of_ne_nil _ hc
    cases reaches_of_mem_covered hd with
    | refl => exact absurd rfl (ne_of_mem_covered hd)
    | step hx _ => exact Edges.mem_sources_of_targets (List.ne_nil_of_mem hx)

/-- **Expanding** is exact. -/
theorem mem_expand :
    b ∈ h.expand a ↔ Reaches h.covering.targets a b :=
  mem_expand_iff_reaches_covered.trans reaches_covered_iff

theorem nodup_expand : (h.expand a).Nodup := nodup_reachable ..

/-- An entity covers itself. -/
@[simp] theorem self_mem_expand : a ∈ h.expand a := mem_expand.mpr (.refl a)

/-- What is covered by a covered entity is covered. -/
theorem expand_subset (hb : b ∈ h.expand a) : h.expand b ⊆ h.expand a :=
  fun _ hc => mem_expand.mpr ((mem_expand.mp hb).trans (mem_expand.mp hc))

end Hierarchy

end Ontology
