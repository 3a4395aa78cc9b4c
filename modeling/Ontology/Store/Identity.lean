/-
Identity and difference of individuals.

* `Facts.equals`, `Facts.others`: the names of one individual, the components
  of the declared pairs.
* `Facts.different`: the individuals known to be different from one: those
  declared different, or members of one group, closed under equality at both
  ends; `mem_different`.
* `Facts.related`: the end points of paths over some properties.
-/
import Ontology.Store.Facts

namespace Ontology

namespace Facts

variable (f : Facts)

/-! ### Equality -/

/-- An individual and all its other names. -/
def equals (a : Individual) : List Individual := f.sameAs.component a

/-- The other names of an individual. -/
def others (a : Individual) : List Individual :=
  (f.equals a).filter (· ≠ a)

/-- Two names are known to be those of one individual. -/
def isSame (a b : Individual) : Bool := (f.equals a).contains b

/-! ### Difference -/

/-- The groups that an individual is a member of. -/
def groupsOf (a : Individual) : List (List Individual) :=
  f.groups.filter fun g => a ∈ g

/-- The other members of the groups of an individual. -/
def peers (a : Individual) : List Individual :=
  (f.groupsOf a).flatten.filter (· ≠ a)

/-- The individuals that are different from an individual by one
declaration. -/
def declaredDifferent (a : Individual) : List Individual :=
  f.differentFrom.both.targets a ++ f.peers a

/-- The individuals known to be different from an individual. -/
def different (a : Individual) : List Individual :=
  (f.sameAs.both.reach ((f.equals a).flatMap f.declaredDifferent)).filter
    (· ≠ a)

/-- Two individuals are known to be different. -/
def isDifferent (a b : Individual) : Bool := (f.different a).contains b

/-! ### Paths -/

/-- The individuals at the end of a path of at least one stated relation of
some properties. -/
def related (ps : List Property) (a : Individual) : List Individual :=
  (f.links ps).descendants a

/-! ### Membership -/

variable {f} {a b : Individual}

@[simp] theorem isSame_iff : f.isSame a b ↔ b ∈ f.equals a := by
  simp [isSame]

@[simp] theorem isDifferent_iff : f.isDifferent a b ↔ b ∈ f.different a := by
  simp [isDifferent]

theorem mem_equals :
    b ∈ f.equals a ↔ Reaches f.sameAs.both.targets a b :=
  Edges.mem_component

@[simp] theorem self_mem_equals : a ∈ f.equals a :=
  mem_equals.mpr (.refl a)

theorem mem_equals_comm : b ∈ f.equals a ↔ a ∈ f.equals b :=
  Edges.mem_component_comm

theorem mem_equals_trans {c : Individual} (hab : b ∈ f.equals a)
    (hbc : c ∈ f.equals b) : c ∈ f.equals a :=
  mem_equals.mpr ((mem_equals.mp hab).trans (mem_equals.mp hbc))

@[simp] theorem mem_others : b ∈ f.others a ↔ b ≠ a ∧ b ∈ f.equals a := by
  simp [others, and_comm]

theorem mem_peers : b ∈ f.peers a ↔ b ≠ a ∧ ∃ g ∈ f.groups, a ∈ g ∧ b ∈ g := by
  simp only [peers, groupsOf, List.mem_filter, List.mem_flatten,
    decide_eq_true_eq, and_comm, ne_eq]
  grind

/-- A declared difference, in either direction. -/
theorem mem_declaredDifferent :
    b ∈ f.declaredDifferent a ↔
      (a, b) ∈ f.differentFrom ∨ (b, a) ∈ f.differentFrom ∨
        b ≠ a ∧ ∃ g ∈ f.groups, a ∈ g ∧ b ∈ g := by
  simp [declaredDifferent, mem_peers, or_assoc]

/-- Known differences are the declared ones between equal individuals. -/
theorem mem_different :
    b ∈ f.different a ↔
      b ≠ a ∧ ∃ a' ∈ f.equals a, ∃ b' ∈ f.declaredDifferent a',
        b ∈ f.equals b' := by
  simp only [different, List.mem_filter, Edges.mem_reach, List.mem_flatMap,
    decide_eq_true_eq, mem_equals]
  grind

theorem nodup_equals : (f.equals a).Nodup := Edges.nodup_component a

theorem nodup_different : (f.different a).Nodup :=
  (Edges.nodup_reach _).filter _

end Facts

end Ontology
