/-
Character classes given by ranges of code points.

* `Ranges`: a list of ranges, both ends included.
* `Ranges.has`: membership of a character, `has_append` for the union of two
  classes.
-/
namespace Ontology.Text

/-- A character class: ranges of code points with both ends included. -/
abbrev Ranges := List (Nat × Nat)

namespace Ranges

/-- A character is in the class when one of the ranges holds its code
point. -/
def has (ranges : Ranges) (c : Char) : Bool :=
  ranges.any fun r => r.1 ≤ c.toNat && c.toNat ≤ r.2

/-- Appending two classes is their union. -/
@[simp] theorem has_append (r s : Ranges) (c : Char) :
    has (r ++ s) c = (r.has c || s.has c) := by
  simp [has]

/-- Membership names a range around the code point. -/
theorem has_iff {ranges : Ranges} {c : Char} :
    ranges.has c ↔ ∃ r ∈ ranges, r.1 ≤ c.toNat ∧ c.toNat ≤ r.2 := by
  simp [has]

end Ranges

end Ontology.Text
