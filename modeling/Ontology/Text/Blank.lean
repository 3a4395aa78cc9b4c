/-
Blank characters and trimming.

* `blanks`: the code points with the Unicode property `White_Space`.
* `isBlank`, `trim`: the test and the removal at both ends of a text;
  `isBlank_of_isWhitespace` says that every ASCII blank is one.
-/
import Ontology.Text.Range

namespace Ontology.Text

/-- The twenty-five code points with the property `White_Space`. -/
def blanks : Ranges :=
  [(0x09, 0x0D), (0x20, 0x20), (0x85, 0x85), (0xA0, 0xA0), (0x1680, 0x1680),
    (0x2000, 0x200A), (0x2028, 0x2029), (0x202F, 0x202F), (0x205F, 0x205F),
    (0x3000, 0x3000)]

/-- Blank characters separate nothing but words. -/
def isBlank (c : Char) : Bool := blanks.has c

/-- The characters of a text without the blanks at both ends. -/
def trim (cs : List Char) : List Char :=
  ((cs.dropWhile isBlank).reverse.dropWhile isBlank).reverse

/-- The blanks that ASCII knows are blank. -/
theorem isBlank_of_isWhitespace {c : Char} (h : c.isWhitespace) :
    isBlank c := by
  simp only [Char.isWhitespace, Bool.or_eq_true, decide_eq_true_eq] at h
  rcases h with ((h | h) | h) | h <;> subst h <;> rfl

/-- A blank text is trimmed away. -/
example : trim " \t\n".toList = [] := by decide

end Ontology.Text
