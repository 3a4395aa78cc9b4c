/-
Decimal digits.

* `digitsValue`: the number that a list of digits denotes, most significant
  first.
* `natural?`, `integer?`: readers of unsigned and of signed numbers in full
  texts; a reader refuses a text without digits.
-/
namespace Ontology.Text

/-- The digits read on from a number already read. -/
def digitsValue (start : Nat) (cs : List Char) : Nat :=
  cs.foldl (fun n c => n * 10 + (c.toNat - '0'.toNat)) start

/-- The number that a non-empty list of digits denotes. Leading zeros are
allowed. -/
def natural? (cs : List Char) : Option Nat :=
  if cs ≠ [] ∧ cs.all Char.isDigit then some (digitsValue 0 cs) else none

/-- Splits the sign off a number: `true` stands for a minus, and a plus may be
written or left out. -/
def splitSign : List Char → Bool × List Char
  | '-' :: cs => (true, cs)
  | '+' :: cs => (false, cs)
  | cs => (false, cs)

/-- The integer that a number with an optional sign denotes. -/
def integer? (cs : List Char) : Option Int :=
  let (negative, digits) := splitSign cs
  (natural? digits).map fun n => if negative then -(n : Int) else n

/-- Reading continues where it stopped. -/
theorem digitsValue_append (start : Nat) (cs ds : List Char) :
    digitsValue start (cs ++ ds) = digitsValue (digitsValue start cs) ds := by
  simp [digitsValue]

/-- A sign alone is no number. -/
example : integer? "-".toList = none ∧ integer? "+07".toList = some 7 := by
  decide

end Ontology.Text
