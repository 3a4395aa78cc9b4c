/-
Decimal numbers in fixed point.

* `Decimal`: a number of units of `10⁻¹⁸`; `Decimal.ofInt` and
  `ofInt_injective`.
* `Decimal.ofUnits?`: the numbers that 128 bits hold.
* `Decimal.read?`: the reader, which refuses more than eighteen significant
  places and numbers that do not fit.
-/
import Ontology.Text.Cut
import Ontology.Text.Digits

namespace Ontology.Value

/-- A decimal number in units of `10⁻¹⁸`. -/
structure Decimal where
  units : Int
  deriving DecidableEq

namespace Decimal

/-- The number of places after the point. -/
def places : Nat := 18

/-- An integer has a whole number of units. -/
def ofInt (n : Int) : Decimal := ⟨n * Int.pow 10 places⟩

/-- The number of some units, if 128 bits hold it. -/
def ofUnits? (units : Int) : Option Decimal :=
  if -Int.pow 2 127 ≤ units ∧ units < Int.pow 2 127 then some ⟨units⟩
  else none

/-- The sum of two numbers, if it fits. -/
def add? (a b : Decimal) : Option Decimal := ofUnits? (a.units + b.units)

/-- The digits of a text without the zeros at its end. -/
def dropFinalZeros (cs : List Char) : List Char :=
  (cs.reverse.dropWhile (· = '0')).reverse

/-- Digits, and digits after a point; one of the two parts may be empty. -/
def digitParts? (cs : List Char) : Option (List Char × List Char) :=
  let (whole, fraction) := Text.cut '.' cs
  let fraction := fraction.getD []
  if whole ++ fraction ≠ [] ∧ (whole ++ fraction).all Char.isDigit then
    some (whole, fraction)
  else none

/-- Reads a decimal number with an optional sign. -/
def read? (cs : List Char) : Option Decimal := do
  let (negative, cs) := Text.splitSign cs
  let (whole, fraction) ← digitParts? cs
  let fraction := dropFinalZeros fraction
  guard (fraction.length ≤ places)
  let magnitude : Int :=
    Text.digitsValue 0 (whole ++ fraction) *
      Int.pow 10 (places - fraction.length)
  ofUnits? (if negative then -magnitude else magnitude)

/-- Different integers are different decimal numbers. -/
theorem ofInt_injective {m n : Int} : ofInt m = ofInt n ↔ m = n := by
  rw [ofInt, ofInt, mk.injEq]
  exact Int.mul_eq_mul_right_iff (by decide)

/-- The numbers that fit keep their units. -/
theorem ofUnits?_eq_some_iff {units : Int} {d : Decimal} :
    ofUnits? units = some d ↔
      d.units = units ∧ -Int.pow 2 127 ≤ units ∧ units < Int.pow 2 127 := by
  obtain ⟨u⟩ := d
  simp [ofUnits?, eq_comm, and_comm]

example : read? "-1.50".toList = some ⟨-1500000000000000000⟩ ∧
    read? ".5".toList = some ⟨500000000000000000⟩ ∧
    read? "+7.".toList = some ⟨7000000000000000000⟩ := by
  decide +kernel

example : read? "".toList = none ∧ read? "-.".toList = none ∧
    read? "1e3".toList = none ∧ read? "0.0000000000000000001".toList = none ∧
    read? "170141183460469231731.687303715884105728".toList = none := by
  decide +kernel

end Decimal

end Ontology.Value
