/-
Values of literals.

* `Value`: the values that are compared; `Value.same` compares them, numbers
  of different types by their numeric values (`same_comm`).
* `Literal.value?`: the value of a literal of a known datatype with a valid
  text.
* `Literal.sameValue`: literals with equal values; the same literal always has
  the same value (`sameValue_refl`, `sameValue_comm`).
* `Literal.hasDatatype`: a literal belongs to a datatype.
-/
import Ontology.Rdf.Term
import Ontology.Value.Binary
import Ontology.Value.Datatype
import Ontology.Value.Moment

namespace Ontology

/-! ### Values -/

/-- A value of a datatype. Single precision is part of double precision, so
both have values of one kind. -/
inductive Value where
  | boolean (b : Bool)
  | integer (n : Int)
  | decimal (d : Value.Decimal)
  | binary (x : Value.Binary)
  | dateTime (m : Value.Moment)
  | date (m : Value.Moment)
  deriving DecidableEq

namespace Value

/-- A number in double precision. -/
def binary? : Value → Option Binary
  | integer n => some (.ofInt n)
  | decimal d => some (.ofDecimal d)
  | binary x => some x
  | boolean _ | dateTime _ | date _ => none

/-- Equal values. Integers and decimal numbers are compared exactly, other
numbers of different types in double precision; values of other types differ
from those of every other type. -/
def same : Value → Value → Bool
  | boolean a, boolean b => a == b
  | integer m, integer n => m == n
  | integer m, decimal e => decide (Decimal.ofInt m = e)
  | decimal d, integer n => decide (d = Decimal.ofInt n)
  | decimal d, decimal e => decide (d = e)
  | dateTime a, dateTime b => a.same b
  | date a, date b => a.same b
  | v, w =>
    match v.binary?, w.binary? with
    | some x, some y => x.same y
    | _, _ => false

/-- Equality of values goes both ways. -/
theorem same_comm (v w : Value) : v.same w = w.same v := by
  cases v <;> cases w <;>
    simp [same, binary?, Binary.same_comm, Moment.same, Bool.beq_comm] <;>
    grind

/-! ### Reading -/

/-- The two truth values, each with two spellings. -/
def readBoolean? (text : String) : Option Bool :=
  if text = "true" ∨ text = "1" then some true
  else if text = "false" ∨ text = "0" then some false
  else none

/-- Reads an integer that 64 bits hold, whatever the range of its type. -/
def readInteger? (cs : List Char) : Option Int := do
  let n ← Text.integer? cs
  guard (-Int.pow 2 63 ≤ n ∧ n < Int.pow 2 63)
  return n

/-- Reads a text of a datatype. -/
def read? (text : String) : Datatype → Option Value
  | .boolean => (readBoolean? text).map boolean
  | .decimal => (Decimal.read? text.toList).map decimal
  | .float => (Format.single.read? text.toList).map binary
  | .double => (Format.double.read? text.toList).map binary
  | .dateTime | .dateTimeStamp => (readDateTime? text.toList).map dateTime
  | .date => (readDate? text.toList).map date
  | .integer _ => (readInteger? text.toList).map integer

end Value

/-! ### Literals -/

namespace Rdf.Literal

/-- The value of a literal of a known datatype with a valid text. -/
def value? : Literal → Option Value
  | typed text datatype =>
    (Value.Datatype.ofIri? datatype).bind (Value.read? text)
  | tagged _ _ => none

/-- Literals with equal values. Literals without values equal only
themselves. -/
def sameValue (a b : Literal) : Bool :=
  decide (a = b) ||
    match a.value?, b.value? with
    | some v, some w => v.same w
    | _, _ => false

/-- Every literal has its own value. -/
@[simp] theorem sameValue_refl (a : Literal) : a.sameValue a := by
  simp [sameValue]

/-- Equality of values goes both ways. -/
theorem sameValue_comm (a b : Literal) : a.sameValue b = b.sameValue a := by
  unfold sameValue
  rw [show decide (a = b) = decide (b = a) from by simp [eq_comm]]
  cases a.value? <;> cases b.value? <;> simp [Value.same_comm]

/-- The type of integers with an IRI. -/
def integerType? (datatype : Iri) : Option Value.IntegerType :=
  match Value.Datatype.ofIri? datatype with
  | some (.integer t) => some t
  | _ => none

/-- A literal belongs to its own datatype and to that of all literals. An
integer also belongs to the decimal numbers and to every type of integers
whose range holds it. -/
def hasDatatype (l : Literal) (datatype : Iri) : Bool :=
  datatype = Rdfs.literal || l.datatype = datatype ||
    match l.value? with
    | some (.integer n) =>
      datatype = Value.Datatype.decimal.iri ||
        (integerType? datatype).any (·.holds n)
    | _ => false

end Rdf.Literal

end Ontology
