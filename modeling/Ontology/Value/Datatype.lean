/-
The datatypes whose values are compared.

* `IntegerType`: the thirteen types of integers, each with its range of
  values.
* `Datatype`: these and the other types with a value space of their own;
  `Datatype.ofIri?` finds a type by its IRI, `ofIri?_eq_some_iff`.
-/
import Ontology.Rdf.Vocabulary

namespace Ontology.Value

/-- The types of integers. -/
inductive IntegerType where
  | integer
  | long
  | int
  | short
  | byte
  | nonNegative
  | nonPositive
  | positive
  | negative
  | unsignedLong
  | unsignedInt
  | unsignedShort
  | unsignedByte
  deriving DecidableEq

namespace IntegerType

/-- All types of integers. -/
def all : List IntegerType :=
  [integer, long, int, short, byte, nonNegative, nonPositive, positive,
    negative, unsignedLong, unsignedInt, unsignedShort, unsignedByte]

/-- The name of a type in its vocabulary. -/
def name : IntegerType → String
  | integer => "integer"
  | long => "long"
  | int => "int"
  | short => "short"
  | byte => "byte"
  | nonNegative => "nonNegativeInteger"
  | nonPositive => "nonPositiveInteger"
  | positive => "positiveInteger"
  | negative => "negativeInteger"
  | unsignedLong => "unsignedLong"
  | unsignedInt => "unsignedInt"
  | unsignedShort => "unsignedShort"
  | unsignedByte => "unsignedByte"

/-- The least value of a type that has one. -/
def least? : IntegerType → Option Int
  | integer | nonPositive | negative => none
  | long => some (-Int.pow 2 63)
  | int => some (-Int.pow 2 31)
  | short => some (-Int.pow 2 15)
  | byte => some (-Int.pow 2 7)
  | nonNegative | unsignedLong | unsignedInt | unsignedShort
  | unsignedByte => some 0
  | positive => some 1

/-- The greatest value of a type that has one. -/
def greatest? : IntegerType → Option Int
  | integer | nonNegative | positive => none
  | long => some (Int.pow 2 63 - 1)
  | int => some (Int.pow 2 31 - 1)
  | short => some (Int.pow 2 15 - 1)
  | byte => some (Int.pow 2 7 - 1)
  | nonPositive => some 0
  | negative => some (-1)
  | unsignedLong => some (Int.pow 2 64 - 1)
  | unsignedInt => some (Int.pow 2 32 - 1)
  | unsignedShort => some (Int.pow 2 16 - 1)
  | unsignedByte => some (Int.pow 2 8 - 1)

/-- An integer lies in the range of a type. -/
def holds (t : IntegerType) (n : Int) : Bool :=
  t.least?.all (· ≤ n) && t.greatest?.all (n ≤ ·)

theorem mem_all (t : IntegerType) : t ∈ all := by
  cases t <;> simp [all]

end IntegerType

/-- A datatype with a value space of its own. -/
inductive Datatype where
  | boolean
  | decimal
  | float
  | double
  | dateTime
  | dateTimeStamp
  | date
  | integer (type : IntegerType)
  deriving DecidableEq

namespace Datatype

/-- All datatypes with a value space of their own. -/
def all : List Datatype :=
  [boolean, decimal, float, double, dateTime, dateTimeStamp, date] ++
    IntegerType.all.map integer

/-- The name of a datatype in its vocabulary. -/
def name : Datatype → String
  | boolean => "boolean"
  | decimal => "decimal"
  | float => "float"
  | double => "double"
  | dateTime => "dateTime"
  | dateTimeStamp => "dateTimeStamp"
  | date => "date"
  | integer t => t.name

/-- The IRI of a datatype. -/
def iri (d : Datatype) : Rdf.Iri :=
  ⟨"http://www.w3.org/2001/XMLSchema#" ++ d.name⟩

/-- The datatype with an IRI. -/
def ofIri? (i : Rdf.Iri) : Option Datatype := all.find? fun d => d.iri = i

theorem mem_all (d : Datatype) : d ∈ all := by
  cases d <;> simp [all, IntegerType.mem_all]

/-- Datatypes have different names. -/
theorem name_injective {d e : Datatype} (h : d.name = e.name) : d = e :=
  (by decide +kernel : ∀ d ∈ all, ∀ e ∈ all, d.name = e.name → d = e)
    d (mem_all d) e (mem_all e) h

theorem text_iri (d : Datatype) :
    d.iri.text = "http://www.w3.org/2001/XMLSchema#" ++ d.name := rfl

/-- Datatypes have different IRIs. -/
theorem iri_injective {d e : Datatype} (h : d.iri = e.iri) : d = e := by
  apply name_injective
  have ht : d.iri.text = e.iri.text := by rw [h]
  rw [text_iri, text_iri] at ht
  have hl := congrArg String.toList ht
  rw [String.toList_append, String.toList_append] at hl
  exact String.toList_inj.mp (List.append_cancel_left hl)

/-- A datatype is found by its IRI and by no other. -/
@[simp] theorem ofIri?_eq_some_iff {i : Rdf.Iri} {d : Datatype} :
    ofIri? i = some d ↔ d.iri = i := by
  constructor
  · intro h
    simpa using List.find?_some h
  · rintro rfl
    cases h : ofIri? d.iri with
    | none => simpa using List.find?_eq_none.mp h d (mem_all d)
    | some e =>
      have he : e.iri = d.iri := by simpa using List.find?_some h
      rw [iri_injective he]

end Datatype

end Ontology.Value
