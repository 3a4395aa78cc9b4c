/-
IRIs.

* `Iri`: an IRI, identified by its text.
* `Iri.parse?`: the reader of absolute IRIs, `parse?_eq_some_iff`.
* `Iri.written`: the written form in angle brackets.
-/
import Ontology.Rdf.IriSyntax

namespace Ontology.Rdf

/-- An IRI. Two IRIs are the same when their texts are. -/
structure Iri where
  text : String
  deriving DecidableEq

namespace Iri

/-- Reads an absolute IRI; the text is kept as it is. -/
def parse? (text : String) : Option Iri :=
  if isAbsoluteIri text.toList then some ⟨text⟩ else none

/-- The written form: the text in angle brackets, nothing escaped. -/
def written (iri : Iri) : String := "<" ++ iri.text ++ ">"

/-- Reading accepts the absolute IRIs and keeps their texts. -/
theorem parse?_eq_some_iff {text : String} {iri : Iri} :
    parse? text = some iri ↔ isAbsoluteIri text.toList ∧ iri.text = text := by
  obtain ⟨t⟩ := iri
  by_cases h : isAbsoluteIri text.toList <;> simp [parse?, h, eq_comm]

end Iri

end Ontology.Rdf
