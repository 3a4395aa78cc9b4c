/-
Blank nodes.

* `BlankNode`: a labelled node, which a reader has seen, or a minted one,
  which a writer has made. No minted node is a labelled one, so minted nodes
  are fresh for every graph that was read.
* `BlankNode.ofLabel?`: the reader of labels, `ofLabel?_eq_some_iff`.
* `BlankNode.Supply`: a way of naming the nodes that a writer needs.
-/
import Ontology.Text.Range

namespace Ontology.Rdf

/-- A blank node. A labelled node is identified by its label, a minted node by
the statement that needs it and its place in that statement. -/
inductive BlankNode where
  | labelled (label : String)
  | minted (statement place : Nat)
  deriving DecidableEq

namespace BlankNode

/-- The characters that may begin a label. -/
def labelStart : Text.Ranges :=
  [(0x30, 0x3A), (0x41, 0x5A), (0x5F, 0x5F), (0x61, 0x7A), (0xC0, 0xD6),
    (0xD8, 0xF6), (0xF8, 0x2FF), (0x370, 0x37D), (0x37F, 0x1FFF),
    (0x200C, 0x200D), (0x2070, 0x218F), (0x2C00, 0x2FEF), (0x3001, 0xD7FF),
    (0xF900, 0xFDCF), (0xFDF0, 0xFFFD), (0x10000, 0xEFFFF)]

/-- The characters that may follow: those that may begin a label, the point,
the hyphen and the combining marks. -/
def labelInside : Text.Ranges :=
  labelStart ++ [(0x2D, 0x2E), (0xB7, 0xB7), (0x300, 0x36F),
    (0x203F, 0x2040)]

/-- A label is not empty and does not end in a point. -/
def isLabel : List Char → Bool
  | [] => false
  | c :: cs =>
    labelStart.has c && cs.all labelInside.has && cs.getLast? != some '.'

/-- Reads a label. -/
def ofLabel? (label : String) : Option BlankNode :=
  if isLabel label.toList then some (labelled label) else none

/-- The written form of a labelled node is its label; a minted node, which has
no name of its own, is written with its two numbers. -/
def written : BlankNode → String
  | labelled label => "_:" ++ label
  | minted statement place =>
    "_:" ++ toString statement ++ "-" ++ toString place

/-- A minted node was made by a writer. -/
def isMinted : BlankNode → Bool
  | labelled _ => false
  | minted _ _ => true

/-- Reading accepts the labels and nothing else, and gives labelled nodes. -/
theorem ofLabel?_eq_some_iff {label : String} {b : BlankNode} :
    ofLabel? label = some b ↔ isLabel label.toList ∧ b = labelled label := by
  by_cases h : isLabel label.toList <;> simp [ofLabel?, h, eq_comm]

/-- Every character that may begin a label may follow in one. -/
theorem labelInside_of_labelStart {c : Char} (h : labelStart.has c) :
    labelInside.has c := by
  simp [labelInside, h]

/-! ### Supplies -/

/-- A supply names the nodes that the writer of a graph needs: the statement
comes first, the place in it second. -/
abbrev Supply := Nat → Nat → BlankNode

end BlankNode

end Ontology.Rdf
