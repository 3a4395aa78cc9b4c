/-
Terms of the web of data.

* `Node`: an IRI or a blank node; `Literal`: a text with a datatype or a
  language; `Term`: a node or a literal.
* `Node.ofText?`, `Node.property`: the readers of nodes and of properties,
  which are IRIs (`property_eq_ok_iff`).
* `written`: the text of a term in a line of triples.
* `datatype_tagged`: a text with a language has the datatype of such texts,
  and still differs from a text that is given this datatype by name.
-/
import Ontology.Rdf.BlankNode
import Ontology.Rdf.LanguageTag
import Ontology.Rdf.Vocabulary
import Ontology.Text.Quoted

namespace Ontology.Rdf

/-! ### Nodes -/

/-- A node of a graph: an IRI or a blank node. -/
inductive Node where
  | iri (iri : Iri)
  | blank (node : BlankNode)
  deriving DecidableEq

namespace Node

instance : Coe Iri Node := ⟨iri⟩

instance : Coe BlankNode Node := ⟨blank⟩

/-- Why a text is no node. -/
inductive SyntaxError where
  | badIri
  | badLabel
  deriving DecidableEq

/-- Reads a node: a label after `_:`, or else an IRI. -/
def ofText? (text : String) : Except SyntaxError Node :=
  match text.toList with
  | '_' :: ':' :: label =>
    match BlankNode.ofLabel? (String.ofList label) with
    | some b => .ok (blank b)
    | none => .error .badLabel
  | _ =>
    match Iri.parse? text with
    | some i => .ok (iri i)
    | none => .error .badIri

/-- The written form of a node. -/
def written : Node → String
  | iri i => i.written
  | blank b => b.written

/-- The IRI of a node that has one. -/
def iri? : Node → Option Iri
  | iri i => some i
  | blank _ => none

/-- A node was made by a writer. -/
def isMinted : Node → Bool
  | iri _ => false
  | blank b => b.isMinted

/-- A blank node stands where a property is required. -/
structure BlankProperty where
  node : BlankNode
  deriving DecidableEq

/-- The message of the error. -/
def BlankProperty.message (e : BlankProperty) : String :=
  "Blank node " ++ e.node.written ++
    " cannot be used where a named property is required"

/-- A node as a property: properties are IRIs. -/
def property : Node → Except BlankProperty Iri
  | iri i => .ok i
  | blank b => .error ⟨b⟩

@[simp] theorem property_eq_ok_iff {n : Node} {i : Iri} :
    n.property = .ok i ↔ n = iri i := by
  cases n <;> simp [property]

@[simp] theorem iri?_eq_some_iff {n : Node} {i : Iri} :
    n.iri? = some i ↔ n = iri i := by
  cases n <;> simp [iri?]

end Node

/-! ### Literals -/

/-- A literal: a text with a datatype, or a text with a language. -/
inductive Literal where
  | typed (text : String) (datatype : Iri)
  | tagged (text language : String)
  deriving DecidableEq

namespace Literal

/-- A text with no datatype of its own is a string. -/
def simple (text : String) : Literal := typed text Xsd.string

/-- A text with a language. The tag is read in lower case. -/
def tagged? (text tag : String) : Option Literal :=
  let tag := String.ofList (tag.toList.map Char.toLower)
  if isLanguageTag tag then some (tagged text tag) else none

/-- The text of a literal. -/
def text : Literal → String
  | typed t _ => t
  | tagged t _ => t

/-- The datatype of a literal. -/
def datatype : Literal → Iri
  | typed _ d => d
  | tagged _ _ => langString

/-- The written form: the quoted text, then the language or the datatype,
which strings leave out. -/
def written : Literal → String
  | typed t d =>
    if d = Xsd.string then Text.quote t
    else Text.quote t ++ "^^" ++ d.written
  | tagged t l => Text.quote t ++ "@" ++ l

@[simp] theorem datatype_tagged (t l : String) :
    (tagged t l).datatype = langString ∧ tagged t l ≠ typed t langString := by
  simp [datatype]

end Literal

/-! ### Terms -/

/-- A term: what may stand at the end of a triple. -/
inductive Term where
  | node (node : Node)
  | literal (literal : Literal)
  deriving DecidableEq

namespace Term

instance : Coe Node Term := ⟨node⟩

instance : Coe Literal Term := ⟨literal⟩

instance : Coe Iri Term := ⟨fun i => node i⟩

instance : Coe BlankNode Term := ⟨fun b => node b⟩

/-- The written form of a term. -/
def written : Term → String
  | node n => n.written
  | literal l => l.written

/-- The node of a term that is one. -/
def node? : Term → Option Node
  | node n => some n
  | literal _ => none

/-- The literal of a term that is one. -/
def literal? : Term → Option Literal
  | node _ => none
  | literal l => some l

@[simp] theorem node?_eq_some_iff {t : Term} {n : Node} :
    t.node? = some n ↔ t = node n := by
  cases t <;> simp [node?]

@[simp] theorem literal?_eq_some_iff {t : Term} {l : Literal} :
    t.literal? = some l ↔ t = literal l := by
  cases t <;> simp [literal?]

end Term

end Ontology.Rdf
