/-
The grammar of absolute IRIs (RFC 3987). Nothing is normalised.

* `unreserved`, `isPlain`: the characters that stand for themselves in every
  component.
* `isComponent`: a component of allowed characters and of encoded ones,
  written with a percent sign and two hexadecimal digits.
* `isAuthority`, `isHost`: the part between `//` and the path.
* `isAbsoluteIri`: scheme, authority or path, query and fragment.
-/
import Ontology.Rdf.IpAddress
import Ontology.Text.Cut
import Ontology.Text.Range

namespace Ontology.Rdf

/-! ### Characters -/

/-- The letters beyond ASCII that every component allows. -/
def letterRanges : Text.Ranges :=
  [(0xA0, 0xD7FF), (0xF900, 0xFDCF), (0xFDF0, 0xFFEF), (0x10000, 0x1FFFD),
    (0x20000, 0x2FFFD), (0x30000, 0x3FFFD), (0x40000, 0x4FFFD),
    (0x50000, 0x5FFFD), (0x60000, 0x6FFFD), (0x70000, 0x7FFFD),
    (0x80000, 0x8FFFD), (0x90000, 0x9FFFD), (0xA0000, 0xAFFFD),
    (0xB0000, 0xBFFFD), (0xC0000, 0xCFFFD), (0xD0000, 0xDFFFD),
    (0xE1000, 0xEFFFD)]

/-- The characters of private use, which only a query allows. -/
def privateRanges : Text.Ranges :=
  [(0xE000, 0xF8FF), (0xF0000, 0xFFFFD), (0x100000, 0x10FFFD)]

/-- The ASCII characters that every component allows: the unreserved ones and
the delimiters inside components. -/
def isAsciiPlain (c : Char) : Bool :=
  c.isAlphanum || "-._~!$&'()*+,;=".toList.contains c

/-- The characters that every component allows. -/
def isPlain (c : Char) : Bool := isAsciiPlain c || letterRanges.has c

/-! ### Components -/

/-- Every character is an allowed one or begins an encoded one. -/
def isComponent (allowed : Char → Bool) : List Char → Bool
  | [] => true
  | '%' :: a :: b :: rest => isHex a && isHex b && isComponent allowed rest
  | c :: rest => allowed c && isComponent allowed rest

/-- A path is not checked for its segments. -/
def isPath (cs : List Char) : Bool :=
  isComponent (fun c => isPlain c || c == ':' || c == '@' || c == '/') cs

/-- A fragment allows question marks beside the characters of a path. -/
def isFragment (cs : List Char) : Bool :=
  isComponent
    (fun c => isPlain c || c == ':' || c == '@' || c == '/' || c == '?') cs

/-- A query allows characters of private use beside those of a fragment. -/
def isQuery (cs : List Char) : Bool :=
  isComponent
    (fun c => isPlain c || c == ':' || c == '@' || c == '/' || c == '?' ||
      privateRanges.has c) cs

/-! ### Authority -/

/-- What may follow a host: nothing, or a colon and digits, if any. -/
def isHostEnd : List Char → Bool
  | [] => true
  | c :: digits => c == ':' && digits.all Char.isDigit

/-- A host is an address in brackets or a name, which may be empty; a number
may follow it after a colon. -/
def isHost : List Char → Bool
  | '[' :: rest =>
    match Text.cut ']' rest with
    | (address, some rest) =>
      isHostEnd rest &&
        if address.head?.any (fun c => c == 'v' || c == 'V') then
          isFutureAddress (fun c => isAsciiPlain c || c == ':') address
        else
          isIpv6 address
    | (_, none) => false
  | cs =>
    isComponent isPlain (cs.takeWhile (· != ':')) &&
      isHostEnd (cs.dropWhile (· != ':'))

/-- An authority is a host, after user information that ends in `@`. -/
def isAuthority (cs : List Char) : Bool :=
  match Text.cut '@' cs with
  | (host, none) => isHost host
  | (user, some host) =>
    isComponent (fun c => isPlain c || c == ':') user && isHost host

/-! ### The whole -/

/-- A scheme begins with a letter. -/
def isScheme : List Char → Bool
  | [] => false
  | c :: rest =>
    c.isAlpha &&
      rest.all fun d => d.isAlphanum || d == '+' || d == '-' || d == '.'

/-- Two slashes begin an authority, which the next slash ends; anything else
is a path. -/
def isHierarchy : List Char → Bool
  | '/' :: '/' :: rest =>
    isAuthority (rest.takeWhile (· != '/')) &&
      isPath (rest.dropWhile (· != '/'))
  | cs => isPath cs

/-- An absolute IRI: a scheme, then an authority or a path, then a query after
the first question mark and a fragment after the first number sign. -/
def isAbsoluteIri (cs : List Char) : Bool :=
  match Text.cut ':' cs with
  | (_, none) => false
  | (scheme, some rest) =>
    let (body, fragment) := Text.cut '#' rest
    let (hierarchy, query) := Text.cut '?' body
    isScheme scheme && isHierarchy hierarchy && query.all isQuery &&
      fragment.all isFragment

example : isAbsoluteIri "http://[::1]:80/a?b#c".toList ∧
    isAbsoluteIri "e:".toList ∧ isAbsoluteIri "e:a%20b".toList := by
  decide

example : isAbsoluteIri "e:a%2".toList = false ∧
    isAbsoluteIri "http://a:b/".toList = false ∧
    isAbsoluteIri "e:a#b#c".toList = false := by
  decide

end Ontology.Rdf
