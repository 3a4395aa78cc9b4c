/-
Language tags (RFC 5646), in lower case.

* `isLanguageTag`: a tag registered before the grammar, a private tag, or a
  tag of subtags in order: language, extended languages, script, region,
  variants, extensions, private use.
* `isExtended`: the extensions and the private part at the end.

Letters and digits are ASCII, since the grammar has no others.
-/
namespace Ontology.Rdf

/-- The tags registered before the grammar, in lower case. -/
def registeredTags : List String :=
  ["art-lojban", "cel-gaulish", "en-gb-oed", "i-ami", "i-bnn", "i-default",
    "i-enochian", "i-hak", "i-klingon", "i-lux", "i-mingo", "i-navajo",
    "i-pwn", "i-tao", "i-tay", "i-tsu", "no-bok", "no-nyn", "sgn-be-fr",
    "sgn-be-nl", "sgn-ch-de", "zh-guoyu", "zh-hakka", "zh-min", "zh-min-nan",
    "zh-xiang"]

/-- A subtag is a text without hyphens. -/
abbrev Subtag := List Char

namespace Subtag

/-- Letters only, and a number of them within bounds. -/
def isLetters (low high : Nat) (s : Subtag) : Bool :=
  low ≤ s.length && s.length ≤ high && s.all Char.isAlpha

/-- Letters and digits, and a number of them within bounds. -/
def isWord (low high : Nat) (s : Subtag) : Bool :=
  low ≤ s.length && s.length ≤ high && s.all Char.isAlphanum

/-- A script has four letters. -/
def isScript (s : Subtag) : Bool := s.isLetters 4 4

/-- A region has two letters or three digits. -/
def isRegion (s : Subtag) : Bool :=
  s.isLetters 2 2 || (s.length == 3 && s.all Char.isDigit)

/-- A variant has five to eight characters, or four if it begins with a
digit. -/
def isVariant (s : Subtag) : Bool :=
  s.isWord 5 8 || (s.isWord 4 4 && s.head?.any Char.isDigit)

/-- An extension begins with a single character other than `x`. -/
def isSingleton (s : Subtag) : Bool := s.isWord 1 1 && s != ['x']

end Subtag

/-- The subtags after the first one, if that is of a kind. -/
def dropOne (kind : Subtag → Bool) : List Subtag → List Subtag
  | s :: rest => if kind s then rest else s :: rest
  | [] => []

/-- A private part is nothing, or `x` and at least one subtag. -/
def isPrivateUse : List Subtag → Bool
  | [] => true
  | x :: rest => x == ['x'] && !rest.isEmpty && rest.all (Subtag.isWord 1 8 ·)

/-- How far the reader of extensions has come: no extension has begun, one has
begun and lacks its first subtag, or one has a subtag. -/
inductive ExtensionState where
  | before
  | begun
  | inside
  deriving DecidableEq

/-- Extensions and then a private part. In an extension at least one subtag of
two to eight characters follows the single character. -/
def isExtended : ExtensionState → List Subtag → Bool
  | state, [] => state != .begun
  | state, s :: rest =>
    if s.isWord 2 8 then state != .before && isExtended .inside rest
    else
      state != .begun &&
        if s.isSingleton then isExtended .begun rest
        else isPrivateUse (s :: rest)

/-- The subtags after the language: up to three extended languages after a
short language, a script, a region, variants, extensions. -/
def isLanguageRest (short : Bool) (rest : List Subtag) : Bool :=
  let extended := dropOne fun s => short && s.isLetters 3 3
  let rest := extended (extended (extended rest))
  let rest := dropOne Subtag.isRegion (dropOne Subtag.isScript rest)
  isExtended .before (rest.dropWhile Subtag.isVariant)

/-- A language tag in lower case. -/
def isLanguageTag (tag : String) : Bool :=
  registeredTags.contains tag ||
    match tag.toList.splitOn '-' with
    | [] => false
    | language :: rest =>
      (language == ['x'] && isPrivateUse (language :: rest)) ||
        (Subtag.isLetters 2 8 language &&
          isLanguageRest (language.length ≤ 3) rest)

example : ["en", "zh-cmn-hans-cn", "de-1996", "sl-rozaj-biske-1994",
    "en-a-bbb-x-a-ccc", "x-whatever", "i-klingon"].all isLanguageTag := by
  decide +kernel

example : ["", "e", "en-", "en-a", "en-x", "x", "a-b", "en-a-x-b",
    "de-419-de", "english-usa", "zh-a-b"].all (!isLanguageTag ·) := by
  decide +kernel

end Ontology.Rdf
