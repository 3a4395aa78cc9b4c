/-
Texts of IP addresses, as they stand between the brackets of an IRI host.

* `isIpv4`: four numbers up to 255, written without leading zeros.
* `isIpv6`: eight groups of hexadecimal digits, where `::` stands for at
  least one group of zeros and a final IPv4 address for two groups.
* `isFutureAddress`: the form kept for later versions.
-/
import Ontology.Text.Digits

namespace Ontology.Rdf

/-- A hexadecimal digit of either case. -/
def isHex (c : Char) : Bool :=
  c.isDigit || ('a' ≤ c && c ≤ 'f') || ('A' ≤ c && c ≤ 'F')

/-- A number of an IPv4 address: at most 255, and no leading zero. -/
def isOctet (cs : List Char) : Bool :=
  match Text.natural? cs with
  | some n => n ≤ 255 && cs.length ≤ 3 && (cs.head? != some '0' || cs == ['0'])
  | none => false

/-- An IPv4 address has four numbers with points between them. -/
def isIpv4 (cs : List Char) : Bool :=
  let parts := cs.splitOn '.'
  parts.length == 4 && parts.all isOctet

/-- A group of an IPv6 address has one to four hexadecimal digits. -/
def isGroup (cs : List Char) : Bool :=
  !cs.isEmpty && cs.length ≤ 4 && cs.all isHex

/-- The number of groups that a sequence of parts fills. An IPv4 address may
stand at the end and fills two. -/
def groupCount? : List (List Char) → Option Nat
  | [] => some 0
  | [part] =>
    if isGroup part then some 1 else if isIpv4 part then some 2 else none
  | part :: parts =>
    if isGroup part then (groupCount? parts).map (· + 1) else none

/-- The parts of one side of `::`; an empty side has none. -/
def addressParts (cs : List Char) : List (List Char) :=
  if cs.isEmpty then [] else cs.splitOn ':'

/-- The texts before and after the first `::`, if there is one. -/
def splitGap? : List Char → Option (List Char × List Char)
  | ':' :: ':' :: rest => some ([], rest)
  | c :: rest =>
    (splitGap? rest).map fun (before, after) => (c :: before, after)
  | [] => none

/-- An IPv6 address: eight groups, or up to seven around one `::`, before
which no IPv4 address stands. -/
def isIpv6 (cs : List Char) : Bool :=
  match splitGap? cs with
  | none => groupCount? (addressParts cs) == some 8
  | some (before, after) =>
    (addressParts before).all isGroup &&
      match groupCount? (addressParts after) with
      | some n => (addressParts before).length + n ≤ 7
      | none => false

/-- An address of a later version: the letter `v`, hexadecimal digits, a
point, and at least one of the characters allowed. -/
def isFutureAddress (allowed : Char → Bool) : List Char → Bool
  | v :: rest =>
    (v == 'v' || v == 'V') &&
      match rest.dropWhile isHex with
      | '.' :: address =>
        rest.head?.any isHex && !address.isEmpty && address.all allowed
      | _ => false
  | [] => false

example : isIpv6 "::".toList ∧ isIpv6 "1::8".toList ∧
    isIpv6 "1:2:3:4:5:6:7:8".toList ∧ isIpv6 "::ffff:1.2.3.4".toList := by
  decide

example : isIpv6 "1:2:3:4:5:6:7".toList = false ∧
    isIpv6 "1::2::3".toList = false ∧ isIpv6 "1.2.3.4::".toList = false ∧
    isIpv6 "::1.2.3.04".toList = false ∧
    isIpv6 "1:2:3:4:5:6:7::8".toList = false := by
  decide

end Ontology.Rdf
