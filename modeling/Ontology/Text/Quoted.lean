/-
The quoted form of a text: quotation marks around it, and control characters,
quotation marks and backslashes written as escapes.

* `escapeChar`, `quote`: the writer.
* `escapeChar_ne_quote`: no escape begins with a quotation mark, so the mark
  that ends a quoted text is the first one not escaped.
-/
namespace Ontology.Text

/-- The digits of hexadecimal numbers, in upper case. -/
def hexDigits : List Char := "0123456789ABCDEF".toList

/-- The last four hexadecimal digits of a number, most significant first. -/
def hex4 (n : Nat) : List Char :=
  [n / 4096, n / 256, n / 16, n].map fun d => hexDigits.getD (d % 16) '0'

/-- The characters that stand for one character in a quoted text. The control
characters with no letter of their own are given by their numbers. -/
def escapeChar (c : Char) : List Char :=
  if c = '"' then ['\\', '"']
  else if c = '\\' then ['\\', '\\']
  else if c = '\n' then ['\\', 'n']
  else if c = '\r' then ['\\', 'r']
  else if c = '\t' then ['\\', 't']
  else if c = '\x08' then ['\\', 'b']
  else if c = '\x0C' then ['\\', 'f']
  else if c.toNat < 0x20 ∨ c.toNat = 0x7F then '\\' :: 'u' :: hex4 c.toNat
  else [c]

/-- The quoted form of a text. -/
def quote (text : String) : String :=
  "\"" ++ String.ofList (text.toList.flatMap escapeChar) ++ "\""

/-- No character is written as a form that begins with a quotation mark. -/
theorem escapeChar_ne_quote (c : Char) (cs : List Char) :
    escapeChar c ≠ '"' :: cs := by
  unfold escapeChar
  grind

example : quote "a\"\x00\x1f\x7fé" = "\"a\\\"\\u0000\\u001F\\u007Fé\"" := by
  decide +kernel

end Ontology.Text
