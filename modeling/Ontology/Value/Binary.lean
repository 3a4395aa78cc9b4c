/-
Binary floating point, in exact arithmetic.

* `Binary`: not a number, an infinity, or a whole number of units of
  `2⁻¹⁰⁷⁴`, the smallest positive number of double precision.
* `roundHalfEven`: a quotient to the nearest whole number, a half to the even
  one.
* `Format`, `Format.round`: the nearest number of single and of double
  precision, an infinity where there is none.
* `Format.read?`: the reader of decimal texts, correctly rounded;
  `Binary.ofInt`, `Binary.ofDecimal`: the conversions to double precision.
-/
import Ontology.Value.Decimal

namespace Ontology.Value

/-- A floating point number, in units of `2⁻¹⁰⁷⁴`. There is one zero. -/
inductive Binary where
  | nan
  | infinite (negative : Bool)
  | finite (units : Int)
  deriving DecidableEq

/-- Equal numbers; what is no number equals nothing. -/
def Binary.same (a b : Binary) : Bool := a ≠ nan ∧ a = b

@[simp] theorem Binary.same_iff {a b : Binary} :
    a.same b ↔ a ≠ nan ∧ a = b := by
  simp [same]

/-- Equality of numbers goes both ways. -/
theorem Binary.same_comm (a b : Binary) : a.same b = b.same a := by
  rw [Bool.eq_iff_iff, same_iff, same_iff]
  constructor
  · rintro ⟨h, rfl⟩
    exact ⟨h, rfl⟩
  · rintro ⟨h, rfl⟩
    exact ⟨h, rfl⟩

/-! ### Rounding -/

/-- The whole number nearest to `n / d`; of two, the even one. -/
def roundHalfEven (n d : Nat) : Nat :=
  let q := n / d
  let twice := 2 * (n % d)
  if d < twice ∨ (d = twice ∧ q % 2 = 1) then q + 1 else q

/-- A binary format. -/
structure Format where
  /-- The number of bits of a significand. -/
  precision : Nat
  /-- The smallest positive number is `2 ^ scale` units of `2⁻¹⁰⁷⁴`. -/
  scale : Nat
  /-- The numbers of the format lie below `2 ^ limit` smallest ones. -/
  limit : Nat

namespace Format

/-- Single precision. -/
def single : Format := ⟨24, 1074 - 149, 149 + 128⟩

/-- Double precision. -/
def double : Format := ⟨53, 0, 1074 + 1024⟩

/-- The number of the format nearest to `n / d`, all in units of the smallest
positive number of the format. Numbers of more bits than the significand are
multiples of a power of two. -/
def nearest (f : Format) (n d : Nat) : Nat :=
  let bits := (n / d).log2 + 1
  let step := Nat.pow 2 (bits - f.precision)
  roundHalfEven n (d * step) * step

/-- Rounds `± n / d` units of `2⁻¹⁰⁷⁴` to the format. -/
def round (f : Format) (negative : Bool) (n d : Nat) : Binary :=
  let m := f.nearest n (d * Nat.pow 2 f.scale)
  if Nat.pow 2 f.limit ≤ m then .infinite negative
  else
    let units : Int := (m * Nat.pow 2 f.scale : Nat)
    .finite (if negative then -units else units)

/-- Rounds `± m · 10ᵉ` to the format. The bounds settle numbers far beyond
every format at once. -/
def roundScientific (f : Format) (negative : Bool) (m : Nat) (e : Int) :
    Binary :=
  let size : Int := (Nat.toDigits 10 m).length + e
  if m = 0 ∨ size < -400 then .finite 0
  else if 400 < size then .infinite negative
  else
    f.round negative (m * Nat.pow 2 1074 * Nat.pow 10 e.toNat)
      (Nat.pow 10 (-e).toNat)

/-! ### Reading -/

/-- Digits with an optional point, at least one digit, as a whole number and
the number of digits after the point. -/
def readMantissa? (cs : List Char) : Option (Nat × Nat) :=
  (Decimal.digitParts? cs).map fun (whole, fraction) =>
    (Text.digitsValue 0 (whole ++ fraction), fraction.length)

/-- Reads a number: a sign, then the name of an infinity or of no number in
letters of any case, or digits with an optional point and exponent. -/
def read? (f : Format) (cs : List Char) : Option Binary := do
  let (negative, cs) := Text.splitSign cs
  let name := String.ofList (cs.map Char.toLower)
  if name = "inf" ∨ name = "infinity" then return .infinite negative
  if name = "nan" then return .nan
  let isMark := fun c : Char => c == 'e' || c == 'E'
  let (mantissa, places) ← readMantissa? (cs.takeWhile (!isMark ·))
  let exponent ←
    match cs.dropWhile (!isMark ·) with
    | [] => some 0
    | _ :: digits => Text.integer? digits
  return f.roundScientific negative mantissa (exponent - places)

end Format

/-! ### Conversions to double precision -/

/-- The number of double precision nearest to an integer. -/
def Binary.ofInt (n : Int) : Binary :=
  Format.double.round (decide (n < 0)) (n.natAbs * Nat.pow 2 1074) 1

/-- Cancels common factors of ten in `n / 10ᵏ`, for at most `k` of them. -/
def cancelTens (n : Int) : Nat → Int × Nat
  | 0 => (n, 0)
  | k + 1 => if n % 10 = 0 ∧ n ≠ 0 then cancelTens (n / 10) k else (n, k + 1)

/-- A decimal number in double precision: both terms of its reduced fraction
are rounded, and then their quotient. The powers of ten are exact. -/
def Binary.ofDecimal (d : Decimal) : Binary :=
  let (n, k) := cancelTens d.units Decimal.places
  match ofInt n with
  | finite units =>
    Format.double.round (decide (units < 0)) units.natAbs (Nat.pow 10 k)
  | b => b

example : Format.double.read? "0.1".toList =
      some (.finite (3602879701896397 * 2 ^ (1074 - 55))) ∧
    Format.double.read? "1e400".toList = some (.infinite false) ∧
    Format.double.read? "-5e-324".toList = some (.finite (-1)) ∧
    Format.double.read? "2e-324".toList = some (.finite 0) ∧
    Format.double.read? "1e".toList = none := by
  decide +kernel

example : Format.single.read? "3.4028235677973367e38".toList =
      some (.infinite false) ∧
    Format.single.read? "16777217".toList =
      some (.finite (16777216 * 2 ^ 1074)) := by
  decide +kernel

end Ontology.Value
