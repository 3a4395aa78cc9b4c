/-
Equality of the values of literals.

* `Value.Exact`, `Literal.Exact`: values that are no binary numbers, and literals
  of datatypes without such values.
* `Value.normal`: integers are decimal numbers; `same_iff_normal_eq`: exact values
  are compared as these.
* `Literal.meaning`: the value that a literal stands for, or the literal itself if
  it has none; `sameValue_iff_meaning_eq`: exact literals have equal values if they
  mean the same.
* `Literal.sameValue_refl_symm_trans`: **equality of values is well behaved**.
-/
import Mathlib.Tactic.Lemma
import Ontology.Value.Literal

namespace Ontology

/-! ### Values -/

namespace Value

variable {v w : Value}

/-- A value is no binary number. -/
def Exact (v : Value) : Prop := ∀ x, v ≠ .binary x

/-- An integer as a decimal number, and any other value as it is. -/
def normal : Value → Value
  | integer n => decimal (.ofInt n)
  | v => v

/-- Exact values are compared exactly: no pair of them is left to be compared as
binary numbers. -/
lemma same_iff_normal_eq (hv : v.Exact) (hw : w.Exact) :
    v.same w ↔ v.normal = w.normal := by
  cases v with
  | binary x => exact absurd rfl (hv x)
  | _ =>
    cases w with
    | binary y => exact absurd rfl (hw y)
    | _ => simp [same, normal, binary?, Moment.same, Decimal.ofInt_injective]

end Value

/-! ### Literals -/

namespace Rdf.Literal

variable {a b c : Literal} {v : Value}

/-- A literal is of neither datatype of binary numbers. -/
def Exact (a : Literal) : Prop :=
  a.datatype ≠ Value.Datatype.float.iri ∧ a.datatype ≠ Value.Datatype.double.iri

/-- What a literal stands for: its value, or itself if it has none. -/
def meaning (a : Literal) : Value ⊕ Literal :=
  match a.value? with
  | some v => .inl v.normal
  | none => .inr a

/-- The values of other datatypes are no binary numbers. -/
lemma Exact.value (ha : a.Exact) (hv : a.value? = some v) : v.Exact := by
  rintro x rfl
  cases a with
  | tagged text language => simp [value?] at hv
  | typed text datatype =>
    obtain ⟨d, hd, hread⟩ := Option.bind_eq_some_iff.mp hv
    rw [Value.Datatype.ofIri?_eq_some_iff] at hd
    cases d with
    | float => exact ha.1 hd.symm
    | double => exact ha.2 hd.symm
    | _ => simp [Value.read?] at hread

/-- Exact literals have equal values if they mean the same. -/
theorem sameValue_iff_meaning_eq (ha : a.Exact) (hb : b.Exact) :
    a.sameValue b ↔ a.meaning = b.meaning := by
  obtain rfl | hne := Decidable.em (a = b)
  · simp
  · -- different literals are compared by their values, if both have one
    cases hv : a.value? with
    | none => cases hw : b.value? <;> simp [sameValue, meaning, hv, hw, hne]
    | some v =>
      cases hw : b.value? with
      | none => simp [sameValue, meaning, hv, hw, hne]
      | some w =>
        have hsame := Value.same_iff_normal_eq (ha.value hv) (hb.value hw)
        simp [sameValue, meaning, hv, hw, hne, hsame]

/-- **Equality of values is well behaved**: every literal has the value that it has,
whether or not its text is one of its datatype; equality goes both ways; and it
passes from one to the next of literals of whatever datatypes, if none of these is
of binary numbers. -/
theorem sameValue_refl_symm_trans :
    (∀ a : Literal, a.sameValue a) ∧
    (∀ a b : Literal, a.sameValue b → b.sameValue a) ∧
    ∀ a b c : Literal, a.Exact → b.Exact → c.Exact →
      a.sameValue b → b.sameValue c → a.sameValue c := by
  refine ⟨sameValue_refl, fun a b hab => ?_, fun a b c ha hb hc hab hbc => ?_⟩
  · rwa [sameValue_comm]
  · rw [sameValue_iff_meaning_eq ha hb] at hab
    rw [sameValue_iff_meaning_eq hb hc] at hbc
    rw [sameValue_iff_meaning_eq ha hc]
    exact hab.trans hbc

/-- One, as an integer, as a decimal number and as a byte. -/
theorem sameValue_refl_symm_trans_of_ones :
    let integer := Literal.typed "01" (Value.Datatype.integer .integer).iri
    let decimal := Literal.typed "1.0" Value.Datatype.decimal.iri
    let byte := Literal.typed "+1" (Value.Datatype.integer .byte).iri
    integer.Exact ∧ decimal.Exact ∧ byte.Exact ∧
      integer.sameValue decimal ∧ decimal.sameValue byte ∧
      decimal.sameValue integer ∧ integer.sameValue byte := by
  intro integer decimal byte
  have hinteger : integer.Exact := ⟨by decide +kernel, by decide +kernel⟩
  have hdecimal : decimal.Exact := ⟨by decide +kernel, by decide +kernel⟩
  have hbyte : byte.Exact := ⟨by decide +kernel, by decide +kernel⟩
  have hone : integer.sameValue decimal := by decide +kernel
  have hone' : decimal.sameValue byte := by decide +kernel
  obtain ⟨-, hsymm, htrans⟩ := sameValue_refl_symm_trans
  exact ⟨hinteger, hdecimal, hbyte, hone, hone', hsymm _ _ hone,
    htrans _ _ _ hinteger hdecimal hbyte hone hone'⟩

-- beyond 53 bits one binary number equals different integers
example :
    let low := Literal.typed "9007199254740992" (Value.Datatype.integer .integer).iri
    let high := Literal.typed "9007199254740993" (Value.Datatype.integer .integer).iri
    let double := Literal.typed "9007199254740992" Value.Datatype.double.iri
    low.sameValue double ∧ double.sameValue high ∧ ¬ low.sameValue high := by
  decide +kernel

end Rdf.Literal

end Ontology
