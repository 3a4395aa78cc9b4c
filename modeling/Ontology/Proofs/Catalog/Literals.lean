/-
Numbers and truth values that are written are read back.

* `Text.natural?_toString`: the digits of a number denote it.
* `Text.trim_eq_self`: nothing is trimmed from a text without blanks.
* `readCount?_text_countLiteral`, `readTruth?_truthLiteral`: the literals of
  restrictions.
-/
import Mathlib.Tactic.Lemma
import Ontology.Catalog.Export
import Ontology.Catalog.OfGraph

namespace Ontology

/-! ### Digits -/

namespace Text

lemma digitsValue_eq_ofDigitChars (start : Nat) (cs : List Char) :
    digitsValue start cs = Nat.ofDigitChars 10 cs start := by
  simp only [digitsValue, Nat.ofDigitChars, Nat.mul_comm]

lemma isDigit_of_mem_toString {n : Nat} {c : Char}
    (h : c ∈ (toString n).toList) : c.isDigit := by
  rw [Nat.toString_eq_repr, Nat.toList_repr] at h
  exact Nat.isDigit_of_mem_toDigits (by decide) (by decide) h

/-- A number is read as it is written. -/
lemma natural?_toString (n : Nat) : natural? (toString n).toList = some n := by
  have hne : (toString n).toList ≠ [] := by
    rw [Nat.toString_eq_repr, Nat.toList_repr]
    exact Nat.toDigits_ne_nil
  have hall : (toString n).toList.all Char.isDigit :=
    List.all_eq_true.mpr fun _ => isDigit_of_mem_toString
  rw [natural?, if_pos ⟨hne, hall⟩, digitsValue_eq_ofDigitChars,
    Nat.toString_eq_repr, Nat.toList_repr, Nat.ofDigitChars_ten_toDigits]

lemma not_isBlank_of_isDigit {c : Char} (h : c.isDigit) : isBlank c = false := by
  have hrange : 48 ≤ c.toNat ∧ c.toNat ≤ 57 := Char.isDigit_iff_toNat.mp h
  rw [Bool.eq_false_iff, isBlank, ne_eq, Ranges.has_iff]
  rintro ⟨r, hr, hle⟩
  have hblanks : ∀ r ∈ blanks, r.2 < 48 ∨ 57 < r.1 := by decide
  have := hblanks r hr
  omega

/-- Only blanks are trimmed. -/
lemma trim_eq_self {cs : List Char} (h : ∀ c ∈ cs, isBlank c = false) :
    trim cs = cs := by
  have hdrop {ds : List Char} (h : ∀ c ∈ ds, isBlank c = false) :
      ds.dropWhile isBlank = ds := by
    cases ds with
    | nil => rfl
    | cons d ds => simp [h d]
  rw [trim, hdrop h, hdrop (by simpa using h), List.reverse_reverse]

end Text

/-! ### Literals of restrictions -/

/-- A count is read as it is written. -/
lemma readCount?_text_countLiteral (n : UInt32) :
    readCount? (countLiteral n).text = some n := by
  have htext : (countLiteral n).text = toString n.toNat := rfl
  have htrim : Text.trim (toString n.toNat).toList = (toString n.toNat).toList :=
    Text.trim_eq_self fun c hc =>
      Text.not_isBlank_of_isDigit (Text.isDigit_of_mem_toString hc)
  rw [readCount?, htext, htrim]
  split
  · next ds h =>
    -- a sign is no digit
    have hc : '+' ∈ (toString n.toNat).toList := h ▸ List.mem_cons_self
    exact absurd (Text.isDigit_of_mem_toString hc) (by decide)
  · simp [-Nat.toString_eq_repr, Text.natural?_toString, n.toNat_lt_size]

lemma readTruth?_truthLiteral (b : Bool) :
    readTruth? (.literal (truthLiteral b)) = some b := by
  cases b <;> rfl

end Ontology
