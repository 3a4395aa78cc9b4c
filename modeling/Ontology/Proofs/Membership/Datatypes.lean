/-
Literals that denote integers, and the datatypes to which they belong.

* `Literal.IsInteger`: a literal of a type of integers denotes an integer, which the
  range of the type may hold or not; `IsInteger.hasDatatype_iff`: it belongs to the
  types whose range holds the integer, and to its own.
* `IsInteger.hasDatatype_congr_iff`: the datatypes that tell two literals of one
  integer apart.
* `Finds.mem_iff_of_exchange`: a restriction that asks for a class does not tell
  apart two individuals with the same values but for one of each, if these are alike
  in the class.
* `Reasoner.datatypes_follow_value_iff`: **belonging to a datatype depends on the
  integer** and not on the type that it is written with, unless this type does not
  hold it; `datatypes_depend_on_type`: then it does.
-/
import Ontology.Proofs.Membership.Counting

namespace Ontology

open Value (IntegerType)

/-! ### Literals -/

namespace Rdf.Literal

variable {a b : Literal} {s t u : IntegerType} {n : ℤ} {d : Iri}

/-- A literal of a type of integers denotes an integer, whatever the range of the
type. -/
structure IsInteger (a : Literal) (t : IntegerType) (n : ℤ) : Prop where
  datatype : a.datatype = (Value.Datatype.integer t).iri
  value : a.value? = some (.integer n)

lemma integer_iri_inj :
    (Value.Datatype.integer s).iri = (Value.Datatype.integer t).iri ↔ s = t :=
  ⟨fun h => Value.Datatype.integer.inj (Value.Datatype.iri_injective h),
    fun h => h ▸ rfl⟩

lemma integerType?_eq_some_iff :
    integerType? d = some t ↔ d = (Value.Datatype.integer t).iri := by
  unfold integerType?
  split
  · next u hu =>
    obtain rfl := Value.Datatype.ofIri?_eq_some_iff.mp hu
    rw [Option.some_inj, integer_iri_inj]
  · next hnone =>
    refine iff_of_false (by simp) ?_
    rintro rfl
    exact hnone t (Value.Datatype.ofIri?_eq_some_iff.mpr rfl)

namespace IsInteger

/-- An integer belongs to the types whose range holds it, and to the one that it is
written with. -/
lemma hasDatatype_iff (ha : a.IsInteger t n) :
    a.hasDatatype d ↔ d = Rdfs.literal ∨ d = Value.Datatype.decimal.iri ∨
      ∃ u, d = (Value.Datatype.integer u).iri ∧ (u = t ∨ u.holds n) := by
  have hown : (Value.Datatype.integer t).iri = d ↔
      ∃ u, d = (Value.Datatype.integer u).iri ∧ u = t :=
    ⟨fun h => ⟨t, h.symm, rfl⟩, fun ⟨_, hd, hu⟩ => hu ▸ hd.symm⟩
  have hrange : (integerType? d).any (·.holds n) ↔
      ∃ u, d = (Value.Datatype.integer u).iri ∧ u.holds n := by
    simp only [Option.any_eq_true, integerType?_eq_some_iff]
  simp only [hasDatatype, ha.datatype, ha.value, Bool.or_eq_true, decide_eq_true_eq,
    hrange, hown, and_or_left, exists_or]
  rw [or_assoc]
  exact or_congr_right or_left_comm

lemma hasDatatype_integer_iff (ha : a.IsInteger t n) :
    a.hasDatatype (Value.Datatype.integer u).iri ↔ u = t ∨ u.holds n := by
  have hliteral : (Value.Datatype.integer u).iri ≠ Rdfs.literal := by
    cases u <;> decide +kernel
  have hdecimal : (Value.Datatype.integer u).iri ≠ Value.Datatype.decimal.iri :=
    fun h => nomatch Value.Datatype.iri_injective h
  simp [ha.hasDatatype_iff, hliteral, hdecimal, integer_iri_inj]

/-- Two literals of one integer belong to the same datatypes, but for the type of
one that does not hold the integer: this type tells it from the other. -/
lemma hasDatatype_congr_iff (ha : a.IsInteger s n) (hb : b.IsInteger t n) :
    (a.hasDatatype d ↔ b.hasDatatype d) ↔ s = t ∨
      (d = (Value.Datatype.integer s).iri → s.holds n) ∧
        (d = (Value.Datatype.integer t).iri → t.holds n) := by
  by_cases hd : ∃ u, d = (Value.Datatype.integer u).iri
  · obtain ⟨u, rfl⟩ := hd
    rw [ha.hasDatatype_integer_iff, hb.hasDatatype_integer_iff, integer_iri_inj,
      integer_iri_inj]
    grind
  · rw [not_exists] at hd
    simp [ha.hasDatatype_iff, hb.hasDatatype_iff, hd]

end IsInteger

end Rdf.Literal

/-! ### Restrictions -/

namespace Reasoner

open Rdf (Literal Term Iri)

variable {r : Reasoner} {role : Role} {constraint : Constraint} {d : ClassName}
  {is : List Individual} {i j : Individual} {v w : Term} {V : Set Term}

/-- Literals are in a class if they belong to the datatype with its IRI. -/
lemma mem_valuesIn_literal_iff {l : Literal} {S : Set Individual} :
    .literal l ∈ valuesIn d S ↔ ∃ iri, d = .iri iri ∧ l.hasDatatype iri := by
  simp [valuesIn]

/-- A restriction that asks for a class does not tell apart two individuals with the
same values but for one of each, if these two are alike in the class. -/
lemma Finds.mem_iff_of_exchange (hr : r.facts.Declares)
    (h : r.Finds role constraint is) (hd : constraint.filler? = some d)
    (hi : r.values role i = insert v V) (hj : r.values role j = insert w V)
    (hv : v ∉ V) (hw : w ∉ V) (hvw : ∀ S, v ∈ valuesIn d S ↔ w ∈ valuesIn d S) :
    i ∈ is ↔ j ∈ is := by
  have hvi : v ∈ r.values role i := hi ▸ Set.mem_insert v V
  have hwj : w ∈ r.values role j := hj ▸ Set.mem_insert w V
  have hknown : i ∈ r.facts.individuals ↔ j ∈ r.facts.individuals :=
    iff_of_true (mem_individuals_of_mem_values hr hvi)
      (mem_individuals_of_mem_values hr hwj)
  by_cases htrivial : constraint.trivial = true
  · rw [h.mem_iff_of_trivial htrivial, h.mem_iff_of_trivial htrivial, hknown]
  obtain ⟨A, hA⟩ := h.exists_asks (Bool.eq_false_iff.mpr htrivial)
  have hasked : v ∈ A ↔ w ∈ A := by
    rw [hd] at hA
    cases hA with
    | ofClass hjs => exact hvw _
  have hcount : (r.values role i ∩ A).ncard = (r.values role j ∩ A).ncard := by
    have hfinite : (V ∩ A).Finite :=
      ((finite_values role i).subset (hi ▸ Set.subset_insert v V)).inter_of_left A
    rw [hi, hj]
    by_cases hmem : v ∈ A
    · rw [Set.insert_inter_of_mem hmem, Set.insert_inter_of_mem (hasked.mp hmem),
        Set.ncard_insert_of_notMem (fun h => hv h.1) hfinite,
        Set.ncard_insert_of_notMem (fun h => hw h.1) hfinite]
    · rw [Set.insert_inter_of_notMem hmem,
        Set.insert_inter_of_notMem (mt hasked.mpr hmem)]
  cases constraint with
  | count k on => rw [h.mem_count_iff hA, h.mem_count_iff hA, hknown, hcount]
  | allValuesFrom e =>
    rw [h.mem_all_iff hA, h.mem_all_iff hA, hi, hj]
    simp [Set.insert_subset_iff, hasked]
  | someValuesFrom e =>
    rw [h.mem_some_iff hA, h.mem_some_iff hA, ← one_le_ncard_iff, ← one_le_ncard_iff,
      hcount]
  | hasValue u => simp [Constraint.filler?] at hd
  | hasSelf self => simp [Constraint.filler?] at hd

/-- **Belonging to a datatype depends on the integer**: two literals of one integer,
written with types of integers, belong to the same datatypes, but for the type of
one that does not hold the integer and is not that of the other. So a restriction
that asks for values in another class treats both alike: it does not tell apart two
individuals of which one has the first literal where the other has the second. -/
theorem datatypes_follow_value_iff {a b : Literal} {s t : IntegerType} {n : ℤ}
    (ha : a.IsInteger s n) (hb : b.IsInteger t n) :
    (∀ d, (a.hasDatatype d = b.hasDatatype d ↔ s = t ∨
      (d = (Value.Datatype.integer s).iri → s.holds n) ∧
        (d = (Value.Datatype.integer t).iri → t.holds n))) ∧
    ((∀ d, a.hasDatatype d = b.hasDatatype d) ↔ s = t ∨ s.holds n ∧ t.holds n) ∧
    ∀ (r : Reasoner) (role : Role) (constraint : Constraint) (d : ClassName)
      (is : List Individual) (i j : Individual) (V : Set Term),
      r.facts.Reached → r.Finds role constraint is → constraint.filler? = some d →
      (s = t ∨ (d = .iri (Value.Datatype.integer s).iri → s.holds n) ∧
        (d = .iri (Value.Datatype.integer t).iri → t.holds n)) →
      r.values role i = insert (.literal a) V → .literal a ∉ V →
      r.values role j = insert (.literal b) V → .literal b ∉ V →
        (i ∈ is ↔ j ∈ is) := by
  have hsame (d : Iri) : a.hasDatatype d = b.hasDatatype d ↔ s = t ∨
      (d = (Value.Datatype.integer s).iri → s.holds n) ∧
        (d = (Value.Datatype.integer t).iri → t.holds n) := by
    rw [← ha.hasDatatype_congr_iff hb, Bool.eq_iff_iff]
  refine ⟨hsame, ⟨fun h => ?_, fun h d => (hsame d).mpr ?_⟩, ?_⟩
  · -- each type tells the two apart if it does not hold the integer
    rcases (hsame _).mp (h (Value.Datatype.integer s).iri) with hst | ⟨hs, -⟩
    · exact .inl hst
    · rcases (hsame _).mp (h (Value.Datatype.integer t).iri) with hst | ⟨-, ht⟩
      · exact .inl hst
      · exact .inr ⟨hs rfl, ht rfl⟩
  · exact h.imp_right fun ⟨hs, ht⟩ => ⟨fun _ => hs, fun _ => ht⟩
  · intro r role constraint d is i j V hr h hd hst hi ha' hj hb'
    refine h.mem_iff_of_exchange hr.declares hd hi hj ha' hb' fun S => ?_
    simp only [mem_valuesIn_literal_iff]
    refine exists_congr fun iri => and_congr_right ?_
    rintro rfl
    rw [(hsame iri).mpr (by simpa using hst)]

/-- Ada has a size of `7` as a byte, and Byron one of `+07` as a word. Both have one
short number as a size, beside a text. -/
theorem datatypes_follow_value_iff_of_sizes :
    let ada : Individual := .iri ⟨"e:ada"⟩
    let byron : Individual := .iri ⟨"e:byron"⟩
    let size : Property := ⟨"e:size"⟩
    let sized : ClassName := .iri ⟨"e:Sized"⟩
    let byte := Literal.typed "7" (Value.Datatype.integer .byte).iri
    let word := Literal.typed "+07" (Value.Datatype.integer .unsignedInt).iri
    let short : ClassName := .iri (Value.Datatype.integer .short).iri
    let cs : List Command := [
      .tell (.assertion ⟨.positive, ada, size, .literal (.simple "small")⟩),
      .tell (.assertion ⟨.positive, byron, size, .literal (.simple "small")⟩),
      .tell (.assertion ⟨.positive, ada, size, .literal byte⟩),
      .tell (.assertion ⟨.positive, byron, size, .literal word⟩)]
    let r : Reasoner := {
      facts := (Store.run {} cs).facts
      catalog := Terminology.catalog [
        .define sized (.restriction ⟨.direct size, .count (.exactly 1) short,
          by simp [Constraint.Ordered, Constraint.count?, Count.min?, Count.max?]⟩)] }
    let V : Set Term := {.literal (.simple "small")}
    byte.IsInteger .byte 7 ∧ word.IsInteger .unsignedInt 7 ∧
      (∀ d, byte.hasDatatype d = word.hasDatatype d) ∧
      r.facts.Reached ∧
      r.Finds (.direct size) (.count (.exactly 1) short) [ada, byron] ∧
      r.values (.direct size) ada = insert (.literal byte) V ∧ .literal byte ∉ V ∧
      r.values (.direct size) byron = insert (.literal word) V ∧ .literal word ∉ V ∧
      (ada ∈ [ada, byron] ↔ byron ∈ [ada, byron]) := by
  intro ada byron size sized byte word short cs r V
  have hbyte : byte.IsInteger .byte 7 := ⟨rfl, by decide +kernel⟩
  have hword : word.IsInteger .unsignedInt 7 := ⟨rfl, by decide +kernel⟩
  have hreached : r.facts.Reached := by
    dsimp only [r]
    exact ⟨{}, cs, rfl⟩
  have hfinds : r.Finds (.direct size) (.count (.exactly 1) short) [ada, byron] :=
    ⟨sized, _, rfl, rfl, rfl, by decide +kernel⟩
  have hada : (r.roleLinks (.direct size)).valuesOf ada =
      [.literal (.simple "small"), .literal byte] := by decide +kernel
  have hbyron : (r.roleLinks (.direct size)).valuesOf byron =
      [.literal (.simple "small"), .literal word] := by decide +kernel
  have hvada : r.values (.direct size) ada = insert (.literal byte) V := by
    ext v
    rw [mem_values, ← Links.mem_valuesOf, hada]
    simp [V, or_comm]
  have hvbyron : r.values (.direct size) byron = insert (.literal word) V := by
    ext v
    rw [mem_values, ← Links.mem_valuesOf, hbyron]
    simp [V, or_comm]
  have hbyteV : Term.literal byte ∉ V := by
    simp only [V, Set.mem_singleton_iff]
    decide +kernel
  have hwordV : Term.literal word ∉ V := by
    simp only [V, Set.mem_singleton_iff]
    decide +kernel
  obtain ⟨-, hall, hrestriction⟩ := datatypes_follow_value_iff hbyte hword
  have hheld : IntegerType.byte.holds 7 ∧ IntegerType.unsignedInt.holds 7 := by decide
  exact ⟨hbyte, hword, hall.mpr (.inr hheld), hreached, hfinds, hvada, hbyteV, hvbyron,
    hwordV, hrestriction r _ _ short _ ada byron V hreached hfinds rfl
      (.inr ⟨fun _ => hheld.1, fun _ => hheld.2⟩) hvada hbyteV hvbyron hwordV⟩

/-- A type that does not hold an integer holds what is written with it: `300` is a
byte if it is written as one, and not if it is written as an integer. So of two
individuals with these values one only has a byte as a value. -/
theorem datatypes_depend_on_type :
    let ada : Individual := .iri ⟨"e:ada"⟩
    let byron : Individual := .iri ⟨"e:byron"⟩
    let size : Property := ⟨"e:size"⟩
    let sized : ClassName := .iri ⟨"e:Sized"⟩
    let byte : Iri := (Value.Datatype.integer .byte).iri
    let asByte := Literal.typed "300" byte
    let asInteger := Literal.typed "300" (Value.Datatype.integer .integer).iri
    let r : Reasoner := {
      facts := (Store.run {} [
        .tell (.assertion ⟨.positive, ada, size, .literal asByte⟩),
        .tell (.assertion ⟨.positive, byron, size, .literal asInteger⟩)]).facts
      catalog := Terminology.catalog [
        .define sized (.restriction ⟨.direct size, .someValuesFrom (.iri byte),
          by simp [Constraint.Ordered, Constraint.count?]⟩)] }
    asByte.IsInteger .byte 300 ∧ asInteger.IsInteger .integer 300 ∧
      ¬ (asByte.hasDatatype byte = asInteger.hasDatatype byte) ∧
      ∃ is, r.members sized = .ok is ∧ ¬ (ada ∈ is ↔ byron ∈ is) := by
  intro ada byron size sized byte asByte asInteger r
  have hmembers : r.members sized = .ok [ada] := by decide +kernel
  exact ⟨⟨rfl, by decide +kernel⟩, ⟨rfl, by decide +kernel⟩, by decide +kernel,
    [ada], hmembers, by decide⟩

end Reasoner

end Ontology
