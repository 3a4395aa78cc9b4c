/-
Contradictions between facts and a statement.

* `Facts.opposes`: an assertion of the opposite polarity about equal subjects
  and equal objects; `opposes_node_iff`, `opposes_literal_iff`.
* `Facts.mergeOpposes`: an assertion and a denial that would meet if two
  individuals were one; `mergeOpposes_iff`.
* `Conflict`: the causes of a contradiction; `Facts.conflict?` finds the first
  one.
-/
import Ontology.Store.Identity
import Ontology.Store.Statement
import Ontology.Value.Literal

namespace Ontology

namespace Facts

variable (f : Facts)

/-! ### Opposite assertions -/

/-- An assertion of a polarity and a property is known whose subject is in a
list and whose object passes a test. -/
def anyAssertion (polarity : Polarity) (p : Property)
    (subjects : List Individual) (test : Rdf.Term → Bool) : Bool :=
  f.assertions.any fun a =>
    a.polarity = polarity && a.property = p && subjects.contains a.subject &&
      test a.object

/-- A term is an individual of a list. -/
def isAmong (names : List Individual) (v : Rdf.Term) : Bool :=
  v.node?.any names.contains

/-- A term is a literal with the value of another. -/
def hasValueOf (l : Rdf.Literal) (v : Rdf.Term) : Bool :=
  v.literal?.any (·.sameValue l)

/-- An assertion of the opposite polarity is known about an equal subject and
an equal object. -/
def opposes (a : Assertion) : Bool :=
  let subjects := f.equals a.subject
  match a.object with
  | .node o =>
    let names := f.equals o
    f.anyAssertion a.polarity.opposite a.property subjects (isAmong names)
  | .literal l =>
    f.anyAssertion a.polarity.opposite a.property subjects (hasValueOf l)

/-! ### Merging two individuals -/

/-- The names of an individual after the individuals with some names have
become one. -/
def equalsAfter (merged : List Individual) (i : Individual) :
    List Individual :=
  if i ∈ merged then merged else f.equals i

/-- What is stated is also denied, after the individuals with some names have
become one. Only assertions about these individuals can be affected. -/
def deniedAfter (merged : List Individual) (stated : Assertion) : Bool :=
  match stated.object with
  | .node o =>
    (merged.contains stated.subject || merged.contains o) &&
      let subjects := f.equalsAfter merged stated.subject
      let names := f.equalsAfter merged o
      f.anyAssertion .negative stated.property subjects (isAmong names)
  | .literal l =>
    merged.contains stated.subject &&
      f.anyAssertion .negative stated.property merged (hasValueOf l)

/-- Making one individual of two would make a denied assertion hold. -/
def mergeOpposes (a b : Individual) : Bool :=
  let merged := f.equals a ++ f.equals b
  f.assertions.any fun stated =>
    stated.polarity = .positive && f.deniedAfter merged stated

end Facts

/-! ### Conflicts -/

/-- The kinds of contradictions. -/
inductive ConflictKind where
  | sameAsDifferent
  | differentFromSame
  | stated
  | denied
  | reservedClass
  deriving DecidableEq

/-- The words for a kind of contradiction. -/
def ConflictKind.message : ConflictKind → String
  | sameAsDifferent => "sameAs conflicts with differentFrom"
  | differentFromSame => "differentFrom conflicts with sameAs"
  | stated => "assertion conflicts with a negative assertion"
  | denied => "negative assertion conflicts with an assertion"
  | reservedClass => "type into reserved vocabulary"

/-- Why a statement contradicts the facts. -/
inductive Conflict where
  /-- The class is one of those without instances of their own. -/
  | reserved (i : Individual) (c : ClassName)
  /-- The opposite is asserted. -/
  | opposed (a : Assertion)
  | knownDifferent (a b : Individual)
  /-- A denied assertion would hold. -/
  | merge (a b : Individual)
  | knownSame (a b : Individual)
  /-- A member of a group equals the first of some other members, and the
  rest of them. -/
  | equalMembers (member first : Individual) (rest : List Individual)
  deriving DecidableEq

namespace Conflict

/-- The kind of a conflict. -/
def kind : Conflict → ConflictKind
  | reserved _ _ => .reservedClass
  | opposed a =>
    match a.polarity with
    | .positive => .stated
    | .negative => .denied
  | knownDifferent _ _ => .sameAsDifferent
  | merge _ _ => .stated
  | knownSame _ _ => .differentFromSame
  | equalMembers _ _ _ => .differentFromSame

/-- What the conflict is about. -/
def detail : Conflict → String
  | reserved i c =>
    i.written ++ " cannot be typed with reserved class " ++ c.written
  | opposed a =>
    match a.polarity with
    | .positive => a.written ++ " is negatively asserted"
    | .negative => a.written ++ " is asserted"
  | knownDifferent a b =>
    a.written ++ " is known to be different from " ++ b.written
  | merge a b =>
    "merging " ++ a.written ++ " and " ++ b.written ++
      " makes a negatively asserted fact hold"
  | knownSame a b | equalMembers a b _ =>
    a.written ++ " is known to be the same as " ++ b.written

/-- The message of a conflict. -/
def message (c : Conflict) : String := c.kind.message ++ ": " ++ c.detail

end Conflict

namespace Facts

/-- The first member of a group that equals others of them. -/
def equalMembers? (f : Facts) (members : List Individual) : Option Conflict :=
  members.findSome? fun m =>
    let names := f.others m
    match members.filter (· ∈ names) with
    | [] => none
    | first :: rest => some (.equalMembers m first rest)

/-- The contradiction between the facts and a statement, if there is one.
Notes contradict nothing. -/
def conflict? (f : Facts) (reserved : List ClassName) :
    Statement → Option Conflict
  | .individual _ => none
  | .instanceOf i c => if c ∈ reserved then some (.reserved i c) else none
  | .assertion a => if f.opposes a then some (.opposed a) else none
  | .sameAs a b =>
    if f.isDifferent a b then some (.knownDifferent a b)
    else if f.mergeOpposes a b then some (.merge a b)
    else none
  | .differentFrom a b => if f.isSame a b then some (.knownSame a b) else none
  | .allDifferent members => f.equalMembers? members.eraseDups
  | .note _ => none

/-! ### Exactness -/

variable {f : Facts}

theorem anyAssertion_iff {polarity : Polarity} {p : Property}
    {subjects : List Individual} {test : Rdf.Term → Bool} :
    f.anyAssertion polarity p subjects test ↔
      ∃ s ∈ subjects, ∃ v, ⟨polarity, s, p, v⟩ ∈ f.assertions ∧ test v := by
  simp only [anyAssertion, List.any_eq_true, Bool.and_eq_true,
    decide_eq_true_eq, List.contains_iff_mem]
  constructor
  · rintro ⟨⟨_, s, _, v⟩, h, ⟨⟨rfl, rfl⟩, hs⟩, hv⟩
    exact ⟨s, hs, v, h, hv⟩
  · rintro ⟨s, hs, v, h, hv⟩
    exact ⟨_, h, ⟨⟨rfl, rfl⟩, hs⟩, hv⟩

/-- An assertion between individuals is opposed by one of the opposite
polarity between equal individuals. -/
theorem opposes_node_iff {polarity : Polarity} {s o : Individual}
    {p : Property} :
    f.opposes ⟨polarity, s, p, .node o⟩ ↔
      ∃ s' ∈ f.equals s, ∃ o' ∈ f.equals o,
        ⟨polarity.opposite, s', p, .node o'⟩ ∈ f.assertions := by
  simp only [opposes, anyAssertion_iff, isAmong, Option.any_eq_true,
    Rdf.Term.node?_eq_some_iff, List.contains_iff_mem]
  constructor
  · rintro ⟨s', hs, _, h, o', rfl, ho⟩
    exact ⟨s', hs, o', ho, h⟩
  · rintro ⟨s', hs, o', ho, h⟩
    exact ⟨s', hs, _, h, o', rfl, ho⟩

/-- An assertion of a literal is opposed by one of the opposite polarity with
an equal subject and the same value. -/
theorem opposes_literal_iff {polarity : Polarity} {s : Individual}
    {p : Property} {l : Rdf.Literal} :
    f.opposes ⟨polarity, s, p, .literal l⟩ ↔
      ∃ s' ∈ f.equals s, ∃ m, m.sameValue l ∧
        ⟨polarity.opposite, s', p, .literal m⟩ ∈ f.assertions := by
  simp only [opposes, anyAssertion_iff, hasValueOf, Option.any_eq_true,
    Rdf.Term.literal?_eq_some_iff]
  constructor
  · rintro ⟨s', hs, _, h, m, rfl, hm⟩
    exact ⟨s', hs, m, hm, h⟩
  · rintro ⟨s', hs, m, hm, h⟩
    exact ⟨s', hs, _, h, m, rfl, hm⟩

theorem mergeOpposes_iff {a b : Individual} :
    f.mergeOpposes a b ↔ ∃ stated ∈ f.assertions,
      stated.polarity = .positive ∧
        f.deniedAfter (f.equals a ++ f.equals b) stated := by
  simp [mergeOpposes]

/-- Members are equal to others when a conflict is found, and only then. -/
theorem equalMembers?_isSome {members : List Individual} :
    (f.equalMembers? members).isSome ↔
      ∃ a ∈ members, ∃ b ∈ members, b ≠ a ∧ b ∈ f.equals a := by
  simp only [equalMembers?, List.findSome?_isSome_iff]
  constructor
  · rintro ⟨a, ha, h⟩
    cases hf : members.filter (· ∈ f.others a) with
    | nil =>
      rw [hf] at h
      simp at h
    | cons b bs =>
      have hb : b ∈ members.filter (· ∈ f.others a) := hf ▸ .head _
      exact ⟨a, ha, b, by simpa using hb⟩
  · rintro ⟨a, ha, b, hb, hne, hab⟩
    refine ⟨a, ha, ?_⟩
    cases hf : members.filter (· ∈ f.others a) with
    | nil =>
      have := List.filter_eq_nil_iff.mp hf b hb
      simp [hne, hab] at this
    | cons b bs => rfl

end Facts

end Ontology
