/-
The meaning of a class expression, given the members of the classes in it.

* `Filler`: the values that a restriction asks for; `Filler.holds`.
* `Count.counted`: the bounds within which values are counted, which are those of
  the count: `counted_eq_toBounds`.
* `Reasoner.satisfies`: an individual with some values satisfies a constraint.
* `Reasoner.named`: the members of a class known by its name.
* `Reasoner.interpret`: the members of an expression. The members of classes
  come from a computation of any kind, run in order and only where they
  matter: an intersection stops when it is empty, and bounds that every count
  satisfies ask for nothing.
-/
import Ontology.Membership.Links
import Ontology.Value.Literal

namespace Ontology

/-! ### Restrictions -/

/-- The values that a restriction asks for. -/
inductive Filler where
  | all
  /-- The members of a class. If the class has an IRI, the literals of the
  datatype with that IRI belong to it too. -/
  | ofClass (name : ClassName) (members : List Individual)

/-- A value is one of those asked for. -/
def Filler.holds : Filler → Rdf.Term → Bool
  | all, _ => true
  | ofClass _ members, .node i => members.contains i
  | ofClass name _, .literal l => name.iri?.any l.hasDatatype

/-- The bounds within which the values of a restriction are counted. -/
def Count.counted : Count → CountBounds
  | exactly n => ⟨some n, some n⟩
  | atLeast min => { min? := some min }
  | atMost max => { max? := some max }
  | between min max => ⟨some min, some max⟩

/-- Values are counted within the bounds that a restriction declares. -/
@[simp] theorem Count.counted_eq_toBounds (c : Count) : c.counted = c.toBounds := by
  cases c <;> rfl

namespace Constraint

/-- The class whose members a constraint asks for. -/
def filler? : Constraint → Option ClassName
  | count _ c => c
  | allValuesFrom c => some c
  | someValuesFrom c => some c
  | hasValue _ => none
  | hasSelf _ => none

/-- Every individual satisfies the constraint, whatever its values. -/
def trivial (c : Constraint) : Bool := c.count?.any Count.trivial

/-- No values have to be counted. -/
def uncounted (c : Constraint) : Bool := c.count?.any (·.counted.trivial)

@[simp] theorem uncounted_eq_trivial (c : Constraint) :
    c.uncounted = c.trivial := by
  unfold uncounted trivial
  cases c.count? <;> simp [Count.trivial]

end Constraint

namespace Reasoner

variable (r : Reasoner)

/-- A value is the one that a restriction names, or an equal one. -/
def sameValue (target v : Rdf.Term) : Bool :=
  match target, v with
  | .node i, .node j => r.facts.isSame i j
  | .literal l, .literal m => m.sameValue l
  | _, _ => false

/-- An individual with some values satisfies a constraint. -/
def satisfies (filler : Filler) (i : Individual) (values : List Rdf.Term) :
    Constraint → Bool
  | .count c _ => c.counted.accepts (Count.ofLength (values.filter filler.holds))
  | .allValuesFrom _ => !values.isEmpty && values.all filler.holds
  | .someValuesFrom _ => values.any filler.holds
  | .hasValue v => values.any (r.sameValue v)
  | .hasSelf self => !values.isEmpty && values.contains (.node i) == self

/-- The individuals that may satisfy a constraint: for a count all known ones,
since an individual may have no values, and otherwise those with values. -/
def candidates (links : Links) (c : Constraint) : List Individual :=
  if c.count?.isSome then r.facts.individuals else links.subjects

/-- The members of a restriction with a filler. -/
def restricted (x : Restriction) (filler : Filler) : List Individual :=
  let links := r.roleLinks x.role
  (r.candidates links x.constraint).filter fun i =>
    r.satisfies filler i (links.valuesOf i) x.constraint

/-! ### Names -/

/-- The members of a class known by its name: all individuals for the class of
everything, and otherwise the individuals declared to belong to the class, to
a narrower or to an equivalent one, under all their names. -/
def named (c : ClassName) : List Individual :=
  if c = .iri Owl.thing then r.facts.individuals
  else
    let classes :=
      c :: (r.catalog.classes.below c ++ r.catalog.classes.equivalents c)
    let typed := r.facts.types.filter fun t => t.2 ∈ classes
    ((typed.map (·.1)).eraseDups.flatMap r.facts.equals).eraseDups

/-! ### Expressions -/

section

variable {m : Type → Type} [Monad m]
  (members : ClassName → m (List Individual))

/-- The members of a class that also belong to all of some others. -/
def meet (current : List Individual) : List ClassName → m (List Individual)
  | [] => return current
  | c :: cs =>
    if current.isEmpty then return []
    else do
      let other ← members c
      meet (current.filter other.contains) cs

/-- The members of a restriction. -/
def interpretRestriction (x : Restriction) : m (List Individual) :=
  if x.constraint.uncounted then return r.facts.individuals
  else
    match x.constraint.filler? with
    | none => return r.restricted x .all
    | some c => return r.restricted x (.ofClass c (← members c))

/-- The members of a class expression. -/
def interpret : ClassExpression → m (List Individual)
  | .named c => return r.named c
  | .restriction x => r.interpretRestriction members x
  | .union cs => return (← cs.mapM members).flatten.eraseDups
  | .intersection [] => return []
  | .intersection (c :: cs) => do meet members (← members c) cs
  | .complement c => do
    let excluded ← members c
    return r.facts.individuals.filter fun i => !excluded.contains i
  | .oneOf is => return is.eraseDups

end

/-! ### Membership -/

/-- A name has the members declared under any class that it covers, under all
their names. -/
theorem mem_named {r : Reasoner} {c : ClassName} (hc : c ≠ .iri Owl.thing)
    {i : Individual} :
    i ∈ r.named c ↔
      ∃ j d, (j, d) ∈ r.facts.types ∧ i ∈ r.facts.equals j ∧
        (d = c ∨ d ∈ r.catalog.classes.below c ∨
          d ∈ r.catalog.classes.equivalents c) := by
  simp only [named, hc, if_false, List.mem_eraseDups, List.mem_flatMap,
    List.mem_map, List.mem_filter, decide_eq_true_eq, List.mem_cons,
    List.mem_append]
  constructor
  · rintro ⟨j, ⟨⟨j', d⟩, ⟨h, hd⟩, rfl⟩, hi⟩
    exact ⟨_, d, h, hi, hd⟩
  · rintro ⟨j, d, h, hi, hd⟩
    exact ⟨j, ⟨_, ⟨h, hd⟩, rfl⟩, hi⟩

end Reasoner

end Ontology
