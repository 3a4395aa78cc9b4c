/-
Restrictions: classes defined by the values of a property.

* `CountBounds`: how often values may occur, in words of 32 bits;
  `CountBounds.accepts`, `CountBounds.trivial` and `accepts_of_trivial`.
* `Count`: how many values are allowed; `Count.toBounds`.
* `Constraint`: what a restriction demands of the values.
* `Role`: a property, read forwards or backwards.
* `Restriction`: a role and a constraint whose bounds are in order;
  `Restriction.of` refuses all others, `of_eq_ok_iff`.
-/
import Ontology.Names

namespace Ontology

/-! ### Bounds -/

/-- How often values may occur: a lower and an upper bound, if they are
set. -/
structure CountBounds where
  min? : Option UInt32 := none
  max? : Option UInt32 := none
  deriving DecidableEq

namespace CountBounds

/-- Bounds that every number satisfies: a lower bound of zero alone. -/
def trivial (b : CountBounds) : Bool := b.min? == some 0 && b.max?.isNone

/-- A number lies within the bounds. -/
def accepts (b : CountBounds) (n : UInt32) : Bool :=
  b.min?.all (· ≤ n) && b.max?.all (n ≤ ·)

/-- Trivial bounds accept every number. -/
theorem accepts_of_trivial {b : CountBounds} (h : b.trivial) (n : UInt32) :
    b.accepts n := by
  obtain ⟨min, max⟩ := b
  simp_all [trivial, accepts]

end CountBounds

/-! ### Counts -/

/-- The number of values that a restriction allows. -/
inductive Count where
  | exactly (n : UInt32)
  | atLeast (min : UInt32)
  | atMost (max : UInt32)
  | between (min max : UInt32)
  deriving DecidableEq

namespace Count

/-- The lower bound, if one is set. -/
def min? : Count → Option UInt32
  | exactly n => some n
  | atLeast min => some min
  | atMost _ => none
  | between min _ => some min

/-- The upper bound, if one is set. -/
def max? : Count → Option UInt32
  | exactly n => some n
  | atLeast _ => none
  | atMost max => some max
  | between _ max => some max

/-- The bounds of a count. -/
def toBounds (c : Count) : CountBounds := ⟨c.min?, c.max?⟩

/-- A count that every number satisfies. -/
def trivial (c : Count) : Bool := c.toBounds.trivial

/-- The number of the values of a list as a word; the greatest word stands
for all numbers beyond. -/
def ofLength {α : Type} (values : List α) : UInt32 :=
  if values.length < UInt32.size then .ofNat values.length else 4294967295

end Count

/-! ### Constraints -/

/-- What a restriction demands of the values of its role. -/
inductive Constraint where
  /-- A number of values, of those in a class if one is given. -/
  | count (count : Count) (onClass : Option ClassName)
  /-- A value, and no value outside a class. -/
  | allValuesFrom (filler : ClassName)
  /-- A value in a class. -/
  | someValuesFrom (filler : ClassName)
  /-- A given value. -/
  | hasValue (value : Rdf.Term)
  /-- The individual itself among its values, or else some value and not the
  individual itself. -/
  | hasSelf (self : Bool)
  deriving DecidableEq

namespace Constraint

/-- The count of a constraint on the number of values. -/
def count? : Constraint → Option Count
  | count c _ => some c
  | _ => none

/-- The class that counted values have to belong to. -/
def onClass? : Constraint → Option ClassName
  | count _ c => c
  | _ => none

/-- No lower bound exceeds an upper one. -/
def Ordered (c : Constraint) : Prop :=
  ∀ min ∈ c.count?.bind Count.min?, ∀ max ∈ c.count?.bind Count.max?,
    min ≤ max

end Constraint

/-! ### Restrictions -/

/-- A property read forwards, or backwards. -/
inductive Role where
  | direct (property : Property)
  | inverse (property : Property)
  deriving DecidableEq

namespace Role

/-- The property of a role. -/
def property : Role → Property
  | direct p => p
  | inverse p => p

/-- The property is read backwards. -/
def isInverse : Role → Bool
  | direct _ => false
  | inverse _ => true

end Role

/-- A class of the individuals whose values of a role satisfy a constraint. -/
@[ext] structure Restriction where
  role : Role
  constraint : Constraint
  ordered : constraint.Ordered
  deriving DecidableEq

/-- A lower bound exceeds an upper one. -/
structure BoundsError where
  min : UInt32
  max : UInt32
  deriving DecidableEq

/-- The message of the error. -/
def BoundsError.message (e : BoundsError) : String :=
  "Invalid cardinality bounds: min " ++ toString e.min ++
    " is greater than max " ++ toString e.max

namespace Restriction

/-- The restriction of a role by a constraint, if the bounds are in order. -/
def of (role : Role) (constraint : Constraint) :
    Except BoundsError Restriction :=
  match hmin : constraint.count?.bind Count.min?,
      hmax : constraint.count?.bind Count.max? with
  | some min, some max =>
    if h : min ≤ max then
      .ok ⟨role, constraint, by simp [Constraint.Ordered, hmin, hmax, h]⟩
    else .error ⟨min, max⟩
  | none, _ => .ok ⟨role, constraint, by simp [Constraint.Ordered, hmin]⟩
  | some _, none => .ok ⟨role, constraint, by simp [Constraint.Ordered, hmax]⟩

/-- A restriction is built of its parts. -/
theorem of_eq_ok_iff {role : Role} {constraint : Constraint}
    {r : Restriction} :
    of role constraint = .ok r ↔ r.role = role ∧ r.constraint = constraint := by
  obtain ⟨role', constraint', h⟩ := r
  unfold of
  split
  · next hmin hmax =>
    split
    · simp only [Except.ok.injEq, Restriction.ext_iff]
      exact and_congr eq_comm eq_comm
    · next hlt =>
      simp only [reduceCtorEq, false_iff, not_and]
      rintro - rfl
      exact hlt (h _ (by simp [hmin]) _ (by simp [hmax]))
  all_goals
    simp only [Except.ok.injEq, Restriction.ext_iff]
    exact and_congr eq_comm eq_comm

end Restriction

end Ontology
