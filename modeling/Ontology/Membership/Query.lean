/-
Queries for the members of classes.

* `MembershipError`: why a query has no answer.
* `Progress`, `Query`: the answers found so far and the classes under way,
  threaded through a computation that may fail.
* `Reasoner.evaluate`: the members of a class. A known answer comes first, the
  limit of depth second, and a class under way third.
* `Reasoner.members`, `Reasoner.isMember`, `Reasoner.profile`: whole queries.
-/
import Ontology.Membership.Meaning
import Ontology.Store.Profile

namespace Ontology

/-- Why a query has no answer. -/
inductive MembershipError where
  /-- The description of a class cannot be read. -/
  | catalog (error : CatalogError)
  /-- A class is needed to find its own members. -/
  | cyclic (name : ClassName)
  /-- Expressions are nested deeper than the limit. -/
  | tooDeep (limit : Nat)
  deriving DecidableEq

/-- The message of an error. -/
def MembershipError.message : MembershipError → String
  | catalog e => e.message
  | cyclic c => "Class " ++ c.written ++ " is defined in terms of itself"
  | tooDeep limit =>
    "Maximum class expression depth (" ++ toString limit ++ ") exceeded"

/-- What a query has found out. -/
structure Progress where
  /-- The members of the classes that have been evaluated. -/
  known : List (ClassName × List Individual) := []
  /-- The classes whose evaluation has begun and not ended. -/
  underway : List ClassName := []

namespace Progress

/-- The members of a class that has been evaluated. -/
def members? (p : Progress) (c : ClassName) : Option (List Individual) :=
  p.known.lookup c

/-- The evaluation of a class begins. -/
def start (p : Progress) (c : ClassName) : Progress :=
  { p with underway := c :: p.underway }

/-- The evaluation of a class ends. -/
def finish (p : Progress) (c : ClassName) (members : List Individual) :
    Progress :=
  { known := (c, members) :: p.known, underway := p.underway.erase c }

@[simp] theorem members?_finish (p : Progress) (c : ClassName)
    (members : List Individual) :
    (p.finish c members).members? c = some members := by
  simp [members?, finish]

@[simp] theorem underway_finish_start (p q : Progress) (c : ClassName)
    (members : List Individual) (h : q.underway = (p.start c).underway) :
    (q.finish c members).underway = p.underway := by
  simp [finish, h, start]

end Progress

/-- A computation that finds out members of classes and may fail. -/
abbrev Query := StateT Progress (Except MembershipError)

namespace Reasoner

/-- The structure of a class, as part of a query. -/
def describe (r : Reasoner) (c : ClassName) : Query ClassExpression :=
  match r.catalog.classify c with
  | .ok e => return e
  | .error e => throw (.catalog e)

/-- The members of a class, with a number of nested expressions left. -/
def evaluate (r : Reasoner) : Nat → ClassName → Query (List Individual)
  | remaining, c => do
    match (← get).members? c with
    | some members => return members
    | none =>
      match remaining with
      | 0 => throw (.tooDeep r.maxDepth)
      | remaining + 1 =>
        if c ∈ (← get).underway then throw (.cyclic c)
        modify (·.start c)
        let e ← r.describe c
        let members ← r.interpret (evaluate r remaining) e
        modify (·.finish c members)
        return members

/-- The members of a class, at the outermost level of a query. -/
def membersQuery (r : Reasoner) (c : ClassName) : Query (List Individual) :=
  r.evaluate (r.maxDepth + 1) c

/-- The result of a query of its own. -/
def answer {α : Type} (q : Query α) : Except MembershipError α := q.run' {}

/-- The members of a class. -/
def members (r : Reasoner) (c : ClassName) :
    Except MembershipError (List Individual) :=
  answer (r.membersQuery c)

/-- An individual is a member of a class. -/
def isMember (r : Reasoner) (i : Individual) (c : ClassName) :
    Except MembershipError Bool := do
  return (← r.members c).contains i

/-- Those of some classes that an individual is a member of, found in one
query. -/
def memberOf (r : Reasoner) (i : Individual) (cs : List ClassName) :
    Except MembershipError (List ClassName) :=
  answer (cs.filterM fun c => return (← r.membersQuery c).contains i)

/-- The profile of an individual, with those of some classes that it is a
member of. -/
def profile (r : Reasoner) (i : Individual) (cs : List ClassName) :
    Except MembershipError Profile := do
  return { r.facts.profile i with memberOf := ← r.memberOf i cs }

end Reasoner

end Ontology
