/-
Remarks on known individuals leave no trace but themselves.

* `Facts.bare`: the facts without their remarks; `conflict?_bare`, `holds_bare`,
  `bare_add`: what is looked up, and what is recorded, apart from remarks.
* `Store.SameButRemarks`: stores that differ in remarks at most; they judge
  alike, and the same command leaves them so.
* `Store.outcomes`: what becomes of the statements of a run, remarks apart;
  `Store.Remarked`: a run with remarks on known individuals put in.
* `SameButRemarks.run`: the remarks change neither the outcomes of a run nor
  what it leads to.
-/
import Ontology.Proofs.Store.Acceptance

namespace Ontology

/-- Statements that are remarks. -/
def Statement.isRemark : Statement → Bool
  | note _ => true
  | _ => false

namespace Facts

variable {f g : Facts} {t : Statement} {is : List Individual} {n : Note}

/-! ### Facts without remarks -/

/-- The facts without their remarks. -/
def bare (f : Facts) : Facts := { f with notes := [] }

lemma equals_bare (f : Facts) (a : Individual) : f.bare.equals a = f.equals a := rfl

lemma different_bare (f : Facts) (a : Individual) :
    f.bare.different a = f.different a :=
  rfl

lemma related_bare (f : Facts) (ps : List Property) (a : Individual) :
    f.bare.related ps a = f.related ps a :=
  rfl

lemma conflict?_bare (f : Facts) (reserved : List ClassName) (t : Statement) :
    f.bare.conflict? reserved t = f.conflict? reserved t := by
  cases t <;> rfl

lemma holds_bare (ht : t.isRemark = false) : f.bare.holds t = f.holds t := by
  cases t with
  | note n => cases ht
  | _ => rfl

lemma bare_add (f : Facts) (t : Statement) : (f.add t).bare = (f.bare.add t).bare := by
  cases t <;> rfl

lemma bare_add_congr (h : f.bare = g.bare) (t : Statement) :
    (f.add t).bare = (g.add t).bare := by
  rw [bare_add, h, ← bare_add]

/-- To declare known individuals does nothing. -/
lemma declare_of_known (h : ∀ i ∈ is, i ∈ f.individuals) : f.declare is = f := by
  have hfold : is.foldl insertNew f.individuals = f.individuals := by
    induction is with
    | nil => rfl
    | cons i is ih =>
      obtain ⟨hi, his⟩ := List.forall_mem_cons.mp h
      rw [List.foldl_cons, insertNew, if_pos hi, ih his]
  rw [declare, hfold]

/-- A remark on a known individual adds nothing but itself. -/
lemma bare_add_note (hn : n.subject ∈ f.individuals) :
    (f.add (.note n)).bare = f.bare := by
  have hknown : ∀ i ∈ [n.subject], i ∈ (f.record (.note n)).individuals := by
    simpa [record] using hn
  rw [add, Statement.individuals, declare_of_known hknown]
  rfl

end Facts

namespace Store

variable {s s' : Store} {t : Statement} {n : Note} {cs ds : List Command}

/-! ### Stores that differ in remarks -/

/-- Stores of one configuration that differ in remarks at most, and in which
whoever is mentioned is known. -/
structure SameButRemarks (s s' : Store) : Prop where
  config : s.config = s'.config
  bare : s.facts.bare = s'.facts.bare
  left : s.facts.Declares
  right : s'.facts.Declares

/-- A remark makes its subject known, also when it was recorded before. -/
lemma bare_tell_note (hs : s.facts.Declares) (n : Note) :
    (s.tell (.note n)).facts.bare = (s.facts.add (.note n)).bare := by
  rcases judge_cases s (.note n) with ⟨_, h, _⟩ | ⟨_, hholds, h⟩ |
    ⟨_, _, _, _, h, _⟩ | ⟨_, _, _, h⟩
  · cases h
  · have hn : n.subject ∈ s.facts.individuals :=
      hs (.note n) hholds n.subject (List.mem_singleton_self _)
    rw [tell_eq_of_ne_applied (by simp [h]), Facts.bare_add_note hn]
  · cases h
  · rw [tell_eq_of_applied h]

namespace SameButRemarks

variable (h : s.SameButRemarks s')
include h

/-- The same becomes of everything but remarks. -/
lemma judge_eq (ht : t.isRemark = false) : s.judge t = s'.judge t := by
  have hholds : s.facts.holds t = s'.facts.holds t := by
    rw [← Facts.holds_bare ht, h.bare, Facts.holds_bare ht]
  have hconflict : s.facts.conflict? s'.config.reserved t =
      s'.facts.conflict? s'.config.reserved t := by
    rw [← Facts.conflict?_bare, h.bare, Facts.conflict?_bare]
  simp only [judge, hholds, h.config, hconflict]

lemma bare_tell (t : Statement) :
    (s.tell t).facts.bare = (s'.tell t).facts.bare := by
  cases ht : t.isRemark with
  | true =>
    cases t with
    | note n =>
      rw [bare_tell_note h.left, bare_tell_note h.right]
      exact Facts.bare_add_congr h.bare (.note n)
    | _ => cases ht
  | false =>
    have hjudge := h.judge_eq ht
    by_cases happlied : s.judge t = .applied
    · rw [tell_eq_of_applied happlied, tell_eq_of_applied (hjudge ▸ happlied)]
      exact Facts.bare_add_congr h.bare t
    · rw [tell_eq_of_ne_applied happlied, tell_eq_of_ne_applied (hjudge ▸ happlied)]
      exact h.bare

/-- The same command leaves the same facts but for remarks. -/
lemma step (k : Command) : (s.step k).SameButRemarks (s'.step k) := by
  cases k with
  | reset => exact ⟨h.config, rfl, Facts.declares_empty, Facts.declares_empty⟩
  | tell t =>
    refine ⟨?_, h.bare_tell t, declares_tell h.left t, declares_tell h.right t⟩
    rw [config_step, config_step, h.config]

/-- One of the stores can be told a remark on a known individual. -/
lemma tell_note (hn : n.subject ∈ s'.facts.individuals) :
    s.SameButRemarks (s'.tell (.note n)) where
  config := by rw [config_tell, h.config]
  bare := by rw [bare_tell_note h.right, Facts.bare_add_note hn, h.bare]
  left := h.left
  right := declares_tell h.right (.note n)

end SameButRemarks

/-! ### Runs with remarks -/

/-- What becomes of the statements of a run, one after the other, remarks
apart. -/
def outcomes (s : Store) : List Command → List Outcome
  | [] => []
  | .reset :: cs => s.reset.outcomes cs
  | .tell t :: cs =>
    if t.isRemark then (s.tell t).outcomes cs
    else s.judge t :: (s.tell t).outcomes cs

/-- The second run is the first with remarks put in at any places, each on an
individual that is known there. -/
inductive Remarked : Store → List Command → List Command → Prop
  | nil (s : Store) : Remarked s [] []
  | command {s : Store} (k : Command) {cs ds : List Command}
    (h : Remarked (s.step k) cs ds) : Remarked s (k :: cs) (k :: ds)
  | remark {s : Store} (n : Note) {cs ds : List Command}
    (hn : n.subject ∈ s.facts.individuals)
    (h : Remarked (s.tell (.note n)) cs ds) :
    Remarked s cs (.tell (.note n) :: ds)

/-- **Remarks leave no trace**: with remarks on known individuals put in, a run
has the same outcomes otherwise, and leads to the same facts but for remarks. -/
theorem SameButRemarks.run (h : s.SameButRemarks s') (hds : Remarked s' cs ds) :
    s.outcomes cs = s'.outcomes ds ∧ (s.run cs).SameButRemarks (s'.run ds) := by
  induction hds generalizing s with
  | nil => exact ⟨rfl, h⟩
  | command k _ ih =>
    obtain ⟨houtcomes, hrun⟩ := ih (h.step k)
    refine ⟨?_, hrun⟩
    cases k with
    | reset => exact houtcomes
    | tell t =>
      cases ht : t.isRemark with
      | true =>
        simp only [outcomes, ht, if_true]
        exact houtcomes
      | false =>
        simp only [outcomes, ht, Bool.false_eq_true, if_false, h.judge_eq ht]
        exact congrArg _ houtcomes
  | remark n hn _ ih => exact ih (h.tell_note hn)

end Store

end Ontology
