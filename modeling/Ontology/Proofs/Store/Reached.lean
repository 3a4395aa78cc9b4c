/-
The facts that stores come to hold.

* `Facts.Reached`: the facts after some run of some store.
* `Reached.declares`: individuals are known where they are mentioned.
* `Facts.exists_reached`: for statements that make sense there are facts of a
  store in which just what they tell holds; `exists_reached_apart` for
  statements that make no two individuals the same.
-/
import Ontology.Proofs.Store.Acceptance

namespace Ontology.Facts

variable {f : Facts} {ts : List Statement} {a b : Individual}

/-- The facts after a run of a store. -/
def Reached (f : Facts) : Prop :=
  ∃ config cs, (Store.run { config } cs).facts = f

/-- Whoever is mentioned in the facts of a store is known there. -/
lemma Reached.declares (hf : f.Reached) : f.Declares := by
  obtain ⟨config, cs, rfl⟩ := hf
  exact Store.run_induction declares_empty (fun f t hf _ => hf.add t) cs

/-- Whoever equals a known individual is known. -/
lemma Declares.mem_individuals_of_isSame (hf : f.Declares) (h : f.isSame a b)
    (ha : a ∈ f.individuals) : b ∈ f.individuals := by
  rw [isSame_iff, mem_equals] at h
  refine h.mem_of_closed (s := (· ∈ f.individuals)) (fun x _ y hy => ?_) ha
  rw [Edges.mem_targets, Edges.mem_both, ← holds_sameAs_iff] at hy
  exact hf _ hy y (by simp [Statement.individuals])

/-- A store without protection comes to hold what any statements tell. -/
lemma exists_reached (hts : ∀ t ∈ ts, t.fault? = none) :
    ∃ f : Facts, f.Reached ∧ ∀ u, f.holds u ↔ ∃ t ∈ ts, t.Tells u := by
  let config : Config := { protection := false }
  have haccepts : ({ config } : Store).Accepts ts :=
    Store.accepts_iff.mpr ⟨hts, by simp [config]⟩
  refine ⟨(({ config } : Store).tellAll ts).facts, ⟨config, _, rfl⟩, fun u => ?_⟩
  rw [Store.holds_tellAll_iff declares_empty haccepts, or_iff_right not_holds_empty]

/-- Individuals are equal to themselves alone where no pair is declared. -/
lemma isSame_iff_eq (hf : ∀ a b, ¬ f.holds (.sameAs a b)) :
    f.isSame a b ↔ a = b := by
  rw [isSame_iff, mem_equals]
  constructor
  · intro h
    cases h with
    | refl => rfl
    | @step _ c _ hc _ =>
      rw [Edges.mem_targets, Edges.mem_both, ← holds_sameAs_iff] at hc
      exact absurd hc (hf a c)
  · rintro rfl
    exact .refl a

/-- Where no statement makes two individuals the same, a store comes to hold
what the statements tell, and keeps all individuals apart. -/
lemma exists_reached_apart (hts : ∀ t ∈ ts, t.fault? = none)
    (hapart : ∀ a b, .sameAs a b ∉ ts) :
    ∃ f : Facts, f.Reached ∧ (∀ u, f.holds u ↔ ∃ t ∈ ts, t.Tells u) ∧
      ∀ a b, f.isSame a b ↔ a = b := by
  obtain ⟨f, hf, hholds⟩ := exists_reached hts
  refine ⟨f, hf, hholds, fun a b => isSame_iff_eq fun c d hcd => ?_⟩
  obtain ⟨t, ht, halike | ⟨i, _, h⟩⟩ := (hholds _).mp hcd
  · cases t with
    | sameAs c' d' => exact hapart c' d' ht
    | _ => simp [Statement.Alike] at halike
  · exact absurd h (by simp)

end Ontology.Facts
