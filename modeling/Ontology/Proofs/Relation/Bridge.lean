/-
More pairs in a relation.

* `reaches_mono`: more pairs lead further; `mem_others_congr`: pairs of a node with
  itself do not; `reaches_both_mono`: read in both directions, more pairs connect more.
* `reaches_both_concat`: a new pair connects two nodes exactly when they were
  connected before, or when it bridges what each of them was connected to.
-/
import Mathlib.Tactic.Lemma
import Mathlib.Tactic.Tauto
import Ontology.Relation.Edges

namespace Ontology.Edges

variable {α : Type} [DecidableEq α] {edges edges' : Edges α} {a b x y : α}

/-- More pairs lead further. -/
lemma reaches_mono (hsub : edges ⊆ edges') (h : Reaches edges.targets x y) :
    Reaches edges'.targets x y := by
  refine h.mono fun c d hd => ?_
  rw [mem_targets] at hd ⊢
  exact hsub hd

/-- Pairs of a node with itself lead nowhere else. -/
lemma others_subset (hsub : ∀ x y, x ≠ y → (x, y) ∈ edges → (x, y) ∈ edges') (a : α) :
    edges.others a ⊆ edges'.others a := by
  intro b hb
  rw [mem_others_iff_reaches] at hb ⊢
  refine hb.imp_right (Reaches.of_steps fun x y hy => ?_)
  by_cases hne : x = y
  · exact hne ▸ .refl x
  · refine .single ?_
    rw [mem_targets] at hy ⊢
    exact hsub x y hne hy

/-- The same pairs of two nodes each lead to the same others. -/
lemma mem_others_congr (h : ∀ x y, x ≠ y → ((x, y) ∈ edges ↔ (x, y) ∈ edges')) :
    b ∈ edges.others a ↔ b ∈ edges'.others a :=
  ⟨(others_subset (fun x y hne => (h x y hne).mp) a ·),
    (others_subset (fun x y hne => (h x y hne).mpr) a ·)⟩

/-- More pairs, in either direction, connect more. -/
lemma reaches_both_mono
    (hsub : ∀ a b, (a, b) ∈ edges.both → (a, b) ∈ edges'.both)
    (h : Reaches edges.both.targets x y) : Reaches edges'.both.targets x y :=
  reaches_mono (fun (a, b) hab => hsub a b hab) h

/-- The pairs of a relation remain when one is added. -/
lemma reaches_both_concat_of_reaches (h : Reaches edges.both.targets x y) :
    Reaches (Edges.both (edges ++ [(a, b)])).targets x y := by
  refine reaches_both_mono (fun c d hcd => ?_) h
  rw [mem_both] at hcd ⊢
  exact hcd.imp (List.mem_append_left _) (List.mem_append_left _)

/-- The new pair connects its two nodes. -/
lemma reaches_both_concat_self (edges : Edges α) (a b : α) :
    Reaches (Edges.both (edges ++ [(a, b)])).targets a b := by
  refine .single ?_
  rw [mem_targets, mem_both]
  exact .inl (List.mem_append_right _ (List.mem_singleton_self _))

/-- **Bridges**: after a pair is added, two nodes are connected if they were
connected before, or if each of them was connected to one side of the pair. -/
theorem reaches_both_concat :
    Reaches (Edges.both (edges ++ [(a, b)])).targets x y ↔
      Reaches edges.both.targets x y ∨
        (Reaches edges.both.targets x a ∧ Reaches edges.both.targets b y) ∨
        (Reaches edges.both.targets x b ∧ Reaches edges.both.targets a y) := by
  constructor
  · intro h
    induction h with
    | refl x => exact .inl (.refl x)
    | @step x c y hc _ ih =>
      -- the first pair of the path is an old one, or the new one read either way
      have hc' : c ∈ edges.both.targets x ∨ (x = a ∧ c = b) ∨ x = b ∧ c = a := by
        rw [mem_targets, mem_both] at hc ⊢
        simp only [List.mem_append, List.mem_singleton, Prod.mk.injEq] at hc
        tauto
      rcases hc' with hold | ⟨rfl, rfl⟩ | ⟨rfl, rfl⟩
      · rcases ih with hy | ⟨ha, hy⟩ | ⟨hb, hy⟩
        · exact .inl (.step hold hy)
        · exact .inr (.inl ⟨.step hold ha, hy⟩)
        · exact .inr (.inr ⟨.step hold hb, hy⟩)
      · rcases ih with hy | ⟨_, hy⟩ | ⟨_, hy⟩
        · exact .inr (.inl ⟨.refl _, hy⟩)
        · exact .inr (.inl ⟨.refl _, hy⟩)
        · exact .inl hy
      · rcases ih with hy | ⟨_, hy⟩ | ⟨_, hy⟩
        · exact .inr (.inr ⟨.refl _, hy⟩)
        · exact .inl hy
        · exact .inr (.inr ⟨.refl _, hy⟩)
  · rintro (h | ⟨hxa, hby⟩ | ⟨hxb, hay⟩)
    · exact reaches_both_concat_of_reaches h
    · have hab := reaches_both_concat_self edges a b
      exact (reaches_both_concat_of_reaches hxa).trans
        (hab.trans (reaches_both_concat_of_reaches hby))
    · have hba := reaches_both_symm (reaches_both_concat_self edges a b)
      exact (reaches_both_concat_of_reaches hxb).trans
        (hba.trans (reaches_both_concat_of_reaches hay))

end Ontology.Edges
