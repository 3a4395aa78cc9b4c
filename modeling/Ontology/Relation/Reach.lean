/-
Reachability through a function that lists the successors of a node.

* `Reaches`: the reflexive and transitive closure of a successor function.
* `reachable`: the nodes reachable from some seeds, each once. The work list
  runs out because every node is expanded once, so the nodes that have
  successors bound the number of steps.
* `mem_reachable_iff`, `nodup_reachable`: the list is exact and free of
  repetitions; neither the order nor the repetition of seeds and successors
  matters to it.
-/
namespace Ontology

variable {α : Type}

/-- A node reaches itself and what its successors reach. -/
inductive Reaches (next : α → List α) : α → α → Prop
  | refl (a : α) : Reaches next a a
  | step {a b c : α} : b ∈ next a → Reaches next b c → Reaches next a c

namespace Reaches

variable {next : α → List α} {a b c : α}

/-- A successor is reached. -/
theorem single (h : b ∈ next a) : Reaches next a b := .step h (.refl b)

/-- Paths can be joined. -/
theorem trans (hab : Reaches next a b) (hbc : Reaches next b c) :
    Reaches next a c := by
  induction hab with
  | refl => exact hbc
  | step h _ ih => exact .step h (ih hbc)

/-- What is reached in steps that another successor function reaches, it
reaches as well. -/
theorem of_steps {next' : α → List α}
    (hsteps : ∀ x, ∀ y ∈ next x, Reaches next' x y) (h : Reaches next a b) :
    Reaches next' a b := by
  induction h with
  | refl => exact .refl _
  | step hb _ ih => exact (hsteps _ _ hb).trans ih

/-- A successor function with more successors reaches more. -/
theorem mono {next' : α → List α} (hsub : ∀ x, next x ⊆ next' x)
    (h : Reaches next a b) : Reaches next' a b :=
  h.of_steps fun x _ hy => .single (hsub x hy)

/-- A set that holds a node and is closed under successors holds what the node
reaches. -/
theorem mem_of_closed {s : α → Prop} (hs : ∀ x, s x → ∀ y ∈ next x, s y)
    (ha : s a) (h : Reaches next a b) : s b := by
  induction h with
  | refl => exact ha
  | step hb _ ih => exact ih (hs _ ha _ hb)

end Reaches

/-! ### The work list -/

variable [DecidableEq α]

/-- Expands pending nodes that have not been seen, for a number of steps. -/
def explore (next : α → List α) : Nat → List α → List α → List α
  | 0, _, seen => seen
  | _ + 1, [], seen => seen
  | fuel + 1, a :: pending, seen =>
    if a ∈ seen then explore next fuel pending seen
    else explore next fuel (next a ++ pending) (a :: seen)

/-- The number of successors of a list of nodes. -/
def degree (next : α → List α) (nodes : List α) : Nat :=
  (nodes.flatMap next).length

/-- The nodes reachable from some seeds, where `nodes` has at least those of
them that have successors. -/
def reachable (nodes : List α) (next : α → List α) (seeds : List α) : List α :=
  explore next (seeds.length + degree next nodes) seeds []

/-! ### Exactness -/

variable {next : α → List α}

/-- Seeing a node removes its successors from the work to come. -/
theorem degree_unseen_le {nodes seen : List α} {a : α} (ha : a ∉ seen)
    (hn : next a ≠ [] → a ∈ nodes) :
    (next a).length + degree next (nodes.filter (· ∉ a :: seen)) ≤
      degree next (nodes.filter (· ∉ seen)) := by
  have main : ∀ nodes : List α,
      degree next (nodes.filter (· ∉ a :: seen)) ≤
        degree next (nodes.filter (· ∉ seen)) ∧
      (a ∈ nodes →
        (next a).length + degree next (nodes.filter (· ∉ a :: seen)) ≤
          degree next (nodes.filter (· ∉ seen))) := by
    intro nodes
    induction nodes with
    | nil => simp [degree]
    | cons b bs ih =>
      by_cases hb : b = a
      · subst hb
        simp_all [degree]
        omega
      · have hab : a ∈ b :: bs ↔ a ∈ bs := by simp [Ne.symm hb]
        rw [hab]
        by_cases hs : b ∈ seen
        · simpa [degree, hb, hs] using ih
        · simp only [degree, List.filter_cons, List.mem_cons, hb, hs,
            false_or, not_false_iff, decide_true, if_true, List.flatMap_cons,
            List.length_append] at ih ⊢
          exact ⟨by omega, fun h => by have := ih.2 h; omega⟩
  by_cases h : next a = []
  · simpa [h] using (main nodes).1
  · exact (main nodes).2 (hn h)

/-- What the work list yields, given that successors of seen nodes are seen or
pending and that the steps suffice. -/
theorem mem_explore_iff {nodes : List α} {fuel : Nat}
    {pending seen : List α}
    (hn : ∀ s ∈ pending, ∀ a, Reaches next s a → next a ≠ [] → a ∈ nodes)
    (hfuel : pending.length + degree next (nodes.filter (· ∉ seen)) ≤ fuel)
    (hinv : ∀ a ∈ seen, ∀ b ∈ next a, b ∈ seen ∨ b ∈ pending) (c : α) :
    c ∈ explore next fuel pending seen ↔
      c ∈ seen ∨ ∃ a ∈ pending, Reaches next a c := by
  induction fuel generalizing pending seen with
  | zero =>
    have : pending = [] := List.eq_nil_of_length_eq_zero (by omega)
    simp [explore, this]
  | succ fuel ih =>
    match pending with
    | [] => simp [explore]
    | a :: pending =>
      simp only [List.length_cons] at hfuel
      by_cases ha : a ∈ seen
      · have hn' : ∀ s ∈ pending, ∀ a, Reaches next s a → next a ≠ [] →
            a ∈ nodes := fun s hs => hn s (.tail _ hs)
        rw [explore, if_pos ha, ih hn' (by omega) (by grind)]
        constructor
        · rintro (h | ⟨b, hb, h⟩)
          · exact .inl h
          · exact .inr ⟨b, .tail _ hb, h⟩
        · rintro (h | ⟨b, hb, h⟩)
          · exact .inl h
          · rcases List.mem_cons.mp hb with rfl | hb
            · have hclosed := h.mem_of_closed
                (s := fun x => x ∈ seen ∨ ∃ b ∈ pending, Reaches next b x)
                (fun x hx y hy => by
                  rcases hx with hx | ⟨b, hb, hx⟩
                  · rcases hinv x hx y hy with h' | h'
                    · exact .inl h'
                    · rcases List.mem_cons.mp h' with rfl | h'
                      · exact .inl ha
                      · exact .inr ⟨y, h', .refl y⟩
                  · exact .inr ⟨b, hb, hx.trans (.single hy)⟩)
                (.inl ha)
              exact hclosed
            · exact .inr ⟨b, hb, h⟩
      · have hdeg := degree_unseen_le ha (hn a (.head _) a (.refl a))
        have hn' : ∀ s ∈ next a ++ pending, ∀ b, Reaches next s b →
            next b ≠ [] → b ∈ nodes := by
          intro s hs b hb
          rcases List.mem_append.mp hs with hs | hs
          · exact hn a (.head _) b (.step hs hb)
          · exact hn s (.tail _ hs) b hb
        rw [explore, if_neg ha,
          ih hn' (by rw [List.length_append]; omega) (by grind)]
        constructor
        · rintro (h | ⟨b, hb, h⟩)
          · rcases List.mem_cons.mp h with rfl | h
            · exact .inr ⟨c, .head _, .refl c⟩
            · exact .inl h
          · rcases List.mem_append.mp hb with hb | hb
            · exact .inr ⟨a, .head _, .step hb h⟩
            · exact .inr ⟨b, .tail _ hb, h⟩
        · rintro (h | ⟨b, hb, h⟩)
          · exact .inl (.tail _ h)
          · rcases List.mem_cons.mp hb with rfl | hb
            · cases h with
              | refl => exact .inl (.head _)
              | step hb' h => exact .inr ⟨_, List.mem_append_left _ hb', h⟩
            · exact .inr ⟨b, List.mem_append_right _ hb, h⟩

/-- The reachable nodes are those that a seed reaches, if the bound names those
among them that have successors. -/
theorem mem_reachable_iff {nodes seeds : List α}
    (hn : ∀ s ∈ seeds, ∀ a, Reaches next s a → next a ≠ [] → a ∈ nodes)
    {c : α} :
    c ∈ reachable nodes next seeds ↔ ∃ a ∈ seeds, Reaches next a c := by
  have hall : nodes.filter (· ∉ ([] : List α)) = nodes := by simp
  have hfuel : degree next (nodes.filter (· ∉ ([] : List α))) ≤
      degree next nodes := Nat.le_of_eq (congrArg (degree next) hall)
  rw [reachable, mem_explore_iff hn (Nat.add_le_add_left hfuel _) (by simp)]
  simp

/-- No node is seen twice. -/
theorem nodup_explore {fuel : Nat} {pending seen : List α} (h : seen.Nodup) :
    (explore next fuel pending seen).Nodup := by
  induction fuel generalizing pending seen with
  | zero => exact h
  | succ fuel ih =>
    match pending with
    | [] => exact h
    | a :: pending =>
      rw [explore]
      split
      · exact ih h
      · next ha => exact ih (List.nodup_cons.mpr ⟨ha, h⟩)

/-- No node is listed twice. -/
theorem nodup_reachable (nodes seeds : List α) :
    (reachable nodes next seeds).Nodup :=
  nodup_explore .nil

end Ontology
