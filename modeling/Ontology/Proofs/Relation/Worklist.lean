/-
Searches through a list of pending nodes.

* `reached`: the nodes that some seeds reach; `isLeast_reached`: they are the least
  set that holds the seeds and is closed under successors.
* `Search.Round`: any one of the pending nodes is taken off, and is dropped or
  expanded; `Search.Leads`: some rounds. The order in which nodes are taken is left
  open, and so is the moment at which a repeated one is noticed.
* `Search.Progress`: what holds in the course of a search, `Progress.round`;
  `Progress.seen_eq_reached`: what has been seen in the end.
* `ends_iff_finite`: **a search ends just if its seeds reach finitely many nodes**.
* `leads_reachable`: the nodes of `reachable` are those seen at the end of a search;
  `reachable_perm`: they depend on the members of seeds and successors alone.
-/
import Mathlib.Data.Set.Card
import Mathlib.Logic.Relation
import Ontology.Relation.Edges

namespace Ontology

open Relation

variable {α : Type} {next next' : α → List α} {seeds seeds' : List α} {a b : α}

/-! ### Reached nodes -/

/-- The nodes that some seeds reach. -/
def reached (next : α → List α) (seeds : List α) : Set α :=
  {b | ∃ a ∈ seeds, Reaches next a b}

lemma mem_reached_of_mem (ha : a ∈ seeds) : a ∈ reached next seeds := ⟨a, ha, .refl a⟩

lemma mem_reached_of_next (ha : a ∈ reached next seeds) (hb : b ∈ next a) :
    b ∈ reached next seeds := by
  obtain ⟨s, hs, hsa⟩ := ha
  exact ⟨s, hs, hsa.trans (.single hb)⟩

/-- A set holds the seeds and is closed under successors. -/
def ClosedOver (next : α → List α) (seeds : List α) (S : Set α) : Prop :=
  (∀ a ∈ seeds, a ∈ S) ∧ ∀ a ∈ S, ∀ b ∈ next a, b ∈ S

/-- What seeds reach is the least set that holds them and is closed under
successors. -/
lemma isLeast_reached (next : α → List α) (seeds : List α) :
    IsLeast {S | ClosedOver next seeds S} (reached next seeds) := by
  refine ⟨⟨fun a => mem_reached_of_mem, fun a ha b => mem_reached_of_next ha⟩, ?_⟩
  rintro S ⟨hseeds, hclosed⟩ b ⟨a, ha, hab⟩
  exact hab.mem_of_closed (s := (· ∈ S)) hclosed (hseeds a ha)

/-- Only the members of seeds and successors matter to what is reached. -/
lemma reached_congr (hseeds : ∀ a, a ∈ seeds' ↔ a ∈ seeds)
    (hnext : ∀ a b, b ∈ next' a ↔ b ∈ next a) :
    reached next' seeds' = reached next seeds := by
  refine (isLeast_reached next' seeds').unique ?_
  simp only [ClosedOver, hseeds, hnext]
  exact isLeast_reached next seeds

/-! ### Rounds of a search -/

/-- The state of a search: nodes that are pending, and nodes that have been seen. -/
structure Search (α : Type) where
  pending : List α
  seen : List α

namespace Search

variable {t u : Search α}

/-- One round: any one of the pending nodes is taken off. It is dropped if it has been
seen, or is pending once more; if it has not been seen, it can be expanded. -/
inductive Round (next : α → List α) : Search α → Search α → Prop
  | drop {pending rest seen : List α} {a : α} (htake : pending.Perm (a :: rest))
      (ha : a ∈ seen ∨ a ∈ rest) : Round next ⟨pending, seen⟩ ⟨rest, seen⟩
  | expand {pending rest seen : List α} {a : α} (htake : pending.Perm (a :: rest))
      (ha : a ∉ seen) : Round next ⟨pending, seen⟩ ⟨next a ++ rest, a :: seen⟩

/-- Some rounds lead from one state to another. -/
def Leads (next : α → List α) : Search α → Search α → Prop := ReflTransGen (Round next)

/-- Whatever rounds follow on a state, there is an end to them. -/
def Ends (next : α → List α) (t : Search α) : Prop := Acc (fun u t => Round next t u) t

/-- There is a further round just if nodes are pending. -/
lemma exists_round_iff : (∃ u, Round next t u) ↔ t.pending ≠ [] := by
  constructor
  · rintro ⟨u, hu⟩
    cases hu with
    | drop htake => exact List.ne_nil_of_mem (htake.mem_iff.mpr List.mem_cons_self)
    | expand htake => exact List.ne_nil_of_mem (htake.mem_iff.mpr List.mem_cons_self)
  · obtain ⟨pending, seen⟩ := t
    intro hne
    obtain ⟨a, rest, rfl⟩ := List.exists_cons_of_ne_nil hne
    by_cases ha : a ∈ seen
    · exact ⟨_, .drop (.refl _) (.inl ha)⟩
    · exact ⟨_, .expand (.refl _) ha⟩

/-! ### The course of a search -/

/-- What holds in the course of a search: no node is seen twice, what is seen or
pending is reached, and the seeds and the successors of what is seen are themselves
seen or pending. -/
structure Progress (next : α → List α) (seeds : List α) (t : Search α) : Prop where
  nodup : t.seen.Nodup
  sound : ∀ b, b ∈ t.seen ∨ b ∈ t.pending → b ∈ reached next seeds
  holds_seeds : ∀ a ∈ seeds, a ∈ t.seen ∨ a ∈ t.pending
  closed : ∀ a ∈ t.seen, ∀ b ∈ next a, b ∈ t.seen ∨ b ∈ t.pending

namespace Progress

lemma start (next : α → List α) (seeds : List α) : Progress next seeds ⟨seeds, []⟩ where
  nodup := .nil
  sound _ hb := mem_reached_of_mem (hb.resolve_left List.not_mem_nil)
  holds_seeds _ ha := .inr ha
  closed _ ha := absurd ha List.not_mem_nil

/-- One round keeps what holds in the course of a search. -/
lemma round (h : Progress next seeds t) (hround : Round next t u) :
    Progress next seeds u := by
  cases hround with
  | @drop pending rest seen a htake ha =>
    have hsplit : ∀ b, b ∈ seen ∨ b ∈ pending → b ∈ seen ∨ b ∈ rest := by
      rintro b (hb | hb)
      · exact .inl hb
      · rcases List.mem_cons.mp (htake.mem_iff.mp hb) with rfl | hb
        · exact ha
        · exact .inr hb
    exact {
      nodup := h.nodup
      sound b hb := h.sound b
        (hb.imp_right fun hb => htake.mem_iff.mpr (List.mem_cons_of_mem a hb))
      holds_seeds b hb := hsplit b (h.holds_seeds b hb)
      closed b hb c hc := hsplit c (h.closed b hb c hc) }
  | @expand pending rest seen a htake ha =>
    have hpending : a ∈ pending := htake.mem_iff.mpr List.mem_cons_self
    have hsplit : ∀ b, b ∈ seen ∨ b ∈ pending → b ∈ a :: seen ∨ b ∈ next a ++ rest := by
      rintro b (hb | hb)
      · exact .inl (List.mem_cons_of_mem a hb)
      · rcases List.mem_cons.mp (htake.mem_iff.mp hb) with rfl | hb
        · exact .inl List.mem_cons_self
        · exact .inr (List.mem_append_right _ hb)
    refine ⟨List.nodup_cons.mpr ⟨ha, h.nodup⟩, ?_,
      fun b hb => hsplit b (h.holds_seeds b hb), ?_⟩
    · rintro b (hb | hb)
      · rcases List.mem_cons.mp hb with rfl | hb
        · exact h.sound b (.inr hpending)
        · exact h.sound b (.inl hb)
      · rcases List.mem_append.mp hb with hb | hb
        · exact mem_reached_of_next (h.sound a (.inr hpending)) hb
        · exact h.sound b (.inr (htake.mem_iff.mpr (List.mem_cons_of_mem a hb)))
    · intro b hb c hc
      rcases List.mem_cons.mp hb with rfl | hb
      · exact .inr (List.mem_append_left _ hc)
      · exact hsplit c (h.closed b hb c hc)

/-- So do any number of rounds. -/
lemma leads (h : Progress next seeds t) (hleads : Leads next t u) :
    Progress next seeds u := by
  induction hleads with
  | refl => exact h
  | tail _ hround ih => exact ih.round hround

/-- When nothing is pending any more, what the seeds reach has been seen. -/
lemma seen_eq_reached (h : Progress next seeds t) (hend : t.pending = []) :
    {b | b ∈ t.seen} = reached next seeds := by
  have hseen : ∀ b, b ∈ t.seen ∨ b ∈ t.pending → b ∈ t.seen := by simp [hend]
  refine Set.Subset.antisymm (fun b hb => h.sound b (.inl hb)) ?_
  exact (isLeast_reached next seeds).2
    ⟨fun a ha => hseen a (h.holds_seeds a ha), fun a ha b hb => hseen b (h.closed a ha b hb)⟩

/-! ### The end of a search -/

/-- The reached nodes that are still to be seen. -/
def unseen (next : α → List α) (seeds : List α) (t : Search α) : Set α :=
  reached next seeds \ {b | b ∈ t.seen}

/-- If finitely many nodes are reached, every search ends: a round leaves fewer nodes
to be seen, or as many of them and fewer pending ones. -/
lemma ends (hfinite : (reached next seeds).Finite) (t : Search α)
    (h : Progress next seeds t) : Ends next t :=
  Acc.intro t fun u hround => ends hfinite u (h.round hround)
termination_by ((unseen next seeds t).ncard, t.pending.length)
decreasing_by
  cases hround with
  | @drop pending rest seen a htake _ =>
    refine Prod.Lex.right _ ?_
    simp [htake.length_eq]
  | @expand pending rest seen a htake ha =>
    refine Prod.Lex.left _ _ (Set.ncard_lt_ncard ?_ (hfinite.sdiff))
    have hreached := h.sound a (.inr (htake.mem_iff.mpr List.mem_cons_self))
    refine ⟨fun b hb => ⟨hb.1, fun hseen => hb.2 (List.mem_cons_of_mem a hseen)⟩, ?_⟩
    exact fun hsub => (hsub ⟨hreached, ha⟩).2 List.mem_cons_self

end Progress

/-- A search that ends comes to a state where nothing is pending. -/
lemma Ends.exists_leads (h : Ends next t) : ∃ u, Leads next t u ∧ u.pending = [] := by
  induction h with
  | intro t _ ih =>
    by_cases hend : t.pending = []
    · exact ⟨t, .refl, hend⟩
    · obtain ⟨u, hround⟩ := exists_round_iff.mpr hend
      obtain ⟨v, hleads, hv⟩ := ih u hround
      exact ⟨v, .head hround hleads, hv⟩

/-- **A search ends** just if its seeds reach finitely many nodes. -/
theorem ends_iff_finite : Ends next ⟨seeds, []⟩ ↔ (reached next seeds).Finite := by
  constructor
  · intro h
    obtain ⟨u, hleads, hend⟩ := h.exists_leads
    rw [← ((Progress.start next seeds).leads hleads).seen_eq_reached hend]
    exact List.finite_toSet u.seen
  · exact fun hfinite => (Progress.start next seeds).ends hfinite _

end Search

/-! ### The work list -/

/-- A list bounds the steps of a search: it names the reached nodes that have
successors. -/
def Bounds (nodes : List α) (next : α → List α) (seeds : List α) : Prop :=
  ∀ a ∈ reached next seeds, next a ≠ [] → a ∈ nodes

/-- Finitely many reached nodes can be named. -/
lemma exists_bounds (hfinite : (reached next seeds).Finite) :
    ∃ nodes, Bounds nodes next seeds :=
  ⟨hfinite.toFinset.toList, fun a ha _ => by simpa using ha⟩

variable [DecidableEq α] {nodes nodes' : List α}

/-- The sources of edges bound every search along them. -/
lemma Edges.bounds_sources (edges : Edges α) (seeds : List α) :
    Bounds (edges.map (·.1)) edges.targets seeds :=
  fun _ _ => Edges.mem_sources_of_targets

/-- Along edges finitely many nodes are reached. -/
lemma Edges.finite_reached (edges : Edges α) (seeds : List α) :
    (reached edges.targets seeds).Finite := by
  refine (List.finite_toSet (edges.reach seeds)).subset fun b hb => ?_
  exact Edges.mem_reach.mpr hb

/-- The work list takes the first of the pending nodes, and comes to an end if it has
steps enough. -/
lemma leads_explore {fuel : ℕ} {pending seen : List α}
    (hn : ∀ s ∈ pending, ∀ a, Reaches next s a → next a ≠ [] → a ∈ nodes)
    (hfuel : pending.length + degree next (nodes.filter (· ∉ seen)) ≤ fuel) :
    Search.Leads next ⟨pending, seen⟩ ⟨[], explore next fuel pending seen⟩ := by
  induction fuel generalizing pending seen with
  | zero =>
    obtain rfl : pending = [] := List.eq_nil_of_length_eq_zero (by omega)
    exact .refl
  | succ fuel ih =>
    match pending with
    | [] => exact .refl
    | a :: pending =>
      simp only [List.length_cons] at hfuel
      have hrest : ∀ s ∈ pending, ∀ b, Reaches next s b → next b ≠ [] → b ∈ nodes :=
        fun s hs => hn s (List.mem_cons_of_mem a hs)
      rw [explore]
      split
      · next ha =>
        exact .head (.drop (.refl _) (.inl ha)) (ih hrest (by omega))
      · next ha =>
        have hdegree := degree_unseen_le ha (hn a List.mem_cons_self a (.refl a))
        refine .head (.expand (.refl _) ha) (ih (fun s hs b hb => ?_) ?_)
        · rcases List.mem_append.mp hs with hs | hs
          · exact hn a List.mem_cons_self b (.step hs hb)
          · exact hrest s hs b hb
        · rw [List.length_append]
          omega

/-- The nodes of `reachable` have been seen at the end of a search. -/
theorem leads_reachable (hnodes : Bounds nodes next seeds) :
    Search.Leads next ⟨seeds, []⟩ ⟨[], reachable nodes next seeds⟩ :=
  leads_explore (fun s hs a ha => hnodes a ⟨s, hs, ha⟩) (by simp)

lemma mem_reachable (hnodes : Bounds nodes next seeds) :
    a ∈ reachable nodes next seeds ↔ a ∈ reached next seeds :=
  mem_reachable_iff fun s hs a ha => hnodes a ⟨s, hs, ha⟩

/-- Neither the order nor the repetition of seeds and successors matters to what is
reachable, nor do the names of further nodes. -/
theorem reachable_perm (hnodes : Bounds nodes next seeds)
    (hnodes' : Bounds nodes' next' seeds') (hseeds : ∀ a, a ∈ seeds' ↔ a ∈ seeds)
    (hnext : ∀ a b, b ∈ next' a ↔ b ∈ next a) :
    (reachable nodes' next' seeds').Perm (reachable nodes next seeds) := by
  refine (List.perm_ext_iff_of_nodup (nodup_reachable ..) (nodup_reachable ..)).mpr
    fun a => ?_
  rw [mem_reachable hnodes, mem_reachable hnodes', reached_congr hseeds hnext]

end Ontology
