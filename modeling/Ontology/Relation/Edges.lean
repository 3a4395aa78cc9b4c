/-
Relations given by lists of edges.

* `Edges`: pairs of a source and a target; `targets`, `flip`, `both`: one
  step forwards, the same edges backwards, and both directions together.
* `Edges.reach`: what some seeds reach; `Edges.descendants`, `Edges.others`:
  what a node reaches in one or more steps, with and without the node itself;
  `Edges.component`: what it is connected to.
* `Edges.closure`: an edge for every path of one or more steps.
* `Edges.mem_reachable_iff_reach`: other searches that find the same.
-/
import Ontology.Relation.Reach

namespace Ontology

variable {α : Type}

/-- A relation as a list of edges. -/
abbrev Edges (α : Type) := List (α × α)

namespace Edges

/-- The edges read backwards. -/
def flip (edges : Edges α) : Edges α := edges.map fun e => (e.2, e.1)

/-- The edges read in both directions. -/
def both (edges : Edges α) : Edges α := edges ++ flip edges

@[simp] theorem mem_flip {edges : Edges α} {a b : α} :
    (a, b) ∈ edges.flip ↔ (b, a) ∈ edges := by
  simp only [flip, List.mem_map, Prod.mk.injEq]
  constructor
  · rintro ⟨⟨c, d⟩, h, rfl, rfl⟩
    exact h
  · exact fun h => ⟨_, h, rfl, rfl⟩

@[simp] theorem mem_both {edges : Edges α} {a b : α} :
    (a, b) ∈ edges.both ↔ (a, b) ∈ edges ∨ (b, a) ∈ edges := by
  simp [both]

/-! ### Reachability -/

variable [DecidableEq α]

/-- The targets of the edges from a node. -/
def targets (edges : Edges α) (a : α) : List α :=
  (edges.filter fun e => e.1 = a).map (·.2)

/-- The nodes that some seeds reach, the seeds included. -/
def reach (edges : Edges α) (seeds : List α) : List α :=
  reachable (edges.map (·.1)) edges.targets seeds

/-- The nodes at the end of a path of at least one edge. -/
def descendants (edges : Edges α) (a : α) : List α :=
  edges.reach (edges.targets a)

/-- The descendants of a node other than the node. -/
def others (edges : Edges α) (a : α) : List α :=
  (edges.descendants a).filter (· ≠ a)

/-- The node and what is connected to it, whatever the direction of the
edges. -/
def component (edges : Edges α) (a : α) : List α := edges.both.reach [a]

/-- The edges from the source to the end of every path. -/
def closure (edges : Edges α) : Edges α :=
  (edges.map (·.1)).eraseDups.flatMap fun a =>
    (edges.descendants a).map fun b => (a, b)

/-! ### Membership -/

variable {edges : Edges α} {a b : α}

@[simp] theorem mem_targets : b ∈ edges.targets a ↔ (a, b) ∈ edges := by
  simp [targets]

/-- Sources of edges are the nodes with successors. -/
theorem mem_sources_of_targets (h : edges.targets a ≠ []) :
    a ∈ edges.map (·.1) := by
  obtain ⟨b, hb⟩ := List.exists_mem_of_ne_nil _ h
  exact List.mem_map.mpr ⟨_, mem_targets.mp hb, rfl⟩

/-- Reaching along edges is exact. -/
theorem mem_reach {seeds : List α} :
    b ∈ edges.reach seeds ↔ ∃ a ∈ seeds, Reaches edges.targets a b :=
  mem_reachable_iff fun _ _ _ _ => mem_sources_of_targets

theorem nodup_reach (seeds : List α) : (edges.reach seeds).Nodup :=
  nodup_reachable ..

/-- A descendant is reached from a target. -/
theorem mem_descendants :
    b ∈ edges.descendants a ↔
      ∃ c, (a, c) ∈ edges ∧ Reaches edges.targets c b := by
  simp [descendants, mem_reach]

/-- A path starts with an edge. -/
theorem exists_mem_of_mem_descendants (h : b ∈ edges.descendants a) :
    ∃ c, (a, c) ∈ edges := by
  obtain ⟨c, hc, -⟩ := mem_descendants.mp h
  exact ⟨c, hc⟩

/-- A search by another successor function reaches the same, if this has the
targets of the edges and the nodes have all that have some. -/
theorem mem_reachable_iff_reach {nodes seeds : List α} {next : α → List α}
    (hnext : ∀ c d, d ∈ next c ↔ (c, d) ∈ edges)
    (hnodes : ∀ c d, d ∈ next c → c ∈ nodes) :
    b ∈ reachable nodes next seeds ↔ b ∈ edges.reach seeds := by
  have hreaches {c d : α} :
      Reaches next c d ↔ Reaches edges.targets c d := by
    refine ⟨.mono fun i j hj => ?_, .mono fun i j hj => ?_⟩
    · exact mem_targets.mpr ((hnext i j).mp hj)
    · exact (hnext i j).mpr (mem_targets.mp hj)
  have hsources (c : α) (hc : next c ≠ []) : c ∈ nodes :=
    have ⟨_, hd⟩ := List.exists_mem_of_ne_nil _ hc
    hnodes _ _ hd
  rw [mem_reachable_iff fun _ _ c _ => hsources c, mem_reach]
  simp only [hreaches]

/-- Such a search from the successors of a node finds its descendants. -/
theorem mem_reachable_iff_descendants {nodes : List α} {next : α → List α}
    (hnext : ∀ c d, d ∈ next c ↔ (c, d) ∈ edges)
    (hnodes : ∀ c d, d ∈ next c → c ∈ nodes) :
    b ∈ reachable nodes next (next a) ↔ b ∈ edges.descendants a := by
  rw [mem_reachable_iff_reach hnext hnodes, mem_reach, mem_descendants]
  simp only [hnext]

theorem mem_others :
    b ∈ edges.others a ↔
      b ≠ a ∧ ∃ c, (a, c) ∈ edges ∧ Reaches edges.targets c b := by
  simp [others, mem_descendants, and_comm]

/-- Whether a path starts with an edge does not matter when it leads to another
node. -/
theorem mem_others_iff_reaches :
    b ∈ edges.others a ↔ b ≠ a ∧ Reaches edges.targets a b := by
  rw [mem_others]
  refine and_congr_right fun hne => ⟨?_, fun h => ?_⟩
  · rintro ⟨c, hc, hr⟩
    exact .step (mem_targets.mpr hc) hr
  · cases h with
    | refl => exact absurd rfl hne
    | step hc hr => exact ⟨_, mem_targets.mp hc, hr⟩

theorem nodup_others (a : α) : (edges.others a).Nodup :=
  (nodup_reach _).filter _

/-- A component is what its node reaches in both directions. -/
theorem mem_component :
    b ∈ edges.component a ↔ Reaches edges.both.targets a b := by
  simp [component, mem_reach]

theorem nodup_component (a : α) : (edges.component a).Nodup := nodup_reach _

/-- The closure has an edge for every descendant. -/
theorem mem_closure :
    (a, b) ∈ edges.closure ↔ b ∈ edges.descendants a := by
  simp only [closure, List.mem_flatMap, List.mem_map, Prod.mk.injEq,
    List.mem_eraseDups]
  constructor
  · rintro ⟨a', _, b', hb, rfl, rfl⟩
    exact hb
  · intro h
    obtain ⟨c, hc⟩ := exists_mem_of_mem_descendants h
    exact ⟨a, ⟨_, hc, rfl⟩, b, h, rfl, rfl⟩

/-! ### Symmetry of both directions -/

/-- Reaching in both directions can be turned around. -/
theorem reaches_both_symm (h : Reaches edges.both.targets a b) :
    Reaches edges.both.targets b a := by
  induction h with
  | refl => exact .refl _
  | step hb _ ih =>
    refine ih.trans (.single ?_)
    rw [mem_targets, mem_both] at hb ⊢
    exact hb.symm

/-- Components are symmetric. -/
theorem mem_component_comm :
    b ∈ edges.component a ↔ a ∈ edges.component b := by
  rw [mem_component, mem_component]
  exact ⟨reaches_both_symm, reaches_both_symm⟩

end Edges

end Ontology
