/-
Catalogs that agree.

* `Hierarchy.Agrees`, `Catalog.Agrees`: the same structure of every class and
  the same look-ups; `Hierarchy.Agrees.mem_expand_iff`, `Catalog.Agrees.inversesOf_eq`.
* `Hierarchy.agrees_of_declarations`, `Catalog.mem_inversesOf_congr`,
  `Catalog.isTransitive_congr`: look-ups agree where the declarations do, in any
  order and any number of times.
* `Catalog.Agrees.roleLinks_eq`, `named_eq`: roles have the same values, and
  names the same members; `Catalog.Agrees.members_eq`: hence all classes have.
-/
import Mathlib.Data.List.Sort
import Ontology.Proofs.Membership.Denotation
import Ontology.Proofs.Membership.Matching
import Ontology.Proofs.Relation.Bridge

namespace Ontology

/-! ### Hierarchies -/

namespace Hierarchy

variable {α : Type} [DecidableEq α] {h h' : Hierarchy α}

/-- Two hierarchies have the same look-ups. -/
structure Agrees (h h' : Hierarchy α) : Prop where
  mem_below_iff : ∀ {a b}, b ∈ h.below a ↔ b ∈ h'.below a
  mem_equivalents_iff : ∀ {a b}, b ∈ h.equivalents a ↔ b ∈ h'.equivalents a

/-- The same declarations about two entities each, with equivalence read either way, give
the same look-ups. -/
lemma agrees_of_declarations
    (hnarrower : ∀ a b, a ≠ b → ((a, b) ∈ h.narrower ↔ (a, b) ∈ h'.narrower))
    (hequivalent : ∀ a b, a ≠ b →
      ((a, b) ∈ h.equivalent.both ↔ (a, b) ∈ h'.equivalent.both)) : h.Agrees h' where
  mem_below_iff := Edges.mem_others_congr hnarrower
  mem_equivalents_iff := Edges.mem_others_congr hequivalent

/-- Hierarchies with the same look-ups expand alike. -/
lemma Agrees.mem_expand_iff (hh : h.Agrees h') {a b : α} :
    b ∈ h.expand a ↔ b ∈ h'.expand a := by
  have hcovered (x y : α) : y ∈ h.covered x ↔ y ∈ h'.covered x := by
    simp only [covered, List.mem_append, hh.mem_below_iff, hh.mem_equivalents_iff]
  rw [mem_expand_iff_reaches_covered, mem_expand_iff_reaches_covered]
  exact ⟨Reaches.mono fun x y => (hcovered x y).mp, Reaches.mono fun x y => (hcovered x y).mpr⟩

end Hierarchy

/-! ### Catalogs -/

namespace Catalog

variable {k l : Catalog}

/-- Two catalogs describe every class alike and have the same look-ups. -/
structure Agrees (k l : Catalog) : Prop where
  classify : ∀ c, k.classify c = l.classify c
  classes : k.classes.Agrees l.classes
  properties : k.properties.Agrees l.properties
  mem_inversesOf_iff : ∀ {p q}, q ∈ k.inversesOf p ↔ q ∈ l.inversesOf p
  isTransitive_eq : ∀ p, k.isTransitive p = l.isTransitive p

/-- The same declarations about two properties each, read either way, give the same
inverses. -/
lemma mem_inversesOf_congr
    (h : ∀ p q, p ≠ q → ((p, q) ∈ k.inverses.both ↔ (p, q) ∈ l.inverses.both))
    {p q : Property} : q ∈ k.inversesOf p ↔ q ∈ l.inversesOf p := by
  simp only [Edges.mem_both] at h
  rw [mem_inversesOf, mem_inversesOf]
  exact and_congr_right fun hne => h p q hne.symm

lemma isTransitive_congr (h : ∀ p, p ∈ k.transitive ↔ p ∈ l.transitive) (p : Property) :
    k.isTransitive p = l.isTransitive p := by
  rw [Bool.eq_iff_iff]
  simp [isTransitive, h]

lemma nodup_inversesOf (k : Catalog) (p : Property) : (k.inversesOf p).Nodup :=
  (List.mergeSort_perm ..).nodup_iff.mpr (nodup_eraseDups _)

lemma pairwise_inversesOf (k : Catalog) (p : Property) :
    (k.inversesOf p).Pairwise fun q r => q.text ≤ r.text := by
  have htrans (q r s : Property) : decide (q.text ≤ r.text) →
      decide (r.text ≤ s.text) → decide (q.text ≤ s.text) := by
    simpa only [decide_eq_true_eq] using String.le_trans
  have htotal (q r : Property) :
      decide (q.text ≤ r.text) || decide (r.text ≤ q.text) := by
    simpa using String.le_total q.text r.text
  exact (List.pairwise_mergeSort htrans htotal _).imp of_decide_eq_true

/-- Inverse properties are listed in order, so the lists are the same. -/
lemma Agrees.inversesOf_eq (h : k.Agrees l) (p : Property) :
    k.inversesOf p = l.inversesOf p := by
  have hperm : (k.inversesOf p).Perm (l.inversesOf p) :=
    (List.perm_ext_iff_of_nodup (k.nodup_inversesOf p) (l.nodup_inversesOf p)).mpr
      fun _ => h.mem_inversesOf_iff
  refine hperm.eq_of_pairwise (fun q r _ _ hqr hrq => ?_)
    (k.pairwise_inversesOf p) (l.pairwise_inversesOf p)
  cases q
  cases r
  exact congrArg Rdf.Iri.mk (String.le_antisymm hqr hrq)

end Catalog

/-! ### Queries -/

lemma Reasoner.stated_congr {r : Reasoner} {ps qs : List Property}
    (h : ∀ p, p ∈ ps ↔ p ∈ qs) : r.stated ps = r.stated qs := by
  simp only [stated, h]

lemma Facts.links_congr {f : Facts} {ps qs : List Property}
    (h : ∀ p, p ∈ ps ↔ p ∈ qs) : f.links ps = f.links qs := by
  simp only [links, h]

namespace Catalog.Agrees

open Reasoner

variable {k l : Catalog} (h : k.Agrees l) (r : Reasoner)
include h

lemma mem_transitiveOf_iff (p q : Property) :
    q ∈ transitiveOf { r with catalog := k } (k.properties.expand p) ↔
      q ∈ transitiveOf { r with catalog := l } (l.properties.expand p) := by
  simp only [transitiveOf]
  split <;> simp [h.properties.mem_expand_iff, h.isTransitive_eq]

lemma forward_eq (p : Property) :
    forward { r with catalog := k } p = forward { r with catalog := l } p := by
  have hstated : r.stated (k.properties.expand p) =
      r.stated (l.properties.expand p) :=
    stated_congr fun _ => h.properties.mem_expand_iff
  have hpaths := Facts.links_congr (f := r.facts) (h.mem_transitiveOf_iff r p)
  exact congrArg₂ (fun vs es => vs ++ Links.ofEdges (Edges.closure es))
    hstated hpaths

lemma backward_eq (p : Property) :
    backward { r with catalog := k } p = backward { r with catalog := l } p := by
  have hlinks := Facts.links_congr (f := r.facts)
    fun _ => h.properties.mem_expand_iff (a := p)
  have hpaths := Facts.links_congr (f := r.facts) (h.mem_transitiveOf_iff r p)
  exact congrArg₂ (fun es ts : Edges Individual =>
    Links.ofEdges es.flip ++ Links.ofEdges ts.flip.closure) hlinks hpaths

/-- Roles have the same values. -/
lemma roleLinks_eq (x : Role) :
    roleLinks { r with catalog := k } x =
      roleLinks { r with catalog := l } x := by
  cases x with
  | direct p => exact h.forward_eq r p
  | inverse p =>
    simp only [roleLinks, h.inversesOf_eq, h.backward_eq r,
      funext (h.forward_eq r)]

/-- Names have the same members. -/
lemma named_eq (c : ClassName) :
    named { r with catalog := k } c = named { r with catalog := l } c := by
  simp only [named, List.mem_cons, List.mem_append, h.classes.mem_below_iff,
    h.classes.mem_equivalents_iff]

lemma reasoners_match :
    Reasoner.Matches { r with catalog := k } { r with catalog := l } where
  maxDepth := rfl
  classify := h.classify
  individuals := rfl
  equals _ := rfl
  named := h.named_eq r
  roleLinks := h.roleLinks_eq r

/-- **Same answers**: a query for the members of a class has the same answer
with either of two catalogs that agree. -/
theorem members_eq (c : ClassName) :
    members { r with catalog := k } c = members { r with catalog := l } c :=
  (h.reasoners_match r).members_eq c

end Catalog.Agrees

end Ontology
