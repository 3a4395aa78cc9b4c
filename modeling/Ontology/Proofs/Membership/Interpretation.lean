/-
The interpretation of class expressions in computations of different kinds.

* `ClassExpression.operands`: the classes that an expression is made of.
* `Compositional`: a relation between computations that passes from the parts
  of a computation to the whole; `interpret_related_of_operands`: it passes from
  the members of the operands of an expression to those of the expression, and
  so, `interpret_related`, from the members of all classes.
* `interpret_mono`: with more members known an expression keeps its own.
* `denotes_of_interpret`: the members of an expression are its meaning, if the
  members looked up for the classes in it are the meanings of these.
-/
import Ontology.Proofs.Membership.Denotation

namespace Ontology

/-- The classes that an expression is made of. -/
def ClassExpression.operands : ClassExpression → List ClassName
  | named _ => []
  | restriction x => x.constraint.filler?.toList
  | union cs => cs
  | intersection cs => cs
  | complement c => [c]
  | oneOf _ => []

/-! ### Related computations -/

/-- A relation between computations of two kinds, in which the same results
are related, and also what is put together of related parts. -/
structure Compositional {m n : Type → Type} [Monad m] [Monad n]
    (R : ∀ α : Type, m α → n α → Prop) : Prop where
  pure {α : Type} (a : α) : R α (pure a) (pure a)
  bind {α β : Type} {x : m α} {y : n α} {f : α → m β} {g : α → n β} :
    R α x y → (∀ a, R β (f a) (g a)) → R β (x >>= f) (y >>= g)

namespace Reasoner

variable {r : Reasoner} {c d : ClassName} {e : ClassExpression}

section

variable {m n : Type → Type} [Monad m] [Monad n]
  {R : ∀ α : Type, m α → n α → Prop}
  {f : ClassName → m (List Individual)} {g : ClassName → n (List Individual)}

lemma meet_related (hR : Compositional R) {cs : List ClassName}
    (hfg : ∀ d ∈ cs, R _ (f d) (g d)) (current : List Individual) :
    R _ (meet f current cs) (meet g current cs) := by
  induction cs generalizing current with
  | nil => exact hR.pure current
  | cons c cs ih =>
    obtain ⟨hc, hcs⟩ := List.forall_mem_cons.mp hfg
    unfold meet
    split
    · exact hR.pure []
    · exact hR.bind hc fun other => ih hcs (current.filter other.contains)

variable [LawfulMonad m] [LawfulMonad n]

lemma mapM_related (hR : Compositional R) {cs : List ClassName}
    (hfg : ∀ d ∈ cs, R _ (f d) (g d)) : R _ (cs.mapM f) (cs.mapM g) := by
  induction cs with
  | nil => exact hR.pure []
  | cons c cs ih =>
    obtain ⟨hc, hcs⟩ := List.forall_mem_cons.mp hfg
    rw [List.mapM_cons, List.mapM_cons]
    exact hR.bind hc fun is => hR.bind (ih hcs) fun iss => hR.pure (is :: iss)

/-- Related members of the operands of an expression lead to related members of
the expression. -/
theorem interpret_related_of_operands (hR : Compositional R)
    (hfg : ∀ d ∈ e.operands, R _ (f d) (g d)) :
    R _ (r.interpret f e) (r.interpret g e) := by
  cases e with
  | named c => exact hR.pure _
  | restriction x =>
    simp only [interpret, interpretRestriction]
    split
    · exact hR.pure _
    · split
      · exact hR.pure _
      · next c hc =>
        have hfiller : c ∈ (ClassExpression.restriction x).operands := by
          simp [ClassExpression.operands, hc]
        exact hR.bind (hfg c hfiller) fun is => hR.pure _
  | union cs => exact hR.bind (mapM_related hR hfg) fun iss => hR.pure _
  | intersection cs =>
    cases cs with
    | nil => exact hR.pure []
    | cons c cs =>
      obtain ⟨hc, hcs⟩ := List.forall_mem_cons.mp hfg
      exact hR.bind hc fun is => meet_related hR hcs is
  | complement c =>
    exact hR.bind (hfg c (List.mem_singleton_self c)) fun is => hR.pure _
  | oneOf is => exact hR.pure _

/-- Related members of classes lead to related members of expressions. -/
theorem interpret_related (hR : Compositional R)
    (hfg : ∀ d, R _ (f d) (g d)) (e : ClassExpression) :
    R _ (r.interpret f e) (r.interpret g e) :=
  interpret_related_of_operands hR fun d _ => hfg d

end

/-! ### Members that are looked up -/

/-- With more members known an expression keeps its own. -/
lemma interpret_mono {known more : ClassName → Option (List Individual)}
    {is : List Individual}
    (hmore : ∀ d js, known d = some js → more d = some js)
    (h : r.interpret known e = some is) : r.interpret more e = some is := by
  have hR : Compositional fun α (x y : Option α) =>
      ∀ a, x = some a → y = some a := by
    refine ⟨fun _ _ => id, fun hxy hfg b hb => ?_⟩
    obtain ⟨a, ha, hb⟩ := Option.bind_eq_some_iff.mp hb
    exact Option.bind_eq_some_iff.mpr ⟨a, hxy a ha, hfg a b hb⟩
  exact interpret_related hR hmore e is h

/-- The members that a look-up gives to a class. -/
def found (known : ClassName → Option (List Individual)) (c : ClassName) :
    Set Individual :=
  {i | ∃ is ∈ known c, i ∈ is}

lemma found_eq {known : ClassName → Option (List Individual)}
    {is : List Individual} (h : known c = some is) :
    found known c = {i | i ∈ is} := by
  ext i
  simp [found, h]

/-- Several classes looked up together. -/
lemma mapM_eq_some {known : ClassName → Option (List Individual)}
    {cs : List ClassName} {iss : List (List Individual)}
    (h : cs.mapM known = some iss) :
    (∀ c ∈ cs, ∃ is, known c = some is) ∧
      ∀ i, i ∈ iss.flatten ↔ ∃ c ∈ cs, i ∈ found known c := by
  induction cs generalizing iss with
  | nil =>
    obtain rfl : [] = iss := by simpa using h
    simp
  | cons c cs ih =>
    rw [List.mapM_cons] at h
    obtain ⟨is, hc, h⟩ := Option.bind_eq_some_iff.mp h
    obtain ⟨iss, hcs, h⟩ := Option.bind_eq_some_iff.mp h
    obtain rfl : is :: iss = _ := by simpa using h
    obtain ⟨hknown, hmem⟩ := ih hcs
    refine ⟨List.forall_mem_cons.mpr ⟨⟨is, hc⟩, hknown⟩, fun i => ?_⟩
    simp [hmem, found_eq hc]

/-- A meet is what some first classes have in common: all of them, or as many
as it takes to have nothing in common. -/
lemma meet_eq_some {known : ClassName → Option (List Individual)}
    {cs : List ClassName} {current is : List Individual}
    (h : meet known current cs = some is) :
    ∃ ds es, cs = ds ++ es ∧ (∀ d ∈ ds, ∃ js, known d = some js) ∧
      (∀ i, i ∈ is ↔ i ∈ current ∧ ∀ d ∈ ds, i ∈ found known d) ∧
      (es = [] ∨ is = []) := by
  induction cs generalizing current with
  | nil =>
    obtain rfl : current = is := by simpa [meet] using h
    exact ⟨[], [], rfl, by simp, by simp, .inl rfl⟩
  | cons c cs ih =>
    by_cases hcurrent : current.isEmpty
    · obtain rfl : [] = is := by simpa [meet, hcurrent] using h
      rw [List.isEmpty_iff] at hcurrent
      exact ⟨[], c :: cs, rfl, by simp, by simp [hcurrent], .inr rfl⟩
    · rw [meet, if_neg hcurrent] at h
      obtain ⟨js, hc, h⟩ := Option.bind_eq_some_iff.mp h
      obtain ⟨ds, es, rfl, hknown, hmem, hend⟩ := ih h
      refine ⟨c :: ds, es, rfl, List.forall_mem_cons.mpr ⟨⟨js, hc⟩, hknown⟩,
        fun i => ?_, hend⟩
      rw [hmem, List.mem_filter, List.forall_mem_cons, found_eq hc]
      simp [and_assoc]

variable {known : ClassName → Option (List Individual)} {is : List Individual}

/-- The members of a restriction are its meaning, if those of its class are. -/
lemma denotes_of_interpretRestriction {x : Restriction}
    (hknown : ∀ d js, known d = some js → r.Denotes d {i | i ∈ js})
    (hc : r.catalog.classify c = .ok (.restriction x))
    (h : r.interpretRestriction known x = some is) :
    r.Denotes c {i | i ∈ is} := by
  unfold interpretRestriction at h
  by_cases hx : x.constraint.trivial
  · obtain rfl : r.facts.individuals = is := by simpa [hx] using h
    exact .unbounded hc hx
  rw [Bool.not_eq_true] at hx
  rw [if_neg (by simp [hx])] at h
  cases hfiller : x.constraint.filler? with
  | none =>
    obtain rfl : r.restricted x .all = is := by simpa [hfiller] using h
    simp only [mem_restricted_iff, holds_all]
    exact .restriction hc hx hfiller
  | some d =>
    rw [hfiller] at h
    obtain ⟨js, hd, h⟩ := Option.bind_eq_some_iff.mp h
    obtain rfl : r.restricted x (.ofClass d js) = is := by simpa using h
    simp only [mem_restricted_iff, holds_ofClass]
    exact .qualified hc hx hfiller (hknown d js hd)

/-- **Interpretation keeps to the meaning**: the members of the structure of a
class are its meaning, if the members looked up are the meanings of theirs. -/
theorem denotes_of_interpret {e : ClassExpression}
    (hknown : ∀ d js, known d = some js → r.Denotes d {i | i ∈ js})
    (hc : r.catalog.classify c = .ok e) (h : r.interpret known e = some is) :
    r.Denotes c {i | i ∈ is} := by
  have hfound : ∀ d, (∃ js, known d = some js) → r.Denotes d (found known d) := by
    rintro d ⟨js, hd⟩
    exact found_eq hd ▸ hknown d js hd
  cases e with
  | named d =>
    obtain rfl : r.named d = is := by simpa [interpret] using h
    rw [show {i | i ∈ r.named d} = r.instancesOf d from
      Set.ext fun _ => mem_named_iff]
    exact .named hc
  | restriction x => exact denotes_of_interpretRestriction hknown hc h
  | union ds =>
    obtain ⟨iss, hds, h⟩ := Option.bind_eq_some_iff.mp h
    obtain rfl : iss.flatten.eraseDups = is := by simpa using h
    obtain ⟨hall, hmem⟩ := mapM_eq_some hds
    simp only [List.mem_eraseDups, hmem]
    exact .union hc fun d hd => hfound d (hall d hd)
  | intersection ds =>
    cases ds with
    | nil =>
      obtain rfl : [] = is := by simpa [interpret] using h
      simpa using Denotes.intersection (F := found known) hc (by simp)
    | cons d ds =>
      obtain ⟨js, hd, h⟩ := Option.bind_eq_some_iff.mp h
      obtain ⟨ds, es, rfl, hall, hmem, hend⟩ := meet_eq_some h
      have hds : ∀ e ∈ d :: ds, r.Denotes e (found known e) :=
        List.forall_mem_cons.mpr
          ⟨hfound d ⟨js, hd⟩, fun e he => hfound e (hall e he)⟩
      have hmem' : ∀ i, i ∈ is ↔ ∀ e ∈ d :: ds, i ∈ found known e := by
        intro i
        rw [hmem, List.forall_mem_cons, found_eq hd]
        rfl
      rcases hend with rfl | rfl
      · rw [List.append_nil] at hc
        simpa [hmem'] using Denotes.intersection hc hds
      · rw [show {i | i ∈ ([] : List Individual)} = ∅ by simp]
        have hc' : r.catalog.classify c = .ok (.intersection (d :: ds ++ es)) :=
          hc
        refine .disjoint hc' hds fun i => ?_
        simpa only [not_forall, exists_prop] using (hmem' i).not.mp (by simp)
  | complement d =>
    obtain ⟨js, hd, h⟩ := Option.bind_eq_some_iff.mp h
    obtain rfl : (r.facts.individuals.filter fun i => !js.contains i) = is := by
      simpa using h
    simpa using Denotes.complement hc (hknown d js hd)
  | oneOf js =>
    obtain rfl : js.eraseDups = is := by simpa [interpret] using h
    simpa using Denotes.oneOf hc

end Reasoner

end Ontology
