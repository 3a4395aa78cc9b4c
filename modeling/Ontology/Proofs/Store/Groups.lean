/-
A group of pairwise different individuals is all of its pairs.

* `Facts.add_milder_iff`: recording a statement is the least addition of its
  entry; `foldl_add_milder_iff`: in whatever order, and together with others.
* `Facts.AsStrict`: facts of which each are milder than the others. They know
  the same differences and clash with the same statements.
* `Edges.PairsUp`: pairs of different members of a group, that leave no two of
  them out; `asStrict_add_pairs`: recording the pairs is as strict as recording
  the group.
* `Store.Guarded`: protected stores that came about by a run;
  `Guarded.rejects_iff`: what they reject.
* `Store.Parallel`: guarded stores whose facts are equally strict;
  `Parallel.run`: the same commands leave them so.
* `Store.run_group_is_pairs`: after every run of a protected store a group is
  rejected just if one of its pairs is; if none is, the store with the group and
  the store with the pairs go on alike.
-/
import Ontology.Proofs.Store.Rejection
import Ontology.Proofs.Store.Atomicity
import Ontology.Proofs.Store.Reached

namespace Ontology

/-- Pairs of different members of a group, that leave no two of them out. -/
structure Edges.PairsUp (pairs : Edges Individual) (members : List Individual) :
    Prop where
  distinct : ∀ a b, (a, b) ∈ pairs → a ∈ members ∧ b ∈ members ∧ a ≠ b
  complete : ∀ a ∈ members, ∀ b ∈ members, a ≠ b → (a, b) ∈ pairs.both

namespace Facts

variable {f g h : Facts} {t u : Statement} {a b : Individual}
  {ts us : List Statement} {members : List Individual} {pairs : Edges Individual}

/-! ### Recording -/

lemma assertions_add : (f.add t).assertions = f.assertions ++ t.entry.assertions := by
  rw [add, record_eq, declare]

lemma sameAs_add : (f.add t).sameAs = f.sameAs ++ t.entry.sameAs := by
  rw [add, record_eq, declare]

/-- A statement declares the differences of its entry. -/
lemma mem_declaredDifferent_add :
    b ∈ (f.add t).declaredDifferent a ↔
      b ∈ f.declaredDifferent a ∨ b ∈ t.entry.declaredDifferent a := by
  simp only [mem_declaredDifferent, add, record_eq, declare, List.mem_append]
  grind

/-- **Recording** a statement is the least addition of its entry. -/
theorem add_milder_iff : (f.add t).Milder g ↔ f.Milder g ∧ t.entry.Milder g := by
  constructor
  · intro h
    refine ⟨⟨fun x hx => h.assertions x ?_, fun a b hab => h.sameAs a b ?_,
      fun a b hab => h.declaredDifferent a b ?_⟩,
      ⟨fun x hx => h.assertions x ?_, fun a b hab => h.sameAs a b ?_,
      fun a b hab => h.declaredDifferent a b ?_⟩⟩
    · rw [assertions_add]
      exact List.mem_append_left _ hx
    · rw [sameAs_add]
      exact Edges.mem_both_append.mpr (.inl hab)
    · exact mem_declaredDifferent_add.mpr (.inl hab)
    · rw [assertions_add]
      exact List.mem_append_right _ hx
    · rw [sameAs_add]
      exact Edges.mem_both_append.mpr (.inr hab)
    · exact mem_declaredDifferent_add.mpr (.inr hab)
  · rintro ⟨hf, ht⟩
    refine ⟨fun x hx => ?_, fun a b hab => ?_, fun a b hab => ?_⟩
    · rw [assertions_add, List.mem_append] at hx
      exact hx.elim (hf.assertions x) (ht.assertions x)
    · rw [sameAs_add, Edges.mem_both_append] at hab
      exact hab.elim (hf.sameAs a b) (ht.sameAs a b)
    · rw [mem_declaredDifferent_add] at hab
      exact hab.elim (hf.declaredDifferent a b) (ht.declaredDifferent a b)

lemma foldl_add_milder_iff :
    (ts.foldl add f).Milder g ↔ f.Milder g ∧ ∀ t ∈ ts, t.entry.Milder g := by
  induction ts generalizing f with
  | nil => simp
  | cons t ts ih =>
    rw [List.foldl_cons, ih, add_milder_iff, List.forall_mem_cons, and_assoc]

/-- With more facts a statement leads to more. -/
lemma Milder.add (hfg : f.Milder g) (t : Statement) : (f.add t).Milder (g.add t) := by
  obtain ⟨hg, ht⟩ := add_milder_iff.mp (Milder.refl (g.add t))
  exact add_milder_iff.mpr ⟨hfg.trans hg, ht⟩

/-- A statement that holds has nothing to add. -/
lemma entry_milder_of_holds (ht : f.holds t) : t.entry.Milder f := by
  have hentry : ∀ u, t.entry.holds u → t.Alike u := by
    intro u hu
    cases t <;> cases u <;>
      simp_all [Statement.entry, Statement.Alike]
    all_goals grind
  have hwithin : t.entry.Within f := fun u hu => (holds_congr (hentry u hu)).mp ht
  exact hwithin.milder

/-! ### Equally strict facts -/

/-- Facts of which each are milder than the others. -/
structure AsStrict (f g : Facts) : Prop where
  le : f.Milder g
  ge : g.Milder f

/-- Facts that are milder than the same ones are equally strict. -/
lemma asStrict_of_forall (h : ∀ k, f.Milder k ↔ g.Milder k) : f.AsStrict g :=
  ⟨(h g).mpr (.refl g), (h f).mp (.refl f)⟩

namespace AsStrict

lemma refl (f : Facts) : f.AsStrict f := ⟨.refl f, .refl f⟩

lemma symm (h : f.AsStrict g) : g.AsStrict f := ⟨h.ge, h.le⟩

lemma trans (hfg : f.AsStrict g) (hgh : g.AsStrict h) : f.AsStrict h :=
  ⟨hfg.le.trans hgh.le, hgh.ge.trans hfg.ge⟩

lemma mem_different_iff (h : f.AsStrict g) : b ∈ f.different a ↔ b ∈ g.different a :=
  ⟨h.le.mem_different, h.ge.mem_different⟩

lemma consistent_iff (h : f.AsStrict g) : f.Consistent ↔ g.Consistent :=
  ⟨fun hf => hf.of_milder h.ge, fun hg => hg.of_milder h.le⟩

lemma add (h : f.AsStrict g) (t : Statement) : (f.add t).AsStrict (g.add t) :=
  ⟨h.le.add t, h.ge.add t⟩

/-- A statement that holds may as well be recorded again. -/
lemma add_of_holds (ht : f.holds t) : (f.add t).AsStrict f :=
  ⟨add_milder_iff.mpr ⟨.refl f, entry_milder_of_holds ht⟩, (Within.add f t).milder⟩

end AsStrict

/-- Consistent facts that are equally strict find the same conflict with an
equality. -/
lemma AsStrict.conflict?_sameAs_eq (h : f.AsStrict g) (hf : f.Consistent)
    (reserved : List ClassName) (a b : Individual) :
    f.conflict? reserved (.sameAs a b) = g.conflict? reserved (.sameAs a b) := by
  have hdifferent : f.isDifferent a b = g.isDifferent a b := by
    rw [Bool.eq_iff_iff, isDifferent_iff, isDifferent_iff]
    exact h.mem_different_iff
  -- a merge leads to contrary assertions in the ones just if it does in the others
  have hmono : ∀ {f g : Facts}, f.AsStrict g →
      (∃ x ∈ f.assertions, ∃ y ∈ f.assertions,
        (f.add (.sameAs a b)).Contrary x y) →
      ∃ x ∈ g.assertions, ∃ y ∈ g.assertions,
        (g.add (.sameAs a b)).Contrary x y := by
    rintro f g h ⟨x, hx, y, hy, hxy⟩
    exact ⟨x, h.le.assertions x hx, y, h.le.assertions y hy,
      hxy.mono fun _ _ => (h.le.add _).mem_equals⟩
  have hmerge : f.mergeOpposes a b = g.mergeOpposes a b := by
    rw [Bool.eq_iff_iff, mergeOpposes_iff_contrary hf.noContrary,
      mergeOpposes_iff_contrary (h.consistent_iff.mp hf).noContrary]
    exact ⟨hmono h, hmono h.symm⟩
  rw [conflict?, conflict?, hdifferent, hmerge]

/-! ### Groups and pairs -/

lemma entry_differentFrom_milder_iff :
    (Statement.differentFrom a b).entry.Milder g ↔ b ∈ g.declaredDifferent a := by
  constructor
  · intro h
    exact h.declaredDifferent a b (by simp [mem_declaredDifferent, Statement.entry])
  · intro h
    refine ⟨by simp [Statement.entry], by simp [Statement.entry], fun c d hcd => ?_⟩
    have hpair : c = a ∧ d = b ∨ d = a ∧ c = b := by
      simpa [mem_declaredDifferent, Statement.entry] using hcd
    rcases hpair with ⟨rfl, rfl⟩ | ⟨rfl, rfl⟩
    · exact h
    · exact declaredDifferent_comm.mp h

lemma entry_allDifferent_milder_iff :
    (Statement.allDifferent members).entry.Milder g ↔
      ∀ a ∈ members, ∀ b ∈ members, a ≠ b → b ∈ g.declaredDifferent a := by
  have hentry : ∀ a b, b ∈ (Statement.allDifferent members).entry.declaredDifferent a ↔
      a ∈ members ∧ b ∈ members ∧ a ≠ b := by
    intro a b
    simp only [mem_declaredDifferent, Statement.entry, List.not_mem_nil, false_or,
      List.mem_singleton, exists_eq_left, List.mem_eraseDups, ne_comm (a := b)]
    tauto
  constructor
  · exact fun h a ha b hb hne => h.declaredDifferent a b ((hentry a b).mpr ⟨ha, hb, hne⟩)
  · intro h
    refine ⟨by simp [Statement.entry], by simp [Statement.entry], fun a b hab => ?_⟩
    obtain ⟨ha, hb, hne⟩ := (hentry a b).mp hab
    exact h a ha b hb hne

/-- **Groups are pairs**: to record a group is as strict as to record its pairs,
in whatever order. -/
theorem asStrict_add_pairs (h : pairs.PairsUp members) :
    (f.add (.allDifferent members)).AsStrict
      ((pairs.map fun p => .differentFrom p.1 p.2).foldl add f) := by
  refine asStrict_of_forall fun k => ?_
  rw [add_milder_iff, foldl_add_milder_iff, entry_allDifferent_milder_iff]
  refine and_congr_right fun _ => ?_
  simp only [List.forall_mem_map, entry_differentFrom_milder_iff]
  constructor
  · rintro hall ⟨a, b⟩ hab
    obtain ⟨ha, hb, hne⟩ := h.distinct a b hab
    exact hall a ha b hb hne
  · intro hall a ha b hb hne
    rcases Edges.mem_both.mp (h.complete a ha b hb hne) with hab | hba
    · exact hall (a, b) hab
    · exact declaredDifferent_comm.mp (hall (b, a) hba)

end Facts

namespace Store

variable {s s' : Store} {t : Statement} {ts : List Statement}
  {members : List Individual} {pairs : Edges Individual} {a b : Individual}

/-! ### Guarded stores -/

/-- A protected store that came about by a run. -/
structure Guarded (s : Store) : Prop where
  protection : s.config.protection = true
  isRun : ∃ cs, run { config := s.config } cs = s

lemma guarded_run {config : Config} (hprotection : config.protection = true)
    (cs : List Command) : (run { config } cs).Guarded := by
  refine ⟨?_, cs, ?_⟩ <;> rw [config_run]
  exact hprotection

namespace Guarded

lemma run (hs : s.Guarded) (ds : List Command) : (s.run ds).Guarded := by
  obtain ⟨cs, hcs⟩ := hs.isRun
  refine ⟨?_, cs ++ ds, ?_⟩ <;> rw [config_run]
  · exact hs.protection
  · rw [run_append, hcs]

lemma consistent (hs : s.Guarded) : s.facts.Consistent := by
  obtain ⟨cs, hcs⟩ := hs.isRun
  exact hcs ▸ run_consistent hs.protection cs

lemma unreserved (hs : s.Guarded) {i : Individual} {c : ClassName}
    (h : s.facts.holds (.instanceOf i c)) : c ∉ s.config.reserved := by
  obtain ⟨cs, hcs⟩ := hs.isRun
  exact run_unreserved hs.protection cs (hcs ▸ h)

lemma declares (hs : s.Guarded) : s.facts.Declares := by
  obtain ⟨cs, hcs⟩ := hs.isRun
  exact Facts.Reached.declares ⟨s.config, cs, congrArg facts hcs⟩

/-- Rejected is what makes sense and, were it recorded, would make the facts
inconsistent or an instance of a reserved class known. -/
lemma rejects_iff (hs : s.Guarded) :
    (∃ c, s.judge t = .rejected c) ↔
      t.fault? = none ∧ (¬ (s.facts.add t).Consistent ∨
        ∃ i, ∃ c ∈ s.config.reserved, t = .instanceOf i c) := by
  rw [judge_eq_rejected_iff]
  refine and_congr_right fun ht => ?_
  rw [Facts.conflict?_isSome_iff hs.consistent ht, and_iff_right hs.protection]
  refine and_iff_right_of_imp ?_
  rintro (hadd | ⟨i, c, hc, rfl⟩) hholds
  · exact hadd ((Facts.AsStrict.add_of_holds hholds).consistent_iff.mpr hs.consistent)
  · exact hs.unreserved hholds hc

/-- A pair of two individuals is rejected just if they are equal. -/
lemma rejects_differentFrom_iff (hs : s.Guarded) (hne : a ≠ b) :
    (∃ c, s.judge (.differentFrom a b) = .rejected c) ↔ s.facts.isSame a b := by
  rw [hs.rejects_iff, Facts.consistent_add_differentFrom_iff hs.consistent]
  simp [Statement.fault?, hne]

/-- A group is rejected just if two of its members are equal. -/
lemma rejects_allDifferent_iff (hs : s.Guarded) (hmembers : members ≠ []) :
    (∃ c, s.judge (.allDifferent members) = .rejected c) ↔
      ∃ a ∈ members, ∃ b ∈ members, a ≠ b ∧ s.facts.isSame a b := by
  rw [hs.rejects_iff, Facts.consistent_add_allDifferent_iff hs.consistent, not_not,
    Facts.equalMembers?_isSome]
  simp only [Statement.fault?, hmembers, if_false, true_and, List.mem_eraseDups,
    Facts.isSame_iff, reduceCtorEq, and_false, exists_false, or_false, ne_comm]

end Guarded

/-! ### Parallel runs -/

/-- Guarded stores of one configuration whose facts are equally strict. -/
structure Parallel (s s' : Store) : Prop where
  left : s.Guarded
  right : s'.Guarded
  config : s'.config = s.config
  facts : s.facts.AsStrict s'.facts

/-- What is not rejected leaves facts that are as strict as with the statement
recorded. -/
lemma asStrict_tell (ht : t.fault? = none) (hnot : ¬ ∃ c, s.judge t = .rejected c) :
    (s.tell t).facts.AsStrict (s.facts.add t) := by
  rcases judge_cases s t with ⟨_, hfault, _⟩ | ⟨_, hholds, h⟩ |
    ⟨_, _, _, c, _, h⟩ | ⟨_, _, _, h⟩
  · rw [ht] at hfault
    cases hfault
  · rw [tell_eq_of_ne_applied (by simp [h])]
    exact (Facts.AsStrict.add_of_holds hholds).symm
  · exact absurd ⟨c, h⟩ hnot
  · rw [tell_eq_of_applied h]
    exact .refl _

/-- What makes no sense or is rejected leaves the store. -/
lemma tell_eq_of_rejects
    (h : ¬ (t.fault? = none ∧ ¬ ∃ c, s.judge t = .rejected c)) : s.tell t = s := by
  refine tell_eq_of_ne_applied fun happlied => h ⟨?_, ?_⟩
  · exact (judge_eq_applied_iff.mp happlied).1
  · rintro ⟨c, hc⟩
    rw [happlied] at hc
    cases hc

namespace Parallel

/-- The same statements are rejected. -/
lemma rejects_iff (h : s.Parallel s') :
    (∃ c, s.judge t = .rejected c) ↔ ∃ c, s'.judge t = .rejected c := by
  rw [h.left.rejects_iff, h.right.rejects_iff, h.config,
    (h.facts.add t).consistent_iff]

/-- The same becomes of an equality. -/
lemma judge_sameAs_eq (h : s.Parallel s') (a b : Individual) :
    s.judge (.sameAs a b) = s'.judge (.sameAs a b) := by
  have hholds : s.facts.holds (.sameAs a b) = s'.facts.holds (.sameAs a b) := by
    rw [Bool.eq_iff_iff, Facts.holds_sameAs_iff, Facts.holds_sameAs_iff,
      ← Edges.mem_both, ← Edges.mem_both]
    exact ⟨h.facts.le.sameAs a b, h.facts.ge.sameAs a b⟩
  have hconflict := h.facts.conflict?_sameAs_eq h.left.consistent s.config.reserved a b
  simp only [judge, hholds, h.config, hconflict]

/-- One command leaves parallel stores parallel. -/
lemma step (h : s.Parallel s') (k : Command) : (s.step k).Parallel (s'.step k) where
  left := h.left.run [k]
  right := h.right.run [k]
  config := by rw [config_step, config_step, h.config]
  facts := by
    cases k with
    | reset => exact .refl {}
    | tell t =>
      by_cases hleft : t.fault? = none ∧ ¬ ∃ c, s.judge t = .rejected c
      · have hright := hleft.2 ∘ h.rejects_iff.mpr
        exact (asStrict_tell hleft.1 hleft.2).trans
          ((h.facts.add t).trans (asStrict_tell hleft.1 hright).symm)
      · have hright := hleft ∘ And.imp_right (mt h.rejects_iff.mp)
        rw [Store.step, Store.step, tell_eq_of_rejects hleft, tell_eq_of_rejects hright]
        exact h.facts

/-- **Parallel runs**: the same commands leave parallel stores parallel. -/
theorem run (h : s.Parallel s') (ds : List Command) : (s.run ds).Parallel (s'.run ds) := by
  induction ds generalizing s s' with
  | nil => exact h
  | cons k ds ih => exact ih (h.step k)

end Parallel

/-! ### Accepted groups -/

/-- A list is accepted if recording all of it leaves the facts consistent. -/
lemma accepts_of_foldl (hs : s.facts.Declares) (hfault : ∀ t ∈ ts, t.fault? = none)
    (hconsistent : s.config.protection → (ts.foldl Facts.add s.facts).Consistent)
    (hunreserved : s.config.protection → Unreserved s.config ts) : s.Accepts ts := by
  refine accepts_of_within (hs.foldl_add ts) (fun u hu => ?_) hfault
    (fun t ht => ?_) hconsistent hunreserved
  · exact Facts.holds_foldl_add_iff.mpr (.inl hu)
  · exact Facts.holds_foldl_add_iff.mpr (.inr ⟨t, ht, .inl (.refl t)⟩)

/-- An accepted list leaves facts that are as strict as with all of it
recorded. -/
lemma asStrict_tellAll (hs : s.facts.Declares) (hts : s.Accepts ts) :
    (s.tellAll ts).facts.AsStrict (ts.foldl Facts.add s.facts) := by
  have hholds : ∀ u, (s.tellAll ts).facts.holds u ↔
      (ts.foldl Facts.add s.facts).holds u := fun u => by
    rw [holds_tellAll_iff hs hts, Facts.holds_foldl_add_iff]
  exact ⟨Facts.Within.milder fun u => (hholds u).mp,
    Facts.Within.milder fun u => (hholds u).mpr⟩

/-- If no pair of a group is rejected, then neither is the group. -/
lemma Guarded.not_rejects_allDifferent (hs : s.Guarded) (hmembers : members ≠ [])
    (hpairs : pairs.PairsUp members)
    (hnone : ∀ p ∈ pairs, ¬ ∃ c, s.judge (.differentFrom p.1 p.2) = .rejected c) :
    ¬ ∃ c, s.judge (.allDifferent members) = .rejected c := by
  rw [hs.rejects_allDifferent_iff hmembers]
  rintro ⟨a, ha, b, hb, hne, hsame⟩
  rcases Edges.mem_both.mp (hpairs.complete a ha b hb hne) with hab | hba
  · exact hnone (a, b) hab ((hs.rejects_differentFrom_iff hne).mpr hsame)
  · rw [Facts.isSame_iff, Facts.mem_equals_comm, ← Facts.isSame_iff] at hsame
    exact hnone (b, a) hba ((hs.rejects_differentFrom_iff hne.symm).mpr hsame)

/-- If no pair of a group is rejected, then the group and its pairs, one after the
other, are accepted. -/
lemma Guarded.accepts_group_and_pairs (hs : s.Guarded) (hmembers : members ≠ [])
    (hpairs : pairs.PairsUp members)
    (hnone : ∀ p ∈ pairs, ¬ ∃ c, s.judge (.differentFrom p.1 p.2) = .rejected c) :
    s.Accepts [.allDifferent members] ∧
      s.Accepts (pairs.map fun p => .differentFrom p.1 p.2) := by
  have hgroup := hs.not_rejects_allDifferent hmembers hpairs hnone
  have hfault : (Statement.allDifferent members).fault? = none := if_neg hmembers
  have hfaults : ∀ p ∈ pairs, (Statement.differentFrom p.1 p.2).fault? = none :=
    fun p hp => if_neg (hpairs.distinct p.1 p.2 hp).2.2
  have hconsistent : (s.facts.add (.allDifferent members)).Consistent := by
    rw [hs.rejects_iff] at hgroup
    simpa [hfault] using hgroup
  constructor
  · exact accepts_of_foldl hs.declares (by simpa using hfault) (fun _ => hconsistent)
      (by simp [Unreserved])
  · refine accepts_of_foldl hs.declares (List.forall_mem_map.mpr hfaults)
      (fun _ => ?_) (by simp [Unreserved])
    exact (Facts.asStrict_add_pairs hpairs).consistent_iff.mp hconsistent

/-- A store with a group and one with its pairs are parallel. -/
lemma Guarded.group_parallel_pairs (hs : s.Guarded) (hpairs : pairs.PairsUp members)
    (hgroup : s.Accepts [.allDifferent members])
    (hall : s.Accepts (pairs.map fun p => .differentFrom p.1 p.2)) :
    (s.tellAll [.allDifferent members]).Parallel
      (s.tellAll (pairs.map fun p => .differentFrom p.1 p.2)) where
  left := hs.run _
  right := hs.run _
  config := (config_run s _).trans (config_run s _).symm
  facts := (asStrict_tellAll hs.declares hgroup).trans
    ((Facts.asStrict_add_pairs hpairs).trans (asStrict_tellAll hs.declares hall).symm)

/-- **Groups are pairs**: after every run of a protected store a group is
rejected just if one of its pairs is. If none is, the group is accepted, and so
are the pairs, in whatever order. The store with the group and the store with
the pairs go on alike, whatever they are told: the same individuals are
different, the same statements are rejected, and the same becomes of every
equality. -/
theorem run_group_is_pairs {config : Config} (hprotection : config.protection = true)
    (cs : List Command) (hmembers : members ≠ []) :
    let s := run { config } cs
    ((∃ c, s.judge (.allDifferent members) = .rejected c) ↔
      ∃ a ∈ members, ∃ b ∈ members, a ≠ b ∧
        ∃ c, s.judge (.differentFrom a b) = .rejected c) ∧
    ∀ pairs : Edges Individual, pairs.PairsUp members →
      (∀ p ∈ pairs, ¬ ∃ c, s.judge (.differentFrom p.1 p.2) = .rejected c) →
      let grouped := s.tellAll [.allDifferent members]
      let paired := s.tellAll (pairs.map fun p => .differentFrom p.1 p.2)
      s.Accepts [.allDifferent members] ∧
      s.Accepts (pairs.map fun p => .differentFrom p.1 p.2) ∧
      ∀ ds : List Command,
        (∀ a b, b ∈ (grouped.run ds).facts.different a ↔
          b ∈ (paired.run ds).facts.different a) ∧
        (∀ t, (∃ c, (grouped.run ds).judge t = .rejected c) ↔
          ∃ c, (paired.run ds).judge t = .rejected c) ∧
        ∀ a b, (grouped.run ds).judge (.sameAs a b) =
          (paired.run ds).judge (.sameAs a b) := by
  intro s
  have hs : s.Guarded := guarded_run hprotection cs
  constructor
  · rw [hs.rejects_allDifferent_iff hmembers]
    refine exists_congr fun a => and_congr_right fun _ => exists_congr fun b =>
      and_congr_right fun _ => and_congr_right fun hne => ?_
    rw [hs.rejects_differentFrom_iff hne]
  · intro pairs hpairs hnone grouped paired
    obtain ⟨hgroup, hall⟩ := hs.accepts_group_and_pairs hmembers hpairs hnone
    refine ⟨hgroup, hall, fun ds => ?_⟩
    have hlater := (hs.group_parallel_pairs hpairs hgroup hall).run ds
    exact ⟨fun a b => hlater.facts.mem_different_iff, fun t => hlater.rejects_iff,
      hlater.judge_sameAs_eq⟩

/-- Three persons are told apart in a group or by pairs; then Lovelace, who is
Ada, cannot be made one with Babbage, who is Charles. -/
theorem run_group_is_pairs_of_persons :
    let ada : Individual := .iri ⟨"e:ada"⟩
    let lovelace : Individual := .iri ⟨"e:lovelace"⟩
    let byron : Individual := .iri ⟨"e:byron"⟩
    let charles : Individual := .iri ⟨"e:charles"⟩
    let babbage : Individual := .iri ⟨"e:babbage"⟩
    let members := [ada, byron, charles]
    let pairs : Edges Individual := [(ada, byron), (charles, ada), (byron, charles)]
    let s := run {} [.tell (.sameAs ada lovelace)]
    let grouped := s.tellAll [.allDifferent members]
    let paired := s.tellAll (pairs.map fun p => .differentFrom p.1 p.2)
    let later : List Command := [.tell (.sameAs charles babbage)]
    ({} : Config).protection = true ∧ members ≠ [] ∧ pairs.PairsUp members ∧
      (∀ p ∈ pairs, ¬ ∃ c, s.judge (.differentFrom p.1 p.2) = .rejected c) ∧
      (∃ c, (paired.run later).judge (.sameAs lovelace babbage) = .rejected c) ∧
      ∃ c, (grouped.run later).judge (.sameAs lovelace babbage) = .rejected c := by
  intro ada lovelace byron charles babbage members pairs s grouped paired later
  have hpairs : pairs.PairsUp members := by
    constructor
    · have hall : ∀ p ∈ pairs, p.1 ∈ members ∧ p.2 ∈ members ∧ p.1 ≠ p.2 := by decide
      exact fun a b hab => hall (a, b) hab
    · decide
  have hnone : ∀ p ∈ pairs, ¬ ∃ c, s.judge (.differentFrom p.1 p.2) = .rejected c := by
    have happlied : ∀ p ∈ pairs, s.judge (.differentFrom p.1 p.2) = .applied := by
      decide
    rintro p hp ⟨c, hc⟩
    rw [happlied p hp] at hc
    cases hc
  have hrejected : ∃ c, (paired.run later).judge (.sameAs lovelace babbage) =
      .rejected c := ⟨.knownDifferent lovelace babbage, by decide⟩
  have hprotection : ({} : Config).protection = true := rfl
  have hmembers : members ≠ [] := by decide
  obtain ⟨_, hsame⟩ :=
    run_group_is_pairs hprotection [.tell (.sameAs ada lovelace)] hmembers
  obtain ⟨_, _, hlater⟩ := hsame pairs hpairs hnone
  exact ⟨hprotection, hmembers, hpairs, hnone, hrejected,
    ((hlater later).2.1 (.sameAs lovelace babbage)).mpr hrejected⟩

end Store

end Ontology
