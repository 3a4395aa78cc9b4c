/-
Restrictions that count values, and those that do not.

* `Reasoner.finds_count_exactly`: **a count is exact**: whom a restriction on the
  number of values finds, its trivial bounds included.
* `Finds.mem_some_iff_mem_atLeast`, `mem_atMost_iff_notMem_some`,
  `mem_atLeast_iff_mem_self`, `mem_all_iff_exists_exactly`: each constraint that
  does not count, through those that do.
* `Reasoner.restrictions_agree_with_counts`: hence **both families of
  restrictions agree**.
-/
import Ontology.Proofs.Membership.Restrictions
import Ontology.Proofs.Membership.Roles

namespace Ontology.Reasoner

variable {r : Reasoner} {role : Role} {k : Count} {on : Option ClassName}
  {d : ClassName} {is js ks : List Individual} {i : Individual}

/-! ### Counts -/

/-- **A count is exact**: a restriction on the number of values finds those
known individuals whose number of values lies within the bounds. The values of
an individual are counted once each; if a class is given, those in it are
counted, and it has members unless the bounds are trivial. An individual without
values has none to count. Where the bounds are trivial, the restriction finds
all that are known, which are those it would find by counting. -/
theorem finds_count_exactly (h : r.Finds role (.count k on) is) :
    (on = none → ∀ i, i ∈ is ↔
      i ∈ r.facts.individuals ∧ k.Encloses (r.values role i).ncard) ∧
    (∀ d, on = some d → (k.trivial = false → ∃ js, r.members d = .ok js) ∧
      ∀ js, r.members d = .ok js → ∀ i, i ∈ is ↔
        i ∈ r.facts.individuals ∧
          k.Encloses (r.values role i ∩ valuesIn d {j | j ∈ js}).ncard) ∧
    (∀ i, r.values role i = ∅ →
      (i ∈ is ↔ i ∈ r.facts.individuals ∧ k.Encloses 0)) ∧
    (k.trivial = true → ∀ i, (i ∈ is ↔ i ∈ r.facts.individuals) ∧
      ∀ x filler, x.role = role → x.constraint = .count k on →
        (i ∈ is ↔ i ∈ r.restricted x filler)) := by
  have hknown : k.trivial = true → ∀ i, i ∈ is ↔ i ∈ r.facts.individuals :=
    fun hk i => h.mem_iff_of_trivial hk
  refine ⟨?_, ?_, fun i hi => ?_, fun hk i => ⟨hknown hk i, ?_⟩⟩
  · rintro rfl i
    simpa using h.mem_count_iff (i := i) .all
  · rintro d rfl
    refine ⟨fun hk => ?_, fun js hjs i => h.mem_count_iff (.ofClass hjs)⟩
    obtain ⟨_, hA⟩ := h.exists_asks hk
    cases hA with
    | ofClass hjs => exact ⟨_, hjs⟩
  · -- with trivial bounds the class may have no members to count values in
    by_cases hk : k.trivial = true
    · rw [hknown hk i, and_iff_left (Count.encloses_of_trivial hk 0)]
    · obtain ⟨A, hA⟩ := h.exists_asks (Bool.eq_false_iff.mpr hk)
      rw [h.mem_count_iff hA, hi, Set.empty_inter, Set.ncard_empty]
  · intro x filler _ hx
    have htrivial : x.constraint.trivial = true := by rw [hx]; exact hk
    rw [hknown hk i, mem_restricted_iff, satisfies_iff_of_trivial htrivial]

/-- Ada quotes Byron and cites him, which makes one poet that she cites, and
Charles cites nobody. All three are among those who cite any number of poets. -/
theorem finds_count_exactly_of_citations :
    let ada : Individual := .iri ⟨"e:ada"⟩
    let byron : Individual := .iri ⟨"e:byron"⟩
    let charles : Individual := .iri ⟨"e:charles"⟩
    let poet : ClassName := .iri ⟨"e:Poet"⟩
    let pupil : ClassName := .iri ⟨"e:Pupil"⟩
    let guest : ClassName := .iri ⟨"e:Guest"⟩
    let cites : Property := ⟨"e:cites"⟩
    let quotes : Property := ⟨"e:quotes"⟩
    let r : Reasoner := {
      facts := (Store.run {} [.tell (.instanceOf byron poet),
        .tell (.assertion ⟨.positive, ada, quotes, .node byron⟩),
        .tell (.assertion ⟨.positive, ada, cites, .node byron⟩),
        .tell (.assertion ⟨.positive, ada, cites, .node charles⟩)]).facts
      catalog := Terminology.catalog [
        .subProperty quotes cites,
        .define pupil (.restriction ⟨.direct cites, .count (.exactly 1) poet,
          by simp [Constraint.Ordered, Constraint.count?, Count.min?, Count.max?]⟩),
        .define guest (.restriction ⟨.direct cites, .count (.atLeast 0) poet,
          by simp [Constraint.Ordered, Constraint.count?, Count.max?]⟩)] }
    r.Finds (.direct cites) (.count (.exactly 1) poet) [ada] ∧
      (∃ js, r.members poet = .ok js ∧
        (r.values (.direct cites) ada ∩ valuesIn poet {j | j ∈ js}).ncard = 1) ∧
      r.values (.direct cites) charles = ∅ ∧
      (charles ∈ [ada] ↔
        charles ∈ r.facts.individuals ∧ (Count.exactly 1).Encloses 0) ∧
      r.Finds (.direct cites) (.count (.atLeast 0) poet) [byron, ada, charles] ∧
      (Count.atLeast 0).trivial = true ∧
      ∀ i, i ∈ [byron, ada, charles] ↔ i ∈ r.facts.individuals := by
  intro ada byron charles poet pupil guest cites quotes r
  have hpupil : r.Finds (.direct cites) (.count (.exactly 1) poet) [ada] :=
    ⟨pupil, _, rfl, rfl, rfl, by decide +kernel⟩
  have hguest : r.Finds (.direct cites) (.count (.atLeast 0) poet)
      [byron, ada, charles] := ⟨guest, _, rfl, rfl, rfl, by decide +kernel⟩
  have hnone : r.values (.direct cites) charles = ∅ := by
    have hsubject : charles ∉ (r.roleLinks (.direct cites)).subjects := by
      decide +kernel
    rw [Links.mem_subjects, not_exists] at hsubject
    exact Set.eq_empty_iff_forall_notMem.mpr hsubject
  obtain ⟨_, hcount, hempty, _⟩ := finds_count_exactly hpupil
  obtain ⟨_, _, _, htrivial⟩ := finds_count_exactly hguest
  obtain ⟨hmembers, hmem⟩ := hcount poet rfl
  obtain ⟨js, hjs⟩ := hmembers (by decide)
  have hada := ((hmem js hjs ada).mp (List.mem_singleton_self ada)).2
  rw [Count.encloses_exactly_iff] at hada
  have hone : (1 : UInt32).toNat = 1 := rfl
  exact ⟨hpupil, ⟨js, hjs, by omega⟩, hnone, hempty charles hnone, hguest,
    by decide, fun i => (htrivial (by decide) i).1⟩

/-! ### Other constraints, by counting -/

/-- Every number below the size of the words is that of a word. -/
lemma exists_toNat_eq {n : ℕ} (hn : n < 2 ^ 32) : ∃ w : UInt32, w.toNat = n :=
  ⟨.ofNat n, UInt32.toNat_ofNat_of_lt' hn⟩

/-- An individual has one of some values just if it has at least one of them. -/
lemma one_le_ncard_iff (role : Role) (i : Individual) (A : Set Rdf.Term) :
    1 ≤ (r.values role i ∩ A).ncard ↔ (r.values role i ∩ A).Nonempty :=
  Set.ncard_pos ((finite_values role i).inter_of_left A)

namespace Finds

/-- Some values are at least one. -/
lemma mem_some_iff_mem_atLeast (hr : r.facts.Declares)
    (his : r.Finds role (.someValuesFrom d) is)
    (hjs : r.Finds role (.count (.atLeast 1) (some d)) js) : i ∈ is ↔ i ∈ js := by
  obtain ⟨A, hA⟩ := his.exists_asks rfl
  rw [his.mem_some_iff hA, hjs.mem_count_iff hA, Count.encloses_atLeast_iff,
    ← one_le_ncard_iff]
  refine iff_and_self.mpr fun hcount => ?_
  obtain ⟨v, hv, _⟩ := (one_le_ncard_iff role i A).mp hcount
  exact mem_individuals_of_mem_values hr hv

/-- No values are at most none. -/
lemma mem_atMost_iff_notMem_some (his : r.Finds role (.someValuesFrom d) is)
    (hjs : r.Finds role (.count (.atMost 0) (some d)) js) :
    i ∈ js ↔ i ∈ r.facts.individuals ∧ i ∉ is := by
  obtain ⟨A, hA⟩ := his.exists_asks rfl
  rw [his.mem_some_iff hA, hjs.mem_count_iff hA, Count.encloses_atMost_iff,
    ← one_le_ncard_iff]
  refine and_congr_right fun _ => ?_
  simp

/-- Individuals with a value have themselves as one, or have not. -/
lemma mem_atLeast_iff_mem_self (hr : r.facts.Declares)
    (his : r.Finds role (.hasSelf true) is) (hjs : r.Finds role (.hasSelf false) js)
    (hks : r.Finds role (.count (.atLeast 1) none) ks) :
    i ∈ ks ↔ i ∈ is ∨ i ∈ js := by
  have hcount : 1 ≤ (r.values role i ∩ Set.univ).ncard ↔
      (r.values role i).Nonempty := by
    rw [one_le_ncard_iff, Set.inter_univ]
  rw [hks.mem_count_iff .all, his.mem_self_iff, hjs.mem_noSelf_iff,
    Count.encloses_atLeast_iff]
  constructor
  · rintro ⟨_, hone⟩
    by_cases hself : .node i ∈ r.values role i
    · exact .inl hself
    · exact .inr ⟨hcount.mp hone, hself⟩
  · intro h
    obtain ⟨v, hv⟩ : (r.values role i).Nonempty := h.elim (fun h => ⟨_, h⟩) And.left
    exact ⟨mem_individuals_of_mem_values hr hv, hcount.mpr ⟨v, hv⟩⟩

/-- If as many values are in a class as there are, all are in it. -/
lemma mem_all_of_exactly {n : UInt32} (his : r.Finds role (.allValuesFrom d) is)
    (hfew : (r.values role i).ncard < 2 ^ 32 - 1) (hn : 1 ≤ n)
    (hjs : r.Finds role (.count (.exactly n) none) js) (hi : i ∈ js)
    (hks : r.Finds role (.count (.exactly n) (some d)) ks) (hi' : i ∈ ks) :
    i ∈ is := by
  obtain ⟨A, hA⟩ := his.exists_asks rfl
  obtain ⟨-, hall⟩ := (hjs.mem_count_iff .all).mp hi
  obtain ⟨-, hsome⟩ := (hks.mem_count_iff hA).mp hi'
  rw [Set.inter_univ, Count.encloses_exactly_iff] at hall
  rw [Count.encloses_exactly_iff] at hsome
  have hpos : 1 ≤ n.toNat := hn
  -- the number is no more than the greatest word, so it is not cut off
  have hfull : (r.values role i).ncard ≤ (r.values role i ∩ A).ncard := by omega
  have hinter : r.values role i ∩ A = r.values role i :=
    Set.eq_of_subset_of_ncard_le Set.inter_subset_left hfull (finite_values role i)
  refine (his.mem_all_iff hA).mpr ⟨?_, Set.inter_eq_left.mp hinter⟩
  exact (Set.ncard_pos (finite_values role i)).mp (by omega)

/-- If all values are in a class, as many are in it as there are. -/
lemma mem_exactly_of_mem_all {n : UInt32} (hr : r.facts.Declares)
    (his : r.Finds role (.allValuesFrom d) is) (hi : i ∈ is)
    (hn : n.toNat = (r.values role i).ncard) :
    (∀ js, r.Finds role (.count (.exactly n) none) js → i ∈ js) ∧
      ∀ ks, r.Finds role (.count (.exactly n) (some d)) ks → i ∈ ks := by
  obtain ⟨A, hA⟩ := his.exists_asks rfl
  obtain ⟨⟨v, hv⟩, hsub⟩ := (his.mem_all_iff hA).mp hi
  have hknown : i ∈ r.facts.individuals := mem_individuals_of_mem_values hr hv
  have henclosed : (Count.exactly n).Encloses (r.values role i).ncard :=
    Count.encloses_exactly_iff.mpr ⟨hn.le, .inr hn.ge⟩
  refine ⟨fun js hjs => (hjs.mem_count_iff .all).mpr ⟨hknown, ?_⟩,
    fun ks hks => (hks.mem_count_iff hA).mpr ⟨hknown, ?_⟩⟩
  · rwa [Set.inter_univ]
  · rwa [Set.inter_eq_left.mpr hsub]

/-- Unless there are too many values to count, all are in a class, and there is
one, just if some positive number is that of the values and that of the values in
the class. -/
lemma mem_all_iff_exists_exactly (hr : r.facts.Declares)
    (his : r.Finds role (.allValuesFrom d) is)
    (hfew : (r.values role i).ncard < 2 ^ 32 - 1)
    (hfound : ∀ n : UInt32, 1 ≤ n → n.toNat = (r.values role i).ncard →
      (∃ js, r.Finds role (.count (.exactly n) none) js) ∧
        ∃ ks, r.Finds role (.count (.exactly n) (some d)) ks) :
    i ∈ is ↔ ∃ n : UInt32, 1 ≤ n ∧
      (∃ js, r.Finds role (.count (.exactly n) none) js ∧ i ∈ js) ∧
        ∃ ks, r.Finds role (.count (.exactly n) (some d)) ks ∧ i ∈ ks := by
  constructor
  · intro hi
    -- the number of all values is the one
    obtain ⟨n, hn⟩ : ∃ n : UInt32, n.toNat = (r.values role i).ncard :=
      exists_toNat_eq (by omega)
    obtain ⟨A, hA⟩ := his.exists_asks rfl
    have hpos : 0 < (r.values role i).ncard :=
      (Set.ncard_pos (finite_values role i)).mpr ((his.mem_all_iff hA).mp hi).1
    have hone : 1 ≤ n := UInt32.le_iff_toNat_le.mpr (hn ▸ hpos)
    obtain ⟨⟨js, hjs⟩, ks, hks⟩ := hfound n hone hn
    obtain ⟨hall, hsome⟩ := his.mem_exactly_of_mem_all hr hi hn
    exact ⟨n, hone, ⟨js, hjs, hall js hjs⟩, ks, hks, hsome ks hks⟩
  · rintro ⟨n, hn, ⟨js, hjs, hi⟩, ks, hks, hi'⟩
    exact his.mem_all_of_exactly hfew hn hjs hi hks hi'

end Finds

/-- **Both families of restrictions agree**: on any role, those with some value in
a class are those with at least one, and among the known individuals all others
are those with at most none; to have oneself as a value and to have other values
alone exclude each other, and together are to have at least one value. Unless
there are too many values to count, all values are in a class, and there is one,
just if some positive number is that of the values and that of the values in the
class. -/
theorem restrictions_agree_with_counts (r : Reasoner) (hr : r.facts.Reached)
    (role : Role) (d : ClassName) :
    (∀ is js, r.Finds role (.someValuesFrom d) is →
      r.Finds role (.count (.atLeast 1) (some d)) js → ∀ i, i ∈ is ↔ i ∈ js) ∧
    (∀ is js, r.Finds role (.someValuesFrom d) is →
      r.Finds role (.count (.atMost 0) (some d)) js →
        ∀ i, i ∈ js ↔ i ∈ r.facts.individuals ∧ i ∉ is) ∧
    (∀ is js ks, r.Finds role (.hasSelf true) is → r.Finds role (.hasSelf false) js →
      r.Finds role (.count (.atLeast 1) none) ks →
        (∀ i, ¬ (i ∈ is ∧ i ∈ js)) ∧ ∀ i, i ∈ ks ↔ i ∈ is ∨ i ∈ js) ∧
    ∀ is i, r.Finds role (.allValuesFrom d) is →
      (r.values role i).ncard < 2 ^ 32 - 1 →
      (∀ n : UInt32, 1 ≤ n → n.toNat = (r.values role i).ncard →
        (∃ js, r.Finds role (.count (.exactly n) none) js) ∧
          ∃ ks, r.Finds role (.count (.exactly n) (some d)) ks) →
      (i ∈ is ↔ ∃ n : UInt32, 1 ≤ n ∧
        (∃ js, r.Finds role (.count (.exactly n) none) js ∧ i ∈ js) ∧
          ∃ ks, r.Finds role (.count (.exactly n) (some d)) ks ∧ i ∈ ks) := by
  have hknown : r.facts.Declares := hr.declares
  refine ⟨fun is js his hjs i => his.mem_some_iff_mem_atLeast hknown hjs,
    fun is js his hjs i => his.mem_atMost_iff_notMem_some hjs,
    fun is js ks his hjs hks => ⟨fun i => ?_, fun i =>
      his.mem_atLeast_iff_mem_self hknown hjs hks⟩,
    fun is i his => his.mem_all_iff_exists_exactly hknown⟩
  rw [his.mem_self_iff, hjs.mem_noSelf_iff]
  exact fun ⟨hself, _, hnoSelf⟩ => hnoSelf hself

/-- Ada reads two poets, Byron himself and Ada, and Charles nothing. -/
theorem restrictions_agree_with_counts_of_readers :
    let ada : Individual := .iri ⟨"e:ada"⟩
    let byron : Individual := .iri ⟨"e:byron"⟩
    let shelley : Individual := .iri ⟨"e:shelley"⟩
    let charles : Individual := .iri ⟨"e:charles"⟩
    let poet : ClassName := .iri ⟨"e:Poet"⟩
    let named (n : String) : ClassName := .iri ⟨n⟩
    let reads : Role := .direct ⟨"e:reads"⟩
    let cs : List Command := [
      .tell (.instanceOf byron poet), .tell (.instanceOf shelley poet),
      .tell (.assertion ⟨.positive, ada, ⟨"e:reads"⟩, .node byron⟩),
      .tell (.assertion ⟨.positive, ada, ⟨"e:reads"⟩, .node shelley⟩),
      .tell (.assertion ⟨.positive, byron, ⟨"e:reads"⟩, .node byron⟩),
      .tell (.assertion ⟨.positive, byron, ⟨"e:reads"⟩, .node ada⟩),
      .tell (.individual charles)]
    let r : Reasoner := {
      facts := (Store.run {} cs).facts
      catalog := Terminology.catalog [
        .define (named "e:Some") (.restriction ⟨reads, .someValuesFrom poet,
          by simp [Constraint.Ordered, Constraint.count?]⟩),
        .define (named "e:All") (.restriction ⟨reads, .allValuesFrom poet,
          by simp [Constraint.Ordered, Constraint.count?]⟩),
        .define (named "e:Self") (.restriction ⟨reads, .hasSelf true,
          by simp [Constraint.Ordered, Constraint.count?]⟩),
        .define (named "e:NoSelf") (.restriction ⟨reads, .hasSelf false,
          by simp [Constraint.Ordered, Constraint.count?]⟩),
        .define (named "e:Any") (.restriction ⟨reads, .count (.atLeast 1) none,
          by simp [Constraint.Ordered, Constraint.count?, Count.max?]⟩),
        .define (named "e:One") (.restriction ⟨reads, .count (.atLeast 1) poet,
          by simp [Constraint.Ordered, Constraint.count?, Count.max?]⟩),
        .define (named "e:No") (.restriction ⟨reads, .count (.atMost 0) poet,
          by simp [Constraint.Ordered, Constraint.count?, Count.min?]⟩),
        .define (named "e:Two") (.restriction ⟨reads, .count (.exactly 2) none,
          by simp [Constraint.Ordered, Constraint.count?, Count.min?, Count.max?]⟩),
        .define (named "e:Both") (.restriction ⟨reads, .count (.exactly 2) poet,
          by simp [Constraint.Ordered, Constraint.count?, Count.min?,
            Count.max?]⟩)] }
    r.facts.Reached ∧
      (r.Finds reads (.someValuesFrom poet) [ada, byron] ∧
        r.Finds reads (.count (.atLeast 1) poet) [byron, ada] ∧
        ∀ i, i ∈ [ada, byron] ↔ i ∈ [byron, ada]) ∧
      (r.Finds reads (.count (.atMost 0) poet) [shelley, charles] ∧
        ∀ i, i ∈ [shelley, charles] ↔ i ∈ r.facts.individuals ∧ i ∉ [ada, byron]) ∧
      (r.Finds reads (.hasSelf true) [byron] ∧ r.Finds reads (.hasSelf false) [ada] ∧
        r.Finds reads (.count (.atLeast 1) none) [byron, ada] ∧
        (∀ i, ¬ (i ∈ [byron] ∧ i ∈ [ada])) ∧
        ∀ i, i ∈ [byron, ada] ↔ i ∈ [byron] ∨ i ∈ [ada]) ∧
      r.Finds reads (.allValuesFrom poet) [ada] ∧
        (r.values reads ada).ncard = 2 ∧
        ∃ n : UInt32, 1 ≤ n ∧
          (∃ js, r.Finds reads (.count (.exactly n) none) js ∧ ada ∈ js) ∧
            ∃ ks, r.Finds reads (.count (.exactly n) poet) ks ∧ ada ∈ ks := by
  intro ada byron shelley charles poet named reads cs r
  have hreached : r.facts.Reached := by
    dsimp only [r]
    exact ⟨{}, cs, rfl⟩
  have hsome : r.Finds reads (.someValuesFrom poet) [ada, byron] :=
    ⟨named "e:Some", _, rfl, rfl, rfl, by decide +kernel⟩
  have hone : r.Finds reads (.count (.atLeast 1) poet) [byron, ada] :=
    ⟨named "e:One", _, rfl, rfl, rfl, by decide +kernel⟩
  have hno : r.Finds reads (.count (.atMost 0) poet) [shelley, charles] :=
    ⟨named "e:No", _, rfl, rfl, rfl, by decide +kernel⟩
  have hself : r.Finds reads (.hasSelf true) [byron] :=
    ⟨named "e:Self", _, rfl, rfl, rfl, by decide +kernel⟩
  have hnoSelf : r.Finds reads (.hasSelf false) [ada] :=
    ⟨named "e:NoSelf", _, rfl, rfl, rfl, by decide +kernel⟩
  have hany : r.Finds reads (.count (.atLeast 1) none) [byron, ada] :=
    ⟨named "e:Any", _, rfl, rfl, rfl, by decide +kernel⟩
  have hall : r.Finds reads (.allValuesFrom poet) [ada] :=
    ⟨named "e:All", _, rfl, rfl, rfl, by decide +kernel⟩
  have htwo : r.Finds reads (.count (.exactly 2) none) [byron, ada] :=
    ⟨named "e:Two", _, rfl, rfl, rfl, by decide +kernel⟩
  have hboth : r.Finds reads (.count (.exactly 2) poet) [ada] :=
    ⟨named "e:Both", _, rfl, rfl, rfl, by decide +kernel⟩
  have hcount : (r.values reads ada).ncard = 2 := by
    have hvalues := ncard_values (r := r) reads ada fun _ => true
    rw [show {v : Rdf.Term | true} = Set.univ by simp, Set.inter_univ] at hvalues
    rw [hvalues]
    decide +kernel
  obtain ⟨hleast, hmost, hselves, hevery⟩ :=
    restrictions_agree_with_counts r hreached reads poet
  obtain ⟨hdisjoint, hunion⟩ := hselves _ _ _ hself hnoSelf hany
  have hada := (hevery [ada] ada hall (by omega) fun n _ hn => by
    obtain rfl : n = 2 := UInt32.toNat_inj.mp (hn.trans hcount)
    exact ⟨⟨_, htwo⟩, _, hboth⟩).mp (List.mem_singleton_self ada)
  exact ⟨hreached, ⟨hsome, hone, hleast _ _ hsome hone⟩,
    ⟨hno, hmost _ _ hsome hno⟩, ⟨hself, hnoSelf, hany, hdisjoint, hunion⟩,
    hall, hcount, hada⟩

end Ontology.Reasoner
