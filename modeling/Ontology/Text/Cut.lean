/-
Cutting a text at the first occurrence of a mark.

* `cut`: what precedes the mark, and what follows it if it is there.
* `cut_eq_some_iff`: the parts are those around a mark that the first part
  does not hold; `cut_eq_none_iff`: without a mark the text stays whole.
-/
namespace Ontology.Text

/-- What precedes the first mark, and what follows it if it is there. -/
def cut (mark : Char) : List Char → List Char × Option (List Char)
  | [] => ([], none)
  | c :: cs =>
    if c = mark then ([], some cs)
    else (c :: (cut mark cs).1, (cut mark cs).2)

/-- A mark is found when the text is made of the two parts around it and the
first part is free of marks. -/
theorem cut_eq_some_iff {mark : Char} {cs before after : List Char} :
    cut mark cs = (before, some after) ↔
      cs = before ++ mark :: after ∧ mark ∉ before := by
  induction cs generalizing before with
  | nil => simp [cut]
  | cons c cs ih =>
    by_cases h : c = mark
    · subst h
      cases before with
      | nil => simp [cut, eq_comm]
      | cons b bs => simp +contextual [cut, eq_comm]
    · cases before with
      | nil => simp [cut, h]
      | cons b bs =>
        have := @ih bs
        simp only [Prod.ext_iff] at this
        simp only [cut, h, if_false, Prod.ext_iff, List.cons.injEq,
          List.cons_append, List.mem_cons, not_or]
        grind

/-- No mark is found when there is none, and then the text stays whole. -/
theorem cut_eq_none_iff {mark : Char} {cs before : List Char} :
    cut mark cs = (before, none) ↔ before = cs ∧ mark ∉ cs := by
  induction cs generalizing before with
  | nil => simp [cut, eq_comm]
  | cons c cs ih =>
    by_cases h : c = mark
    · subst h
      simp [cut]
    · cases before with
      | nil => simp [cut, h]
      | cons b bs =>
        have := @ih bs
        simp only [Prod.ext_iff] at this
        simp only [cut, h, if_false, Prod.ext_iff, List.cons.injEq,
          List.mem_cons, not_or]
        grind

end Ontology.Text
