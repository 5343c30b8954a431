import LanguageTheory.Automaton.Analysis
import Mathlib.Data.List.Pairwise

/-! When an automaton counts as deterministic: no two moves out of one state overlap. Labels of one symbol
overlap only if they are equal. -/

namespace LanguageTheory

theorem Label.clash_eq_false_iff {labels : List Label} :
    Label.clash labels = false ↔ labels.Pairwise fun l l' => l.overlaps l' = false := by
  induction labels with
  | nil => simp [Label.clash]
  | cons l labels ih =>
      rw [Label.clash, Bool.or_eq_false_iff, List.any_eq_false, List.pairwise_cons, ih]
      simp only [Bool.not_eq_true]

theorem Label.overlaps_singleton {c d : Char} : (Label.finite [c]).overlaps (.finite [d]) = true ↔ c = d := by
  simp only [Label.overlaps, Word.comparable, List.isPrefixOf, Bool.and_true, Bool.or_eq_true, beq_iff_eq,
    eq_comm (a := d), or_self]

theorem Automaton.isDeterministic_iff {a : Automaton} : a.isDeterministic = true ↔
    ∀ s ∈ a.ids, (a.transitionsFrom s).Pairwise fun t u => t.label.overlaps u.label = false := by
  simp only [isDeterministic, nondeterministicStates, List.isEmpty_iff, List.filter_eq_nil_iff,
    Bool.not_eq_true, Label.clash_eq_false_iff, List.pairwise_map]

end LanguageTheory
