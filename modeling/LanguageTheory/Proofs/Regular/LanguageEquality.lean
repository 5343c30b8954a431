import LanguageTheory.Proofs.Regular.Equivalence
import LanguageTheory.Proofs.Regular.MinimalAutomaton

/-! Comparing the minimal automata of two finite automata decides whether they accept the same words. -/

namespace LanguageTheory.Automaton

variable {a b : Automaton} {s t : StateId}

theorem minimalDfa_spec (ha : a.WellFormed) (hkind : a.kind = .finite) (hinitial : a.initial = some s) :
    ∃ d e, a.minimalDfa = .ok e ∧ Dfa.Represents d a ∧ e.Minimizes d := by
  obtain ⟨d, refined, ids, hdeterminize, hd, _⟩ := determinize_spec ha hkind hinitial
  obtain ⟨start, hstart⟩ := hd.exists_start
  rw [minimalDfa, hdeterminize]
  exact ⟨d, d.minimize.dfa, rfl, hd, Dfa.minimizes_minimize hd.wellFormed hstart⟩

theorem equivalent_of_language_eq (ha : a.WellFormed) (hakind : a.kind = .finite) (hs : a.initial = some s)
    (hb : b.WellFormed) (hbkind : b.kind = .finite) (ht : b.initial = some t) (h : a.language = b.language) :
    a.equivalent b = .ok true := by
  obtain ⟨d, m, hm, hd, hminimizes⟩ := minimalDfa_spec ha hakind hs
  obtain ⟨d', m', hm', hd', hminimizes'⟩ := minimalDfa_spec hb hbkind ht
  obtain ⟨i, hi, hlanguage⟩ := hminimizes.exists_start hd
  obtain ⟨j, hj, hlanguage'⟩ := hminimizes'.exists_start hd'
  have hwords : m.words i = m'.words j := hlanguage.trans (h.trans hlanguage'.symm)
  have hresidual := (Dfa.words_eq_iff hminimizes.wellFormed (hminimizes.symbol_eq hd) hminimizes'.wellFormed
    (hminimizes'.symbol_eq hd')).1 hwords
  have hanswer := (Dfa.equivalent_iff_residual_eq hminimizes.wellFormed hminimizes'.wellFormed
    hminimizes.residual_injective hminimizes'.residual_injective hi hj).2 hresidual
  rw [equivalent, hm, hm']
  exact congrArg Except.ok hanswer

/-- Two finite automata, each with an initial state, are found equivalent if and only if they accept
the same words. -/
theorem equivalent_correct (ha : a.WellFormed) (hakind : a.kind = .finite) (hs : a.initial = some s)
    (hb : b.WellFormed) (hbkind : b.kind = .finite) (ht : b.initial = some t) :
    (a.language = b.language → a.equivalent b = .ok true) ∧
      (a.language ≠ b.language → a.equivalent b = .ok false) := by
  obtain ⟨d, m, hm, hd, hminimizes⟩ := minimalDfa_spec ha hakind hs
  obtain ⟨d', m', hm', hd', hminimizes'⟩ := minimalDfa_spec hb hbkind ht
  obtain ⟨i, hi, hlanguage⟩ := hminimizes.exists_start hd
  obtain ⟨j, hj, hlanguage'⟩ := hminimizes'.exists_start hd'
  have hiff : m.equivalent m' = true ↔ a.language = b.language := by
    rw [Dfa.equivalent_iff_residual_eq hminimizes.wellFormed hminimizes'.wellFormed
      hminimizes.residual_injective hminimizes'.residual_injective hi hj, ← hlanguage, ← hlanguage']
    exact (Dfa.words_eq_iff hminimizes.wellFormed (hminimizes.symbol_eq hd) hminimizes'.wellFormed
      (hminimizes'.symbol_eq hd')).symm
  have hanswer : a.equivalent b = .ok (m.equivalent m') := by
    rw [equivalent, hm, hm']
    rfl
  rw [hanswer]
  constructor
  · intro h
    rw [hiff.2 h]
  · intro h
    rw [Bool.eq_false_iff.2 (mt hiff.1 h)]

/-- Every word `ab`, `abab`, … but written one symbol at a time, and with a state that leads nowhere. -/
def unrolled : Automaton :=
  { ofLabels .finite [none, none, none, none] with
    initial := some 0
    finals := .ofList [2]
    transitions := [⟨0, 1, .finite ['a']⟩, ⟨1, 2, .finite ['b']⟩, ⟨2, 1, .finite ['a']⟩,
      ⟨2, 3, .finite ['c']⟩] }

theorem equivalent_correct_unrolled :
    looping.WellFormed ∧ looping.kind = .finite ∧ looping.initial = some 0 ∧
    unrolled.WellFormed ∧ unrolled.kind = .finite ∧ unrolled.initial = some 0 ∧
    (looping.language = unrolled.language → looping.equivalent unrolled = .ok true) ∧
      (looping.language ≠ unrolled.language → looping.equivalent unrolled = .ok false) :=
  ⟨by decide, rfl, rfl, by decide, rfl, rfl,
    equivalent_correct (by decide) rfl rfl (by decide) rfl rfl⟩

end LanguageTheory.Automaton
