import LanguageTheory.Proofs.Automaton.Determinism
import LanguageTheory.Proofs.Machine.Acceptance
import LanguageTheory.Proofs.Regular.Determinization

/-! The deterministic automaton that is made of a finite automaton. Its moves are in order of source and
symbol, so no two moves out of one state read the same symbol; its states are the sets that words lead
to; and what its machine accepts are the words of the given automaton. -/

namespace LanguageTheory

namespace Dfa

variable {d : Dfa} {label : StateId → Option String}

section

variable (hd : d.WellFormed) (hsymbol : ∀ symbol ∈ d.alphabet, ∃ c, symbol = SymbolId.ofChar c)
include hd hsymbol

theorem exists_label_toAutomaton {t : Transition} (ht : t ∈ (d.toAutomaton label).transitions) :
    ∃ m ∈ d.moves, ∃ c, m.transition = t ∧ m.symbol = SymbolId.ofChar c ∧ t.label = .finite [c] := by
  obtain ⟨m, hm, rfl⟩ := mem_transitions_toAutomaton.1 ht
  obtain ⟨c, hc⟩ := hsymbol _ (hd.symbol_mem m hm)
  refine ⟨m, hm, c, rfl, hc, ?_⟩
  rw [Move.transition, hc, SymbolId.toChar?_ofChar, Option.toList_some]

/-- Two transitions of the graph that overlap come from one move. -/
theorem isDeterministic_toAutomaton (label : StateId → Option String) :
    (d.toAutomaton label).isDeterministic = true := by
  rw [Automaton.isDeterministic_iff]
  intro s _
  have hnodup : ((d.toAutomaton label).transitionsFrom s).Nodup :=
    (hd.toAutomaton label).nodup_transitions.filter _
  refine hnodup.pairwise_of_forall_ne fun t ht u hu hne => ?_
  rw [← Bool.not_eq_true]
  intro hoverlaps
  obtain ⟨ht, hts⟩ := List.mem_filter.1 ht
  obtain ⟨hu, hus⟩ := List.mem_filter.1 hu
  obtain ⟨m, hm, c, rfl, hc, hlabel⟩ := exists_label_toAutomaton hd hsymbol ht
  obtain ⟨n, hn, e, rfl, he, hlabel'⟩ := exists_label_toAutomaton hd hsymbol hu
  rw [hlabel, hlabel', Label.overlaps_singleton] at hoverlaps
  have hsource : m.source = n.source := (beq_iff_eq.1 hts).trans (beq_iff_eq.1 hus).symm
  have hsymbols : m.symbol = n.symbol := by rw [hc, he, hoverlaps]
  have hmove := hd.tabulated.move?_eq_some_iff.2 hm
  rw [hsource, hsymbols, hd.tabulated.move?_eq_some_iff.2 hn] at hmove
  have htarget : n.target = m.target := Option.some.inj hmove
  apply hne
  rw [Move.transition, Move.transition, hsource, hsymbols, htarget]

end

end Dfa

namespace Automaton

variable {a : Automaton} {initial : StateId}

/-- Every finite automaton with an initial state has a deterministic automaton. The machine that runs it
accepts the words of the given automaton, each label is one symbol, no state has a choice, and some path
from the initial state leads to each state. -/
theorem toDeterministic_correct (ha : a.WellFormed) (hkind : a.kind = .finite)
    (hinitial : a.initial = some initial) :
    ∃ b, a.toDeterministic = .ok b ∧ b.language = a.language ∧
      (∀ config, Simulator.of b config = .ok ⟨b, config⟩ ∧
        ∀ w, Simulator.Accepts ⟨b, config⟩ w ↔ w ∈ a.language) ∧
      (∀ t ∈ b.transitions, ∃ c, t.label = .finite [c]) ∧ b.isDeterministic = true ∧
      ∀ s ∈ b.ids, b.Reachable s := by
  obtain ⟨d, label, hsubset, hd, hreachable⟩ := subsetDfa_spec ha hkind hinitial
  obtain ⟨start, hstart⟩ := hd.exists_start
  have hinitial' : (d.toAutomaton label).initial = some start := hstart
  have hlanguage : (d.toAutomaton label).language = a.language := by
    ext w
    rw [mem_language hinitial', Dfa.languageFrom_toAutomaton hd.wellFormed hd.symbol_eq,
      hd.language_eq start hstart]
  refine ⟨d.toAutomaton label, ?_, hlanguage, fun config => ⟨?_, fun w => ?_⟩, fun t ht => ?_, ?_, fun s hs => ?_⟩
  · rw [toDeterministic, hsubset]
    rfl
  · exact Simulator.of_eq_ok (hd.wellFormed.toAutomaton label) hinitial' config
  · rw [Simulator.accepts_iff_mem_language (d.kind_toAutomaton label), hlanguage]
  · obtain ⟨_, _, c, _, _, hlabel⟩ := Dfa.exists_label_toAutomaton hd.wellFormed hd.symbol_eq ht
    exact ⟨c, hlabel⟩
  · exact Dfa.isDeterministic_toAutomaton hd.wellFormed hd.symbol_eq label
  · rw [Dfa.ids_toAutomaton] at hs
    rw [Dfa.reachable_toAutomaton_iff hd.wellFormed hd.symbol_eq]
    exact hreachable s (List.mem_range.1 hs)

/-- A loop that reads nothing, a label of two symbols, and a gap in the ids where a state was removed. -/
def gapped : Automaton :=
  { ofLabels .finite [none, none, none] with
    states := (ofLabels .finite [none, none, none]).states.filter fun s => s.id ≠ 1
    initial := some 0
    finals := .ofList [2]
    transitions := [⟨0, 2, .finite ['a', 'b']⟩, ⟨2, 0, .finite []⟩, ⟨0, 2, .finite []⟩] }

theorem toDeterministic_correct_gapped :
    gapped.WellFormed ∧ gapped.kind = .finite ∧ gapped.initial = some 0 ∧
    ∃ b, gapped.toDeterministic = .ok b ∧ b.language = gapped.language ∧
      (∀ config, Simulator.of b config = .ok ⟨b, config⟩ ∧
        ∀ w, Simulator.Accepts ⟨b, config⟩ w ↔ w ∈ gapped.language) ∧
      (∀ t ∈ b.transitions, ∃ c, t.label = .finite [c]) ∧ b.isDeterministic = true ∧
      ∀ s ∈ b.ids, b.Reachable s :=
  ⟨by decide, rfl, rfl, toDeterministic_correct (by decide) rfl rfl⟩

end Automaton

end LanguageTheory
