import LanguageTheory.Proofs.Regular.Dfa
import LanguageTheory.Proofs.Regular.Import

/-! A deterministic automaton as a graph. The states keep their numbers and each move becomes a
transition, so paths of the graph follow words, and what the graph accepts from a state is the residual
of the state. -/

namespace LanguageTheory

namespace Automaton

variable {a : Automaton}

theorem foldl_createLabeledState (a : Automaton) (labels : List (Option String)) :
    let b := labels.foldl (fun a label => (a.createLabeledState label .origin).2) a
    b.ids = a.ids ++ List.range' a.nextId labels.length ∧ b.nextId = a.nextId + labels.length ∧
      b.kind = a.kind ∧ b.initialStack = a.initialStack := by
  induction labels generalizing a with
  | nil => simp
  | cons label labels ih =>
      obtain ⟨hids, hnext, hkind, hstack⟩ := ih (a.createLabeledState label .origin).2
      refine ⟨?_, ?_, hkind, hstack⟩
      · rw [List.foldl_cons, hids, List.length_cons, List.range'_succ]
        simp [createLabeledState, ids]
      · rw [List.foldl_cons, hnext, List.length_cons]
        simp only [createLabeledState]
        lia

theorem ids_ofLabels (kind : Kind) (labels : List (Option String)) :
    (ofLabels kind labels).ids = List.range labels.length ∧
      (ofLabels kind labels).nextId = labels.length ∧ (ofLabels kind labels).kind = kind ∧
      (ofLabels kind labels).initialStack = [] := by
  obtain ⟨hids, hnext, hkind, hstack⟩ := foldl_createLabeledState (empty kind) labels
  refine ⟨?_, ?_, hkind, hstack⟩
  · rw [List.range_eq_range']
    exact hids
  · rw [ofLabels, hnext]
    exact Nat.zero_add _

theorem transitions_ofLabels (kind : Kind) (labels : List (Option String)) :
    (ofLabels kind labels).transitions = [] := by
  have hfoldl : ∀ a : Automaton,
      (labels.foldl (fun a label => (a.createLabeledState label .origin).2) a).transitions = a.transitions := by
    induction labels with
    | nil => exact fun a => rfl
    | cons label labels ih => exact fun a => ih _
  exact hfoldl (empty kind)

/-- States that are numbered from zero make a well-formed automaton with whatever stays among them. -/
theorem wellFormed_ofLabels {kind : Kind} {labels : List (Option String)} {initial : Option StateId}
    {finals : StateSet} {transitions : List Transition}
    (hinitial : ∀ s, initial = some s → s < labels.length) (hfinals : ∀ s ∈ finals, s < labels.length)
    (hendpoints : ∀ t ∈ transitions, t.source < labels.length ∧ t.target < labels.length)
    (hnodup : transitions.Nodup) (hkind : ∀ t ∈ transitions, t.kind = kind) :
    WellFormed { ofLabels kind labels with
      initial := initial
      finals := finals
      transitions := transitions } := by
  obtain ⟨hids, hnext, hkind', hstack⟩ := ids_ofLabels kind labels
  have hmem : ∀ s, s < labels.length → s ∈ (ofLabels kind labels).ids := by
    intro s hs
    rwa [hids, List.mem_range]
  refine ⟨?_, ?_, fun s hs => hmem s (hinitial s hs), fun s hs => hmem s (hfinals s hs), ?_, hnodup, ?_,
    fun _ => hstack⟩
  · show (ofLabels kind labels).ids.Nodup
    rw [hids]
    exact List.nodup_range
  · intro s hs
    change s ∈ (ofLabels kind labels).ids at hs
    show s < (ofLabels kind labels).nextId
    rwa [hnext, ← List.mem_range, ← hids]
  · intro t ht
    obtain ⟨hsource, htarget⟩ := hendpoints t ht
    exact ⟨hmem _ hsource, hmem _ htarget⟩
  · intro t ht
    exact (hkind t ht).trans hkind'.symm

end Automaton

namespace Dfa

variable {d e : Dfa} {label : StateId → Option String} {s t : StateId} {w : Word}

/-- The words of characters accepted from a state. -/
def words (d : Dfa) (s : StateId) : Language Char := fun w => w.map SymbolId.ofChar ∈ d.residual s

theorem mem_words : w ∈ d.words s ↔ w.map SymbolId.ofChar ∈ d.residual s := Iff.rfl

theorem words_of_follow (h : d.follow s (w.map SymbolId.ofChar) = some t) :
    d.words t = (d.words s).leftQuotient w := by
  ext v
  rw [Language.mem_leftQuotient, mem_words, mem_words, residual_of_follow h, Language.mem_leftQuotient,
    List.map_append]

theorem ids_toAutomaton (d : Dfa) (label : StateId → Option String) :
    (d.toAutomaton label).ids = List.range d.size := by
  have h := (Automaton.ids_ofLabels .finite ((List.range d.size).map label)).1
  rw [List.length_map, List.length_range] at h
  exact h

theorem size_toAutomaton (d : Dfa) (label : StateId → Option String) :
    (d.toAutomaton label).size = d.size := by
  have h := congrArg List.length (d.ids_toAutomaton label)
  rwa [Automaton.ids, List.length_map, List.length_range] at h

theorem kind_toAutomaton (d : Dfa) (label : StateId → Option String) : (d.toAutomaton label).kind = .finite :=
  (Automaton.ids_ofLabels .finite ((List.range d.size).map label)).2.2.1

theorem mem_transitions_toAutomaton {t : Transition} :
    t ∈ (d.toAutomaton label).transitions ↔ ∃ m ∈ d.moves, m.transition = t := by
  have h : t ∈ fresh [] (d.moves.map Move.transition) ↔ _ := mem_fresh
  rw [List.mem_map] at h
  exact h.trans ⟨fun h => h.1, fun h => ⟨h, List.not_mem_nil⟩⟩

/-- A graph of a well-formed automaton is well-formed. -/
theorem WellFormed.toAutomaton (hd : d.WellFormed) (label : StateId → Option String) :
    (d.toAutomaton label).WellFormed := by
  have hlength : ((List.range d.size).map label).length = d.size := by rw [List.length_map, List.length_range]
  apply Automaton.wellFormed_ofLabels
  · rw [hlength]
    exact hd.start_lt
  · rw [hlength]
    exact hd.finals_lt
  · intro t (ht : t ∈ (d.toAutomaton label).transitions)
    obtain ⟨m, hm, rfl⟩ := mem_transitions_toAutomaton.1 ht
    rw [hlength]
    exact ⟨hd.source_lt m hm, hd.target_lt m hm⟩
  · exact nodup_fresh _ _
  · intro t (ht : t ∈ (d.toAutomaton label).transitions)
    obtain ⟨m, _, rfl⟩ := mem_transitions_toAutomaton.1 ht
    rfl

section Symbols

variable (hd : d.WellFormed) (hsymbol : ∀ symbol ∈ d.alphabet, ∃ c, symbol = SymbolId.ofChar c)
include hd hsymbol

/-- Paths of the graph follow words. -/
theorem path_toAutomaton_iff :
    (d.toAutomaton label).Path s w t ↔ d.follow s (w.map SymbolId.ofChar) = some t := by
  constructor
  · intro h
    induction h with
    | nil s => rfl
    | @cons t read w f ht hread _ ih =>
        obtain ⟨m, hm, rfl⟩ := mem_transitions_toAutomaton.1 ht
        obtain ⟨c, hc⟩ := hsymbol _ (hd.symbol_mem m hm)
        have hlabel : m.transition.label = .finite [c] := by
          rw [Move.transition, hc, SymbolId.toChar?_ofChar, Option.toList_some]
        obtain rfl := Label.finite.inj (hlabel.symm.trans hread)
        have hmove : d.move? m.source (SymbolId.ofChar c) = some m.target := by
          rw [← hc]
          exact hd.tabulated.move?_eq_some_iff.2 hm
        exact Option.bind_eq_some_iff.2 ⟨m.target, hmove, ih⟩
  · intro h
    induction w generalizing s with
    | nil =>
        obtain rfl : s = t := Option.some.inj h
        exact .nil s
    | cons c w ih =>
        obtain ⟨p, hmove, hrest⟩ := Option.bind_eq_some_iff.1 h
        have hm : Move.transition ⟨s, SymbolId.ofChar c, p⟩ ∈ (d.toAutomaton label).transitions :=
          mem_transitions_toAutomaton.2 ⟨_, mem_moves_of_move? hmove, rfl⟩
        have hlabel : (Move.transition ⟨s, SymbolId.ofChar c, p⟩).label = .finite [c] := by
          rw [Move.transition, SymbolId.toChar?_ofChar, Option.toList_some]
        exact .cons hm hlabel (ih hrest)

theorem exists_word_of_follow {u : List SymbolId} (h : d.follow s u = some t) :
    ∃ w : Word, u = w.map SymbolId.ofChar := by
  induction u generalizing s with
  | nil => exact ⟨[], rfl⟩
  | cons symbol u ih =>
      obtain ⟨p, hmove, hrest⟩ := Option.bind_eq_some_iff.1 h
      obtain ⟨c, rfl⟩ := hsymbol _ (hd.tabulated.symbol_mem_of_move? hmove)
      obtain ⟨w, rfl⟩ := ih hrest
      exact ⟨c :: w, rfl⟩

/-- The graph accepts from each state what the automaton accepts from it. -/
theorem languageFrom_toAutomaton (label : StateId → Option String) (s : StateId) :
    (d.toAutomaton label).languageFrom s = d.words s := by
  ext w
  rw [Automaton.mem_languageFrom, mem_words, mem_residual]
  simp only [path_toAutomaton_iff hd hsymbol]
  constructor
  · intro ⟨f, hf, hfollow⟩
    exact ⟨f, hfollow, hf⟩
  · intro ⟨f, hfollow, hf⟩
    exact ⟨f, hf, hfollow⟩

/-- All words that are accepted are words of characters. -/
theorem words_eq_iff (he : e.WellFormed) (hsymbol' : ∀ symbol ∈ e.alphabet, ∃ c, symbol = SymbolId.ofChar c) :
    d.words s = e.words t ↔ d.residual s = e.residual t := by
  constructor
  · intro h
    ext u
    by_cases hu : ∃ w : Word, u = w.map SymbolId.ofChar
    · obtain ⟨w, rfl⟩ := hu
      rw [← mem_words, h, mem_words]
    · constructor
      · intro hs
        obtain ⟨f, hf, _⟩ := mem_residual.1 hs
        exact (hu (exists_word_of_follow hd hsymbol hf)).elim
      · intro ht
        obtain ⟨f, hf, _⟩ := mem_residual.1 ht
        exact (hu (exists_word_of_follow he hsymbol' hf)).elim
  · intro h
    ext w
    rw [mem_words, h, mem_words]

theorem reachable_toAutomaton_iff : (d.toAutomaton label).Reachable t ↔ d.Reachable t := by
  constructor
  · intro ⟨s, w, hs, hpath⟩
    exact ⟨s, _, hs, (path_toAutomaton_iff hd hsymbol).1 hpath⟩
  · intro ⟨s, u, hs, hfollow⟩
    obtain ⟨w, rfl⟩ := exists_word_of_follow hd hsymbol hfollow
    exact ⟨s, w, hs, (path_toAutomaton_iff hd hsymbol).2 hfollow⟩

end Symbols

end Dfa

end LanguageTheory
