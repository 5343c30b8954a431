import LanguageTheory.Proofs.Regular.Graph
import LanguageTheory.Proofs.Regular.Subsets
import LanguageTheory.Regular.Determinization

/-! Both ways to a deterministic automaton, reading an automaton that is deterministic already and the
subset construction, lead to one that moves on exactly the words that can be read and accepts exactly
those that are accepted. -/

namespace LanguageTheory

namespace Dfa

variable {a : Automaton} {d d' : Dfa} {m n : Move} {t : Transition}

/-- A deterministic automaton that reads what the given finite automaton reads and accepts what that
accepts. -/
structure Represents (d : Dfa) (a : Automaton) : Prop where
  wellFormed : d.WellFormed
  symbol_eq : ∀ symbol ∈ d.alphabet, ∃ c, symbol = SymbolId.ofChar c
  exists_start : ∃ s, d.start = some s
  mem_readable_iff : ∀ s, d.start = some s → ∀ w : Word,
    w ∈ a.readable ↔ ∃ t, d.follow s (w.map SymbolId.ofChar) = some t
  language_eq : ∀ s, d.start = some s → a.language = d.words s

/-! ### The subset construction -/

/-- The empty word leads somewhere. -/
theorem isEmpty_reached_nil {n : EpsilonNfa} (hn : ImportedNfa.Imports n a) {initial : StateId}
    (hinitial : a.initial = some initial) : (n.computeClosures.reached []).isEmpty = false := by
  obtain ⟨_, hmoves, hstart, _⟩ := n.computeClosures_graph
  have hnil : [] ∈ a.readable := (Automaton.mem_readable hinitial).2 ⟨[], initial, .nil initial⟩
  obtain ⟨s, hs, t, hst⟩ := (hn.mem_readable_iff []).1 hnil
  rw [← hstart] at hs
  have hpath : n.computeClosures.Path s [] t := hst.mono fun m hm => hmoves.symm ▸ hm
  exact EpsilonNfa.isEmpty_eq_false_iff.2 ⟨t, hn.wellFormed.computeClosures.mem_reached.2 ⟨s, hs, hpath⟩⟩

/-- The subset construction represents what its automaton imports. -/
theorem represents_toDfa {n : EpsilonNfa} (hn : ImportedNfa.Imports n a) {initial : StateId}
    (hinitial : a.initial = some initial) : n.computeClosures.toDfa.Represents a := by
  have hwell := hn.wellFormed.computeClosures
  obtain ⟨_, hmoves, hstart, hfinals⟩ := n.computeClosures_graph
  have hpath : ∀ p w q, n.computeClosures.Path p w q ↔ n.Path p w q := by
    intro p w q
    exact ⟨fun h => h.mono fun m hm => hmoves ▸ hm, fun h => h.mono fun m hm => hmoves.symm ▸ hm⟩
  have hfirst := isEmpty_reached_nil hn hinitial
  have hzero := EpsilonNfa.start_toDfa hfirst
  refine ⟨EpsilonNfa.wellFormed_toDfa hwell hfirst, ?_, ⟨0, hzero⟩, ?_, ?_⟩
  · intro symbol hsymbol
    rw [EpsilonNfa.alphabet_toDfa, Ascending.mem_ofList] at hsymbol
    obtain ⟨m, hm, rfl⟩ := List.mem_map.1 hsymbol
    obtain ⟨m', hm', hsymbol'⟩ := EpsilonNfa.exists_symbol_of_mem_moves_toDfa hwell hm
    rw [hmoves] at hm'
    exact hn.symbol_eq m' hm' _ hsymbol'
  · intro s hs w
    obtain rfl := Option.some.inj (hzero.symm.trans hs)
    rw [EpsilonNfa.exists_follow_toDfa_iff hwell hfirst, hn.mem_readable_iff, hstart]
    simp only [hpath]
  · intro s hs
    obtain rfl := Option.some.inj (hzero.symm.trans hs)
    ext w
    rw [mem_words, EpsilonNfa.mem_residual_toDfa_iff hwell hfirst, hn.mem_language_iff, hstart, hfinals]
    simp only [hpath]

/-! ### Reading an automaton that is deterministic already -/

/-- The move that a transition stands for. -/
def Stands (a : Automaton) (t : Transition) (m : Move) : Prop := ∃ c, t.label.read? = some [c] ∧
  m.symbol = SymbolId.ofChar c ∧ a.ids.idxOf? t.source = some m.source ∧ a.ids.idxOf? t.target = some m.target

theorem addTransition?_eq_some (h : addTransition? a d t = some d') :
    ∃ m, Stands a t m ∧ d.move? m.source m.symbol = none ∧ d' = d.addMove m := by
  unfold addTransition? at h
  split at h
  next c source target hread hsource htarget =>
    rw [Option.ite_none_left_eq_some] at h
    obtain ⟨hnew, heq⟩ := h
    exact ⟨⟨source, SymbolId.ofChar c, target⟩, ⟨c, hread, rfl, hsource, htarget⟩,
      Option.not_isSome_iff_eq_none.1 hnew, (Option.some.inj heq).symm⟩
  next => cases h

theorem Stands.unique (hm : Stands a t m) (hn : Stands a t n) : m = n := by
  obtain ⟨c, hread, hsymbol, hsource, htarget⟩ := hm
  obtain ⟨c', hread', hsymbol', hsource', htarget'⟩ := hn
  have hc : c = c' := List.head_eq_of_cons_eq (Option.some.inj (hread.symm.trans hread'))
  have hs : m.source = n.source := Option.some.inj (hsource.symm.trans hsource')
  have ht : m.target = n.target := Option.some.inj (htarget.symm.trans htarget')
  cases m
  cases n
  simp_all

theorem mem_moves_addMove (hd : d.WellFormed) (hnew : d.move? m.source m.symbol = none) :
    n ∈ (d.addMove m).moves ↔ n = m ∨ n ∈ d.moves := by
  apply mem_insertMove
  intro p hp hsource hsymbol
  have hmove : d.move? p.source p.symbol = some p.target := hd.tabulated.move?_eq_some_iff.2 hp
  rw [hsource, hsymbol, hnew] at hmove
  cases hmove

theorem WellFormed.addMove (hd : d.WellFormed) (hsource : m.source < d.size) (htarget : m.target < d.size) :
    (d.addMove m).WellFormed where
  start_lt := hd.start_lt
  finals_lt := hd.finals_lt
  source_lt := by
    intro n hn
    rcases mem_of_mem_insertMove hn with rfl | hn
    · exact hsource
    · exact hd.source_lt n hn
  target_lt := by
    intro n hn
    rcases mem_of_mem_insertMove hn with rfl | hn
    · exact htarget
    · exact hd.target_lt n hn
  symbol_mem := (hd.tabulated.addMove m).symbol_mem
  sorted := (hd.tabulated.addMove m).sorted

/-- Reading the transitions one after the other yields their moves and no others. -/
theorem foldlM_addTransition? {l : List Transition} (hd : d.WellFormed) (hsize : d.size = a.size)
    (h : l.foldlM (addTransition? a) d = some d') :
    d'.WellFormed ∧ d'.size = d.size ∧ d'.start = d.start ∧ d'.finals = d.finals ∧
      (∀ symbol ∈ d'.alphabet, symbol ∈ d.alphabet ∨ ∃ c, symbol = SymbolId.ofChar c) ∧
      (∀ m, m ∈ d'.moves ↔ m ∈ d.moves ∨ ∃ t ∈ l, Stands a t m) ∧ ∀ t ∈ l, ∃ m, Stands a t m := by
  induction l generalizing d with
  | nil =>
      obtain rfl : d = d' := Option.some.inj h
      exact ⟨hd, rfl, rfl, rfl, fun _ => Or.inl, by simp, by simp⟩
  | cons t l ih =>
      rw [List.foldlM_cons] at h
      obtain ⟨d₁, hadd, hrest⟩ := Option.bind_eq_some_iff.1 h
      obtain ⟨m, hm, hnew, rfl⟩ := addTransition?_eq_some hadd
      have hlt : m.source < d.size ∧ m.target < d.size := by
        obtain ⟨_, _, _, hsource, htarget⟩ := hm
        rw [hsize]
        exact ⟨Automaton.lt_size_of_idxOf? hsource, Automaton.lt_size_of_idxOf? htarget⟩
      obtain ⟨hwell, hsize', hstart, hfinals, halphabet, hmoves, hstands⟩ :=
        ih (hd.addMove hlt.1 hlt.2) hsize hrest
      refine ⟨hwell, hsize', hstart, hfinals, ?_, ?_, ?_⟩
      · intro symbol hsymbol
        rcases halphabet symbol hsymbol with hsymbol | hsymbol
        · obtain ⟨c, _, hc, _⟩ := hm
          rcases Ascending.mem_insert.1 hsymbol with rfl | hsymbol
          · exact Or.inr ⟨c, hc⟩
          · exact Or.inl hsymbol
        · exact Or.inr hsymbol
      · intro n
        rw [hmoves, mem_moves_addMove hd hnew, List.exists_mem_cons_iff]
        have hunique : n = m ↔ Stands a t n := ⟨fun h => h ▸ hm, fun hn => hn.unique hm⟩
        rw [hunique]
        tauto
      · intro u hu
        rcases List.mem_cons.1 hu with rfl | hu
        · exact ⟨m, hm⟩
        · exact hstands u hu

section Represents

variable (ha : a.WellFormed) (hkind : a.kind = .finite)
  (hmoves : ∀ m, m ∈ d.moves ↔ ∃ t ∈ a.transitions, Stands a t m) (hd : d.WellFormed)
include ha hkind hmoves hd

/-- Words follow paths. -/
theorem path_of_follow {k k' : StateId} {s : StateId} (hk : a.ids[k]? = some s) {w : Word}
    (h : d.follow k (w.map SymbolId.ofChar) = some k') : ∃ f, a.ids[k']? = some f ∧ a.Path s w f := by
  induction w generalizing k s with
  | nil =>
      obtain rfl : k = k' := Option.some.inj h
      exact ⟨s, hk, .nil s⟩
  | cons c w ih =>
      obtain ⟨j, hmove, hrest⟩ := Option.bind_eq_some_iff.1 h
      obtain ⟨t, ht, c', hread, hsymbol, hsource, htarget⟩ := (hmoves _).1 (hd.tabulated.move?_eq_some_iff.1 hmove)
      obtain rfl : c = c' := SymbolId.ofChar_injective hsymbol
      rw [ha.idxOf?_eq_some_iff] at hsource htarget
      obtain rfl : s = t.source := Option.some.inj (hk.symm.trans hsource)
      obtain ⟨read, hlabel⟩ := ha.exists_label_eq hkind ht
      rw [hlabel] at hread
      obtain rfl : read = [c] := Option.some.inj hread
      obtain ⟨f, hf, hpath⟩ := ih htarget hrest
      exact ⟨f, hf, .cons ht hlabel hpath⟩

omit hkind in
/-- Paths follow words. -/
theorem follow_of_path (hstands : ∀ t ∈ a.transitions, ∃ m, Stands a t m) {k : StateId} {s f : StateId}
    {w : Word} (hk : a.ids[k]? = some s) (h : a.Path s w f) :
    ∃ k', a.ids[k']? = some f ∧ d.follow k (w.map SymbolId.ofChar) = some k' := by
  induction h generalizing k with
  | nil s => exact ⟨k, hk, rfl⟩
  | @cons t read w f ht hlabel _ ih =>
      obtain ⟨m, hm⟩ := hstands t ht
      have hmove := hd.tabulated.move?_eq_some_iff.2 ((hmoves m).2 ⟨t, ht, hm⟩)
      obtain ⟨c, hread, hsymbol, hsource, htarget⟩ := hm
      rw [hlabel] at hread
      obtain rfl : read = [c] := Option.some.inj hread
      obtain rfl : k = m.source := Option.some.inj ((ha.idxOf?_eq_some_iff.2 hk).symm.trans hsource)
      obtain ⟨k', hf, hfollow⟩ := ih (ha.idxOf?_eq_some_iff.1 htarget)
      rw [hsymbol] at hmove
      exact ⟨k', hf, Option.bind_eq_some_iff.2 ⟨m.target, hmove, hfollow⟩⟩

end Represents

theorem wellFormed_skeleton (a : Automaton) (initial : StateId) : (skeleton a initial).WellFormed where
  start_lt := fun _ hs => Automaton.lt_size_of_idxOf? hs
  finals_lt := by
    intro s hs
    rw [skeleton, Ascending.mem_ofList] at hs
    obtain ⟨f, _, hf⟩ := List.mem_filterMap.1 hs
    exact Automaton.lt_size_of_idxOf? hf
  source_lt := fun _ hm => (List.not_mem_nil hm).elim
  target_lt := fun _ hm => (List.not_mem_nil hm).elim
  symbol_mem := fun _ hm => (List.not_mem_nil hm).elim
  sorted := List.Pairwise.nil

theorem size_of_foldlM {initial : StateId}
    (h : a.transitions.foldlM (addTransition? a) (skeleton a initial) = some d) : d.size = a.size :=
  (foldlM_addTransition? (wellFormed_skeleton a initial) rfl h).2.1

/-- Adding the moves of all the transitions represents the automaton. -/
theorem represents_foldlM (ha : a.WellFormed) (hkind : a.kind = .finite) {initial : StateId}
    (hinitial : a.initial = some initial)
    (h : a.transitions.foldlM (addTransition? a) (skeleton a initial) = some d) : d.Represents a := by
  obtain ⟨hd, _, hstart, hfinals, halphabet, hmoves, hstands⟩ :=
    foldlM_addTransition? (wellFormed_skeleton a initial) rfl h
  have hmoves' : ∀ m, m ∈ d.moves ↔ ∃ t ∈ a.transitions, Stands a t m := by
    intro m
    rw [hmoves m]
    exact ⟨fun h => h.resolve_left List.not_mem_nil, Or.inr⟩
  obtain ⟨k, hk⟩ := ha.exists_idxOf? (ha.initial_mem initial hinitial)
  replace hstart : d.start = some k := hstart.trans hk
  rw [ha.idxOf?_eq_some_iff] at hk
  refine ⟨hd, ?_, ⟨k, hstart⟩, ?_, ?_⟩
  · intro symbol hsymbol
    exact (halphabet symbol hsymbol).resolve_left (Ascending.not_mem_empty symbol)
  · intro s hs w
    obtain rfl := Option.some.inj (hstart.symm.trans hs)
    rw [Automaton.mem_readable hinitial]
    constructor
    · intro ⟨v, f, hpath⟩
      obtain ⟨k', _, hfollow⟩ := follow_of_path ha hmoves' hd hstands hk hpath
      rw [List.map_append, follow_append] at hfollow
      obtain ⟨t, ht, _⟩ := Option.bind_eq_some_iff.1 hfollow
      exact ⟨t, ht⟩
    · intro ⟨t, ht⟩
      obtain ⟨f, _, hpath⟩ := path_of_follow ha hkind hmoves' hd hk ht
      refine ⟨[], f, ?_⟩
      rwa [List.append_nil]
  · intro s hs
    obtain rfl := Option.some.inj (hstart.symm.trans hs)
    ext w
    rw [Automaton.mem_language hinitial, Automaton.mem_languageFrom, mem_words, mem_residual, hfinals]
    have hfinal : ∀ i, i ∈ (skeleton a initial).finals ↔ ∃ f ∈ a.finals, a.ids[i]? = some f := by
      intro i
      simp only [skeleton, Ascending.mem_ofList, List.mem_filterMap, ha.idxOf?_eq_some_iff]
      rfl
    constructor
    · intro ⟨f, hf, hpath⟩
      obtain ⟨k', hk', hfollow⟩ := follow_of_path ha hmoves' hd hstands hk hpath
      exact ⟨k', hfollow, (hfinal k').2 ⟨f, hf, hk'⟩⟩
    · intro ⟨k', hfollow, hk'⟩
      obtain ⟨f, hf, hpath⟩ := path_of_follow ha hkind hmoves' hd hk hfollow
      obtain ⟨f', hf', hid⟩ := (hfinal k').1 hk'
      obtain rfl := Option.some.inj (hf.symm.trans hid)
      exact ⟨f, hf', hpath⟩

end Dfa

namespace Automaton

variable {a : Automaton} {initial : StateId}

/-- The subset construction succeeds, and some word leads to each of its states. -/
theorem subsetDfa_spec (ha : a.WellFormed) (hkind : a.kind = .finite) (hinitial : a.initial = some initial) :
    ∃ d label, a.subsetDfa = .ok (d, d.toAutomaton label) ∧ d.Represents a ∧ ∀ s < d.size, d.Reachable s := by
  obtain ⟨i, hi, himports⟩ := ImportedNfa.imports_ofAutomaton ha hkind hinitial
  rw [subsetDfa, hi]
  refine ⟨_, _, rfl, Dfa.represents_toDfa himports hinitial, fun s hs => ?_⟩
  exact EpsilonNfa.reachable_toDfa himports.wellFormed.computeClosures (Dfa.isEmpty_reached_nil himports hinitial) hs

/-- Every finite automaton with an initial state is made deterministic. The automaton shown for the
result has as many states. -/
theorem determinize_spec (ha : a.WellFormed) (hkind : a.kind = .finite) (hinitial : a.initial = some initial) :
    ∃ d refined ids, a.determinize = .ok (d, refined, ids) ∧ d.Represents a ∧ refined.size = d.size := by
  have hread : Dfa.ofDeterministic a = .ok ((a.transitions.foldlM (Dfa.addTransition? a)
      (Dfa.skeleton a initial)).map fun d => (d, a.ids)) := by
    simp only [Dfa.ofDeterministic, requireFinite, requireInitial, hkind, hinitial, if_true]
    rfl
  cases hfold : a.transitions.foldlM (Dfa.addTransition? a) (Dfa.skeleton a initial) with
  | some d =>
      rw [hfold] at hread
      rw [determinize, hread]
      exact ⟨d, a, a.ids, rfl, Dfa.represents_foldlM ha hkind hinitial hfold, (Dfa.size_of_foldlM hfold).symm⟩
  | none =>
      rw [hfold] at hread
      obtain ⟨d, label, hsubset, hd, _⟩ := subsetDfa_spec ha hkind hinitial
      rw [determinize, hread, hsubset]
      exact ⟨d, d.toAutomaton label, _, rfl, hd, d.size_toAutomaton label⟩

end Automaton

end LanguageTheory
