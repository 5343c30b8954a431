import LanguageTheory.Proofs.Regular.Determinization
import LanguageTheory.Proofs.Regular.Minimization
import Mathlib.Data.Set.Card

/-! The minimal automaton of a finite automaton has a state for each residual of a word that can be
read. Its moves are copied from the first state of each block, which may lack a move into the block of
dead states that others have. Then no path leads to that block, and minimizing once more drops it. -/

namespace LanguageTheory

namespace Dfa

variable {a : Automaton} {d m : Dfa}

theorem encard_setOf_lt (k : Nat) : ({ i | i < k } : Set Nat).encard = k := by
  have h := Set.encard_coe_eq_coe_finsetCard (Finset.range k)
  rwa [Finset.coe_range, Finset.card_range] at h

/-- The residuals of the words that can be read are those of the reachable states. -/
theorem Represents.image_leftQuotient (hd : d.Represents a) :
    Set.image a.language.leftQuotient a.readable = Set.image d.words { t | d.Reachable t } := by
  obtain ⟨s, hs⟩ := hd.exists_start
  have hquotient : ∀ w t, d.follow s (List.map SymbolId.ofChar w) = some t →
      d.words t = a.language.leftQuotient w := by
    intro w t ht
    rw [hd.language_eq s hs, words_of_follow ht]
  ext l
  constructor
  · intro ⟨w, hw, hl⟩
    obtain ⟨t, ht⟩ := (hd.mem_readable_iff s hs w).1 hw
    exact ⟨t, ⟨s, _, hs, ht⟩, (hquotient w t ht).trans hl⟩
  · intro ⟨t, ⟨s', u, hs', hu⟩, hl⟩
    obtain rfl := Option.some.inj (hs.symm.trans hs')
    obtain ⟨w, rfl⟩ := exists_word_of_follow hd.wellFormed hd.symbol_eq hu
    exact ⟨w, (hd.mem_readable_iff s hs w).2 ⟨t, hu⟩, (hquotient w t hu).symm.trans hl⟩

section Minimizes

variable (hd : d.Represents a) (hm : m.Minimizes d)
include hd hm

theorem Minimizes.symbol_eq : ∀ symbol ∈ m.alphabet, ∃ c, symbol = SymbolId.ofChar c := by
  rw [hm.alphabet_eq]
  exact hd.symbol_eq

theorem Minimizes.words_eq_iff (i j : StateId) : m.words i = m.words j ↔ m.residual i = m.residual j :=
  Dfa.words_eq_iff hm.wellFormed (hm.symbol_eq hd) hm.wellFormed (hm.symbol_eq hd)

theorem Minimizes.words_injOn : Set.InjOn m.words { i | i < m.size } := by
  intro i hi j hj hij
  exact hm.residual_injective i hi j hj ((hm.words_eq_iff hd i j).1 hij)

omit hd in
theorem Minimizes.image_words :
    Set.image m.words { i | i < m.size } = Set.image d.words { t | d.Reachable t } := by
  have hwords : ∀ i t, m.residual i = d.residual t → m.words i = d.words t := by
    intro i t h
    ext w
    rw [mem_words, mem_words, h]
  ext l
  constructor
  · intro ⟨i, hi, hl⟩
    obtain ⟨t, ht, hit⟩ := hm.exists_reachable i hi
    exact ⟨t, ht, (hwords i t hit).symm.trans hl⟩
  · intro ⟨t, ht, hl⟩
    obtain ⟨i, hi, hit⟩ := hm.exists_state t ht
    exact ⟨i, hi, (hwords i t hit).trans hl⟩

/-- There are as many states as residuals of words that can be read. -/
theorem Minimizes.encard_residuals : (Set.image a.language.leftQuotient a.readable).encard = m.size := by
  rw [hd.image_leftQuotient, ← hm.image_words, (hm.words_injOn hd).encard_image, encard_setOf_lt]

theorem Minimizes.exists_start : ∃ i, m.start = some i ∧ m.words i = a.language := by
  obtain ⟨s, hs⟩ := hd.exists_start
  obtain ⟨i, hi, hresidual⟩ := hm.residual_start s hs
  refine ⟨i, hi, ?_⟩
  rw [hd.language_eq s hs]
  ext w
  rw [mem_words, hresidual, mem_words]

/-- Different states stand for the residuals of different states. -/
theorem Minimizes.size_le : m.size ≤ d.size := by
  choose f hf hresidual using hm.exists_reachable
  let g (i : Fin m.size) : Fin d.size := ⟨f i i.2, hd.wellFormed.lt_of_reachable (hf i i.2)⟩
  have hinj : Function.Injective g := by
    intro i j hij
    have hfij : f i i.2 = f j j.2 := congrArg Fin.val hij
    apply Fin.ext
    apply hm.residual_injective i i.2 j j.2
    rw [hresidual i i.2, hresidual j j.2, hfij]
  simpa using Fintype.card_le_of_injective g hinj

omit hd in
/-- A state from which a word is accepted stays reachable: reading on to that word would need the moves
that are missing. -/
theorem Minimizes.reachable_of_mem_words {i : StateId} (hi : i < m.size) {w : Word} (hw : w ∈ m.words i) :
    m.Reachable i := by
  obtain ⟨t, ⟨s, u, hs, hu⟩, hresidual⟩ := hm.exists_reachable i hi
  obtain ⟨i₀, hi₀, hstart⟩ := hm.residual_start s hs
  have haccepted : u ++ w.map SymbolId.ofChar ∈ m.residual i₀ := by
    rw [mem_words, hresidual, residual_of_follow hu] at hw
    rwa [hstart]
  obtain ⟨f, hf, _⟩ := mem_residual.1 haccepted
  rw [follow_append] at hf
  obtain ⟨j, hj, _⟩ := Option.bind_eq_some_iff.1 hf
  have hij : m.residual j = m.residual i := by
    rw [residual_of_follow hj, hstart, hresidual, residual_of_follow hu]
  have hlt := hm.wellFormed.lt_of_follow (hm.wellFormed.start_lt i₀ hi₀) hj
  obtain rfl := hm.residual_injective j hlt i hi hij
  exact ⟨i₀, u, hi₀, hj⟩

omit hd in
theorem Minimizes.words_eq_zero {i : StateId} (hi : i < m.size) (hunreachable : ¬m.Reachable i) :
    m.words i = 0 := by
  ext w
  constructor
  · intro hw
    exact (hunreachable (hm.reachable_of_mem_words hi hw)).elim
  · intro hw
    exact (Language.notMem_zero w hw).elim

/-- At most one state, which accepts nothing, is left without a path to it. -/
theorem Minimizes.encard_le : (m.size : ℕ∞) ≤ { i | m.Reachable i }.encard + 1 := by
  have hsub : { i | m.Reachable i } ⊆ { i | i < m.size } := fun i hi => hm.wellFormed.lt_of_reachable hi
  have hone : ({ i | i < m.size } \ { i | m.Reachable i }).encard ≤ 1 := by
    rw [Set.encard_le_one_iff]
    intro i j hi hj
    have hwords := (hm.words_eq_zero hi.1 hi.2).trans (hm.words_eq_zero hj.1 hj.2).symm
    exact hm.words_injOn hd hi.1 hj.1 hwords
  rw [← encard_setOf_lt m.size, ← Set.encard_sdiff_add_encard_of_subset hsub, add_comm]
  exact add_le_add_right hone _

end Minimizes

/-- An automaton over characters represents its own graph. -/
theorem represents_toAutomaton (hd : d.WellFormed)
    (hsymbol : ∀ symbol ∈ d.alphabet, ∃ c, symbol = SymbolId.ofChar c) (hstart : ∃ s, d.start = some s)
    (label : StateId → Option String) : d.Represents (d.toAutomaton label) where
  wellFormed := hd
  symbol_eq := hsymbol
  exists_start := hstart
  mem_readable_iff := by
    intro s hs w
    have hinitial : (d.toAutomaton label).initial = some s := hs
    rw [Automaton.mem_readable hinitial]
    simp only [path_toAutomaton_iff hd hsymbol]
    constructor
    · intro ⟨v, f, hfollow⟩
      rw [List.map_append, follow_append] at hfollow
      obtain ⟨t, ht, _⟩ := Option.bind_eq_some_iff.1 hfollow
      exact ⟨t, ht⟩
    · intro ⟨t, ht⟩
      exact ⟨[], t, by rwa [List.append_nil]⟩
  language_eq := by
    intro s hs
    have hinitial : (d.toAutomaton label).initial = some s := hs
    ext w
    rw [Automaton.mem_language hinitial, languageFrom_toAutomaton hd hsymbol]

end Dfa

namespace Automaton

variable {a : Automaton} {initial : StateId}

/-- Minimization shows the minimal automaton of a deterministic one that represents the given one. -/
theorem minimize_spec (ha : a.WellFormed) (hkind : a.kind = .finite) (hinitial : a.initial = some initial) :
    ∃ m d e label, a.minimize = .ok m ∧ m.automaton = Dfa.toAutomaton e label ∧ d.Represents a ∧
      e.Minimizes d ∧ m.refined.size = d.size := by
  obtain ⟨d, refined, ids, hdeterminize, hd, hsize⟩ := determinize_spec ha hkind hinitial
  obtain ⟨s, hs⟩ := hd.exists_start
  rw [minimize, hdeterminize]
  exact ⟨_, d, d.minimize.dfa, _, rfl, rfl, hd, Dfa.minimizes_minimize hd.wellFormed hs, hsize⟩

/-- Minimization keeps the language, and yields exactly one state for each residual of a word that can
be read along some path, accepting or not. -/
theorem minimize_correct (ha : a.WellFormed) (hkind : a.kind = .finite) (hinitial : a.initial = some initial) :
    ∃ m, a.minimize = .ok m ∧ m.automaton.language = a.language ∧
      (∀ s ∈ m.automaton.ids, ∀ t ∈ m.automaton.ids,
        m.automaton.languageFrom s = m.automaton.languageFrom t → s = t) ∧
      (Set.image a.language.leftQuotient a.readable).encard = m.automaton.size ∧
      m.automaton.size ≤ m.refined.size := by
  obtain ⟨m, d, e, label, hm, hautomaton, hd, he, hrefined⟩ := minimize_spec ha hkind hinitial
  have hsymbol := he.symbol_eq hd
  obtain ⟨i, hi, hlanguage⟩ := he.exists_start hd
  refine ⟨m, hm, ?_, ?_, ?_, ?_⟩
  · rw [hautomaton, ← hlanguage]
    ext w
    have hinitial' : (e.toAutomaton label).initial = some i := hi
    rw [mem_language hinitial', Dfa.languageFrom_toAutomaton he.wellFormed hsymbol]
  · rw [hautomaton, Dfa.ids_toAutomaton]
    intro s hs t ht hst
    rw [Dfa.languageFrom_toAutomaton he.wellFormed hsymbol,
      Dfa.languageFrom_toAutomaton he.wellFormed hsymbol] at hst
    exact he.words_injOn hd (List.mem_range.1 hs) (List.mem_range.1 ht) hst
  · rw [hautomaton, Dfa.size_toAutomaton]
    exact he.encard_residuals hd
  · rw [hautomaton, Dfa.size_toAutomaton, hrefined]
    exact he.size_le hd

/-- Labels of two symbols and of none, and a loop that reads nothing but itself. -/
def looping : Automaton :=
  { ofLabels .finite [none, none] with
    initial := some 0
    finals := .ofList [1]
    transitions := [⟨0, 1, .finite ['a', 'b']⟩, ⟨1, 0, .finite []⟩] }

theorem minimize_correct_looping : looping.WellFormed ∧ looping.kind = .finite ∧ looping.initial = some 0 ∧
    ∃ m, looping.minimize = .ok m ∧ m.automaton.language = looping.language ∧
      (∀ s ∈ m.automaton.ids, ∀ t ∈ m.automaton.ids,
        m.automaton.languageFrom s = m.automaton.languageFrom t → s = t) ∧
      (Set.image looping.language.leftQuotient looping.readable).encard = m.automaton.size ∧
      m.automaton.size ≤ m.refined.size :=
  ⟨by decide, rfl, rfl, minimize_correct (by decide) rfl rfl⟩

/-- Minimizing once more keeps the states that paths lead to. -/
theorem encard_reachable {m : Minimization} (hm : a.minimize = .ok m) (ha : a.WellFormed)
    (hkind : a.kind = .finite) (hinitial : a.initial = some initial) :
    ∃ m₂, m.automaton.minimize = .ok m₂ ∧
      { s | m.automaton.Reachable s }.encard = m₂.automaton.size := by
  obtain ⟨m', d, e, label, hm', hautomaton, hd, he, _⟩ := minimize_spec ha hkind hinitial
  obtain rfl := Except.ok.inj (hm'.symm.trans hm)
  have hsymbol := he.symbol_eq hd
  obtain ⟨i, hi, _⟩ := he.exists_start hd
  rw [hautomaton]
  have hinitial' : (e.toAutomaton label).initial = some i := hi
  obtain ⟨m₂, d₂, e₂, label₂, hm₂, hautomaton₂, hd₂, he₂, _⟩ :=
    minimize_spec (he.wellFormed.toAutomaton label) (e.kind_toAutomaton label) hinitial'
  have hgraph := Dfa.represents_toAutomaton he.wellFormed hsymbol ⟨i, hi⟩ label
  have hinj : Set.InjOn e.words { t | e.Reachable t } :=
    (he.words_injOn hd).mono fun t ht => he.wellFormed.lt_of_reachable ht
  refine ⟨m₂, hm₂, ?_⟩
  rw [hautomaton₂, Dfa.size_toAutomaton, ← he₂.encard_residuals hd₂, hgraph.image_leftQuotient,
    hinj.encard_image]
  simp only [Dfa.reachable_toAutomaton_iff he.wellFormed hsymbol]

/-- Minimizing twice yields as many states as minimizing once exactly if every state of the first
result has a path to it. At most one has none, and nothing is accepted from it; so there is none if
every word that can be read begins an accepted one. -/
theorem size_minimize_minimize (ha : a.WellFormed) (hkind : a.kind = .finite)
    (hinitial : a.initial = some initial) :
    ∃ m m₂, a.minimize = .ok m ∧ m.automaton.minimize = .ok m₂ ∧
      (m₂.automaton.size = m.automaton.size ↔ ∀ s ∈ m.automaton.ids, m.automaton.Reachable s) ∧
      m₂.automaton.size ≤ m.automaton.size ∧ m.automaton.size ≤ m₂.automaton.size + 1 ∧
      (∀ s ∈ m.automaton.ids, ¬m.automaton.Reachable s → m.automaton.languageFrom s = 0) ∧
      ((∀ w ∈ a.readable, ∃ v, w ++ v ∈ a.language) →
        ∀ s ∈ m.automaton.ids, m.automaton.Reachable s) := by
  obtain ⟨m, d, e, label, hm, hautomaton, hd, he, _⟩ := minimize_spec ha hkind hinitial
  obtain ⟨m₂, hm₂, hcount⟩ := encard_reachable hm ha hkind hinitial
  have hsymbol := he.symbol_eq hd
  have hsub : { i | e.Reachable i } ⊆ { i | i < e.size } := fun i hi => he.wellFormed.lt_of_reachable hi
  refine ⟨m, m₂, hm, hm₂, ?_⟩
  rw [hautomaton] at hcount ⊢
  simp only [Dfa.reachable_toAutomaton_iff he.wellFormed hsymbol] at hcount ⊢
  rw [Dfa.size_toAutomaton, Dfa.ids_toAutomaton]
  refine ⟨?_, ?_, ?_, ?_, ?_⟩
  · rw [← ENat.natCast_inj, ← hcount, ← Dfa.encard_setOf_lt e.size]
    have hfinite : { i | e.Reachable i }.Finite := (Set.finite_lt_nat e.size).subset hsub
    constructor
    · intro h s hs
      have heq := hfinite.eq_of_subset_of_encard_le hsub h.ge
      exact heq.ge (List.mem_range.1 hs)
    · intro h
      rw [hsub.antisymm fun s hs => h s (List.mem_range.2 hs)]
  · rw [← ENat.natCast_le_natCast, ← hcount, ← Dfa.encard_setOf_lt e.size]
    exact Set.encard_le_encard hsub
  · rw [← ENat.natCast_le_natCast, Nat.cast_add, ← hcount]
    exact he.encard_le hd
  · intro s hs hunreachable
    rw [Dfa.languageFrom_toAutomaton he.wellFormed hsymbol]
    exact he.words_eq_zero (List.mem_range.1 hs) hunreachable
  · intro hextends s hs
    by_contra hunreachable
    have hmem : e.words s ∈ Set.image a.language.leftQuotient a.readable := by
      rw [hd.image_leftQuotient, ← he.image_words]
      exact ⟨s, List.mem_range.1 hs, rfl⟩
    obtain ⟨w, hw, hquotient⟩ := hmem
    obtain ⟨v, hv⟩ := hextends w hw
    rw [he.words_eq_zero (List.mem_range.1 hs) hunreachable] at hquotient
    exact Language.notMem_zero v (hquotient ▸ hv)

/-- Two final states in one block, of which only the second moves to the dead state. -/
def shrinking : Automaton :=
  { ofLabels .finite [none, none, none] with
    initial := some 0
    finals := .ofList [0, 1]
    transitions := [⟨0, 1, .finite ['a']⟩, ⟨1, 0, .finite ['a']⟩, ⟨1, 2, .finite ['b']⟩] }

theorem size_minimize_minimize_shrinking :
    shrinking.WellFormed ∧ shrinking.kind = .finite ∧ shrinking.initial = some 0 ∧
    ∃ m m₂, shrinking.minimize = .ok m ∧ m.automaton.minimize = .ok m₂ ∧
      (m₂.automaton.size = m.automaton.size ↔ ∀ s ∈ m.automaton.ids, m.automaton.Reachable s) ∧
      m₂.automaton.size ≤ m.automaton.size ∧ m.automaton.size ≤ m₂.automaton.size + 1 ∧
      (∀ s ∈ m.automaton.ids, ¬m.automaton.Reachable s → m.automaton.languageFrom s = 0) ∧
      ((∀ w ∈ shrinking.readable, ∃ v, w ++ v ∈ shrinking.language) →
        ∀ s ∈ m.automaton.ids, m.automaton.Reachable s) :=
  ⟨by decide, rfl, rfl, size_minimize_minimize (by decide) rfl rfl⟩

/-- Minimizing once leaves two states, and minimizing the result leaves one. -/
theorem minimize_not_idempotent :
    shrinking.WellFormed ∧ shrinking.kind = .finite ∧ shrinking.initial = some 0 ∧
    ∃ m m₂, shrinking.minimize = .ok m ∧ m.automaton.minimize = .ok m₂ ∧
      m.automaton.size = 2 ∧ m₂.automaton.size = 1 :=
  ⟨by decide, rfl, rfl, _, _, rfl, rfl, rfl, rfl⟩

end Automaton

end LanguageTheory
