import LanguageTheory.Proofs.Regular.Minimization

/-! Deterministic automata are built by edits that may name any states. Whatever the edits, the moves stay a
table over the alphabet; so if every state that is named is there, the automaton is well-formed. -/

namespace LanguageTheory.Dfa

variable {d : Dfa}

/-- The edits that an automaton is built by. Putting the minimal automaton in its place is one of them, since
that may leave symbols in the alphabet that no move has. -/
inductive Edit
  | addState
  | setStart (s : StateId)
  | addFinal (s : StateId)
  | addMove (m : Move)
  | setOrigins (entries : List (StateId × List StateId))
  | minimize

def edit (d : Dfa) : Edit → Dfa
  | .addState => { d with size := d.size + 1 }
  | .setStart s => { d with start := some s }
  | .addFinal s => d.addFinal s
  | .addMove m => d.addMove m
  | .setOrigins entries => d.setOrigins entries
  | .minimize => d.minimize.dfa

/-- Every state that is named is there. -/
structure InRange (d : Dfa) : Prop where
  start_lt : ∀ s, d.start = some s → s < d.size
  finals_lt : ∀ s ∈ d.finals, s < d.size
  source_lt : ∀ m ∈ d.moves, m.source < d.size
  target_lt : ∀ m ∈ d.moves, m.target < d.size

instance (d : Dfa) : Decidable d.InRange :=
  decidable_of_iff ((∀ s ∈ d.start, s < d.size) ∧ (∀ s ∈ d.finals.toList, s < d.size) ∧
      (∀ m ∈ d.moves, m.source < d.size) ∧ ∀ m ∈ d.moves, m.target < d.size)
    ⟨fun ⟨hstart, hfinals, hsource, htarget⟩ => ⟨hstart, hfinals, hsource, htarget⟩,
      fun h => ⟨h.start_lt, h.finals_lt, h.source_lt, h.target_lt⟩⟩

theorem tabulated_empty : empty.Tabulated where
  symbol_mem := fun _ hm => (List.not_mem_nil hm).elim
  sorted := .nil

theorem tabulated_minimize (d : Dfa) : d.minimize.dfa.Tabulated := by
  unfold minimize
  cases d.start with
  | none => exact tabulated_empty
  | some start => exact (wellFormed_quotient d start _).tabulated

theorem Tabulated.edit (hd : d.Tabulated) (e : Edit) : (d.edit e).Tabulated := by
  cases e with
  | addState => exact ⟨hd.symbol_mem, hd.sorted⟩
  | setStart s => exact ⟨hd.symbol_mem, hd.sorted⟩
  | addFinal s => exact ⟨hd.symbol_mem, hd.sorted⟩
  | addMove m => exact hd.addMove m
  | setOrigins entries => exact ⟨hd.symbol_mem, hd.sorted⟩
  | minimize => exact tabulated_minimize d

theorem Tabulated.edits (hd : d.Tabulated) (edits : List Edit) : (edits.foldl Dfa.edit d).Tabulated := by
  induction edits generalizing d with
  | nil => exact hd
  | cons e edits ih => exact ih (hd.edit e)

theorem Tabulated.wellFormed (hd : d.Tabulated) (hrange : d.InRange) : d.WellFormed :=
  ⟨hrange.start_lt, hrange.finals_lt, hrange.source_lt, hrange.target_lt, hd.symbol_mem, hd.sorted⟩

end LanguageTheory.Dfa
