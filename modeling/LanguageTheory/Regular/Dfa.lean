import LanguageTheory.Regular.EpsilonNfa

/-! Deterministic automata over the states `0, 1, …`. A state may lack a move on a symbol; a word that
would need it is rejected. -/

namespace LanguageTheory

structure Dfa.Move where
  source : StateId
  symbol : SymbolId
  target : StateId
deriving DecidableEq, Repr

structure Dfa where
  size : Nat
  start : Option StateId
  finals : StateSet
  /-- Every symbol that was ever used, also if its moves have been replaced. -/
  alphabet : Ascending SymbolId
  /-- Ordered by source, then by symbol, with at most one move for each pair. -/
  moves : List Dfa.Move
  /-- For the states that stand for sets of other states, those sets, ordered by state. -/
  origins : Option (List (StateId × List StateId))

namespace Dfa

def empty : Dfa := ⟨0, none, ∅, ∅, [], none⟩

/-- Whether the move `m` belongs before one out of `source` on `symbol`. -/
def Move.before (m : Move) (source : StateId) (symbol : SymbolId) : Bool :=
  m.source < source || (m.source == source && m.symbol < symbol)

/-- Puts a move in its place, instead of one with the same source and symbol. -/
def insertMove (m : Move) : List Move → List Move
  | [] => [m]
  | n :: rest =>
      if n.before m.source m.symbol then n :: insertMove m rest
      else if m.before n.source n.symbol then m :: n :: rest
      else m :: rest

def addMove (d : Dfa) (m : Move) : Dfa :=
  { d with alphabet := d.alphabet.insert m.symbol, moves := insertMove m d.moves }

def addFinal (d : Dfa) (s : StateId) : Dfa := { d with finals := d.finals.insert s }

/-- Records the sets that the states stand for; a later entry for a state replaces an earlier one. -/
def setOrigins (d : Dfa) (entries : List (StateId × List StateId)) : Dfa :=
  let states : StateSet := .ofList (entries.map (·.1))
  { d with origins := some (states.toList.map fun s => (s, (entries.reverse.lookup s).getD [])) }

def move? (d : Dfa) (source : StateId) (symbol : SymbolId) : Option StateId :=
  (d.moves.find? fun m => m.source == source && m.symbol == symbol).map (·.target)

def isFinal (d : Dfa) (s : StateId) : Bool := s ∈ d.finals

/-- The state that a word leads to from `s`, if every move is there. -/
def follow (d : Dfa) (s : StateId) : List SymbolId → Option StateId
  | [] => some s
  | symbol :: rest => (d.move? s symbol).bind fun t => d.follow t rest

def acceptsFrom (d : Dfa) (s : StateId) (word : List SymbolId) : Bool := (d.follow s word).any d.isFinal

def accepts (d : Dfa) (word : List SymbolId) : Bool := d.start.any fun s => d.acceptsFrom s word

def successors (d : Dfa) (s : StateId) : List StateId := d.alphabet.toList.filterMap (d.move? s)

/-- The states that some word leads to from the start state. -/
def reachable (d : Dfa) : StateSet :=
  .ofList (explore d.successors (d.moves.length + 1) d.start.toList)

def predecessors (d : Dfa) (s : StateId) : List StateId :=
  d.moves.filterMap fun m => if m.target = s then some m.source else none

/-- The states from which some word leads to a final state. -/
def live (d : Dfa) : StateSet :=
  .ofList (explore d.predecessors (d.moves.length + d.finals.size) d.finals.toList)

/-- The states of an automaton, in order of creation, without moves. -/
def skeleton (a : Automaton) (initial : StateId) : Dfa :=
  { empty with
    size := a.size
    start := a.ids.idxOf? initial
    finals := .ofList (a.finals.toList.filterMap a.ids.idxOf?) }

/-- Adds the move for a transition that is labelled with one symbol, unless there is a move on that
symbol already. -/
def addTransition? (a : Automaton) (d : Dfa) (t : Transition) : Option Dfa :=
  match t.label.read?, a.ids.idxOf? t.source, a.ids.idxOf? t.target with
  | some [c], some source, some target =>
      let symbol := SymbolId.ofChar c
      if (d.move? source symbol).isSome then none else some (d.addMove ⟨source, symbol, target⟩)
  | _, _, _ => none

/-- Reads an automaton that is deterministic as it stands: each label is one symbol, and no state has
two moves on one symbol. The states are numbered in order of creation, and the list gives the id of
each. There is no such reading of any other automaton. -/
def ofDeterministic (a : Automaton) : Except Error (Option (Dfa × List StateId)) := do
  a.requireFinite
  let initial ← a.requireInitial
  let dfa? := a.transitions.foldlM (addTransition? a) (skeleton a initial)
  return dfa?.map fun d => (d, a.ids)

def Move.transition (m : Move) : Transition :=
  ⟨m.source, m.target, .finite (SymbolId.toChar? m.symbol).toList⟩

/-- The automaton as a graph, where state `i` is the `i`-th one created. -/
def toAutomaton (d : Dfa) (label : StateId → Option String) : Automaton :=
  { Automaton.ofLabels .finite ((List.range d.size).map label) with
    initial := d.start
    finals := d.finals
    transitions := fresh [] (d.moves.map Move.transition) }

end Dfa

end LanguageTheory
