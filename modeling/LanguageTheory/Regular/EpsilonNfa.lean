import LanguageTheory.Automaton.Basic
import LanguageTheory.Finite.Exploration

/-! Nondeterministic automata over the states `0, 1, …`, where a move reads one symbol or none.
An edit may name a state that is not there yet; the states up to it are then created. -/

namespace LanguageTheory

abbrev StateSet := Ascending StateId

/-- The members between braces. -/
def StateSet.text (s : StateSet) : String :=
  "\x7b" ++ ", ".intercalate (s.toList.map toString) ++ "\x7d"

/-- A move; one without a symbol reads nothing. -/
structure EpsilonNfa.Move where
  source : StateId
  symbol : Option SymbolId
  target : StateId
deriving DecidableEq, Repr

structure EpsilonNfa where
  size : Nat
  moves : List EpsilonNfa.Move
  start : StateSet
  finals : StateSet
  /-- The closure of each single state, if it has been computed since the last edit of the graph. -/
  closures : Option (List StateSet)

namespace EpsilonNfa

def empty : EpsilonNfa := ⟨0, [], ∅, ∅, none⟩

/-! ### Edits -/

def addState (n : EpsilonNfa) : StateId × EpsilonNfa :=
  (n.size, { n with size := n.size + 1, closures := none })

/-- Creates the states up to `s` that are not there yet. -/
def growTo (n : EpsilonNfa) (s : StateId) : EpsilonNfa :=
  if s < n.size then n else { n with size := s + 1, closures := none }

def addMove (n : EpsilonNfa) (move : Move) : EpsilonNfa :=
  let n := n.growTo (max move.source move.target)
  { n with moves := n.moves ++ [move], closures := none }

/-- Adds a move on a symbol number, one of which stands for reading nothing. -/
def addTransition (n : EpsilonNfa) (source : StateId) (symbol : SymbolId) (target : StateId) :
    EpsilonNfa :=
  n.addMove ⟨source, if symbol = SymbolId.epsilon then none else some symbol, target⟩

def addEpsilon (n : EpsilonNfa) (source target : StateId) : EpsilonNfa := n.addMove ⟨source, none, target⟩

def addStart (n : EpsilonNfa) (s : StateId) : EpsilonNfa :=
  let n := n.growTo s
  { n with start := n.start.insert s }

def addFinal (n : EpsilonNfa) (s : StateId) : EpsilonNfa :=
  let n := n.growTo s
  { n with finals := n.finals.insert s }

/-! ### Moving sets of states -/

/-- The symbols that some move reads. -/
def alphabet (n : EpsilonNfa) : Ascending SymbolId := .ofList (n.moves.filterMap (·.symbol))

def epsilonTargets (n : EpsilonNfa) (s : StateId) : List StateId :=
  n.moves.filterMap fun m => if m.source = s ∧ m.symbol = none then some m.target else none

/-- The states reachable from the given ones by moves that read nothing. Besides the given ones they
are all states of the automaton. -/
def reachBlindly (n : EpsilonNfa) (starts : List StateId) : StateSet :=
  .ofList (explore n.epsilonTargets (starts.length + n.size) starts)

/-- Computes the closure of each single state, unless that is done already. -/
def computeClosures (n : EpsilonNfa) : EpsilonNfa :=
  match n.closures with
  | some _ => n
  | none => { n with closures := some ((List.range n.size).map fun s => n.reachBlindly [s]) }

/-- The states reachable from `s` by moves that read nothing. With computed closures it is the union
of those of the members, so a member that is no state of the automaton drops out; without them it
stays. -/
def closure (n : EpsilonNfa) (s : StateSet) : StateSet :=
  match n.closures with
  | none => n.reachBlindly s.toList
  | some closures => s.toList.foldl (fun union a => union ∪ closures[a]?.getD ∅) ∅

def targets (n : EpsilonNfa) (s : StateSet) (symbol : SymbolId) : StateSet :=
  .ofList (n.moves.filterMap fun m =>
    if m.symbol = some symbol ∧ m.source ∈ s then some m.target else none)

/-- The closure of the states that one move on `symbol` leads to. -/
def moveOn (n : EpsilonNfa) (s : StateSet) (symbol : SymbolId) : StateSet := n.closure (n.targets s symbol)

end EpsilonNfa

/-- An automaton over dense states that was read off another one, with the state that each of its
own stands for. The states inside a label of several symbols stand for none. -/
structure ImportedNfa where
  nfa : EpsilonNfa
  origin : List (Option StateId)

namespace ImportedNfa

/-- Adds a path from `source` to `target` that reads `word`, through new states of its own. -/
def addPath (i : ImportedNfa) (source target : StateId) : Word → ImportedNfa
  | [] => { i with nfa := i.nfa.addEpsilon source target }
  | [c] => { i with nfa := i.nfa.addTransition source (SymbolId.ofChar c) target }
  | c :: rest =>
      let (middle, nfa) := i.nfa.addState
      let nfa := nfa.addTransition source (SymbolId.ofChar c) middle
      addPath ⟨nfa, i.origin ++ [none]⟩ middle target rest

/-- The states of a finite automaton, in order of creation, without moves. -/
def skeleton (a : Automaton) (initial : StateId) : EpsilonNfa :=
  let index := a.ids.idxOf?
  let nfa := { EpsilonNfa.empty with size := a.size }
  let nfa := (index initial).toList.foldl EpsilonNfa.addStart nfa
  (a.finals.toList.filterMap index).foldl EpsilonNfa.addFinal nfa

/-- Adds a path for a transition of a finite automaton. -/
def addTransition (a : Automaton) (i : ImportedNfa) (t : Transition) : ImportedNfa :=
  match t.label, a.ids.idxOf? t.source, a.ids.idxOf? t.target with
  | .finite read, some source, some target => i.addPath source target read
  | _, _, _ => i

/-- Reads a finite automaton. Its states come first, in order of creation. -/
def ofAutomaton (a : Automaton) : Except Error ImportedNfa := do
  a.requireFinite
  let initial ← a.requireInitial
  return a.transitions.foldl (addTransition a) ⟨skeleton a initial, a.ids.map some⟩

/-- The states of the imported automaton that the given ones stand for. -/
def origins (i : ImportedNfa) (states : List StateId) : StateSet :=
  .ofList (states.filterMap fun s => (i.origin[s]?).join)

end ImportedNfa

end LanguageTheory
