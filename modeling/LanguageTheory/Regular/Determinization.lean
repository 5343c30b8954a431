import LanguageTheory.Regular.Equivalence
import LanguageTheory.Regular.Minimization
import LanguageTheory.Regular.Subsets

/-! Deterministic and minimal automata for a finite automaton, and whether two finite automata accept
the same words. -/

namespace LanguageTheory.Automaton

/-- The names of some states, separated by commas; nothing if there are none. -/
def joinedNames (a : Automaton) (ids : List StateId) : Option String :=
  if ids.isEmpty then none else some (",".intercalate (ids.map a.stateName))

/-- The subset construction for a finite automaton. -/
def subsetDfa (a : Automaton) : Except Error (Dfa × Automaton) := do
  let imported ← ImportedNfa.ofAutomaton a
  let dfa := imported.nfa.computeClosures.toDfa
  let members s := (dfa.origins.getD []).lookup s |>.getD []
  return (dfa, dfa.toAutomaton fun s => a.joinedNames (imported.origins (members s)).toList)

/-- A deterministic automaton for the same words. Each of its states is labelled with the names of the
states that it stands for. -/
def toDeterministic (a : Automaton) : Except Error Automaton := do
  return (← a.subsetDfa).2

/-- The automaton over dense states that is minimized, its graph, and the id of each of its states
there. An automaton that is deterministic already is taken as it stands. -/
def determinize (a : Automaton) : Except Error (Dfa × Automaton × List StateId) := do
  match ← Dfa.ofDeterministic a with
  | some (dfa, ids) => return (dfa, a, ids)
  | none =>
      let (dfa, graph) ← a.subsetDfa
      return (dfa, graph, graph.ids)

structure Minimization where
  /-- The automaton with the fewest states. -/
  automaton : Automaton
  /-- The deterministic automaton whose states were merged. -/
  refined : Automaton
  /-- For each state of the result, the states of `refined` merged in it. -/
  blocks : Partition
  /-- The partition of the reachable states of `refined` at first and after each round. -/
  rounds : List Partition

def minimize (a : Automaton) : Except Error Minimization := do
  let (dfa, refined, ids) ← a.determinize
  let minimized := dfa.minimize
  let named (p : Partition) : Partition := p.map fun block => block.filterMap (ids[·]?)
  let blocks := named minimized.blocks
  let automaton := minimized.dfa.toAutomaton fun s => blocks[s]?.bind refined.joinedNames
  return ⟨automaton, refined, blocks, minimized.rounds.map named⟩

def minimalDfa (a : Automaton) : Except Error Dfa := do
  return (← a.determinize).1.minimize.dfa

/-- Whether two finite automata accept the same words. -/
def equivalent (a b : Automaton) : Except Error Bool := do
  return (← a.minimalDfa).equivalent (← b.minimalDfa)

/-- Whether all the automata accept the same words as the first one. -/
def allEquivalent : List Automaton → Except Error Bool
  | [] => .ok true
  | first :: rest => go first rest
where
  go (first : Automaton) : List Automaton → Except Error Bool
    | [] => .ok true
    | a :: rest => do if ← first.equivalent a then go first rest else return false

end LanguageTheory.Automaton
