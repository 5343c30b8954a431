import LanguageTheory.Automaton.Basic

/-! What an automaton reads, where it reads nothing, and where it has a choice. -/

namespace LanguageTheory

/-- Whether one of the words begins with the other. -/
def Word.comparable (u v : Word) : Bool := u.isPrefixOf v || v.isPrefixOf u

/-- Whether two moves out of one state can both be possible. -/
def Label.overlaps : Label → Label → Bool
  | finite r, finite r' => Word.comparable r r'
  | pushdown r p _, pushdown r' p' _ => Word.comparable r r' && Word.comparable p p'
  | turing r _ _, turing r' _ _ => r == r'
  | _, _ => false

/-- Whether two moves at different places of the list overlap. -/
def Label.clash : List Label → Bool
  | [] => false
  | l :: rest => rest.any l.overlaps || clash rest

/-- The input symbols that the label reads. The blank of a tape is none. -/
def Label.inputSymbols : Label → List Char
  | finite read => read
  | pushdown read _ _ => read
  | turing read _ _ => if read = blank then [] else [read]

namespace Automaton

/-- The states with two moves that can be possible at once, in order of creation. -/
def nondeterministicStates (a : Automaton) : List StateId :=
  a.ids.filter fun s => Label.clash ((a.transitionsFrom s).map (·.label))

def isDeterministic (a : Automaton) : Bool := a.nondeterministicStates.isEmpty

def lambdaTransitions (a : Automaton) : List Transition := a.transitions.filter Transition.isLambda

def alphabet (a : Automaton) : Ascending Char :=
  .ofList (a.transitions.flatMap (·.label.inputSymbols))

end Automaton

end LanguageTheory
