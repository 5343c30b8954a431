import LanguageTheory.Machine.Simulator
import LanguageTheory.Words.Sampling

/-! The shortest words that a finite or pushdown automaton accepts. A node is a state with a stack and the
word read on the way to it. -/

namespace LanguageTheory

structure ReadingNode where
  state : StateId
  stack : Stack
  word : Word
deriving DecidableEq, Hashable

namespace Simulator

/-- The configuration at a node, with nothing left to read. -/
def configurationAt (m : Simulator) (n : ReadingNode) : Configuration :=
  match m.automaton.kind with
  | .pushdown => ⟨n.state, .pushdown [] n.stack⟩
  | _ => ⟨n.state, .finite []⟩

/-- The stack after a move and what the move reads. -/
def readMove? (n : ReadingNode) : Label → Option (Word × Stack)
  | .finite read => some (read, n.stack)
  | .pushdown read pop push => (n.stack.exchange? pop push).map fun stack => (read, stack)
  | .turing .. => none

def wordGraph (m : Simulator) : WordGraph ReadingNode where
  word? n := if m.accepts (m.configurationAt n) then some n.word else none
  successors length n :=
    (m.automaton.transitionsFrom n.state).filterMap fun t =>
      (readMove? n t.label).map fun (read, stack) =>
        (length + read.length, ⟨t.target, stack, n.word ++ read⟩)

end Simulator

/-- Up to `requested` words of at most `longest` symbols that the automaton accepts. -/
def Automaton.words (a : Automaton) (requested longest : Nat) (config : SearchConfig) :
    Except Error Words := do
  if a.kind = .turing then throw (.automaton (.unsupported .wordGeneration a.kind))
  let m ← Simulator.of a config
  match requested, a.initial with
  | 0, _ => return .none 0
  | _, none => return .none requested
  | _, some initial => return m.wordGraph.sample requested longest config.bound 0 ⟨initial, a.initialStack, []⟩

end LanguageTheory
