import LanguageTheory.Automaton.Basic
import LanguageTheory.Machine.Configuration

/-! One move of a machine, and when it accepts. -/

namespace LanguageTheory

/-- How a pushdown automaton accepts once its input is read. -/
inductive Acceptance
  | finalState
  | emptyStack
  | finalStateAndEmptyStack
deriving DecidableEq, Repr

structure SearchConfig where
  /-- How many configurations a search may produce before it stops to ask. -/
  bound : Nat := 10000
  /-- Only pushdown automata look at it. -/
  acceptance : Acceptance := .finalState
  /-- Whether a configuration that a search has met before is skipped. -/
  dedup : Bool := true
deriving DecidableEq, Repr

/-- An automaton ready to run. -/
structure Simulator where
  automaton : Automaton
  config : SearchConfig

namespace Simulator

/-- Refuses an automaton without an initial state or with a name for a state that is not there. -/
def of (a : Automaton) (config : SearchConfig) : Except Error Simulator := do
  a.validate
  return ⟨a, config⟩

/-- What the machine has at hand before its first move. -/
def initialStore (m : Simulator) (input : Word) : Store :=
  match m.automaton.kind with
  | .finite => .finite input
  | .pushdown => .pushdown input m.automaton.initialStack
  | .turing => .turing (.ofInput input)

def initialConfigurations (m : Simulator) (input : Word) : List Configuration :=
  m.automaton.initial.toList.map fun s => ⟨s, m.initialStore input⟩

/-- The configurations one move away, in the order of the transitions. -/
def step (m : Simulator) (c : Configuration) : List Configuration :=
  (m.automaton.transitionsFrom c.state).filterMap fun t =>
    (c.store.after? t.label).map fun store => ⟨t.target, store⟩

theorem mem_step {m : Simulator} {c d : Configuration} : d ∈ m.step c ↔
    ∃ t ∈ m.automaton.transitions, t.source = c.state ∧ t.target = d.state ∧
      c.store.after? t.label = some d.store := by
  simp only [step, Automaton.transitionsFrom, List.mem_filterMap, List.mem_filter, beq_iff_eq,
    Option.map_eq_some_iff]
  constructor
  · rintro ⟨t, ⟨ht, hs⟩, store, hstore, rfl⟩
    exact ⟨t, ht, hs, rfl, hstore⟩
  · rintro ⟨t, ht, hs, htarget, hstore⟩
    exact ⟨t, ⟨ht, hs⟩, d.store, hstore, by rw [htarget]⟩

/-- A machine that reads an input accepts only once it is used up. A Turing machine accepts as soon
as it is in a final state. -/
def accepts (m : Simulator) (c : Configuration) : Bool :=
  let final := m.automaton.isFinal c.state
  match c.store with
  | .finite remaining => remaining.isEmpty && final
  | .pushdown remaining stack =>
      remaining.isEmpty &&
        match m.config.acceptance with
        | .finalState => final
        | .emptyStack => stack.isEmpty
        | .finalStateAndEmptyStack => final && stack.isEmpty
  | .turing _ => final

/-- `depth` layers of successors below the given ones, repeats kept. -/
def layers (m : Simulator) : Nat → List Configuration → List (List Configuration)
  | 0, layer => [layer]
  | depth + 1, layer => layer :: layers m depth (layer.flatMap m.step)

end Simulator

end LanguageTheory
