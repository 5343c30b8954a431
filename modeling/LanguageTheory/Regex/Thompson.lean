import LanguageTheory.Automaton.Basic
import LanguageTheory.Regex.Basic

/-! The finite automaton for a regular expression, built from one fragment for each of its parts. A
fragment is entered and left at one state each; fragments are tied together by moves that read
nothing. -/

namespace LanguageTheory.Regex

/-- A part of an automaton whose states are numbered below `next`. -/
structure Fragment where
  entry : StateId
  exit : StateId
  next : StateId
  moves : List Transition

def move (source target : StateId) (read : Word) : Transition := ⟨source, target, .finite read⟩

/-- The fragment for an expression with states numbered from `first` on. -/
def fragment (first : StateId) : Regex → Fragment
  | empty => ⟨first, first + 1, first + 2, []⟩
  | epsilon => ⟨first, first + 1, first + 2, [move first (first + 1) []]⟩
  | symbol c => ⟨first, first + 1, first + 2, [move first (first + 1) [c]]⟩
  | concat r s =>
      let f := fragment first r
      let g := fragment f.next s
      ⟨f.entry, g.exit, g.next, f.moves ++ g.moves ++ [move f.exit g.entry []]⟩
  | union r s =>
      let f := fragment (first + 2) r
      let g := fragment f.next s
      ⟨first, first + 1, g.next,
        f.moves ++ [move first f.entry [], move f.exit (first + 1) []] ++
          g.moves ++ [move first g.entry [], move g.exit (first + 1) []]⟩
  | star r =>
      let f := fragment (first + 2) r
      ⟨first, first + 1, f.next,
        f.moves ++ [move first f.entry [], move f.exit f.entry [], move f.exit (first + 1) [],
          move first (first + 1) []]⟩

/-- Adds a state to enter a fragment at, and one to leave it at. -/
def addEnds (a : Automaton) : StateId × StateId × Automaton :=
  let (entry, a) := a.addState
  let (exit, a) := a.addState
  (entry, exit, a)

/-- Adds the states and the moves of the fragment for an expression one after the other, each of which may
be refused, and tells where the fragment is entered and left. -/
def assemble : Regex → Automaton → Except Error (StateId × StateId × Automaton)
  | empty, a => return addEnds a
  | epsilon, a => do
      let (entry, exit, a) := addEnds a
      return (entry, exit, ← a.addTransition (move entry exit []))
  | symbol c, a => do
      let (entry, exit, a) := addEnds a
      return (entry, exit, ← a.addTransition (move entry exit [c]))
  | concat r s, a => do
      let (entry, left, a) ← r.assemble a
      let (right, exit, a) ← s.assemble a
      return (entry, exit, ← a.addTransition (move left right []))
  | union r s, a => do
      let (entry, exit, a) := addEnds a
      let (inner, outer, a) ← r.assemble a
      let a ← a.addTransitions [move entry inner [], move outer exit []]
      let (inner, outer, a) ← s.assemble a
      return (entry, exit, ← a.addTransitions [move entry inner [], move outer exit []])
  | star r, a => do
      let (entry, exit, a) := addEnds a
      let (inner, outer, a) ← r.assemble a
      return (entry, exit, ← a.addTransitions
        [move entry inner [], move outer inner [], move outer exit [], move entry exit []])

/-- The automaton for an expression, made by edits of an empty one. -/
def build (r : Regex) : Except Error Automaton := do
  let (entry, exit, a) ← r.assemble (Automaton.empty .finite)
  (← a.setInitial entry).addFinal exit

def toAutomaton (r : Regex) : Automaton :=
  let f := r.fragment 0
  { Automaton.ofLabels .finite (List.replicate f.next none) with
    initial := some f.entry
    finals := .ofList [f.exit]
    transitions := f.moves }

end LanguageTheory.Regex
