import LanguageTheory.Automaton.Basic
import LanguageTheory.Regex.Notation

/-! The expression for the words of a finite automaton, by eliminating its states one after the other.
The states are numbered in order of creation; a start and an end are added after them, tied to the
automaton by moves that read nothing. -/

namespace LanguageTheory.Regex

/-- What may be read on the way from one state directly to another, by rows. -/
abbrev Cells := Array (Array (Option Regex))

namespace Cells

def tabulate (size : Nat) (f : Nat → Nat → Option Regex) : Cells :=
  (Array.range size).map fun p => (Array.range size).map (f p)

def cell (t : Cells) (p q : Nat) : Option Regex := ((t[p]?).bind (·[q]?)).join

/-- Allows `new` beside what a cell allows already. -/
def merge (old : Option Regex) (new : Regex) : Option Regex :=
  some (old.elim new fun r => mkUnion r new)

/-- Takes state `q` out: every way through it becomes a direct one. -/
def eliminate (size : Nat) (t : Cells) (q : Nat) : Cells :=
  let loop := mkStar ((t.cell q q).getD empty)
  tabulate size fun p r =>
    if p = q ∨ r = q then none
    else
      match t.cell p q, t.cell q r with
      | some into, some out => merge (t.cell p r) (mkConcat (mkConcat into loop) out)
      | _, _ => t.cell p r

end Cells

end Regex

namespace Automaton

/-- The labelled edges that elimination starts from, between places of states. -/
def regexEdges (a : Automaton) : List (Nat × Nat × Regex) :=
  let index := a.ids.idxOf?
  let start := a.size
  let final := a.size + 1
  (a.initial.bind index).toList.map (fun i => (start, i, .epsilon)) ++
    (a.finals.toList.filterMap index).map (fun i => (i, final, .epsilon)) ++
    a.transitions.filterMap fun t =>
      match t.label, index t.source, index t.target with
      | .finite read, some p, some q => some (p, q, .ofWord read)
      | _, _, _ => none

/-- The first move that reads a character with a meaning of its own in expressions. -/
def reservedMove? (a : Automaton) : Option Transition :=
  a.transitions.find? fun t => (t.label.read?.getD []).any Regex.isReserved

def toRegex (a : Automaton) : Except Error Regex := do
  a.requireFinite
  let _ ← a.requireInitial
  match a.reservedMove? with
  | some t => throw (.expression (t.label.read?.getD []) (.reservedLabel t))
  | none =>
      let size := a.size + 2
      let edges := a.regexEdges
      let cells := Regex.Cells.tabulate size fun p q =>
        (edges.filter fun e => e.1 = p ∧ e.2.1 = q).foldl (fun old e => Regex.Cells.merge old e.2.2) none
      let cells := (List.range a.size).foldl (Regex.Cells.eliminate size) cells
      return (cells.cell a.size (a.size + 1)).getD .empty

end Automaton

end LanguageTheory
