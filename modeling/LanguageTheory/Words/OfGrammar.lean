import LanguageTheory.Grammar.Basic
import LanguageTheory.Words.Sampling

/-! The shortest words that a grammar derives, by leftmost derivations. A node is a sentential form; it
waits in the bucket of the shortest word it can still become, which is counted with 64 bits. -/

namespace LanguageTheory

/-- The number of values of a counter of 64 bits. -/
def counterSize : Nat := UInt64.size

/-- Lengths of words, by variable. -/
abbrev Yields := List (Char × Nat)

namespace Yields

def set (yields : Yields) (v : Char) (length : Nat) : Yields :=
  match yields with
  | [] => [(v, length)]
  | (u, l) :: rest => if u = v then (u, length) :: rest else (u, l) :: set rest v length

/-- The length of a word that a form becomes if every variable yields what the table says. There is none
if the table lacks a variable. -/
def lowerBound (yields : Yields) (form : Word) : Option Nat :=
  form.foldlM (fun sum c => do
    let length ← if isVariable c then yields.lookup c else some 1
    return (sum + length) % counterSize) 0

/-- Lowers the entry of a production's variable to what its right-hand side allows, and says whether
that changed it. -/
def improve (state : Yields × Bool) (p : Production) : Yields × Bool :=
  match state.1.lowerBound p.right with
  | none => state
  | some cost =>
      let best := (state.1.lookup p.left).getD (counterSize - 1)
      (state.1.set p.left (min cost best), state.2 || cost < best)

/-- At most `limit` rounds over the productions, ending with one that changes nothing. -/
def settle (productions : List Production) : Nat → Yields → Yields
  | 0, yields => yields
  | limit + 1, yields =>
      match productions.foldl improve (yields, false) with
      | (yields, true) => settle productions limit yields
      | (yields, false) => yields

end Yields

namespace Grammar

/-- The length of the shortest word that each variable derives. A round that changes anything lowers one
of the entries, and there are no more of them than variables. -/
def shortestYields (g : Grammar) : Yields :=
  Yields.settle g.productions (capitals.length * counterSize) []

/-- The forms one leftmost step away. -/
def leftmostSteps (g : Grammar) (form : Word) : List Word :=
  match form.span isTerminal with
  | (_, []) => []
  | (before, v :: after) => (g.productionsFor v).map fun p => before ++ p.right ++ after

def wordGraph (g : Grammar) (yields : Yields) : WordGraph Word where
  word? form := if form.all isTerminal then some form else none
  successors _ form :=
    (g.leftmostSteps form).filterMap fun child => (yields.lowerBound child).map fun length => (length, child)

/-- Up to `requested` words of at most `longest` symbols that the grammar derives. -/
def words (g : Grammar) (requested longest bound : Nat) : Words :=
  let yields := g.shortestYields
  match requested, yields.lowerBound [g.start] with
  | 0, _ => .none 0
  | _, none => .none requested
  | _, some length =>
      if longest < length then .none requested
      else (g.wordGraph yields).sample requested longest bound length [g.start]

end Grammar

end LanguageTheory
