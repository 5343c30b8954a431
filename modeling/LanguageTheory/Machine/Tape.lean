import LanguageTheory.Automaton.Label

/-! A tape that is unbounded in both directions. The cells visited so far or holding input form a
window around the head; every cell beyond it is blank. -/

namespace LanguageTheory

/-- The cells to the left of the head, nearest first, the cell under it, and those to its right. -/
structure Tape where
  left : List Char
  cell : Char
  right : List Char
deriving DecidableEq, Repr, Hashable

namespace Tape

/-- A tape that holds the input, with the head on its first symbol. -/
def ofInput : Word → Tape
  | [] => ⟨[], blank, []⟩
  | c :: rest => ⟨[], c, rest⟩

def write (t : Tape) (c : Char) : Tape := { t with cell := c }

def shift (t : Tape) : Direction → Tape
  | .stay => t
  | .left =>
      match t.left with
      | [] => ⟨[], blank, t.cell :: t.right⟩
      | c :: rest => ⟨rest, c, t.cell :: t.right⟩
  | .right =>
      match t.right with
      | [] => ⟨t.cell :: t.left, blank, []⟩
      | c :: rest => ⟨t.cell :: t.left, c, rest⟩

/-- The place of the head within the window. -/
def head (t : Tape) : Nat := t.left.length

def cells (t : Tape) : Word := t.left.reverse ++ t.cell :: t.right

theorem head_lt_length_cells (t : Tape) : t.head < t.cells.length := by simp [head, cells]

theorem getElem?_cells_head (t : Tape) : t.cells[t.head]? = some t.cell := by
  simp [head, cells]

/-- The written part of the tape: from the first symbol to the last that is not blank. -/
def output (t : Tape) : Word :=
  ((t.cells.dropWhile (· = blank)).reverse.dropWhile (· = blank)).reverse

/-- The window, with the cell under the head in brackets. -/
def shown (t : Tape) : Word := t.left.reverse ++ '[' :: t.cell :: ']' :: t.right

end Tape

end LanguageTheory
