import LanguageTheory.Symbol

/-! The stack of a pushdown automaton, listed from the top down. -/

namespace LanguageTheory

abbrev Stack := List Char

namespace Stack

/-- Whether `w` can be read off the top of the stack. -/
def shows (s : Stack) (w : Word) : Bool := w.isPrefixOf s

/-- The topmost `n` symbols, or all of them if there are fewer, and the stack without them. -/
def pop (s : Stack) (n : Nat) : Word × Stack := (s.take n, s.drop n)

/-- Puts `w` on the stack so that its first symbol ends up on top. -/
def push (s : Stack) (w : Word) : Stack := w ++ s

theorem pop_append (s : Stack) (n : Nat) : (s.pop n).1 ++ (s.pop n).2 = s := List.take_append_drop n s

theorem pop_push (s : Stack) (w : Word) : (s.push w).pop w.length = (w, s) := by simp [pop, push]

theorem shows_push (s : Stack) (w : Word) : (s.push w).shows w = true := by
  simp [shows, push, List.isPrefixOf_iff_prefix]

/-- Replaces the word `out` on top by `into`, if it is there. -/
def exchange? (s : Stack) (out into : Word) : Option Stack :=
  if s.shows out then some ((s.pop out.length).2.push into) else none

end Stack

end LanguageTheory
