import LanguageTheory.Symbol

/-! Kinds of machines and what their moves are labelled with. -/

namespace LanguageTheory

abbrev StateId := Nat

inductive Kind
  | finite
  | pushdown
  | turing
deriving DecidableEq, Repr

def Kind.name : Kind → String
  | .finite => "finite state"
  | .pushdown => "pushdown"
  | .turing => "Turing"

/-- Where the head of a tape goes after writing. -/
inductive Direction
  | left
  | right
  | stay
deriving DecidableEq, Repr, Hashable

def Direction.letter : Direction → Char
  | .left => 'L'
  | .right => 'R'
  | .stay => 'S'

/-- What a move reads and, for a stack or a tape, what it does there. The stack words `pop` and `push`
have the topmost symbol first. -/
inductive Label
  | finite (read : Word)
  | pushdown (read pop push : Word)
  | turing (read write : Char) (direction : Direction)
deriving DecidableEq, Repr

namespace Label

def kind : Label → Kind
  | finite _ => .finite
  | pushdown .. => .pushdown
  | turing .. => .turing

/-- The input that the move consumes. A move on a tape consumes none. -/
def read? : Label → Option Word
  | finite read => some read
  | pushdown read _ _ => some read
  | turing .. => none

def shown : Label → Word
  | finite read => read.shown
  | pushdown read pop push => read.shown ++ [',', ' '] ++ pop.shown ++ [';', ' '] ++ push.shown
  | turing read write direction => [read, ';', ' ', write, ',', ' ', direction.letter]

def text (label : Label) : String := String.ofList label.shown

end Label

structure Transition where
  source : StateId
  target : StateId
  label : Label
deriving DecidableEq, Repr

namespace Transition

def kind (t : Transition) : Kind := t.label.kind

/-- Whether the move belongs to a machine that reads an input but consumes none of it. -/
def isLambda (t : Transition) : Bool := t.label.read? == some []

def touches (t : Transition) (s : StateId) : Bool := t.source == s || t.target == s

def text (t : Transition) : String :=
  "q" ++ toString t.source ++ " -> q" ++ toString t.target ++ " [" ++ t.label.text ++ "]"

end Transition

end LanguageTheory
