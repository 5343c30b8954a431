import LanguageTheory.Machine.Stack
import LanguageTheory.Machine.Tape

/-! Configurations: a state together with what the machine has at hand in it. -/

namespace LanguageTheory

inductive Store
  | finite (remaining : Word)
  | pushdown (remaining : Word) (stack : Stack)
  | turing (tape : Tape)
deriving DecidableEq, Repr, Hashable

namespace Store

/-- The unread input, for machines that read one. -/
def remaining? : Store → Option Word
  | finite remaining => some remaining
  | pushdown remaining _ => some remaining
  | turing _ => none

def stack? : Store → Option Stack
  | pushdown _ stack => some stack
  | _ => none

def tape? : Store → Option Tape
  | turing tape => some tape
  | _ => none

def shown : Store → Word
  | finite remaining => " INPUT: ".toList ++ remaining
  | pushdown remaining stack => " INPUT: ".toList ++ remaining ++ " STACK: ".toList ++ stack
  | turing tape => " TAPE: ".toList ++ tape.shown

/-- What the store becomes by a move with this label, if the move is possible. -/
def after? : Label → Store → Option Store
  | .finite read, finite remaining => (read.isPrefixOf? remaining).map finite
  | .pushdown read pop push, pushdown remaining stack => do
      let rest ← read.isPrefixOf? remaining
      let stack ← stack.exchange? pop push
      return pushdown rest stack
  | .turing read write direction, turing tape =>
      if tape.cell = read then some (turing ((tape.write write).shift direction)) else none
  | _, _ => none

end Store

structure Configuration where
  state : StateId
  store : Store
deriving DecidableEq, Repr, Hashable

def Configuration.text (c : Configuration) : String :=
  "q" ++ toString c.state ++ String.ofList c.store.shown

end LanguageTheory
