import LanguageTheory.Symbol

/-! Regular expressions, the words they stand for, and constructors that simplify as they build. -/

namespace LanguageTheory

inductive Regex
  /-- Stands for no word. -/
  | empty
  /-- Stands for the empty word alone. -/
  | epsilon
  | symbol (c : Char)
  | concat (left right : Regex)
  | union (left right : Regex)
  | star (inner : Regex)
deriving DecidableEq, Repr, Inhabited

namespace Regex

/-- `Matches r w`: the expression `r` stands for the word `w`, among others. -/
inductive Matches : Regex → Word → Prop
  | epsilon : Matches .epsilon []
  | symbol (c : Char) : Matches (.symbol c) [c]
  | concat {r s : Regex} {u v : Word} : Matches r u → Matches s v → Matches (.concat r s) (u ++ v)
  | left {r s : Regex} {w : Word} : Matches r w → Matches (.union r s) w
  | right {r s : Regex} {w : Word} : Matches s w → Matches (.union r s) w
  | stop {r : Regex} : Matches (.star r) []
  | more {r : Regex} {u v : Word} : Matches r u → Matches (.star r) v → Matches (.star r) (u ++ v)

/-- One expression after the other, where `empty` absorbs and `epsilon` is dropped. -/
def mkConcat : Regex → Regex → Regex
  | empty, _ => empty
  | _, empty => empty
  | epsilon, s => s
  | r, epsilon => r
  | r, s => concat r s

/-- Either expression, where `empty` is dropped and equal sides are merged. -/
def mkUnion : Regex → Regex → Regex
  | empty, s => s
  | r, empty => r
  | r, s => if r = s then r else union r s

def mkStar : Regex → Regex
  | empty => epsilon
  | epsilon => epsilon
  | star r => star r
  | r => star r

/-- The expression for a single word. -/
def ofWord (w : Word) : Regex := w.foldl (fun r c => mkConcat r (symbol c)) epsilon

end Regex

end LanguageTheory
