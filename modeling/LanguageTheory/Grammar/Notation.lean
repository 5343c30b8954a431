import LanguageTheory.Grammar.Basic

/-! Reading productions and grammars. A production is `A -> α` or `A → α`. On the right-hand side blanks
mean nothing and `λ` alone is the empty word. A grammar has one variable to a line, with its right-hand
sides separated by `|`; the first line names the start variable. -/

namespace LanguageTheory

/-- The text before and after the first occurrence of a mark. -/
def splitOnce (mark : Word) : Word → Option (Word × Word)
  | [] => none
  | c :: rest =>
      match mark.isPrefixOf? (c :: rest) with
      | some after => some ([], after)
      | none => (splitOnce mark rest).map fun (before, after) => (c :: before, after)

/-- The pieces between the occurrences of a mark. -/
def pieces (mark : Char) : Word → List Word
  | [] => [[]]
  | c :: rest =>
      if c = mark then [] :: pieces mark rest
      else
        match pieces mark rest with
        | [] => [[c]]
        | piece :: others => (c :: piece) :: others

namespace Production

/-- Splits at the first `->`, or at the first `→` if there is none. -/
def splitArrow (text : Word) : Option (Word × Word) :=
  (splitOnce ['-', '>'] text).or (splitOnce ['→'] text)

/-- The right-hand side that a text stands for. -/
def readRight (text : Word) : Word :=
  let right := Text.dropBlanks text
  if right = [lambda] then [] else right

/-- The single character on a left-hand side. The other side is only for the error. -/
def readLeft (text right : Word) : Except Error Char :=
  match Text.trim text with
  | [c] => .ok c
  | [] => .error (.production (refusedText [] right) .emptyLeft)
  | left => .error (.production (refusedText left right) .longLeft)

def parse (text : Word) : Except Error Production :=
  match splitArrow text with
  | none => .error (.production (refusedText (Text.trim text) []) .missingArrow)
  | some (left, right) => do
      let right := readRight right
      if right.contains '|' then throw (.production (refusedText left right) .alternatives)
      of (← readLeft left right) right

end Production

namespace Grammar

/-- The variable of a line and the text of its right-hand sides. -/
def readLine (line : Word) : Except Error (Char × Word) :=
  match Production.splitArrow line with
  | none => .error (.production (Text.trim line) .missingArrow)
  | some (left, right) => return (← Production.readLeft left right, right)

/-- Adds the productions of one line. -/
def addLine (g : Grammar) (line : Char × Word) : Except Error Grammar :=
  (pieces '|' line.2).foldlM (fun g right => g.addSides line.1 (Production.readRight right)) g

/-- Reads a grammar. Lines without a text are skipped. -/
def parse (text : Word) : Except Error Grammar := do
  let lines ← ((Text.lines text).filter fun line => !(Text.trim line).isEmpty).mapM readLine
  match lines with
  | [] => throw (.production [] .noProductions)
  | first :: rest => (first :: rest).foldlM addLine (← of first.1)

end Grammar

end LanguageTheory
