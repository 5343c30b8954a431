import LanguageTheory.Error
import LanguageTheory.Regex.Basic

/-! The notation of regular expressions. `+` is union, juxtaposition is concatenation and binds tighter,
a `*` after its operand is repetition and binds tightest, `λ` is the empty word and `∅` the empty
language. Blanks between symbols mean nothing. An expression is read in one pass with a stack of the
groups that are open. -/

namespace LanguageTheory.Regex

def isReserved (c : Char) : Bool :=
  c == '+' || c == '*' || c == '(' || c == ')' || c == 'λ' || c == '∅' || Text.isBlank c

/-! ### Writing -/

/-- How tightly the outermost construct binds. -/
def precedence : Regex → Nat
  | union .. => 0
  | concat .. => 1
  | star _ => 2
  | _ => 3

/-- The text of an operand, in parentheses if it binds less tightly than the place asks for. -/
def operand (least : Nat) (r : Regex) (text : Word) : Word :=
  if r.precedence < least then '(' :: text ++ [')'] else text

def shown : Regex → Word
  | empty => ['∅']
  | epsilon => ['λ']
  | symbol c => [c]
  | concat r s => operand 1 r r.shown ++ operand 1 s s.shown
  | union r s => r.shown ++ '+' :: s.shown
  | star r => operand 3 r r.shown ++ ['*']

def text (r : Regex) : String := String.ofList r.shown

/-- The structure of an expression, with every construct in prefix form. -/
def tree : Regex → String
  | empty => "∅"
  | epsilon => "λ"
  | symbol c => "'" ++ c.toString
  | concat r s => "C(" ++ r.tree ++ "," ++ s.tree ++ ")"
  | union r s => "U(" ++ r.tree ++ "," ++ s.tree ++ ")"
  | star r => "S(" ++ r.tree ++ ")"

/-! ### Reading -/

/-- What has been read of one group. -/
structure Group where
  /-- The union of the alternatives before the current one. -/
  alternatives : Option Regex
  /-- The current alternative without its last operand. -/
  product : Option Regex
  /-- The last operand. It is missing where one is expected. -/
  operand : Option Regex

namespace Group

def opened : Group := ⟨none, none, none⟩

/-- Takes the last operand into the current alternative. -/
def juxtapose (g : Group) : Group :=
  match g.operand with
  | none => g
  | some r => ⟨g.alternatives, some (g.product.elim r fun p => mkConcat p r), none⟩

def put (g : Group) (r : Regex) : Group := { g.juxtapose with operand := some r }

/-- The current alternative is over. -/
def alternate (g : Group) : Group :=
  match g.juxtapose.product with
  | none => g
  | some p => ⟨some (g.alternatives.elim p fun a => mkUnion a p), none, none⟩

/-- The expression that the group stands for. -/
def value? (g : Group) : Option Regex := g.alternate.alternatives

end Group

/-- The innermost group and the ones around it, from the inside out. -/
structure Reading where
  group : Group
  around : List Group

def Reading.begin : Reading := ⟨.opened, []⟩

/-- Reads one character that is not blank. -/
def Reading.next (s : Reading) (c : Char) : Except ExpressionDefect Reading :=
  if c = '(' then .ok ⟨.opened, s.group.juxtapose :: s.around⟩
  else if c = 'λ' then .ok { s with group := s.group.put epsilon }
  else if c = '∅' then .ok { s with group := s.group.put empty }
  else if c ≠ '+' ∧ c ≠ '*' ∧ c ≠ ')' then .ok { s with group := s.group.put (symbol c) }
  else
    match s.group.operand with
    | none => .error (.operandExpected c)
    | some r =>
        if c = '+' then .ok { s with group := s.group.alternate }
        else if c = '*' then .ok { s with group := { s.group with operand := some (mkStar r) } }
        else
          match s.around, s.group.value? with
          | outer :: around, some inner => .ok ⟨outer.put inner, around⟩
          | _, _ => .error (.unexpected c)

/-- The expression that has been read, at the end of the text. -/
def Reading.finish (s : Reading) : Except ExpressionDefect Regex :=
  match s.group.operand, s.group.value?, s.around with
  | some _, some r, [] => .ok r
  | some _, _, _ => .error .unclosed
  | none, _, _ => .error .missingOperand

def read (text : Word) : Except ExpressionDefect Regex := do
  ((← (Text.dropBlanks text).foldlM Reading.next .begin).finish)

/-- Reads an expression. The error names the whole text. -/
def parse (text : Word) : Except Error Regex :=
  match read text with
  | .ok r => .ok r
  | .error defect => .error (.expression text defect)

end LanguageTheory.Regex
