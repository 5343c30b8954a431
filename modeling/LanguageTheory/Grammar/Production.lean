import LanguageTheory.Symbol
import LanguageTheory.Text.Blank

/-! Grammar symbols and productions. The variables are the capital letters `A` to `Z`; every other
character is a terminal, apart from the end marker, `λ` and blanks, which are no grammar symbols. -/

namespace LanguageTheory

def isVariable (c : Char) : Bool := 'A' ≤ c && c ≤ 'Z'

def isTerminal (c : Char) : Bool := !isVariable c

theorem isTerminal_eq_false {c : Char} (hc : isVariable c = true) : isTerminal c = false := by
  rw [isTerminal, hc, Bool.not_true]

theorem isVariable_eq_false {c : Char} (hc : isTerminal c = true) : isVariable c = false := by
  rwa [isTerminal, Bool.not_eq_true'] at hc

/-- The variables in ascending order. -/
def capitals : List Char := "ABCDEFGHIJKLMNOPQRSTUVWXYZ".toList

theorem mem_capitals_of_isVariable {c : Char} (hc : isVariable c = true) : c ∈ capitals := by
  rw [isVariable, Bool.and_eq_true, decide_eq_true_eq, decide_eq_true_eq] at hc
  have hletters : capitals = (List.range 26).map fun k => Char.ofNat (65 + k) := by decide
  have hlower : 65 ≤ c.toNat := hc.1
  have hupper : c.toNat ≤ 90 := hc.2
  rw [hletters, List.mem_map]
  refine ⟨c.toNat - 65, List.mem_range.2 (by omega), ?_⟩
  rw [Nat.add_sub_cancel' hlower, Char.ofNat_toNat]

/-- Whether `c` may stand on a right-hand side. -/
def isGrammarSymbol (c : Char) : Bool := c != endMarker && c != lambda && !Text.isBlank c

/-- A rule `left → right`; an empty right-hand side stands for the empty word. -/
structure Production where
  left : Char
  right : Word
  left_isVariable : isVariable left = true
  right_isGrammarSymbol : right.all isGrammarSymbol = true
deriving DecidableEq

namespace Production

def length (p : Production) : Nat := p.right.length

def isEmpty (p : Production) : Bool := p.right.isEmpty

def symbol? (p : Production) (position : Nat) : Option Char := p.right[position]?

/-- The variables of the right-hand side in order, with repeats. -/
def variableSymbols (p : Production) : List Char := p.right.filter isVariable

/-- The terminals of the right-hand side in order, with repeats. -/
def terminals (p : Production) : List Char := p.right.filter isTerminal

/-- Splits a right-hand side `xB` or `x` into the terminal word `x` and the variable `B`, if any. A
right-hand side with a variable in another place has no such parts. -/
def linearParts? (p : Production) : Option (Word × Option Char) :=
  match p.right.span isTerminal with
  | (read, []) => some (read, none)
  | (read, [next]) => some (read, some next)
  | _ => none

def isRightLinear (p : Production) : Bool := p.linearParts?.isSome

/-- The notation of the production: `A → α`, with `λ` for the empty word. -/
def shown (p : Production) : Word := [p.left, ' ', '→', ' '] ++ p.right.shown

def text (p : Production) : String := String.ofList p.shown

end Production

end LanguageTheory
