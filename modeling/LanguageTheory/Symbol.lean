/-! Symbols and words. A symbol is one character and a word is a list of them. Automata over dense
state numbers name a symbol by the code of its character, so that numbers from different automata
agree; one number beyond every character stands for reading nothing. -/

namespace LanguageTheory

abbrev Word := List Char

/-- A character is hashed by its code. -/
instance hashableSymbol : Hashable Char := ⟨fun c => hash c.toNat⟩

/-- Shown in place of the empty word. -/
def lambda : Char := 'λ'

/-- The blank symbol of a tape. -/
def blank : Char := '□'

/-- Marks the end of the input in parse tables, and the bottom of a stack. -/
def endMarker : Char := '$'

/-- The word itself, or `λ` if it is empty. -/
def Word.shown (w : Word) : Word := if w.isEmpty then [lambda] else w

abbrev SymbolId := Nat

namespace SymbolId

/-- Stands for reading nothing. It is the code of no character. -/
def epsilon : SymbolId := 0xFFFFFFFF

def ofChar (c : Char) : SymbolId := c.toNat

def toChar? (s : SymbolId) : Option Char := if s.isValidChar then some (Char.ofNat s) else none

theorem toChar?_ofChar (c : Char) : toChar? (ofChar c) = some c := by
  have h : c.toNat.isValidChar := c.valid
  simp [toChar?, ofChar, h]

theorem toChar?_epsilon : toChar? epsilon = none := by decide

end SymbolId

end LanguageTheory
