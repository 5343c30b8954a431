import LanguageTheory.Text.Printable

/-! Quoted text for error messages: strings stand between double quotes and characters between
single quotes. The quote itself, the backslash and four control characters have a short escape, any
other character that cannot be printed is written as its code in hexadecimal, and the rest stands for
itself. -/

namespace LanguageTheory.Text

/-- The way `c` is written between two characters `quote`. -/
def escape (quote c : Char) : List Char :=
  if c = quote ∨ c = '\\' then ['\\', c]
  else if c = '\x00' then ['\\', '0']
  else if c = '\t' then ['\\', 't']
  else if c = '\n' then ['\\', 'n']
  else if c = '\r' then ['\\', 'r']
  else if isPrintable c then [c]
  else ['\\', 'u', '\x7b'] ++ Nat.toDigits 16 c.toNat ++ ['\x7d']

def quoteString (text : String) : String :=
  String.ofList ('"' :: text.toList.flatMap (escape '"') ++ ['"'])

def quoteChar (c : Char) : String := String.ofList ('\'' :: escape '\'' c ++ ['\''])

end LanguageTheory.Text
