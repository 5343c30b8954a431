/-! Blank characters and lines. A blank is a character with the Unicode property White_Space. A line
ends at a line feed, or at a carriage return directly followed by one; a carriage return elsewhere
is a blank like any other. -/

namespace LanguageTheory.Text

def isBlank (c : Char) : Bool :=
  let n := c.toNat
  (0x09 ≤ n && n ≤ 0x0D) || n == 0x20 || n == 0x85 || n == 0xA0 || n == 0x1680 ||
    (0x2000 ≤ n && n ≤ 0x200A) || n == 0x2028 || n == 0x2029 || n == 0x202F || n == 0x205F ||
    n == 0x3000

theorem isBlank_of_isWhitespace {c : Char} (h : c.isWhitespace = true) : isBlank c = true := by
  simp only [Char.isWhitespace, Bool.or_eq_true, decide_eq_true_eq] at h
  rcases h with ((h | h) | h) | h <;> subst h <;> decide

/-- The text without its leading and trailing blanks. -/
def trim (text : List Char) : List Char :=
  ((text.dropWhile isBlank).reverse.dropWhile isBlank).reverse

/-- The text without any blank. -/
def dropBlanks (text : List Char) : List Char := text.filter fun c => !isBlank c

theorem not_isBlank_of_mem_dropBlanks {c : Char} {text : List Char} (h : c ∈ dropBlanks text) :
    isBlank c = false := by
  simpa using (List.mem_filter.1 h).2

@[simp] theorem dropBlanks_append (s t : List Char) :
    dropBlanks (s ++ t) = dropBlanks s ++ dropBlanks t := List.filter_append ..

@[simp] theorem dropBlanks_dropBlanks (s : List Char) : dropBlanks (dropBlanks s) = dropBlanks s := by
  simp [dropBlanks]

/-- The lines of a text. A text that ends with a line end has no further, empty line. -/
def lines : List Char → List (List Char)
  | [] => []
  | '\n' :: rest => [] :: lines rest
  | '\r' :: '\n' :: rest => [] :: lines rest
  | c :: rest =>
      match lines rest with
      | [] => [[c]]
      | line :: others => (c :: line) :: others

end LanguageTheory.Text
