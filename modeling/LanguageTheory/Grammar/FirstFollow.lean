import LanguageTheory.Finite.Exploration
import LanguageTheory.Finite.Saturation
import LanguageTheory.Grammar.Basic

/-! Which variables derive the empty word, which terminals can begin what a string derives (FIRST), and
which can come after a variable (FOLLOW). All three are reachability: a variable is nullable if the
productions, read as rules, derive it; FIRST follows the symbols that can come to stand in front; FOLLOW
passes from the variable on the left of a production to one that can end its right-hand side. -/

namespace LanguageTheory

namespace Grammar

/-- The variables that derive the empty word. -/
def nullable (g : Grammar) : Ascending Char :=
  .ofList (Rule.consequences (g.productions.map fun p => ⟨p.right, p.left⟩))

/-- The symbols of a string that come to stand in front once the nullable ones before them vanish. -/
def leading (nullable : Ascending Char) : Word → List Char
  | [] => []
  | c :: rest => if c ∈ nullable then c :: leading nullable rest else [c]

/-- What can stand in front after a variable in front is replaced. -/
def fronts (g : Grammar) (nullable : Ascending Char) (c : Char) : List Char :=
  (g.productionsFor c).flatMap fun p => leading nullable p.right

/-- The terminals that can begin what a string derives. -/
def firstOf (g : Grammar) (nullable : Ascending Char) (w : Word) : Ascending Char :=
  .ofList ((explore (g.fronts nullable) (w.length + g.volume) (leading nullable w)).filter isTerminal)

/-- What comes after each occurrence of a symbol in a string. -/
def rests (c : Char) : Word → List Word
  | [] => []
  | d :: rest => if d = c then rest :: rests c rest else rests c rest

/-- The variables whose FOLLOW set belongs to that of `v`, as `v` can end what they derive. -/
def hosts (g : Grammar) (nullable : Ascending Char) (v : Char) : List Char :=
  g.productions.filterMap fun p =>
    if (rests v p.right).any (·.all (· ∈ nullable)) then some p.left else none

/-- The terminals that can come after `v` within one right-hand side. The end marker comes after the
start variable. -/
def neighbours (g : Grammar) (nullable : Ascending Char) (v : Char) : List Char :=
  (if v = g.start then [endMarker] else []) ++
    g.productions.flatMap fun p => (rests v p.right).flatMap fun w => (g.firstOf nullable w).toList

/-- The terminals that can come after a variable, and the end marker if it can come last. -/
def followOf (g : Grammar) (nullable : Ascending Char) (v : Char) : Ascending Char :=
  .ofList ((explore (g.hosts nullable) (g.productions.length + 1) [v]).flatMap (g.neighbours nullable))

/-- FIRST of every variable. -/
def first (g : Grammar) : List (Char × Ascending Char) :=
  let nullable := g.nullable
  g.variableSymbols.toList.map fun v => (v, g.firstOf nullable [v])

/-- FOLLOW of every variable. -/
def follow (g : Grammar) : List (Char × Ascending Char) :=
  let nullable := g.nullable
  g.variableSymbols.toList.map fun v => (v, g.followOf nullable v)

end Grammar

/-- The three of them, for one grammar. -/
structure FirstFollow where
  grammar : Grammar
  nullable : Ascending Char
  firstSets : List (Char × Ascending Char)
  followSets : List (Char × Ascending Char)

namespace FirstFollow

def of (g : Grammar) : FirstFollow := ⟨g, g.nullable, g.first, g.follow⟩

/-- FIRST of a variable of the grammar; empty for any other symbol. -/
def first (f : FirstFollow) (v : Char) : Ascending Char := (f.firstSets.lookup v).getD ∅

def follow (f : FirstFollow) (v : Char) : Ascending Char := (f.followSets.lookup v).getD ∅

/-- Whether every symbol derives the empty word. -/
def isNullable (f : FirstFollow) (w : Word) : Bool := w.all (· ∈ f.nullable)

def firstOf (f : FirstFollow) (w : Word) : Ascending Char := f.grammar.firstOf f.nullable w

end FirstFollow

end LanguageTheory
