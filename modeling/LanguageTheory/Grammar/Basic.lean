import LanguageTheory.Error
import LanguageTheory.Finite.Ascending

/-! Context-free grammars, checked as they are built: every production fits the symbols of a grammar,
and no production is listed twice. -/

namespace LanguageTheory

namespace Production

/-- The text that an error shows for two sides that are no production. -/
def refusedText (left right : Word) : Word := left ++ '-' :: '>' :: right

/-- The production with the given sides, if they hold nothing but grammar symbols. -/
def of (left : Char) (right : Word) : Except Error Production :=
  if hl : isVariable left = true then
    if right.contains endMarker then .error (.production (refusedText [left] right) .holdsEndMarker)
    else if hr : right.all isGrammarSymbol = true then .ok ⟨left, right, hl, hr⟩
    else .error (.production (refusedText [left] right) .holdsNonSymbol)
  else .error (.production (refusedText [left] right) .leftNotVariable)

end Production

/-- A start variable and a list of distinct productions. -/
structure Grammar where
  start : Char
  productions : List Production
  start_isVariable : isVariable start = true
  nodup : productions.Nodup

namespace Grammar

instance : DecidableEq Grammar := fun g h =>
  decidable_of_iff (g.start = h.start ∧ g.productions = h.productions) (by
    cases g
    cases h
    simp only [mk.injEq])

/-- The grammar without productions. -/
def of (start : Char) : Except Error Grammar :=
  if h : isVariable start = true then .ok ⟨start, [], h, .nil⟩
  else .error (.production [start] .startNotVariable)

theorem nodup_concat {l : List Production} {p : Production} (hl : l.Nodup) (hp : p ∉ l) :
    (l ++ [p]).Nodup := by
  rw [List.nodup_append]
  exact ⟨hl, by simp, by grind⟩

/-- Appends a production, unless it is there already. -/
def add (g : Grammar) (p : Production) : Grammar :=
  if h : p ∈ g.productions then g
  else { g with productions := g.productions ++ [p], nodup := nodup_concat g.nodup h }

theorem mem_add {g : Grammar} {p q : Production} : p ∈ (g.add q).productions ↔ p ∈ g.productions ∨ p = q := by
  rw [add]
  split
  next hq => exact (or_iff_left_of_imp fun h => h ▸ hq).symm
  next => rw [List.mem_append, List.mem_singleton]

theorem start_add (g : Grammar) (q : Production) : (g.add q).start = g.start := by
  rw [add]
  split <;> rfl

def ofProductions (start : Char) (productions : List Production) : Except Error Grammar := do
  return productions.foldl add (← of start)

/-- Appends the production with the given sides. -/
def addSides (g : Grammar) (left : Char) (right : Word) : Except Error Grammar := do
  return g.add (← Production.of left right)

def productionsFor (g : Grammar) (v : Char) : List Production := g.productions.filter (·.left == v)

/-- The start variable and every variable in a production. -/
def variableSymbols (g : Grammar) : Ascending Char :=
  .ofList (g.start :: g.productions.flatMap fun p => p.left :: p.variableSymbols)

def terminals (g : Grammar) : Ascending Char := .ofList (g.productions.flatMap Production.terminals)

def isRightLinear (g : Grammar) : Bool := g.productions.all Production.isRightLinear

/-- The first capital letter that the grammar does not use. -/
def freshVariable (g : Grammar) : Except Error Char :=
  match capitals.find? fun c => !decide (c ∈ g.variableSymbols) with
  | some c => .ok c
  | none => .error .noFreeVariable

/-- The length of the longest right-hand side. -/
def width (g : Grammar) : Nat := (g.productions.map Production.length).foldl max 0

/-- The number of symbols on all right-hand sides together. -/
def volume (g : Grammar) : Nat := (g.productions.map Production.length).foldl (· + ·) 0

/-- One production to a line. -/
def shown (g : Grammar) : Word := g.productions.flatMap fun p => p.shown ++ ['\n']

def text (g : Grammar) : String := String.ofList g.shown

/-- One step of a derivation: some variable is replaced by a right-hand side. -/
inductive Step (g : Grammar) : Word → Word → Prop
  | intro (before after : Word) (p : Production) : p ∈ g.productions →
      Step g (before ++ p.left :: after) (before ++ p.right ++ after)

/-- `Derives g u v`: replacing variables turns `u` into `v`. -/
inductive Derives (g : Grammar) (u : Word) : Word → Prop
  | refl : Derives g u u
  | step {v w : Word} : Derives g u v → Step g v w → Derives g u w

/-- Whether the start variable derives the word, which has no variables left. -/
def Generates (g : Grammar) (w : Word) : Prop := w.all isTerminal = true ∧ g.Derives [g.start] w

end Grammar

end LanguageTheory
