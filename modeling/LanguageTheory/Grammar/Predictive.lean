import LanguageTheory.Grammar.FirstFollow
import LanguageTheory.Grammar.Parsing

/-! The predictive table of a grammar, with one symbol of lookahead, and top-down parsing with it. Rows
are variables and columns are terminals and the end marker. A cell holds every production that claims
it; one with several is a conflict, and parsing takes it for empty. -/

namespace LanguageTheory

structure PredictiveTable where
  grammar : Grammar
  /-- For each production, the symbols it is chosen on. -/
  lookaheads : List (Ascending Char)

namespace PredictiveTable

/-- The symbols that can come next where a production is to be used. -/
def lookahead (sets : FirstFollow) (p : Production) : Ascending Char :=
  sets.firstOf p.right ∪ if sets.isNullable p.right then sets.follow p.left else ∅

def build (g : Grammar) : PredictiveTable := ⟨g, g.productions.map (lookahead (.of g))⟩

/-- The indices of the productions in a cell. -/
def entries (t : PredictiveTable) (v symbol : Char) : List Nat :=
  (t.grammar.productions.zip t.lookaheads).zipIdx.filterMap fun ((p, lookahead), i) =>
    if p.left = v ∧ symbol ∈ lookahead then some i else none

/-- The production in a cell that holds exactly one. -/
def get? (t : PredictiveTable) (v symbol : Char) : Option Production :=
  match t.entries v symbol with
  | [i] => t.grammar.productions[i]?
  | _ => none

/-- The symbols that head a column. -/
def columns (t : PredictiveTable) : Ascending Char := t.lookaheads.foldl (· ∪ ·) ∅

/-- The cells that several productions claim, by row and then by column. -/
def conflicts (t : PredictiveTable) : List (Char × Char) :=
  t.grammar.variableSymbols.toList.flatMap fun v =>
    (t.columns.toList.filter fun symbol => 1 < (t.entries v symbol).length).map fun symbol => (v, symbol)

def firstConflict? (t : PredictiveTable) : Option Error := do
  let (v, symbol) ← t.conflicts.head?
  let existing ← t.grammar.productions[← (t.entries v symbol)[0]?]?
  let incoming ← t.grammar.productions[← (t.entries v symbol)[1]?]?
  return .ruleConflict v symbol existing incoming

/-- What a parse expects, topmost first, and the rest of the input with the end marker. -/
structure Parse where
  stack : List Char
  rest : Word

def step (t : PredictiveTable) (s : Parse) : ParseStep Parse :=
  match s.stack, s.rest with
  | [], rest => .verdict rest.isEmpty
  | _ :: _, [] => .verdict false
  | top :: stack, lookahead :: rest =>
      if isVariable top then
        match t.get? top lookahead with
        | some p => .next ⟨p.right ++ stack, lookahead :: rest⟩
        | none => .verdict false
      else if top = lookahead then .next ⟨stack, rest⟩
      else .verdict false

def start (t : PredictiveTable) (input : Word) : Parse :=
  ⟨[t.grammar.start, endMarker], input ++ [endMarker]⟩

/-- More steps than any parse of the input takes. Between two symbols of the input, the replacements
below one variable on the stack form a tree that is at most twice as deep as there are variables. -/
def limit (t : PredictiveTable) (input : Word) : Nat :=
  let tree := Nat.pow (t.grammar.width + 2) (2 * t.grammar.variableSymbols.size + 3)
  let trees := (input.length + 3) * tree
  trees * trees

def accepts (t : PredictiveTable) (input : Word) : Bool :=
  (ParseStep.run t.step (t.limit input) (t.start input)).getD false

end PredictiveTable

/-- The predictive table, if no cell is claimed twice. -/
def Grammar.predictiveTable (g : Grammar) : Except Error PredictiveTable :=
  let t := PredictiveTable.build g
  match t.firstConflict? with
  | some conflict => .error conflict
  | none => .ok t

end LanguageTheory
