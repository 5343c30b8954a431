import LanguageTheory.Automaton.Basic
import LanguageTheory.Grammar.FirstFollow
import LanguageTheory.Grammar.Item
import LanguageTheory.Grammar.Parsing

/-! Shift-reduce tables with reductions chosen by FOLLOW, and bottom-up parsing with them. The states of
a table are the item sets reachable from the initial one. A cell holds every action that claims it; one
with several is a conflict, and parsing takes it for empty. -/

namespace LanguageTheory

/-- An edge of the graph of item sets. -/
structure GotoEdge where
  source : Nat
  symbol : Char
  target : Nat
deriving DecidableEq, Repr

namespace AugmentedGrammar

/-- All items, with the dot in every place. -/
def itemCount (g : AugmentedGrammar) : Nat := (g.productions.map fun p => p.length + 1).foldl (· + ·) 0

/-- The item sets reachable from the initial one, in the order in which a breadth-first walk meets them,
symbols in ascending order. -/
def itemSets (g : AugmentedGrammar) : List ItemSet :=
  explore (fun items => (g.afterDots items).toList.map (g.goto items)) (Nat.pow 2 g.itemCount) [g.initialItems]

/-- The edges between the given item sets, by source and then by symbol. -/
def gotoEdges (g : AugmentedGrammar) (sets : List ItemSet) : List GotoEdge :=
  sets.zipIdx.flatMap fun (items, source) =>
    (g.afterDots items).toList.filterMap fun symbol =>
      (sets.idxOf? (g.goto items symbol)).map fun target => ⟨source, symbol, target⟩

def hasComplete (g : AugmentedGrammar) (items : ItemSet) : Bool := items.toList.any g.isComplete

end AugmentedGrammar

/-- One state of a table: the claims to its cells by symbol, and where to go after a reduction. -/
structure ShiftReduceTable.Row where
  actions : List (Char × List Action)
  gotos : List (Char × Nat)

structure ShiftReduceTable where
  augmented : AugmentedGrammar
  rows : List ShiftReduceTable.Row

namespace ShiftReduceTable

/-- The actions that a completed item claims, with their symbols. -/
def completions (g : AugmentedGrammar) (sets : FirstFollow) (i : Item) : List (Char × Action) :=
  match AugmentedGrammar.originalIndex i.production, g.productions[i.production]? with
  | none, _ => [(endMarker, .accept)]
  | some index, some p => (sets.follow p.left).toList.map fun symbol => (symbol, .reduce index)
  | some _, none => []

/-- The row of one state: shifts first, then what its completed items claim. -/
def row (g : AugmentedGrammar) (sets : FirstFollow) (items : ItemSet) (edges : List GotoEdge) : Row :=
  let shifts := (edges.filter fun e => isTerminal e.symbol).map fun e => (e.symbol, Action.shift e.target)
  let claims := shifts ++ (items.toList.filter g.isComplete).flatMap (completions g sets)
  let symbols : Ascending Char := .ofList (claims.map (·.1))
  { actions := symbols.toList.map fun symbol =>
      (symbol, fresh [] ((claims.filter fun c => c.1 = symbol).map (·.2)))
    gotos := (edges.filter fun e => isVariable e.symbol).map fun e => (e.symbol, e.target) }

def fill (g : AugmentedGrammar) (sets : List ItemSet) (edges : List GotoEdge) : ShiftReduceTable :=
  let firstFollow := FirstFollow.of g.grammar
  ⟨g, sets.zipIdx.map fun (items, state) =>
    row g firstFollow items (edges.filter fun e => e.source = state)⟩

/-- Every action in a cell, in the order in which they claimed it. -/
def actions (t : ShiftReduceTable) (state : Nat) (symbol : Char) : List Action :=
  ((t.rows[state]?).bind fun r => r.actions.lookup symbol).getD []

/-- The action in a cell that holds exactly one. -/
def action? (t : ShiftReduceTable) (state : Nat) (symbol : Char) : Option Action :=
  match t.actions state symbol with
  | [a] => some a
  | _ => none

def goto? (t : ShiftReduceTable) (state : Nat) (v : Char) : Option Nat :=
  (t.rows[state]?).bind fun r => r.gotos.lookup v

/-- The cells that are not empty, by state and then by symbol. -/
def actionCells (t : ShiftReduceTable) : List (Nat × Char × List Action) :=
  t.rows.zipIdx.flatMap fun (r, state) => r.actions.map fun (symbol, actions) => (state, symbol, actions)

def gotoCells (t : ShiftReduceTable) : List (Nat × Char × Nat) :=
  t.rows.zipIdx.flatMap fun (r, state) => r.gotos.map fun (v, target) => (state, v, target)

def conflicts (t : ShiftReduceTable) : List (Nat × Char × List Action) :=
  t.actionCells.filter fun (_, _, actions) => 1 < actions.length

def firstConflict? (t : ShiftReduceTable) : Option Error :=
  match t.conflicts with
  | (state, symbol, existing :: incoming :: _) :: _ => some (.actionConflict state symbol existing incoming)
  | _ => none

/-- The states passed so far, the current one first, and the rest of the input with the end marker. -/
structure Parse where
  states : List Nat
  rest : Word
deriving DecidableEq

def step (t : ShiftReduceTable) (s : Parse) : ParseStep Parse :=
  match s.states, s.rest with
  | state :: _, lookahead :: rest =>
      match t.action? state lookahead with
      | some (.shift target) => .next ⟨target :: s.states, rest⟩
      | some (.reduce index) =>
          match t.augmented.grammar.productions[index]? with
          | none => .verdict false
          | some p =>
              let below := s.states.drop p.length
              match below.head?.bind fun state => t.goto? state p.left with
              | none => .verdict false
              | some target => .next ⟨target :: below, s.rest⟩
      | some .accept => .verdict true
      | none => .verdict false
  | _, _ => .verdict false

def start (input : Word) : Parse := ⟨[0], input ++ [endMarker]⟩

/-- More steps than a parse that comes to an end takes. -/
def limit (t : ShiftReduceTable) (input : Word) : Nat :=
  let depth := (t.rows.length + 2) * (t.augmented.grammar.variableSymbols.size + 2)
  Nat.pow (t.augmented.grammar.width + 2) (depth * (input.length + 2))

/-- Whether the parse of the input ends with acceptance. -/
def accepts (t : ShiftReduceTable) (input : Word) : Bool :=
  (ParseStep.run t.step (t.limit input) (start input)).getD false

end ShiftReduceTable

/-- The stages of building a table. -/
inductive TableStage
  | augmentGrammar
  | buildItemSets
  | buildGotoGraph
  | fillTable
  | done
deriving DecidableEq, Repr

def TableStage.name : TableStage → String
  | .augmentGrammar => "AugmentGrammar"
  | .buildItemSets => "BuildItemSets"
  | .buildGotoGraph => "BuildGotoGraph"
  | .fillTable => "FillTable"
  | .done => "Done"

/-- A table under construction, one stage at a time. -/
structure TableConstruction where
  /-- What is done next. -/
  stage : TableStage
  augmented : AugmentedGrammar
  itemSets : List ItemSet
  edges : List GotoEdge
  table : Option ShiftReduceTable

namespace TableConstruction

def of (g : Grammar) : Except Error TableConstruction := do
  return ⟨.augmentGrammar, ← AugmentedGrammar.of g, [], [], none⟩

def advance (c : TableConstruction) : TableConstruction :=
  match c.stage with
  | .augmentGrammar => { c with stage := .buildItemSets }
  | .buildItemSets => { c with stage := .buildGotoGraph, itemSets := c.augmented.itemSets }
  | .buildGotoGraph => { c with stage := .fillTable, edges := c.augmented.gotoEdges c.itemSets }
  | .fillTable => { c with stage := .done, table := some (.fill c.augmented c.itemSets c.edges) }
  | .done => c

/-- The finished table. -/
def run (c : TableConstruction) : ShiftReduceTable :=
  let c := c.advance.advance.advance.advance
  c.table.getD (.fill c.augmented c.itemSets c.edges)

/-- Whether the item set of a state holds a completed item. -/
def isFinal (c : TableConstruction) (state : Nat) : Bool := c.itemSets[state]?.any c.augmented.hasComplete

/-- The graph of item sets as a finite automaton, final where a reduction is possible. -/
def gotoAutomaton (c : TableConstruction) : Automaton :=
  let states := List.range c.itemSets.length
  { Automaton.ofLabels .finite (states.map fun n => some ("I" ++ toString n)) with
    initial := states.head?
    finals := .ofList (states.filter c.isFinal)
    transitions := c.edges.map fun e => ⟨e.source, e.target, .finite [e.symbol]⟩ }

end TableConstruction

/-- The shift-reduce table, if no cell is claimed twice. -/
def Grammar.shiftReduceTable (g : Grammar) : Except Error ShiftReduceTable := do
  let t := (← TableConstruction.of g).run
  match t.firstConflict? with
  | some conflict => throw conflict
  | none => return t

end LanguageTheory
