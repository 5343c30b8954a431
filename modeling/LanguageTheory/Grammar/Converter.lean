import LanguageTheory.Automaton.Basic
import LanguageTheory.Grammar.Basic

/-! From a grammar to an automaton in two phases: a scaffold of states first, then one transition for
each production, so that the construction can be shown production by production. A right-linear grammar
gives a finite automaton, any grammar a pushdown automaton. -/

namespace LanguageTheory

structure Converter where
  grammar : Grammar
  /-- The states, and the transitions that come from no production. -/
  scaffold : Automaton
  /-- The transition that a production contributes. -/
  transition : Production → Except Error Transition

def Converter.convert (c : Converter) : Except Error Automaton :=
  c.grammar.productions.foldlM (fun a p => do a.addTransition (← c.transition p)) c.scaffold

namespace Grammar

/-! ### Right-linear grammars -/

/-- The variables in the order of their states: the start variable, then the others in ascending
order. -/
def stateOrder (g : Grammar) : List Char := g.start :: g.variableSymbols.toList.filter (· ≠ g.start)

/-- The state that stands for a variable. -/
def stateFor? (g : Grammar) (v : Char) : Option StateId := g.stateOrder.idxOf? v

/-- The one final state, after those of the variables. -/
def linearFinal (g : Grammar) : StateId := g.stateOrder.length

def linearScaffold (g : Grammar) : Automaton :=
  { Automaton.ofLabels .finite (g.stateOrder.map (fun v => some v.toString) ++ [none]) with
    initial := some 0
    finals := .ofList [g.linearFinal] }

def requireStateFor (g : Grammar) (p : Production) (v : Char) : Except Error StateId :=
  match g.stateFor? v with
  | some s => .ok s
  | none => .error (.production p.shown (.foreignVariable v))

/-- `A → xB` is a move from `A` to `B` that reads `x`, and `A → x` one to the final state. -/
def linearTransition (g : Grammar) (p : Production) : Except Error Transition :=
  match p.linearParts? with
  | none => .error (.automaton (.notRightLinear p))
  | some (read, next) => do
      let source ← g.requireStateFor p p.left
      let target ← match next with
        | some v => g.requireStateFor p v
        | none => .ok g.linearFinal
      return ⟨source, target, .finite read⟩

/-- The converter of a right-linear grammar. The error names the first production of another form. -/
def linearConverter (g : Grammar) : Except Error Converter :=
  match g.productions.find? fun p => !p.isRightLinear with
  | some p => .error (.automaton (.notRightLinear p))
  | none => .ok ⟨g, g.linearScaffold, g.linearTransition⟩

/-- A finite automaton for the words of a right-linear grammar. -/
def toFinite (g : Grammar) : Except Error Automaton := do
  (← g.linearConverter).convert

/-! ### Top-down pushdown automata -/

/-- Three states. The first move puts the start variable above the end marker; then a variable on top is
replaced by a right-hand side and a terminal on top is read; taking the end marker off leads to the
final state, with the stack empty. -/
def topDownScaffold (g : Grammar) : Automaton :=
  let expand : Transition := ⟨0, 1, .pushdown [] [endMarker] [g.start, endMarker]⟩
  let match_ := g.terminals.toList.map fun c => (⟨1, 1, .pushdown [c] [c] []⟩ : Transition)
  { Automaton.ofLabels .pushdown (List.replicate 3 none) with
    initial := some 0
    finals := .ofList [2]
    initialStack := [endMarker]
    transitions := expand :: match_ ++ [⟨1, 2, .pushdown [] [endMarker] []⟩] }

def topDownTransition (p : Production) : Transition := ⟨1, 1, .pushdown [] [p.left] p.right⟩

def topDownConverter (g : Grammar) : Converter := ⟨g, g.topDownScaffold, fun p => .ok (topDownTransition p)⟩

/-- A pushdown automaton for the words of a grammar, whichever way it is to accept. -/
def toPushdown (g : Grammar) : Except Error Automaton := g.topDownConverter.convert

end Grammar

end LanguageTheory
