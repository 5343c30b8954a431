import LanguageTheory.Automaton.Basic
import LanguageTheory.Finite.Exploration
import LanguageTheory.Finite.Saturation
import LanguageTheory.Grammar.Basic

/-! From an automaton to a grammar. A variable of the grammar of a finite automaton stands for a state,
and derives the words read from there to a final state. A variable of the grammar of a pushdown automaton
stands for a triple of two states and a stack symbol, and derives the words that lead from the first
state to the second while the symbol is taken off the stack. -/

namespace LanguageTheory

/-- The variables for all but the first of what is named. -/
def otherCapitals : List Char := capitals.filter (· ≠ 'S')

theorem isVariable_letters : ∀ v ∈ 'S' :: otherCapitals, isVariable v = true := by
  have hall : ('S' :: otherCapitals).all isVariable = true := by decide +kernel
  exact List.all_eq_true.1 hall

theorem nodup_letters : ('S' :: otherCapitals).Nodup := by
  decide +kernel

theorem mem_of_lookup {α : Type} [BEq α] [LawfulBEq α] {names : List (α × Char)} {t : α} {v : Char}
    (h : names.lookup t = some v) : (t, v) ∈ names := by
  obtain ⟨before, after, rfl, _⟩ := List.lookup_eq_some_iff.1 h
  exact List.mem_append_right _ List.mem_cons_self

/-- Whether a label reads a character that has another meaning in grammars. -/
def isReservedInGrammars (c : Char) : Bool := isVariable c || c == endMarker

def requirePlainRead (t : Transition) (read : Word) : Except Error Unit :=
  if read.any isReservedInGrammars then .error (.production t.text.toList .reservedLabel) else .ok ()

namespace Automaton

/-! ### Finite automata -/

/-- The variable of each state: `S` for the initial one and the other capitals in order of creation. -/
def stateVariables (a : Automaton) (initial : StateId) : Except Error (List (StateId × Char)) :=
  let others := a.ids.filter (· ≠ initial)
  if otherCapitals.length < others.length then .error .noFreeVariable
  else .ok ((initial, 'S') :: others.zip otherCapitals)

/-- Adds `A → xB` for a move that reads `x`. -/
def addMoveProduction (names : List (StateId × Char)) (g : Grammar) (t : Transition) : Except Error Grammar :=
  match t.label with
  | .finite read => do
      requirePlainRead t read
      match names.lookup t.source, names.lookup t.target with
      | some left, some next => g.addSides left (read ++ [next])
      | _, _ => return g
  | _ => .ok g

/-- A right-linear grammar for the words of a finite automaton. -/
def toGrammar (a : Automaton) : Except Error Grammar := do
  a.requireFinite
  let names ← a.stateVariables (← a.requireInitial)
  let g ← a.transitions.foldlM (addMoveProduction names) (← Grammar.of 'S')
  ((a.ids.filter a.isFinal).filterMap fun s => names.lookup s).foldlM (fun g v => g.addSides v []) g

end Automaton

/-! ### Pushdown automata -/

/-- Stands for the words that lead from `source`, with `symbol` on top of the stack, to `target`, with
`symbol` gone. -/
structure Triple where
  source : StateId
  symbol : Char
  target : StateId
deriving DecidableEq, Repr

/-- A production over triples: `head → read body`. -/
structure TripleRule where
  head : Triple
  read : Word
  body : List Triple

namespace Automaton

/-- The triple that the start variable stands for, if the automaton has the form that the construction
needs: one final state, one symbol on the initial stack, and moves that take one symbol off the stack
and put none or two on it. -/
def startTriple (a : Automaton) : Except Error Triple := do
  let refuse {α : Type} (defect : NormalFormDefect) : Except Error α :=
    .error (.automaton (.notNormalForm defect))
  if a.kind ≠ .pushdown then refuse (.wrongKind a.kind)
  let initial ← a.requireInitial
  let final ← match a.finals.toList with
    | [only] => .ok only
    | finals => refuse (.finalStates finals.length)
  let bottom ← match a.initialStack with
    | [only] => .ok only
    | _ => refuse .initialStack
  a.transitions.forM fun t =>
    match t.label with
    | .pushdown read pop push => do
        if pop.length ≠ 1 then refuse (.pop t)
        if push.length ≠ 0 ∧ push.length ≠ 2 then refuse (.push t)
        requirePlainRead t read
    | _ => .ok ()
  return ⟨initial, bottom, final⟩

/-- The rules of one move. One that puts two symbols on the stack has a rule for each choice of the state
in between and the last state. -/
def moveRules (states : List StateId) (t : Transition) : List TripleRule :=
  match t.label with
  | .pushdown read (top :: _) (upper :: lower :: _) =>
      states.flatMap fun last => states.map fun middle =>
        ⟨⟨t.source, top, last⟩, read, [⟨t.target, upper, middle⟩, ⟨middle, lower, last⟩]⟩
  | .pushdown read (top :: _) _ => [⟨⟨t.source, top, t.target⟩, read, []⟩]
  | _ => []

def tripleRules (a : Automaton) : List TripleRule := a.transitions.flatMap (moveRules a.ids)

end Automaton

/-- Gives a triple its variable, the next free one if it has none yet. -/
def nameTriple (names : List (Triple × Char)) (t : Triple) : Except Error (Char × List (Triple × Char)) :=
  match names.lookup t with
  | some v => .ok (v, names)
  | none =>
      -- One name belongs to the start triple and is not among the other capitals.
      match otherCapitals[names.length - 1]? with
      | some v => .ok (v, names ++ [(t, v)])
      | none => .error .noFreeVariable

/-- Appends the production of a rule to a grammar, naming triples as they come. -/
def addTripleRule (state : Grammar × List (Triple × Char)) (rule : TripleRule) :
    Except Error (Grammar × List (Triple × Char)) := do
  let (g, names) := state
  let (left, names) ← nameTriple names rule.head
  let (right, names) ← rule.body.foldlM (fun (right, names) t => do
    let (v, names) ← nameTriple names t
    return (right ++ [v], names)) (rule.read, names)
  return (← g.addSides left right, names)

/-- A grammar for the words that a pushdown automaton accepts in its final state with an empty stack.
Only triples that derive a word and can be reached from the start are named. -/
def Automaton.pushdownGrammar (a : Automaton) : Except Error Grammar := do
  let start ← a.startTriple
  let rules := a.tripleRules
  let generating := Rule.consequences (rules.map fun r => ⟨r.body, r.head⟩)
  let useful := rules.filter fun r => r.body.all (· ∈ generating)
  let next t := (useful.filter fun r => r.head = t).flatMap (·.body)
  let reachable := explore next (2 * useful.length + 1) [start]
  let kept := useful.filter fun r => r.head ∈ reachable
  return (← kept.foldlM addTripleRule (← Grammar.of 'S', [(start, 'S')])).1

end LanguageTheory
