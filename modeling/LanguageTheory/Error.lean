import LanguageTheory.Automaton.Label
import LanguageTheory.Grammar.Action
import LanguageTheory.Grammar.Production
import LanguageTheory.Text.Quoted

/-! What can go wrong, as causes, and the one wording of each. -/

namespace LanguageTheory

/-- An operation that only some kinds of machines have. -/
inductive Feature
  | initialStack
  | wordGeneration
deriving DecidableEq, Repr

def Feature.name : Feature → String
  | .initialStack => "an initial stack"
  | .wordGeneration => "word generation"

/-- Why a pushdown automaton cannot be read as a grammar. -/
inductive NormalFormDefect
  | wrongKind (found : Kind)
  | finalStates (count : Nat)
  | initialStack
  | pop (move : Transition)
  | push (move : Transition)
deriving DecidableEq, Repr

def NormalFormDefect.message : NormalFormDefect → String
  | wrongKind found => "found a " ++ found.name ++ " automaton"
  | finalStates count => "needs exactly one final state, found " ++ toString count
  | initialStack => "initial stack must hold exactly one symbol"
  | pop move => move.text ++ " must pop exactly one symbol"
  | push move => move.text ++ " must push zero or two symbols"

/-- Why an automaton, or a grammar about to become one, does not fit the operation. -/
inductive AutomatonError
  | missingInitialState
  | foreignState (state : StateId)
  | unknownState (state : StateId)
  | kindMismatch (expected found : Kind)
  | notFinite (found : Kind)
  | notRightLinear (production : Production)
  | notNormalForm (defect : NormalFormDefect)
  | unsupported (feature : Feature) (found : Kind)
deriving DecidableEq

def AutomatonError.message : AutomatonError → String
  | missingInitialState => "automaton has no initial state"
  | foreignState state =>
      "transition references state " ++ toString state ++ " which belongs to another automaton"
  | unknownState state => "state " ++ toString state ++ " does not exist"
  | kindMismatch expected found =>
      "a " ++ found.name ++ " payload does not fit a " ++ expected.name ++ " automaton"
  | notFinite found => "operation requires a finite state automaton, found " ++ found.name
  | notRightLinear production => "production " ++ production.text ++ " is not right-linear"
  | notNormalForm defect => "pushdown automaton cannot be read as a grammar: " ++ defect.message
  | unsupported feature found => feature.name ++ " is not defined for " ++ found.name ++ " automata"

/-- Why a text or a pair of sides is no production, or no grammar. -/
inductive ProductionDefect
  | leftNotVariable
  | holdsEndMarker
  | holdsNonSymbol
  | missingArrow
  | alternatives
  | emptyLeft
  | longLeft
  | startNotVariable
  | noProductions
  | reservedLabel
  | foreignVariable (letter : Char)
deriving DecidableEq, Repr

def ProductionDefect.message : ProductionDefect → String
  | leftNotVariable => "left-hand side must be a variable A-Z"
  | holdsEndMarker => "'$' is reserved for the end marker"
  | holdsNonSymbol => "right-hand side holds a non-symbol"
  | missingArrow => "missing '->'"
  | alternatives => "alternatives belong in a grammar"
  | emptyLeft => "empty left-hand side"
  | longLeft => "left-hand side must be a single variable"
  | startNotVariable => "start symbol must be a variable A-Z"
  | noProductions => "grammar has no productions"
  | reservedLabel => "label uses a symbol reserved for grammars"
  | foreignVariable letter => "variable " ++ letter.toString ++ " is not part of the grammar"

/-- Why a text is no regular expression. -/
inductive ExpressionDefect
  | operandExpected (before : Char)
  | missingOperand
  | unexpected (found : Char)
  | unclosed
  | reservedLabel (move : Transition)
deriving DecidableEq, Repr

def ExpressionDefect.message : ExpressionDefect → String
  | operandExpected before => "operand expected before " ++ Text.quoteChar before
  | missingOperand => "expression ends where an operand is expected"
  | unexpected found => "unexpected " ++ Text.quoteChar found
  | unclosed => "unclosed '('"
  | reservedLabel move => "transition " ++ move.text ++ " uses a reserved character"

inductive Error
  | automaton (cause : AutomatonError)
  /-- A search produced more configurations than its bound allows; it can go on with a higher one. -/
  | searchBound (generated bound : Nat)
  /-- Two productions claim one cell of a predictive table. -/
  | ruleConflict (row symbol : Char) (existing incoming : Production)
  /-- Two actions claim one cell of a shift-reduce table. -/
  | actionConflict (state : Nat) (symbol : Char) (existing incoming : Action)
  | production (text : Word) (defect : ProductionDefect)
  | noFreeVariable
  | expression (text : Word) (defect : ExpressionDefect)
deriving DecidableEq

namespace Error

def conflictMessage (row : String) (symbol : Char) (existing incoming : String) : String :=
  "conflict in table row " ++ row ++ " on " ++ Text.quoteChar symbol ++ ": " ++ existing ++ " vs " ++
    incoming

def message : Error → String
  | automaton cause => "invalid automaton: " ++ cause.message
  | searchBound generated bound =>
      "generated " ++ toString generated ++ " configurations without a decision (bound " ++
        toString bound ++ ")"
  | ruleConflict row symbol existing incoming =>
      conflictMessage row.toString symbol existing.text incoming.text
  | actionConflict state symbol existing incoming =>
      conflictMessage (toString state) symbol existing.text incoming.text
  | production text defect =>
      "malformed production " ++ Text.quoteString (String.ofList text) ++ ": " ++ defect.message
  | noFreeVariable => "all single-letter variables are in use"
  | expression text defect =>
      "malformed regular expression " ++ Text.quoteString (String.ofList text) ++ ": " ++ defect.message

end Error

/-! ### Results -/

theorem exists_of_bind_eq_ok {ε α β : Type} {x : Except ε α} {f : α → Except ε β} {b : β}
    (h : x.bind f = .ok b) : ∃ a, x = .ok a ∧ f a = .ok b := by
  cases x with
  | error e => cases h
  | ok a => exact ⟨a, rfl, h⟩

/-- What every step keeps that succeeds is kept by all of them together. -/
theorem of_foldlM_eq_ok {ε α β : Type} {P : β → Prop} {f : β → α → Except ε β} {l : List α} {b b' : β}
    (hstep : ∀ x ∈ l, ∀ c c', P c → f c x = .ok c' → P c') (hb : P b) (h : l.foldlM f b = .ok b') : P b' := by
  induction l generalizing b with
  | nil => exact Except.ok.inj h ▸ hb
  | cons x l ih =>
      rw [List.foldlM_cons] at h
      obtain ⟨c, hfirst, hrest⟩ := exists_of_bind_eq_ok h
      exact ih (fun y hy => hstep y (List.mem_cons_of_mem x hy)) (hstep x List.mem_cons_self b c hb hfirst) hrest

theorem exists_ok_of_any {ε α : Type} {x : Except ε α} {p : α → Bool} (h : x.toOption.any p = true) :
    ∃ y, x = .ok y ∧ p y = true := by
  cases x with
  | error e => cases h
  | ok y => exact ⟨y, rfl, h⟩

end LanguageTheory
