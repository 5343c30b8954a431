import LanguageTheory.Grammar.Basic
import LanguageTheory.Machine.Simulator
import LanguageTheory.Wire.Value

/-! How the values of the library are exchanged. -/

namespace LanguageTheory.Wire

open Value

/-- Lifts a refusal of the library. -/
def allow : Except Error α → Except Failure α
  | .ok a => .ok a
  | .error e => .error (.refused e)

/-- The names that the choices of a type are exchanged under. -/
abbrev Names (α : Type) := List (String × α)

def Names.read (names : Names α) : Read α := oneOf names

def Names.write [BEq α] (names : Names α) (a : α) : Value :=
  text (((names.find? fun n => n.2 == a).map (·.1)).getD "")

def kinds : Names Kind := [("Fsa", .finite), ("Pda", .pushdown), ("Turing", .turing)]

def directions : Names Direction := [("Left", .left), ("Right", .right), ("Stay", .stay)]

def acceptances : Names Acceptance :=
  [("final_state", .finalState), ("empty_stack", .emptyStack),
    ("final_state_and_empty_stack", .finalStateAndEmptyStack)]

def writeNat (n : Nat) : Value := integer n

def writeWord (w : Word) : Value := text (String.ofList w)

def writeChar (c : Char) : Value := writeWord [c]

/-! ### Search configurations -/

/-- Every field may be missing and then has its usual value. -/
def readConfig : Read SearchConfig := fun v => do
  let usual : SearchConfig := {}
  match ← v.fields? ["bound", "acceptance", "dedup"] with
  | [bound, acceptance, dedup] =>
      return {
        bound := ← optional usual.bound (natBelow UInt64.size) bound
        acceptance := ← optional usual.acceptance acceptances.read acceptance
        dedup := ← optional usual.dedup bool? dedup }
  | _ => .error .form

def writeConfig (c : SearchConfig) : Value :=
  object [("bound", writeNat c.bound), ("acceptance", acceptances.write c.acceptance),
    ("dedup", bool c.dedup)]

/-! ### Productions and grammars -/

def readProduction : Read Production := fun v => do
  match ← v.fields? ["lhs", "rhs"] with
  | [left, right] =>
      let left ← required char? left
      let right ← required word? right
      allow (Production.of left right)
  | _ => .error .form

def writeProduction (p : Production) : Value :=
  object [("lhs", writeChar p.left), ("rhs", writeWord p.right)]

def readProductions : Read (List Production) := fun v => do
  (← v.list?).mapM readProduction

/-- In an object the productions are read before the start variable, in a list after it. -/
def readGrammar : Read Grammar := fun v => do
  match v with
  | list items =>
      let start ← required char? items[0]?
      let productions ← required readProductions items[1]?
      if 2 < items.length then throw .form
      allow (Grammar.ofProductions start productions)
  | _ =>
      match ← v.fields? ["start", "productions"] with
      | [start, productions] =>
          let productions ← productions.mapM readProductions
          let start ← required char? start
          match productions with
          | some productions => allow (Grammar.ofProductions start productions)
          | none => .error .form
      | _ => .error .form

def writeGrammar (g : Grammar) : Value :=
  object [("start", writeChar g.start), ("productions", list (g.productions.map writeProduction))]

/-! ### Labels and transitions -/

def readLabel : Read Label := fun v => do
  match ← v.choice? with
  | ("Fsa", some v) =>
      match ← v.parts? ["read"] with
      | [read] => return .finite (← required word? read)
      | _ => .error .form
  | ("Pda", some v) =>
      match ← v.parts? ["read", "pop", "push"] with
      | [read, pop, push] =>
          return .pushdown (← required word? read) (← required word? pop) (← required word? push)
      | _ => .error .form
  | ("Turing", some v) =>
      match ← v.parts? ["read", "write", "direction"] with
      | [read, write, direction] =>
          return .turing (← required char? read) (← required char? write)
            (← required directions.read direction)
      | _ => .error .form
  | _ => .error .form

def writeLabel : Label → Value
  | .finite read => object [("Fsa", object [("read", writeWord read)])]
  | .pushdown read pop push =>
      object [("Pda", object [("read", writeWord read), ("pop", writeWord pop), ("push", writeWord push)])]
  | .turing read write direction =>
      object [("Turing", object [("read", writeChar read), ("write", writeChar write),
        ("direction", directions.write direction)])]

def readStateId : Read StateId := natBelow UInt32.size

def readTransition : Read Transition := fun v => do
  match ← v.fields? ["from", "to", "label"] with
  | [source, target, label] =>
      return ⟨← required readStateId source, ← required readStateId target, ← required readLabel label⟩
  | _ => .error .form

def writeTransition (t : Transition) : Value :=
  object [("from", writeNat t.source), ("to", writeNat t.target), ("label", writeLabel t.label)]

end LanguageTheory.Wire
