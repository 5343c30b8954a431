import LanguageTheory.Automaton.Basic

/-! The edits as calls on one automaton that is changed in place, field after field. A call that fails keeps
what it has changed until then. Ids are numbers of 32 bits, after the last of which they start over; a state
whose id is taken replaces the one that has it. -/

namespace LanguageTheory.Automaton

/-- The states with one more, in place of the one with its id, if there is one. -/
def put (s : State) (states : List State) : List State :=
  if states.any (·.id == s.id) then states.map fun old => if old.id = s.id then s else old else states ++ [s]

def relabeled (id : StateId) (label : Option String) (states : List State) : List State :=
  states.map fun s => if s.id = id then { s with label } else s

/-- A computation that changes an automaton in place, and keeps its changes if it fails. -/
abbrev Editing := EStateM Error Automaton

namespace Editing

/-- Fails where a check of the automaton as it is now fails. -/
def require (check : Automaton → Except Error Unit) : Editing Unit := do
  match check (← get) with
  | .ok () => return ()
  | .error e => throw e

def createState (point : Point) : Editing StateId := do
  let id := (← get).nextId
  modify fun a => { a with nextId := (id + 1) % UInt32.size }
  modify fun a => { a with states := put ⟨id, none, point⟩ a.states }
  return id

def addState : Editing StateId := createState .origin

def addLabeledState (label : String) : Editing StateId := do
  let id ← addState
  modify fun a => { a with states := relabeled id (some label) a.states }
  return id

def setLabel (id : StateId) (label : Option String) : Editing Unit := do
  require fun a => a.requireState id
  modify fun a => { a with states := relabeled id label a.states }

/-- Removes a state, then the transitions that touch it, and then what else names it. -/
def removeState (id : StateId) : Editing State := do
  match (← get).state? id with
  | none => throw (.automaton (.unknownState id))
  | some s =>
      modify fun a => { a with states := a.states.filter fun s => s.id ≠ id }
      modify fun a => { a with transitions := a.transitions.filter fun t => !t.touches id }
      modify fun a => { a with finals := a.finals.erase id }
      if (← get).initial = some id then modify fun a => { a with initial := none }
      return s

def setInitial (id : StateId) : Editing Unit := do
  require fun a => a.requireState id
  modify fun a => { a with initial := some id }

def clearInitial : Editing Unit := modify fun a => { a with initial := none }

def addFinal (id : StateId) : Editing Unit := do
  require fun a => a.requireState id
  modify fun a => { a with finals := a.finals.insert id }

def removeFinal (id : StateId) : Editing Unit := do
  require fun a => a.requireState id
  modify fun a => { a with finals := a.finals.erase id }

def setInitialStack (contents : Word) : Editing Unit := do
  let kind := (← get).kind
  if kind ≠ .pushdown then throw (.automaton (.unsupported .initialStack kind))
  modify fun a => { a with initialStack := contents }

def addTransition (t : Transition) : Editing Unit := do
  let kind := (← get).kind
  if t.kind ≠ kind then throw (.automaton (.kindMismatch kind t.kind))
  require fun a => a.requireEndpoints t
  unless t ∈ (← get).transitions do modify fun a => { a with transitions := a.transitions ++ [t] }

/-- Whether the transition was there shows in how many are left. -/
def removeTransition (t : Transition) : Editing Bool := do
  let before := (← get).transitions.length
  modify fun a => { a with transitions := a.transitions.filter (· ≠ t) }
  return before != (← get).transitions.length

end Editing

/-! ### Sequences of calls -/

inductive Call
  | createState (point : Point)
  | addState
  | addLabeledState (label : String)
  | setLabel (id : StateId) (label : Option String)
  | removeState (id : StateId)
  | setInitial (id : StateId)
  | clearInitial
  | addFinal (id : StateId)
  | removeFinal (id : StateId)
  | setInitialStack (contents : Word)
  | addTransition (t : Transition)
  | removeTransition (t : Transition)

/-- Whether the call makes a new state. -/
def Call.creates : Call → Bool
  | createState _ | addState | addLabeledState _ => true
  | _ => false

/-- What a call that goes through gives back. -/
inductive Answer
  | nothing
  | created (id : StateId)
  | removed (s : State)
  | present (was : Bool)

def Answer.created? : Answer → Option StateId
  | created id => some id
  | _ => none

def perform : Call → Editing Answer
  | .createState point => return .created (← Editing.createState point)
  | .addState => return .created (← Editing.addState)
  | .addLabeledState label => return .created (← Editing.addLabeledState label)
  | .setLabel id label => do Editing.setLabel id label; return .nothing
  | .removeState id => return .removed (← Editing.removeState id)
  | .setInitial id => do Editing.setInitial id; return .nothing
  | .clearInitial => do Editing.clearInitial; return .nothing
  | .addFinal id => do Editing.addFinal id; return .nothing
  | .removeFinal id => do Editing.removeFinal id; return .nothing
  | .setInitialStack contents => do Editing.setInitialStack contents; return .nothing
  | .addTransition t => do Editing.addTransition t; return .nothing
  | .removeTransition t => return .present (← Editing.removeTransition t)

/-- The outcomes of calls that are made one after the other, whatever comes of each of them, and the automaton
in the end. -/
def performAll : List Call → Automaton → List (Except Error Answer) × Automaton
  | [], a => ([], a)
  | c :: calls, a =>
      match perform c a with
      | .ok x b =>
          let rest := performAll calls b
          (.ok x :: rest.1, rest.2)
      | .error e b =>
          let rest := performAll calls b
          (.error e :: rest.1, rest.2)

/-- The ids that were given out to new states, in the order of the calls. -/
def handedOut (outcomes : List (Except Error Answer)) : List StateId :=
  outcomes.filterMap fun outcome => outcome.toOption.bind Answer.created?

end LanguageTheory.Automaton
