import LanguageTheory.Automaton.Label
import LanguageTheory.Error
import LanguageTheory.Finite.Ascending

/-! The graph of an automaton and its edits. States are listed in order of creation and are named by
numbers that are never given out twice. An edit that names a state which is not there, or a move that
does not fit, is refused and leaves nothing behind. -/

namespace LanguageTheory

/-- A place in a drawing. No operation looks at it. -/
structure Point where
  x : Float
  y : Float

def Point.origin : Point := ⟨0, 0⟩

structure State where
  id : StateId
  label : Option String
  point : Point

/-- The name of a state without a label. -/
def StateId.defaultName (id : StateId) : String := "q" ++ toString id

def State.name (s : State) : String := s.label.getD (StateId.defaultName s.id)

structure Automaton where
  kind : Kind
  states : List State
  transitions : List Transition
  initial : Option StateId
  finals : Ascending StateId
  /-- What the stack of a pushdown automaton holds before the first move, topmost symbol first. -/
  initialStack : Word
  nextId : StateId

namespace Automaton

def empty (kind : Kind) : Automaton := ⟨kind, [], [], none, ∅, [], 0⟩

/-! ### Looking at an automaton -/

def ids (a : Automaton) : List StateId := a.states.map (·.id)

def size (a : Automaton) : Nat := a.states.length

def state? (a : Automaton) (id : StateId) : Option State := a.states.find? (·.id == id)

def hasState (a : Automaton) (id : StateId) : Bool := a.states.any (·.id == id)

theorem hasState_iff {a : Automaton} {id : StateId} : a.hasState id = true ↔ id ∈ a.ids := by
  simp [hasState, ids]

def stateName (a : Automaton) (id : StateId) : String :=
  (a.state? id).elim (StateId.defaultName id) State.name

def isFinal (a : Automaton) (id : StateId) : Bool := id ∈ a.finals

def transitionsFrom (a : Automaton) (id : StateId) : List Transition :=
  a.transitions.filter (·.source == id)

def transitionsTo (a : Automaton) (id : StateId) : List Transition :=
  a.transitions.filter (·.target == id)

/-! ### Requirements -/

def requireState (a : Automaton) (id : StateId) : Except Error Unit :=
  if a.hasState id then .ok () else .error (.automaton (.unknownState id))

def requireInitial (a : Automaton) : Except Error StateId :=
  match a.initial with
  | some id => .ok id
  | none => .error (.automaton .missingInitialState)

def requireFinite (a : Automaton) : Except Error Unit :=
  if a.kind = .finite then .ok () else .error (.automaton (.notFinite a.kind))

def requireEndpoints (a : Automaton) (t : Transition) : Except Error Unit :=
  match [t.source, t.target].find? fun id => !a.hasState id with
  | some id => .error (.automaton (.foreignState id))
  | none => .ok ()

/-- There is an initial state, and every state that is named exists. -/
def validate (a : Automaton) : Except Error Unit := do
  a.requireState (← a.requireInitial)
  a.finals.toList.forM a.requireState
  a.transitions.forM a.requireEndpoints

/-- What the edits keep: every state that is named exists, the transitions are distinct and of the
automaton's kind, only a pushdown automaton has an initial stack, and all ids are below the next. -/
structure WellFormed (a : Automaton) : Prop where
  nodup_ids : a.ids.Nodup
  lt_nextId : ∀ id ∈ a.ids, id < a.nextId
  initial_mem : ∀ id, a.initial = some id → id ∈ a.ids
  finals_mem : ∀ id ∈ a.finals, id ∈ a.ids
  endpoints_mem : ∀ t ∈ a.transitions, t.source ∈ a.ids ∧ t.target ∈ a.ids
  nodup_transitions : a.transitions.Nodup
  kind_eq : ∀ t ∈ a.transitions, t.kind = a.kind
  stack_eq : a.kind ≠ .pushdown → a.initialStack = []

/-- Whether an automaton is one that the edits could have made can be computed. -/
instance decidableWellFormed (a : Automaton) : Decidable a.WellFormed :=
  decidable_of_iff (a.ids.Nodup ∧ (∀ id ∈ a.ids, id < a.nextId) ∧ (∀ id ∈ a.initial.toList, id ∈ a.ids) ∧
      (∀ id ∈ a.finals.toList, id ∈ a.ids) ∧
      (∀ t ∈ a.transitions, t.source ∈ a.ids ∧ t.target ∈ a.ids) ∧ a.transitions.Nodup ∧
      (∀ t ∈ a.transitions, t.kind = a.kind) ∧ (a.kind ≠ .pushdown → a.initialStack = [])) <| by
    constructor
    · intro ⟨hids, hnext, hinitial, hfinals, hendpoints, hnodup, hkind, hstack⟩
      exact ⟨hids, hnext, fun id hid => hinitial id (Option.mem_toList.2 hid), hfinals, hendpoints, hnodup,
        hkind, hstack⟩
    · intro h
      exact ⟨h.nodup_ids, h.lt_nextId, fun id hid => h.initial_mem id (Option.mem_toList.1 hid), h.finals_mem,
        h.endpoints_mem, h.nodup_transitions, h.kind_eq, h.stack_eq⟩

/-! ### Edits -/

def createLabeledState (a : Automaton) (label : Option String) (point : Point) :
    StateId × Automaton :=
  (a.nextId, { a with states := a.states ++ [⟨a.nextId, label, point⟩], nextId := a.nextId + 1 })

def createState (a : Automaton) (point : Point) : StateId × Automaton := a.createLabeledState none point

def addState (a : Automaton) : StateId × Automaton := a.createState .origin

def addLabeledState (a : Automaton) (label : String) : StateId × Automaton :=
  a.createLabeledState (some label) .origin

def setLabel (a : Automaton) (id : StateId) (label : Option String) : Except Error Automaton := do
  a.requireState id
  return { a with states := a.states.map fun s => if s.id = id then { s with label } else s }

/-- Removes a state together with every transition that touches it. -/
def removeState (a : Automaton) (id : StateId) : Except Error (State × Automaton) :=
  match a.state? id with
  | none => .error (.automaton (.unknownState id))
  | some s =>
      .ok (s,
        { a with
          states := a.states.filter fun s => s.id ≠ id
          transitions := a.transitions.filter fun t => !t.touches id
          finals := a.finals.erase id
          initial := if a.initial = some id then none else a.initial })

def setInitial (a : Automaton) (id : StateId) : Except Error Automaton := do
  a.requireState id
  return { a with initial := some id }

def clearInitial (a : Automaton) : Automaton := { a with initial := none }

def addFinal (a : Automaton) (id : StateId) : Except Error Automaton := do
  a.requireState id
  return { a with finals := a.finals.insert id }

def removeFinal (a : Automaton) (id : StateId) : Except Error Automaton := do
  a.requireState id
  return { a with finals := a.finals.erase id }

def setInitialStack (a : Automaton) (contents : Word) : Except Error Automaton :=
  if a.kind = .pushdown then .ok { a with initialStack := contents }
  else .error (.automaton (.unsupported .initialStack a.kind))

/-- Adds a transition. One that is there already is not added again. -/
def addTransition (a : Automaton) (t : Transition) : Except Error Automaton := do
  if t.kind ≠ a.kind then throw (.automaton (.kindMismatch a.kind t.kind))
  a.requireEndpoints t
  return if t ∈ a.transitions then a else { a with transitions := a.transitions ++ [t] }

/-- The automaton without the transition, and whether it had it. -/
def removeTransition (a : Automaton) (t : Transition) : Bool × Automaton :=
  (a.transitions.contains t, { a with transitions := a.transitions.filter (· ≠ t) })

def addTransitions (a : Automaton) (ts : List Transition) : Except Error Automaton :=
  ts.foldlM addTransition a

/-- An automaton with a new state for each given label, numbered from zero. -/
def ofLabels (kind : Kind) (labels : List (Option String)) : Automaton :=
  labels.foldl (fun a label => (a.createLabeledState label .origin).2) (empty kind)

end Automaton

end LanguageTheory
