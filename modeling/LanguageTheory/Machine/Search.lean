import LanguageTheory.Machine.Simulator
import Std.Data.HashSet

/-! Breadth-first search of the configurations of a machine, one generation at a time. Every
configuration that was ever produced is kept with its parent, so that the way to it can be told. A
search that has produced more configurations than its bound stops between two expansions and goes on
from there once the bound is raised. -/

namespace LanguageTheory

/-- A produced configuration and the number of the one that it came from. -/
structure Search.Node where
  configuration : Configuration
  parent : Option Nat

inductive Search.Outcome
  /-- The first accepting configuration of its generation. -/
  | accepted (id : Nat)
  | rejected
deriving DecidableEq, Repr

structure Search where
  machine : Simulator
  bound : Nat
  /-- Everything produced so far; a configuration is named by its place here. -/
  arena : Array Search.Node
  seen : Std.HashSet Configuration
  frontier : List Nat
  /-- The part of the frontier that is still to be expanded. -/
  waiting : List Nat
  /-- The next generation as far as it is known. -/
  next : Array Nat
  /-- Whether the frontier has been tested for acceptance. -/
  checked : Bool
  generation : Nat
  outcome : Option Search.Outcome

namespace Search

def generated (s : Search) : Nat := s.arena.size

/-- Adds a configuration to the next generation, unless it is skipped as a repeat. -/
def enter (parent : Option Nat) (s : Search) (c : Configuration) : Search :=
  if s.machine.config.dedup && s.seen.contains c then s
  else
    let id := s.arena.size
    { s with
      arena := s.arena.push ⟨c, parent⟩
      seen := s.seen.insert c
      next := s.next.push id }

/-- Makes the next generation the frontier. -/
def turn (s : Search) : Search :=
  { s with frontier := s.next.toList, waiting := s.next.toList, next := #[], checked := false }

def start (m : Simulator) (input : Word) : Search :=
  ((m.initialConfigurations input).foldl (enter none)
    ⟨m, m.config.bound, #[], ∅, [], [], #[], false, 0, none⟩).turn

def configuration? (s : Search) (id : Nat) : Option Configuration := s.arena[id]?.map (·.configuration)

def parent? (s : Search) (id : Nat) : Option Nat := s.arena[id]?.bind (·.parent)

def accepting (s : Search) (id : Nat) : Bool :=
  (s.configuration? id).any s.machine.accepts

/-- Produces the successors of one configuration. -/
def expand (s : Search) (id : Nat) : Search :=
  match s.configuration? id with
  | none => s
  | some c => (s.machine.step c).foldl (enter (some id)) s

/-- Expands what is left of the frontier, testing the bound before each expansion. -/
def expandAll (s : Search) : List Nat → Except Error Unit × Search
  | [] => (.ok (), { s with waiting := [] })
  | id :: rest =>
      if s.generated > s.bound then
        (.error (.searchBound s.generated s.bound), { s with waiting := id :: rest })
      else expandAll (s.expand id) rest

/-- The decision that the frontier allows: acceptance if a member accepts, rejection if it is empty. -/
def verdict? (s : Search) : Option Outcome :=
  match s.frontier.find? s.accepting with
  | some id => some (.accepted id)
  | none => if s.frontier.isEmpty then some .rejected else none

/-- One generation. The whole frontier is tested for acceptance before any of it is expanded. The
answer is the outcome once there is one, and nothing after moving on to the next generation. -/
def stepGeneration (s : Search) : Except Error (Option Outcome) × Search :=
  match s.outcome with
  | some outcome => (.ok (some outcome), s)
  | none =>
      match if s.checked then none else s.verdict? with
      | some outcome => (.ok (some outcome), { s with checked := true, outcome := some outcome })
      | none =>
          match { s with checked := true }.expandAll s.waiting with
          | (.error e, s) => (.error e, s)
          | (.ok (), s) => (.ok none, { s.turn with generation := s.generation + 1 })

/-- At most `limit` generations. -/
def runFor : Nat → Search → Except Error Outcome × Search
  | 0, s => (.error (.searchBound s.generated s.bound), s)
  | limit + 1, s =>
      match s.stepGeneration with
      | (.error e, s) => (.error e, s)
      | (.ok (some outcome), s) => (.ok outcome, s)
      | (.ok none, s) => runFor limit s

/-- Generations until the search is decided or stops at its bound. A generation that leaves it
undecided produces a configuration or is followed by a rejection, so the limit is never reached. -/
def run (s : Search) : Except Error Outcome × Search := runFor (s.bound - s.generated + 3) s

/-- Allows `extra` more configurations, as far as numbers of 64 bits go. -/
def raiseBound (s : Search) (extra : Nat) : Search :=
  { s with bound := min (s.bound + extra) (UInt64.size - 1) }

/-- The chain of parents of `id`, put before `below`. A parent has a smaller number than its child. -/
def chain (s : Search) : Nat → Nat → List Nat → List Nat
  | 0, _, below => below
  | limit + 1, id, below =>
      match s.parent? id with
      | none => id :: below
      | some parent => chain s limit parent (id :: below)

/-- The way from an initial configuration to `id`; empty if there is no such configuration. -/
def path (s : Search) (id : Nat) : List Nat := if id < s.arena.size then s.chain (id + 1) id [] else []

end Search

/-- Whether the machine accepts the input, or the error of a search that stopped at its bound. -/
def Simulator.run (m : Simulator) (input : Word) : Except Error Bool :=
  match (Search.start m input).run.1 with
  | .error e => .error e
  | .ok outcome => .ok (outcome != .rejected)

end LanguageTheory
