import LanguageTheory.Finite.Ascending
import LanguageTheory.Symbol
import Std.Data.HashSet

/-! The shortest words of a language. Nodes of a graph are followed in buckets, by the length of the
shortest word that they can still lead to. All words of one length come from one bucket, so the words
come out by length, and within a length in lexicographic order. Only so many nodes may be produced; when
there are more, the words found by then are returned as incomplete. -/

namespace LanguageTheory

structure Words where
  requested : Nat
  /-- By length, and within a length in lexicographic order. -/
  words : List Word
  /-- Whether these are the first words of the language. -/
  complete : Bool

def Words.none (requested : Nat) : Words := ⟨requested, [], true⟩

/-- A graph whose nodes lead to words. -/
structure WordGraph (ν : Type) where
  /-- The word that has been reached at a node. -/
  word? : ν → Option Word
  /-- The successors of a node in the bucket of the given length, each with its own length. -/
  successors : Nat → ν → List (Nat × ν)

/-- How far the sampling of a graph has come. -/
structure Sampling (ν : Type) [BEq ν] [Hashable ν] where
  /-- The length of the current bucket. -/
  length : Nat
  /-- The nodes of the current bucket that are still to be followed: first these, -/
  front : List ν
  /-- then these, the last one first. -/
  back : List ν
  /-- The buckets of greater lengths in ascending order, each with its last node first. -/
  later : List (Nat × List ν)
  seen : Std.HashSet ν
  generated : Nat
  /-- The words of the current bucket, the last one first. -/
  found : List Word
  words : List Word

namespace Sampling

variable {ν : Type} [BEq ν] [Hashable ν]

def start (length : Nat) (node : ν) : Sampling ν :=
  ⟨length, [node], [], [], Std.HashSet.emptyWithCapacity.insert node, 1, [], []⟩

/-- Puts a node into the bucket of a length. -/
def insertLater (length : Nat) (node : ν) : List (Nat × List ν) → List (Nat × List ν)
  | [] => [(length, [node])]
  | (l, nodes) :: rest =>
      if length = l then (l, node :: nodes) :: rest
      else if length < l then (length, [node]) :: (l, nodes) :: rest
      else (l, nodes) :: insertLater length node rest

/-- Enters a node of a length that is not over. One of a smaller length is lost. -/
def enqueue (s : Sampling ν) (length : Nat) (node : ν) : Sampling ν :=
  if length = s.length then { s with back := node :: s.back }
  else if s.length < length then { s with later := insertLater length node s.later }
  else s

/-- Enters the successors of a node, and says whether the bound allows them all. Those that lead beyond
the greatest length or have been seen before do not count. -/
def enterAll (longest bound : Nat) : List (Nat × ν) → Sampling ν → Bool × Sampling ν
  | [], s => (true, s)
  | (length, node) :: rest, s =>
      if longest < length || s.seen.contains node then enterAll longest bound rest s
      else
        let s := { s with seen := s.seen.insert node, generated := s.generated + 1 }
        if bound < s.generated then (false, s) else enterAll longest bound rest (s.enqueue length node)

/-- Takes over the words of the current bucket, up to the requested number. -/
def absorb (requested : Nat) (s : Sampling ν) : Sampling ν :=
  let found : Ascending Word := .ofList s.found.reverse
  { s with words := s.words ++ found.toList.take (requested - s.words.length), found := [] }

def finish (requested : Nat) (complete : Bool) (s : Sampling ν) : Words :=
  ⟨requested, (s.absorb requested).words, complete⟩

/-- Follows the next node, or goes on to the next bucket. -/
def step (graph : WordGraph ν) (requested longest bound : Nat) (s : Sampling ν) : Words ⊕ Sampling ν :=
  match s.front, s.back with
  | node :: front, _ =>
      let s := { s with front, found := (graph.word? node).toList ++ s.found }
      match enterAll longest bound (graph.successors s.length node) s with
      | (true, s) => .inr s
      | (false, s) => .inl (s.finish requested false)
  | [], last :: back => .inr { s with front := (last :: back).reverse, back := [] }
  | [], [] =>
      let s := s.absorb requested
      match s.later with
      | (length, nodes) :: later =>
          if requested ≤ s.words.length then .inl (s.finish requested true)
          else .inr { s with length, later, back := nodes }
      | [] => .inl (s.finish requested true)

/-- At most `limit` steps. -/
def runFor (graph : WordGraph ν) (requested longest bound : Nat) : Nat → Sampling ν → Words
  | 0, s => s.finish requested false
  | limit + 1, s =>
      match s.step graph requested longest bound with
      | .inl words => words
      | .inr s => runFor graph requested longest bound limit s

end Sampling

/-- The first `requested` words, of no more than `longest` symbols, that nodes lead to from `node`. Each
node is followed once, turned over once, and closes at most one bucket, which limits the steps. -/
def WordGraph.sample {ν : Type} [BEq ν] [Hashable ν] (graph : WordGraph ν) (requested longest bound : Nat)
    (length : Nat) (node : ν) : Words :=
  Sampling.runFor graph requested longest bound (3 * (bound + 2)) (.start length node)

end LanguageTheory
