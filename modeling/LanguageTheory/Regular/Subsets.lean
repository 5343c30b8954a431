import LanguageTheory.Regular.Dfa

/-! The subset construction. A state of the deterministic automaton is a set of states of the given
one, closed under moves that read nothing. The sets are numbered as a breadth-first walk meets them,
taking symbols in ascending order; the empty set is left out. -/

namespace LanguageTheory.EpsilonNfa

/-- The sets that one more symbol leads to, the empty one left out. -/
def nextSubsets (n : EpsilonNfa) (s : StateSet) : List (SymbolId × StateSet) :=
  (n.alphabet.toList.map fun symbol => (symbol, n.moveOn s symbol)).filter (!·.2.isEmpty)

/-- The nonempty sets that words lead to, in the order of their numbers. -/
def subsets (n : EpsilonNfa) : List StateSet :=
  let first := n.closure n.start
  if first.isEmpty then []
  else explore (fun s => (n.nextSubsets s).map (·.2)) (Nat.pow 2 n.size) [first]

def toDfa (n : EpsilonNfa) : Dfa :=
  match n.subsets with
  | [] => .empty
  | first :: rest =>
      let subsets := first :: rest
      let moves := subsets.zipIdx.flatMap fun (s, source) =>
        (n.nextSubsets s).map fun (symbol, t) => ⟨source, symbol, subsets.idxOf t⟩
      let finals := subsets.zipIdx.filterMap fun (s, i) => if s.meets n.finals then some i else none
      { size := subsets.length
        start := some 0
        finals := .ofList finals
        alphabet := .ofList (moves.map (·.symbol))
        moves := moves
        origins := some (subsets.zipIdx.map fun (s, i) => (i, s.toList)) }

end LanguageTheory.EpsilonNfa
