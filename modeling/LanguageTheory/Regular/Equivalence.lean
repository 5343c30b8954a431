import LanguageTheory.Regular.Dfa

/-! Comparison of deterministic automata by pairing their states. Only live states count: a move into
a state from which nothing is accepted is taken as missing. -/

namespace LanguageTheory.Dfa

/-- The move from a state on a symbol, if it leads into the given set of live states. -/
def liveMove? (d : Dfa) (live : StateSet) (s : StateId) (symbol : SymbolId) : Option StateId :=
  (d.move? s symbol).filter (· ∈ live)

/-- The pairs of states that one symbol leads to on both sides. -/
def pairSuccessors (a b : Dfa) (liveA liveB : StateSet) (symbols : List SymbolId) (pair : StateId × StateId) :
    List (StateId × StateId) :=
  symbols.filterMap fun symbol => do
    let s ← a.liveMove? liveA pair.1 symbol
    let t ← b.liveMove? liveB pair.2 symbol
    return (s, t)

/-- Whether the states of a pair agree on acceptance and on the symbols they move on. -/
def pairAgrees (a b : Dfa) (liveA liveB : StateSet) (symbols : List SymbolId) (pair : StateId × StateId) :
    Bool :=
  a.isFinal pair.1 == b.isFinal pair.2 &&
    symbols.all fun symbol =>
      (a.liveMove? liveA pair.1 symbol).isSome == (b.liveMove? liveB pair.2 symbol).isSome

/-- Whether no state of either side has two partners. -/
def oneToOne (pairs : List (StateId × StateId)) : Bool :=
  pairs.all fun p => pairs.all fun q => (p.1 == q.1) == (p.2 == q.2)

/-- Whether the live parts of two automata are the same up to the names of the states. For minimal
automata this says that they accept the same words. -/
def equivalent (a b : Dfa) : Bool :=
  let liveA := a.live
  let liveB := b.live
  match a.start.filter (· ∈ liveA), b.start.filter (· ∈ liveB) with
  | none, none => true
  | some s, some t =>
      let symbols := (a.alphabet ∪ b.alphabet).toList
      let bound := (a.moves.length + 1) * (b.moves.length + 1)
      let pairs := explore (pairSuccessors a b liveA liveB symbols) bound [(s, t)]
      pairs.all (pairAgrees a b liveA liveB symbols) && oneToOne pairs
  | _, _ => false

end LanguageTheory.Dfa
