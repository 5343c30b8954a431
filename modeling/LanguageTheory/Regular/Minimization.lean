import LanguageTheory.Regular.Dfa

/-! Minimization by refining a partition. The states that cannot be reached are left out, and missing
moves lead to a trap, an extra state that accepts nothing. The first partition separates final from
other states; each round splits every block by the blocks that the moves of its members lead to, until
a round splits none. -/

namespace LanguageTheory

/-- Blocks of states, no state in two of them. -/
abbrev Partition := List (List StateId)

namespace Partition

def blockOf (p : Partition) (s : StateId) : Nat := p.findIdx (·.contains s)

/-- The members of a list grouped by a key, groups and members in order of first occurrence. -/
def groupBy {κ : Type} [DecidableEq κ] (key : StateId → κ) (members : List StateId) : Partition :=
  (fresh [] (members.map key)).map fun k => members.filter fun s => key s = k

/-- The partition with one state left out. -/
def without (p : Partition) (trap : Option StateId) : Partition :=
  (p.map fun block => block.filter fun s => some s ≠ trap).filter (!·.isEmpty)

/-- The block that holds the trap alone, if there is one. -/
def trapBlock? (p : Partition) (trap : Option StateId) : Option Nat :=
  trap.bind fun t =>
    let block := p.blockOf t
    if (p[block]?.getD []).all (· = t) then some block else none

/-- The blocks that become states, as places in the partition: that of the start state, then the others
in order, but for one that holds the trap alone. -/
def kept (p : Partition) (start : StateId) (trap : Option StateId) : List Nat :=
  let first := p.blockOf start
  first :: (List.range p.length).filter fun b => b ≠ first && some b ≠ p.trapBlock? trap

/-- The members of a block without the trap. -/
def visible (p : Partition) (trap : Option StateId) (b : Nat) : List StateId :=
  (p[b]?.getD []).filter fun s => some s ≠ trap

end Partition

structure Dfa.Minimized where
  dfa : Dfa
  /-- For each state of the result, the states that are merged in it. -/
  blocks : Partition
  /-- The partition at first and after each round. -/
  rounds : List Partition

namespace Dfa

/-- Where a symbol leads if missing moves lead to the trap, as does every move of the trap. -/
def followOr (d : Dfa) (trap : Option StateId) (s : StateId) (symbol : SymbolId) : Option StateId :=
  if some s = trap then trap else (d.move? s symbol).or trap

/-- The blocks that the moves of a state lead to, by symbol. -/
def signature (d : Dfa) (trap : Option StateId) (p : Partition) (s : StateId) : List (Option Nat) :=
  d.alphabet.toList.map fun symbol => (d.followOr trap s symbol).map p.blockOf

def refine (d : Dfa) (trap : Option StateId) (p : Partition) : Partition :=
  p.flatMap (Partition.groupBy (d.signature trap p))

/-- The partitions from `p` on, up to the last one that a round changes. A round that splits anything
makes a partition longer, so there are no more of them than states. -/
def refinements (d : Dfa) (trap : Option StateId) : Nat → Partition → List Partition
  | 0, p => [p]
  | limit + 1, p =>
      let refined := d.refine trap p
      if refined.length = p.length then [p] else p :: refinements d trap limit refined

/-- An extra state, needed if a reachable state lacks a move. -/
def trap? (d : Dfa) : Option StateId :=
  if d.reachable.toList.all fun s => d.alphabet.toList.all fun symbol => (d.move? s symbol).isSome then none
  else some d.size

/-- The moves of a block, given with its new number, are those of its first member. -/
def blockMoves (d : Dfa) (p : Partition) (kept : List Nat) (block : List StateId × Nat) : List Move :=
  block.1.head?.toList.flatMap fun s =>
    d.alphabet.toList.filterMap fun symbol => do
      let target ← d.move? s symbol
      let new ← kept.idxOf? (p.blockOf target)
      return ⟨block.2, symbol, new⟩

/-- The minimal automaton over the blocks of a partition, which are numbered in the order in which they
are kept. -/
def quotient (d : Dfa) (start : StateId) (trap : Option StateId) (p : Partition) : Dfa × Partition :=
  let kept := p.kept start trap
  let blocks := kept.map (p.visible trap)
  let finals := blocks.zipIdx.filterMap fun (members, i) =>
    if members.head?.any d.isFinal then some i else none
  let origins := d.origins.map fun entries =>
    blocks.zipIdx.map fun (members, i) =>
      (i, (Ascending.ofList (members.flatMap fun s => (entries.lookup s).getD [])).toList)
  (⟨kept.length, some 0, .ofList finals, d.alphabet, blocks.zipIdx.flatMap (d.blockMoves p kept), origins⟩,
    blocks)

/-- The states that take part in refinement: the reachable ones, and the trap if one is needed. -/
def members (d : Dfa) : List StateId := d.reachable.toList ++ d.trap?.toList

/-- The blocks of final and of other states, without an empty one. -/
def splitByFinality (d : Dfa) (members : List StateId) : Partition :=
  let blocks : Partition := [members.filter d.isFinal, members.filter fun s => !d.isFinal s]
  blocks.filter (!·.isEmpty)

/-- The partition at first and after each round. -/
def history (d : Dfa) : List Partition :=
  let members := d.members
  d.refinements d.trap? members.length (d.splitByFinality members)

def minimize (d : Dfa) : Minimized :=
  match d.start with
  | none => ⟨.empty, [], []⟩
  | some start =>
      let trap := d.trap?
      let partitions := d.history
      let (dfa, blocks) := d.quotient start trap (partitions.getLastD [])
      ⟨dfa, blocks, partitions.map (·.without trap)⟩

end Dfa

end LanguageTheory
