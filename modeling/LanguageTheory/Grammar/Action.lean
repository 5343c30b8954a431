/-! Entries of a shift-reduce table. -/

namespace LanguageTheory

inductive Action
  | shift (state : Nat)
  /-- Replaces the right-hand side of this production of the grammar by its left-hand side. -/
  | reduce (production : Nat)
  | accept
deriving DecidableEq, Repr

def Action.text : Action → String
  | .shift state => "s" ++ toString state
  | .reduce production => "r" ++ toString production
  | .accept => "acc"

end LanguageTheory
