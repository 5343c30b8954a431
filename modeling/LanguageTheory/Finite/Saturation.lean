/-! The least set closed under rules "if all of the body is in, so is the head". Rounds over the rules
are repeated until one adds nothing. -/

namespace LanguageTheory

/-- A rule: once every member of `body` is derived, so is `head`. -/
structure Rule (α : Type u) where
  body : List α
  head : α

namespace Rule

variable {α : Type u} [DecidableEq α]

/-- Adds the head of the rule if its body is among the known facts and the head is not. -/
def fire (known : List α) (rule : Rule α) : List α :=
  if rule.head ∉ known ∧ ∀ a ∈ rule.body, a ∈ known then rule.head :: known else known

/-- At most `bound` rounds over the rules, ending early after a round that adds nothing. -/
def rounds (rules : List (Rule α)) : Nat → List α → List α
  | 0, known => known
  | bound + 1, known =>
      let grown := rules.foldl fire known
      if grown.length = known.length then known else rounds rules bound grown

/-- Everything the rules derive. Each round but the last adds the head of a rule for the first time,
so there are at most as many of them as rules. -/
def consequences (rules : List (Rule α)) : List α := rounds rules rules.length []

end Rule

/-- What the rules derive, as an inductive family. -/
inductive Rule.Derives {α : Type u} (rules : List (Rule α)) : α → Prop
  | intro (rule : Rule α) : rule ∈ rules → (∀ a ∈ rule.body, Rule.Derives rules a) →
      Rule.Derives rules rule.head

end LanguageTheory
