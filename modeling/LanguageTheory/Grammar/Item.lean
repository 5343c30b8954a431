import LanguageTheory.Finite.Exploration
import LanguageTheory.Grammar.Basic

/-! Items: productions of an augmented grammar with a dot that says how much of the right-hand side has
been read. -/

namespace LanguageTheory

/-- A production, by its index in the augmented grammar, and the number of symbols before its dot. -/
structure Item where
  production : Nat
  dot : Nat
deriving DecidableEq, Repr, Hashable

namespace Item

/-- Items are ordered by production, then by dot. -/
instance : LT Item :=
  ⟨fun i j => i.production < j.production ∨ (i.production = j.production ∧ i.dot < j.dot)⟩

theorem lt_def {i j : Item} :
    i < j ↔ i.production < j.production ∨ (i.production = j.production ∧ i.dot < j.dot) := Iff.rfl

instance : DecidableLT Item := fun _ _ => inferInstanceAs (Decidable (_ ∨ _))

instance : Trans (α := Item) (· < ·) (· < ·) (· < ·) := ⟨fun h h' => by
  simp only [lt_def] at *
  omega⟩

instance : Std.Irrefl (α := Item) (· < ·) := ⟨fun i => by simp [lt_def]⟩

instance : Std.Trichotomous (α := Item) (· < ·) := ⟨fun i j h h' => by
  cases i
  cases j
  simp only [lt_def, mk.injEq] at *
  omega⟩

def advance (i : Item) : Item := { i with dot := i.dot + 1 }

end Item

abbrev ItemSet := Ascending Item

/-- A grammar with a new start variable and, in front of its productions, one from the new start
variable to the old. -/
structure AugmentedGrammar where
  grammar : Grammar
  start : Char
  productions : List Production

namespace AugmentedGrammar

/-- Fails if the grammar uses every capital letter. -/
def of (g : Grammar) : Except Error AugmentedGrammar := do
  let start ← g.freshVariable
  let first ← Production.of start [g.start]
  return ⟨g, start, first :: g.productions⟩

/-- The index in the original grammar; the added production has none. -/
def originalIndex (production : Nat) : Option Nat := if production = 0 then none else some (production - 1)

def afterDot? (g : AugmentedGrammar) (i : Item) : Option Char :=
  g.productions[i.production]?.bind (·.symbol? i.dot)

/-- Whether nothing stands after the dot. -/
def isComplete (g : AugmentedGrammar) (i : Item) : Bool := (g.afterDot? i).isNone

/-- The items that start reading the variable after the dot. -/
def predicted (g : AugmentedGrammar) (i : Item) : List Item :=
  match g.afterDot? i with
  | none => []
  | some v => g.productions.zipIdx.filterMap fun (p, index) => if p.left = v then some ⟨index, 0⟩ else none

/-- The items together with all that start reading a variable after one of their dots. -/
def closure (g : AugmentedGrammar) (items : ItemSet) : ItemSet :=
  .ofList (explore g.predicted (items.size + g.productions.length) items.toList)

/-- The closure of the items whose dot can be moved over the symbol, with the dot moved. -/
def goto (g : AugmentedGrammar) (items : ItemSet) (symbol : Char) : ItemSet :=
  g.closure (.ofList ((items.toList.filter fun i => g.afterDot? i == some symbol).map Item.advance))

def initialItems (g : AugmentedGrammar) : ItemSet := g.closure (.ofList [⟨0, 0⟩])

/-- The symbols that a dot can be moved over. -/
def afterDots (g : AugmentedGrammar) (items : ItemSet) : Ascending Char :=
  .ofList (items.toList.filterMap g.afterDot?)

/-- The production with its dot, as in `E → E·+T`; empty for an index without a production. -/
def itemText (g : AugmentedGrammar) (i : Item) : String :=
  match g.productions[i.production]? with
  | none => ""
  | some p =>
      String.ofList ([p.left, ' ', '→', ' '] ++ p.right.take i.dot ++ '·' :: p.right.drop i.dot)

end AugmentedGrammar

end LanguageTheory
