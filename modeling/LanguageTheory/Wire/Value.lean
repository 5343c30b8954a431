import LanguageTheory.Error

/-! Structured values as they are exchanged with other programs, and how parts are read from them. A
structure is an object with its fields by name, where further fields are ignored, or the list of its
fields in order. A choice without data is its name, or an object that maps the name to null; one with
data is an object with the name as its only field, which holds the parts of the data by name, never
as a list. -/

namespace LanguageTheory.Wire

inductive Value
  | null
  | bool (b : Bool)
  | integer (n : Int)
  /-- A number that is not written as an integer. -/
  | fraction
  | text (s : String)
  | list (items : List Value)
  | object (fields : List (String × Value))
deriving Inhabited

/-- Why a value cannot be read. -/
inductive Failure
  /-- It does not have the form that is asked for. -/
  | form
  /-- It has the form, but what it says is not allowed. -/
  | refused (error : Error)

abbrev Read (α : Type) := Value → Except Failure α

namespace Value

def bool? : Read Bool
  | bool b => .ok b
  | _ => .error .form

/-- A natural number below `size`. -/
def natBelow (size : Nat) : Read Nat
  | integer n => if 0 ≤ n ∧ n < size then .ok n.toNat else .error .form
  | _ => .error .form

def text? : Read String
  | text s => .ok s
  | _ => .error .form

def word? : Read Word := fun v => do return (← v.text?).toList

/-- A text of one character. -/
def char? : Read Char := fun v => do
  match ← v.word? with
  | [c] => .ok c
  | _ => .error .form

def list? : Read (List Value)
  | list items => .ok items
  | _ => .error .form

/-- The values of an object at the given names; those that are missing are left open. -/
def parts? (names : List String) : Read (List (Option Value))
  | object fields => .ok (names.map fun name => fields.lookup name)
  | _ => .error .form

/-- The fields of a structure, in the order of their names; those that are missing are left open. -/
def fields? (names : List String) : Read (List (Option Value))
  | list items =>
      if items.length ≤ names.length then
        .ok (items.map some ++ List.replicate (names.length - items.length) none)
      else .error .form
  | v => v.parts? names

def required (r : Read α) : Option Value → Except Failure α
  | some v => r v
  | none => .error .form

def optional (default : α) (r : Read α) : Option Value → Except Failure α
  | some v => r v
  | none => .ok default

/-- The name of a choice and its data, if it has any. -/
def choice? : Read (String × Option Value)
  | text s => .ok (s, none)
  | object [(name, v)] => .ok (name, some v)
  | _ => .error .form

/-- One of several choices without data. -/
def oneOf (choices : List (String × α)) : Read α := fun v => do
  match ← v.choice? with
  | (name, none) | (name, some null) => (choices.lookup name).elim (.error .form) .ok
  | _ => .error .form

end Value

end LanguageTheory.Wire
