/-! Decimal numbers and the positions they stand for. A position takes the leading digits that fit in
64 bits, rounds them to a float, and scales the result by a power of ten, which rounds once more; so
a number of many digits need not become the float that is nearest to it. Zero keeps its sign. -/

namespace LanguageTheory.Wire

/-- The number `digits * 10 ^ exponent`, with its sign. -/
structure Decimal where
  negative : Bool
  digits : Nat
  exponent : Int
deriving DecidableEq, Repr

namespace Decimal

def valueOfDigits (text : List Char) : Nat :=
  (text.filter Char.isDigit).foldl (fun n c => 10 * n + (c.toNat - '0'.toNat)) 0

/-- The number that is written as a sign, digits with a point among them, and an exponent. The point
and the exponent may be missing. -/
def ofChars (text : List Char) : Decimal :=
  let isMark (c : Char) : Bool := c == 'e' || c == 'E'
  let digits := text.takeWhile fun c => !isMark c
  let scale := text.dropWhile fun c => !isMark c
  let places := ((digits.dropWhile (· != '.')).filter Char.isDigit).length
  let exponent : Int := valueOfDigits scale
  { negative := text.head? == some '-'
    digits := valueOfDigits digits
    exponent := (if scale.contains '-' then -exponent else exponent) - places }

/-- The number without the last digits beyond those that fit in 64 bits. -/
def leading (d : Decimal) : Decimal :=
  if UInt64.size ≤ d.digits then
    leading { d with digits := d.digits / 10, exponent := d.exponent + 1 }
  else d
termination_by d.digits
decreasing_by
  simp only [UInt64.size] at *
  omega

theorem leading_digits_lt (d : Decimal) : d.leading.digits < UInt64.size := by
  fun_induction leading d with
  | case1 d _ ih => exact ih
  | case2 d h => exact Nat.lt_of_not_le h

theorem leading_of_digits_lt {d : Decimal} (h : d.digits < UInt64.size) : d.leading = d := by
  rw [leading, if_neg (Nat.not_le.2 h)]

/-- Ten to the power `n` as a float. -/
def tenTo (n : Nat) : Float := Float.ofScientific 1 false n

/-- The size of the number. The largest power of ten that is a float is `10 ^ 308`, so a number below
that scale is divided twice, and one that is below it still after two divisions is zero. -/
def magnitude (d : Decimal) : Float :=
  if d.digits = 0 then 0
  else
    let size := Float.ofNat d.digits
    if 0 ≤ d.exponent then size * tenTo d.exponent.toNat
    else
      let places := d.exponent.natAbs
      if places ≤ 308 then size / tenTo places
      else if places ≤ 616 then size / tenTo 308 / tenTo (places - 308)
      else 0

def toFloat (d : Decimal) : Float :=
  let size := d.leading.magnitude
  if d.negative then -size else size

end Decimal

end LanguageTheory.Wire
