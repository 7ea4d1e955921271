import DrawingBugs.Number.Reading

/-!
# Estimates of numerals

A numeral in a document is not rounded as a whole. Its leading digits, as many as a word of 64
bits can hold, become a double, and that is scaled by a power of ten. Near the largest double
the product can leave the range although the nearest double to the numeral does not.
-/

namespace DrawingBugs.Number

/-- The first number that a word of 64 bits cannot hold. -/
def wordEnd : Nat := 0x10000000000000000

/-- Appends digits to a number as long as a word can hold it; the others are left over. -/
def appendDigits (n : Nat) : List Char → Nat × List Char
  | [] => (n, [])
  | c :: cs =>
    let longer := 10 * n + (c.toNat - '0'.toNat)
    if longer < wordEnd then appendDigits longer cs else (n, c :: cs)

/-- A natural number in a word, times a power of ten. -/
structure Scaled where
  significand : Nat
  power : Int
  deriving DecidableEq, Repr

namespace Scaled

/-- The largest power of ten that a double can hold. -/
def greatestPower : Int := 308

/-- Whether the product of significand and power, each rounded to a double, is no double. A
negative power never leads out of the range. -/
def isTooLarge (s : Scaled) : Bool :=
  if s.significand = 0 ∨ s.power < 0 then false
  else if greatestPower < s.power then true
  else (Float.ofNat s.significand * Float.ofScientific 1 false s.power.toNat).isInf

end Scaled

namespace Numeral

/-- The leading digits. A whole digit left over still counts as a place, one of the fraction does
not; a fraction may go on where the whole digits were cut off, if its digits fit. -/
def leading (n : Numeral) : Scaled :=
  let (whole, wholeRest) := appendDigits 0 n.whole
  let (significand, fractionRest) := appendDigits whole n.fraction
  ⟨significand, n.scale + wholeRest.length + fractionRest.length⟩

/-- Whether the estimate of the numeral is beyond the largest double. -/
def isTooLarge (n : Numeral) : Bool := n.leading.isTooLarge

end Numeral

end DrawingBugs.Number
