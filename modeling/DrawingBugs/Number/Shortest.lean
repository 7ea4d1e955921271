import DrawingBugs.Number.Binary64

/-!
# Shortest decimals

The decimal with the fewest digits among those that read back as a given double. Every real
number closer to the double than to its neighbours reads back as it; the two ends of that
interval do so exactly when the mantissa is even. For one digit, two digits and so on, the two
neighbours of the value on the decimal grid are tried, and the first grid with a hit decides.
-/

namespace DrawingBugs.Number

/-- The number `digits * 10 ^ exponent`. -/
structure Decimal where
  digits : Nat
  exponent : Int
  deriving DecidableEq, Repr

/-- Which of two equally near decimals is taken. -/
inductive Tie where
  | upward
  | toEven
  deriving DecidableEq, Repr

/-- The decimal digits of a number, most significant first; zero has the one digit `0`. -/
def decimalDigits (n : Nat) : List Char := Nat.toDigits 10 n

/-- The power of ten of the leading digit of `numerator / denominator`. -/
def leadingPower (numerator denominator : Nat) : Int :=
  let guess : Int := (decimalDigits numerator).length - (decimalDigits denominator).length
  let reached := denominator * raise 10 guess ≤ numerator * raise 10 (-guess)
  if reached then guess else guess - 1

namespace Shortest

/-- How far below the value reading back reaches, in quarters of the spacing above it: half a
spacing, and half of that for a power of two, whose lower neighbour is twice as near. -/
def lowerReach (mantissa : Nat) (exponent : Int) : Nat :=
  if mantissa = Binary64.hiddenBit ∧ exponent ≠ Binary64.leastExponent then 1 else 2

/-- Whether a decimal at this distance reads back, given how far reading back reaches. -/
def reaches (mantissa distance reach : Nat) : Bool :=
  if mantissa % 2 = 0 then distance ≤ reach else distance < reach

/-- The point of the grid of multiples of `10 ^ power` that stands for the value, if one does. -/
def onGrid (tie : Tie) (mantissa : Nat) (exponent power : Int) : Option Nat :=
  let spacing := raise 2 exponent * raise 10 (-power)
  let unit := raise 2 (-exponent) * raise 10 power
  let value := mantissa * spacing
  let below := value / unit
  let past := value % unit
  let short := unit - past
  let takesBelow := reaches mantissa (4 * past) (lowerReach mantissa exponent * spacing)
  let takesAbove := reaches mantissa (4 * short) (2 * spacing)
  let prefersAbove := short < past ∨ short = past ∧ (tie = .upward ∨ below % 2 = 1)
  if takesBelow ∧ takesAbove then some (if prefersAbove then below + 1 else below)
  else if takesBelow then some below
  else if takesAbove then some (below + 1)
  else none

end Shortest

/-- Drops trailing zeros, at most `fuel` of them. -/
def Decimal.trim : Nat → Decimal → Decimal
  | 0, d => d
  | fuel + 1, d =>
    if d.digits ≠ 0 ∧ d.digits % 10 = 0 then trim fuel ⟨d.digits / 10, d.exponent + 1⟩ else d

/-- The shortest decimal for `mantissa * 2 ^ exponent`; seventeen digits always suffice. -/
def shortest (tie : Tie) (mantissa : Nat) (exponent : Int) : Decimal :=
  let leading := leadingPower (mantissa * raise 2 exponent) (raise 2 (-exponent))
  let attempt (count : Nat) : Option Decimal :=
    let power := leading - count
    (Shortest.onGrid tie mantissa exponent power).map fun n => Decimal.trim 17 ⟨n, power⟩
  ((List.range 17).findSome? attempt).getD ⟨0, 0⟩

end DrawingBugs.Number
