import DrawingBugs.Number.Binary64

/-!
# Hypotenuse

The length of the hypotenuse of a right triangle. The plain root of the sum of squares is
mended by one differential correction, and sides whose squares would leave the range of doubles
are scaled by a power of two first.
-/

namespace DrawingBugs.Number

namespace Hypotenuse

/-- A power of two as a double. -/
def power (exponent : Int) : Float := Binary64.finiteFloat false 1 exponent

/-- The corrected root for sides `0 < short ≤ long` whose squares are in range. -/
def corrected (long short : Float) : Float :=
  let root := Float.sqrt (long * long + short * short)
  if root ≤ 2.0 * short then
    let excess := root - short
    let first := long * (2.0 * excess - long)
    let second := (excess - 2.0 * (long - short)) * excess
    root - (first + second) / (2.0 * root)
  else
    let excess := root - long
    let first := 2.0 * excess * (long - 2.0 * short)
    let second := (4.0 * excess - short) * short + excess * excess
    root - (first + second) / (2.0 * root)

/-- Below this ratio the short side is lost in rounding. -/
def negligible : Float := power (-54)

def scaling : Float := power (-600)

def ofSides (long short : Float) : Float :=
  if long > power 511 then
    if short ≤ long * negligible then long + short
    else corrected (long * scaling) (short * scaling) / scaling
  else if short < power (-459) then
    if long ≥ short / negligible then long + short
    else corrected (long / scaling) (short / scaling) * scaling
  else if short ≤ long * negligible then long + short
  else corrected long short

end Hypotenuse

/-- The distance between two points `(dx, dy)` apart. An infinite side makes it infinite even
beside a side that is not a number. -/
def hypotenuse (dx dy : Float) : Float :=
  match Binary64.ofFloat dx, Binary64.ofFloat dy with
  | .infinite _, _ => 1.0 / 0.0
  | _, .infinite _ => 1.0 / 0.0
  | .notANumber, _ => 0.0 / 0.0
  | _, .notANumber => 0.0 / 0.0
  | _, _ =>
    let a := dx.abs
    let b := dy.abs
    if a < b then Hypotenuse.ofSides b a else Hypotenuse.ofSides a b

end DrawingBugs.Number
