import DrawingBugs.Number.Binary64

/-!
# Headings

Degrees are brought back into one turn by the exact remainder of a division by 360; a negative
remainder is lifted by one turn, and that sum is rounded.
-/

namespace DrawingBugs.Number

/-- The remainder of `v` divided by 360, exact and with the sign of `v`. -/
def turnRemainder (v : Float) : Float :=
  match Binary64.ofFloat v with
  | .finite negative mantissa exponent =>
    if exponent < 0 then
      Binary64.finiteFloat negative (mantissa % (360 * raise 2 (-exponent))) exponent
    else Binary64.finiteFloat negative (mantissa * raise 2 exponent % 360) 0
  | _ => 0.0 / 0.0

/-- The heading that points the same way within one turn. -/
def wrapHeading (v : Float) : Float :=
  let r := turnRemainder v
  if r < 0.0 then r + 360.0 else r

def radiansPerDegree : Float := 0.017453292519943295

def degreesPerRadian : Float := 57.29577951308232

def toRadians (degrees : Float) : Float := degrees * radiansPerDegree

def toDegrees (radians : Float) : Float := radians * degreesPerRadian

/-- The heading of the offset `(dx, dy)`: 0 is east and 90 is north, where `y` decreases. -/
def headingOf (dx dy : Float) : Float := wrapHeading (toDegrees (Float.atan2 (-dy) dx))

end DrawingBugs.Number
