/-!
# Reading numbers

A number is an optional sign, digits with an optional point, and an optional exponent; the
mantissa has at least one digit, on either side of the point. The words `inf`, `infinity` and
`nan` are numbers in any letter case. A decimal reads as the nearest double.
-/

namespace DrawingBugs.Number

/-- A decimal numeral in parts, as written. -/
structure Numeral where
  whole : List Char
  fraction : List Char
  exponentNegative : Bool
  exponent : List Char

def digitsValue (digits : List Char) : Nat :=
  digits.foldl (fun n c => 10 * n + (c.toNat - '0'.toNat)) 0

namespace Numeral

/-- The power of ten of the last mantissa digit. -/
def scale (n : Numeral) : Int :=
  let written : Int := digitsValue n.exponent
  (if n.exponentNegative then -written else written) - n.fraction.length

def value (n : Numeral) : Float :=
  Float.ofScientific (digitsValue (n.whole ++ n.fraction)) (decide (n.scale < 0)) n.scale.natAbs

end Numeral

/-- Splits off an optional sign; true stands for minus. -/
def takeSign : List Char → Bool × List Char
  | '-' :: rest => (true, rest)
  | '+' :: rest => (false, rest)
  | rest => (false, rest)

/-- Splits off a point with the digits after it. -/
def takeFraction : List Char → List Char × List Char
  | '.' :: rest => rest.span Char.isDigit
  | rest => ([], rest)

/-- Reads all that is left as nothing or as an exponent. -/
def readExponent? : List Char → Option (Bool × List Char)
  | [] => some (false, [])
  | mark :: rest =>
    let (negative, digits) := takeSign rest
    if mark.toLower = 'e' ∧ digits ≠ [] ∧ digits.all Char.isDigit then some (negative, digits)
    else none

def readNumeral? (cs : List Char) : Option Numeral :=
  let (whole, rest) := cs.span Char.isDigit
  let (fraction, rest) := takeFraction rest
  if whole = [] ∧ fraction = [] then none
  else (readExponent? rest).map fun (negative, exponent) => ⟨whole, fraction, negative, exponent⟩

def readMagnitude? (cs : List Char) : Option Float :=
  let word := cs.map Char.toLower
  if word = "inf".toList ∨ word = "infinity".toList then some (1.0 / 0.0)
  else if word = "nan".toList then some (0.0 / 0.0)
  else (readNumeral? cs).map Numeral.value

def readChars? (cs : List Char) : Option Float :=
  let (negative, magnitude) := takeSign cs
  (readMagnitude? magnitude).map fun v => if negative then -v else v

/-- The number that a text stands for. -/
def read? (text : String) : Option Float := readChars? text.toList

end DrawingBugs.Number
