import DrawingBugs.Number.Shortest

/-!
# The text of a number

A `Layout` fixes how shortest digits are set out: which leading powers are written
positionally, how an exponent is written, and which way ties go.
-/

namespace DrawingBugs.Number

structure Layout where
  /-- The least power of ten of a leading digit that is written positionally. -/
  leastPlain : Int
  /-- The greatest power of ten of a leading digit that is written positionally. -/
  greatestPlain : Int
  /-- Whether a positive exponent carries a plus sign. -/
  plusSign : Bool
  tie : Tie

/-- Digits with a point, and at least one digit on either side of it. -/
def positional (digits : List Char) (exponent : Int) : List Char :=
  let leading := exponent + digits.length
  if 0 ≤ exponent then digits ++ List.replicate exponent.toNat '0' ++ ['.', '0']
  else if 0 < leading then digits.take leading.toNat ++ '.' :: digits.drop leading.toNat
  else '0' :: '.' :: (List.replicate (-leading).toNat '0' ++ digits)

/-- One digit before the point, which is left out when no digit follows. -/
def scientific (plusSign : Bool) (digits : List Char) (exponent : Int) : List Char :=
  let leading := exponent + digits.length - 1
  let sign := if leading < 0 then ['-'] else if plusSign then ['+'] else []
  let point := if digits.length ≤ 1 then [] else ['.']
  digits.take 1 ++ point ++ digits.drop 1 ++ 'e' :: sign ++ decimalDigits leading.natAbs

namespace Layout

def decimal (layout : Layout) (d : Decimal) : List Char :=
  let digits := decimalDigits d.digits
  let leading := d.exponent + digits.length - 1
  if layout.leastPlain ≤ leading ∧ leading ≤ layout.greatestPlain then positional digits d.exponent
  else scientific layout.plusSign digits d.exponent

def signed (negative : Bool) (text : List Char) : List Char :=
  if negative then '-' :: text else text

def chars (layout : Layout) (v : Float) : List Char :=
  match Binary64.ofFloat v with
  | .notANumber => ['N', 'a', 'N']
  | .infinite negative => signed negative ['i', 'n', 'f']
  | .finite negative mantissa exponent =>
    if mantissa = 0 then signed negative ['0', '.', '0']
    else signed negative (layout.decimal (shortest layout.tie mantissa exponent))

def render (layout : Layout) (v : Float) : String := String.ofList (layout.chars v)

end Layout

/-- Token texts and reports: positional from `0.0001` to below `10 ^ 16`, and a bare exponent
outside. -/
def reportLayout : Layout := ⟨-4, 15, false, .upward⟩

/-- Documents: positional from `0.00001` to below `10 ^ 16`, and a signed exponent outside. -/
def documentLayout : Layout := ⟨-5, 15, true, .toEven⟩

/-- The canonical text of a number. -/
def text (v : Float) : String := reportLayout.render v

end DrawingBugs.Number
