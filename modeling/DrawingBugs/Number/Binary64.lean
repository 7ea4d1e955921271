/-!
# Doubles as exact numbers

A double is read as what its bits stand for: not a number, a signed infinity, or a signed
natural number times a power of two. All exact number work starts from this view.
-/

namespace DrawingBugs.Number

/-- What a double stands for; a finite one is `± mantissa * 2 ^ exponent`. -/
inductive Binary64 where
  | notANumber
  | infinite (negative : Bool)
  | finite (negative : Bool) (mantissa : Nat) (exponent : Int)
  deriving DecidableEq, Repr

/-- The power of a base, and one for a negative exponent. -/
def raise (base : Nat) (exponent : Int) : Nat := Nat.pow base exponent.toNat

namespace Binary64

/-- The bit `2 ^ 52` of a normal number's mantissa, which is not stored. -/
def hiddenBit : Nat := 0x10000000000000

/-- The bit `2 ^ 63`, which is set for a negative number. -/
def signBit : Nat := 0x8000000000000000

/-- The exponent of the subnormal numbers and of the smallest normal ones. -/
def leastExponent : Int := -1074

def ofFloat (v : Float) : Binary64 :=
  let bits := v.toBits.toNat
  let negative := decide (signBit ≤ bits)
  let field := bits / hiddenBit % 2048
  let fraction := bits % hiddenBit
  if field = 2047 then
    if fraction = 0 then .infinite negative else .notANumber
  else if field = 0 then .finite negative fraction leastExponent
  else .finite negative (hiddenBit + fraction) (field - 1075)

/-- How far a mantissa moves left so that it fills 53 bits or meets the least exponent. -/
private def room (mantissa : Nat) (exponent : Int) : Nat :=
  min (52 - mantissa.log2) (exponent - leastExponent).toNat

/-- The double with this value, for a mantissa below `2 ^ 53` and an exponent in range. -/
def finiteFloat (negative : Bool) (mantissa : Nat) (exponent : Int) : Float :=
  let shift := room mantissa exponent
  let filled := mantissa * raise 2 shift
  let field := if filled < hiddenBit then 0 else (exponent - shift + 1075).toNat
  let sign := if negative then signBit else 0
  Float.ofBits (UInt64.ofNat (sign + field * hiddenBit + filled % hiddenBit))

def isFinite : Binary64 → Bool
  | .finite .. => true
  | _ => false

end Binary64

def isFinite (v : Float) : Bool := (Binary64.ofFloat v).isFinite

end DrawingBugs.Number
