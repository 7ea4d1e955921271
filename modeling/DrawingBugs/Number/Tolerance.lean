/-!
# Comparison with a tolerance

A value counts as true when it lies outside the band of one thousandth around zero, and two
values are compared by where their difference lies. The rules are stated over any numbers with
a difference and an order, so that they can be read over exact numbers too.
-/

namespace DrawingBugs.Number

variable {α : Type} [Sub α] [Neg α] [LT α] [DecidableLT α]

/-- Whether a value lies outside the band of the given width on either side of zero. -/
def exceeds (tolerance v : α) : Bool := tolerance < v ∨ v < -tolerance

inductive Comparator where
  | less
  | atMost
  | equal
  | unequal
  | greater
  | atLeast
  deriving DecidableEq, Repr

namespace Comparator

def ofSymbol? : String → Option Comparator
  | "<" => some less
  | "<=" => some atMost
  | "=" => some equal
  | "!=" => some unequal
  | ">" => some greater
  | ">=" => some atLeast
  | _ => none

def holds (tolerance a b : α) : Comparator → Bool
  | less => tolerance < b - a
  | atMost => -tolerance < b - a
  | equal => !exceeds tolerance (a - b)
  | unequal => exceeds tolerance (a - b)
  | greater => tolerance < a - b
  | atLeast => -tolerance < a - b

end Comparator

def tolerance : Float := 0.001

/-- Whether a value counts as true. -/
def isTrue (v : Float) : Bool := exceeds tolerance v

/-- The number that stands for a truth value. -/
def ofBool (b : Bool) : Float := if b then 1.0 else 0.0

end DrawingBugs.Number
