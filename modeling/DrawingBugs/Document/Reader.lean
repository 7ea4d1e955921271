import DrawingBugs.Number.Estimate

/-!
# Reading document text

The parts of a document's text, read one after another from the left. Reading stops at the first
problem: the text ends too early, it is no document, or a value is not what the reader asked for.
A value that nobody asked for is passed over, whatever its numbers and escapes stand for.
-/

namespace DrawingBugs.Document

/-- Why a text was not read. -/
inductive Problem where
  /-- The text is no document. -/
  | malformed
  /-- The text ends inside a document. -/
  | ended
  /-- A value has the wrong type or stands where none may. -/
  | unfit
  deriving DecidableEq, Repr

abbrev Reader := StateT (List Char) (Except Problem)

namespace Reader

def isBlank (c : Char) : Bool := [' ', '\n', '\t', '\r'].contains c

/-- Passes over blanks and looks at the next character. -/
def peek : Reader (Option Char) := do
  let rest := (← get).dropWhile isBlank
  set rest
  return rest.head?

/-- Reads the next character, blanks included. -/
def next : Reader Char := do
  match ← get with
  | c :: rest =>
    set rest
    return c
  | [] => throw .ended

/-- Looks at the next character, blanks included. -/
def upcoming : Reader (Option Char) := return (← get).head?

/-- Reads the rest of a fixed word. -/
def word : List Char → Reader Unit
  | [] => return ()
  | c :: cs => do
    if (← next) = c then word cs else throw .malformed

private def hexValue? (c : Char) : Option Nat :=
  if c.isDigit then some (c.toNat - '0'.toNat)
  else if 'a' ≤ c ∧ c ≤ 'f' then some (c.toNat - 'a'.toNat + 10)
  else if 'A' ≤ c ∧ c ≤ 'F' then some (c.toNat - 'A'.toNat + 10)
  else none

private def hexDigit : Reader Nat := do
  match hexValue? (← next) with
  | some n => return n
  | none => throw .malformed

/-- Whether fewer than four bytes of text are left. -/
def isShort (cs : List Char) : Bool := cs.foldl (fun n c => n + c.utf8Size) 0 < 4

/-- Four hexadecimal digits; fewer than four bytes of text end it too early. -/
def codeUnit : Reader Nat := do
  if isShort (← get) then throw .ended
  let a ← hexDigit
  let b ← hexDigit
  let c ← hexDigit
  let d ← hexDigit
  return ((a * 16 + b) * 16 + c) * 16 + d

/-- The second half of a pair of code units, for a character beyond the first plane. -/
private def lowHalf (high : Nat) : Reader Char := do
  if (← next) ≠ '\\' then throw .malformed
  if (← next) ≠ 'u' then throw .malformed
  let low ← codeUnit
  if low < 0xDC00 ∨ 0xDFFF < low then throw .malformed
  return Char.ofNat (0x10000 + (high - 0xD800) * 0x400 + (low - 0xDC00))

/-- The character behind a backslash and a `u`. -/
def unicodeEscape : Reader Char := do
  let unit ← codeUnit
  if 0xDC00 ≤ unit ∧ unit ≤ 0xDFFF then throw .malformed
  if 0xD800 ≤ unit ∧ unit ≤ 0xDBFF then lowHalf unit else return Char.ofNat unit

/-- What the character after a backslash stands for by itself. -/
def simpleEscape? : Char → Option Char
  | '"' => some '"'
  | '\\' => some '\\'
  | '/' => some '/'
  | 'b' => some '\x08'
  | 'f' => some '\x0c'
  | 'n' => some '\n'
  | 'r' => some '\r'
  | 't' => some '\t'
  | _ => none

/-- The character behind a backslash. -/
def escape : Reader Char := do
  let c ← next
  match simpleEscape? c with
  | some c => return c
  | none => if c = 'u' then unicodeEscape else throw .malformed

/-- Passes over an escape; a code unit need not stand for a character. -/
def skipEscape : Reader Char := do
  let c ← next
  match simpleEscape? c with
  | some c => return c
  | none =>
    if c = 'u' then
      let _ ← codeUnit
      return c
    else throw .malformed

/-- The rest of a quoted text after its opening quote, `fuel` characters at most. -/
def quotedWithin (escape : Reader Char) : Nat → Reader (List Char)
  | 0 => throw .ended
  | fuel + 1 => do
    let c ← next
    if c = '"' then return []
    else if c = '\\' then return (← escape) :: (← quotedWithin escape fuel)
    else if c.toNat < 32 then throw .malformed
    else return c :: (← quotedWithin escape fuel)

/-- Gives a reader as much fuel as the unread text can use up. -/
def sized {α : Type} (r : Nat → Reader α) : Reader α := do r ((← get).length + 1)

/-- The rest of a quoted text after its opening quote. -/
def quoted : Reader String := return String.ofList (← sized (quotedWithin escape))

def skipQuoted : Reader Unit := do
  let _ ← sized (quotedWithin skipEscape)

/-- Reads digits as far as they go. -/
def digits : Reader (List Char) := do
  let (taken, rest) := (← get).span Char.isDigit
  set rest
  return taken

/-- One or more digits. -/
def someDigits : Reader (List Char) := do
  let c ← next
  if c.isDigit then return c :: (← digits) else throw .malformed

/-- The digits before the point: a zero only by itself. -/
def wholeDigits : Reader (List Char) := do
  let whole ← someDigits
  match whole with
  | '0' :: _ :: _ => throw .malformed
  | _ => return whole

def fractionDigits : Reader (List Char) := do
  match ← upcoming with
  | some '.' =>
    let _ ← next
    someDigits
  | _ => return []

def exponentDigits : Reader (Bool × List Char) := do
  match ← upcoming with
  | some mark =>
    if mark = 'e' ∨ mark = 'E' then
      let _ ← next
      let (negative, rest) := Number.takeSign (← get)
      set rest
      return (negative, ← someDigits)
    else return (false, [])
  | none => return (false, [])

/-- A number without its sign. -/
def numeral : Reader Number.Numeral := do
  let whole ← wholeDigits
  let fraction ← fractionDigits
  let (exponentNegative, exponent) ← exponentDigits
  return { whole, fraction, exponentNegative, exponent }

/-- Passes over a number without its sign; a text that ends inside it is no document. -/
def skipNumeral : Reader Unit := fun text =>
  match numeral text with
  | .ok (_, rest) => .ok ((), rest)
  | .error _ => .error .malformed

/-- A number that somebody asked for has to be in the range of doubles, by its estimate. -/
def rangedNumeral : Reader Number.Numeral := do
  let n ← numeral
  if n.isTooLarge then throw .malformed
  return n

mutual

/-- Passes over one value, nested less than `fuel` deep. -/
def skipWithin : Nat → Reader Unit
  | 0 => throw .ended
  | fuel + 1 => do
    match ← peek with
    | none => throw .ended
    | some '"' =>
      let _ ← next
      skipQuoted
    | some '[' =>
      let _ ← next
      match ← peek with
      | some ']' =>
        let _ ← next
      | _ => skipItems fuel
    | some '\x7b' =>
      let _ ← next
      match ← peek with
      | some '\x7d' =>
        let _ ← next
      | _ => skipMembers fuel
    | some 'n' => word ['n', 'u', 'l', 'l']
    | some 't' => word ['t', 'r', 'u', 'e']
    | some 'f' => word ['f', 'a', 'l', 's', 'e']
    | some '-' =>
      let _ ← next
      skipNumeral
    | some c => if c.isDigit then skipNumeral else throw .malformed

/-- Passes over items up to the end of their array. -/
def skipItems : Nat → Reader Unit
  | 0 => throw .ended
  | fuel + 1 => do
    skipWithin fuel
    match ← peek with
    | none => throw .ended
    | some c =>
      let _ ← next
      if c = ',' then skipItems fuel
      else if c = ']' then return ()
      else throw .malformed

/-- Passes over members up to the end of their object. -/
def skipMembers : Nat → Reader Unit
  | 0 => throw .ended
  | fuel + 1 => do
    match ← peek with
    | none => throw .ended
    | some c =>
      let _ ← next
      if c ≠ '"' then throw .malformed
      skipQuoted
      match ← peek with
      | none => throw .ended
      | some c =>
        let _ ← next
        if c ≠ ':' then throw .malformed
        skipWithin fuel
        match ← peek with
        | none => throw .ended
        | some c =>
          let _ ← next
          if c = ',' then skipMembers fuel
          else if c = '\x7d' then return ()
          else throw .malformed

end

/-- Passes over one value. Every nested value costs at most two units of fuel. -/
def skip : Reader Unit := do skipWithin (2 * (← get).length + 2)

/-- Refuses the value that comes next: its first problem is that it is unfit, unless it is a
plain value that cannot be read itself. -/
def refuse {α : Type} : Reader α := do
  match ← peek with
  | none => throw .ended
  | some c =>
    if c = '[' ∨ c = '\x7b' then throw .unfit
    else if c = '"' then
      let _ ← next
      let _ ← quoted
      throw .unfit
    else if c = '-' then
      let _ ← next
      let _ ← rangedNumeral
      throw .unfit
    else if c.isDigit then
      let _ ← rangedNumeral
      throw .unfit
    else
      skip
      throw .unfit

end Reader

end DrawingBugs.Document
