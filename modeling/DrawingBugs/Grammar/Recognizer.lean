import DrawingBugs.Grammar.Expectation
import DrawingBugs.Tree

/-!
# Recognizers

A rule looks one token ahead. It does not match and leaves the input alone, or it matches, or,
once it has committed itself by reading a token, it fails at the first token that cannot follow.
Repetition is bounded by the size of the unread input.
-/

namespace DrawingBugs

/-- A computation on a scanner, which goes on from where it stopped also after an error. -/
abbrev Recognizer := EStateM SyntaxError Scanner

/-- A recognizer that may find no match. -/
abbrev Rule := Recognizer (Option Tree)

namespace Recognizer

variable {α β : Type}

def nextToken : Recognizer Token := fun s =>
  match s.next with
  | (.ok token, s') => .ok token s'
  | (.error e, s') => .error (.lexical e) s'

/-- Reads the next token if it fits and takes it back otherwise. -/
def take (kind : Kind) (text : Option String) : Recognizer (Option Token) := do
  let token ← nextToken
  if token.fits kind text then return some token
  modify (Scanner.takeBack token)
  return none

def keyword (word : String) : Recognizer (Option Token) := take .keyword (some word)

def symbol (text : String) : Recognizer (Option Token) := take .symbol (some text)

def name : Recognizer (Option Token) := take .name none

/-- Whether a token of this kind and text comes next. -/
def isNext (kind : Kind) (text : String) : Recognizer Bool := do
  let token ← nextToken
  modify (Scanner.takeBack token)
  return token.fits kind (some text)

/-- Fails at the next token, which is read. -/
def fail (expected : Expectation) : Recognizer α := do
  let token ← nextToken
  throw (.unexpected expected token)

/-- Asks for a match. -/
def expect (p : Recognizer (Option α)) (expected : Expectation) : Recognizer α := do
  match ← p with
  | some a => return a
  | none => fail expected

/-- Goes on with `body` once `lead` has matched. -/
def commit (lead : Recognizer (Option α)) (body : α → Recognizer β) : Recognizer (Option β) := do
  match ← lead with
  | some a => return some (← body a)
  | none => return none

/-- The first of two recognizers that matches. -/
def either (p q : Recognizer (Option α)) : Recognizer (Option α) := do
  match ← p with
  | some a => return some a
  | none => q

/-- Gives a recognizer as much fuel as the unread input can use up. -/
def sized (p : Nat → Recognizer α) : Recognizer α := fun s => p (s.size + 1) s

/-- All matches in a row, `fuel` of them at most. -/
def manyWithin (p : Recognizer (Option α)) : Nat → Recognizer (List α)
  | 0 => return []
  | fuel + 1 => do
    match ← p with
    | some a => return a :: (← manyWithin p fuel)
    | none => return []

/-- All matches in a row. -/
def many (p : Recognizer (Option α)) : Recognizer (List α) := sized (manyWithin p)

/-- One match, and further ones after commas. -/
def commaSeparated (item : Recognizer (Option α)) (first next : Expectation) : Recognizer (List α) := do
  let a ← expect item first
  let rest ← many (commit (symbol ",") fun _ => expect item next)
  return a :: rest

/-- Goes on with a left operand, `fuel` operators at most. -/
def chainWithin (operand : Rule) (operator : Recognizer (Option Token)) (expected : Expectation) :
    Nat → Tree → Recognizer Tree
  | 0, left => return left
  | fuel + 1, left => do
    match ← operator with
    | some op =>
      let right ← expect operand expected
      chainWithin operand operator expected fuel (.node op [left, right])
    | none => return left

/-- Operands with operators between them, nested to the left. -/
def chain (operand : Rule) (operator : Recognizer (Option Token)) (expected : Expectation) : Rule :=
  commit operand fun left =>
    sized fun fuel => chainWithin operand operator expected fuel left

/-- One or more line ends. -/
def lineEnd : Recognizer (Option Unit) :=
  commit (take .endOfLine none) fun _ => do
    let _ ← many (take .endOfLine none)
    return ()

/-- One or more line ends, or the end of the input, which is not read. -/
def expectLineEndOrEnd (expected : Expectation) : Recognizer Unit := do
  match ← lineEnd with
  | some () => return ()
  | none => if ← isNext .endOfInput "EOF" then return () else fail expected

/-- An opening brace and the line end after it. -/
def opening (brace line : Expectation) : Recognizer Unit := do
  let _ ← expect (symbol "\x7b") brace
  expect lineEnd line

end Recognizer

end DrawingBugs
