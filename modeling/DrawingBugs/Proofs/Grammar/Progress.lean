import DrawingBugs.Proofs.Grammar.Pace

/-!
# Progress

Every rule that matches has read a token. An expression comes back to expressions only behind an
opening parenthesis, and a command to commands only behind a brace or the guard of a case, so the
depth of the recursion is bounded by the tokens that are left, as is the number of rounds of every
loop.
-/

namespace DrawingBugs.Grammar

open Recognizer

variable {n : Nat}

/-! ## Expressions -/

section Nested

variable {nested nested' : Rule} (h : Advances n nested nested')
include h

end Nested

/-- What follows the word `case`. -/
def caseBody (nested : Rule) (case : Token) : Recognizer Tree := do
  let guard ← expect expression .caseGuard
  expect lineEnd .caseLine
  let commands ← many nested
  return .node case [guard, .labeled "block" commands]

section Nested

variable {nested nested' : Rule} (h : Advances n nested nested')
include h

end Nested

/-- The loops of the rules: the round that is repeated, what is asked in front of it, and what goes
on in it. -/
inductive Loop : {α β : Type} → Recognizer (Option β) → Recognizer (Option α) →
    (α → Recognizer β) → Prop
  | lineEnds : Loop (take .endOfLine none) (take .endOfLine none) pure
  | declarations : Loop variableDeclaration variableDeclaration pure
  | functions : Loop functionDefinition functionDefinition pure
  | bugs : Loop bugDefinition bugDefinition pure
  | commands : Loop command command pure
  | cases : Loop (caseOver command) (keyword "case") (caseBody command)
  | names (next : Expectation) :
    Loop (commit (symbol ",") fun _ => expect name next) (symbol ",") fun _ => expect name next
  | arguments : Loop (commit (symbol ",") fun _ => expect expression .nextArgument) (symbol ",")
      fun _ => expect expression .nextArgument

section Rounds

variable {α β : Type} {round : Recognizer (Option β)} {lead : Recognizer (Option α)}
  {body : α → Recognizer β}

variable {s : Scanner} {σ : TokenStream}

end Rounds

section Chains

variable {operand : Rule} {operator : Recognizer (Option Token)} {expected : Expectation}

variable {s : Scanner} {σ : TokenStream}

end Chains

section Nesting

variable {s : Scanner} {σ : TokenStream} {fuel : Nat} (hs : s.Holds σ) (hfuel : σ.length < fuel)
include hs hfuel

end Nesting

end DrawingBugs.Grammar
