import DrawingBugs.Grammar.Recognizer

/-!
# Expressions

    expression := arithmetic { comparator arithmetic }
    arithmetic := term { ("+" | "-") term }
    term       := factor { ("*" | "/") factor }
    factor     := [ "+" | "-" ] unsigned
    unsigned   := NAME "." NAME | NAME arguments | NAME | NUMBER | "(" expression ")"
    arguments  := "(" [ expression { "," expression } ] ")"

Each rule is first given over the rule for an expression inside it, and then closed.
-/

namespace DrawingBugs.Grammar

open Recognizer

def addOperator : Recognizer (Option Token) := either (symbol "+") (symbol "-")

def multiplyOperator : Recognizer (Option Token) := either (symbol "*") (symbol "/")

/-- An equals sign that follows at once makes one comparator with the first character. -/
def withEquals (first : Token) : Recognizer Token := do
  match ← symbol "=" with
  | some _ => return { first with text := first.text ++ "=" }
  | none => return first

def bangEquals (bang : Token) : Recognizer Token := do
  let _ ← expect (symbol "=") .equalsAfterBang
  return { bang with text := "!=" }

def comparator : Recognizer (Option Token) :=
  either (commit (symbol "<") withEquals)
    (either (commit (symbol ">") withEquals)
      (either (symbol "=") (commit (symbol "!") bangEquals)))

/-- The call of a function with the given arguments. -/
def callTree (name : Token) (arguments : Tree) : Tree :=
  .labeled "call" [.leaf name, arguments]

section Open

variable (nested : Rule)

/-- The expressions before a closing parenthesis, possibly none. -/
def argumentsOver : Recognizer (List Tree) := do
  match ← nested with
  | some first =>
    let rest ← many (commit (symbol ",") fun _ => expect nested .nextArgument)
    return first :: rest
  | none => return []

def parameterListOver : Rule :=
  commit (symbol "(") fun _ => do
    let arguments ← argumentsOver nested
    let _ ← expect (symbol ")") .argumentsClosing
    return .labeled "var" arguments

/-- What may follow a name: a field of that bug, arguments, or nothing. -/
def namedOver (name : Token) : Recognizer Tree := do
  match ← symbol "." with
  | some dot =>
    let field ← expect Recognizer.name .fieldName
    return .node dot [.leaf name, .leaf field]
  | none =>
    match ← parameterListOver nested with
    | some arguments => return callTree name arguments
    | none => return .leaf name

def parenthesizedOver : Rule :=
  commit (symbol "(") fun _ => do
    let inner ← expect nested .innerExpression
    let _ ← expect (symbol ")") .closingParenthesis
    return inner

def unsignedFactorOver : Rule :=
  either (commit name (namedOver nested))
    (either (commit (take .number none) fun number => return .leaf number)
      (parenthesizedOver nested))

def factorOver : Rule :=
  either
    (commit addOperator fun sign => do
      let operand ← expect (unsignedFactorOver nested) .signedFactor
      return .node sign [operand])
    (unsignedFactorOver nested)

def termOver : Rule := chain (factorOver nested) multiplyOperator .multipliedFactor

def arithmeticOver : Rule := chain (termOver nested) addOperator .addedTerm

def expressionOver : Rule := chain (arithmeticOver nested) comparator .comparedValue

end Open

/-- Expressions in which parentheses nest less than `fuel` deep. -/
def expressionWithin : Nat → Rule
  | 0 => return none
  | fuel + 1 => expressionOver (expressionWithin fuel)

def expression : Rule := sized expressionWithin

def arithmetic : Rule := arithmeticOver expression

def term : Rule := termOver expression

def factor : Rule := factorOver expression

def unsignedFactor : Rule := unsignedFactorOver expression

def parameterList : Rule := parameterListOver expression

def functionCall : Rule :=
  commit name fun name => do
    let arguments ← expect parameterList .callArguments
    return callTree name arguments

end DrawingBugs.Grammar
