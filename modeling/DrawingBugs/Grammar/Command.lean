import DrawingBugs.Grammar.Expression

/-!
# Commands

    command   := action | statement
    action    := "move" e | "moveto" e "," e | "turn" e | "turnto" e | "line" e "," e "," e "," e
    statement := NAME "=" e | "loop" block | "exit" "if" e | switch | "return" e
               | "do" NAME [ arguments ] | "color" KEYWORD
    switch    := "switch" "{" EOL { "case" e EOL { command } } "}" EOL
    block     := "{" EOL { command } "}" EOL

Here `e` is an expression and a line end closes every action and every plain statement; it
stands for one or more line ends. Rules with commands inside are first given over the rule for
those commands, and then closed.
-/

namespace DrawingBugs.Grammar

open Recognizer

/-- Further operands, each after a comma. -/
def furtherOperands (word : String) : Nat → Recognizer (List Tree)
  | 0 => return []
  | count + 1 => do
    let _ ← expect (symbol ",") (.operandComma word)
    let operand ← expect expression (.operand word)
    return operand :: (← furtherOperands word count)

/-- A keyword with one operand and a fixed number of further ones. -/
def withOperands (word : String) (further : Nat) : Rule :=
  commit (keyword word) fun token => do
    let first ← expect expression (.operand word)
    let rest ← furtherOperands word further
    expect lineEnd (.operandsEnd word)
    return .node token (first :: rest)

def moveAction : Rule := withOperands "move" 0

def moveToAction : Rule := withOperands "moveto" 1

def turnAction : Rule := withOperands "turn" 0

def turnToAction : Rule := withOperands "turnto" 0

def lineAction : Rule := withOperands "line" 3

def returnStatement : Rule := withOperands "return" 0

def action : Rule :=
  either moveAction (either moveToAction (either turnAction (either turnToAction lineAction)))

def assignment : Rule :=
  commit name fun name => do
    let _ ← expect (symbol "=") .assignSign
    let value ← expect expression .assignedValue
    expect lineEnd .assignmentEnd
    return .labeled "assign" [.leaf name, value]

def exitStatement : Rule :=
  commit (keyword "exit") fun exit => do
    let _ ← expect (keyword "if") .exitIf
    let condition ← expect expression .exitCondition
    expect lineEnd .exitEnd
    return .node exit [condition]

/-- A call for its effects; without arguments the parentheses may be missing. -/
def doStatement : Rule :=
  commit (keyword "do") fun _ => do
    let name ← expect name .doName
    let arguments ← parameterList
    expect lineEnd .doEnd
    return callTree name (arguments.getD (.labeled "var" []))

/-- Any keyword may stand for a color; whether it names one shows when the statement runs. -/
def colorStatement : Rule :=
  commit (keyword "color") fun color => do
    let value ← expect (take .keyword none) .colorName
    expect lineEnd .colorEnd
    return .node color [.leaf value]

section Open

variable (nested : Rule)

def blockOver : Rule :=
  commit (symbol "\x7b") fun _ => do
    expect lineEnd .blockLine
    let commands ← many nested
    let _ ← expect (symbol "\x7d") .blockClosing
    expect lineEnd .blockEnd
    return .labeled "block" commands

def loopOver : Rule :=
  commit (keyword "loop") fun loop => do
    let body ← expect (blockOver nested) .loopBody
    return .node loop [body]

def caseOver : Rule :=
  commit (keyword "case") fun case => do
    let guard ← expect expression .caseGuard
    expect lineEnd .caseLine
    let commands ← many nested
    return .node case [guard, .labeled "block" commands]

def switchOver : Rule :=
  commit (keyword "switch") fun switch => do
    opening .switchOpening .switchLine
    let cases ← many (caseOver nested)
    let _ ← expect (symbol "\x7d") .switchClosing
    expect lineEnd .switchEnd
    return .node switch cases

def statementOver : Rule :=
  either assignment
    (either (loopOver nested)
      (either exitStatement
        (either (switchOver nested)
          (either returnStatement (either doStatement colorStatement)))))

def commandOver : Rule := either action (statementOver nested)

end Open

/-- Commands in which blocks nest less than `fuel` deep. -/
def commandWithin : Nat → Rule
  | 0 => return none
  | fuel + 1 => commandOver (commandWithin fuel)

def command : Rule := sized commandWithin

def block : Rule := blockOver command

def loopStatement : Rule := loopOver command

def switchStatement : Rule := switchOver command

def statement : Rule := statementOver command

end DrawingBugs.Grammar
