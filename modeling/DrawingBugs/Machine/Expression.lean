import DrawingBugs.Machine.Variables
import DrawingBugs.Number.Tolerance

/-!
# Expressions

How a machine turns to an expression, and what it does with the values of its parts.
-/

namespace DrawingBugs

def unaryValue (operator : String) (v : Float) : Except Fault Float :=
  match operator with
  | "+" => .ok v
  | "-" => .ok (-v)
  | _ => .error (.malformed (.notUnary operator))

def binaryValue (operator : String) (a b : Float) : Except Fault Float :=
  match operator with
  | "+" => .ok (a + b)
  | "-" => .ok (a - b)
  | "*" => .ok (a * b)
  | "/" => .ok (a / b)
  | _ =>
    match Number.Comparator.ofSymbol? operator with
    | some comparator => .ok (Number.ofBool (comparator.holds Number.tolerance a b))
    | none => .error (.malformed (.unknownOperator operator))

namespace Machine

/-- Hands back a value or a fault. -/
def give (m : Machine) : Except Fault Float → Machine
  | .ok v => m.focusOn (.value v)
  | .error e => m.fail e

/-- An expression with one part is unary, and any other takes its first two parts. -/
def evaluateOperator (m : Machine) (node : Tree) : Machine :=
  m.orFail do
    let first ← node.part 0
    let frame := if node.children.length = 1 then .unary node.text else .leftOperand node
    return m.push frame (.evaluate first)

def afterLeft (m : Machine) (node : Tree) (left : Float) : Machine :=
  m.orFail do
    let second ← node.part 1
    return m.push (.rightOperand node.text left) (.evaluate second)

/-- A field of another bug. -/
def evaluateDot (m : Machine) (w : World) (node : Tree) : Machine :=
  m.orFail do
    let bug ← node.part 0
    let name ← node.part 1
    let other ← w.locate bug.text
    return m.focusOn (.consult other (.field bug.text name.text))

/-- A case used as an expression has the value of its guard. -/
def evaluateCase (m : Machine) (node : Tree) : Machine :=
  m.orFail do
    let guard ← node.part 0
    return m.push (.guard node) (.evaluate guard)

def afterGuard (m : Machine) (case : Tree) (guard : Float) : Machine :=
  if Number.isTrue guard then
    m.orFail do
      let body ← case.part 1
      return m.push (.guarded guard) (.execute body)
  else m.focusOn (.value guard)

/-- Enters a function whose arguments are known. -/
def enter (m : Machine) (scope : Table String Float) (body : Tree) : Machine :=
  let memory := { m.memory with returnValue := 0.0, scopes := scope :: m.memory.scopes }
  { focus := .execute body, stack := .activation :: m.stack, memory }

/-- Turns to the next argument, or enters the function. -/
def nextArgument (m : Machine) (parameters : List String) (rest : List Tree)
    (scope : Table String Float) (body : Tree) : Machine :=
  match parameters, rest with
  | parameter :: parameters, argument :: rest =>
    m.push (.argument parameter parameters rest scope body) (.evaluate argument)
  | _, _ => m.enter scope body

/-- The two built-in functions ask a bug that their one argument names. -/
def callBuiltIn (m : Machine) (w : World) (name : String) (question : Question)
    (arguments : Tree) : Except Fault Machine := do
  let count := arguments.children.length
  if count ≠ 1 then throw (.argumentCount name 1 count)
  let bug ← arguments.part 0
  let other ← w.locate bug.text
  return m.focusOn (.consult other question)

/-- The function of a name: the bug's own one, or else a shared one. -/
def functionNamed (m : Machine) (w : World) (name : String) : Except Fault Tree :=
  match (m.memory.functions.get? name).or (w.function? name) with
  | some function => .ok function
  | none => .error (.undefinedFunction name)

def callFunction (m : Machine) (w : World) (name : String) (arguments : Tree) :
    Except Fault Machine := do
  let function ← m.functionNamed w name
  let parameters ← function.part 1
  let body ← function.part 2
  let expected := parameters.children.length
  let found := arguments.children.length
  if expected ≠ found then throw (.argumentCount name expected found)
  let names := parameters.children.map Tree.text
  match names.find? isBuiltIn with
  | some reserved => throw (.reservedName reserved)
  | none => return m.nextArgument names arguments.children [] body

def call (m : Machine) (w : World) (node : Tree) : Machine :=
  m.orFail do
    let name ← node.part 0
    let arguments ← node.part 1
    match name.text with
    | "distance" => m.callBuiltIn w "distance" .distance arguments
    | "direction" => m.callBuiltIn w "direction" .direction arguments
    | name => m.callFunction w name arguments

/-- Turns to an expression. -/
def evaluate (m : Machine) (w : World) (seat : Nat) (node : Tree) : Machine :=
  let refuse := m.fail (.malformed (.notAnExpression node.text))
  match node.kind with
  | .number =>
    match Number.read? node.text with
    | some v => m.focusOn (.value v)
    | none => m.fail (.malformed (.badNumber node.text))
  | .name =>
    if node.children.isEmpty then m.give (w.fetch seat m.memory node.text)
    else if node.text = "call" then m.call w node
    else refuse
  | .keyword => if node.text = "case" then m.evaluateCase node else refuse
  | .symbol => if node.text = "." then m.evaluateDot w node else m.evaluateOperator node
  | .endOfLine | .endOfInput => refuse

end Machine

end DrawingBugs
