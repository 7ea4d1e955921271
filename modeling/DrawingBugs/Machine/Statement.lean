import DrawingBugs.Machine.Action
import DrawingBugs.Machine.Expression

/-!
# Statements

How a machine turns to a statement that has begun, and how it goes on when a part of one is
finished. A tree is taken as a statement by its text alone.
-/

namespace DrawingBugs

namespace Machine

/-- The parts of a bug definition in the order in which they run: variables, functions, the
initial block, the commands. -/
def sectionOrder : List Nat := [1, 4, 2, 3]

def nextSection (m : Machine) (definition : Tree) : List Nat → Machine
  | [] => m.focusOn (.flow .normal)
  | i :: rest =>
    m.orFail do
      let part ← definition.part i
      return m.push (.sections definition rest) (.execute part)

/-- Goes on with a list, whatever the flow. -/
def nextInList (m : Machine) : List Tree → Machine
  | [] => m.focusOn (.flow .normal)
  | node :: rest => m.push (.list rest) (.execute node)

def nextInBlock (m : Machine) : List Tree → Machine
  | [] => m.focusOn (.flow .normal)
  | node :: rest => m.push (.block rest) (.execute node)

/-- After a statement of a block, an exit that a called function left pending fires. -/
def afterInBlock (m : Machine) (f : Flow) (rest : List Tree) : Machine :=
  let f := if m.memory.exitPending then .loopExit else f
  let m := { m with memory := { m.memory with exitPending := false } }
  match f with
  | .normal => m.nextInBlock rest
  | f => m.focusOn (.flow f)

def nextOperand (m : Machine) (node : Tree) (done : List Float) : List Tree → Machine
  | [] => m.focusOn (.act node done)
  | operand :: rest => m.push (.operand node done rest) (.evaluate operand)

def nextCase (m : Machine) : List Tree → Machine
  | [] => m.focusOn (.flow .normal)
  | case :: rest =>
    m.orFail do
      let guard ← case.part 0
      return m.push (.switchGuard case rest) (.evaluate guard)

/-- The first case whose guard is true runs its block. -/
def afterSwitchGuard (m : Machine) (case : Tree) (rest : List Tree) (guard : Float) : Machine :=
  if Number.isTrue guard then
    m.orFail do
      let body ← case.part 1
      return m.focusOn (.execute body)
  else m.nextCase rest

/-- Runs the body of a loop once more. -/
def iterate (m : Machine) (body : Tree) : Machine := m.push (.loop body) (.execute body)

def enterLoop (m : Machine) (body : Tree) : Machine :=
  let memory := { m.memory with loopDepth := m.memory.loopDepth + 1 }
  iterate { m with memory } body

def leaveLoop (m : Machine) : Machine :=
  { m with memory := { m.memory with loopDepth := m.memory.loopDepth - 1 } }

def afterIteration (m : Machine) (body : Tree) : Flow → Machine
  | .normal => m.iterate body
  | .loopExit => m.leaveLoop.focusOn (.flow .normal)
  | .returned => m.leaveLoop.focusOn (.flow .returned)

def leaveScope (m : Machine) : Machine :=
  { m with memory := { m.memory with scopes := m.memory.scopes.tail } }

/-- Leaves a function: its value is in the return slot, which is emptied, and an exit that ended
it is left pending for the caller. -/
def afterBody (m : Machine) (f : Flow) : Machine :=
  let v := m.memory.returnValue
  let exitPending := m.memory.exitPending || f = .loopExit
  let m := m.leaveScope
  { m with focus := .value v, memory := { m.memory with returnValue := 0.0, exitPending } }

def defineFunction (m : Machine) (name : String) (definition : Tree) : Machine :=
  let functions := m.memory.functions.insert name definition
  { m with focus := .flow .normal, memory := { m.memory with functions } }

/-- The pen color that a keyword asks for. -/
def penColor (word : String) : Except Fault (Option Color) :=
  if word = "none" then .ok none
  else
    match Color.ofKeyword? word with
    | some color => .ok (some color)
    | none => .error (.unknownColor word)

/-- Turns to a statement that has begun. -/
def perform (m : Machine) (w : World) (node : Tree) : Machine :=
  match node.text with
  | "Bug" => m.nextSection node sectionOrder
  | "list" => m.nextInList node.children
  | "var" => m.focusOn (.declare (node.children.map Tree.text))
  | "function" =>
    m.orFail do
      let name ← node.part 0
      return m.defineFunction name.text node
  | "initially" =>
    match node.child? 0 with
    | some body => m.focusOn (.execute body)
    | none => m.focusOn (.flow .normal)
  | "block" => m.nextInBlock node.children
  | "assign" =>
    m.orFail do
      let name ← node.part 0
      let value ← node.part 1
      return m.push (.assign name.text) (.evaluate value)
  | "loop" =>
    m.orFail do
      let body ← node.part 0
      return m.enterLoop body
  | "exit" =>
    m.orFail do
      let condition ← node.part 0
      return m.push .exitIf (.evaluate condition)
  | "switch" => m.nextCase node.children
  | "return" =>
    m.orFail do
      let value ← node.part 0
      return m.push .returning (.evaluate value)
  | "call" => call { m with stack := .discard :: m.stack } w node
  | "color" =>
    m.orFail do
      let word ← node.part 0
      let color ← penColor word.text
      return m.focusOn (.paint color)
  | text =>
    if isAction text then m.nextOperand node [] node.children
    else m.fail (.malformed (.notAStatement text))

end Machine

end DrawingBugs
