import DrawingBugs.Barrier
import DrawingBugs.World

/-!
# The machine that runs one bug

A machine works on a focus with a stack of frames, each of which waits for what the focus will
hand back. What only the bug itself can see is its memory: its functions, the scopes of its
active calls, the return slot, and the state of its loops.
-/

namespace DrawingBugs

/-- How a statement finished. -/
inductive Flow where
  | normal
  /-- A return was executed: the rest of the function is skipped. -/
  | returned
  /-- An exit fired: the rest of the innermost loop is skipped. -/
  | loopExit
  deriving DecidableEq, Repr

structure Memory where
  functions : Table String Tree
  /-- The parameters of the active calls, innermost first. -/
  scopes : List (Table String Float)
  returnValue : Float
  /-- The number of active loops, counted across calls. -/
  loopDepth : Nat
  /-- Whether a called function has ended a loop of its caller. -/
  exitPending : Bool

def Memory.fresh : Memory := ⟨[], [], 0.0, 0, false⟩

/-- What is asked of another bug. -/
inductive Question where
  | field (bug name : String)
  | distance
  | direction
  deriving DecidableEq, Repr

/-- What a machine works on. -/
inductive Focus where
  | evaluate (node : Tree)
  /-- A statement about to begin; it begins only if there was no kill. -/
  | execute (node : Tree)
  /-- A statement that has begun. -/
  | perform (node : Tree)
  /-- A bug was found at this seat and is asked. -/
  | consult (seat : Nat) (question : Question)
  | declare (names : List String)
  | store (name : String) (v : Float)
  | paint (color : Option Color)
  /-- A visible action with its operands. -/
  | act (node : Tree) (operands : List Float)
  | draw (segment : Segment) (color : Color)
  /-- An action is done: park at the barrier. -/
  | park
  /-- Wait for the next permit. -/
  | await
  | value (v : Float)
  | flow (f : Flow)
  | fault (e : Fault)

/-- What waits for the focus. -/
inductive Frame where
  | unary (operator : String)
  /-- The left operand of this node is in focus. -/
  | leftOperand (node : Tree)
  | rightOperand (operator : String) (left : Float)
  /-- The guard of a case that is used as an expression is in focus. -/
  | guard (case : Tree)
  /-- The block of such a case is in focus. -/
  | guarded (guard : Float)
  /-- The guard of a case of a switch is in focus; other cases follow. -/
  | switchGuard (case : Tree) (rest : List Tree)
  /-- The argument for this parameter is in focus. -/
  | argument (parameter : String) (parameters : List String) (rest : List Tree)
      (scope : Table String Float) (body : Tree)
  /-- The body of a function is in focus, and its scope is the innermost. -/
  | activation
  /-- A call is made for its effects. -/
  | discard
  | assign (name : String)
  | exitIf
  | returning
  | operand (node : Tree) (done : List Float) (rest : List Tree)
  | block (rest : List Tree)
  | list (rest : List Tree)
  /-- A part of a bug definition is in focus; the parts at these indices follow. -/
  | sections (definition : Tree) (rest : List Nat)
  | loop (body : Tree)

structure Machine where
  focus : Focus
  stack : List Frame
  memory : Memory

/-- What all machines share. -/
structure Shared where
  world : World
  barrier : Barrier

/-- What came of evaluating or executing a tree. -/
inductive Outcome where
  | value (v : Float)
  | flow (f : Flow)
  | fault (e : Fault)

namespace Machine

def evaluating (memory : Memory) (node : Tree) : Machine := ⟨.evaluate node, [], memory⟩

def executing (memory : Memory) (node : Tree) : Machine := ⟨.execute node, [], memory⟩

def focusOn (m : Machine) (focus : Focus) : Machine := { m with focus }

def push (m : Machine) (frame : Frame) (focus : Focus) : Machine :=
  { m with focus, stack := frame :: m.stack }

def fail (m : Machine) (e : Fault) : Machine := m.focusOn (.fault e)

/-- Goes on with the machine that a computation gives, or with its fault. -/
def orFail (m : Machine) : Except Fault Machine → Machine
  | .ok m' => m'
  | .error e => m.fail e

/-- The outcome of a machine that has nothing left to do. -/
def outcome? (m : Machine) : Option Outcome :=
  match m.stack, m.focus with
  | [], .value v => some (.value v)
  | [], .flow f => some (.flow f)
  | [], .fault e => some (.fault e)
  | _, _ => none

end Machine

end DrawingBugs
