import DrawingBugs.Color
import DrawingBugs.Fault
import DrawingBugs.Number.Heading
import DrawingBugs.Number.Hypotenuse
import DrawingBugs.Table

/-!
# The world

What the bugs of a program share: their poses, pens and variables, the registry of those that
are live, the shared variables and functions, the log of drawn lines, and the log of failures.
A bug is known by its seat, its index among all bugs that ever entered the world.
-/

namespace DrawingBugs

/-- The names of a bug's pose, which no variable or parameter may take. -/
def isBuiltIn (name : String) : Bool := ["x", "y", "angle"].contains name

/-- A bug as the others see it. -/
structure Bug where
  id : Nat
  name : String
  x : Float
  y : Float
  /-- Degrees; 0 is east and 90 is north. -/
  angle : Float
  /-- The color of the pen, none when it is lifted. -/
  color : Option Color
  /-- The variables of its definition. -/
  vars : Table String Float

structure Segment where
  x1 : Float
  y1 : Float
  x2 : Float
  y2 : Float

/-- A drawn line; its id is its index in the log. -/
structure Line where
  segment : Segment
  color : Color
  id : Nat

structure Failure where
  bug : String
  message : String
  deriving DecidableEq, Repr

namespace Bug

/-- A bug at the origin that faces east and draws in black. -/
def newborn (id : Nat) (name : String) : Bug := ⟨id, name, 0.0, 0.0, 0.0, some .black, []⟩

instance : Inhabited Bug := ⟨newborn 0 ""⟩

/-- A field or variable as another bug reads it. -/
def field? (b : Bug) : String → Option Float
  | "x" => some b.x
  | "y" => some b.y
  | "angle" => some b.angle
  | name => b.vars.get? name

/-- Sets a built-in field. -/
def setBuiltIn (b : Bug) (name : String) (v : Float) : Bug :=
  if name = "x" then { b with x := v }
  else if name = "y" then { b with y := v }
  else { b with angle := v }

def declare (b : Bug) (name : String) : Bug :=
  { b with vars := b.vars.insert name 0.0 }

def distanceTo (b other : Bug) : Float := Number.hypotenuse (other.x - b.x) (other.y - b.y)

def directionTo (b other : Bug) : Float := Number.headingOf (other.x - b.x) (other.y - b.y)

end Bug

structure World where
  globals : Table String Float
  functions : Table String Tree
  /-- All bugs by seat. -/
  bugs : List Bug
  /-- The seats of the live bugs, in the order in which they entered. -/
  registry : List Nat
  lines : List Line
  failures : List Failure

namespace World

def empty : World := ⟨[], [], [], [], [], []⟩

/-- The names that a shared section declares, in order. -/
def declaredNames (allbugs : Tree) : List String :=
  let declarations := (allbugs.child? 0).toList.flatMap Tree.children
  (declarations.flatMap Tree.children).map Tree.text

/-- A function definition under its name. -/
def named (definition : Tree) : Except Fault (String × Tree) := do
  let name ← definition.part 0
  return (name.text, definition)

/-- The world of a shared section, without bugs. -/
def ofAllbugs (allbugs : Tree) : Except Fault World :=
  let names := declaredNames allbugs
  match names.find? isBuiltIn with
  | some name => .error (.reservedName name)
  | none => do
    let definitions := (allbugs.child? 1).toList.flatMap Tree.children
    let functions ← definitions.mapM named
    return { empty with
      globals := names.foldl (fun t name => t.insert name 0.0) []
      functions := functions.foldl (fun t (name, f) => t.insert name f) [] }

def global? (w : World) (name : String) : Option Float := w.globals.get? name

/-- Sets a shared variable, if there is one of that name. -/
def setGlobal? (w : World) (name : String) (v : Float) : Option World :=
  if w.globals.contains name then some { w with globals := w.globals.update name fun _ => v }
  else none

def function? (w : World) (name : String) : Option Tree := w.functions.get? name

def bug (w : World) (seat : Nat) : Bug := w.bugs.getD seat default

def modifyBug (w : World) (seat : Nat) (f : Bug → Bug) : World :=
  { w with bugs := w.bugs.modify seat f }

/-- Gives a bug the next seat without making it live. -/
def seat (w : World) (b : Bug) : World := { w with bugs := w.bugs ++ [b] }

/-- Gives a bug the next seat and makes it live. -/
def enter (w : World) (b : Bug) : World :=
  { w.seat b with registry := w.registry ++ [w.bugs.length] }

/-- Takes the bugs with this id out of the registry. -/
def leave (w : World) (id : Nat) : World :=
  { w with registry := w.registry.filter fun seat => (w.bug seat).id ≠ id }

/-- The seat of the first live bug of that name. -/
def find? (w : World) (name : String) : Option Nat :=
  w.registry.find? fun seat => (w.bug seat).name == name

def liveBugs (w : World) : List Bug := w.registry.map w.bug

def draw (w : World) (segment : Segment) (color : Color) : World :=
  { w with lines := w.lines ++ [⟨segment, color, w.lines.length⟩] }

def recordFailure (w : World) (failure : Failure) : World :=
  { w with failures := w.failures ++ [failure] }

end World

end DrawingBugs
