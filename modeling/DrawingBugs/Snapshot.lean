import DrawingBugs.Document
import DrawingBugs.World

/-!
# Snapshots

What can be seen of a run from outside: the live bugs, the drawn lines, the number of rounds and
the failures. A snapshot is written as a document and read back from it. A lifted pen and an
empty list of failures are left out, and a coordinate that is no finite number is written as
null, which cannot be read back.
-/

namespace DrawingBugs

/-- The pose and pen of a bug. -/
structure BugView where
  name : String
  x : Float
  y : Float
  angle : Float
  color : Option Color

structure Snapshot where
  bugs : List BugView
  lines : List Line
  rounds : Nat
  failures : List Failure

namespace Document

def float? : Document → Option Float
  | .number v => some v
  | .natural n => some (Float.ofNat n)
  | _ => none

def natural? : Document → Option Nat
  | .natural n => some n
  | _ => none

def string? : Document → Option String
  | .string s => some s
  | _ => none

def array? : Document → Option (List Document)
  | .array items => some items
  | _ => none

/-- The value of a member that has to be there. -/
def required {α : Type} (members : List (String × Document)) (key : String)
    (read : Document → Option α) : Option α :=
  (member? members key).bind read

/-- The value of a member that may be missing. -/
def optional {α : Type} (members : List (String × Document)) (key : String) (missing : α)
    (read : Document → Option α) : Option α :=
  match member? members key with
  | some d => read d
  | none => some missing

/-- Reads an array whose items are all of one kind. -/
def each {α : Type} (read : Document → Option α) (d : Document) : Option (List α) :=
  d.array?.bind fun items => items.mapM read

end Document

open Document (required optional each)

namespace Color

def toDocument (c : Color) : Document := .string c.keyword

def ofDocument? (d : Document) : Option Color := d.string?.bind ofKeyword?

end Color

namespace BugView

def ofBug (b : Bug) : BugView := ⟨b.name, b.x, b.y, b.angle, b.color⟩

def toDocument (b : BugView) : Document :=
  .object ([("name", .string b.name), ("x", .ofFloat b.x), ("y", .ofFloat b.y),
    ("angle", .ofFloat b.angle)] ++ b.color.toList.map fun c => ("color", c.toDocument))

/-- A pen that is missing or null is lifted. -/
def penOf? : Document → Option (Option Color)
  | .null => some none
  | d => (Color.ofDocument? d).map some

def ofDocument? : Document → Option BugView
  | .object members => do
    let name ← required members "name" Document.string?
    let x ← required members "x" Document.float?
    let y ← required members "y" Document.float?
    let angle ← required members "angle" Document.float?
    let color ← optional members "color" none penOf?
    return ⟨name, x, y, angle, color⟩
  | _ => none

end BugView

namespace Line

def toDocument (l : Line) : Document :=
  .object [("x1", .ofFloat l.segment.x1), ("y1", .ofFloat l.segment.y1),
    ("x2", .ofFloat l.segment.x2), ("y2", .ofFloat l.segment.y2),
    ("color", l.color.toDocument), ("id", .natural l.id)]

def ofDocument? : Document → Option Line
  | .object members => do
    let x1 ← required members "x1" Document.float?
    let y1 ← required members "y1" Document.float?
    let x2 ← required members "x2" Document.float?
    let y2 ← required members "y2" Document.float?
    let color ← required members "color" Color.ofDocument?
    let id ← required members "id" Document.natural?
    return ⟨⟨x1, y1, x2, y2⟩, color, id⟩
  | _ => none

end Line

namespace Failure

def toDocument (f : Failure) : Document :=
  .object [("bug", .string f.bug), ("message", .string f.message)]

def ofDocument? : Document → Option Failure
  | .object members => do
    let bug ← required members "bug" Document.string?
    let message ← required members "message" Document.string?
    return ⟨bug, message⟩
  | _ => none

end Failure

namespace Snapshot

def failureMembers (failures : List Failure) : List (String × Document) :=
  if failures.isEmpty then [] else [("failures", .array (failures.map Failure.toDocument))]

def toDocument (s : Snapshot) : Document :=
  .object ([("bugs", .array (s.bugs.map BugView.toDocument)),
    ("lines", .array (s.lines.map Line.toDocument)), ("rounds", .natural s.rounds)] ++
    failureMembers s.failures)

def ofDocument? : Document → Option Snapshot
  | .object members => do
    let bugs ← required members "bugs" (each BugView.ofDocument?)
    let lines ← required members "lines" (each Line.ofDocument?)
    let rounds ← required members "rounds" Document.natural?
    let failures ← optional members "failures" [] (each Failure.ofDocument?)
    return ⟨bugs, lines, rounds, failures⟩
  | _ => none

/-- The text of a snapshot's document. -/
def render (s : Snapshot) : String := s.toDocument.render

/-- Whether the document of a snapshot can be read back. -/
def readsBack (s : Snapshot) : Bool := (ofDocument? s.toDocument).isSome

end Snapshot

end DrawingBugs
