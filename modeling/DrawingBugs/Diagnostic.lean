import DrawingBugs.Position

/-!
# Diagnostics

What the author of a text is told: a message at a place, with what was found there.
-/

namespace DrawingBugs

structure Diagnostic where
  message : String
  position : Position
  found : Option String
  deriving DecidableEq, Repr

namespace Diagnostic

/-- The message together with what was found. -/
def summary (d : Diagnostic) : String :=
  match d.found with
  | some found => s!"{d.message} (found: {found})"
  | none => d.message

def render (d : Diagnostic) : String := s!"Line {d.position.line}: {d.summary}"

end Diagnostic

end DrawingBugs
