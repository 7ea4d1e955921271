/-!
# Positions

A place in a source text, counted in characters from line 1 and column 1. Things that no text
was read for stand at `0:0`.
-/

namespace DrawingBugs

structure Position where
  line : Nat
  column : Nat
  deriving DecidableEq, Repr

namespace Position

/-- The place of what was not read from a text. -/
def none : Position := ⟨0, 0⟩

def first : Position := ⟨1, 1⟩

/-- The place of the character after `c`. -/
def after (p : Position) (c : Char) : Position :=
  if c = '\n' then ⟨p.line + 1, 1⟩ else ⟨p.line, p.column + 1⟩

/-- The place of the character after all of `cs`. -/
def past (p : Position) (cs : List Char) : Position := cs.foldl after p

def render (p : Position) : String := s!"{p.line}:{p.column}"

end Position

end DrawingBugs
