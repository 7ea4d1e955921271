import DrawingBugs.Machine.State

/-!
# Visible actions

What an action does to its bug, and the segment that the pen would draw. Operands are looked at
one after another while the bug changes, so an action with too few of them can stop half way.
-/

namespace DrawingBugs

/-- The words of the visible actions. -/
def isAction (word : String) : Bool := ["move", "moveto", "turn", "turnto", "line"].contains word

/-- The operand at an index. -/
def operandAt (label : String) (operands : List Float) (i : Nat) : Except Fault Float :=
  match operands[i]? with
  | some v => .ok v
  | none => .error (.malformed (.missingChild label i))

namespace Bug

/-- The segment from one pose to another. -/
def segmentTo (b after : Bug) : Segment := ⟨b.x, b.y, after.x, after.y⟩

def moved (b : Bug) (distance : Float) : Bug :=
  let radians := Number.toRadians b.angle
  { b with x := b.x + distance * radians.cos, y := b.y - distance * radians.sin }

/-- The bug after an action, with the segment to draw or the fault that stopped it. -/
def act (b : Bug) (label : String) (operands : List Float) :
    Bug × Except Fault (Option Segment) :=
  let operand := operandAt label operands
  match label with
  | "move" =>
    match operand 0 with
    | .ok distance => let after := b.moved distance; (after, .ok (some (b.segmentTo after)))
    | .error e => (b, .error e)
  | "moveto" =>
    match operand 0, operand 1 with
    | .ok x, .ok y => let after := { b with x, y }; (after, .ok (some (b.segmentTo after)))
    | .ok x, .error e => ({ b with x }, .error e)
    | .error e, _ => (b, .error e)
  | "turn" =>
    match operand 0 with
    | .ok degrees => ({ b with angle := Number.wrapHeading (b.angle + degrees) }, .ok none)
    | .error e => (b, .error e)
  | "turnto" =>
    match operand 0 with
    | .ok degrees => ({ b with angle := Number.wrapHeading degrees }, .ok none)
    | .error e => (b, .error e)
  | _ =>
    (b, do return some ⟨← operand 0, ← operand 1, ← operand 2, ← operand 3⟩)

end Bug

namespace Machine

/-- Changes the bug, and then draws if there is a segment and the pen is down. -/
def act (m : Machine) (w : World) (seat : Nat) (label : String) (operands : List Float) :
    Machine × World :=
  let (after, result) := (w.bug seat).act label operands
  let w' := w.modifyBug seat fun _ => after
  match result, after.color with
  | .ok (some segment), some color => (m.focusOn (.draw segment color), w')
  | .ok _, _ => (m.focusOn .park, w')
  | .error e, _ => (m.fail e, w')

end Machine

end DrawingBugs
