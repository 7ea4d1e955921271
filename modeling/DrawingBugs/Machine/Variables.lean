import DrawingBugs.Machine.State

/-!
# Variables

A name is looked for among the built-in fields, in the scopes of the active calls from the
innermost outwards, among the bug's own variables, and among the shared ones. Reading and
writing follow the same order.
-/

namespace DrawingBugs

/-- Reads a built-in field of one's own, which has to be a number. -/
def Bug.builtIn (b : Bug) (name : String) : Except Fault Float :=
  let v := (b.field? name).getD 0.0
  if v.isNaN then .error (.notANumber name) else .ok v

namespace Memory

def local? (memory : Memory) (name : String) : Option Float :=
  memory.scopes.findSome? fun scope => scope.get? name

/-- Sets a name in the innermost scope that binds it. -/
def setInScopes? (name : String) (v : Float) :
    List (Table String Float) → Option (List (Table String Float))
  | [] => none
  | scope :: outer =>
    if scope.contains name then some (scope.update name (fun _ => v) :: outer)
    else (setInScopes? name v outer).map (scope :: ·)

def setLocal? (memory : Memory) (name : String) (v : Float) : Option Memory :=
  (setInScopes? name v memory.scopes).map fun scopes => { memory with scopes }

end Memory

namespace World

def fetch (w : World) (seat : Nat) (memory : Memory) (name : String) : Except Fault Float :=
  let own := w.bug seat
  if isBuiltIn name then own.builtIn name
  else
    match (memory.local? name).or ((own.vars.get? name).or (w.global? name)) with
    | some v => .ok v
    | none => .error (.undefinedVariable name)

/-- Sets one of the bug's own variables, if there is one of that name. -/
def setOwn? (w : World) (seat : Nat) (name : String) (v : Float) : Option World :=
  if (w.bug seat).vars.contains name then
    some (w.modifyBug seat fun b => { b with vars := b.vars.update name fun _ => v })
  else none

def store (w : World) (seat : Nat) (memory : Memory) (name : String) (v : Float) :
    Except Fault (World × Memory) :=
  if isBuiltIn name then .ok (w.modifyBug seat fun b => b.setBuiltIn name v, memory)
  else
    match memory.setLocal? name v with
    | some memory' => .ok (w, memory')
    | none =>
      match (w.setOwn? seat name v).or (w.setGlobal? name v) with
      | some w' => .ok (w', memory)
      | none => .error (.undefinedVariable name)

/-- The seat of a live bug. -/
def locate (w : World) (name : String) : Except Fault Nat :=
  match w.find? name with
  | some seat => .ok seat
  | none => .error (.bugNotFound name)

/-- What the bug at `seat` learns from another one. -/
def answer (w : World) (seat other : Nat) : Question → Except Fault Float
  | .field bug name =>
    match (w.bug other).field? name with
    | some v => .ok v
    | none => .error (.bugVariableNotFound bug name)
  | .distance => .ok ((w.bug seat).distanceTo (w.bug other))
  | .direction => .ok ((w.bug seat).directionTo (w.bug other))

/-- Asks a live bug in one go. -/
def ask (w : World) (seat : Nat) (bug : String) (question : Question) : Except Fault Float := do
  let other ← w.locate bug
  w.answer seat other question

end World

end DrawingBugs
