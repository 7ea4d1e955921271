import DrawingBugs.Machine.Statement

/-!
# Steps

One step of a machine. A step reads or changes what is shared at most once, so that the steps
of several machines can be interleaved at will. A machine that waits for a permit, or that has
nothing left to do, stays as it is.
-/

namespace DrawingBugs

namespace Machine

/-- Hands a value to the frame that waits for it. -/
def resumeValue (m : Machine) (v : Float) : Frame → Machine
  | .unary operator => m.give (unaryValue operator v)
  | .leftOperand node => m.afterLeft node v
  | .rightOperand operator left => m.give (binaryValue operator left v)
  | .guard case => m.afterGuard case v
  | .switchGuard case rest => m.afterSwitchGuard case rest v
  | .argument parameter parameters rest scope body =>
    m.nextArgument parameters rest (scope.insert parameter v) body
  | .discard => m.focusOn (.flow .normal)
  | .assign name => m.focusOn (.store name v)
  | .exitIf =>
    m.focusOn (.flow (if Number.isTrue v ∧ 0 < m.memory.loopDepth then .loopExit else .normal))
  | .returning =>
    { m with focus := .flow .returned, memory := { m.memory with returnValue := v } }
  | .operand node done rest => m.nextOperand node (done ++ [v]) rest
  | _ => m

/-- Hands a flow to the frame that waits for it. -/
def resumeFlow (m : Machine) (f : Flow) : Frame → Machine
  | .guarded guard => m.focusOn (.value guard)
  | .activation => m.afterBody f
  | .block rest => m.afterInBlock f rest
  | .list rest => m.nextInList rest
  | .sections definition rest => m.nextSection definition rest
  | .loop body => m.afterIteration body f
  | _ => m

/-- Lets a fault pass a frame; scopes and loops are left on the way. -/
def unwind (m : Machine) : Frame → Machine
  | .activation => m.leaveScope
  | .loop _ => m.leaveLoop
  | _ => m

/-- Takes the innermost frame off the stack and lets it go on. -/
def resume (m : Machine) (next : Machine → Frame → Machine) : Machine :=
  match m.stack with
  | [] => m
  | frame :: stack => next { m with stack } frame

/-- Declares the first of some names. -/
def declare (m : Machine) (w : World) (seat : Nat) : List String → Machine × World
  | [] => (m.focusOn (.flow .normal), w)
  | name :: rest =>
    if isBuiltIn name then (m.fail (.reservedName name), w)
    else (m.focusOn (.declare rest), w.modifyBug seat fun b => b.declare name)

def store (m : Machine) (w : World) (seat : Nat) (name : String) (v : Float) :
    Machine × World :=
  match w.store seat m.memory name v with
  | .ok (w', memory) => ({ m with focus := .flow .normal, memory }, w')
  | .error e => (m.fail e, w)

/-- Goes on with a permit and fails after a kill. -/
def await (m : Machine) : Permit → Machine
  | .granted => m.focusOn (.flow .normal)
  | .halted => m.fail .halted
  | .waiting => m

/-- One step of the machine of the bug at a seat. -/
def step (seat : Nat) (m : Machine) (s : Shared) : Machine × Shared :=
  match m.focus with
  | .evaluate node => (m.evaluate s.world seat node, s)
  | .execute node => (if s.barrier.killed then m.fail .halted else m.focusOn (.perform node), s)
  | .perform node => (m.perform s.world node, s)
  | .consult other question => (m.give (s.world.answer seat other question), s)
  | .declare names =>
    let (m', world) := m.declare s.world seat names
    (m', { s with world })
  | .store name v =>
    let (m', world) := m.store s.world seat name v
    (m', { s with world })
  | .paint color =>
    (m.focusOn (.flow .normal),
      { s with world := s.world.modifyBug seat fun b => { b with color } })
  | .act node operands =>
    let (m', world) := m.act s.world seat node.text operands
    (m', { s with world })
  | .draw segment color => (m.focusOn .park, { s with world := s.world.draw segment color })
  | .park => (m.focusOn .await, { s with barrier := s.barrier.park seat })
  | .await => (m.await (s.barrier.permit seat), s)
  | .value v => (m.resume fun m frame => m.resumeValue v frame, s)
  | .flow f => (m.resume fun m frame => m.resumeFlow f frame, s)
  | .fault _ => (m.resume unwind, s)

/-- Whether the machine waits for a permit that it does not have. -/
def isWaiting (seat : Nat) (m : Machine) (b : Barrier) : Bool :=
  match m.focus with
  | .await => b.permit seat = .waiting
  | _ => false

/-- Runs a machine alone for at most `fuel` steps, up to its outcome. -/
def run (seat : Nat) : Nat → Machine → Shared → Machine × Shared
  | 0, m, s => (m, s)
  | fuel + 1, m, s =>
    match m.outcome? with
    | some _ => (m, s)
    | none =>
      let (m', s') := m.step seat s
      run seat fuel m' s'

end Machine

end DrawingBugs
