import DrawingBugs.Table

/-!
# The barrier

After each visible action a bug parks at the barrier and waits for its next permit. A round is
granted to all live bugs at once, when every one of them is parked and running or a single step
is allowed. Each operation here is one indivisible change of the barrier.
-/

namespace DrawingBugs

structure Barrier where
  /-- Live bugs by id, and whether each is parked. -/
  live : Table Nat Bool
  running : Bool
  stepPending : Bool
  killed : Bool
  /-- The pause between rounds in milliseconds. -/
  pause : Nat
  /-- The number of rounds granted. -/
  rounds : Nat
  /-- Whether somebody grants rounds; otherwise nobody waits for a permit. -/
  supervised : Bool
  deriving DecidableEq, Repr

/-- What a bug that asks for its permit is told. -/
inductive Permit where
  | granted
  | halted
  | waiting
  deriving DecidableEq, Repr

namespace Barrier

def create (pause : Nat) (running : Bool) : Barrier :=
  { live := [], running, stepPending := false, killed := false, pause, rounds := 0,
    supervised := true }

/-- A barrier that nobody drives, for a bug that runs alone. -/
def unsupervised : Barrier := { create 250 false with supervised := false }

def allParked (b : Barrier) : Bool := b.live.all Prod.snd

def mayGrant (b : Barrier) : Bool := b.allParked && (b.running || b.stepPending)

/-- Adds a bug to the live ones, parked. -/
def register (b : Barrier) (id : Nat) : Barrier := { b with live := b.live.insert id true }

def park (b : Barrier) (id : Nat) : Barrier := { b with live := b.live.update id fun _ => true }

def permit (b : Barrier) (id : Nat) : Permit :=
  if b.killed then .halted
  else if b.supervised ∧ b.live.get? id = some true then .waiting
  else .granted

/-- Removes a bug that has finished or failed. -/
def terminate (b : Barrier) (id : Nat) : Barrier := { b with live := b.live.erase id }

def run (b : Barrier) : Barrier := { b with running := true }

/-- Revokes all permission to go on, a pending step included. -/
def hold (b : Barrier) : Barrier := { b with running := false, stepPending := false }

/-- Allows exactly one round. -/
def step (b : Barrier) : Barrier := { b with running := false, stepPending := true }

def kill (b : Barrier) : Barrier := { b with killed := true }

def setPause (b : Barrier) (pause : Nat) : Barrier := { b with pause }

/-- Releases every live bug for one round. -/
def grant (b : Barrier) : Barrier :=
  { b with
    live := b.live.map fun (id, _) => (id, false)
    rounds := b.rounds + 1
    stepPending := false }

/-- Whether no round is in flight and none is about to be granted. -/
def isIdle (b : Barrier) : Bool :=
  b.killed || b.live.isEmpty || (b.allParked && !b.mayGrant)

def isFinished (b : Barrier) : Bool := b.live.isEmpty

end Barrier

/-- Where the loop that grants rounds is. -/
inductive LoopPhase where
  /-- Sleeping for the pause before a round. -/
  | sleeping
  /-- Waiting until a round may be granted. -/
  | waiting
  | ended
  deriving DecidableEq, Repr

namespace LoopPhase

/-- Ends the loop, grants a round, or waits. -/
def attend (b : Barrier) : LoopPhase × Barrier :=
  if b.killed || b.live.isEmpty then (.ended, b)
  else if b.mayGrant then (.sleeping, b.grant)
  else (.waiting, b)

/-- One turn of the loop, `elapsed` milliseconds after it went to sleep. A changed pause counts
at once, and a kill ends the sleep. -/
def advance (elapsed : Nat) (b : Barrier) : LoopPhase → LoopPhase × Barrier
  | .sleeping => if b.killed || b.pause ≤ elapsed then attend b else (.sleeping, b)
  | .waiting => attend b
  | .ended => (.ended, b)

/-- Whether a turn of the loop changes anything. -/
def isReady (elapsed : Nat) (b : Barrier) : LoopPhase → Bool
  | .sleeping => b.killed || b.pause ≤ elapsed
  | .waiting => b.killed || b.live.isEmpty || b.mayGrant
  | .ended => false

/-- Turns the loop while that changes anything, `fuel` times at most. -/
def settle (elapsed : Nat) : Nat → LoopPhase × Barrier → LoopPhase × Barrier
  | 0, state => state
  | fuel + 1, (phase, b) =>
    if phase.isReady elapsed b then settle elapsed fuel (phase.advance elapsed b) else (phase, b)

end LoopPhase

end DrawingBugs
