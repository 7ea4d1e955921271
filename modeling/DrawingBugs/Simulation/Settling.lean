import DrawingBugs.Simulation.Events

/-!
# Settling

One interleaving among all: workers come first, in the order of their seats, and the loop turns
when no worker can go on. A simulation has settled when nothing can go on. The observer's
patience bounds the pauses that are waited for.
-/

namespace DrawingBugs

namespace Crew

def nextEvent? (patience : Nat) (b : Barrier) (c : Crew) : Option Event :=
  match c.workers.find? fun w => w.phase.isReady w.seat b with
  | some worker => some (.work worker.seat)
  | none => if c.loop.isReady patience b then some (.tick patience) else none

end Crew

namespace Simulation

def nextEvent? (patience : Nat) (s : Simulation) : Option Event :=
  s.crew.bind (·.nextEvent? patience s.barrier)

/-- Performs events until nothing can go on, `fuel` of them at most. -/
def settle (patience : Nat) : Nat → Simulation → Simulation
  | 0, s => s
  | fuel + 1, s =>
    match s.nextEvent? patience with
    | some event => settle patience fuel (s.perform event)
    | none => s

/-- Kills a simulation and waits for its crew. -/
def stop (patience fuel : Nat) (s : Simulation) : Simulation :=
  (settle patience fuel s.kill).join

/-- Whether an observer who waits for a settled simulation sees what was waited for: a run that
goes on or was killed is waited for until it has finished, and any other until it is idle. -/
def isAtRest (s : Simulation) : Bool :=
  if s.started ∧ (s.barrier.killed ∨ s.barrier.running) then s.barrier.isFinished
  else s.barrier.isIdle

end Simulation

end DrawingBugs
