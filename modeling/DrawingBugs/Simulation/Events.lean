import DrawingBugs.Simulation.State

/-!
# Events

Everything that happens in a simulation is a step of one worker, a turn of the loop that grants
rounds, or a command from outside. A list of events is one interleaving.
-/

namespace DrawingBugs

/-- What can be asked of a simulation from outside. -/
inductive Command where
  | start
  | run
  | pause
  | step
  | kill
  /-- Give up the crew once all of it has ended. -/
  | join
  | setPause (milliseconds : Nat)
  | reset
  deriving DecidableEq, Repr

inductive Event where
  /-- One step of the worker of the bug at a seat. -/
  | work (seat : Nat)
  /-- One turn of the loop, so many milliseconds after it went to sleep. -/
  | tick (elapsed : Nat)
  | command (c : Command)
  deriving DecidableEq, Repr

namespace Phase

def isGone : Phase → Bool
  | .gone => true
  | _ => false

/-- What follows the outcome of a bug's definition; a halt is no failure. -/
def afterOutcome : Outcome → Phase
  | .fault .halted => .leaving
  | .fault e => .failing e
  | _ => .leaving

/-- What follows a request for the first permit. -/
def afterPermit (definition : Tree) : Permit → Phase
  | .granted => .running (.executing .fresh definition)
  | .halted => .leaving
  | .waiting => .entering

/-- One step of a worker: a bug waits for its first permit, runs its definition, records its
failure if it has one, leaves the registry, and then leaves the barrier. -/
def step (seat : Nat) (definition : Tree) (s : Shared) : Phase → Phase × Shared
  | .entering => (afterPermit definition (s.barrier.permit seat), s)
  | .running m =>
    match m.outcome? with
    | some outcome => (afterOutcome outcome, s)
    | none =>
      let (m', s') := m.step seat s
      (.running m', s')
  | .failing e =>
    let failure := ⟨(s.world.bug seat).name, e.message⟩
    (.leaving, { s with world := s.world.recordFailure failure })
  | .leaving => (.departing, { s with world := s.world.leave (s.world.bug seat).id })
  | .departing => (.gone, { s with barrier := s.barrier.terminate seat })
  | .gone => (.gone, s)

/-- Whether a step of the worker changes anything. -/
def isReady (seat : Nat) (b : Barrier) : Phase → Bool
  | .entering => b.permit seat ≠ .waiting
  | .running m => !m.isWaiting seat b
  | .gone => false
  | _ => true

end Phase

namespace Crew

/-- The workers of the live bugs that have a definition. -/
def assemble (program : Program) (w : World) : Crew :=
  let worker? (seat : Nat) := (program.bugs[(w.bug seat).id]?).map (Worker.mk seat · .entering)
  ⟨.sleeping, w.registry.filterMap worker?⟩

def hasEnded (c : Crew) : Bool := c.loop = .ended && c.workers.all (·.phase.isGone)

/-- Lets the worker at a seat take one step. -/
def work (seat : Nat) (c : Crew) (s : Shared) : Crew × Shared :=
  match c.workers.find? (·.seat = seat) with
  | some worker =>
    let (phase, s') := worker.phase.step seat worker.definition s
    let change (w : Worker) := if w.seat = seat then { w with phase } else w
    ({ c with workers := c.workers.map change }, s')
  | none => (c, s)

def tick (elapsed : Nat) (c : Crew) (s : Shared) : Crew × Shared :=
  let (loop, barrier) := c.loop.advance elapsed s.barrier
  ({ c with loop }, { s with barrier })

end Crew

namespace Simulation

def changeBarrier (s : Simulation) (f : Barrier → Barrier) : Simulation :=
  { s with shared := { s.shared with barrier := f s.barrier } }

/-- Lets the crew, if there is one, take a step. -/
def changeCrew (s : Simulation) (f : Crew → Shared → Crew × Shared) : Simulation :=
  match s.crew with
  | some crew =>
    let (crew, shared) := f crew s.shared
    { s with crew := some crew, shared }
  | none => s

/-- Puts a crew to work, unless there is one already. -/
def start (s : Simulation) : Simulation :=
  match s.crew with
  | some _ => s
  | none => { s with crew := some (.assemble s.program s.world), started := true }

def kill (s : Simulation) : Simulation := s.changeBarrier .kill

def join (s : Simulation) : Simulation :=
  if s.crew.all Crew.hasEnded then { s with crew := none } else s

def setPause (s : Simulation) (milliseconds : Nat) : Simulation :=
  let s := s.changeBarrier (·.setPause milliseconds)
  { s with config := { s.config with pauseMs := milliseconds } }

/-- Begins again with a new world and a new barrier on hold, and with a new crew if there ever
was a start. The old crew is killed and joined first; it shares nothing with the new one. -/
def reset (s : Simulation) : Except Fault Simulation := do
  let shared ← build s.program s.config
  let fresh := { s with shared := { shared with barrier := shared.barrier.hold }, crew := none }
  return if s.started then fresh.start else fresh

def obey (s : Simulation) : Command → Simulation
  | .start => s.start
  | .run => s.changeBarrier .run
  | .pause => s.changeBarrier .hold
  | .step => s.changeBarrier .step
  | .kill => s.kill
  | .join => s.join
  | .setPause milliseconds => s.setPause milliseconds
  | .reset =>
    match s.reset with
    | .ok fresh => fresh
    | .error _ => s.kill

def perform (s : Simulation) : Event → Simulation
  | .work seat => s.changeCrew (Crew.work seat)
  | .tick elapsed => s.changeCrew (Crew.tick elapsed)
  | .command c => s.obey c

/-- Performs the events of an interleaving in order. -/
def performAll (s : Simulation) (events : List Event) : Simulation := events.foldl perform s

end Simulation

end DrawingBugs
