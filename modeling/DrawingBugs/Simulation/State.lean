import DrawingBugs.Machine.Step
import DrawingBugs.Program
import DrawingBugs.RunConfig
import DrawingBugs.Snapshot

/-!
# Simulations

A simulation is a program with the world and the barrier that its bugs share. Once it is
started, every bug has a worker, and a loop grants the rounds.
-/

namespace DrawingBugs

/-- Where the worker of a bug is. -/
inductive Phase where
  /-- Waiting for the first permit. -/
  | entering
  | running (machine : Machine)
  /-- About to record a failure. -/
  | failing (fault : Fault)
  /-- About to leave the registry. -/
  | leaving
  /-- About to leave the barrier. -/
  | departing
  | gone

/-- The bug at a seat with its definition and the phase of its work. -/
structure Worker where
  seat : Nat
  definition : Tree
  phase : Phase

/-- What runs: the loop that grants rounds, and the workers. -/
structure Crew where
  loop : LoopPhase
  workers : List Worker

structure Simulation where
  program : Program
  config : RunConfig
  shared : Shared
  /-- What runs, from a start to the end of a kill. -/
  crew : Option Crew
  /-- Whether there ever was a start. -/
  started : Bool

namespace Simulation

/-- Lets the bug of a definition enter and registers it. -/
def enroll (s : Shared) (definition : Tree) : Except Fault Shared := do
  let name ← definition.part 0
  let id := s.world.bugs.length
  return ⟨s.world.enter (.newborn id name.text), s.barrier.register id⟩

/-- The world and the barrier before anything runs. -/
def build (program : Program) (config : RunConfig) : Except Fault Shared := do
  let world ← World.ofAllbugs program.allbugs
  program.bugs.foldlM enroll ⟨world, .create config.pauseMs config.startRunning⟩

def create (program : Program) (config : RunConfig) : Except Fault Simulation := do
  let shared ← build program config
  return { program, config, shared, crew := none, started := false }

def world (s : Simulation) : World := s.shared.world

def barrier (s : Simulation) : Barrier := s.shared.barrier

def snapshot (s : Simulation) : Snapshot where
  bugs := s.world.liveBugs.map BugView.ofBug
  lines := s.world.lines
  rounds := s.barrier.rounds
  failures := s.world.failures

end Simulation

end DrawingBugs
