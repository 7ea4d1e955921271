import DrawingBugs.Proofs.Simulation.Runs

/-!
# Resets

A reset builds the world and the barrier anew from the program, and of all that happened before it
keeps only the pause that was set last and whether there ever was a start. What the configuration
says about running from the start is overruled by the hold. So a reset leads to a simulation that
has just been created, and started if the old one was.
-/

namespace DrawingBugs

namespace Simulation

/-! ## What is built -/

/-- What is shared, with a changed barrier. -/
def withBarrier (f : Barrier → Barrier) (s : Shared) : Shared := { s with barrier := f s.barrier }

section Build

variable {f : Barrier → Barrier} (hf : ∀ b id, (f b).register id = f (b.register id))
include hf

private theorem enroll_withBarrier (s : Shared) (definition : Tree) :
    enroll (withBarrier f s) definition = (enroll s definition).map (withBarrier f) := by
  simp only [enroll, withBarrier]
  cases definition.part 0 with
  | error => rfl
  | ok name =>
    exact congrArg (fun b => Except.ok (Shared.mk (s.world.enter
      (.newborn s.world.bugs.length name.text)) b)) (hf s.barrier s.world.bugs.length)

private theorem foldlM_enroll_withBarrier (definitions : List Tree) (s : Shared) :
    definitions.foldlM enroll (withBarrier f s) =
      (definitions.foldlM enroll s).map (withBarrier f) := by
  induction definitions generalizing s with
  | nil => rfl
  | cons definition definitions ih =>
    rw [List.foldlM_cons, List.foldlM_cons, enroll_withBarrier hf]
    cases enroll s definition with
    | error => rfl
    | ok s' => exact ih s'

/-- For another configuration the same is built, but for the barrier. -/
private theorem build_eq_map (program : Program) {config config' : RunConfig}
    (hcreate : f (.create config.pauseMs config.startRunning) =
      .create config'.pauseMs config'.startRunning) :
    build program config' = (build program config).map (withBarrier f) := by
  simp only [build, ← hcreate]
  cases World.ofAllbugs program.allbugs with
  | error => rfl
  | ok world => exact foldlM_enroll_withBarrier hf program.bugs ⟨world, _⟩

end Build

private theorem build_hold (program : Program) (config : RunConfig) :
    (build program config).map (withBarrier .hold) = build program ⟨config.pauseMs, false⟩ :=
  (build_eq_map (fun _ _ => rfl) program rfl).symm

private theorem build_isOk {program : Program} {config : RunConfig} {s : Shared}
    (h : build program config = .ok s) (config' : RunConfig) :
    ∃ s', build program config' = .ok s' := by
  have hmap : build program config' = (build program config).map (withBarrier fun b =>
      { b with pause := config'.pauseMs, running := config'.startRunning }) :=
    build_eq_map (fun _ _ => rfl) program rfl
  rw [h] at hmap
  exact ⟨_, hmap⟩

/-! ## What a history leaves -/

/-- The pause after an event. -/
def pauseAfter (pause : Nat) : Event → Nat
  | .command (.setPause milliseconds) => milliseconds
  | _ => pause

/-- The pause that was set last, or the one at the beginning. -/
def lastPause (pause : Nat) (events : List Event) : Nat := events.foldl pauseAfter pause

private theorem reset_eq (s : Simulation) : s.reset =
    (build s.program ⟨s.config.pauseMs, false⟩).map fun shared =>
      let fresh := { s with shared, crew := none }
      if s.started then fresh.start else fresh := by
  rw [← build_hold, reset]
  cases build s.program s.config <;> rfl

/-- What a history leaves in a simulation beyond its world and its barrier: the pause that was set
last, and whether there was a start. Whoever works has been started. -/
structure Remembers (config : RunConfig) (events : List Event) (s : Simulation) : Prop where
  config : s.config = ⟨lastPause config.pauseMs events, config.startRunning⟩
  started : s.started = decide (.command .start ∈ events)
  crew : s.crew.isSome → s.started = true

/-- What an event does to all that outlasts a reset. -/
private theorem perform_lasting (s : Simulation) (hcrew : s.crew.isSome → s.started = true)
    (e : Event) : (s.perform e).config = ⟨pauseAfter s.config.pauseMs e, s.config.startRunning⟩ ∧
      (s.perform e).started = (s.started || decide (e = .command .start)) ∧
      ((s.perform e).crew.isSome → (s.perform e).started = true) := by
  cases e with
  | work seat => cases h : s.crew <;> simp_all [perform, changeCrew, pauseAfter]
  | tick elapsed => cases h : s.crew <;> simp_all [perform, changeCrew, pauseAfter]
  | command c =>
    cases c with
    | start => cases h : s.crew <;> simp_all [perform, obey, start, pauseAfter]
    | join =>
      simp only [perform, obey, join, pauseAfter]
      split <;> simp_all
    | reset =>
      simp only [perform, obey, reset_eq]
      cases build s.program ⟨s.config.pauseMs, false⟩ with
      | error => exact ⟨rfl, (Bool.or_false _).symm, hcrew⟩
      | ok shared => cases hstarted : s.started <;> simp [Except.map, start, pauseAfter]
    | _ => exact ⟨rfl, (Bool.or_false _).symm, hcrew⟩

private theorem Remembers.perform {config : RunConfig} {events : List Event} {s : Simulation}
    (h : Remembers config events s) (e : Event) :
    Remembers config (events ++ [e]) (s.perform e) := by
  obtain ⟨hconfig, hstarted, hcrew⟩ := s.perform_lasting h.crew e
  refine ⟨?_, ?_, hcrew⟩
  · rw [hconfig, h.config, lastPause, lastPause, List.foldl_append]
    rfl
  · rw [hstarted, h.started]
    simp [eq_comm]

private theorem remembers {program : Program} {config : RunConfig} {s : Simulation}
    (h : create program config = .ok s) (events : List Event) :
    Remembers config events (s.performAll events) := by
  induction events using List.reverseRecOn with
  | nil =>
    obtain ⟨-, -, hconfig, hcrew, hstarted⟩ := create_eq_ok h
    exact ⟨hconfig, by simpa [performAll] using hstarted, by simp [performAll, hcrew]⟩
  | append_singleton events e ih =>
    rw [performAll_concat]
    exact ih.perform e

/-! ## What cannot be told -/

/-- A simulation without what its configuration says about running from the start. -/
def unbiased (s : Simulation) : Simulation := { s with config := ⟨s.config.pauseMs, false⟩ }

private theorem perform_unbiased (s : Simulation) (e : Event) :
    (s.perform e).unbiased = s.unbiased.perform e := by
  have hcrew : s.unbiased.crew = s.crew := rfl
  cases e with
  | work seat =>
    simp only [perform, changeCrew, hcrew]
    cases s.crew <;> rfl
  | tick elapsed =>
    simp only [perform, changeCrew, hcrew]
    cases s.crew <;> rfl
  | command c =>
    cases c with
    | start =>
      simp only [perform, obey, start, hcrew]
      cases s.crew <;> rfl
    | join =>
      simp only [perform, obey, join, hcrew]
      split <;> rfl
    | reset =>
      -- What a reset builds is on hold, so that of the configuration only the pause matters.
      have hbuild : build s.unbiased.program ⟨s.unbiased.config.pauseMs, false⟩ =
          build s.program ⟨s.config.pauseMs, false⟩ := rfl
      have hstarted : s.unbiased.started = s.started := rfl
      simp only [perform, obey, reset_eq, hbuild, hstarted]
      cases build s.program ⟨s.config.pauseMs, false⟩ with
      | error => rfl
      | ok shared => cases s.started <;> rfl
    | _ => rfl

private theorem performAll_unbiased (s : Simulation) (events : List Event) :
    (s.performAll events).unbiased = s.unbiased.performAll events := by
  induction events generalizing s with
  | nil => rfl
  | cons e events ih => exact (ih (s.perform e)).trans (by rw [perform_unbiased]; rfl)

private theorem Remembers.reset {config : RunConfig} {events : List Event} {s : Simulation}
    {shared : Shared} (h : Remembers config events s)
    (hbuild : build s.program ⟨lastPause config.pauseMs events, false⟩ = .ok shared) :
    let blank : Simulation :=
      ⟨s.program, ⟨lastPause config.pauseMs events, false⟩, shared, none, false⟩
    ∃ fresh, s.reset = .ok fresh ∧
      fresh.unbiased = if .command .start ∈ events then blank.start else blank := by
  obtain ⟨program, config', old, crew, started⟩ := s
  obtain ⟨hconfig, hstarted, -⟩ := h
  simp only at hconfig hstarted hbuild
  subst hconfig hstarted
  refine ⟨_, by rw [reset_eq, hbuild]; rfl, ?_⟩
  by_cases hstart : .command .start ∈ events <;> simp only [hstart] <;> rfl

/-- A reset succeeds after every history. It leads to a simulation that has just been created with
the pause that was set last, started if there ever was a start. -/
private theorem reset_performAll {program : Program} {config : RunConfig} {s₀ : Simulation}
    (h : create program config = .ok s₀) (events : List Event) :
    ∃ blank fresh, create program ⟨lastPause config.pauseMs events, false⟩ = .ok blank ∧
      (s₀.performAll events).reset = .ok fresh ∧
      fresh.unbiased = if .command .start ∈ events then blank.start else blank := by
  obtain ⟨hbuild, hprogram, -⟩ := create_eq_ok h
  obtain ⟨shared, hshared⟩ := build_isOk hbuild ⟨lastPause config.pauseMs events, false⟩
  have hlast : (s₀.performAll events).program = program :=
    (program_performAll s₀ events).trans hprogram
  obtain ⟨fresh, hreset, hfresh⟩ := (remembers h events).reset (by rwa [hlast])
  rw [hlast] at hfresh
  exact ⟨_, fresh, by rw [create, hshared]; rfl, hreset, hfresh⟩

/-- **A reset forgets.** After every history of every simulation a reset succeeds, and but for what
the configuration said about running from the start it leads to a simulation that has just been
created with the pause that was set last and does not run; it has been started if there ever was a
start. So whatever happens after the reset, two histories that set the same pause last, and both
started or both did not, cannot be told apart. -/
theorem reset_forgets {program : Program} {config : RunConfig} {s₀ : Simulation}
    (h : create program config = .ok s₀) (events : List Event) :
    ∃ blank fresh, create program ⟨lastPause config.pauseMs events, false⟩ = .ok blank ∧
      (s₀.performAll events).reset = .ok fresh ∧
      fresh.unbiased = (if .command .start ∈ events then blank.start else blank) ∧
      ∀ config' s₀' events', create program config' = .ok s₀' →
        lastPause config'.pauseMs events' = lastPause config.pauseMs events →
        (.command .start ∈ events' ↔ .command .start ∈ events) →
        ∃ fresh', (s₀'.performAll events').reset = .ok fresh' ∧ ∀ future,
          (fresh'.performAll future).unbiased = (fresh.performAll future).unbiased := by
  obtain ⟨blank, fresh, hblank, hreset, hfresh⟩ := reset_performAll h events
  refine ⟨blank, fresh, hblank, hreset, hfresh, fun config' s₀' events' h' hpause hstart => ?_⟩
  obtain ⟨blank', fresh', hblank', hreset', hfresh'⟩ := reset_performAll h' events'
  rw [hpause, hblank] at hblank'
  cases hblank'
  have hsame : fresh'.unbiased = fresh.unbiased := by simp only [hfresh', hfresh, hstart]
  refine ⟨fresh', hreset', fun future => ?_⟩
  rw [performAll_unbiased, hsame, performAll_unbiased]

private def wanderer : Tree :=
  .labeled "Bug" [.labeled "a" [], .labeled "list" [], .labeled "initially" [],
    .labeled "block" [.labeled "move" [.labeled "1.0" []]], .labeled "list" []]

private def oneWanderer : Program := ⟨.labeled "program" [], .labeled "list" [], [wanderer]⟩

/-- A bug has drawn a line when the simulation is killed and reset, and then it is reset again in
the middle of a round. -/
private def wornOut : List Event :=
  .command .start :: .tick 0 :: List.replicate 26 (.work 0) ++
    [.command (.setPause 5), .command .kill, .tick 0, .command .reset, .command (.setPause 20),
      .command .run, .tick 0, .work 0, .work 0]

theorem reset_forgets_wornOut :
    ∃ s₀ s₀', create oneWanderer ⟨0, true⟩ = .ok s₀ ∧ create oneWanderer ⟨7, false⟩ = .ok s₀' ∧
      (s₀.performAll (wornOut.take 30)).world.lines.length = 1 ∧
      ∃ blank fresh fresh', create oneWanderer ⟨20, false⟩ = .ok blank ∧
        (s₀.performAll wornOut).reset = .ok fresh ∧ fresh.unbiased = blank.start ∧
        (s₀'.performAll [.command (.setPause 20), .command .start]).reset = .ok fresh' ∧
        ∀ future, (fresh'.performAll future).unbiased = (fresh.performAll future).unbiased := by
  obtain ⟨s₀, hs₀, hdrawn⟩ : ∃ s₀, create oneWanderer ⟨0, true⟩ = .ok s₀ ∧
      (s₀.performAll (wornOut.take 30)).world.lines.length = 1 := ⟨_, rfl, by decide +kernel⟩
  obtain ⟨s₀', hs₀'⟩ : ∃ s₀', create oneWanderer ⟨7, false⟩ = .ok s₀' := ⟨_, rfl⟩
  obtain ⟨blank, fresh, hblank, hreset, hfresh, hforgets⟩ := reset_forgets hs₀ wornOut
  obtain ⟨fresh', hreset', hsame⟩ := hforgets _ s₀' [.command (.setPause 20), .command .start] hs₀'
    (by decide) (by decide)
  exact ⟨s₀, s₀', hs₀, hs₀', hdrawn, blank, fresh, fresh', hblank, hreset,
    hfresh.trans (if_pos (by decide)), hreset', hsame⟩

end Simulation

end DrawingBugs
