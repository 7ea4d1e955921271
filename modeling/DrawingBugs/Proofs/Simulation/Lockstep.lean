import DrawingBugs.Proofs.Simulation.Runs

/-!
# Lockstep

In the round in which a bug carries out its `k`-th visible action exactly `k` rounds have been
granted, whatever the interleaving. The invariant has two parts. At the barrier, a parked bug
has parked as often as rounds were granted, and a released one once less. At its worker, a bug
that computes is released and has parked after each of its actions; between an action and its
parking it has acted once more.
-/

namespace DrawingBugs

namespace Phase

/-- Where a bug can be, given its flag at the barrier and how often it has acted and parked. -/
def InStep (flag : Option Bool) (actions parks : Nat) : Phase → Prop
  | .entering => flag.isSome ∧ actions = parks
  | .running m =>
    match m.focus with
    | .draw .. | .park => flag = some false ∧ actions = parks + 1
    | .await => flag.isSome ∧ actions = parks
    | .fault _ => flag.isSome
    | _ => flag = some false ∧ actions = parks
  | .failing _ | .leaving | .departing => flag.isSome
  | .gone => flag = none

def isActing : Phase → Bool
  | .running m => match m.focus with | .act .. => true | _ => false
  | _ => false

def isDrawing : Phase → Bool
  | .running m => match m.focus with | .draw .. => true | _ => false
  | _ => false

def isParking : Phase → Bool
  | .running m => match m.focus with | .park => true | _ => false
  | _ => false

def isBusy : Phase → Bool
  | .running m => match m.focus with | .act .. => true | focus => focus.isComputing
  | _ => false

private theorem isBusy_of_isComputing {m : Machine} (h : m.focus.isComputing) :
    isBusy (.running m) := by
  cases hm : m.focus <;> simp_all [isBusy, Focus.isComputing]

theorem isActing_of_isComputing {m : Machine} (h : m.focus.isComputing) :
    isActing (.running m) = false := by
  cases hm : m.focus <;> simp_all [isActing, Focus.isComputing]

theorem isParking_of_isComputing {m : Machine} (h : m.focus.isComputing) :
    isParking (.running m) = false := by
  cases hm : m.focus <;> simp_all [isParking, Focus.isComputing]

theorem isDrawing_of_isComputing {m : Machine} (h : m.focus.isComputing) :
    isDrawing (.running m) = false := by
  cases hm : m.focus <;> simp_all [isDrawing, Focus.isComputing]

private theorem isDrawing_of_plain {m : Machine} (h : m.Plain) :
    isDrawing (.running m) = false := by
  cases hm : m.focus <;> simp_all [isDrawing, Machine.Plain, Focus.isPlain]

theorem isDrawing_of_outcome {m : Machine} {outcome : Outcome} (h : m.outcome? = some outcome) :
    isDrawing (.running m) = false := by
  cases hm : m.focus <;> simp_all [isDrawing, Machine.outcome?]

theorem isParking_of_outcome {m : Machine} {outcome : Outcome} (h : m.outcome? = some outcome) :
    isParking (.running m) = false := by
  cases hm : m.focus <;> simp_all [isParking, Machine.outcome?]

/-- Whether the bug of the worker is still in the registry. -/
def isPresent : Phase → Bool
  | .departing | .gone => false
  | _ => true

private theorem InStep.isSome {flag : Option Bool} {actions parks : Nat} {m : Machine}
    (h : InStep flag actions parks (.running m)) : flag.isSome := by
  cases hm : m.focus <;> simp_all [InStep]

theorem InStep.isSome_of_ne_gone {flag : Option Bool} {actions parks : Nat} {phase : Phase}
    (h : InStep flag actions parks phase) (hgone : phase ≠ .gone) : flag.isSome := by
  cases phase with
  | entering => exact h.1
  | running m => exact h.isSome
  | failing _ | leaving | departing => exact h
  | gone => exact absurd rfl hgone

private theorem InStep.of_isBusy {flag : Option Bool} {actions parks : Nat} {phase : Phase}
    (h : InStep flag actions parks phase) (hbusy : phase.isBusy) :
    flag = some false ∧ actions = parks := by
  cases phase with
  | running m => cases hm : m.focus <;> simp_all [InStep, isBusy, Focus.isComputing]
  | _ => simp [isBusy] at hbusy

private theorem InStep.of_isDrawing {flag : Option Bool} {actions parks : Nat} {phase : Phase}
    (h : InStep flag actions parks phase) (hdrawing : phase.isDrawing) :
    flag = some false ∧ actions = parks + 1 := by
  cases phase with
  | running m => cases hm : m.focus <;> simp_all [InStep, isDrawing]
  | _ => simp [isDrawing] at hdrawing

private theorem InStep.of_plain {actions : Nat} {m : Machine} (hm : m.Plain) :
    InStep (some false) actions actions (.running m) := by
  cases hf : m.focus <;> simp_all [InStep, Machine.Plain, Focus.isPlain]

theorem Move.live_of_ne {seat other : Nat} {s s' : Shared} {phase phase' : Phase}
    (h : Move seat s phase phase' s') (hne : other ≠ seat) :
    s'.barrier.live.get? other = s.barrier.live.get? other := by
  cases h with
  | run _ hmove =>
    cases hmove with
    | park _ => simp [Barrier.park, Ne.symm hne]
    | _ => rfl
  | depart => simp [Barrier.terminate, Ne.symm hne]
  | _ => rfl

private theorem Move.rounds {seat : Nat} {s s' : Shared} {phase phase' : Phase}
    (h : Move seat s phase phase' s') :
    s'.barrier.rounds = s.barrier.rounds ∧ s'.barrier.supervised = s.barrier.supervised := by
  cases h with
  | run _ hmove => cases hmove <;> exact ⟨rfl, rfl⟩
  | _ => exact ⟨rfl, rfl⟩

private theorem InStep.machine_move {seat : Nat} {s s' : Shared} {m m' : Machine}
    {actions parks : Nat} (hsupervised : s.barrier.supervised = true)
    (h : InStep (s.barrier.live.get? seat) actions parks (.running m))
    (hmove : Machine.Move seat s m m' s') :
    InStep (s'.barrier.live.get? seat) (actions + (isActing (.running m)).toNat)
      (parks + (isParking (.running m)).toNat) (.running m') := by
  cases hmove with
  | compute hcomputing hplain _ =>
    obtain ⟨hflag, rfl⟩ := h.of_isBusy (isBusy_of_isComputing hcomputing)
    simp only [hflag, isActing_of_isComputing hcomputing, isParking_of_isComputing hcomputing,
      Bool.toNat_false, Nat.add_zero]
    exact .of_plain hplain
  | act hm hafter _ =>
    obtain ⟨hflag, rfl⟩ := h.of_isBusy (by simp [isBusy, hm])
    rcases hafter with ⟨segment, color, hm'⟩ | hm' | ⟨e, hm'⟩ <;>
      simp [InStep, isActing, isParking, hm, hm', hflag]
  | draw hm =>
    simp only [InStep, hm] at h
    simp [InStep, isActing, isParking, hm, h, Machine.focusOn]
  | park hm =>
    simp only [InStep, hm] at h
    simp [InStep, isActing, isParking, hm, h, Machine.focusOn, Barrier.park]
  | wait hm _ => simpa [isActing, isParking, hm] using h
  | proceed hm hpermit =>
    simp only [InStep, hm] at h
    have hflag := Barrier.released_of_granted hsupervised hpermit h.1
    simp [InStep, isActing, isParking, hm, h.2, hflag, Machine.focusOn]
  | halt hm _ =>
    simp only [InStep, hm] at h
    simp [InStep, Machine.fail, Machine.focusOn, h.1]
  | unwind hm hm' =>
    simp only [InStep, hm] at h
    simp [InStep, hm', h]

/-- A worker that was in step stays in step. -/
private theorem InStep.move {seat : Nat} {s s' : Shared} {phase phase' : Phase}
    {actions parks : Nat} (hsupervised : s.barrier.supervised = true)
    (h : InStep (s.barrier.live.get? seat) actions parks phase)
    (hmove : Move seat s phase phase' s') :
    InStep (s'.barrier.live.get? seat) (actions + phase.isActing.toNat)
      (parks + phase.isParking.toNat) phase' := by
  cases hmove with
  | wait _ => exact h
  | enter definition hpermit =>
    obtain ⟨hlive, hsame⟩ := h
    have hflag := Barrier.released_of_granted hsupervised hpermit hlive
    simp [InStep, isActing, isParking, hsame, hflag, Machine.executing]
  | refuse _ => exact h.1
  | run _ hmove => exact h.machine_move hsupervised hmove
  | finish houtcome =>
    have hlive := h.isSome
    simp only [afterOutcome]
    split <;> exact hlive
  | record e => exact h
  | leave => exact h
  | depart => simp [InStep, Barrier.terminate]
  | stay => exact h

private theorem Move.flag {seat : Nat} {s s' : Shared} {phase phase' : Phase} {actions parks : Nat}
    (hmove : Move seat s phase phase' s')
    (h : InStep (s.barrier.live.get? seat) actions parks phase) {flag' : Bool}
    (hflag' : s'.barrier.live.get? seat = some flag') :
    ∃ flag, s.barrier.live.get? seat = some flag ∧
      phase.isParking.toNat + (!flag').toNat = (!flag).toNat := by
  cases hmove with
  | run _ hmove =>
    cases hmove with
    | compute hcomputing _ _ => exact ⟨flag', hflag', by simp [isParking_of_isComputing hcomputing]⟩
    | park hm =>
      simp only [InStep, hm] at h
      refine ⟨false, h.1, ?_⟩
      have htrue : flag' = true := by simpa [Barrier.park, h.1] using hflag'.symm
      simp [isParking, hm, htrue]
    | act hm | draw hm | wait hm | proceed hm | halt hm | unwind hm =>
      exact ⟨flag', hflag', by simp [isParking, hm]⟩
  | finish houtcome => exact ⟨flag', hflag', by simp [isParking_of_outcome houtcome]⟩
  | depart => simp [Barrier.terminate] at hflag'
  | _ => exact ⟨flag', hflag', by simp [isParking]⟩

private theorem Move.isPresent {seat : Nat} {s s' : Shared} {phase phase' : Phase}
    (hmove : Move seat s phase phase' s') (h : phase.isPresent) (hstays : phase ≠ .leaving) :
    phase'.isPresent := by
  cases hmove with
  | leave => exact absurd rfl hstays
  | finish houtcome =>
    simp only [afterOutcome]
    split <;> rfl
  | depart | stay => exact h
  | _ => rfl

private theorem Move.lines {seat : Nat} {s s' : Shared} {phase phase' : Phase}
    (hmove : Move seat s phase phase' s') :
    s'.world.lines.length = s.world.lines.length + phase.isDrawing.toNat := by
  cases hmove with
  | run _ hmove =>
    cases hmove with
    | compute hcomputing _ hkeeps => simp [hkeeps.lines, isDrawing_of_isComputing hcomputing]
    | act hm _ hkeeps => simp [hkeeps.lines, isDrawing, hm]
    | draw hm => simp [World.draw, isDrawing, hm]
    | park hm | wait hm | proceed hm | halt hm | unwind hm => simp [isDrawing, hm]
  | finish houtcome => simp [isDrawing_of_outcome houtcome]
  | _ => simp [isDrawing, World.recordFailure, World.leave]

private theorem Move.isActing_of_isDrawing {seat : Nat} {s s' : Shared} {phase phase' : Phase}
    (hmove : Move seat s phase phase' s') (h : phase'.isDrawing) : phase.isActing := by
  cases hmove with
  | run _ hmove =>
    cases hmove with
    | compute _ hplain _ => simp [isDrawing_of_plain hplain] at h
    | act hm _ _ => simp [isActing, hm]
    | wait hm _ => simp [isDrawing, hm] at h
    | unwind _ hm' => simp [isDrawing, hm'] at h
    | _ => simp [isDrawing, Machine.focusOn, Machine.fail] at h
  | finish houtcome =>
    simp only [afterOutcome] at h
    split at h <;> simp [isDrawing] at h
  | _ => simp [isDrawing, Machine.executing] at h

private theorem InStep.grant {b : Barrier} (hgrant : b.mayGrant) {seat actions parks : Nat}
    {phase : Phase} (h : InStep (b.live.get? seat) actions parks phase) :
    InStep (b.grant.live.get? seat) actions parks phase := by
  have hnot : b.live.get? seat ≠ some false := fun hflag => by
    cases Barrier.parked_of_mayGrant hgrant hflag
  rw [Barrier.get?_grant]
  cases phase with
  | running m => cases hm : m.focus <;> simp_all [InStep]
  | _ => simpa [InStep] using h

end Phase

namespace Simulation

/-- Whether the next step of the bug at a seat carries out a visible action. -/
def isActing (s : Simulation) (seat : Nat) : Bool := (s.phase? seat).any Phase.isActing

/-- Whether the next step of the bug at a seat draws the line of its action. -/
def isDrawing (s : Simulation) (seat : Nat) : Bool := (s.phase? seat).any Phase.isDrawing

/-- Whether the next step of the bug at a seat parks it. -/
def isParking (s : Simulation) (seat : Nat) : Bool := (s.phase? seat).any Phase.isParking

/-- Whether the bug at a seat is on the way to its next action, or at it. -/
def isBusy (s : Simulation) (seat : Nat) : Bool := (s.phase? seat).any Phase.isBusy

/-- Whether an event carries out a visible action of the bug at a seat. -/
def acts (seat : Nat) (s : Simulation) (e : Event) : Bool := e = .work seat ∧ s.isActing seat

/-- Whether an event parks the bug at a seat. -/
def parksAt (seat : Nat) (s : Simulation) (e : Event) : Bool := e = .work seat ∧ s.isParking seat

/-- Whether an event appends a line of the bug at a seat to the log. -/
def drawsAt (seat : Nat) (s : Simulation) (e : Event) : Bool :=
  e = .work seat ∧ s.world.lines.length < (s.perform e).world.lines.length

/-- How many visible actions the bug at a seat carries out in a run. -/
def actions (seat : Nat) : Simulation → List Event → Nat := count (acts seat)

/-- How often the bug at a seat parks in a run. -/
def parks (seat : Nat) : Simulation → List Event → Nat := count (parksAt seat)

/-- How many lines the bug at a seat appends to the log in a run. -/
def linesBy (seat : Nat) : Simulation → List Event → Nat := count (drawsAt seat)

/-- The bugs are in step, having acted and parked so often. -/
structure InStep (actions parks : Nat → Nat) (s : Simulation) : Prop where
  ids : s.world.bugs.map Bug.id = List.range s.program.bugs.length
  registry : ∀ seat ∈ s.world.registry, seat < s.program.bugs.length
  supervised : s.barrier.supervised = true
  rounds : ∀ seat flag, s.barrier.live.get? seat = some flag →
    parks seat + (!flag).toNat = s.barrier.rounds
  workers : ∀ seat phase, s.phase? seat = some phase →
    phase.InStep (s.barrier.live.get? seat) (actions seat) (parks seat)
  present : s.crew.isSome → ∀ seat ∈ s.world.registry,
    ∃ phase, s.phase? seat = some phase ∧ phase.isPresent
  waiting : s.crew = none → ∀ seat ∈ s.world.registry,
    (s.barrier.live.get? seat).isSome ∧ actions seat = parks seat

theorem Enrolled.flag {n : Nat} {shared : Shared} (h : Enrolled n shared) (seat : Nat) :
    shared.barrier.live.get? seat = if seat ∈ List.range n then some true else none := by
  rw [h.live, Table.get?_map_const]

private theorem live_create {program : Program} {config : RunConfig} {s : Simulation}
    (h : Simulation.create program config = .ok s) (seat : Nat) : s.barrier.live.get? seat =
      if seat ∈ List.range program.bugs.length then some true else none :=
  (build_enrolled (create_eq_ok h).1).flag seat

theorem InStep.enrolled {s : Simulation} (hcrew : s.crew = none)
    (h : Enrolled s.program.bugs.length s.shared) : InStep (fun _ => 0) (fun _ => 0) s := by
  have hlive (seat : Nat) : s.barrier.live.get? seat = _ := h.flag seat
  refine ⟨h.ids, ?_, h.supervised, ?_, ?_, ?_, ?_⟩
  · intro seat hseat
    simpa [world, h.registry] using hseat
  · intro seat flag hflag
    rw [hlive] at hflag
    split at hflag
    · cases hflag
      simp [barrier, h.rounds]
    · cases hflag
  · intro seat phase hphase
    simp [phase?, hcrew] at hphase
  · intro hsome
    simp [hcrew] at hsome
  · intro _ seat hseat
    have hmem : seat ∈ List.range s.program.bugs.length := by
      simpa [world, h.registry] using hseat
    simp only [hlive, if_pos hmem, Option.isSome_some, and_self]

theorem InStep.create {program : Program} {config : RunConfig} {s : Simulation}
    (h : Simulation.create program config = .ok s) : InStep (fun _ => 0) (fun _ => 0) s := by
  obtain ⟨hbuild, rfl, -, hcrew, -⟩ := create_eq_ok h
  exact InStep.enrolled hcrew (build_enrolled hbuild)

variable {actions parks : Nat → Nat} {s : Simulation}

/-- A simulation that differs only at the barrier and in its loop. -/
structure SameCrew (s s' : Simulation) : Prop where
  program : s'.program = s.program
  world : s'.world = s.world
  phases : ∀ seat, s'.phase? seat = s.phase? seat
  crew : s'.crew = none ↔ s.crew = none

private theorem InStep.of_sameCrew {s' : Simulation} (h : InStep actions parks s)
    (hsame : SameCrew s s') (hsupervised : s'.barrier.supervised = true)
    (hrounds : ∀ seat flag, s'.barrier.live.get? seat = some flag →
      parks seat + (!flag).toNat = s'.barrier.rounds)
    (hworkers : ∀ seat (phase : Phase), phase.InStep (s.barrier.live.get? seat) (actions seat)
      (parks seat) → phase.InStep (s'.barrier.live.get? seat) (actions seat) (parks seat))
    (hlive : ∀ seat, (s.barrier.live.get? seat).isSome → (s'.barrier.live.get? seat).isSome) :
    InStep actions parks s' := by
  refine ⟨?_, ?_, hsupervised, hrounds, ?_, ?_, ?_⟩
  · rw [hsame.world, hsame.program]
    exact h.ids
  · rw [hsame.world, hsame.program]
    exact h.registry
  · intro seat phase hphase
    rw [hsame.phases] at hphase
    exact hworkers seat phase (h.workers seat phase hphase)
  · intro hsome seat hseat
    rw [hsame.world] at hseat
    rw [hsame.phases]
    refine h.present ?_ seat hseat
    rw [Option.isSome_iff_ne_none] at hsome ⊢
    exact fun hnone => hsome (hsame.crew.mpr hnone)
  · intro hnone seat hseat
    rw [hsame.world] at hseat
    obtain ⟨hsome, hequal⟩ := h.waiting (hsame.crew.mp hnone) seat hseat
    exact ⟨hlive seat hsome, hequal⟩

private theorem InStep.changeBarrier (h : InStep actions parks s) (f : Barrier → Barrier)
    (hlive : (f s.barrier).live = s.barrier.live) (hrounds : (f s.barrier).rounds = s.barrier.rounds)
    (hsupervised : (f s.barrier).supervised = s.barrier.supervised) :
    InStep actions parks (s.changeBarrier f) := by
  have hbarrier : (s.changeBarrier f).barrier = f s.barrier := rfl
  have hsame : SameCrew s (s.changeBarrier f) := ⟨rfl, rfl, fun _ => rfl, Iff.rfl⟩
  apply h.of_sameCrew hsame <;> rw [hbarrier]
  · exact hsupervised.trans h.supervised
  · rw [hlive, hrounds]
    exact h.rounds
  · rw [hlive]
    exact fun _ _ hphase => hphase
  · rw [hlive]
    exact fun _ hsome => hsome

private theorem InStep.grant {s' : Simulation} (h : InStep actions parks s) (hsame : SameCrew s s')
    (hbarrier : s'.barrier = s.barrier.grant) (hmay : s.barrier.mayGrant) :
    InStep actions parks s' := by
  apply h.of_sameCrew hsame <;> rw [hbarrier]
  · exact h.supervised
  · intro seat flag hflag
    rw [Barrier.get?_grant, Option.map_eq_some_iff] at hflag
    obtain ⟨before, hbefore, rfl⟩ := hflag
    have hrounds := h.rounds seat before hbefore
    cases Barrier.parked_of_mayGrant hmay hbefore
    simpa [Barrier.grant] using hrounds
  · exact fun _ _ hphase => hphase.grant hmay
  · intro seat hsome
    simpa [Barrier.get?_grant] using hsome

private theorem InStep.tick (h : InStep actions parks s) (elapsed : Nat) :
    InStep actions parks (s.perform (.tick elapsed)) := by
  cases hcrew : s.crew with
  | none =>
    have hidle : s.perform (.tick elapsed) = s := by simp [perform, changeCrew, hcrew]
    rwa [hidle]
  | some crew =>
    have hsame : SameCrew s (s.perform (.tick elapsed)) := by
      constructor <;> simp [perform, changeCrew, hcrew, Crew.tick, world, phase?]
    have hbarrier : (s.perform (.tick elapsed)).barrier = (crew.loop.advance elapsed s.barrier).2 := by
      simp [perform, changeCrew, hcrew, Crew.tick, barrier]
    rcases LoopPhase.advance_barrier elapsed s.barrier crew.loop with hkept | ⟨hgrant, hmay⟩
    · rw [hkept] at hbarrier
      apply h.of_sameCrew hsame <;> rw [hbarrier]
      · exact h.supervised
      · exact h.rounds
      · exact fun _ _ hphase => hphase
      · exact fun _ hsome => hsome
    · exact h.grant hsame (hbarrier.trans hgrant) hmay

theorem InStep.id_eq (h : InStep actions parks s) {seat : Nat}
    (hseat : seat < s.program.bugs.length) : (s.world.bug seat).id = seat := by
  have hid := congrArg (fun l => l[seat]?) h.ids
  simp only [List.getElem?_map, List.getElem?_range hseat, Option.map_eq_some_iff] at hid
  obtain ⟨bug, hbug, hid⟩ := hid
  simpa [World.bug, hbug] using hid

theorem InStep.live_of_registered (h : InStep actions parks s) {seat : Nat}
    (hmem : seat ∈ s.world.registry) : s.barrier.live.contains seat := by
  cases hcrew : s.crew with
  | none => exact (h.waiting hcrew seat hmem).1
  | some crew =>
    obtain ⟨phase, hphase, hpresent⟩ := h.present (by simp [hcrew]) seat hmem
    refine (h.workers seat phase hphase).isSome_of_ne_gone fun hgone => ?_
    rw [hgone] at hpresent
    cases hpresent

private theorem InStep.start (h : InStep actions parks s) : InStep actions parks s.start := by
  cases hcrew : s.crew with
  | some crew =>
    have hidle : s.start = s := by simp [Simulation.start, hcrew]
    rwa [hidle]
  | none =>
    have hshared : s.start.shared = s.shared ∧ s.start.program = s.program := by
      simp [Simulation.start, hcrew]
    have hworld : s.start.world = s.world := congrArg Shared.world hshared.1
    have hbarrier : s.start.barrier = s.barrier := congrArg Shared.barrier hshared.1
    refine ⟨?_, ?_, ?_, ?_, ?_, ?_, ?_⟩
    · rw [hworld, hshared.2]
      exact h.ids
    · rw [hworld, hshared.2]
      exact h.registry
    · rw [hbarrier]
      exact h.supervised
    · rw [hbarrier]
      exact h.rounds
    · intro seat phase hphase
      obtain ⟨rfl, hmem⟩ := phase?_start_eq_some hcrew hphase
      rw [hbarrier]
      exact h.waiting hcrew seat hmem
    · intro _ seat hmem
      rw [hworld] at hmem
      have hlt := h.registry seat hmem
      exact ⟨.entering, phase?_start hcrew hmem (by rwa [h.id_eq hlt]), rfl⟩
    · intro hnone
      simp [Simulation.start, hcrew] at hnone

private theorem InStep.join (h : InStep actions parks s) : InStep actions parks s.join := by
  simp only [Simulation.join]
  split
  next hended =>
    refine ⟨h.ids, h.registry, h.supervised, h.rounds, ?_, ?_, ?_⟩
    · intro seat phase hphase
      simp [phase?] at hphase
    · intro hsome
      simp at hsome
    · intro _ seat hmem
      cases hcrew : s.crew with
      | none => exact h.waiting hcrew seat hmem
      | some crew =>
        obtain ⟨phase, hphase, hpresent⟩ := h.present (by simp [hcrew]) seat hmem
        have hgone := phase?_of_hasEnded hcrew (by simpa [hcrew] using hended) hphase
        simp [hgone, Phase.isPresent] at hpresent
  next => exact h

private theorem acts_work (s : Simulation) (seat i : Nat) :
    acts i s (.work seat) = (decide (i = seat) && s.isActing i) := by
  by_cases hi : i = seat
  · simp [acts, hi]
  · simp [acts, hi, Ne.symm hi]

private theorem parksAt_work (s : Simulation) (seat i : Nat) :
    parksAt i s (.work seat) = (decide (i = seat) && s.isParking i) := by
  by_cases hi : i = seat
  · simp [parksAt, hi]
  · simp [parksAt, hi, Ne.symm hi]

/-- A step of a worker keeps everybody in step, its own action or parking counted. -/
private theorem InStep.work (h : InStep actions parks s) (seat : Nat) :
    InStep (fun i => actions i + (acts i s (.work seat)).toNat)
      (fun i => parks i + (parksAt i s (.work seat)).toNat) (s.perform (.work seat)) := by
  simp only [acts_work, parksAt_work]
  cases hphase : s.phase? seat with
  | none =>
    have hzero (i : Nat) (f : Phase → Bool) :
        (decide (i = seat) && (s.phase? i).any f).toNat = 0 := by
      by_cases hi : i = seat
      · simp [hi, hphase]
      · simp [hi]
    simpa [perform_work_of_none hphase, isActing, isParking, hzero] using h
  | some phase =>
    obtain ⟨phase', hmove, hprogram, hcrew, hphases⟩ := perform_work_of_some hphase
    have hown (f : Phase → Bool) : (s.phase? seat).any f = f phase := by simp [hphase]
    have hrounds : (s.perform (.work seat)).barrier.rounds = s.barrier.rounds := hmove.rounds.1
    have hsupervised := hmove.rounds.2.trans h.supervised
    have hstep := (h.workers seat phase hphase).move h.supervised hmove
    refine ⟨?_, ?_, hsupervised, ?_, ?_, ?_, ?_⟩
    · rw [hprogram]
      exact hmove.ids.trans h.ids
    · intro i hi
      rw [hprogram]
      exact h.registry i (hmove.registry hi).1
    · intro i flag hflag
      rw [hrounds]
      by_cases hseat : i = seat
      · subst hseat
        obtain ⟨before, hbefore, hsum⟩ := hmove.flag (h.workers i phase hphase) hflag
        have hequal := h.rounds i before hbefore
        simp only [decide_true, Bool.true_and, isParking, hown]
        omega
      · have hbefore := (hmove.live_of_ne hseat).symm.trans hflag
        simpa [hseat] using h.rounds i flag hbefore
    · intro i phase'' hi
      rw [hphases] at hi
      by_cases hseat : i = seat
      · subst hseat
        simp only [if_true, Option.some.injEq] at hi
        subst hi
        simpa [isActing, isParking, hown, barrier] using hstep
      · have hlive := hmove.live_of_ne hseat
        simp only [hseat, if_false] at hi
        simpa [hseat, barrier, hlive] using h.workers i phase'' hi
    · intro _ i hi
      obtain ⟨hmem, hleaving⟩ := hmove.registry hi
      obtain ⟨phase'', hphase'', hpresent⟩ :=
        h.present (by cases hs : s.crew <;> simp_all [phase?]) i hmem
      rw [hphases]
      by_cases hseat : i = seat
      · subst hseat
        cases hphase.symm.trans hphase''
        refine ⟨phase', by simp, hmove.isPresent hpresent ?_⟩
        exact fun hleave => hleaving hleave rfl
      · exact ⟨phase'', by simpa [hseat] using hphase'', hpresent⟩
    · intro hnone
      simp [hnone] at hcrew

/-- Every event but a reset keeps everybody in step. -/
theorem InStep.perform (h : InStep actions parks s) (e : Event) (he : e ≠ .command .reset) :
    InStep (fun i => actions i + (acts i s e).toNat) (fun i => parks i + (parksAt i s e).toNat)
      (s.perform e) := by
  cases e with
  | work seat => exact h.work seat
  | tick elapsed => simpa [acts, parksAt] using h.tick elapsed
  | command c =>
    have hcommand : InStep actions parks (s.obey c) := by
      cases c with
      | start => exact h.start
      | run => exact h.changeBarrier _ rfl rfl rfl
      | pause => exact h.changeBarrier _ rfl rfl rfl
      | step => exact h.changeBarrier _ rfl rfl rfl
      | kill => exact h.changeBarrier _ rfl rfl rfl
      | join => exact h.join
      | setPause milliseconds =>
        have hchanged := h.changeBarrier (·.setPause milliseconds) rfl rfl rfl
        exact ⟨hchanged.ids, hchanged.registry, hchanged.supervised, hchanged.rounds,
          hchanged.workers, hchanged.present, hchanged.waiting⟩
      | reset => exact absurd rfl he
    simpa [acts, parksAt, Simulation.perform] using hcommand

theorem InStep.performAll_of {s : Simulation} (h : InStep (fun _ => 0) (fun _ => 0) s)
    (events : List Event) (hreset : .command .reset ∉ events) :
    InStep (fun i => Simulation.actions i s events) (fun i => Simulation.parks i s events)
      (s.performAll events) := by
  induction events using List.reverseRecOn with
  | nil => exact h
  | append_singleton events e ih =>
    simp only [List.mem_append, List.mem_singleton, not_or] at hreset
    have hbefore := ih hreset.1
    have hafter := hbefore.perform e (Ne.symm hreset.2)
    rw [performAll_concat]
    simpa only [Simulation.actions, Simulation.parks, count_concat] using hafter

/-- In every run without a reset everybody is in step. -/
theorem InStep.performAll {program : Program} {config : RunConfig} {s : Simulation}
    (hs : Simulation.create program config = .ok s) (events : List Event)
    (hreset : .command .reset ∉ events) :
    InStep (fun i => Simulation.actions i s events) (fun i => Simulation.parks i s events)
      (s.performAll events) :=
  (InStep.create hs).performAll_of events hreset

theorem InStep.begins {program : Program} {s : Simulation} (h : Begins program s) :
    InStep (fun _ => 0) (fun _ => 0) s := by
  obtain ⟨idle, hcrew, rfl, henrolled, ⟨rfl, -⟩ | rfl⟩ := h.enrolled
  · exact InStep.enrolled hcrew henrolled
  · exact (InStep.enrolled hcrew henrolled).start

/-- What holds at a beginning and is kept by every event while everybody is in step holds all
through a run without a reset. -/
theorem Begins.invariant {program : Program} {s : Simulation} (hs : Begins program s)
    {I : Simulation → Prop} (hbegin : I s)
    (hkeeps : ∀ {actions parks : Nat → Nat} {s : Simulation} {e : Event},
      InStep actions parks s → e ≠ .command .reset → I s → I (s.perform e))
    (events : List Event) (hreset : .command .reset ∉ events) : I (s.performAll events) := by
  induction events using List.reverseRecOn with
  | nil => exact hbegin
  | append_singleton events e ih =>
    simp only [List.mem_append, List.mem_singleton, not_or] at hreset
    have hstep := (InStep.begins hs).performAll_of events hreset.1
    rw [performAll_concat]
    exact hkeeps hstep (Ne.symm hreset.2) (ih hreset.1)

theorem drawsAt_eq (seat : Nat) (s : Simulation) (e : Event) :
    drawsAt seat s e = decide (e = .work seat ∧ s.isDrawing seat) := by
  by_cases he : e = .work seat
  · subst he
    cases hphase : s.phase? seat with
    | none => simp [drawsAt, perform_work_of_none hphase, isDrawing, hphase]
    | some phase =>
      obtain ⟨phase', hmove, _, _, _⟩ := perform_work_of_some hphase
      have hlines := hmove.lines
      simp only [drawsAt, world, isDrawing, hphase, Option.any_some, true_and, hlines]
      cases phase.isDrawing <;> simp
  · simp [drawsAt, he]

private theorem isDrawing_perform {seat : Nat} {s : Simulation} {e : Event}
    (hreset : e ≠ .command .reset) (h : (s.perform e).isDrawing seat) :
    if e = .work seat then s.isActing seat else s.isDrawing seat := by
  obtain ⟨phase', hphase', hdrawing⟩ := (Option.any_eq_true _ _).mp h
  split
  next he =>
    subst he
    cases hphase : s.phase? seat with
    | none => simp [perform_work_of_none hphase, hphase] at hphase'
    | some phase =>
      obtain ⟨next, hmove, _, _, hphases⟩ := perform_work_of_some hphase
      have hnext : next = phase' := by simpa [hphases] using hphase'
      have hacting := hmove.isActing_of_isDrawing (hnext ▸ hdrawing)
      simpa [isActing, hphase] using hacting
  next he =>
    rcases phase?_perform_of_ne he hreset with hsame | hentering | hnone
    · rw [isDrawing, ← hsame, hphase']
      exact hdrawing
    · rw [hentering] at hphase'
      cases hphase'
      simp [Phase.isDrawing] at hdrawing
    · simp [hnone] at hphase'

theorem rounds_le_perform (s : Simulation) {e : Event} (hreset : e ≠ .command .reset) :
    s.barrier.rounds ≤ (s.perform e).barrier.rounds := by
  cases e with
  | work seat =>
    cases hphase : s.phase? seat with
    | none => exact Nat.le_of_eq (by rw [perform_work_of_none hphase])
    | some phase =>
      obtain ⟨_, hmove, _, _, _⟩ := perform_work_of_some hphase
      exact Nat.le_of_eq hmove.rounds.1.symm
  | tick elapsed =>
    cases hcrew : s.crew with
    | none => simp [perform, changeCrew, hcrew]
    | some crew =>
      have hbarrier : (s.perform (.tick elapsed)).barrier =
          (crew.loop.advance elapsed s.barrier).2 := by
        simp [perform, changeCrew, hcrew, Crew.tick, barrier]
      rw [hbarrier]
      rcases LoopPhase.advance_barrier elapsed s.barrier crew.loop with hkept | ⟨hgrant, _⟩
      · exact Nat.le_of_eq (by rw [hkept])
      · simp [hgrant, Barrier.grant]
  | command c =>
    cases c with
    | start => cases hcrew : s.crew <;> simp [perform, obey, start, hcrew, barrier]
    | join =>
      simp only [perform, obey, join]
      split <;> exact Nat.le_refl _
    | reset => exact absurd rfl hreset
    | _ => exact Nat.le_refl _

private theorem rounds_le_performAll (s : Simulation) {events : List Event}
    (hreset : .command .reset ∉ events) : s.barrier.rounds ≤ (s.performAll events).barrier.rounds := by
  induction events generalizing s with
  | nil => exact Nat.le_refl _
  | cons e events ih =>
    simp only [List.mem_cons, not_or] at hreset
    exact Nat.le_trans (s.rounds_le_perform (Ne.symm hreset.1)) (ih (s.perform e) hreset.2)

private theorem InStep.rounds_of_isBusy (h : InStep actions parks s) {seat : Nat}
    (hbusy : s.isBusy seat) : s.barrier.rounds = actions seat + 1 := by
  obtain ⟨phase, hphase, hbusy⟩ := (Option.any_eq_true _ _).mp hbusy
  obtain ⟨hflag, hsame⟩ := (h.workers seat phase hphase).of_isBusy hbusy
  have hrounds := h.rounds seat false hflag
  simp only [Bool.not_false, Bool.toNat_true] at hrounds
  omega

private theorem InStep.rounds_of_isDrawing (h : InStep actions parks s) {seat : Nat}
    (hdrawing : s.isDrawing seat) : s.barrier.rounds = actions seat := by
  obtain ⟨phase, hphase, hdrawing⟩ := (Option.any_eq_true _ _).mp hdrawing
  obtain ⟨hflag, hsame⟩ := (h.workers seat phase hphase).of_isDrawing hdrawing
  have hrounds := h.rounds seat false hflag
  simp only [Bool.not_false, Bool.toNat_true] at hrounds
  omega

private theorem isBusy_of_isActing {s : Simulation} {seat : Nat} (h : s.isActing seat) :
    s.isBusy seat := by
  obtain ⟨phase, hphase, hacting⟩ := (Option.any_eq_true _ _).mp h
  cases phase with
  | running m => cases hm : m.focus <;> simp_all [isBusy, Phase.isBusy, Phase.isActing]
  | _ => simp [Phase.isActing] at hacting

/-- As long as no round is granted a bug draws at most once; and when it has, it has acted in this
round and is not about to draw again. -/
private theorem linesBy_cases {program : Program} {config : RunConfig} {s : Simulation}
    (hs : Simulation.create program config = .ok s) (seat : Nat) (before during : List Event)
    (hreset : .command .reset ∉ before ++ during)
    (hrounds : (s.performAll (before ++ during)).barrier.rounds = (s.performAll before).barrier.rounds) :
    linesBy seat (s.performAll before) during = 0 ∨
      linesBy seat (s.performAll before) during = 1 ∧
        (s.performAll (before ++ during)).barrier.rounds ≤
          Simulation.actions seat s (before ++ during) ∧
        (s.performAll (before ++ during)).isDrawing seat = false := by
  induction during using List.reverseRecOn with
  | nil => exact .inl rfl
  | append_singleton during e ih =>
    rw [← List.append_assoc] at hreset hrounds ⊢
    rw [List.mem_append, List.mem_singleton, not_or] at hreset
    obtain ⟨hbefore, he⟩ := hreset
    have hstep := InStep.performAll hs (before ++ during) hbefore
    have hduring : .command .reset ∉ during := fun h => hbefore (List.mem_append_right _ h)
    have hle := (s.performAll before).rounds_le_performAll hduring
    have hle' := (s.performAll (before ++ during)).rounds_le_perform (Ne.symm he)
    rw [performAll_concat] at hrounds ⊢
    rw [← performAll_append] at hle
    have hcount := count_concat (drawsAt seat) (s.performAll before) during e
    rw [← performAll_append] at hcount
    simp only [Simulation.actions, count_concat]
    simp only [linesBy] at ih ⊢
    rw [hcount]
    have hdrawn := ih hbefore (by omega)
    cases hdraws : drawsAt seat (s.performAll (before ++ during)) e with
    | true =>
      rw [drawsAt_eq, decide_eq_true_eq] at hdraws
      obtain ⟨rfl, hdrawing⟩ := hdraws
      have hactions := hstep.rounds_of_isDrawing hdrawing
      simp only [Simulation.actions] at hactions
      rcases hdrawn with hzero | ⟨_, _, hnot⟩
      · refine .inr ⟨by simp [hzero], by omega, ?_⟩
        -- The next line would need an action in between, and there is one a round.
        by_contra hagain
        have hacting := isDrawing_perform (Ne.symm he) (by simpa using hagain)
        rw [if_pos rfl] at hacting
        have hbusy := hstep.rounds_of_isBusy (isBusy_of_isActing hacting)
        simp only [Simulation.actions] at hbusy
        omega
      · simp [hdrawing] at hnot
    | false =>
      rcases hdrawn with hzero | ⟨hone, hacted, hnot⟩
      · exact .inl (by simp [hzero])
      · refine .inr ⟨by simp [hone], by simp only [Simulation.actions] at hacted; omega, ?_⟩
        by_contra hagain
        have hfrom := isDrawing_perform (Ne.symm he) (by simpa using hagain)
        split at hfrom
        · have hbusy := hstep.rounds_of_isBusy (isBusy_of_isActing hfrom)
          omega
        · simp [hfrom] at hnot

/-- **Lockstep.** In every run without a reset: while a bug that has carried out `k` visible actions
is on the way to the next one, and when it carries it out, exactly `k + 1` rounds have been
granted, and every other bug, live from the start, has parked after its `k`-th action or has left
the live ones; when it draws the line of its last action the round is still that of the action;
and as long as no further round is granted it appends at most one line to the log. -/
theorem rounds_in_lockstep {program : Program} {config : RunConfig} {s : Simulation}
    (hs : Simulation.create program config = .ok s) (events : List Event)
    (hreset : .command .reset ∉ events) (seat k : Nat)
    (hk : Simulation.actions seat s events = k) :
    ((s.performAll events).isActing seat → (s.performAll events).barrier.rounds = k + 1) ∧
      ((s.performAll events).isDrawing seat → (s.performAll events).barrier.rounds = k) ∧
      ((s.performAll events).isBusy seat → (s.performAll events).barrier.rounds = k + 1 ∧
        ∀ other < program.bugs.length, s.barrier.live.contains other ∧
          (k ≤ Simulation.parks other s events ∨
            (s.performAll events).barrier.live.contains other = false)) ∧
      ∀ during, .command .reset ∉ during →
        ((s.performAll events).performAll during).barrier.rounds = (s.performAll events).barrier.rounds →
        linesBy seat (s.performAll events) during ≤ 1 := by
  have hstep := InStep.performAll hs events hreset
  subst hk
  refine ⟨fun h => hstep.rounds_of_isBusy (isBusy_of_isActing h), hstep.rounds_of_isDrawing, ?_, ?_⟩
  · intro hbusy
    have hrounds := hstep.rounds_of_isBusy hbusy
    refine ⟨hrounds, fun other hother => ⟨?_, ?_⟩⟩
    · simp [Table.contains, live_create hs, hother]
    · cases hflag : (s.performAll events).barrier.live.get? other with
      | none => exact .inr (by simp [Table.contains, hflag])
      | some flag =>
        have hparks := hstep.rounds other flag hflag
        have hflag_le : (!flag).toNat ≤ 1 := Bool.toNat_le _
        exact .inl (by omega)
  · intro during hduring hrounds
    rw [← performAll_append] at hrounds
    have hboth : .command .reset ∉ events ++ during := by
      simp only [List.mem_append, not_or]
      exact ⟨hreset, hduring⟩
    rcases linesBy_cases hs seat events during hboth hrounds with hzero | ⟨hone, _, _⟩ <;> omega

/-- A bug whose only statement moves it by one. -/
private def walker : Tree :=
  .labeled "Bug" [.labeled "a" [], .labeled "list" [], .labeled "initially" [],
    .labeled "block" [.labeled "move" [.labeled "1.0" []]], .labeled "list" []]

private def twoWalkers : Program := ⟨.labeled "program" [], .labeled "list" [], [walker, walker]⟩

/-- The first bug is brought to its first action after the first grant. -/
private def firstAction : List Event := .command .start :: .tick 0 :: List.replicate 18 (.work 0)

theorem rounds_in_lockstep_walkers :
    ∃ s, Simulation.create twoWalkers ⟨0, true⟩ = .ok s ∧
      (s.performAll firstAction).isActing 0 = true ∧
      (s.performAll firstAction).barrier.rounds = 1 := by
  have hacting : ∃ s, Simulation.create twoWalkers ⟨0, true⟩ = .ok s ∧
      Simulation.actions 0 s firstAction = 0 ∧ (s.performAll firstAction).isActing 0 = true :=
    ⟨_, rfl, by decide +kernel⟩
  obtain ⟨s, hs, hnone, hacting⟩ := hacting
  exact ⟨s, hs, hacting,
    (rounds_in_lockstep hs firstAction (by decide +kernel) 0 0 hnone).1 hacting⟩

end Simulation

end DrawingBugs
