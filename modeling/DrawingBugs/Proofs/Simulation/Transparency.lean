import DrawingBugs.Proofs.Simulation.Code
import DrawingBugs.Proofs.Simulation.Progress

/-!
# Transparency of the scheduling

A bug of an independent program cannot tell a simulation from a world of its own. Its machine in
the simulation is at every moment the machine that runs its definition alone, some number of steps
from the beginning: its own steps are steps of that machine, or it waits for a permit; the steps of
others and all commands but a kill leave what it depends on alone. So what it shows when it parks
is what it shows alone, and so is its outcome.
-/

namespace DrawingBugs

/-- What a bug shows when it parks: its look, and the lines drawn since it last parked. -/
structure Sighting where
  look : Look
  strokes : List Stroke

/-- The lines that were drawn on the way from one world to another. -/
def World.drawnSince (before after : World) : List Stroke := after.strokes.drop before.strokes.length

private theorem World.drawnSince_of_append {before after : World} {strokes : List Stroke}
    (h : after.strokes = before.strokes ++ strokes) : before.drawnSince after = strokes := by
  rw [drawnSince, h, List.drop_left]

/-- The message of an outcome that is a failure. -/
def Outcome.failure? : Outcome → Option String
  | .fault e => some e.message
  | _ => none

namespace Machine

/-- What the bug at a seat shows while its machine runs alone for at most `fuel` steps, with these
lines already drawn since it last parked. -/
def sightings (seat : Nat) : Nat → List Stroke → Machine → Shared → List Sighting
  | 0, _, _, _ => []
  | fuel + 1, drawn, m, s =>
    match m.outcome? with
    | some _ => []
    | none =>
      let (m', s') := m.step seat s
      let drawn := drawn ++ s.world.drawnSince s'.world
      if (Phase.running m).isParking then
        ⟨(s'.world.bug seat).look, drawn⟩ :: sightings seat fuel [] m' s'
      else sightings seat fuel drawn m' s'

private theorem run_of_ongoing {seat : Nat} {m : Machine} (h : m.outcome? = none) (n : Nat)
    (s : Shared) : run seat (n + 1) m s = run seat n (m.step seat s).1 (m.step seat s).2 := by
  simp only [run, h]

private theorem sightings_isPrefix (seat : Nat) {n k : Nat} (h : n ≤ k) (drawn : List Stroke)
    (m : Machine) (s : Shared) : sightings seat n drawn m s <+: sightings seat k drawn m s := by
  induction n generalizing k drawn m s with
  | zero => exact List.nil_prefix
  | succ n ih =>
    obtain ⟨k, rfl⟩ : ∃ k', k = k' + 1 := ⟨k - 1, by omega⟩
    have hle : n ≤ k := by omega
    cases houtcome : m.outcome? with
    | some outcome => simp [sightings, houtcome]
    | none =>
      simp only [sightings, houtcome]
      split
      · exact List.prefix_cons_inj _ |>.mpr (ih hle _ _ _)
      · exact ih hle _ _ _

private theorem sightings_of_outcome (seat : Nat) {n k : Nat} (h : n ≤ k) (drawn : List Stroke)
    (m : Machine) (s : Shared) {outcome : Outcome}
    (houtcome : (run seat n m s).1.outcome? = some outcome) :
    run seat k m s = run seat n m s ∧ sightings seat k drawn m s = sightings seat n drawn m s := by
  induction n generalizing k drawn m s with
  | zero =>
    have hover : m.outcome? = some outcome := houtcome
    cases k with
    | zero => exact ⟨rfl, rfl⟩
    | succ k => simp [run, sightings, hover]
  | succ n ih =>
    obtain ⟨k, rfl⟩ : ∃ k', k = k' + 1 := ⟨k - 1, by omega⟩
    have hle : n ≤ k := by omega
    cases hover : m.outcome? with
    | some _ => simp [run, sightings, hover]
    | none =>
      simp only [run, hover] at houtcome
      simp only [run, sightings, hover]
      refine ⟨(ih hle drawn _ _ houtcome).1, ?_⟩
      split
      · rw [(ih hle [] _ _ houtcome).2]
      · exact (ih hle _ _ _ houtcome).2

end Machine

namespace Phase

/-- The line that a worker is about to draw. -/
def strokes : Phase → List Stroke
  | .running m => m.focus.strokes
  | _ => []

/-- The message of the failure that a worker is about to record. -/
def reports : Phase → List String
  | .failing e => [e.message]
  | _ => []

private theorem strokes_step (seat : Nat) (definition : Tree) (s : Shared) (phase : Phase) :
    (phase.step seat definition s).2.world.strokes = s.world.strokes ++ phase.strokes := by
  cases phase with
  | running m =>
    simp only [step]
    split
    · next houtcome =>
      have hnone : m.focus.strokes = [] := by
        cases hm : m.focus <;> simp_all [Focus.strokes, Machine.outcome?]
      simp [strokes, hnone]
    · exact m.strokes_step seat s
  | _ => simp [step, strokes, World.strokes, World.recordFailure, World.leave]

private theorem reports_step (seat : Nat) (definition : Tree) (s : Shared) (phase : Phase) :
    (phase.step seat definition s).2.world.failures.map Failure.message =
      s.world.failures.map Failure.message ++ phase.reports := by
  have hmove := step_move seat definition s phase
  generalize (phase.step seat definition s).1 = phase', (phase.step seat definition s).2 = s' at hmove
  cases hmove with
  | run _ hmove =>
    cases hmove with
    | compute _ _ hkeeps => simp [reports, hkeeps.failures]
    | act _ _ hkeeps => simp [reports, hkeeps.failures]
    | _ => simp [reports, World.draw]
  | record e => simp [reports, World.recordFailure]
  | _ => simp [reports, World.leave]

private theorem Plays.step_spares {R : Roles} {phase : Phase} (h : phase.Plays R) (seat : Nat)
    (definition : Tree) (s : Shared) :
    World.Spares R seat s.world (phase.step seat definition s).2.world := by
  cases phase with
  | running m =>
    simp only [Phase.step]
    split
    · exact .refl _
    · exact Machine.Plays.step_spares h seat s
  | failing | leaving => exact ⟨rfl, fun _ _ => rfl, rfl, rfl, fun _ _ => rfl⟩
  | entering | departing | gone => exact .refl _

end Phase

namespace Simulation

/-- The lines that an event draws if it is a step of the bug at a seat. -/
def drawnBy (seat : Nat) (s : Simulation) (e : Event) : List Stroke :=
  if e = .work seat then s.world.drawnSince (s.perform e).world else []

/-- The messages that an event records if it is a step of the bug at a seat. -/
def reportedBy (seat : Nat) (s : Simulation) (e : Event) : List String :=
  if e = .work seat then
    ((s.perform e).world.failures.drop s.world.failures.length).map Failure.message
  else []

/-- What the bug at a seat shows in a run, with these lines already drawn since it last parked. -/
def sightings (seat : Nat) : List Stroke → Simulation → List Event → List Sighting
  | _, _, [] => []
  | drawn, s, e :: events =>
    let drawn := drawn ++ drawnBy seat s e
    if parksAt seat s e then
      ⟨((s.perform e).world.bug seat).look, drawn⟩ :: sightings seat [] (s.perform e) events
    else sightings seat drawn (s.perform e) events

/-- The messages of the failures that the bug at a seat records in a run. -/
def reports (seat : Nat) : Simulation → List Event → List String
  | _, [] => []
  | s, e :: events => reportedBy seat s e ++ reports seat (s.perform e) events

/-! ## Steps of a worker -/

section Work

variable {s : Simulation} {seat : Nat} {worker : Worker} (h : s.worker? seat = some worker)
include h

private theorem drawnBy_work : drawnBy seat s (.work seat) = worker.phase.strokes := by
  obtain ⟨hshared, -⟩ := perform_work_of_worker h
  rw [drawnBy, if_pos rfl]
  apply World.drawnSince_of_append
  rw [world, hshared]
  exact worker.phase.strokes_step seat worker.definition s.shared

private theorem reportedBy_work : reportedBy seat s (.work seat) = worker.phase.reports := by
  obtain ⟨hshared, -⟩ := perform_work_of_worker h
  have hfailures := worker.phase.reports_step seat worker.definition s.shared
  rw [reportedBy, if_pos rfl, List.map_drop, world, world, hshared, hfailures]
  exact List.drop_left' (List.length_map _)

private theorem parksAt_of_worker : parksAt seat s (.work seat) = worker.phase.isParking := by
  simp [parksAt, isParking, phase?_eq_map, h]

private theorem phase?_work :
    (s.perform (.work seat)).phase? seat =
      some (worker.phase.step seat worker.definition s.shared).1 := by
  obtain ⟨-, -, -, -, hworkers⟩ := perform_work_of_worker h
  rw [phase?_eq_map, hworkers, if_pos rfl, Option.map_some]

private theorem world_work :
    (s.perform (.work seat)).world = (worker.phase.step seat worker.definition s.shared).2.world := by
  rw [world, (perform_work_of_worker h).1]

private theorem registry_work (hleaving : worker.phase ≠ .leaving) :
    (s.perform (.work seat)).world.registry = s.world.registry := by
  rw [world_work h]
  exact (worker.phase.step_move seat worker.definition s.shared).registry_eq hleaving

end Work

/-! ## Runs of an independent program -/

/-- The bugs of a simulation are independent: everybody executes its own code, only declared
variables are shared, and there was no kill. -/
structure Independent (s : Simulation) : Prop where
  program : s.program.Independent
  inStep : ∃ actions parks, InStep actions parks s
  plays : s.Plays (Roles.code s.program)
  posted : ∀ seat worker, s.worker? seat = some worker →
    s.program.bugs[seat]? = some worker.definition
  declared : ∀ name, s.world.globals.contains name → name ∈ World.declaredNames s.program.allbugs
  ongoing : s.barrier.killed = false

private theorem contains_of_foldl_insert {names : List String} {t : Table String Float}
    {name : String} (h : (names.foldl (fun t name => t.insert name 0.0) t).contains name) :
    name ∈ names ∨ t.contains name := by
  induction names generalizing t with
  | nil => exact .inr h
  | cons first names ih =>
    rw [List.mem_cons]
    rcases ih h with hmem | hcontains
    · exact .inl (.inr hmem)
    · by_cases hfirst : first = name
      · exact .inl (.inl hfirst.symm)
      · exact .inr (by simpa [Table.contains, hfirst] using hcontains)

private theorem declared_of_ofAllbugs {allbugs : Tree} {w : World}
    (h : World.ofAllbugs allbugs = .ok w) {name : String}
    (hname : w.globals.contains name) : name ∈ World.declaredNames allbugs := by
  simp only [World.ofAllbugs] at h
  split at h
  · cases h
  · obtain ⟨functions, -, h⟩ := bind_eq_ok.mp h
    cases h
    exact (contains_of_foldl_insert hname).resolve_right (by simp [Table.contains, Table.get?])

private theorem bugs_ofAllbugs {allbugs : Tree} {w : World} (h : World.ofAllbugs allbugs = .ok w) :
    w.bugs = [] :=
  List.eq_nil_of_length_eq_zero (@ofAllbugs_enrolled _ _ 0 false h).length

private theorem build_newborn {program : Program} {config : RunConfig} {s : Shared}
    (h : build program config = .ok s) :
    (∀ b ∈ s.world.bugs, b.look = (Bug.newborn 0 "").look) ∧ s.barrier.killed = false := by
  obtain ⟨w, hw, h⟩ := bind_eq_ok.mp h
  refine foldlM_enroll (P := fun s =>
    (∀ b ∈ s.world.bugs, b.look = (Bug.newborn 0 "").look) ∧ s.barrier.killed = false)
    (fun s name hs => ⟨fun b hb => ?_, hs.2⟩) ⟨fun b hb => ?_, rfl⟩ h
  · rcases List.mem_append.mp hb with hb | hb
    · exact hs.1 b hb
    · rw [List.mem_singleton.mp hb]
      rfl
  · rw [bugs_ofAllbugs hw] at hb
    cases hb

private theorem Independent.create {program : Program} {config : RunConfig} {s : Simulation}
    (hprogram : program.Independent) (hshaped : program.IsShaped) (hparsed : program.IsParsed)
    (hs : Simulation.create program config = .ok s) : Independent s := by
  have hplays := Plays.create (hprogram.plays hshaped hparsed) hs
  have hstep := InStep.create hs
  obtain ⟨hbuild, rfl, -, hcrew, -⟩ := create_eq_ok hs
  obtain ⟨w, hw, -, hglobals⟩ := build_world hbuild
  refine ⟨hprogram, ⟨_, _, hstep⟩, hplays, fun seat worker hworker => ?_, fun name hname => ?_,
    (build_newborn hbuild).2⟩
  · simp [worker?, hcrew] at hworker
  · rw [world, hglobals] at hname
    exact declared_of_ofAllbugs hw hname

variable {s : Simulation} {e : Event}

private theorem Independent.id_eq (h : Independent s) {seat : Nat} {definition : Tree}
    (hdefinition : s.program.bugs[seat]? = some definition) : (s.world.bug seat).id = seat := by
  obtain ⟨actions, parks, hstep⟩ := h.inStep
  exact hstep.id_eq (List.getElem?_eq_some_iff.mp hdefinition).1

private theorem Independent.spares (h : Independent s) {seat : Nat} {worker : Worker}
    (hworker : s.worker? seat = some worker) :
    World.Spares (Roles.code s.program worker.definition) seat s.world
      (s.perform (.work seat)).world := by
  rw [world, world, (perform_work_of_worker hworker).1]
  exact (h.plays.workers seat worker hworker).2.step_spares seat worker.definition s.shared

private theorem Independent.posted_perform (h : Independent s) (hreset : e ≠ .command .reset)
    {seat : Nat} {worker : Worker} (hworker : (s.perform e).worker? seat = some worker) :
    s.program.bugs[seat]? = some worker.definition := by
  by_cases hwork : e = .work seat
  · subst hwork
    cases hbefore : s.worker? seat with
    | none =>
      rw [perform_work_of_idle hbefore, hbefore] at hworker
      cases hworker
    | some before =>
      obtain ⟨-, -, -, -, hworkers⟩ := perform_work_of_worker hbefore
      rw [hworkers, if_pos rfl] at hworker
      cases hworker
      exact h.posted seat before hbefore
  · rcases worker?_perform_of_ne hwork hreset hworker with hsame | ⟨-, -, -, hmem, hdefinition⟩
    · exact h.posted seat worker hsame
    · obtain ⟨actions, parks, hstep⟩ := h.inStep
      rwa [hstep.id_eq (hstep.registry seat hmem)] at hdefinition

private theorem Independent.perform (h : Independent s) (hkill : e ≠ .command .kill)
    (hreset : e ≠ .command .reset) : Independent (s.perform e) := by
  have hprogram := s.program_perform e
  obtain ⟨actions, parks, hstep⟩ := h.inStep
  refine ⟨hprogram ▸ h.program, ⟨_, _, hstep.perform e hreset⟩, ?_, fun seat worker hworker => ?_,
    fun name hname => ?_, ?_⟩
  · rw [hprogram]
    exact h.plays.perform (fun hkilled => by simp [h.ongoing] at hkilled) e
  · rw [hprogram]
    exact h.posted_perform hreset hworker
  · rw [hprogram]
    apply h.declared
    rw [Table.contains_iff_mem_keys] at hname ⊢
    by_cases hwork : ∃ seat, e = .work seat
    · obtain ⟨seat, rfl⟩ := hwork
      cases hworker : s.worker? seat with
      | none => rwa [perform_work_of_idle hworker] at hname
      | some worker => rwa [(h.spares hworker).keys] at hname
    · rwa [(perform_world (s := s) (fun seat he => hwork ⟨seat, he⟩) hreset).1] at hname
  · rw [(s.perform_barrierMove hreset).killed_eq hkill]
    exact h.ongoing

/-- What a bug depends on survives the steps of others and all commands. -/
private theorem Independent.agrees_perform (h : Independent s) {seat : Nat} {definition : Tree}
    (hdefinition : s.program.bugs[seat]? = some definition) {w : World}
    (hagrees : World.Agrees (Roles.code s.program definition) seat s.world 0 w)
    (hwork : e ≠ .work seat) (hreset : e ≠ .command .reset) :
    World.Agrees (Roles.code s.program definition) seat (s.perform e).world 0 w := by
  by_cases hother : ∃ other, e = .work other
  · obtain ⟨other, rfl⟩ := hother
    cases hworker : s.worker? other with
    | none => rwa [perform_work_of_idle hworker]
    | some worker =>
      have hne : seat ≠ other := fun he => hwork (by rw [he])
      have hspares := h.spares hworker
      refine ⟨hspares.count ▸ hagrees.seated, hagrees.seated', ?_, fun name hname => ?_, ?_⟩
      · rw [hspares.others seat hne]
        exact hagrees.look
      · rw [← hagrees.globals name hname]
        by_cases htarget : (Roles.code s.program worker.definition).target name
        · -- A name that the other bug may assign to and this one reads is not shared at all.
          obtain ⟨i, hi, rfl⟩ := List.getElem?_eq_some_iff.mp hdefinition
          obtain ⟨j, hj⟩ := List.getElem?_eq_some_iff.mp (h.posted other worker hworker)
          have hundeclared : ¬ s.world.globals.contains name := fun hcontains =>
            h.program.apart ⟨other, j⟩ ⟨seat, i⟩ (by simpa using Ne.symm hne) name
              (h.declared name hcontains) (by simpa [hj] using htarget.1) hname
          have hafter : ¬ (s.perform (.work other)).world.globals.contains name := by
            rw [Table.contains_iff_mem_keys] at hundeclared ⊢
            rwa [hspares.keys]
          simp only [Table.contains, Option.not_isSome_iff_eq_none] at hundeclared hafter
          rw [hundeclared, hafter]
        · exact hspares.globals name htarget
      · rw [hspares.functions]
        exact hagrees.functions
  · rw [(perform_world (s := s) (fun other he => hother ⟨other, he⟩) hreset).1]
    exact hagrees

private theorem Independent.registry_perform (h : Independent s) {seat : Nat} {definition : Tree}
    (hdefinition : s.program.bugs[seat]? = some definition) (hwork : e ≠ .work seat)
    (hreset : e ≠ .command .reset) :
    seat ∈ (s.perform e).world.registry ↔ seat ∈ s.world.registry := by
  by_cases hother : ∃ other, e = .work other
  · obtain ⟨other, rfl⟩ := hother
    have hne : seat ≠ other := fun he => hwork (by rw [he])
    cases hworker : s.worker? other with
    | none => rw [perform_work_of_idle hworker]
    | some worker =>
      rw [world, (perform_work_of_worker hworker).1]
      have hmove := worker.phase.step_move other worker.definition s.shared
      refine ⟨fun hmem => (hmove.registry hmem).1, hmove.mem_registry ?_⟩
      have hother := h.id_eq (h.posted other worker hworker)
      have hself := h.id_eq hdefinition
      rw [world] at hother hself
      rwa [hother, hself]
  · rw [(perform_world (s := s) (fun other he => hother ⟨other, he⟩) hreset).1]

/-! ## A bug and its machine alone -/

/-- The simulation has brought the bug at a seat, with this code and definition, to where its
machine alone has come to, and it has recorded these messages. -/
inductive Stage (R : Roles) (definition : Tree) (seat : Nat) (s : Simulation) :
    Machine → Shared → List String → Prop
  | waiting {t : Shared} (hphase : ∀ phase, s.phase? seat = some phase → phase = .entering)
      (hmem : seat ∈ s.world.registry) (hagrees : World.Agrees R seat s.world 0 t.world)
      (halone : t.barrier = .unsupervised) :
      Stage R definition seat s (.executing .fresh definition) t []
  | running {m : Machine} {t : Shared} (hphase : s.phase? seat = some (.running m))
      (hmem : seat ∈ s.world.registry) (hagrees : World.Agrees R seat s.world 0 t.world)
      (halone : t.barrier = .unsupervised) : Stage R definition seat s m t []
  | failing {m : Machine} {t : Shared} {e : Fault} (hphase : s.phase? seat = some (.failing e))
      (hmem : seat ∈ s.world.registry) (houtcome : m.outcome? = some (.fault e)) :
      Stage R definition seat s m t []
  | leaving {m : Machine} {t : Shared} {outcome : Outcome} (hphase : s.phase? seat = some .leaving)
      (hmem : seat ∈ s.world.registry) (houtcome : m.outcome? = some outcome) :
      Stage R definition seat s m t outcome.failure?.toList
  | absent {m : Machine} {t : Shared} {outcome : Outcome}
      (hphase : ∀ phase, s.phase? seat = some phase → phase.isPresent = false)
      (hmem : seat ∉ s.world.registry) (houtcome : m.outcome? = some outcome) :
      Stage R definition seat s m t outcome.failure?.toList

section Stage

variable {seat : Nat} {definition : Tree} {m : Machine} {t : Shared} {reported : List String}

/-- An event that is no step of its own leaves a bug where it is. -/
private theorem Stage.other (hs : Independent s)
    (hdefinition : s.program.bugs[seat]? = some definition)
    (h : Stage (Roles.code s.program definition) definition seat s m t reported)
    (hwork : e ≠ .work seat) (hreset : e ≠ .command .reset) :
    Stage (Roles.code s.program definition) definition seat (s.perform e) m t reported := by
  have hregistry := hs.registry_perform hdefinition hwork hreset
  have hstays {phase : Phase} (hphase : s.phase? seat = some phase) (hgone : phase ≠ .gone) :
      (s.perform e).phase? seat = some phase := by
    rw [phase?_eq_map] at hphase
    obtain ⟨worker, hworker, rfl⟩ := Option.map_eq_some_iff.mp hphase
    exact phase?_of_worker (worker?_perform_of_ne_gone hwork hreset hworker hgone)
  cases h with
  | waiting hphase hmem hagrees halone =>
    refine .waiting (fun phase hafter => ?_) (hregistry.mpr hmem)
      (hs.agrees_perform hdefinition hagrees hwork hreset) halone
    rcases phase?_perform_of_ne (s := s) hwork hreset with hsame | hnew | hnone
    · exact hphase phase (hsame ▸ hafter)
    · exact (Option.some.inj (hnew.symm.trans hafter)).symm
    · simp [hnone] at hafter
  | running hphase hmem hagrees halone =>
    exact .running (hstays hphase (by simp)) (hregistry.mpr hmem)
      (hs.agrees_perform hdefinition hagrees hwork hreset) halone
  | failing hphase hmem houtcome =>
    exact .failing (hstays hphase (by simp)) (hregistry.mpr hmem) houtcome
  | leaving hphase hmem houtcome =>
    exact .leaving (hstays hphase (by simp)) (hregistry.mpr hmem) houtcome
  | absent hphase hmem houtcome =>
    refine .absent (fun phase hafter => ?_) (fun hafter => hmem (hregistry.mp hafter)) houtcome
    rw [phase?_eq_map] at hafter
    obtain ⟨worker, hworker, rfl⟩ := Option.map_eq_some_iff.mp hafter
    rcases worker?_perform_of_ne hwork hreset hworker with hsame | ⟨-, -, -, hregistered, -⟩
    · exact hphase worker.phase (phase?_of_worker hsame)
    · exact absurd hregistered hmem

/-- What a step of the bug at a seat shows: nothing, when its machine alone stays where it is, or
what the next step of its machine alone shows. -/
inductive Shows (seat : Nat) (s : Simulation) (m : Machine) (t : Shared) (e : Event) :
    Machine → Shared → Prop
  | nothing (hdrawn : drawnBy seat s e = []) (hparks : parksAt seat s e = false) :
      Shows seat s m t e m t
  | step (hongoing : m.outcome? = none)
      (hdrawn : drawnBy seat s e = t.world.drawnSince (m.step 0 t).2.world)
      (hparks : parksAt seat s e = (Phase.running m).isParking)
      (hlook : ((s.perform e).world.bug seat).look = ((m.step 0 t).2.world.bug 0).look) :
      Shows seat s m t e (m.step 0 t).1 (m.step 0 t).2

/-- While a bug runs its definition a step of its worker is a step of its machine alone, or it
waits, or it has come to its outcome. -/
private theorem Stage.work_running (hs : Independent s) {i : Nat}
    (hworker : s.worker? seat = some ⟨i, definition, .running m⟩) (hmem : seat ∈ s.world.registry)
    (hagrees : World.Agrees (Roles.code s.program definition) seat s.world 0 t.world)
    (halone : t.barrier = .unsupervised) :
    ∃ m' t', Shows seat s m t (.work seat) m' t' ∧
      Stage (Roles.code s.program definition) definition seat (s.perform (.work seat)) m' t' [] := by
  obtain ⟨hbug, hplays⟩ := hs.plays.workers seat _ hworker
  have hplays : m.Plays (Roles.code s.program definition) := hplays
  have hphase := phase?_work hworker
  have hworld := world_work hworker
  have hdrawn := drawnBy_work hworker
  have hparks := parksAt_of_worker hworker
  rw [← registry_work hworker (by simp)] at hmem
  cases houtcome : m.outcome? with
  | some outcome =>
    simp only [Phase.step, houtcome] at hphase hworld
    have hnothing : Shows seat s m t (.work seat) m t := by
      refine .nothing (hdrawn.trans ?_) (hparks.trans (Phase.isParking_of_outcome houtcome))
      cases hm : m.focus <;> simp_all [Phase.strokes, Focus.strokes, Machine.outcome?]
    refine ⟨m, t, hnothing, ?_⟩
    cases outcome with
    | value v => exact .leaving hphase hmem houtcome
    | flow f => exact .leaving hphase hmem houtcome
    | fault e =>
      have hfault := hplays.focus
      rw [Machine.outcome?_eq_fault houtcome] at hfault
      refine .failing (hphase.trans ?_) hmem houtcome
      -- No fault of a bug in its code is a halt.
      cases e <;> first | rfl | exact absurd rfl hfault.2
  | none =>
    simp only [Phase.step, houtcome] at hphase hworld
    by_cases hwaits : m.focus = .await ∧ s.barrier.permit seat = .waiting
    · obtain ⟨hm, hpermit⟩ := hwaits
      have hstays : m.step seat s.shared = (m, s.shared) := by
        rw [barrier] at hpermit
        simp only [Machine.step, hm, hpermit, Machine.await]
      rw [hstays] at hphase hworld
      refine ⟨m, t, .nothing (hdrawn.trans ?_) (hparks.trans ?_), .running hphase hmem ?_ halone⟩
      · simp [Phase.strokes, Focus.strokes, hm]
      · simp [Phase.isParking, hm]
      · rw [hworld]
        exact hagrees
    · have hpermit (hm : m.focus = .await) : s.barrier.permit seat = .granted := by
        cases hpermit : s.barrier.permit seat with
        | granted => rfl
        | halted => simpa [hs.ongoing] using Barrier.killed_of_halted hpermit
        | waiting => exact absurd ⟨hm, hpermit⟩ hwaits
      obtain ⟨hsame, hafter, halone'⟩ := Machine.Plays.step_agrees
        (Roles.code_secluded (hs.program.alone definition hbug)) hplays hagrees hs.ongoing halone hpermit
      refine ⟨_, _, .step houtcome ?_ hparks ?_, .running ?_ hmem ?_ halone'⟩
      · rw [hdrawn]
        exact (World.drawnSince_of_append (m.strokes_step 0 t)).symm
      · rw [hworld]
        exact hafter.look
      · rw [hphase, hsame]
      · rw [hworld]
        exact hafter

/-- A step of its own takes a bug one step further, or leaves its machine alone where it is. -/
private theorem Stage.work (hs : Independent s)
    (hdefinition : s.program.bugs[seat]? = some definition)
    (h : Stage (Roles.code s.program definition) definition seat s m t reported) :
    ∃ m' t', Shows seat s m t (.work seat) m' t' ∧
      Stage (Roles.code s.program definition) definition seat (s.perform (.work seat)) m' t'
        (reported ++ reportedBy seat s (.work seat)) := by
  cases hworker : s.worker? seat with
  | none =>
    have hsame := perform_work_of_idle hworker
    refine ⟨m, t, .nothing ?_ ?_, ?_⟩
    · simp [drawnBy, hsame, World.drawnSince]
    · simp [parksAt, isParking, phase?_eq_map, hworker]
    · simpa [reportedBy, hsame] using h
  | some worker =>
    obtain ⟨i, definition', phase⟩ := worker
    obtain rfl : definition = definition' :=
      Option.some.inj (hdefinition.symm.trans (hs.posted seat _ hworker))
    have hbefore : s.phase? seat = some phase := phase?_of_worker hworker
    have hafter := phase?_work hworker
    have hworld := world_work hworker
    have hregistry (hleaving : phase ≠ .leaving) := registry_work hworker hleaving
    rw [reportedBy_work hworker]
    cases h with
    | waiting hphase hmem hagrees halone =>
      obtain rfl := hphase phase hbefore
      refine ⟨_, _, .nothing (drawnBy_work hworker) (parksAt_of_worker hworker), ?_⟩
      rw [← hregistry (by simp)] at hmem
      rw [show s.world = (s.perform (.work seat)).world from hworld.symm] at hagrees
      cases hpermit : s.barrier.permit seat with
      | granted =>
        rw [barrier] at hpermit
        simp only [Phase.step, hpermit, Phase.afterPermit] at hafter
        exact .running hafter hmem hagrees halone
      | halted =>
        have hkilled := Barrier.killed_of_halted hpermit
        simp [hs.ongoing] at hkilled
      | waiting =>
        rw [barrier] at hpermit
        simp only [Phase.step, hpermit, Phase.afterPermit] at hafter
        exact .waiting (fun _ h => (Option.some.inj (hafter.symm.trans h)).symm) hmem hagrees halone
    | running hphase hmem hagrees halone =>
      obtain rfl := Option.some.inj (hbefore.symm.trans hphase)
      exact Stage.work_running hs hworker hmem hagrees halone
    | failing hphase hmem houtcome =>
      obtain rfl := Option.some.inj (hbefore.symm.trans hphase)
      refine ⟨_, _, .nothing (drawnBy_work hworker) (parksAt_of_worker hworker), ?_⟩
      exact .leaving hafter (hregistry (by simp) ▸ hmem) houtcome
    | leaving hphase hmem houtcome =>
      obtain rfl := Option.some.inj (hbefore.symm.trans hphase)
      refine ⟨_, _, .nothing (drawnBy_work hworker) (parksAt_of_worker hworker), ?_⟩
      rw [show Phase.leaving.reports = [] from rfl, List.append_nil]
      refine .absent (fun phase h => ?_) (fun h => ?_) houtcome
      · cases hafter.symm.trans h
        rfl
      · rw [hworld] at h
        exact ((Phase.step_move seat definition s.shared .leaving).registry h).2 rfl rfl
    | absent hphase hmem houtcome =>
      have habsent := hphase phase hbefore
      have hnothing : phase.strokes = [] ∧ phase.isParking = false ∧ phase.reports = [] ∧
          phase ≠ .leaving ∧ (phase.step seat definition s.shared).1.isPresent = false := by
        cases phase with
        | departing | gone => exact ⟨rfl, rfl, rfl, by simp, rfl⟩
        | _ => cases habsent
      obtain ⟨hstrokes, hparking, hreports, hleaving, hstep⟩ := hnothing
      refine ⟨_, _, .nothing ((drawnBy_work hworker).trans hstrokes)
        ((parksAt_of_worker hworker).trans hparking), ?_⟩
      rw [hreports, List.append_nil]
      refine .absent (fun phase h => ?_) (hregistry hleaving ▸ hmem) houtcome
      cases hafter.symm.trans h
      exact hstep

/-- **Step.** Whatever happens next, the bug shows nothing or what its machine alone shows next. -/
theorem Stage.perform (hs : Independent s) (hdefinition : s.program.bugs[seat]? = some definition)
    (h : Stage (Roles.code s.program definition) definition seat s m t reported)
    (hreset : e ≠ .command .reset) :
    ∃ m' t', Shows seat s m t e m' t' ∧
      Stage (Roles.code s.program definition) definition seat (s.perform e) m' t'
        (reported ++ reportedBy seat s e) := by
  by_cases hwork : e = .work seat
  · subst hwork
    exact h.work hs hdefinition
  · refine ⟨m, t, .nothing (if_neg hwork) (by simp [parksAt, hwork]), ?_⟩
    rw [reportedBy, if_neg hwork, List.append_nil]
    exact h.other hs hdefinition hwork hreset

/-- **Run.** In a run without a kill or a reset a bug shows what its machine alone shows in some
number of steps, and is where that machine has come to. -/
theorem Stage.performAll {events : List Event} (hs : Independent s)
    (hdefinition : s.program.bugs[seat]? = some definition)
    (h : Stage (Roles.code s.program definition) definition seat s m t reported)
    (hkill : .command .kill ∉ events) (hreset : .command .reset ∉ events) (drawn : List Stroke) :
    ∃ n, sightings seat drawn s events = Machine.sightings 0 n drawn m t ∧
      Stage (Roles.code s.program definition) definition seat (s.performAll events)
        (Machine.run 0 n m t).1 (Machine.run 0 n m t).2 (reported ++ reports seat s events) := by
  -- The machine alone steps only when the bug does, so `n` counts the events of the second kind.
  induction events generalizing s m t reported drawn with
  | nil => exact ⟨0, rfl, by simpa [reports, Machine.run, Simulation.performAll] using h⟩
  | cons e events ih =>
    simp only [List.mem_cons, not_or] at hkill hreset
    obtain ⟨m', t', hshows, hnext⟩ := h.perform hs hdefinition (Ne.symm hreset.1)
    have hprogram := s.program_perform e
    rw [← hprogram] at hnext hdefinition ⊢
    have hrest := ih (hs.perform (Ne.symm hkill.1) (Ne.symm hreset.1)) hdefinition hnext hkill.2 hreset.2
    rw [reports, ← List.append_assoc]
    cases hshows with
    | nothing hdrawn hparks =>
      obtain ⟨n, hsightings, hstage⟩ := hrest drawn
      refine ⟨n, ?_, hstage⟩
      rw [sightings]
      simpa [hdrawn, hparks] using hsightings
    | step hongoing hdrawn hparks hlook =>
      cases hparking : (Phase.running m).isParking with
      | true =>
        obtain ⟨n, hsightings, hstage⟩ := hrest []
        refine ⟨n + 1, ?_, Machine.run_of_ongoing hongoing n t ▸ hstage⟩
        simp only [sightings, Machine.sightings, hongoing, hparks, hparking, hdrawn, hlook, hsightings,
          if_true]
      | false =>
        obtain ⟨n, hsightings, hstage⟩ := hrest (drawn ++ t.world.drawnSince (m.step 0 t).2.world)
        refine ⟨n + 1, ?_, Machine.run_of_ongoing hongoing n t ▸ hstage⟩
        simp only [sightings, Machine.sightings, hongoing, hparks, hparking, hdrawn]
        exact hsightings

private theorem Stage.outcome {R : Roles} (h : Stage R definition seat s m t reported)
    (hleft : seat ∉ s.world.registry) :
    ∃ outcome, m.outcome? = some outcome ∧ reported = outcome.failure?.toList := by
  cases h with
  | absent _ _ houtcome => exact ⟨_, houtcome, rfl⟩
  | waiting _ hmem | running _ hmem | failing _ hmem | leaving _ hmem => exact absurd hmem hleft

end Stage

end Simulation

/-- What a bug needs to run its definition alone: the world of the shared section, where it is the
only bug, and a barrier that lets it pass. -/
def Program.alone (p : Program) (definition : Tree) : Except Fault Shared := do
  let world ← World.ofAllbugs p.allbugs
  let name ← definition.part 0
  return ⟨world.seat (.newborn 0 name.text), .unsupervised⟩

namespace Simulation

private theorem Stage.create {program : Program} (hshaped : program.IsShaped) {config : RunConfig}
    {s : Simulation} (hs : Simulation.create program config = .ok s) {seat : Nat} {definition : Tree}
    (hdefinition : program.bugs[seat]? = some definition) :
    ∃ t, program.alone definition = .ok t ∧
      Stage (Roles.code program definition) definition seat s (.executing .fresh definition) t [] := by
  obtain ⟨hbuild, -, -, hcrew, -⟩ := create_eq_ok hs
  obtain ⟨w, hw, hfunctions, hglobals⟩ := build_world hbuild
  have henrolled := build_enrolled hbuild
  have hseat : seat < program.bugs.length := (List.getElem?_eq_some_iff.mp hdefinition).1
  have hseated : seat < s.world.bugs.length := by
    rw [world, henrolled.length]
    exact hseat
  have hbug := hshaped.bugs definition (List.mem_of_getElem? hdefinition)
  obtain ⟨name, hname⟩ : ∃ name, definition.part 0 = .ok name := by
    obtain ⟨-⟩ := hbug
    exact ⟨_, rfl⟩
  refine ⟨⟨w.seat (.newborn 0 name.text), .unsupervised⟩, ?_, .waiting ?_ ?_ ?_ rfl⟩
  · simp only [Program.alone, hw, hname]
    rfl
  · simp [phase?, hcrew]
  · simpa [world, henrolled.registry] using hseat
  · refine ⟨hseated, by simp [World.seat], ?_, fun name _ => by rw [world, hglobals]; rfl, hfunctions⟩
    have hhere : s.world.bug seat = s.world.bugs[seat] := by simp [World.bug, hseated]
    have halone : (w.seat (.newborn 0 name.text)).bug 0 = .newborn 0 name.text := by
      simp [World.bug, World.seat, bugs_ofAllbugs hw]
    rw [hhere, halone]
    exact (build_newborn hbuild).1 _ (List.getElem_mem hseated)

/-- **Transparency.** In every run without a kill or a reset of a program that was read from a text
and whose bugs are independent, what a bug shows at its successive parkings is a beginning of what
it shows when it runs its definition alone; and when it is no longer registered or live, it has
shown all of that, and it has recorded the failure that its definition ends with when it runs
alone, or none if it ends without one. -/
theorem scheduling_transparent {source : String} {program : Program}
    (hload : Program.load source = .ok program) (hindependent : program.Independent)
    {config : RunConfig} {s : Simulation} (hs : Simulation.create program config = .ok s) (seat : Nat)
    {definition : Tree} (hdefinition : program.bugs[seat]? = some definition) (events : List Event)
    (hkill : .command .kill ∉ events) (hreset : .command .reset ∉ events) :
    ∃ t, program.alone definition = .ok t ∧ ∃ n,
      (∀ fuel, n ≤ fuel →
        sightings seat [] s events <+: Machine.sightings 0 fuel [] (.executing .fresh definition) t) ∧
      (seat ∉ (s.performAll events).world.registry ∨
          (s.performAll events).barrier.live.contains seat = false →
        ∃ outcome, reports seat s events = outcome.failure?.toList ∧ ∀ fuel, n ≤ fuel →
          (Machine.run 0 fuel (.executing .fresh definition) t).1.outcome? = some outcome ∧
          sightings seat [] s events = Machine.sightings 0 fuel [] (.executing .fresh definition) t) := by
  have hshaped : program.IsShaped := by
    rcases load_shaped source with ⟨program', hload', hshaped⟩ | ⟨e, hload'⟩
    · cases hload'.symm.trans hload
      exact hshaped
    · simp [hload'] at hload
  obtain ⟨t, halone, hbegin⟩ := Stage.create hshaped hs hdefinition
  have hstep := InStep.performAll hs events hreset
  have hstart := Independent.create hindependent hshaped (Program.isParsed_of_load hload) hs
  obtain rfl : s.program = program := (create_eq_ok hs).2.1
  obtain ⟨n, hsightings, hstage⟩ := hbegin.performAll hstart hdefinition hkill hreset []
  refine ⟨t, halone, n, fun fuel hfuel => ?_, fun hleft => ?_⟩
  · rw [hsightings]
    exact Machine.sightings_isPrefix 0 hfuel _ _ _
  · have hunregistered : seat ∉ (s.performAll events).world.registry := by
      rcases hleft with hleft | hdead
      · exact hleft
      · exact fun hmem => by simp [hstep.live_of_registered hmem] at hdead
    obtain ⟨outcome, houtcome, hreports⟩ := hstage.outcome hunregistered
    refine ⟨outcome, hreports, fun fuel hfuel => ?_⟩
    obtain ⟨hrun, hsame⟩ := Machine.sightings_of_outcome 0 hfuel [] _ _ houtcome
    rw [hrun, hsame]
    exact ⟨houtcome, hsightings⟩

/-- A bug that moves by a shared variable of its own and then by one that nobody has declared. -/
private def stray : Tree :=
  .node ⟨.keyword, "Bug", ⟨4, 1⟩⟩ [.leaf ⟨.name, "a", ⟨4, 5⟩⟩, .labeled "list" [],
    .labeled "initially" [],
    .labeled "block" [
      .labeled "assign" [.leaf ⟨.name, "g", ⟨5, 1⟩⟩, .leaf ⟨.name, "g", ⟨5, 5⟩⟩],
      .node ⟨.keyword, "move", ⟨6, 1⟩⟩ [.leaf ⟨.name, "g", ⟨6, 6⟩⟩],
      .node ⟨.keyword, "move", ⟨7, 1⟩⟩ [.leaf ⟨.name, "z", ⟨7, 6⟩⟩]],
    .labeled "list" []]

private def neighbor : Tree :=
  .node ⟨.keyword, "Bug", ⟨9, 1⟩⟩ [.leaf ⟨.name, "b", ⟨9, 5⟩⟩, .labeled "list" [],
    .labeled "initially" [],
    .labeled "block" [.node ⟨.keyword, "move", ⟨10, 1⟩⟩ [.leaf ⟨.name, "h", ⟨10, 6⟩⟩]],
    .labeled "list" []]

private def strangers : Program :=
  let declaration := .node ⟨.keyword, "var", ⟨2, 1⟩⟩
    [.leaf ⟨.name, "g", ⟨2, 5⟩⟩, .leaf ⟨.name, "h", ⟨2, 8⟩⟩]
  let shared := .node ⟨.keyword, "Allbugs", ⟨1, 1⟩⟩
    [.labeled "list" [declaration], .labeled "list" []]
  ⟨.labeled "program" [shared, .labeled "list" [stray, neighbor]], shared, [stray, neighbor]⟩

private def strangersText : String :=
  "Allbugs \x7b\nvar g, h\n\x7d\nBug a \x7b\ng = g\nmove g\nmove z\n\x7d\nBug b \x7b\nmove h\n\x7d\n"

/-- Both bugs make their first move, the loop is paused and let go again, and the first bug fails. -/
private def untilLost : List Event :=
  .command .start :: .tick 0 :: List.replicate 40 (.work 0) ++ .command .pause ::
    List.replicate 40 (.work 1) ++ .tick 0 :: .command .run :: .tick 0 :: List.replicate 40 (.work 0)

theorem scheduling_transparent_strangers :
    ∃ s, Simulation.create strangers ⟨0, true⟩ = .ok s ∧
      0 ∉ (s.performAll untilLost).world.registry ∧
      ∃ t, strangers.alone stray = .ok t ∧ ∃ n outcome,
        reports 0 s untilLost = outcome.failure?.toList ∧
        (Machine.run 0 n (.executing .fresh stray) t).1.outcome? = some outcome ∧
        sightings 0 [] s untilLost = Machine.sightings 0 n [] (.executing .fresh stray) t := by
  have hload : Program.load strangersText = .ok strangers := by cbv
  obtain ⟨s, hs, hleft⟩ : ∃ s, Simulation.create strangers ⟨0, true⟩ = .ok s ∧
      ((s.performAll untilLost).world.registry.contains 0) = false := ⟨_, rfl, by decide +kernel⟩
  have hleft : 0 ∉ (s.performAll untilLost).world.registry := by simpa using hleft
  obtain ⟨t, halone, n, -, hcomplete⟩ := scheduling_transparent hload (by decide +kernel) hs 0 rfl
    untilLost (by decide +kernel) (by decide +kernel)
  obtain ⟨outcome, hreports, hall⟩ := hcomplete (.inl hleft)
  exact ⟨s, hs, hleft, t, halone, n, outcome, hreports, hall n (Nat.le_refl n)⟩

end Simulation

end DrawingBugs
