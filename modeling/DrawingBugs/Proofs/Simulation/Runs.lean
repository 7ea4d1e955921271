import DrawingBugs.Proofs.Machine.Moves
import DrawingBugs.Simulation.Events
import Mathlib.Data.List.Induction

/-!
# Runs of a simulation

What a new simulation looks like, which worker an event touches, and how often something
happens in the course of a run.
-/

namespace DrawingBugs

namespace Table

variable {κ α : Type} [DecidableEq κ]

private theorem insert_of_get?_eq_none (t : Table κ α) (key : κ) (v : α) (h : t.get? key = none) :
    t.insert key v = t ++ [(key, v)] := by
  induction t with
  | nil => rfl
  | cons entry rest ih =>
    obtain ⟨k, a⟩ := entry
    by_cases hk : k = key
    · simp [get?, hk] at h
    · have hrest : get? rest key = none := by simpa [get?, hk] using h
      simp [insert, hk, ih hrest]

private theorem get?_map_value {β : Type} (t : Table κ α) (f : α → β) (key : κ) :
    get? (t.map fun entry => (entry.1, f entry.2)) key = (t.get? key).map f := by
  induction t with
  | nil => rfl
  | cons entry rest ih =>
    obtain ⟨k, a⟩ := entry
    by_cases hk : k = key <;> simp [get?, hk, ih]

theorem get?_map_const {κ α : Type} [DecidableEq κ] (keys : List κ) (a : α) (key : κ) :
    get? (keys.map fun k => (k, a)) key = if key ∈ keys then some a else none := by
  induction keys with
  | nil => rfl
  | cons k keys ih =>
    by_cases hk : k = key
    · simp [get?, hk]
    · simp [get?, hk, ih, Ne.symm hk]

end Table

namespace Barrier

theorem released_of_granted {b : Barrier} {seat : Nat} (hsupervised : b.supervised = true)
    (hpermit : b.permit seat = .granted) (hlive : (b.live.get? seat).isSome) :
    b.live.get? seat = some false := by
  obtain ⟨flag, hflag⟩ := Option.isSome_iff_exists.mp hlive
  cases flag with
  | false => exact hflag
  | true =>
    simp only [Barrier.permit, hsupervised, hflag] at hpermit
    split at hpermit <;> simp at hpermit

theorem get?_grant (b : Barrier) (seat : Nat) :
    b.grant.live.get? seat = (b.live.get? seat).map fun _ => false :=
  Table.get?_map_value b.live (fun _ => false) seat

theorem parked_of_mayGrant {b : Barrier} (h : b.mayGrant) {seat : Nat} {flag : Bool}
    (hflag : b.live.get? seat = some flag) : flag = true := by
  simp only [Barrier.mayGrant, Barrier.allParked, Bool.and_eq_true, List.all_eq_true] at h
  exact h.1 _ (Table.mem_of_get?_eq_some hflag)

end Barrier

/-- The loop leaves the barrier alone, and ends only after a kill or when nobody is live; or it
grants a round that may be granted and goes to sleep. -/
theorem LoopPhase.advance_cases (elapsed : Nat) (b : Barrier) (phase : LoopPhase) :
    (phase.advance elapsed b).2 = b ∧ ((phase.advance elapsed b).1 = .ended →
        phase = .ended ∨ b.killed ∨ b.live = []) ∨
      phase.advance elapsed b = (.sleeping, b.grant) ∧ b.mayGrant ∧ b.killed = false ∧
        b.live ≠ [] := by
  have hattend : (attend b).2 = b ∧ ((attend b).1 = .ended → b.killed ∨ b.live = []) ∨
      attend b = (.sleeping, b.grant) ∧ b.mayGrant ∧ b.killed = false ∧ b.live ≠ [] := by
    simp only [attend]
    split
    next hover => exact .inl ⟨rfl, fun _ => by simpa using hover⟩
    next hover =>
      split
      next hmay =>
        simp only [Bool.or_eq_true, not_or, List.isEmpty_iff] at hover
        exact .inr ⟨rfl, hmay, by simpa using hover.1, hover.2⟩
      next => exact .inl ⟨rfl, nofun⟩
  cases phase with
  | sleeping =>
    simp only [advance]
    split
    · exact hattend.imp (And.imp_right fun h hended => .inr (h hended)) id
    · exact .inl ⟨rfl, nofun⟩
  | waiting => exact hattend.imp (And.imp_right fun h hended => .inr (h hended)) id
  | ended => exact .inl ⟨rfl, fun _ => .inl rfl⟩

theorem LoopPhase.advance_barrier (elapsed : Nat) (b : Barrier) (phase : LoopPhase) :
    (phase.advance elapsed b).2 = b ∨ (phase.advance elapsed b).2 = b.grant ∧ b.mayGrant := by
  rcases phase.advance_cases elapsed b with ⟨hkept, -⟩ | ⟨hgrant, hmay, -⟩
  · exact .inl hkept
  · exact .inr ⟨congrArg Prod.snd hgrant, hmay⟩

namespace Phase

/-- What a step of the worker at a seat can be: its phase before and after it, and what is shared
after it. -/
inductive Move (seat : Nat) (s : Shared) : Phase → Phase → Shared → Prop
  | wait (hpermit : s.barrier.permit seat = .waiting) : Move seat s .entering .entering s
  | enter (definition : Tree) (hpermit : s.barrier.permit seat = .granted) :
      Move seat s .entering (.running (.executing .fresh definition)) s
  | refuse (hpermit : s.barrier.permit seat = .halted) : Move seat s .entering .leaving s
  | run {m m' : Machine} {s' : Shared} (hongoing : m.outcome? = none)
      (hmove : Machine.Move seat s m m' s') : Move seat s (.running m) (.running m') s'
  | finish {m : Machine} {outcome : Outcome} (houtcome : m.outcome? = some outcome) :
      Move seat s (.running m) (afterOutcome outcome) s
  | record (e : Fault) : Move seat s (.failing e) .leaving
      { s with world := s.world.recordFailure ⟨(s.world.bug seat).name, e.message⟩ }
  | leave : Move seat s .leaving .departing
      { s with world := s.world.leave (s.world.bug seat).id }
  | depart : Move seat s .departing .gone { s with barrier := s.barrier.terminate seat }
  | stay : Move seat s .gone .gone s

theorem step_move (seat : Nat) (definition : Tree) (s : Shared) (phase : Phase) :
    Move seat s phase (phase.step seat definition s).1 (phase.step seat definition s).2 := by
  cases phase with
  | entering =>
    simp only [step]
    cases hpermit : s.barrier.permit seat with
    | granted => exact .enter definition hpermit
    | halted => exact .refuse hpermit
    | waiting => exact .wait hpermit
  | running m =>
    simp only [step]
    split
    next outcome houtcome => exact .finish houtcome
    next hongoing => exact .run hongoing (m.step_move seat s)
  | failing e => exact .record e
  | leaving => exact .leave
  | departing => exact .depart
  | gone => exact .stay

theorem Move.eq_of_gone {seat : Nat} {s s' : Shared} {phase' : Phase}
    (hmove : Move seat s .gone phase' s') : phase' = .gone ∧ s' = s := by
  cases hmove
  exact ⟨rfl, rfl⟩

theorem Move.identities {seat : Nat} {s s' : Shared} {phase phase' : Phase}
    (h : Move seat s phase phase' s') :
    s'.world.bugs.map Bug.identity = s.world.bugs.map Bug.identity := by
  cases h with
  | run _ hmove =>
    cases hmove with
    | compute _ _ hw => exact hw.identities
    | act _ _ hw => exact hw.identities
    | _ => rfl
  | _ => rfl

theorem Move.ids {seat : Nat} {s s' : Shared} {phase phase' : Phase}
    (h : Move seat s phase phase' s') :
    s'.world.bugs.map Bug.id = s.world.bugs.map Bug.id := by
  have hfirst := congrArg (List.map Prod.fst) h.identities
  simpa [Bug.identity, Function.comp_def] using hfirst

theorem Move.functions {seat : Nat} {s s' : Shared} {phase phase' : Phase}
    (h : Move seat s phase phase' s') : s'.world.functions = s.world.functions := by
  cases h with
  | run _ hmove => exact hmove.functions
  | _ => rfl

theorem Move.registry_eq {seat : Nat} {s s' : Shared} {phase phase' : Phase}
    (h : Move seat s phase phase' s') (hleaving : phase ≠ .leaving) :
    s'.world.registry = s.world.registry := by
  cases h with
  | run _ hmove =>
    cases hmove with
    | compute _ _ hw => exact hw.registry
    | act _ _ hw => exact hw.registry
    | _ => rfl
  | leave => exact absurd rfl hleaving
  | _ => rfl

theorem Move.registry {seat : Nat} {s s' : Shared} {phase phase' : Phase}
    (h : Move seat s phase phase' s') {i : Nat} (hi : i ∈ s'.world.registry) :
    i ∈ s.world.registry ∧ (phase = .leaving → i ≠ seat) := by
  by_cases hleaving : phase = .leaving
  · subst hleaving
    cases h
    simp only [World.leave, List.mem_filter, ne_eq, decide_eq_true_eq] at hi
    exact ⟨hi.1, fun _ hseat => hi.2 (by rw [hseat])⟩
  · exact ⟨h.registry_eq hleaving ▸ hi, fun h => absurd h hleaving⟩

theorem Move.mem_registry {seat i : Nat} {s s' : Shared} {phase phase' : Phase}
    (h : Move seat s phase phase' s') (hne : (s.world.bug i).id ≠ (s.world.bug seat).id)
    (hi : i ∈ s.world.registry) : i ∈ s'.world.registry := by
  by_cases hleaving : phase = .leaving
  · subst hleaving
    cases h
    simpa [World.leave, hi] using hne
  · exact h.registry_eq hleaving ▸ hi

end Phase

namespace Simulation

/-- What is shared after the first `n` bugs were enrolled: they sit in order, all of them are
live and parked, and nothing has happened yet. -/
structure Enrolled (n : Nat) (s : Shared) : Prop where
  ids : s.world.bugs.map Bug.id = List.range n
  registry : s.world.registry = List.range n
  live : s.barrier.live = (List.range n).map fun id => (id, true)
  lines : s.world.lines = []
  failures : s.world.failures = []
  rounds : s.barrier.rounds = 0
  supervised : s.barrier.supervised = true

theorem Enrolled.length {n : Nat} {s : Shared} (h : Enrolled n s) : s.world.bugs.length = n := by
  have hlength := congrArg List.length h.ids
  simpa using hlength

private theorem Enrolled.enroll {n : Nat} {s s' : Shared} {definition : Tree} (h : Enrolled n s)
    (hs : enroll s definition = .ok s') : Enrolled (n + 1) s' := by
  obtain ⟨name, _, hs⟩ := bind_eq_ok.mp hs
  cases hs
  have hn := h.length
  have hfresh : s.barrier.live.get? n = none := by
    rw [h.live, Table.get?_map_const]
    simp
  refine ⟨?_, ?_, ?_, h.lines, h.failures, h.rounds, h.supervised⟩
  · simp [World.enter, World.seat, Bug.newborn, h.ids, hn, List.range_succ]
  · simp [World.enter, World.seat, h.registry, hn, List.range_succ]
  · simp only [Barrier.register, hn]
    rw [Table.insert_of_get?_eq_none _ _ _ hfresh, h.live, List.range_succ]
    simp

private theorem Enrolled.foldlM {definitions : List Tree} {n : Nat} {s s' : Shared}
    (h : Enrolled n s) (hs : definitions.foldlM Simulation.enroll s = .ok s') :
    Enrolled (n + definitions.length) s' := by
  induction definitions generalizing n s with
  | nil =>
    cases hs
    exact h
  | cons definition definitions ih =>
    rw [List.foldlM_cons] at hs
    obtain ⟨next, hnext, hs⟩ := bind_eq_ok.mp hs
    have hlength : n + (definition :: definitions).length = n + 1 + definitions.length := by
      simp only [List.length_cons]
      omega
    rw [hlength]
    exact ih (h.enroll hnext) hs

theorem ofAllbugs_enrolled {allbugs : Tree} {w : World} {pause : Nat} {running : Bool}
    (h : World.ofAllbugs allbugs = .ok w) : Enrolled 0 ⟨w, .create pause running⟩ := by
  simp only [World.ofAllbugs] at h
  split at h
  · cases h
  · obtain ⟨functions, _, h⟩ := bind_eq_ok.mp h
    cases h
    exact ⟨rfl, rfl, rfl, rfl, rfl, rfl, rfl⟩

/-- What every newborn bug that enters preserves holds after all have entered. -/
theorem foldlM_enroll {P : Shared → Prop}
    (henroll : ∀ s name, P s → P ⟨s.world.enter (.newborn s.world.bugs.length name),
      s.barrier.register s.world.bugs.length⟩)
    {definitions : List Tree} {s s' : Shared} (h : P s)
    (hs : definitions.foldlM Simulation.enroll s = .ok s') : P s' := by
  induction definitions generalizing s with
  | nil =>
    cases hs
    exact h
  | cons definition definitions ih =>
    rw [List.foldlM_cons] at hs
    obtain ⟨next, hnext, hs⟩ := bind_eq_ok.mp hs
    obtain ⟨name, _, hnext⟩ := bind_eq_ok.mp hnext
    cases hnext
    exact ih (henroll s name.text h) hs

theorem build_world {program : Program} {config : RunConfig} {s : Shared}
    (h : build program config = .ok s) :
    ∃ w, World.ofAllbugs program.allbugs = .ok w ∧ s.world.functions = w.functions ∧
      s.world.globals = w.globals := by
  obtain ⟨w, hw, h⟩ := bind_eq_ok.mp h
  exact ⟨w, hw, foldlM_enroll (P := fun s => s.world.functions = w.functions ∧ s.world.globals = w.globals)
    (fun _ _ h => h) ⟨rfl, rfl⟩ h⟩

theorem build_enrolled {program : Program} {config : RunConfig} {s : Shared}
    (h : build program config = .ok s) : Enrolled program.bugs.length s := by
  obtain ⟨world, hworld, h⟩ := bind_eq_ok.mp h
  have henrolled := (ofAllbugs_enrolled hworld).foldlM h
  rwa [Nat.zero_add] at henrolled

theorem create_eq_ok {program : Program} {config : RunConfig} {s : Simulation}
    (h : create program config = .ok s) :
    build program config = .ok s.shared ∧ s.program = program ∧ s.config = config ∧
      s.crew = none ∧ s.started = false := by
  obtain ⟨shared, hshared, h⟩ := bind_eq_ok.mp h
  cases h
  exact ⟨hshared, rfl, rfl, rfl, rfl⟩

/-- The phase of the worker at a seat. -/
def phase? (s : Simulation) (seat : Nat) : Option Phase :=
  s.crew.bind fun crew => (crew.workers.find? (·.seat = seat)).map Worker.phase

theorem perform_work_of_none {s : Simulation} {seat : Nat} (h : s.phase? seat = none) :
    s.perform (.work seat) = s := by
  cases hcrew : s.crew with
  | none => simp [perform, changeCrew, hcrew]
  | some crew =>
    have hfind : crew.workers.find? (·.seat = seat) = none := by
      simpa [phase?, hcrew] using h
    cases s
    simp only at hcrew
    subst hcrew
    simp [perform, changeCrew, Crew.work, hfind]

/-- The worker at a seat. -/
def worker? (s : Simulation) (seat : Nat) : Option Worker :=
  s.crew.bind fun crew => crew.workers.find? (·.seat = seat)

theorem phase?_eq_map (s : Simulation) (seat : Nat) :
    s.phase? seat = (s.worker? seat).map Worker.phase := by
  cases hcrew : s.crew <;> simp [phase?, worker?, hcrew]

theorem phase?_of_worker {s : Simulation} {seat : Nat} {worker : Worker}
    (h : s.worker? seat = some worker) : s.phase? seat = some worker.phase := by
  rw [phase?_eq_map, h, Option.map_some]

theorem perform_work_of_idle {s : Simulation} {seat : Nat} (h : s.worker? seat = none) :
    s.perform (.work seat) = s :=
  perform_work_of_none (by rw [phase?_eq_map, h, Option.map_none])

/-- A step at a seat lets its worker take a step and leaves all others where they are. -/
theorem perform_work_of_worker {s : Simulation} {seat : Nat} {worker : Worker}
    (h : s.worker? seat = some worker) :
    let next := worker.phase.step seat worker.definition s.shared
    (s.perform (.work seat)).shared = next.2 ∧
      (s.perform (.work seat)).program = s.program ∧
      (s.perform (.work seat)).config = s.config ∧
      (s.perform (.work seat)).crew.map Crew.loop = s.crew.map Crew.loop ∧
      ∀ i, (s.perform (.work seat)).worker? i =
        if i = seat then some { worker with phase := next.1 } else s.worker? i := by
  cases hcrew : s.crew with
  | none => simp [worker?, hcrew] at h
  | some crew =>
    have hfind : crew.workers.find? (·.seat = seat) = some worker := by
      simpa [worker?, hcrew] using h
    have hseat := List.find?_some hfind
    simp only [decide_eq_true_eq] at hseat
    refine ⟨?_, ?_, ?_, ?_, fun i => ?_⟩
    · simp [perform, changeCrew, hcrew, Crew.work, hfind]
    · simp [perform, changeCrew, hcrew]
    · simp [perform, changeCrew, hcrew]
    · simp [perform, changeCrew, hcrew, Crew.work, hfind]
    · simp only [perform, changeCrew, hcrew, Crew.work, hfind, worker?, Option.bind_some,
        List.find?_map]
      have hsame : ((fun w : Worker => decide (w.seat = i)) ∘ fun w : Worker =>
          if w.seat = seat then
            { w with phase := (worker.phase.step seat worker.definition s.shared).1 } else w) =
          fun w => decide (w.seat = i) := by
        funext w
        simp only [Function.comp_apply]
        split <;> rfl
      rw [hsame]
      by_cases hi : i = seat
      · subst hi
        simp [hfind, hseat]
      · rw [if_neg hi]
        cases hother : crew.workers.find? (fun w => decide (w.seat = i)) with
        | none => rfl
        | some w =>
          have hw := List.find?_some hother
          simp only [decide_eq_true_eq] at hw
          have hne : ¬ w.seat = seat := fun he => hi (hw.symm.trans he)
          simp [hne]

theorem perform_work_of_some {s : Simulation} {seat : Nat} {phase : Phase}
    (h : s.phase? seat = some phase) :
    ∃ phase', phase.Move seat s.shared phase' (s.perform (.work seat)).shared ∧
      (s.perform (.work seat)).program = s.program ∧
      (s.perform (.work seat)).crew.isSome ∧
      ∀ i, (s.perform (.work seat)).phase? i = if i = seat then some phase' else s.phase? i := by
  rw [phase?_eq_map] at h
  obtain ⟨worker, hworker, rfl⟩ := Option.map_eq_some_iff.mp h
  obtain ⟨hshared, hprogram, -, -, hworkers⟩ := perform_work_of_worker hworker
  refine ⟨(worker.phase.step seat worker.definition s.shared).1, ?_, hprogram, ?_, fun i => ?_⟩
  · rw [hshared]
    exact worker.phase.step_move seat worker.definition s.shared
  · have hself := hworkers seat
    cases hcrew : (s.perform (.work seat)).crew with
    | none => simp [worker?, hcrew] at hself
    | some _ => rfl
  · rw [phase?_eq_map, phase?_eq_map, hworkers]
    split <;> rfl

private theorem worker?_start_eq_some {s : Simulation} (hcrew : s.crew = none) {seat : Nat}
    {worker : Worker} (h : s.start.worker? seat = some worker) :
    worker.phase = .entering ∧ seat ∈ s.world.registry ∧
      s.program.bugs[(s.world.bug seat).id]? = some worker.definition := by
  simp only [start, hcrew, worker?, Option.bind_some] at h
  have hseat := List.find?_some h
  simp only [decide_eq_true_eq] at hseat
  obtain ⟨seat', hmem, hworker⟩ := List.mem_filterMap.mp (List.mem_of_find?_eq_some h)
  obtain ⟨definition, hdefinition, rfl⟩ := Option.map_eq_some_iff.mp hworker
  simp only at hseat
  subst hseat
  exact ⟨rfl, hmem, hdefinition⟩

theorem phase?_start_eq_some {s : Simulation} (hcrew : s.crew = none) {seat : Nat} {phase : Phase}
    (h : s.start.phase? seat = some phase) : phase = .entering ∧ seat ∈ s.world.registry := by
  rw [phase?_eq_map] at h
  obtain ⟨worker, hworker, rfl⟩ := Option.map_eq_some_iff.mp h
  obtain ⟨hentering, hmem, -⟩ := worker?_start_eq_some hcrew hworker
  exact ⟨hentering, hmem⟩

theorem phase?_start {s : Simulation} (hcrew : s.crew = none) {seat : Nat}
    (hmem : seat ∈ s.world.registry) (hid : (s.world.bug seat).id < s.program.bugs.length) :
    s.start.phase? seat = some .entering := by
  have hsome : (s.start.phase? seat).isSome := by
    simp only [start, hcrew, phase?, Option.bind_some, Option.isSome_map, List.find?_isSome]
    refine ⟨⟨seat, s.program.bugs[(s.world.bug seat).id], .entering⟩, ?_, by simp⟩
    exact List.mem_filterMap.mpr ⟨seat, hmem, by simp [hid]⟩
  obtain ⟨phase, hphase⟩ := Option.isSome_iff_exists.mp hsome
  rw [hphase, (phase?_start_eq_some hcrew hphase).1]

theorem phase?_of_hasEnded {s : Simulation} {crew : Crew} (hcrew : s.crew = some crew)
    (hended : crew.hasEnded) {seat : Nat} {phase : Phase} (h : s.phase? seat = some phase) :
    phase = .gone := by
  simp only [phase?, hcrew, Option.bind_some] at h
  obtain ⟨worker, hfind, rfl⟩ := Option.map_eq_some_iff.mp h
  simp only [Crew.hasEnded, Bool.and_eq_true, List.all_eq_true] at hended
  have hgone := hended.2 worker (List.mem_of_find?_eq_some hfind)
  cases hphase : worker.phase <;> simp_all [Phase.isGone]

theorem perform_world {s : Simulation} {e : Event} (hwork : ∀ seat, e ≠ .work seat)
    (hreset : e ≠ .command .reset) :
    (s.perform e).world = s.world ∧ (s.perform e).program = s.program := by
  cases e with
  | work seat => exact absurd rfl (hwork seat)
  | tick elapsed => cases hcrew : s.crew <;> simp [perform, changeCrew, hcrew, Crew.tick, world]
  | command c =>
    cases c with
    | start => cases hcrew : s.crew <;> simp [perform, obey, start, hcrew, world]
    | join =>
      simp only [perform, obey, join]
      split <;> exact ⟨rfl, rfl⟩
    | reset => exact absurd rfl hreset
    | _ => exact ⟨rfl, rfl⟩

/-- Whoever works after an event that is no step of its own and no reset has worked before it as it
does now, or was put to work by a start. -/
theorem worker?_perform_of_ne {s : Simulation} {seat : Nat} {e : Event} (hwork : e ≠ .work seat)
    (hreset : e ≠ .command .reset) {worker : Worker}
    (h : (s.perform e).worker? seat = some worker) :
    s.worker? seat = some worker ∨ e = .command .start ∧ s.crew = none ∧ worker.phase = .entering ∧
      seat ∈ s.world.registry ∧ s.program.bugs[(s.world.bug seat).id]? = some worker.definition := by
  cases e with
  | work other =>
    cases hworker : s.worker? other with
    | none => exact .inl (by rwa [perform_work_of_idle hworker] at h)
    | some _ =>
      have hne : seat ≠ other := fun he => hwork (by rw [he])
      obtain ⟨-, -, -, -, hworkers⟩ := perform_work_of_worker hworker
      rw [hworkers, if_neg hne] at h
      exact .inl h
  | tick elapsed =>
    left
    cases hcrew : s.crew <;> simp [perform, changeCrew, hcrew, Crew.tick, worker?] at h ⊢
    exact h
  | command c =>
    cases c with
    | start =>
      cases hcrew : s.crew with
      | some crew => exact .inl (by simpa [perform, obey, start, hcrew] using h)
      | none => exact .inr ⟨rfl, rfl, worker?_start_eq_some hcrew h⟩
    | join =>
      simp only [perform, obey, join] at h
      split at h
      · simp [worker?] at h
      · exact .inl h
    | reset => exact absurd rfl hreset
    | _ => exact .inl h

theorem worker?_perform_of_ne_gone {s : Simulation} {seat : Nat} {e : Event} (hwork : e ≠ .work seat)
    (hreset : e ≠ .command .reset) {worker : Worker} (h : s.worker? seat = some worker)
    (hgone : worker.phase ≠ .gone) : (s.perform e).worker? seat = some worker := by
  cases hcrew : s.crew with
  | none => simp [worker?, hcrew] at h
  | some crew =>
    cases e with
    | work other =>
      have hne : seat ≠ other := fun he => hwork (by rw [he])
      cases hother : s.worker? other with
      | none => rwa [perform_work_of_idle hother]
      | some _ =>
        obtain ⟨-, -, -, -, hworkers⟩ := perform_work_of_worker hother
        rwa [hworkers, if_neg hne]
    | tick elapsed => simpa [perform, changeCrew, hcrew, Crew.tick, worker?] using h
    | command c =>
      cases c with
      | start => simpa [perform, obey, start, hcrew, worker?] using h
      | join =>
        simp only [perform, obey, join]
        split
        · next hended =>
          have hover := phase?_of_hasEnded hcrew (by simpa [hcrew] using hended) (phase?_of_worker h)
          exact absurd hover hgone
        · exact h
      | reset => exact absurd rfl hreset
      | _ => exact h

theorem phase?_perform_of_ne {s : Simulation} {seat : Nat} {e : Event} (hwork : e ≠ .work seat)
    (hreset : e ≠ .command .reset) :
    (s.perform e).phase? seat = s.phase? seat ∨ (s.perform e).phase? seat = some .entering ∨
      (s.perform e).phase? seat = none := by
  simp only [phase?_eq_map]
  cases h : (s.perform e).worker? seat with
  | none => exact .inr (.inr rfl)
  | some worker =>
    rcases worker?_perform_of_ne hwork hreset h with hsame | ⟨-, -, hentering, -⟩
    · exact .inl (by rw [hsame])
    · exact .inr (.inl (by rw [Option.map_some, hentering]))

theorem any_phase?_perform_of_ne {s : Simulation} {p : Phase → Bool} (hentering : p .entering = false)
    (hgone : p .gone = false) {seat : Nat} {e : Event} (hwork : e ≠ .work seat)
    (hreset : e ≠ .command .reset) : ((s.perform e).phase? seat).any p = (s.phase? seat).any p := by
  by_cases hbefore : (s.phase? seat).any p
  · obtain ⟨phase, hphase, hp⟩ := (Option.any_eq_true _ _).mp hbefore
    rw [phase?_eq_map] at hphase
    obtain ⟨worker, hworker, rfl⟩ := Option.map_eq_some_iff.mp hphase
    have hstays := worker?_perform_of_ne_gone hwork hreset hworker (by rintro h; simp [h, hgone] at hp)
    rw [phase?_of_worker hworker, phase?_of_worker hstays]
  · rw [Bool.not_eq_true] at hbefore
    rcases phase?_perform_of_ne hwork hreset with hsame | hnew | hnone
    · rw [hsame]
    · rw [hbefore, hnew]
      exact hentering
    · rw [hbefore, hnone]
      rfl

/-- A reset builds everything anew; whoever works then waits for the first permit. -/
theorem reset_eq_ok {s fresh : Simulation} (h : s.reset = .ok fresh) :
    ∃ shared, build s.program s.config = .ok shared ∧
      fresh.shared = { shared with barrier := shared.barrier.hold } ∧
      fresh.program = s.program ∧ ∀ seat worker, fresh.worker? seat = some worker →
        worker.phase = .entering ∧ seat ∈ fresh.world.registry ∧
          fresh.program.bugs[(fresh.world.bug seat).id]? = some worker.definition := by
  obtain ⟨shared, hshared, h⟩ := bind_eq_ok.mp h
  refine ⟨shared, hshared, ?_⟩
  cases h
  split
  · refine ⟨rfl, rfl, fun seat worker hworker => ?_⟩
    obtain ⟨hentering, hmem, hdefinition⟩ := worker?_start_eq_some rfl hworker
    exact ⟨hentering, hmem, hdefinition⟩
  · exact ⟨rfl, rfl, fun seat worker hworker => by simp [worker?] at hworker⟩

/-- How many events of a run happen in a state with which they have some property. -/
def count (p : Simulation → Event → Bool) : Simulation → List Event → Nat
  | _, [] => 0
  | s, e :: events => (p s e).toNat + count p (s.perform e) events

theorem performAll_append (s : Simulation) (before after : List Event) :
    s.performAll (before ++ after) = (s.performAll before).performAll after := by
  simp [performAll]

theorem performAll_concat (s : Simulation) (events : List Event) (e : Event) :
    s.performAll (events ++ [e]) = (s.performAll events).perform e := by
  simp [performAll]

theorem count_concat (p : Simulation → Event → Bool) (s : Simulation) (events : List Event)
    (e : Event) :
    count p s (events ++ [e]) = count p s events + (p (s.performAll events) e).toNat := by
  induction events generalizing s with
  | nil => simp [count, performAll]
  | cons first events ih =>
    simp only [List.cons_append, count, ih]
    simp only [performAll, List.foldl_cons]
    omega

/-- Simulations at their beginning: just created, or reset after some run. -/
inductive Begins (program : Program) : Simulation → Prop
  | created {config : RunConfig} {s : Simulation} (h : create program config = .ok s) :
    Begins program s
  | reset {config : RunConfig} {s fresh : Simulation} (h : create program config = .ok s)
    (events : List Event) (hfresh : (s.performAll events).reset = .ok fresh) : Begins program fresh

theorem program_perform (s : Simulation) (e : Event) : (s.perform e).program = s.program := by
  by_cases hwork : ∃ seat, e = .work seat
  · obtain ⟨seat, rfl⟩ := hwork
    cases hworker : s.worker? seat with
    | none => rw [perform_work_of_idle hworker]
    | some worker => exact (perform_work_of_worker hworker).2.1
  · by_cases hreset : e = .command .reset
    · subst hreset
      simp only [perform, obey]
      split
      · next hfresh =>
        obtain ⟨_, -, -, hprogram, -⟩ := reset_eq_ok hfresh
        exact hprogram
      · rfl
    · exact (perform_world (fun seat he => hwork ⟨seat, he⟩) hreset).2

theorem program_performAll (s : Simulation) (events : List Event) :
    (s.performAll events).program = s.program := by
  induction events generalizing s with
  | nil => rfl
  | cons e events ih => exact (ih (s.perform e)).trans (s.program_perform e)

theorem Begins.enrolled {program : Program} {s : Simulation} (h : Begins program s) :
    ∃ idle : Simulation, idle.crew = none ∧ idle.program = program ∧
      Enrolled program.bugs.length idle.shared ∧
      (s = idle ∧ s.started = false ∨ s = idle.start) := by
  cases h with
  | created h =>
    obtain ⟨hbuild, hprogram, -, hcrew, hstarted⟩ := create_eq_ok h
    exact ⟨s, hcrew, hprogram, build_enrolled hbuild, .inl ⟨rfl, hstarted⟩⟩
  | @reset config s₀ _ h events hfresh =>
    have hprogram : (s₀.performAll events).program = program :=
      (s₀.program_performAll events).trans (create_eq_ok h).2.1
    obtain ⟨shared, hbuild, hfresh⟩ := bind_eq_ok.mp hfresh
    have henrolled := build_enrolled hbuild
    rw [hprogram] at henrolled
    refine ⟨{ s₀.performAll events with
      shared := { shared with barrier := shared.barrier.hold }, crew := none }, rfl, hprogram,
      ⟨henrolled.ids, henrolled.registry, henrolled.live, henrolled.lines, henrolled.failures,
        henrolled.rounds, henrolled.supervised⟩, ?_⟩
    cases hfresh
    by_cases hstarted : (s₀.performAll events).started = true
    · exact .inr (by rw [if_pos hstarted])
    · rw [if_neg hstarted]
      exact .inl ⟨rfl, by simpa using hstarted⟩

theorem Begins.built {program : Program} {s : Simulation} (h : Begins program s) :
    ∃ config shared, build program config = .ok shared ∧
      (s.shared = shared ∨ s.shared = { shared with barrier := shared.barrier.hold }) := by
  cases h with
  | created h => exact ⟨_, s.shared, (create_eq_ok h).1, .inl rfl⟩
  | @reset config s₀ _ h events hfresh =>
    have hprogram : (s₀.performAll events).program = program :=
      (s₀.program_performAll events).trans (create_eq_ok h).2.1
    obtain ⟨shared, hbuild, hshared, -⟩ := reset_eq_ok hfresh
    rw [hprogram] at hbuild
    exact ⟨_, shared, hbuild, .inr hshared⟩

theorem Begins.program {program : Program} {s : Simulation} (h : Begins program s) :
    s.program = program := by
  cases h with
  | created h => exact (create_eq_ok h).2.1
  | @reset config s₀ _ h events hfresh =>
    obtain ⟨_, -, -, hprogram, -⟩ := reset_eq_ok hfresh
    rw [hprogram, program_performAll]
    exact (create_eq_ok h).2.1

theorem Begins.phase? {program : Program} {s : Simulation} (hs : Begins program s) {seat : Nat}
    {phase : Phase} (h : s.phase? seat = some phase) : phase = .entering := by
  obtain ⟨idle, hcrew, -, -, ⟨rfl, -⟩ | rfl⟩ := hs.enrolled
  · simp [Simulation.phase?, hcrew] at h
  · exact (phase?_start_eq_some hcrew h).1

/-- Every state that a run reaches is reached without a reset from a beginning. -/
theorem exists_begins {program : Program} {config : RunConfig} {s : Simulation}
    (h : create program config = .ok s) (events : List Event) :
    ∃ s' events', Begins program s' ∧ .command .reset ∉ events' ∧
      s.performAll events = s'.performAll events' := by
  induction events using List.reverseRecOn with
  | nil => exact ⟨s, [], .created h, by simp, rfl⟩
  | append_singleton events e ih =>
    obtain ⟨s', events', hbegins, hreset, hsame⟩ := ih
    rw [performAll_concat]
    by_cases he : e = .command .reset
    · subst he
      cases hfresh : (s.performAll events).reset with
      | ok fresh =>
        refine ⟨fresh, [], .reset h events hfresh, by simp, ?_⟩
        simp only [perform, obey, hfresh]
        rfl
      | error fault =>
        refine ⟨s', events' ++ [.command .kill], hbegins, by simpa using hreset, ?_⟩
        rw [performAll_concat, ← hsame]
        simp only [perform, obey, hfresh]
    · refine ⟨s', events' ++ [e], hbegins, by simpa using ⟨hreset, Ne.symm he⟩, ?_⟩
      rw [performAll_concat, hsame]

end Simulation

end DrawingBugs
