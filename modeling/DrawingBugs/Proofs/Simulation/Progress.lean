import DrawingBugs.Proofs.Simulation.Lockstep

/-!
# Progress

The barrier never waits for a bug that cannot reach it. A bug is live until its worker has taken
it out of the barrier, and it is released by a grant until it parks or leaves. So whoever holds up
the next round can take a step, and when nobody does the loop can grant the round.
-/

namespace DrawingBugs

namespace Table

variable {κ α : Type} [DecidableEq κ]

theorem get?_of_mem {t : Table κ α} (hnodup : t.keys.Nodup) {key : κ} {a : α} (h : (key, a) ∈ t) :
    t.get? key = some a := by
  induction t with
  | nil => cases h
  | cons entry rest ih =>
    obtain ⟨k, b⟩ := entry
    simp only [keys, List.map_cons, List.nodup_cons] at hnodup
    rcases List.mem_cons.mp h with heq | hmem
    · cases heq
      simp [get?]
    · have hne : k ≠ key := fun hk => hnodup.1 (hk ▸ List.mem_map_of_mem hmem)
      simp [get?, hne, ih hnodup.2 hmem]

private theorem keys_erase_sublist (t : Table κ α) (key : κ) :
    (t.erase key).keys.Sublist t.keys := by
  induction t with
  | nil => exact .slnil
  | cons entry rest ih =>
    obtain ⟨k, b⟩ := entry
    simp only [erase]
    split
    · exact ih.cons k
    · exact ih.cons_cons k

end Table

private theorem Barrier.keys_grant (b : Barrier) : b.grant.live.keys = b.live.keys := by
  simp [Barrier.grant, Table.keys, Function.comp_def]

def Phase.isDeparting : Phase → Bool
  | .departing => true
  | _ => false

namespace Simulation

/-! ## What an event does at the barrier -/

/-- Whether the next step of the bug at a seat takes it out of the barrier. -/
def isDeparting (s : Simulation) (seat : Nat) : Bool := (s.phase? seat).any Phase.isDeparting

/-- Whether an event takes the bug at a seat out of the barrier. -/
def departsAt (seat : Nat) (s : Simulation) (e : Event) : Bool := e = .work seat ∧ s.isDeparting seat

/-- How often the bug at a seat leaves the barrier in a run. -/
def departures (seat : Nat) : Simulation → List Event → Nat := count (departsAt seat)

/-- Whether an event grants a round. -/
def grants (s : Simulation) (e : Event) : Bool := s.barrier.rounds < (s.perform e).barrier.rounds

/-- The barrier after an event other than a reset. -/
inductive BarrierMove (s : Simulation) : Event → Barrier → Prop
  | work {seat : Nat} (hparking : s.isParking seat = false) (hdeparting : s.isDeparting seat = false) :
    BarrierMove s (.work seat) s.barrier
  | park {seat : Nat} (hparking : s.isParking seat = true) (hdeparting : s.isDeparting seat = false) :
    BarrierMove s (.work seat) (s.barrier.park seat)
  | depart {seat : Nat} (hparking : s.isParking seat = false) (hdeparting : s.isDeparting seat = true) :
    BarrierMove s (.work seat) (s.barrier.terminate seat)
  | tick {elapsed : Nat} : BarrierMove s (.tick elapsed) s.barrier
  | grant {elapsed : Nat} (hmay : s.barrier.mayGrant) (hkilled : s.barrier.killed = false)
    (hlive : s.barrier.live ≠ []) : BarrierMove s (.tick elapsed) s.barrier.grant
  | start : BarrierMove s (.command .start) s.barrier
  | join : BarrierMove s (.command .join) s.barrier
  | run : BarrierMove s (.command .run) s.barrier.run
  | pause : BarrierMove s (.command .pause) s.barrier.hold
  | step : BarrierMove s (.command .step) s.barrier.step
  | kill : BarrierMove s (.command .kill) s.barrier.kill
  | setPause {milliseconds : Nat} :
    BarrierMove s (.command (.setPause milliseconds)) (s.barrier.setPause milliseconds)

private theorem work_barrierMove (s : Simulation) (seat : Nat) :
    BarrierMove s (.work seat) (s.perform (.work seat)).barrier := by
  cases hphase : s.phase? seat with
  | none =>
    rw [perform_work_of_none hphase]
    exact .work (by simp [isParking, hphase]) (by simp [isDeparting, hphase])
  | some phase =>
    obtain ⟨phase', hmove, -, -, -⟩ := perform_work_of_some hphase
    have hparking : s.isParking seat = phase.isParking := by simp [isParking, hphase]
    have hdeparting : s.isDeparting seat = phase.isDeparting := by simp [isDeparting, hphase]
    rw [barrier]
    generalize (s.perform (.work seat)).shared = shared at hmove
    cases hmove with
    | depart => exact .depart (hparking.trans rfl) (hdeparting.trans rfl)
    | run _ hmove =>
      cases hmove with
      | park hm => exact .park (by simp [hparking, Phase.isParking, hm]) (hdeparting.trans rfl)
      | compute hcomputing _ _ =>
        exact .work (hparking.trans (Phase.isParking_of_isComputing hcomputing)) (hdeparting.trans rfl)
      | act hm | draw hm | wait hm | proceed hm | halt hm | unwind hm =>
        exact .work (by simp [hparking, Phase.isParking, hm]) (hdeparting.trans rfl)
    | finish houtcome =>
      exact .work (hparking.trans (Phase.isParking_of_outcome houtcome)) (hdeparting.trans rfl)
    | _ => exact .work (hparking.trans rfl) (hdeparting.trans rfl)

private theorem tick_barrierMove (s : Simulation) (elapsed : Nat) :
    BarrierMove s (.tick elapsed) (s.perform (.tick elapsed)).barrier := by
  cases hcrew : s.crew with
  | none =>
    have hidle : s.perform (.tick elapsed) = s := by simp [perform, changeCrew, hcrew]
    rw [hidle]
    exact .tick
  | some crew =>
    have hbarrier : (s.perform (.tick elapsed)).barrier = (crew.loop.advance elapsed s.barrier).2 := by
      simp [perform, changeCrew, hcrew, Crew.tick, barrier]
    rw [hbarrier]
    rcases crew.loop.advance_cases elapsed s.barrier with ⟨hkept, -⟩ | ⟨hgrant, hmay, hkilled, hlive⟩
    · rw [hkept]
      exact .tick
    · rw [hgrant]
      exact .grant hmay hkilled hlive

theorem perform_barrierMove (s : Simulation) {e : Event} (hreset : e ≠ .command .reset) :
    BarrierMove s e (s.perform e).barrier := by
  cases e with
  | work seat => exact s.work_barrierMove seat
  | tick elapsed => exact s.tick_barrierMove elapsed
  | command c =>
    cases c with
    | start =>
      have hsame : (s.perform (.command .start)).barrier = s.barrier := by
        cases hcrew : s.crew <;> simp [perform, obey, Simulation.start, hcrew, barrier]
      rw [hsame]
      exact .start
    | join =>
      have hsame : (s.perform (.command .join)).barrier = s.barrier := by
        simp only [perform, obey, Simulation.join]
        split <;> rfl
      rw [hsame]
      exact .join
    | run => exact .run
    | pause => exact .pause
    | step => exact .step
    | kill => exact .kill
    | setPause milliseconds => exact .setPause
    | reset => exact absurd rfl hreset

theorem BarrierMove.keys {s : Simulation} {e : Event} {b : Barrier} (h : BarrierMove s e b) :
    b.live.keys.Sublist s.barrier.live.keys := by
  cases h with
  | park _ _ => simp [Barrier.park]
  | depart _ _ => exact Table.keys_erase_sublist _ _
  | grant _ _ _ => simp [Barrier.keys_grant]
  | _ => exact .refl _

theorem BarrierMove.killed {s : Simulation} {e : Event} {b : Barrier} (h : BarrierMove s e b)
    (hkilled : s.barrier.killed) : b.killed := by
  cases h with
  | kill => rfl
  | _ => exact hkilled

theorem BarrierMove.killed_eq {s : Simulation} {e : Event} {b : Barrier} (h : BarrierMove s e b)
    (hkill : e ≠ .command .kill) : b.killed = s.barrier.killed := by
  cases h with
  | kill => exact absurd rfl hkill
  | _ => rfl

theorem of_grants {s : Simulation} {e : Event} (hreset : e ≠ .command .reset) (h : grants s e) :
    (∃ elapsed, e = .tick elapsed) ∧ (s.perform e).barrier = s.barrier.grant ∧
      s.barrier.mayGrant ∧ s.barrier.killed = false := by
  have hmove := s.perform_barrierMove hreset
  simp only [grants, decide_eq_true_eq] at h
  generalize (s.perform e).barrier = b at hmove h
  cases hmove with
  | @grant elapsed hmay hkilled _ => exact ⟨⟨elapsed, rfl⟩, rfl, hmay, hkilled⟩
  | _ => exact absurd h (Nat.lt_irrefl _)

/-- The flag of a bug after an event: a grant releases it, it goes with the bug, and it goes up
when the bug parks. -/
theorem flag_perform (s : Simulation) {e : Event} (hreset : e ≠ .command .reset) (seat : Nat) :
    (s.perform e).barrier.live.get? seat =
      if grants s e then (s.barrier.live.get? seat).map fun _ => false
      else if departsAt seat s e then none
      else if parksAt seat s e then (s.barrier.live.get? seat).map fun _ => true
      else s.barrier.live.get? seat := by
  have hmove := s.perform_barrierMove hreset
  simp only [grants, decide_eq_true_eq]
  generalize (s.perform e).barrier = b at hmove
  cases hmove with
  | grant _ _ _ =>
    rw [Barrier.get?_grant]
    simp [Barrier.grant]
  | @park other hparking hdeparting =>
    by_cases hseat : other = seat
    · subst hseat
      simp [Barrier.park, departsAt, parksAt, hparking, hdeparting]
    · simp [Barrier.park, departsAt, parksAt, hseat]
  | @depart other hparking hdeparting =>
    by_cases hseat : other = seat
    · subst hseat
      simp [Barrier.terminate, departsAt, hdeparting]
    · simp [Barrier.terminate, departsAt, parksAt, hseat]
  | @work other hparking hdeparting =>
    by_cases hseat : other = seat
    · subst hseat
      simp [departsAt, parksAt, hparking, hdeparting]
    · simp [departsAt, parksAt, hseat]
  | _ => simp [departsAt, parksAt, Barrier.run, Barrier.hold, Barrier.step, Barrier.kill, Barrier.setPause]

/-! ## Released bugs -/

/-- The latest grant of a run came to the bug at a seat, which has neither parked nor left since. -/
def Released (seat : Nat) (s : Simulation) (events : List Event) : Prop :=
  ∃ before e after, events = before ++ e :: after ∧
    grants (s.performAll before) e ∧ (s.performAll before).barrier.live.contains seat ∧
    count grants (s.performAll (before ++ [e])) after = 0 ∧
    parks seat (s.performAll (before ++ [e])) after = 0 ∧
    departures seat (s.performAll (before ++ [e])) after = 0

private theorem released_concat (seat : Nat) (s : Simulation) (events : List Event) (e : Event) :
    Released seat s (events ++ [e]) ↔
      grants (s.performAll events) e ∧ (s.performAll events).barrier.live.contains seat ∨
      grants (s.performAll events) e = false ∧ Released seat s events ∧
        parksAt seat (s.performAll events) e = false ∧
        departsAt seat (s.performAll events) e = false := by
  constructor
  · rintro ⟨before, first, after, hevents, hgrants, hlive, hnone, hparks, hdepartures⟩
    rcases List.eq_nil_or_concat after with rfl | ⟨middle, last, rfl⟩
    · obtain ⟨rfl, hlast⟩ := List.append_inj' hevents rfl
      cases hlast
      exact .inl ⟨hgrants, hlive⟩
    · have hsplit : events ++ [e] = (before ++ first :: middle) ++ [last] := by simpa using hevents
      obtain ⟨rfl, hlast⟩ := List.append_inj' hsplit rfl
      cases hlast
      have hmiddle : before ++ [first] ++ middle = before ++ first :: middle := by simp
      simp only [parks, departures, List.concat_eq_append, count_concat, ← performAll_append, hmiddle,
        Nat.add_eq_zero_iff, Bool.toNat_eq_zero] at hnone hparks hdepartures
      exact .inr ⟨hnone.2, ⟨before, first, middle, rfl, hgrants, hlive, hnone.1, hparks.1,
        hdepartures.1⟩, hparks.2, hdepartures.2⟩
  · rintro (⟨hgrants, hlive⟩ | ⟨hgrants, ⟨before, first, after, rfl, hfirst, hlive, hnone, hparks,
      hdepartures⟩, hstays, hremains⟩)
    · exact ⟨events, e, [], rfl, hgrants, hlive, rfl, rfl, rfl⟩
    · refine ⟨before, first, after ++ [e], by simp, hfirst, hlive, ?_⟩
      have hafter : before ++ [first] ++ after = before ++ first :: after := by simp
      simp only [parks, departures] at hparks hdepartures
      simp [parks, departures, count_concat, ← performAll_append, hafter, hnone, hparks, hdepartures,
        hgrants, hstays, hremains]

private theorem flag_eq_false_iff {s : Simulation}
    (hs : ∀ seat, s.barrier.live.get? seat ≠ some false) (events : List Event)
    (hreset : .command .reset ∉ events) (seat : Nat) :
    (s.performAll events).barrier.live.get? seat = some false ↔ Released seat s events := by
  induction events using List.reverseRecOn with
  | nil =>
    refine iff_of_false (hs seat) ?_
    rintro ⟨before, e, after, hevents, -⟩
    simp at hevents
  | append_singleton events e ih =>
    -- The last event does to the flag what it does to being released.
    simp only [List.mem_append, List.mem_singleton, not_or] at hreset
    rw [released_concat, performAll_concat, flag_perform _ (Ne.symm hreset.2), ← ih hreset.1]
    cases grants (s.performAll events) e with
    | true => simp [Table.contains, Option.isSome_iff_exists]
    | false =>
      cases departsAt seat (s.performAll events) e <;>
        cases parksAt seat (s.performAll events) e <;> simp

theorem live_iff_departures {s : Simulation} (events : List Event) (hreset : .command .reset ∉ events)
    (seat : Nat) :
    (s.performAll events).barrier.live.contains seat ↔
      s.barrier.live.contains seat ∧ departures seat s events = 0 := by
  induction events using List.reverseRecOn with
  | nil => simp [departures, count, performAll]
  | append_singleton events e ih =>
    simp only [List.mem_append, List.mem_singleton, not_or] at hreset
    have hbefore := ih hreset.1
    simp only [departures, count_concat, performAll_concat, Table.contains, Nat.add_eq_zero_iff,
      Bool.toNat_eq_zero, flag_perform _ (Ne.symm hreset.2)] at hbefore ⊢
    rw [← and_assoc, ← hbefore]
    by_cases hgrants : grants (s.performAll events) e
    · obtain ⟨⟨elapsed, rfl⟩, -⟩ := of_grants (Ne.symm hreset.2) hgrants
      simp [hgrants, departsAt]
    · cases departsAt seat (s.performAll events) e <;>
        cases parksAt seat (s.performAll events) e <;> simp [hgrants]

/-! ## Attendance -/

/-- Everybody who is live is attended to: by a worker once the simulation has been started, and by
the loop as long as nobody was killed. -/
structure Attended (s : Simulation) : Prop where
  nodup : s.barrier.live.keys.Nodup
  workers : s.crew.isSome → ∀ seat, s.barrier.live.contains seat → (s.phase? seat).isSome
  registered : s.crew = none → ∀ seat, s.barrier.live.contains seat →
    seat ∈ s.world.registry ∧ s.started = false
  loop : ∀ crew, s.crew = some crew → crew.loop = .ended → s.barrier.killed ∨ s.barrier.live = []

variable {actions parks : Nat → Nat} {s : Simulation}

private theorem InStep.phase?_start (h : InStep actions parks s) (hcrew : s.crew = none)
    {seat : Nat} (hseat : seat ∈ s.world.registry) : (s.start.phase? seat).isSome := by
  have hid : (s.world.bug seat).id < s.program.bugs.length := by
    rw [h.id_eq (h.registry seat hseat)]
    exact h.registry seat hseat
  rw [Simulation.phase?_start hcrew hseat hid]
  rfl

private theorem Enrolled.attended {n : Nat} {shared : Shared} (h : Enrolled n shared) :
    shared.barrier.live.keys.Nodup ∧
      ∀ seat, shared.barrier.live.contains seat → seat ∈ shared.world.registry := by
  constructor
  · simp [h.live, Table.keys, Function.comp_def, List.nodup_range]
  · intro seat hseat
    rw [Table.contains, h.flag] at hseat
    rw [h.registry]
    by_contra hout
    simp [hout] at hseat

private theorem InStep.attended_start (h : InStep actions parks s) (hcrew : s.crew = none)
    (hnodup : s.barrier.live.keys.Nodup)
    (hregistered : ∀ seat, s.barrier.live.contains seat → seat ∈ s.world.registry) :
    Attended s.start := by
  have hbarrier : s.start.barrier = s.barrier := by simp [Simulation.start, hcrew, barrier]
  refine ⟨hbarrier ▸ hnodup, fun _ seat hseat => ?_, ?_, ?_⟩
  · rw [hbarrier] at hseat
    exact h.phase?_start hcrew (hregistered seat hseat)
  · simp [Simulation.start, hcrew]
  · intro crew hstarted hended
    simp only [Simulation.start, hcrew, Option.some.injEq] at hstarted
    subst hstarted
    cases hended

theorem Attended.begins {program : Program} (h : Begins program s) : Attended s := by
  obtain ⟨idle, hcrew, rfl, henrolled, hidle⟩ := h.enrolled
  obtain ⟨hnodup, hregistered⟩ := henrolled.attended
  rcases hidle with ⟨rfl, hstarted⟩ | rfl
  · exact ⟨hnodup, by simp [hcrew], fun _ seat hseat => ⟨hregistered seat hseat, hstarted⟩,
      by simp [hcrew]⟩
  · exact (InStep.enrolled hcrew henrolled).attended_start hcrew hnodup hregistered

private theorem Attended.start (h : Attended s) (hstep : InStep actions parks s) :
    Attended s.start := by
  cases hcrew : s.crew with
  | some crew =>
    have hidle : s.start = s := by simp [Simulation.start, hcrew]
    rwa [hidle]
  | none => exact hstep.attended_start hcrew h.nodup fun seat hseat => (h.registered hcrew seat hseat).1

theorem Attended.not_live_of_hasEnded (h : Attended s) (hstep : InStep actions parks s) {crew : Crew}
    (hcrew : s.crew = some crew) (hended : crew.hasEnded) (seat : Nat) :
    s.barrier.live.contains seat = false := by
  by_contra hlive
  rw [Bool.not_eq_false] at hlive
  obtain ⟨phase, hphase⟩ := Option.isSome_iff_exists.mp (h.workers (by simp [hcrew]) seat hlive)
  have hinStep := hstep.workers seat phase hphase
  rw [phase?_of_hasEnded hcrew hended hphase] at hinStep
  simp [Phase.InStep] at hinStep
  simp [Table.contains, hinStep] at hlive

private theorem Attended.join (h : Attended s) (hstep : InStep actions parks s) :
    Attended s.join := by
  simp only [Simulation.join]
  split
  next hended =>
    refine ⟨h.nodup, by simp, fun _ seat hseat => ?_, by simp⟩
    cases hcrew : s.crew with
    | none => exact h.registered hcrew seat hseat
    | some crew =>
      have hnot := h.not_live_of_hasEnded hstep hcrew (by simpa [hcrew] using hended) seat
      exact absurd (hnot.symm.trans hseat) (by simp)
  next => exact h

private theorem Attended.of_barrierMove (h : Attended s) {s' : Simulation} {e : Event}
    (hmove : BarrierMove s e s'.barrier) (hcrew : s'.crew = none ↔ s.crew = none)
    (hphases : ∀ seat, (s.phase? seat).isSome → (s'.phase? seat).isSome)
    (hregistry : s.crew = none → s'.world.registry = s.world.registry ∧ s'.started = s.started)
    (hloop : ∀ crew', s'.crew = some crew' → crew'.loop = .ended →
      (∃ crew, s.crew = some crew ∧ crew.loop = .ended) ∨ s.barrier.killed ∨ s.barrier.live = []) :
    Attended s' := by
  have hlive {seat : Nat} (hseat : s'.barrier.live.contains seat) : s.barrier.live.contains seat :=
    Table.contains_iff_mem_keys.mpr (hmove.keys.subset (Table.contains_iff_mem_keys.mp hseat))
  refine ⟨hmove.keys.nodup h.nodup, fun hsome seat hseat => ?_, fun hnone seat hseat => ?_, ?_⟩
  · refine hphases seat (h.workers ?_ seat (hlive hseat))
    rw [Option.isSome_iff_ne_none] at hsome ⊢
    exact fun hnone => hsome (hcrew.mpr hnone)
  · obtain ⟨hmem, hstarted⟩ := h.registered (hcrew.mp hnone) seat (hlive hseat)
    obtain ⟨hsame, hagain⟩ := hregistry (hcrew.mp hnone)
    exact ⟨hsame ▸ hmem, hagain.trans hstarted⟩
  · intro crew' hcrew' hended
    have hover : s.barrier.killed ∨ s.barrier.live = [] := by
      rcases hloop crew' hcrew' hended with ⟨crew, hcrew, hended⟩ | hover
      · exact h.loop crew hcrew hended
      · exact hover
    refine hover.imp hmove.killed fun hempty => ?_
    have hkeys := hmove.keys
    simpa [hempty, Table.keys] using hkeys

private theorem Attended.work (h : Attended s) (seat : Nat) :
    Attended (s.perform (.work seat)) := by
  have hmove := s.work_barrierMove seat
  cases hworker : s.worker? seat with
  | none => rwa [perform_work_of_idle hworker]
  | some worker =>
    obtain ⟨-, -, -, hloop, hworkers⟩ := perform_work_of_worker hworker
    refine h.of_barrierMove hmove ?_ ?_ ?_ ?_
    · rw [← Option.map_eq_none_iff (f := Crew.loop), hloop, Option.map_eq_none_iff]
    · intro i hi
      rw [phase?_eq_map, hworkers]
      split
      · rfl
      · rwa [← phase?_eq_map]
    · intro hnone
      simp [worker?, hnone] at hworker
    · intro crew' hcrew' hended
      rw [hcrew'] at hloop
      obtain ⟨crew, hcrew, hsame⟩ := Option.map_eq_some_iff.mp hloop.symm
      exact .inl ⟨crew, hcrew, hsame.trans hended⟩

private theorem Attended.tick (h : Attended s) (elapsed : Nat) :
    Attended (s.perform (.tick elapsed)) := by
  have hmove := s.tick_barrierMove elapsed
  cases hcrew : s.crew with
  | none =>
    have hidle : s.perform (.tick elapsed) = s := by simp [Simulation.perform, changeCrew, hcrew]
    rwa [hidle]
  | some crew =>
    have hafter : (s.perform (.tick elapsed)).crew =
        some { crew with loop := (crew.loop.advance elapsed s.barrier).1 } := by
      simp [Simulation.perform, changeCrew, hcrew, Crew.tick, barrier]
    refine h.of_barrierMove hmove ?_ ?_ ?_ ?_
    · simp [hafter, hcrew]
    · intro seat hseat
      simpa [phase?, hafter, hcrew] using hseat
    · simp [hcrew]
    · intro crew' hcrew' hended
      cases hafter.symm.trans hcrew'
      rcases crew.loop.advance_cases elapsed s.barrier with ⟨-, hover⟩ | ⟨hgrant, -⟩
      · rcases hover hended with hbefore | hover
        · exact .inl ⟨crew, hcrew, hbefore⟩
        · exact .inr hover
      · simp [hgrant] at hended

theorem Attended.perform (h : Attended s) (hstep : InStep actions parks s) {e : Event}
    (hreset : e ≠ .command .reset) : Attended (s.perform e) := by
  cases e with
  | work seat => exact h.work seat
  | tick elapsed => exact h.tick elapsed
  | command c =>
    cases c with
    | start => exact h.start hstep
    | join => exact h.join hstep
    | run | pause | step | kill | setPause milliseconds =>
      exact h.of_barrierMove (s.perform_barrierMove hreset) Iff.rfl (fun _ hseat => hseat)
        (fun _ => ⟨rfl, rfl⟩) fun crew hcrew hended => .inl ⟨crew, hcrew, hended⟩
    | reset => exact absurd rfl hreset

theorem Attended.performAll {program : Program} (hs : Begins program s) (events : List Event)
    (hreset : .command .reset ∉ events) : Attended (s.performAll events) :=
  hs.invariant (Attended.begins hs) (fun hstep hreset h => h.perform hstep hreset) events hreset

/-! ## Progress -/

/-- Without a kill nobody who is released waits: wherever its worker is, it can take a step. -/
private theorem InStep.isReady_of_released (h : InStep actions parks s)
    (hkilled : s.barrier.killed = false) {seat : Nat}
    (hflag : s.barrier.live.get? seat = some false) {phase : Phase}
    (hphase : s.phase? seat = some phase) : phase.isReady seat s.barrier := by
  have hpermit : s.barrier.permit seat = .granted := by simp [Barrier.permit, hkilled, hflag]
  have hinStep := h.workers seat phase hphase
  cases phase with
  | entering => simp [Phase.isReady, hpermit]
  | running m => cases hm : m.focus <;> simp [Phase.isReady, Machine.isWaiting, hm, hpermit]
  | failing _ | leaving | departing => rfl
  | gone => simp [Phase.InStep, hflag] at hinStep

/-- Without a kill the loop goes on as long as somebody is live, and grants a round that may be
granted once its pause is over. -/
private theorem Attended.perform_tick (h : Attended s) (hcrew : s.crew.isSome)
    (hkilled : s.barrier.killed = false) (hlive : s.barrier.live ≠ []) (hmay : s.barrier.mayGrant)
    {elapsed : Nat} (helapsed : s.barrier.pause ≤ elapsed) :
    (s.perform (.tick elapsed)).barrier = s.barrier.grant := by
  obtain ⟨crew, hcrew⟩ := Option.isSome_iff_exists.mp hcrew
  have hattend : LoopPhase.attend s.barrier = (.sleeping, s.barrier.grant) := by
    simp [LoopPhase.attend, hkilled, hlive, hmay]
  have hadvance : crew.loop.advance elapsed s.barrier = (.sleeping, s.barrier.grant) := by
    cases hloop : crew.loop with
    | sleeping => simp [LoopPhase.advance, helapsed, hattend]
    | waiting => exact hattend
    | ended => simpa [hkilled, hlive] using h.loop crew hcrew hloop
  have hbarrier : (s.perform (.tick elapsed)).barrier = (crew.loop.advance elapsed s.barrier).2 := by
    simp [Simulation.perform, changeCrew, hcrew, Crew.tick, barrier]
  rw [hbarrier, hadvance]

private theorem Attended.exists_released (h : Attended s) (hparked : ¬ s.barrier.allParked) :
    ∃ seat, s.barrier.live.get? seat = some false := by
  simp only [Barrier.allParked, List.all_eq_true, not_forall] at hparked
  obtain ⟨⟨seat, flag⟩, hmem, hflag⟩ := hparked
  rw [Bool.not_eq_true] at hflag
  exact ⟨seat, Table.get?_of_mem h.nodup (hflag ▸ hmem)⟩

/-- At a beginning exactly the bugs of the program are live, and all of them are parked. -/
theorem Begins.flag {program : Program} (h : Begins program s) (seat : Nat) :
    s.barrier.live.get? seat = if seat < program.bugs.length then some true else none := by
  obtain ⟨idle, hcrew, rfl, henrolled, hidle⟩ := h.enrolled
  have hbarrier : s.barrier = idle.shared.barrier := by
    rcases hidle with ⟨rfl, -⟩ | rfl
    · rfl
    · simp [Simulation.start, hcrew, barrier]
  rw [hbarrier, henrolled.flag]
  simp only [List.mem_range]

/-- Somebody who is live can take a step, or the next round can be granted. -/
private theorem Attended.progress (h : Attended s) (hstep : InStep actions parks s)
    (hstarted : s.started = true) (hkilled : s.barrier.killed = false) (hlive : s.barrier.live ≠ []) :
    (∃ seat phase, s.barrier.live.contains seat ∧ s.phase? seat = some phase ∧
        phase.isReady seat s.barrier) ∨
      s.barrier.allParked ∧ ∀ elapsed, s.barrier.pause ≤ elapsed →
        s.barrier.running ∨ s.barrier.stepPending →
        (s.perform (.tick elapsed)).barrier = s.barrier.grant := by
  have hcrew : s.crew.isSome := by
    obtain ⟨⟨seat, flag⟩, hmem⟩ := List.exists_mem_of_ne_nil _ hlive
    have hseat : s.barrier.live.contains seat := by
      simp [Table.contains, Table.get?_of_mem h.nodup hmem]
    by_contra hnone
    have hidle := (h.registered (by simpa using hnone) seat hseat).2
    simp [hidle] at hstarted
  by_cases hparked : s.barrier.allParked
  · refine .inr ⟨hparked, fun elapsed helapsed hallowed => ?_⟩
    exact h.perform_tick hcrew hkilled hlive (by simp [Barrier.mayGrant, hparked, hallowed]) helapsed
  · obtain ⟨seat, hflag⟩ := h.exists_released hparked
    have hseat : s.barrier.live.contains seat := by simp [Table.contains, hflag]
    obtain ⟨phase, hphase⟩ := Option.isSome_iff_exists.mp (h.workers hcrew seat hseat)
    exact .inl ⟨seat, phase, hseat, hphase, hstep.isReady_of_released hkilled hflag hphase⟩

/-- **Progress.** In every run that was started and not killed: a bug is live exactly until its
worker takes it out of the barrier; its flag is down exactly if the latest grant came to it and it
has neither parked nor left since; whoever is released can take a step, wherever its worker was
when the round was granted; and while anybody is live, some live bug can take a step, or all of
them are parked and the loop grants a round once its pause is over and running or a single step is
allowed. -/
theorem barrier_never_stuck {program : Program} {s : Simulation} (hs : Begins program s)
    (events : List Event) (hreset : .command .reset ∉ events)
    (hstarted : (s.performAll events).started = true)
    (hkilled : (s.performAll events).barrier.killed = false) :
    (∀ seat, (s.performAll events).barrier.live.contains seat ↔
      seat < program.bugs.length ∧ departures seat s events = 0) ∧
    (∀ seat, (s.performAll events).barrier.live.get? seat = some false ↔ Released seat s events) ∧
    (∀ seat phase, (s.performAll events).phase? seat = some phase → Released seat s events →
      phase.isReady seat (s.performAll events).barrier) ∧
    ((s.performAll events).barrier.live ≠ [] →
      (∃ seat phase, (s.performAll events).barrier.live.contains seat ∧
        (s.performAll events).phase? seat = some phase ∧
        phase.isReady seat (s.performAll events).barrier) ∨
      (s.performAll events).barrier.allParked ∧ ∀ elapsed,
        (s.performAll events).barrier.pause ≤ elapsed →
        (s.performAll events).barrier.running ∨ (s.performAll events).barrier.stepPending →
        ((s.performAll events).perform (.tick elapsed)).barrier =
          (s.performAll events).barrier.grant) := by
  have hstep := (InStep.begins hs).performAll_of events hreset
  have hattended := Attended.performAll hs events hreset
  have hparked (seat : Nat) : s.barrier.live.get? seat ≠ some false := by
    rw [hs.flag]
    split <;> simp
  have hreleased := flag_eq_false_iff hparked events hreset
  refine ⟨fun seat => ?_, hreleased, fun seat phase hphase hseat => ?_,
    hattended.progress hstep hstarted hkilled⟩
  · rw [live_iff_departures events hreset, Table.contains, hs.flag]
    by_cases hseat : seat < program.bugs.length <;> simp [hseat]
  · exact hstep.isReady_of_released hkilled ((hreleased seat).mpr hseat) hphase

private def idler : Tree :=
  .labeled "Bug" [.labeled "a" [], .labeled "list" [], .labeled "initially" [], .labeled "block" [],
    .labeled "list" []]

private def twoIdlers : Program := ⟨.labeled "program" [], .labeled "list" [], [idler, idler]⟩

/-- The first round is granted before either bug asks for its permit, and the first bug is done
with it when the second one comes. -/
private def lateComer : List Event := .command .start :: .tick 0 :: List.replicate 26 (.work 0)

theorem barrier_never_stuck_late :
    ∃ s, Simulation.create twoIdlers ⟨0, true⟩ = .ok s ∧
      (s.performAll lateComer).barrier.live = [(1, false)] ∧ departures 0 s lateComer = 1 ∧
      Released 1 s lateComer ∧ ∃ phase, (s.performAll lateComer).phase? 1 = some phase ∧
        phase.isReady 1 (s.performAll lateComer).barrier := by
  obtain ⟨s, hs, hstarted, hkilled, hlive, hleft, hphase⟩ :
      ∃ s, Simulation.create twoIdlers ⟨0, true⟩ = .ok s ∧ (s.performAll lateComer).started = true ∧
        (s.performAll lateComer).barrier.killed = false ∧
        (s.performAll lateComer).barrier.live = [(1, false)] ∧ departures 0 s lateComer = 1 ∧
        ((s.performAll lateComer).phase? 1).isSome = true := ⟨_, rfl, by decide +kernel⟩
  obtain ⟨-, hreleased, hready, -⟩ :=
    barrier_never_stuck (.created hs) lateComer (by decide +kernel) hstarted hkilled
  have hsecond : Released 1 s lateComer := (hreleased 1).mp (by simp [hlive, Table.get?])
  obtain ⟨phase, hphase⟩ := Option.isSome_iff_exists.mp hphase
  exact ⟨s, hs, hlive, hleft, hsecond, phase, hphase, hready 1 phase hphase hsecond⟩

end Simulation

end DrawingBugs
