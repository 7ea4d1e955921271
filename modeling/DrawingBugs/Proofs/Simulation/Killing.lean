import DrawingBugs.Proofs.Machine.Halting
import DrawingBugs.Proofs.Simulation.Progress

/-!
# Killing

After a kill no round is granted and no statement begins. A bug that is in the middle of an action
ends it, with one line at most, and is told to halt when it parks; all others halt at their next
statement. Each worker ends after finitely many steps of its own, a halt is never recorded as a
failure, and once the crew is given up nothing changes any more.
-/

namespace DrawingBugs

private theorem Fault.message_ne_halted {e : Fault} (h : e ≠ .halted) :
    e.message ≠ Fault.halted.message := by
  intro hsame
  have hfirst : e.message.toList.head? = some 'e' := by
    rw [hsame]
    rfl
  cases e with
  | halted => exact h rfl
  | _ =>
    unfold Fault.message at hfirst
    simp [toString] at hfirst

namespace Phase

/-- How much a worker has to do after a kill. -/
def effort : Phase → Nat
  | .running m => m.effort + 4
  | .entering | .failing _ => 3
  | .leaving => 2
  | .departing => 1
  | .gone => 0

private theorem eq_gone_of_effort {phase : Phase} (h : phase.effort = 0) : phase = .gone := by
  cases phase <;> simp_all [effort]

private theorem effort_step_lt {phase : Phase} (hgone : phase ≠ .gone) (seat : Nat)
    (definition : Tree) (s : Shared) (hkilled : s.barrier.killed = true) :
    (phase.step seat definition s).1.effort < phase.effort := by
  cases phase with
  | entering => simp [step, Barrier.permit, hkilled, afterPermit, effort]
  | running m =>
    simp only [step]
    split
    · unfold afterOutcome
      split <;> simp [effort]
    · next hongoing =>
      have hlt := m.effort_step_lt seat s hkilled hongoing
      simp only [effort]
      omega
  | failing e | leaving | departing => simp [step, effort]
  | gone => exact absurd rfl hgone

def isPerforming : Phase → Bool
  | .running m => match m.focus with | .perform _ => true | _ => false
  | _ => false

/-- How many lines a bug may still draw after a kill. -/
def linesLeft : Phase → Nat
  | .running m => match m.focus with | .park | .await | .fault _ => 0 | _ => 1
  | _ => 0

/-- How often a bug may still park after a kill. -/
def parksLeft : Phase → Nat
  | .running m => match m.focus with | .await | .fault _ => 0 | _ => 1
  | _ => 0

private theorem left_of_isComputing {m : Machine} (h : m.focus.isComputing) :
    linesLeft (.running m) = 1 ∧ parksLeft (.running m) = 1 := by
  cases hm : m.focus <;> simp_all [linesLeft, parksLeft, Focus.isComputing]

private theorem left_le_one (phase : Phase) : phase.linesLeft ≤ 1 ∧ phase.parksLeft ≤ 1 := by
  cases phase with
  | running m => cases hm : m.focus <;> simp [linesLeft, parksLeft, hm]
  | _ => exact ⟨Nat.zero_le 1, Nat.zero_le 1⟩

/-- After a kill no statement begins, and a bug draws and parks at most once. -/
private theorem Move.of_killed {seat : Nat} {s s' : Shared} {phase phase' : Phase}
    (hmove : Move seat s phase phase' s') (hkilled : s.barrier.killed = true) :
    phase'.isPerforming = false ∧
      phase'.linesLeft + phase.isDrawing.toNat ≤ phase.linesLeft ∧
      phase'.parksLeft + phase.isParking.toNat ≤ phase.parksLeft := by
  have hhalted : s.barrier.permit seat = .halted := by simp [Barrier.permit, hkilled]
  cases hmove with
  | wait hpermit | enter _ hpermit => simp [hhalted] at hpermit
  | @run m m' _ _ hmove =>
    cases hmove with
    | compute hcomputing _ _ hbegins =>
      obtain ⟨hlines, hparks⟩ := left_of_isComputing hcomputing
      obtain ⟨hlines', hparks'⟩ := left_le_one (.running m')
      refine ⟨?_, ?_, ?_⟩
      · cases hm' : m'.focus with
        | perform t => simp [(hbegins t hm').2] at hkilled
        | _ => simp [isPerforming, hm']
      · rw [isDrawing_of_isComputing hcomputing, hlines]
        exact hlines'
      · rw [isParking_of_isComputing hcomputing, hparks]
        exact hparks'
    | act hm hafter _ =>
      rcases hafter with ⟨segment, color, hm'⟩ | hm' | ⟨e, hm'⟩ <;>
        simp [isPerforming, linesLeft, parksLeft, isDrawing, isParking, hm, hm']
    | draw hm => simp [isPerforming, linesLeft, parksLeft, isDrawing, isParking, hm, Machine.focusOn]
    | park hm => simp [isPerforming, linesLeft, parksLeft, isDrawing, isParking, hm, Machine.focusOn]
    | wait hm hpermit | proceed hm hpermit => simp [hhalted] at hpermit
    | halt hm _ =>
      simp [isPerforming, linesLeft, parksLeft, isDrawing, isParking, hm, Machine.fail, Machine.focusOn]
    | unwind hm hm' => simp [isPerforming, linesLeft, parksLeft, isDrawing, isParking, hm, hm']
  | finish houtcome =>
    simp only [isDrawing_of_outcome houtcome, isParking_of_outcome houtcome, afterOutcome]
    split <;> simp [isPerforming, linesLeft, parksLeft]
  | refuse | record | leave | depart | stay => exact ⟨rfl, Nat.le_refl _, Nat.le_refl _⟩

private theorem Move.failures {seat : Nat} {s s' : Shared} {phase phase' : Phase}
    (hmove : Move seat s phase phase' s') :
    s'.world.failures = s.world.failures ∨ ∃ e bug, phase = .failing e ∧
      s'.world.failures = s.world.failures ++ [⟨bug, e.message⟩] := by
  cases hmove with
  | run _ hmove =>
    cases hmove with
    | compute _ _ hkeeps => exact .inl hkeeps.failures
    | act _ _ hkeeps => exact .inl hkeeps.failures
    | _ => exact .inl rfl
  | record e => exact .inr ⟨e, _, rfl, rfl⟩
  | _ => exact .inl rfl

private theorem Move.ne_failing_halted {seat : Nat} {s s' : Shared} {phase phase' : Phase}
    (hmove : Move seat s phase phase' s') : phase' ≠ .failing .halted := by
  cases hmove with
  | @finish m outcome houtcome =>
    unfold afterOutcome
    split
    · simp
    · next e hne => simpa using hne
    · simp
  | _ => simp

end Phase

namespace Simulation

/-! ## Counting against what is left -/

/-- An event that is counted uses up some of what is left, so no more of them happen than were left
at first. -/
private theorem count_le {p : Simulation → Event → Bool} (left : Simulation → Nat)
    (hstep : ∀ s e, s.barrier.killed → e ≠ .command .reset → left (s.perform e) + (p s e).toNat ≤ left s)
    (s : Simulation) (hkilled : s.barrier.killed) {events : List Event}
    (hreset : .command .reset ∉ events) : count p s events ≤ left s := by
  induction events generalizing s with
  | nil => exact Nat.zero_le _
  | cons e events ih =>
    simp only [List.mem_cons, not_or] at hreset
    have hfirst := hstep s e hkilled (Ne.symm hreset.1)
    have hrest := ih (s.perform e) ((s.perform_barrierMove (Ne.symm hreset.1)).killed hkilled) hreset.2
    simp only [count]
    omega

private theorem killed_performAll {s : Simulation} (hkilled : s.barrier.killed)
    {events : List Event}
    (hreset : .command .reset ∉ events) : (s.performAll events).barrier.killed := by
  induction events generalizing s with
  | nil => exact hkilled
  | cons e events ih =>
    simp only [List.mem_cons, not_or] at hreset
    exact ih ((s.perform_barrierMove (Ne.symm hreset.1)).killed hkilled) hreset.2

/-- What is left to the bug at a seat, nothing if nobody works there. -/
def leftAt (left : Phase → Nat) (seat : Nat) (s : Simulation) : Nat :=
  ((s.phase? seat).map left).getD 0

private theorem count_own_le {own : Phase → Bool} (left : Phase → Nat)
    (hentering : left .entering = 0)
    (hmove : ∀ seat (s s' : Shared) (phase phase' : Phase), phase.Move seat s phase' s' →
      s.barrier.killed → left phase' + (own phase).toNat ≤ left phase) (seat : Nat) (s : Simulation)
    (hkilled : s.barrier.killed) {events : List Event} (hreset : .command .reset ∉ events) :
    count (fun s e => decide (e = .work seat ∧ (s.phase? seat).any own)) s events ≤
      leftAt left seat s := by
  refine count_le (leftAt left seat) (fun s e hkilled hreset => ?_) s hkilled hreset
  by_cases hwork : e = .work seat
  · subst hwork
    cases hphase : s.phase? seat with
    | none => simp [perform_work_of_none hphase, leftAt, hphase]
    | some phase =>
      obtain ⟨phase', hphase', -, -, hphases⟩ := perform_work_of_some hphase
      have hused := hmove seat s.shared _ phase phase' hphase' hkilled
      simpa [leftAt, hphases, hphase] using hused
  · -- A start is no exception: a worker that enters has nothing left.
    rcases phase?_perform_of_ne (s := s) hwork hreset with hsame | hnew | hnone
    · simp [leftAt, hsame, hwork]
    · simp [leftAt, hnew, hwork, hentering]
    · simp [leftAt, hnone, hwork]

private theorem leftAt_le {left : Phase → Nat} {n : Nat} (h : ∀ phase, left phase ≤ n) (seat : Nat)
    (s : Simulation) : leftAt left seat s ≤ n := by
  cases hphase : s.phase? seat with
  | none => simp [leftAt, hphase]
  | some phase => simpa [leftAt, hphase] using h phase

private theorem linesBy_le_one (seat : Nat) (s : Simulation) (hkilled : s.barrier.killed)
    {events : List Event} (hreset : .command .reset ∉ events) : linesBy seat s events ≤ 1 := by
  have hdraws : drawsAt seat = fun s e => decide (e = .work seat ∧ (s.phase? seat).any Phase.isDrawing) := by
    funext s e
    exact drawsAt_eq seat s e
  rw [linesBy, hdraws]
  exact Nat.le_trans (count_own_le Phase.linesLeft rfl
    (fun _ _ _ _ _ hmove hkilled => (hmove.of_killed hkilled).2.1) seat s hkilled hreset)
    (leftAt_le (fun phase => phase.left_le_one.1) seat s)

private theorem parks_le_one (seat : Nat) (s : Simulation) (hkilled : s.barrier.killed)
    {events : List Event} (hreset : .command .reset ∉ events) : parks seat s events ≤ 1 :=
  Nat.le_trans (count_own_le Phase.parksLeft rfl
    (fun _ _ _ _ _ hmove hkilled => (hmove.of_killed hkilled).2.2) seat s hkilled hreset)
    (leftAt_le (fun phase => phase.left_le_one.2) seat s)

/-- Whether an event begins a statement of the bug at a seat. -/
def beginsAt (seat : Nat) (s : Simulation) (e : Event) : Bool :=
  e = .work seat ∧ ((s.perform e).phase? seat).any Phase.isPerforming

private theorem count_beginsAt (seat : Nat) (s : Simulation) (hkilled : s.barrier.killed)
    {events : List Event} (hreset : .command .reset ∉ events) : count (beginsAt seat) s events = 0 := by
  refine Nat.eq_zero_of_le_zero (count_le (fun _ => 0) (fun s e hkilled _ => ?_) s hkilled hreset)
  by_cases hwork : e = .work seat
  · subst hwork
    cases hphase : s.phase? seat with
    | none => simp [beginsAt, perform_work_of_none hphase, hphase]
    | some phase =>
      obtain ⟨phase', hmove, -, -, hphases⟩ := perform_work_of_some hphase
      simp [beginsAt, hphases, (hmove.of_killed hkilled).1]
  · simp [beginsAt, hwork]

private theorem count_grants (s : Simulation) (hkilled : s.barrier.killed) {events : List Event}
    (hreset : .command .reset ∉ events) : count grants s events = 0 := by
  refine Nat.eq_zero_of_le_zero (count_le (fun _ => 0) (fun s e hkilled hreset => ?_) s hkilled hreset)
  by_cases hgrants : grants s e
  · simp [(of_grants hreset hgrants).2.2.2] at hkilled
  · simp [hgrants]

private theorem perform_work_of_await {seat : Nat} {s : Simulation} (hkilled : s.barrier.killed)
    {m : Machine} (hphase : s.phase? seat = some (.running m)) (hm : m.focus = .await) :
    (s.perform (.work seat)).phase? seat = some (.running (m.fail .halted)) := by
  rw [phase?_eq_map] at hphase ⊢
  obtain ⟨worker, hworker, hrunning⟩ := Option.map_eq_some_iff.mp hphase
  obtain ⟨-, -, -, -, hworkers⟩ := perform_work_of_worker hworker
  have hongoing : m.outcome? = none := by
    cases hstack : m.stack <;> simp [Machine.outcome?, hstack, hm]
  have hpermit : s.shared.barrier.permit seat = .halted := by
    simp only [Barrier.permit]
    exact if_pos hkilled
  simp [hworkers, hrunning, Phase.step, hongoing, Machine.step, hm, hpermit, Machine.await]

/-! ## No failure for a halt -/

/-- No failure was recorded for a halt, and none is about to be. -/
structure Quiet (s : Simulation) : Prop where
  failures : ∀ f ∈ s.world.failures, f.message ≠ Fault.halted.message
  phases : ∀ seat, s.phase? seat ≠ some (.failing .halted)

private theorem Quiet.begins {program : Program} {s : Simulation} (h : Begins program s) :
    Quiet s := by
  obtain ⟨idle, hcrew, -, henrolled, hidle⟩ := h.enrolled
  rcases hidle with ⟨rfl, -⟩ | rfl
  · exact ⟨by simp [world, henrolled.failures], by simp [phase?, hcrew]⟩
  · have hworld : idle.start.world = idle.shared.world := by simp [start, hcrew, world]
    refine ⟨by simp [hworld, henrolled.failures], fun seat hphase => ?_⟩
    cases (phase?_start_eq_some hcrew hphase).1

private theorem Quiet.perform {s : Simulation} (h : Quiet s) {e : Event}
    (hreset : e ≠ .command .reset) : Quiet (s.perform e) := by
  by_cases hwork : ∃ seat, e = .work seat
  · obtain ⟨seat, rfl⟩ := hwork
    cases hphase : s.phase? seat with
    | none => rwa [perform_work_of_none hphase]
    | some phase =>
      obtain ⟨phase', hmove, -, -, hphases⟩ := perform_work_of_some hphase
      refine ⟨fun f hf => ?_, fun i hi => ?_⟩
      · rw [world] at hf
        rcases hmove.failures with hsame | ⟨e, bug, rfl, hrecorded⟩
        · exact h.failures f (hsame ▸ hf)
        · rw [hrecorded, List.mem_append, List.mem_singleton] at hf
          rcases hf with hbefore | rfl
          · exact h.failures f hbefore
          · exact Fault.message_ne_halted fun he => h.phases seat (he ▸ hphase)
      · rw [hphases] at hi
        split at hi
        · exact hmove.ne_failing_halted (Option.some.inj hi)
        · exact h.phases i hi
  · have hne (seat : Nat) : e ≠ .work seat := fun he => hwork ⟨seat, he⟩
    refine ⟨(perform_world (s := s) hne hreset).1 ▸ h.failures, fun seat hfailing => ?_⟩
    rcases phase?_perform_of_ne (s := s) (hne seat) hreset with hsame | hnew | hnone
    · exact h.phases seat (hsame ▸ hfailing)
    · simp [hnew] at hfailing
    · simp [hnone] at hfailing

/-! ## The end of the crew -/

/-- Everybody is in step and attended to, and no failure is recorded for a halt. -/
structure Kept (s : Simulation) : Prop where
  inStep : ∃ actions parks, InStep actions parks s
  attended : Attended s
  quiet : Quiet s

private theorem Kept.perform {s : Simulation} (h : Kept s) {e : Event}
    (hreset : e ≠ .command .reset) : Kept (s.perform e) := by
  obtain ⟨actions, parks, hstep⟩ := h.inStep
  exact ⟨⟨_, _, hstep.perform e hreset⟩, h.attended.perform hstep hreset, h.quiet.perform hreset⟩

private theorem Kept.performAll {s : Simulation} (h : Kept s) {events : List Event}
    (hreset : .command .reset ∉ events) : Kept (s.performAll events) := by
  induction events generalizing s with
  | nil => exact h
  | cons e events ih =>
    simp only [List.mem_cons, not_or] at hreset
    exact ih (h.perform (Ne.symm hreset.1)) hreset.2

/-- Every state that a run reaches, with resets or without, is kept in order. -/
private theorem Kept.reached {program : Program} {config : RunConfig} {s : Simulation}
    (hs : create program config = .ok s) (events : List Event) : Kept (s.performAll events) := by
  obtain ⟨s', events', hbegins, hreset, hsame⟩ := exists_begins hs events
  rw [hsame]
  exact Kept.performAll ⟨⟨_, _, InStep.begins hbegins⟩, Attended.begins hbegins, Quiet.begins hbegins⟩
    hreset

/-- Nobody is live or registered, and whoever has worked is gone. -/
structure Deserted (s : Simulation) : Prop where
  live : s.barrier.live = []
  registry : s.world.registry = []
  workers : ∀ seat phase, s.phase? seat = some phase → phase = .gone

private theorem Kept.deserted {s : Simulation} (h : Kept s) (hstarted : s.started = true)
    (hended : s.crew.all Crew.hasEnded) : Deserted s := by
  obtain ⟨actions, parks, hstep⟩ := h.inStep
  have hnobody (seat : Nat) : s.barrier.live.contains seat = false := by
    cases hcrew : s.crew with
    | none =>
      -- Without a crew the simulation was never started, or its crew was given up at its end.
      by_contra hlive
      have hidle := (h.attended.registered hcrew seat (by simpa using hlive)).2
      simp [hidle] at hstarted
    | some crew => exact h.attended.not_live_of_hasEnded hstep hcrew (by simpa [hcrew] using hended) seat
  have hgone {seat : Nat} {phase : Phase} (hphase : s.phase? seat = some phase) : phase = .gone := by
    cases hcrew : s.crew with
    | none => simp [phase?, hcrew] at hphase
    | some crew => exact phase?_of_hasEnded hcrew (by simpa [hcrew] using hended) hphase
  refine ⟨?_, ?_, fun seat phase hphase => hgone hphase⟩
  · rw [List.eq_nil_iff_forall_not_mem]
    intro entry hentry
    have hlive := Table.contains_iff_mem_keys.mpr (List.mem_map_of_mem (f := Prod.fst) hentry)
    simp [hnobody] at hlive
  · rw [List.eq_nil_iff_forall_not_mem]
    intro seat hseat
    have hlive := hstep.live_of_registered hseat
    simp [hnobody] at hlive

private theorem Deserted.perform {s : Simulation} (h : Deserted s) {e : Event}
    (hreset : e ≠ .command .reset) : (s.perform e).world = s.world ∧ Deserted (s.perform e) := by
  have hlive : (s.perform e).barrier.live = [] := by
    have hkeys := (s.perform_barrierMove hreset).keys
    simpa [h.live, Table.keys] using hkeys
  by_cases hwork : ∃ seat, e = .work seat
  · obtain ⟨seat, rfl⟩ := hwork
    cases hphase : s.phase? seat with
    | none =>
      rw [perform_work_of_none hphase]
      exact ⟨rfl, h⟩
    | some phase =>
      obtain ⟨phase', hmove, -, -, hphases⟩ := perform_work_of_some hphase
      rw [h.workers seat phase hphase] at hmove
      obtain ⟨rfl, hshared⟩ := hmove.eq_of_gone
      have hworld : (s.perform (.work seat)).world = s.world := congrArg Shared.world hshared
      refine ⟨hworld, hlive, hworld ▸ h.registry, fun i phase hi => ?_⟩
      rw [hphases] at hi
      split at hi
      · exact (Option.some.inj hi).symm
      · exact h.workers i phase hi
  · have hne (seat : Nat) : e ≠ .work seat := fun he => hwork ⟨seat, he⟩
    have hworld := (perform_world (s := s) hne hreset).1
    refine ⟨hworld, hlive, hworld ▸ h.registry, fun seat phase hphase => ?_⟩
    rw [phase?_eq_map] at hphase
    obtain ⟨worker, hworker, rfl⟩ := Option.map_eq_some_iff.mp hphase
    rcases worker?_perform_of_ne (hne seat) hreset hworker with hsame | ⟨-, -, -, hmem, -⟩
    · exact h.workers seat worker.phase (phase?_of_worker hsame)
    · simp [h.registry] at hmem

private theorem Deserted.performAll {s : Simulation} (h : Deserted s) {events : List Event}
    (hreset : .command .reset ∉ events) :
    (s.performAll events).world = s.world ∧ Deserted (s.performAll events) := by
  induction events generalizing s with
  | nil => exact ⟨rfl, h⟩
  | cons e events ih =>
    simp only [List.mem_cons, not_or] at hreset
    obtain ⟨hworld, hdeserted⟩ := h.perform (Ne.symm hreset.1)
    obtain ⟨hworld', hdeserted'⟩ := ih hdeserted hreset.2
    exact ⟨hworld'.trans hworld, hdeserted'⟩

/-! ## Termination -/

private theorem started_perform {s : Simulation} (hstarted : s.started = true) {e : Event}
    (hreset : e ≠ .command .reset) : (s.perform e).started = true := by
  cases e with
  | work seat | tick elapsed => cases hcrew : s.crew <;> simp [perform, changeCrew, hcrew, hstarted]
  | command c =>
    cases c with
    | start => cases hcrew : s.crew <;> simp [perform, obey, start, hcrew, hstarted]
    | join =>
      simp only [perform, obey, join]
      split <;> exact hstarted
    | reset => exact absurd rfl hreset
    | _ => exact hstarted

private theorem Kept.effort_perform {s : Simulation} (h : Kept s) (hstarted : s.started = true)
    (hkilled : s.barrier.killed) {seat n : Nat}
    (hn : ∀ phase, s.phase? seat = some phase → phase.effort ≤ n) {e : Event}
    (hreset : e ≠ .command .reset) {phase : Phase} (hphase : (s.perform e).phase? seat = some phase) :
    phase.effort ≤ n - (decide (e = .work seat)).toNat := by
  rw [phase?_eq_map] at hphase
  obtain ⟨worker', hworker', rfl⟩ := Option.map_eq_some_iff.mp hphase
  by_cases hwork : e = .work seat
  · subst hwork
    cases hworker : s.worker? seat with
    | none =>
      rw [perform_work_of_idle hworker, hworker] at hworker'
      cases hworker'
    | some worker =>
      obtain ⟨-, -, -, -, hworkers⟩ := perform_work_of_worker hworker
      rw [hworkers, if_pos rfl, Option.some.injEq] at hworker'
      subst hworker'
      have hle := hn worker.phase (phase?_of_worker hworker)
      by_cases hgone : worker.phase = .gone
      · simp [hgone, Phase.step, Phase.effort]
      · have hlt := Phase.effort_step_lt hgone seat worker.definition s.shared hkilled
        simp only [decide_true, Bool.toNat_true]
        omega
  · rw [decide_eq_false hwork]
    rcases worker?_perform_of_ne hwork hreset hworker' with hsame | ⟨-, hcrew, -, hmem, -⟩
    · exact hn worker'.phase (phase?_of_worker hsame)
    · -- A second start finds nobody who is registered.
      have hdeserted := h.deserted hstarted (by simp [hcrew])
      simp [hdeserted.registry] at hmem

/-- After a kill a worker is gone once it has taken as many steps as it had left. -/
private theorem Kept.gone_of_count {s : Simulation} (h : Kept s) (hstarted : s.started = true)
    (hkilled : s.barrier.killed) {seat n : Nat}
    (hn : ∀ phase, s.phase? seat = some phase → phase.effort ≤ n) {events : List Event}
    (hreset : .command .reset ∉ events) (hcount : n ≤ events.count (.work seat)) {phase : Phase}
    (hphase : (s.performAll events).phase? seat = some phase) : phase = .gone := by
  induction events generalizing s n with
  | nil =>
    have hzero := hn phase hphase
    rw [List.count_nil] at hcount
    exact Phase.eq_gone_of_effort (by omega)
  | cons e events ih =>
    simp only [List.mem_cons, not_or] at hreset
    refine ih (h.perform (Ne.symm hreset.1)) (started_perform hstarted (Ne.symm hreset.1))
      ((s.perform_barrierMove (Ne.symm hreset.1)).killed hkilled)
      (fun phase hphase => h.effort_perform hstarted hkilled hn (Ne.symm hreset.1) hphase) hreset.2 ?_
      hphase
    by_cases he : e = .work seat
    · simp [he] at hcount ⊢
      omega
    · simp [he] at hcount ⊢
      omega

/-- **Killing.** From a kill at any moment of any run on, until a reset: no round is granted; no
bug begins a statement, draws more than one line or parks more than once, and if it waits for its
permit it is told to halt; every worker is gone after finitely many steps of its own, wherever its
bug was; no failure is recorded for a halt; and once the crew of a simulation that was started can
be given up, nobody is live or registered and the world never changes again. -/
theorem kill_prompt_and_quiet {program : Program} {config : RunConfig} {s dead now : Simulation}
    (hs : create program config = .ok s) (before after : List Event)
    (hdead : (s.performAll before).perform (.command .kill) = dead)
    (hnow : dead.performAll after = now) (hreset : .command .reset ∉ after) :
    count grants dead after = 0 ∧
    (∀ seat, count (beginsAt seat) dead after = 0 ∧ linesBy seat dead after ≤ 1 ∧
      parks seat dead after ≤ 1 ∧
      ∀ m, now.phase? seat = some (.running m) → m.focus = .await →
        (now.perform (.work seat)).phase? seat = some (.running (m.fail .halted))) ∧
    (now.started = true → ∀ seat, ∃ bound, ∀ later, .command .reset ∉ later →
      bound ≤ later.count (.work seat) →
      ∀ phase, (now.performAll later).phase? seat = some phase → phase = .gone) ∧
    (∀ f ∈ now.world.failures, f.message ≠ Fault.halted.message) ∧
    (now.started = true → (now.perform (.command .join)).crew = none →
      now.barrier.live = [] ∧ now.world.registry = [] ∧
      ∀ later, .command .reset ∉ later → (now.performAll later).world = now.world) := by
  have hkilled : dead.barrier.killed := by
    rw [← hdead]
    rfl
  have hstays : now.barrier.killed := hnow ▸ killed_performAll hkilled hreset
  have hkept : Kept now := by
    rw [← hnow, ← hdead, ← performAll_concat]
    exact (Kept.reached hs _).performAll hreset
  refine ⟨count_grants dead hkilled hreset, fun seat => ⟨count_beginsAt seat dead hkilled hreset,
    linesBy_le_one seat dead hkilled hreset, parks_le_one seat dead hkilled hreset,
    fun m hphase hm => perform_work_of_await hstays hphase hm⟩, fun hstarted seat => ?_,
    hkept.quiet.failures, fun hstarted hjoined => ?_⟩
  · obtain ⟨n, hn⟩ : ∃ n, ∀ phase, now.phase? seat = some phase → phase.effort ≤ n := by
      cases now.phase? seat with
      | none => exact ⟨0, nofun⟩
      | some phase => exact ⟨phase.effort, fun _ h => by cases h; exact Nat.le_refl _⟩
    exact ⟨n, fun later hlater hcount phase => hkept.gone_of_count hstarted hstays hn hlater hcount⟩
  · have hended : now.crew.all Crew.hasEnded := by
      simp only [perform, obey, join] at hjoined
      split at hjoined
      · assumption
      · simp [hjoined]
    have hdeserted := hkept.deserted hstarted hended
    exact ⟨hdeserted.live, hdeserted.registry, fun later hlater => (hdeserted.performAll hlater).1⟩

private def spinner : Tree :=
  .labeled "Bug" [.labeled "a" [], .labeled "list" [], .labeled "initially" [],
    .labeled "block" [.labeled "loop" [.labeled "block" []]], .labeled "list" []]

private def oneSpinner : Program := ⟨.labeled "program" [], .labeled "list" [], [spinner]⟩

private def spin : List Event := .command .start :: .tick 0 :: List.replicate 40 (.work 0)

private def windDown : List Event := .tick 0 :: List.replicate 10 (.work 0)

theorem kill_prompt_and_quiet_spinner :
    ∃ s, create oneSpinner ⟨0, true⟩ = .ok s ∧ (s.performAll spin).isBusy 0 = true ∧
      ∃ now, ((s.performAll spin).perform (.command .kill)).performAll windDown = now ∧
        now.barrier.live = [] ∧ now.world.registry = [] ∧
        ∀ later, .command .reset ∉ later → (now.performAll later).world = now.world := by
  obtain ⟨s, hs, hbusy, hstarted, hjoined⟩ :
      ∃ s, create oneSpinner ⟨0, true⟩ = .ok s ∧ (s.performAll spin).isBusy 0 = true ∧
        (((s.performAll spin).perform (.command .kill)).performAll windDown).started = true ∧
        ((((s.performAll spin).perform (.command .kill)).performAll windDown).perform
          (.command .join)).crew.isNone = true := ⟨_, rfl, by decide +kernel⟩
  obtain ⟨-, -, -, -, hended⟩ := kill_prompt_and_quiet hs spin windDown rfl rfl (by decide)
  exact ⟨s, hs, hbusy, _, rfl, hended hstarted (by simpa using hjoined)⟩

end Simulation

end DrawingBugs
