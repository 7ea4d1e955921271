import DrawingBugs.Proofs.Simulation.Progress

/-!
# Holding

Between a pause or a single step and the next run, every round that is granted uses up a single
step. And a simulation that is idle rests: without a kill only those who wait for a permit are
parked, so when everybody is parked and no round may be granted nothing can change.
-/

namespace DrawingBugs

namespace Simulation

/-! ## Single steps -/

theorem rounds_perform (s : Simulation) {e : Event} (hreset : e ≠ .command .reset) :
    (s.perform e).barrier.rounds = s.barrier.rounds + (grants s e).toNat := by
  by_cases hgrants : grants s e
  · rw [(of_grants hreset hgrants).2.1, hgrants]
    rfl
  · have hle := s.rounds_le_perform hreset
    simp only [grants, decide_eq_true_eq] at hgrants
    simp only [grants, decide_eq_false hgrants, Bool.toNat_false]
    omega

theorem rounds_performAll (s : Simulation) {events : List Event}
    (hreset : .command .reset ∉ events) :
    (s.performAll events).barrier.rounds = s.barrier.rounds + count grants s events := by
  induction events generalizing s with
  | nil => rfl
  | cons e events ih =>
    simp only [List.mem_cons, not_or] at hreset
    have hrest := ih (s.perform e) hreset.2
    have hfirst := s.rounds_perform (Ne.symm hreset.1)
    simp only [performAll, List.foldl_cons, count] at hrest ⊢
    omega

private theorem reset_barrier (s : Simulation) :
    grants s (.command .reset) = false ∧ ((s.perform (.command .reset)).barrier = s.barrier.kill ∨
      (s.perform (.command .reset)).barrier.running = false ∧
        (s.perform (.command .reset)).barrier.stepPending = false) := by
  cases hreset : s.reset with
  | ok fresh =>
    have hfresh : s.perform (.command .reset) = fresh := by simp only [perform, obey, hreset]
    obtain ⟨shared, hbuild, hshared, -⟩ := reset_eq_ok hreset
    have hbarrier : fresh.barrier = shared.barrier.hold := by rw [barrier, hshared]
    have hrounds : fresh.barrier.rounds = 0 := by
      rw [hbarrier]
      exact (build_enrolled hbuild).rounds
    rw [grants, hfresh, hrounds, hbarrier]
    exact ⟨by simp, .inr ⟨rfl, rfl⟩⟩
  | error fault =>
    have hkill : s.perform (.command .reset) = s.kill := by simp only [perform, obey, hreset]
    rw [grants, hkill]
    exact ⟨by simp [kill, changeBarrier, barrier, Barrier.kill], .inl rfl⟩

/-- As long as running is not allowed, an event that grants a round uses up a pending step. -/
private theorem stepPending_perform (s : Simulation) {e : Event} (hrun : e ≠ .command .run)
    (hrunning : s.barrier.running = false) : (s.perform e).barrier.running = false ∧
      (grants s e).toNat + (s.perform e).barrier.stepPending.toNat ≤
        s.barrier.stepPending.toNat + (decide (e = .command .step)).toNat := by
  by_cases hreset : e = .command .reset
  · subst hreset
    obtain ⟨hgrants, hkill | ⟨hheld, hpending⟩⟩ := s.reset_barrier
    · rw [hgrants, hkill]
      exact ⟨hrunning, by simp [Barrier.kill]⟩
    · rw [hgrants, hheld, hpending]
      exact ⟨rfl, by simp⟩
  · have hmove := s.perform_barrierMove hreset
    simp only [grants]
    generalize (s.perform e).barrier = b at hmove
    cases hmove with
    | run => exact absurd rfl hrun
    | grant hmay _ _ =>
      have hpending : s.barrier.stepPending = true := by
        simpa [Barrier.mayGrant, hrunning] using And.right (Bool.and_eq_true_iff.mp hmay)
      exact ⟨hrunning, by simp [Barrier.grant, hpending]⟩
    | step => exact ⟨rfl, by simp [Barrier.step]⟩
    | pause => exact ⟨rfl, by simp [Barrier.hold]⟩
    | park _ _ | depart _ _ | kill | setPause | work _ _ | tick | start | join =>
      exact ⟨hrunning, by
        simp [Barrier.park, Barrier.terminate, Barrier.kill, Barrier.setPause]⟩

private theorem grants_le_steps (s : Simulation) (hrunning : s.barrier.running = false)
    {events : List Event} (hrun : .command .run ∉ events) :
    count grants s events ≤ s.barrier.stepPending.toNat + events.count (.command .step) := by
  induction events generalizing s with
  | nil => exact Nat.zero_le _
  | cons e events ih =>
    simp only [List.mem_cons, not_or] at hrun
    obtain ⟨hheld, hused⟩ := s.stepPending_perform (Ne.symm hrun.1) hrunning
    have hrest := ih (s.perform e) hheld hrun.2
    have hcount : (e :: events).count (.command .step) =
        events.count (.command .step) + (decide (e = .command .step)).toNat := by
      by_cases he : e = .command .step <;> simp [he]
    simp only [count]
    omega

end Simulation

/-! ## Rest -/

namespace Phase

/-- Whether a worker asks for a permit. -/
def isAsking : Phase → Bool
  | .entering => true
  | .running m => match m.focus with | .await => true | _ => false
  | _ => false

private theorem isAsking_of_isComputing {m : Machine} (h : m.focus.isComputing) :
    isAsking (.running m) = false := by
  cases hm : m.focus <;> simp_all [isAsking, Focus.isComputing]

private theorem isAsking_of_outcome {m : Machine} {outcome : Outcome}
    (h : m.outcome? = some outcome) : isAsking (.running m) = false := by
  cases hm : m.focus <;> simp_all [isAsking, Machine.outcome?]

private theorem Move.isAsking {seat : Nat} {s s' : Shared} {phase phase' : Phase}
    (hmove : Move seat s phase phase' s') (hsupervised : s.barrier.supervised = true)
    (hkilled : s.barrier.killed = false)
    (h : s.barrier.live.get? seat = some true → phase.isAsking)
    (hparked : s'.barrier.live.get? seat = some true) : phase'.isAsking := by
  have hwaiting (hflag : s.barrier.live.get? seat = some true) : s.barrier.permit seat = .waiting := by
    simp [Barrier.permit, hkilled, hsupervised, hflag]
  cases hmove with
  | wait _ => rfl
  | enter _ hpermit => simp [hwaiting hparked] at hpermit
  | refuse hpermit => simp [hwaiting hparked] at hpermit
  | run _ hmove =>
    cases hmove with
    | park hm => rfl
    | wait hm _ => exact h hparked
    | proceed hm hpermit => simp [hwaiting hparked] at hpermit
    | halt hm hpermit => simp [hwaiting hparked] at hpermit
    | compute hcomputing _ _ =>
      exact absurd (h hparked) (by simp [isAsking_of_isComputing hcomputing])
    | act hm | draw hm | unwind hm =>
      exact absurd (h hparked) (by simp [Phase.isAsking, hm])
  | finish houtcome =>
    exact absurd (h hparked) (by simp [isAsking_of_outcome houtcome])
  | record | leave | stay => exact absurd (h hparked) (by simp [Phase.isAsking])
  | depart => simp [Barrier.terminate] at hparked

private theorem Move.eq_of_waiting {seat : Nat} {s s' : Shared} {phase phase' : Phase}
    (hmove : Move seat s phase phase' s') (hasking : phase.isAsking)
    (hpermit : s.barrier.permit seat = .waiting) : phase' = phase ∧ s' = s := by
  cases hmove with
  | wait _ => exact ⟨rfl, rfl⟩
  | enter _ hgranted => simp [hpermit] at hgranted
  | refuse hhalted => simp [hpermit] at hhalted
  | run _ hmove =>
    cases hmove with
    | wait _ _ => exact ⟨rfl, rfl⟩
    | proceed _ hgranted => simp [hpermit] at hgranted
    | halt _ hhalted => simp [hpermit] at hhalted
    | compute hcomputing _ _ => simp [isAsking_of_isComputing hcomputing] at hasking
    | act hm | draw hm | park hm | unwind hm => simp [Phase.isAsking, hm] at hasking
  | finish houtcome => simp [isAsking_of_outcome houtcome] at hasking
  | record | leave | depart | stay => cases hasking

end Phase

namespace Simulation

variable {actions parks : Nat → Nat} {s : Simulation}

/-- Without a kill, whoever is parked asks for a permit. -/
def Orderly (s : Simulation) : Prop :=
  s.barrier.killed = false → ∀ seat phase, s.phase? seat = some phase →
    s.barrier.live.get? seat = some true → phase.isAsking

private theorem Orderly.begins {program : Program} (h : Begins program s) : Orderly s := by
  intro _ seat phase hphase _
  obtain ⟨idle, hcrew, -, -, ⟨rfl, -⟩ | rfl⟩ := h.enrolled
  · simp [phase?, hcrew] at hphase
  · rw [(phase?_start_eq_some hcrew hphase).1]
    rfl

private theorem Orderly.perform (h : Orderly s) (hstep : InStep actions parks s) {e : Event}
    (hreset : e ≠ .command .reset) : Orderly (s.perform e) := by
  intro hkilled seat phase' hphase' hparked
  have hunkilled : s.barrier.killed = false := by
    by_contra hwas
    simp [(s.perform_barrierMove hreset).killed (by simpa using hwas)] at hkilled
  by_cases hwork : e = .work seat
  · subst hwork
    cases hphase : s.phase? seat with
    | none => simp [perform_work_of_none hphase, hphase] at hphase'
    | some phase =>
      obtain ⟨next, hmove, -, -, hphases⟩ := perform_work_of_some hphase
      have hnext : next = phase' := by simpa [hphases] using hphase'
      subst hnext
      exact hmove.isAsking hstep.supervised hunkilled (h hunkilled seat phase hphase) hparked
  · rcases phase?_perform_of_ne hwork hreset with hsame | hentering | hnone
    · refine h hunkilled seat phase' (hsame ▸ hphase') ?_
      rw [flag_perform s hreset] at hparked
      by_cases hgrants : grants s e
      · simp [hgrants] at hparked
      · simpa [hgrants, departsAt, parksAt, hwork] using hparked
    · cases hentering.symm.trans hphase'
      rfl
    · simp [hnone] at hphase'

theorem Orderly.performAll {program : Program} (hs : Begins program s) (events : List Event)
    (hreset : .command .reset ∉ events) : Orderly (s.performAll events) :=
  hs.invariant (Orderly.begins hs) (fun hstep hreset h => h.perform hstep hreset) events hreset

/-- Nothing can go on: whoever is not gone is parked and asks for a permit, and none will come. -/
structure Resting (s : Simulation) : Prop where
  killed : s.barrier.killed = false
  supervised : s.barrier.supervised = true
  workers : ∀ seat phase, s.phase? seat = some phase →
    phase = .gone ∨ phase.isAsking ∧ s.barrier.live.get? seat = some true
  registered : ∀ seat ∈ s.world.registry, s.barrier.live.get? seat = some true
  held : s.barrier.live = [] ∨ s.barrier.running = false ∧ s.barrier.stepPending = false

private theorem Orderly.resting (h : Orderly s) (hstep : InStep actions parks s)
    (hidle : s.barrier.isIdle) (hkilled : s.barrier.killed = false) : Resting s := by
  simp only [Barrier.isIdle, hkilled, Bool.false_or, Bool.or_eq_true, List.isEmpty_iff,
    Bool.and_eq_true] at hidle
  have hflag {seat : Nat} (hlive : (s.barrier.live.get? seat).isSome) :
      s.barrier.live.get? seat = some true := by
    obtain ⟨flag, hflag⟩ := Option.isSome_iff_exists.mp hlive
    rcases hidle with hempty | ⟨hparked, -⟩
    · simp [hempty, Table.get?] at hflag
    · simp only [Barrier.allParked, List.all_eq_true] at hparked
      rw [hflag, show flag = true from hparked _ (Table.mem_of_get?_eq_some hflag)]
  refine ⟨hkilled, hstep.supervised, fun seat phase hphase => ?_,
    fun seat hseat => hflag (hstep.live_of_registered hseat), ?_⟩
  · by_cases hgone : phase = .gone
    · exact .inl hgone
    · have hparked := hflag ((hstep.workers seat phase hphase).isSome_of_ne_gone hgone)
      exact .inr ⟨h hkilled seat phase hphase hparked, hparked⟩
  · rcases hidle with hempty | ⟨hparked, hmay⟩
    · exact .inl hempty
    · exact .inr (by simpa [Barrier.mayGrant, hparked] using hmay)

private theorem Resting.work (h : Resting s) (seat : Nat) :
    (s.perform (.work seat)).shared = s.shared ∧ Resting (s.perform (.work seat)) := by
  cases hphase : s.phase? seat with
  | none =>
    rw [perform_work_of_none hphase]
    exact ⟨rfl, h⟩
  | some phase =>
    obtain ⟨phase', hmove, -, hcrew, hphases⟩ := perform_work_of_some hphase
    obtain ⟨rfl, hshared⟩ : phase' = phase ∧ (s.perform (.work seat)).shared = s.shared := by
      rcases h.workers seat phase hphase with rfl | ⟨hasking, hparked⟩
      · exact hmove.eq_of_gone
      · have hpermit : s.barrier.permit seat = .waiting := by
          simp [Barrier.permit, h.killed, h.supervised, hparked]
        exact hmove.eq_of_waiting hasking hpermit
    have hbarrier : (s.perform (.work seat)).barrier = s.barrier := congrArg Shared.barrier hshared
    have hworld : (s.perform (.work seat)).world = s.world := congrArg Shared.world hshared
    refine ⟨hshared, hbarrier ▸ h.killed, hbarrier ▸ h.supervised, fun i phase hi => ?_,
      hworld ▸ hbarrier ▸ h.registered, hbarrier ▸ h.held⟩
    rw [hphases] at hi
    rw [hbarrier]
    refine h.workers i phase ?_
    split at hi
    · next hseat => rwa [hseat, hphase]
    · exact hi

private theorem Resting.barrier (h : Resting s) {e : Event} {b : Barrier}
    (hmove : BarrierMove s e b) (hwork : ∀ seat, e ≠ .work seat) (hrun : e ≠ .command .run)
    (hstep : e ≠ .command .step)
    (hkill : e ≠ .command .kill) :
    b.live = s.barrier.live ∧ b.killed = false ∧ b.supervised = true ∧
      (b.live = [] ∨ b.running = false ∧ b.stepPending = false) := by
  cases hmove with
  | work _ _ | park _ _ | depart _ _ => exact absurd rfl (hwork _)
  | run => exact absurd rfl hrun
  | step => exact absurd rfl hstep
  | kill => exact absurd rfl hkill
  | grant hmay _ hlive =>
    obtain ⟨hrunning, hpending⟩ := h.held.resolve_left hlive
    simp [Barrier.mayGrant, hrunning, hpending] at hmay
  | pause => exact ⟨rfl, h.killed, h.supervised, .inr ⟨rfl, rfl⟩⟩
  | tick | start | join | setPause => exact ⟨rfl, h.killed, h.supervised, h.held⟩

/-- Until something is allowed nothing changes. -/
private theorem Resting.perform (h : Resting s) {e : Event} (hreset : e ≠ .command .reset)
    (hrun : e ≠ .command .run) (hstep : e ≠ .command .step) (hkill : e ≠ .command .kill) :
    (s.perform e).world = s.world ∧ (s.perform e).barrier.live = s.barrier.live ∧
      Resting (s.perform e) := by
  by_cases hwork : ∃ seat, e = .work seat
  · obtain ⟨seat, rfl⟩ := hwork
    obtain ⟨hshared, hresting⟩ := h.work seat
    exact ⟨congrArg Shared.world hshared, congrArg (fun s => s.barrier.live) hshared, hresting⟩
  · have hne (seat : Nat) : e ≠ .work seat := fun he => hwork ⟨seat, he⟩
    obtain ⟨hlive, hkilled, hsupervised, hheld⟩ :=
      h.barrier (s.perform_barrierMove hreset) hne hrun hstep hkill
    have hworld := (perform_world (s := s) hne hreset).1
    refine ⟨hworld, hlive, hkilled, hsupervised, fun seat phase hphase => ?_, ?_, hheld⟩
    · rw [phase?_eq_map] at hphase
      obtain ⟨worker, hworker, rfl⟩ := Option.map_eq_some_iff.mp hphase
      rw [hlive]
      rcases worker?_perform_of_ne (hne seat) hreset hworker with
        hsame | ⟨-, -, hentering, hmem, -⟩
      · exact h.workers seat worker.phase (phase?_of_worker hsame)
      · -- Whoever a start brings asks for its first permit, which does not come either.
        exact .inr ⟨by rw [hentering]; rfl, h.registered seat hmem⟩
    · rw [hworld, hlive]
      exact h.registered

private theorem Resting.performAll (h : Resting s) {events : List Event}
    (hreset : .command .reset ∉ events) (hrun : .command .run ∉ events)
    (hstep : .command .step ∉ events) (hkill : .command .kill ∉ events) :
    (s.performAll events).world = s.world ∧
      (s.performAll events).barrier.live = s.barrier.live := by
  induction events generalizing s with
  | nil => exact ⟨rfl, rfl⟩
  | cons e events ih =>
    simp only [List.mem_cons, not_or] at hreset hrun hstep hkill
    obtain ⟨hworld, hlive, hresting⟩ := h.perform (Ne.symm hreset.1) (Ne.symm hrun.1)
      (Ne.symm hstep.1) (Ne.symm hkill.1)
    obtain ⟨hworld', hlive'⟩ := ih hresting hreset.2 hrun.2 hstep.2 hkill.2
    exact ⟨hworld'.trans hworld, hlive'.trans hlive⟩

/-- **Holding.** From a pause or a single step to the next run, at most as many rounds are granted
as there are single steps, the initial one included, and none after a pause until a later step;
the count of rounds grows by one with each of them. And whenever a simulation is idle and was not
killed, nothing in the world and nobody who is live changes until the next run, step or kill (a
reset kills, too). -/
theorem pause_and_step_hold :
    (∀ (s : Simulation) (events : List Event), .command .run ∉ events →
      count grants (s.perform (.command .pause)) events ≤ events.count (.command .step) ∧
      count grants (s.perform (.command .step)) events ≤ events.count (.command .step) + 1 ∧
      (.command .step ∉ events → count grants (s.perform (.command .pause)) events = 0)) ∧
    (∀ (s : Simulation) (events : List Event), .command .reset ∉ events →
      (s.performAll events).barrier.rounds = s.barrier.rounds + count grants s events) ∧
    ∀ program config s before, Simulation.create program config = .ok s →
      (s.performAll before).barrier.isIdle → (s.performAll before).barrier.killed = false →
      ∀ after, .command .run ∉ after → .command .step ∉ after → .command .kill ∉ after →
        .command .reset ∉ after →
        (s.performAll (before ++ after)).world = (s.performAll before).world ∧
          (s.performAll (before ++ after)).barrier.live = (s.performAll before).barrier.live := by
  refine ⟨fun s events hrun => ?_, fun s events => s.rounds_performAll, ?_⟩
  · have hpause : count grants (s.perform (.command .pause)) events ≤
        0 + events.count (.command .step) := grants_le_steps _ rfl hrun
    have hstep : count grants (s.perform (.command .step)) events ≤
        1 + events.count (.command .step) := grants_le_steps _ rfl hrun
    refine ⟨by omega, by omega, fun hnone => ?_⟩
    rw [List.count_eq_zero.mpr hnone] at hpause
    omega
  · intro program config s before hs hidle hkilled after hrun hstep hkill hreset
    obtain ⟨s', events, hbegins, hreset', hsame⟩ := exists_begins hs before
    rw [performAll_append]
    rw [hsame] at hidle hkilled ⊢
    have hinStep := (InStep.begins hbegins).performAll_of events hreset'
    have hresting := (Orderly.performAll hbegins events hreset').resting hinStep hidle hkilled
    exact hresting.performAll hreset hrun hstep hkill

private def rester : Tree :=
  .labeled "Bug" [.labeled "a" [], .labeled "list" [], .labeled "initially" [],
    .labeled "block" [.labeled "move" [.labeled "1.0" []]], .labeled "list" []]

private def twoResters : Program := ⟨.labeled "program" [], .labeled "list" [], [rester, rester]⟩

/-- A pause takes a pending step back, and a single step is asked for again. -/
private def stepAgain : List Event := [.command .pause, .tick 0, .command .step, .tick 0, .tick 0]

/-- Both bugs ask for a permit that does not come. -/
private def askInVain : List Event := [.work 0, .work 1, .tick 250, .work 0, .command .pause]

theorem pause_and_step_hold_resters :
    ∃ s, Simulation.create twoResters ⟨0, false⟩ = .ok s ∧
      count grants ((s.perform (.command .start)).perform (.command .step)) stepAgain = 1 ∧
      count grants ((s.perform (.command .start)).perform (.command .step)) stepAgain ≤
        stepAgain.count (.command .step) + 1 ∧
      (s.performAll [.command .start]).barrier.isIdle = true ∧
      (s.performAll ([.command .start] ++ askInVain)).world =
        (s.performAll [.command .start]).world := by
  obtain ⟨s, hs, hgrants, hidle, hkilled⟩ :
      ∃ s, Simulation.create twoResters ⟨0, false⟩ = .ok s ∧
        count grants ((s.perform (.command .start)).perform (.command .step)) stepAgain = 1 ∧
        (s.performAll [.command .start]).barrier.isIdle = true ∧
        (s.performAll [.command .start]).barrier.killed = false := ⟨_, rfl, by decide +kernel⟩
  obtain ⟨hsteps, -, hrest⟩ := pause_and_step_hold
  exact ⟨s, hs, hgrants, (hsteps _ stepAgain (by decide)).2.1, hidle,
    (hrest twoResters _ s [.command .start] hs hidle hkilled askInVain (by decide) (by decide)
      (by decide) (by decide)).1⟩

end Simulation

end DrawingBugs
