import DrawingBugs.Proofs.Simulation.Holding
import Mathlib

/-!
# How many rounds

A run without a kill ends after one round more than the most actions that any of its bugs has
carried out: a bug leaves in the round after its last parking, and a round is granted only to
somebody who has parked in every round before it.
-/

namespace DrawingBugs

namespace Phase

/-- Whether the bug has carried out its action and is about to draw its line or to park. -/
def isCompleting : Phase → Bool
  | .running m => match m.focus with | .draw .. | .park => true | _ => false
  | _ => false

def isFaulting : Phase → Bool
  | .running m => match m.focus with | .fault _ => true | _ => false
  | _ => false

private theorem isCompleting_of_isComputing {m : Machine} (h : m.focus.isComputing) :
    isCompleting (.running m) = false := by
  cases hm : m.focus <;> simp_all [isCompleting, Focus.isComputing]

private theorem isCompleting_of_plain {m : Machine} (h : m.Plain) :
    isCompleting (.running m) = false := by
  cases hm : m.focus <;> simp_all [isCompleting, Machine.Plain, Focus.isPlain]

private theorem isCompleting_of_outcome {m : Machine} {outcome : Outcome}
    (h : m.outcome? = some outcome) : isCompleting (.running m) = false := by
  cases hm : m.focus <;> simp_all [isCompleting, Machine.outcome?]

private theorem isActing_of_outcome {m : Machine} {outcome : Outcome}
    (h : m.outcome? = some outcome) : isActing (.running m) = false := by
  cases hm : m.focus <;> simp_all [isActing, Machine.outcome?]

private theorem isCompleting_of_isParking {phase : Phase} (h : phase.isParking) :
    phase.isCompleting := by
  cases phase with
  | running m => cases hm : m.focus <;> simp_all [isParking, isCompleting]
  | _ => cases h

private theorem InStep.of_isCompleting {flag : Option Bool} {actions parks : Nat} {phase : Phase}
    (h : InStep flag actions parks phase) (hcompleting : phase.isCompleting) :
    flag = some false := by
  cases phase with
  | running m => cases hm : m.focus <;> simp_all [InStep, isCompleting]
  | _ => cases hcompleting

private theorem Move.isCompleting {seat : Nat} {s s' : Shared} {phase phase' : Phase}
    (hmove : Move seat s phase phase' s') :
    phase.isCompleting.toNat + (phase.isActing && !phase'.isFaulting).toNat =
      phase.isParking.toNat + phase'.isCompleting.toNat := by
  cases hmove with
  | run _ hmove =>
    cases hmove with
    | compute hcomputing hplain _ =>
      simp [isCompleting_of_isComputing hcomputing, isActing_of_isComputing hcomputing,
        isParking_of_isComputing hcomputing, isCompleting_of_plain hplain]
    | act hm hafter _ =>
      rcases hafter with ⟨segment, color, hm'⟩ | hm' | ⟨e, hm'⟩ <;>
        simp [Phase.isCompleting, Phase.isActing, Phase.isParking, isFaulting, hm, hm']
    | draw hm | park hm | proceed hm | halt hm =>
      simp [Phase.isCompleting, Phase.isActing, Phase.isParking, hm, Machine.focusOn, Machine.fail]
    | wait hm => simp [Phase.isCompleting, Phase.isActing, Phase.isParking, hm]
    | unwind hm hm' => simp [Phase.isCompleting, Phase.isActing, Phase.isParking, hm, hm']
  | finish houtcome =>
    have hafter : ∀ outcome, (afterOutcome outcome).isCompleting = false := by
      intro outcome
      unfold afterOutcome
      split <;> rfl
    simp [isCompleting_of_outcome houtcome, isActing_of_outcome houtcome,
      isParking_of_outcome houtcome, hafter]
  | _ => rfl

end Phase

namespace Simulation

variable {s : Simulation}

/-! ## Completed actions -/

/-- Whether an event carries out a visible action of the bug at a seat, without a fault. -/
def completesAt (seat : Nat) (s : Simulation) (e : Event) : Bool :=
  acts seat s e && !((s.perform e).phase? seat).any Phase.isFaulting

/-- How many visible actions the bug at a seat completes in a run. -/
def completed (seat : Nat) : Simulation → List Event → Nat := count (completesAt seat)

private theorem completing_perform {e : Event} (hreset : e ≠ .command .reset) (seat : Nat) :
    ((s.phase? seat).any Phase.isCompleting).toNat + (completesAt seat s e).toNat =
      (parksAt seat s e).toNat + (((s.perform e).phase? seat).any Phase.isCompleting).toNat := by
  by_cases hwork : e = .work seat
  · subst hwork
    cases hphase : s.phase? seat with
    | none =>
      simp [completesAt, acts, parksAt, isActing, isParking, perform_work_of_none hphase, hphase]
    | some phase =>
      obtain ⟨phase', hmove, -, -, hphases⟩ := perform_work_of_some hphase
      simpa [completesAt, acts, parksAt, isActing, isParking, hphases, hphase]
        using hmove.isCompleting
  · rw [any_phase?_perform_of_ne rfl rfl hwork hreset]
    simp [completesAt, acts, parksAt, hwork]

/-- A bug has parked after each action that it has completed, except for one that it is about to
park after. -/
private theorem completed_eq {program : Program} (hs : Begins program s) (events : List Event)
    (hreset : .command .reset ∉ events) (seat : Nat) :
    completed seat s events = parks seat s events +
      (((s.performAll events).phase? seat).any Phase.isCompleting).toNat := by
  induction events using List.reverseRecOn with
  | nil =>
    have hnone : (s.phase? seat).any Phase.isCompleting = false := by
      cases hphase : s.phase? seat with
      | none => rfl
      | some phase =>
        rw [hs.phase? hphase]
        rfl
    simp [completed, parks, count, performAll, hnone]
  | append_singleton events e ih =>
    simp only [List.mem_append, List.mem_singleton, not_or] at hreset
    have hbefore := ih hreset.1
    have hstep := completing_perform (s := s.performAll events) (Ne.symm hreset.2) seat
    simp only [completed, parks, count_concat, performAll_concat] at hbefore ⊢
    omega

private theorem completed_of_left {program : Program} (hs : Begins program s) (events : List Event)
    (hreset : .command .reset ∉ events) {seat : Nat}
    (hleft : (s.performAll events).barrier.live.get? seat = none) :
    completed seat s events = parks seat s events := by
  have hstep := (InStep.begins hs).performAll_of events hreset
  have hnone : ((s.performAll events).phase? seat).any Phase.isCompleting = false := by
    by_contra hcompleting
    obtain ⟨phase, hphase, hcompleting⟩ :=
      (Option.any_eq_true _ _).mp (by simpa using hcompleting)
    have hflag := (hstep.workers seat phase hphase).of_isCompleting hcompleting
    cases hleft.symm.trans hflag
  rw [completed_eq hs events hreset seat, hnone, Bool.toNat_false, Nat.add_zero]

/-! ## Rounds against parkings -/

private theorem build_killed {program : Program} {config : RunConfig} {shared : Shared}
    (h : build program config = .ok shared) : shared.barrier.killed = false := by
  obtain ⟨w, -, h⟩ := bind_eq_ok.mp h
  exact foldlM_enroll (P := fun s => s.barrier.killed = false) (fun _ _ h => h) rfl h

private theorem Begins.killed {program : Program} (hs : Begins program s) :
    s.barrier.killed = false := by
  obtain ⟨config, shared, hbuild, hshared⟩ := hs.built
  have hkilled := build_killed hbuild
  rw [barrier]
  cases hshared with
  | inl hsame => rwa [hsame]
  | inr hheld => rwa [hheld]

private theorem Begins.not_killed {program : Program} (hs : Begins program s) {events : List Event}
    (hreset : .command .reset ∉ events) (hkill : .command .kill ∉ events) :
    (s.performAll events).barrier.killed = false := by
  induction events using List.reverseRecOn with
  | nil => exact hs.killed
  | append_singleton events e ih =>
    simp only [List.mem_append, List.mem_singleton, not_or] at hreset hkill
    have hmove := (s.performAll events).perform_barrierMove (Ne.symm hreset.2)
    rw [performAll_concat, hmove.killed_eq (Ne.symm hkill.2)]
    exact ih hreset.1 hkill.1

private theorem live_of_grants {e : Event} (hreset : e ≠ .command .reset) (h : grants s e) :
    s.barrier.live ≠ [] := by
  have hmove := s.perform_barrierMove hreset
  simp only [grants, decide_eq_true_eq] at h
  generalize (s.perform e).barrier = b at hmove h
  cases hmove with
  | grant _ _ hlive => exact hlive
  | _ => exact absurd h (Nat.lt_irrefl _)

private theorem Begins.lt_of_live {program : Program} (hs : Begins program s) {events : List Event}
    (hreset : .command .reset ∉ events) {seat : Nat} {flag : Bool}
    (hflag : (s.performAll events).barrier.live.get? seat = some flag) :
    seat < program.bugs.length := by
  have hlive : (s.performAll events).barrier.live.contains seat := by simp [Table.contains, hflag]
  have hfirst := ((live_iff_departures events hreset seat).mp hlive).1
  by_contra hout
  simp [Table.contains, hs.flag, hout] at hfirst

/-- A round is granted to somebody who has parked in every round before it. -/
private theorem rounds_le_parks {program : Program} (hs : Begins program s) (events : List Event)
    (hreset : .command .reset ∉ events) :
    (s.performAll events).barrier.rounds = 0 ∨ ∃ seat < program.bugs.length,
      (s.performAll events).barrier.rounds ≤ parks seat s events + 1 := by
  induction events using List.reverseRecOn with
  | nil =>
    obtain ⟨idle, hcrew, -, henrolled, ⟨rfl, -⟩ | rfl⟩ := hs.enrolled
    · exact .inl henrolled.rounds
    · refine .inl ?_
      have hbarrier : idle.start.barrier = idle.shared.barrier := by simp [start, hcrew, barrier]
      exact (congrArg Barrier.rounds hbarrier).trans henrolled.rounds
  | append_singleton events e ih =>
    simp only [List.mem_append, List.mem_singleton, not_or] at hreset
    have hrounds := (s.performAll events).rounds_perform (Ne.symm hreset.2)
    rw [performAll_concat, hrounds]
    simp only [parks, count_concat]
    by_cases hgrants : grants (s.performAll events) e
    · -- Whoever is live when the round is granted has parked in all the others.
      obtain ⟨-, -, hmay, -⟩ := of_grants (Ne.symm hreset.2) hgrants
      obtain ⟨⟨seat, flag⟩, hmem⟩ :=
        List.exists_mem_of_ne_nil _ (live_of_grants (Ne.symm hreset.2) hgrants)
      have hflag := Table.get?_of_mem (Attended.performAll hs events hreset.1).nodup hmem
      cases Barrier.parked_of_mayGrant hmay hflag
      have hparks := ((InStep.begins hs).performAll_of events hreset.1).rounds seat true hflag
      refine .inr ⟨seat, hs.lt_of_live hreset.1 hflag, ?_⟩
      simp only [parks, hgrants, Bool.not_true, Bool.toNat_false, Bool.toNat_true] at hparks ⊢
      omega
    · rw [Bool.not_eq_true] at hgrants
      rw [hgrants]
      refine (ih hreset.1).imp id ?_
      rintro ⟨seat, hseat, hle⟩
      simp only [parks] at hle
      exact ⟨seat, hseat, by simp only [Bool.toNat_false]; omega⟩

private theorem flag_eq_none {e : Event} (hreset : e ≠ .command .reset) {seat : Nat}
    (h : (s.perform e).barrier.live.get? seat = none) :
    s.barrier.live.get? seat = none ∨ departsAt seat s e := by
  rw [flag_perform s hreset] at h
  split at h
  · exact .inl (Option.map_eq_none_iff.mp h)
  split at h
  · next hdeparts => exact .inr hdeparts
  split at h
  · exact .inl (Option.map_eq_none_iff.mp h)
  · exact .inl h

private theorem InStep.parks_of_departsAt {actions parks : Nat → Nat} (h : InStep actions parks s)
    (horderly : Orderly s) (hkilled : s.barrier.killed = false) {seat : Nat} {e : Event}
    (hdeparts : departsAt seat s e) : parks seat + 1 = s.barrier.rounds := by
  simp only [departsAt, decide_eq_true_eq] at hdeparts
  obtain ⟨phase, hphase, hdeparting⟩ := (Option.any_eq_true _ _).mp hdeparts.2
  have hgone : phase ≠ .gone := by
    rintro rfl
    cases hdeparting
  obtain ⟨flag, hflag⟩ :=
    Option.isSome_iff_exists.mp ((h.workers seat phase hphase).isSome_of_ne_gone hgone)
  cases flag with
  | false => exact h.rounds seat false hflag
  | true =>
    have hasking := horderly hkilled seat phase hphase hflag
    cases phase <;> simp_all [Phase.isDeparting, Phase.isAsking]

private theorem InStep.parksAt_of_left {actions parks : Nat → Nat} (h : InStep actions parks s)
    {seat : Nat} {e : Event} (hleft : s.barrier.live.get? seat = none ∨ departsAt seat s e) :
    parksAt seat s e = false := by
  by_contra hparks
  simp only [parksAt, decide_eq_true_eq, Bool.not_eq_false] at hparks
  obtain ⟨phase, hphase, hparking⟩ := (Option.any_eq_true _ _).mp hparks.2
  have hflag :=
    (h.workers seat phase hphase).of_isCompleting (Phase.isCompleting_of_isParking hparking)
  cases hleft with
  | inl hnone => cases hnone.symm.trans hflag
  | inr hdeparts =>
    have hdeparting : phase.isDeparting := by
      simpa [departsAt, isDeparting, hphase, hparks.1] using hdeparts
    cases phase with
    | running m => cases hdeparting
    | _ => cases hparking

/-- Without a kill a bug leaves in a round in which it has not parked. -/
private theorem parks_lt_rounds {program : Program} (hs : Begins program s) (events : List Event)
    (hreset : .command .reset ∉ events) (hkill : .command .kill ∉ events) {seat : Nat}
    (hseat : seat < program.bugs.length)
    (hleft : (s.performAll events).barrier.live.get? seat = none) :
    parks seat s events < (s.performAll events).barrier.rounds := by
  induction events using List.reverseRecOn with
  | nil =>
    have hflag := hs.flag seat
    rw [if_pos hseat] at hflag
    cases hflag.symm.trans hleft
  | append_singleton events e ih =>
    simp only [List.mem_append, List.mem_singleton, not_or] at hreset hkill
    have hstep := (InStep.begins hs).performAll_of events hreset.1
    have hrounds := (s.performAll events).rounds_le_perform (Ne.symm hreset.2)
    rw [performAll_concat] at hleft ⊢
    have hbefore := flag_eq_none (Ne.symm hreset.2) hleft
    have hquiet := hstep.parksAt_of_left hbefore
    simp only [parks, count_concat, hquiet, Bool.toNat_false, Nat.add_zero] at ih ⊢
    refine Nat.lt_of_lt_of_le ?_ hrounds
    cases hbefore with
    | inl hnone => exact ih hreset.1 hkill.1 hnone
    | inr hdeparts =>
      have horderly := Orderly.performAll hs events hreset.1
      have hparks := hstep.parks_of_departsAt horderly (hs.not_killed hreset.1 hkill.1) hdeparts
      simp only [parks] at hparks
      omega

/-! ## The last round -/

private theorem count_grants_of_deserted (hlive : s.barrier.live = []) {events : List Event}
    (hreset : .command .reset ∉ events) : count grants s events = 0 := by
  induction events generalizing s with
  | nil => rfl
  | cons e events ih =>
    simp only [List.mem_cons, not_or] at hreset
    have hkeys := (s.perform_barrierMove (Ne.symm hreset.1)).keys
    have hlater : (s.perform e).barrier.live = [] := by simpa [hlive, Table.keys] using hkeys
    have hnone : grants s e = false := by
      by_contra hgrants
      exact live_of_grants (Ne.symm hreset.1) (by simpa using hgrants) hlive
    rw [count, hnone, ih hlater hreset.2]
    rfl

/-- **Round count.** When the last bug of a program has left in a run without a kill, the number of
rounds is one more than the most visible actions that any of the bugs has completed, and no further
round is ever granted. -/
theorem rounds_eq_completed {program : Program} (hs : Begins program s) (hbugs : program.bugs ≠ [])
    (events : List Event) (hreset : .command .reset ∉ events) (hkill : .command .kill ∉ events)
    (hlive : (s.performAll events).barrier.live = []) :
    (s.performAll events).barrier.rounds =
        1 + (Finset.range program.bugs.length).sup (fun seat => completed seat s events) ∧
      ∀ after, .command .reset ∉ after → count grants (s.performAll events) after = 0 ∧
        (s.performAll (events ++ after)).barrier.rounds = (s.performAll events).barrier.rounds := by
  have hleft (seat : Nat) : (s.performAll events).barrier.live.get? seat = none := by
    rw [hlive]
    rfl
  have hcompleted (seat : Nat) : completed seat s events = parks seat s events :=
    completed_of_left hs events hreset (hleft seat)
  have hlower : ∀ seat < program.bugs.length,
      completed seat s events < (s.performAll events).barrier.rounds := by
    intro seat hseat
    rw [hcompleted]
    exact parks_lt_rounds hs events hreset hkill hseat (hleft seat)
  have hpos := hlower 0 (List.length_pos_iff.mpr hbugs)
  refine ⟨?_, ?_⟩
  · apply Nat.le_antisymm
    · obtain hzero | ⟨seat, hseat, hle⟩ := rounds_le_parks hs events hreset
      · omega
      · have hsup := Finset.le_sup (f := fun seat => completed seat s events)
          (Finset.mem_range.mpr hseat)
        rw [hcompleted] at hsup
        omega
    · have hsup : (Finset.range program.bugs.length).sup (fun seat => completed seat s events) ≤
          (s.performAll events).barrier.rounds - 1 := by
        refine Finset.sup_le fun seat hseat => ?_
        have hlt := hlower seat (Finset.mem_range.mp hseat)
        omega
      omega
  · intro after hafter
    have hnone := count_grants_of_deserted hlive hafter
    refine ⟨hnone, ?_⟩
    rw [performAll_append, rounds_performAll _ hafter, hnone, Nat.add_zero]

/-- A bug that does these statements. -/
private def performer (statements : List Tree) : Tree :=
  .labeled "Bug" [.labeled "a" [], .labeled "list" [], .labeled "initially" [],
    .labeled "block" statements, .labeled "list" []]

/-- The first bug moves twice; the second one moves once and fails. -/
private def unequal : Program :=
  ⟨.labeled "program" [], .labeled "list" [],
    [performer [.labeled "move" [.labeled "1.0" []], .labeled "move" [.labeled "1.0" []]],
      performer [.labeled "move" [.labeled "1.0" []], .labeled "move" [.labeled "v" []]]]⟩

/-- One turn of the loop, and as many steps of each bug as it can take. -/
private def oneRound : List Event :=
  .tick 0 :: (List.replicate 40 (.work 0) ++ List.replicate 40 (.work 1))

private def threeRounds : List Event := .command .start :: (oneRound ++ oneRound ++ oneRound)

theorem rounds_eq_completed_unequal :
    ∃ s, create unequal ⟨0, true⟩ = .ok s ∧ completed 0 s threeRounds = 2 ∧
      completed 1 s threeRounds = 1 ∧ (s.performAll threeRounds).world.failures.length = 1 ∧
      (s.performAll threeRounds).barrier.rounds =
        1 + (Finset.range 2).sup (fun seat => completed seat s threeRounds) := by
  obtain ⟨s, hs, hfirst, hsecond, hfailures, hlive⟩ :
      ∃ s, create unequal ⟨0, true⟩ = .ok s ∧ completed 0 s threeRounds = 2 ∧
        completed 1 s threeRounds = 1 ∧ (s.performAll threeRounds).world.failures.length = 1 ∧
        (s.performAll threeRounds).barrier.live.isEmpty = true := ⟨_, rfl, by decide +kernel⟩
  exact ⟨s, hs, hfirst, hsecond, hfailures,
    (rounds_eq_completed (.created hs) (by decide) threeRounds (by decide +kernel)
      (by decide +kernel) (List.isEmpty_iff.mp hlive)).1⟩

end Simulation

end DrawingBugs
