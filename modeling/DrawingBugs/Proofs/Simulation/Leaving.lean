import DrawingBugs.Proofs.Simulation.Progress
import Mathlib.Data.List.Basic

/-!
# Leaving

A bug leaves in three steps of its worker: its failure, if it has one, is recorded, then it leaves
the registry, and then the barrier. So whoever is registered is live, whoever has left the registry
has its failure in the log, and when nobody is live the log has one entry for each bug that failed.
-/

namespace DrawingBugs

private theorem filterMap_perm_append {α β : Type} [DecidableEq α] {l : List α}
    {f g : α → Option β} {a : α} {extra : List β} (hnodup : l.Nodup) (ha : a ∈ l)
    (hother : ∀ b, b ≠ a → g b = f b)
    (hown : (g a).toList = (f a).toList ++ extra) :
    (l.filterMap g).Perm (l.filterMap f ++ extra) := by
  have hsplit (k : α → Option β) :
      (l.filterMap k).Perm ((k a).toList ++ (l.erase a).filterMap k) := by
    have hcons := (List.perm_cons_erase ha).filterMap k
    cases hk : k a <;> simpa [hk] using hcons
  have hrest : (l.erase a).filterMap g = (l.erase a).filterMap f :=
    List.filterMap_congr fun b hb => hother b (hnodup.mem_erase_iff.mp hb).1
  have hlast : (extra ++ (l.erase a).filterMap f).Perm ((l.erase a).filterMap f ++ extra) :=
    List.perm_append_comm
  refine (hsplit g).trans ?_
  rw [hown, hrest, List.append_assoc]
  refine (hlast.append_left _).trans ?_
  rw [← List.append_assoc]
  exact (hsplit f).symm.append_right extra

/-- The failure of an evaluation with this outcome; a halt is none. -/
def Outcome.fatal? : Outcome → Option Fault
  | .fault .halted => none
  | .fault e => some e
  | _ => none

namespace Phase

/-- The failure in which the evaluation of a bug has ended. -/
def ending? : Phase → Option Fault
  | .running m => m.outcome?.bind Outcome.fatal?
  | _ => none

/-- The failure that is about to be recorded. -/
def recording? : Phase → Option Fault
  | .failing e => some e
  | _ => none

private theorem recording?_afterOutcome (outcome : Outcome) :
    (afterOutcome outcome).recording? = outcome.fatal? := by
  cases outcome with
  | fault e => cases e <;> rfl
  | _ => rfl

private theorem Move.recording_eq {seat : Nat} {s s' : Shared} {phase phase' : Phase}
    (hmove : Move seat s phase phase' s') : phase'.recording? = phase.ending? := by
  cases hmove with
  | run hongoing _ => simp [recording?, ending?, hongoing]
  | finish houtcome => simp [recording?_afterOutcome, ending?, houtcome]
  | _ => rfl

/-- Where a bug can be, given the failure in which its evaluation has ended. -/
def Accounts (fault : Option Fault) : Phase → Prop
  | .entering | .running _ => fault = none
  | .failing e => fault = some e
  | .leaving | .departing | .gone => True

private theorem accounts_afterOutcome (outcome : Outcome) :
    (afterOutcome outcome).Accounts outcome.fatal? := by
  cases outcome with
  | fault e => cases e <;> first | rfl | trivial
  | _ => trivial

private theorem Accounts.move {seat : Nat} {s s' : Shared} {phase phase' : Phase}
    {fault : Option Fault} (h : phase.Accounts fault) (hmove : Move seat s phase phase' s') :
    phase'.Accounts (fault.or phase.ending?) := by
  cases hmove with
  | wait _ | enter _ _ =>
    have hnone : fault = none := h
    simp [Accounts, ending?, hnone]
  | run hongoing _ =>
    have hnone : fault = none := h
    simp [Accounts, ending?, hongoing, hnone]
  | @finish m outcome houtcome =>
    have hnone : fault = none := h
    simpa [ending?, houtcome, hnone] using accounts_afterOutcome outcome
  | _ => trivial

private theorem Accounts.entries {phase : Phase} {fault : Option Fault} (h : phase.Accounts fault)
    (entry : Fault → Failure) :
    (if phase.ending?.isSome then none else (fault.or phase.ending?).map entry).toList =
      (if phase.recording?.isSome then none else fault.map entry).toList ++
        (phase.recording?.map entry).toList := by
  cases phase with
  | running m =>
    have hnone : fault = none := h
    rw [hnone]
    cases (Phase.running m).ending? <;> rfl
  | failing e =>
    have hsome : fault = some e := h
    rw [hsome]
    rfl
  | _ => simp [ending?, recording?]

private theorem Move.recorded {seat : Nat} {s s' : Shared} {phase phase' : Phase}
    (hmove : Move seat s phase phase' s') : s'.world.failures = s.world.failures ++
      (phase.recording?.map fun e => ⟨(s.world.bug seat).name, e.message⟩).toList := by
  cases hmove with
  | run _ hmove =>
    cases hmove with
    | compute _ _ hkeeps => simp [recording?, hkeeps.failures]
    | act _ _ hkeeps => simp [recording?, hkeeps.failures]
    | _ => simp [recording?, World.draw]
  | record e => rfl
  | _ => simp [recording?, World.leave]

private theorem Move.isPresent_of {seat : Nat} {s s' : Shared} {phase phase' : Phase}
    (hmove : Move seat s phase phase' s') (h : phase'.isPresent) :
    phase.isPresent ∧ phase ≠ .leaving := by
  cases hmove with
  | leave | depart | stay => cases h
  | _ => exact ⟨rfl, by simp⟩

end Phase

namespace Simulation

variable {actions parks : Nat → Nat} {s : Simulation}

/-! ## Names and the registry -/

private theorem names_foldlM {definitions : List Tree} {shared shared' : Shared}
    (h : definitions.foldlM enroll shared = .ok shared') :
    shared'.world.bugs.map Bug.name = shared.world.bugs.map Bug.name ++
      definitions.filterMap fun bug => (bug.child? 0).map Tree.text := by
  induction definitions generalizing shared with
  | nil =>
    cases h
    simp
  | cons definition definitions ih =>
    rw [List.foldlM_cons] at h
    obtain ⟨next, hnext, h⟩ := bind_eq_ok.mp h
    obtain ⟨name, hname, hnext⟩ := bind_eq_ok.mp hnext
    cases hnext
    have hchild : definition.child? 0 = some name := Tree.part_eq_ok.mp hname
    rw [ih h]
    simp [World.enter, World.seat, Bug.newborn, hchild]

private theorem Begins.world {program : Program} (hs : Begins program s) :
    ∃ config shared, build program config = .ok shared ∧ s.world = shared.world := by
  obtain ⟨config, shared, hbuild, hshared⟩ := hs.built
  refine ⟨config, shared, hbuild, ?_⟩
  rw [Simulation.world]
  cases hshared with
  | inl hsame => rw [hsame]
  | inr hheld => rw [hheld]

private theorem names_build {program : Program} {config : RunConfig} {shared : Shared}
    (h : build program config = .ok shared) :
    shared.world.bugs.map Bug.name = program.bugNames := by
  obtain ⟨w, hw, hfold⟩ := bind_eq_ok.mp h
  have hnone : w.bugs = [] := by
    have hids := (@ofAllbugs_enrolled _ _ config.pauseMs config.startRunning hw).ids
    simpa using hids
  rw [names_foldlM hfold, hnone]
  rfl

private theorem names_and_registry_perform {e : Event} (hreset : e ≠ .command .reset) :
    (s.perform e).world.bugs.map Bug.name = s.world.bugs.map Bug.name ∧
      (s.perform e).world.registry.Sublist s.world.registry := by
  by_cases hwork : ∃ seat, e = .work seat
  · obtain ⟨seat, rfl⟩ := hwork
    cases hphase : s.phase? seat with
    | none =>
      rw [perform_work_of_none hphase]
      exact ⟨rfl, .refl _⟩
    | some phase =>
      obtain ⟨phase', hmove, -, -, -⟩ := perform_work_of_some hphase
      constructor
      · have hsecond := congrArg (List.map Prod.snd) hmove.identities
        simpa [Bug.identity, Function.comp_def, world] using hsecond
      · by_cases hleaving : phase = .leaving
        · subst hleaving
          rw [world]
          generalize (s.perform (.work seat)).shared = shared at hmove
          cases hmove
          exact List.filter_sublist
        · rw [world, hmove.registry_eq hleaving]
          exact .refl _
  · have hworld := (perform_world (s := s) (fun seat he => hwork ⟨seat, he⟩) hreset).1
    rw [hworld]
    exact ⟨rfl, .refl _⟩

/-- The registry lists bugs of the program in the order of their definitions, and every bug has the
name of its definition. -/
structure Listed (program : Program) (s : Simulation) : Prop where
  names : s.world.bugs.map Bug.name = program.bugNames
  registry : s.world.registry.Sublist (List.range program.bugs.length)

private theorem Listed.begins {program : Program} (hs : Begins program s) : Listed program s := by
  obtain ⟨config, shared, hbuild, hworld⟩ := hs.world
  have hregistry := (build_enrolled hbuild).registry
  constructor
  · rw [hworld, names_build hbuild]
  · rw [hworld, hregistry]

private theorem Listed.perform {program : Program} (h : Listed program s) {e : Event}
    (hreset : e ≠ .command .reset) : Listed program (s.perform e) := by
  obtain ⟨hsame, hless⟩ := names_and_registry_perform hreset
  exact ⟨hsame.trans h.names, hless.trans h.registry⟩

private theorem Listed.performAll {program : Program} (hs : Begins program s) (events : List Event)
    (hreset : .command .reset ∉ events) : Listed program (s.performAll events) :=
  hs.invariant (Listed.begins hs) (fun _ hreset h => h.perform hreset) events hreset

private theorem Listed.name {program : Program} (h : Listed program s) (seat : Nat) :
    (s.world.bug seat).name = program.bugNames.getD seat "" := by
  rw [← h.names, World.bug, List.getD_eq_getElem?_getD, List.getD_eq_getElem?_getD,
    List.getElem?_map]
  cases s.world.bugs[seat]? <;> rfl

private theorem Listed.identities {program : Program} (h : Listed program s)
    (hstep : InStep actions parks s) : s.world.liveBugs.map Bug.identity =
      s.world.registry.map fun seat => (seat, program.bugNames.getD seat "") := by
  rw [World.liveBugs, List.map_map]
  apply List.map_congr_left
  intro seat hseat
  have hid := hstep.id_eq (hstep.registry seat hseat)
  simp only [Function.comp_apply, Bug.identity, hid, h.name seat]

/-! ## Membership -/

/-- Whoever has not come to leave is registered. -/
def Registered (s : Simulation) : Prop :=
  ∀ seat phase, s.phase? seat = some phase → phase.isPresent → seat ∈ s.world.registry

private theorem Registered.mem_registry_work (h : Registered s) (hstep : InStep actions parks s)
    {seat other : Nat} (hne : other ≠ seat) :
    other ∈ (s.perform (.work seat)).world.registry ↔ other ∈ s.world.registry := by
  cases hphase : s.phase? seat with
  | none => rw [perform_work_of_none hphase]
  | some phase =>
    obtain ⟨phase', hmove, -, -, -⟩ := perform_work_of_some hphase
    constructor
    · intro hmem
      exact (hmove.registry hmem).1
    · intro hmem
      by_cases hleaving : phase = .leaving
      · have hself := h seat phase hphase (by rw [hleaving]; rfl)
        refine hmove.mem_registry ?_ hmem
        rw [← world, hstep.id_eq (hstep.registry other hmem),
          hstep.id_eq (hstep.registry seat hself)]
        exact hne
      · rw [world, hmove.registry_eq hleaving]
        exact hmem

private theorem live_work {seat other : Nat} (hne : other ≠ seat) :
    (s.perform (.work seat)).barrier.live.contains other = s.barrier.live.contains other := by
  cases hphase : s.phase? seat with
  | none => rw [perform_work_of_none hphase]
  | some phase =>
    obtain ⟨phase', hmove, -, -, -⟩ := perform_work_of_some hphase
    exact congrArg Option.isSome (hmove.live_of_ne hne)

private theorem Registered.begins {program : Program} (hs : Begins program s) : Registered s := by
  intro seat phase hphase _
  obtain ⟨idle, hcrew, -, -, ⟨rfl, -⟩ | rfl⟩ := hs.enrolled
  · simp [Simulation.phase?, hcrew] at hphase
  · have hworld : idle.start.world = idle.world := by simp [start, hcrew, world]
    rw [hworld]
    exact (phase?_start_eq_some hcrew hphase).2

private theorem Registered.perform (h : Registered s) (hstep : InStep actions parks s) {e : Event}
    (hreset : e ≠ .command .reset) : Registered (s.perform e) := by
  intro seat phase' hphase' hpresent
  by_cases hwork : ∃ other, e = .work other
  · obtain ⟨other, rfl⟩ := hwork
    by_cases hseat : seat = other
    · subst hseat
      cases hphase : s.phase? seat with
      | none => simp [perform_work_of_none hphase, hphase] at hphase'
      | some phase =>
        obtain ⟨next, hmove, -, -, hphases⟩ := perform_work_of_some hphase
        have hnext : next = phase' := by simpa [hphases] using hphase'
        subst hnext
        obtain ⟨hbefore, hleaving⟩ := hmove.isPresent_of hpresent
        rw [world, hmove.registry_eq hleaving]
        exact h seat phase hphase hbefore
    · rw [h.mem_registry_work hstep hseat]
      refine h seat phase' ?_ hpresent
      cases hother : s.phase? other with
      | none => rwa [perform_work_of_none hother] at hphase'
      | some phase =>
        obtain ⟨next, -, -, -, hphases⟩ := perform_work_of_some hother
        rwa [hphases, if_neg hseat] at hphase'
  · have hne (other : Nat) : e ≠ .work other := fun he => hwork ⟨other, he⟩
    rw [(perform_world (s := s) hne hreset).1]
    rw [phase?_eq_map] at hphase'
    obtain ⟨worker, hworker, rfl⟩ := Option.map_eq_some_iff.mp hphase'
    cases worker?_perform_of_ne (hne seat) hreset hworker with
    | inl hsame => exact h seat worker.phase (phase?_of_worker hsame) hpresent
    | inr hnew => exact hnew.2.2.2.1

private theorem Registered.performAll {program : Program} (hs : Begins program s)
    (events : List Event) (hreset : .command .reset ∉ events) : Registered (s.performAll events) :=
  hs.invariant (Registered.begins hs) (fun hstep hreset h => h.perform hstep hreset) events hreset

/-- Whoever is live and not registered any more is about to leave the barrier. -/
private theorem Registered.isDeparting (h : Registered s) (hstep : InStep actions parks s)
    (hattended : Attended s) {seat : Nat} (hlive : s.barrier.live.contains seat)
    (hleft : seat ∉ s.world.registry) : s.isDeparting seat := by
  cases hcrew : s.crew with
  | none => exact absurd (hattended.registered hcrew seat hlive).1 hleft
  | some crew =>
    obtain ⟨phase, hphase⟩ :=
      Option.isSome_iff_exists.mp (hattended.workers (by simp [hcrew]) seat hlive)
    have hinStep := hstep.workers seat phase hphase
    have hpresent := h seat phase hphase
    cases phase with
    | departing => simp [Simulation.isDeparting, hphase, Phase.isDeparting]
    | gone =>
      have hnone : s.barrier.live.get? seat = none := hinStep
      simp [Table.contains, hnone] at hlive
    | _ => exact absurd (hpresent rfl) hleft

/-! ## The log of failures -/

/-- The failure in which an event ends the work of the bug at a seat. -/
def failsWith? (seat : Nat) (s : Simulation) (e : Event) : Option Fault :=
  if e = .work seat then (s.phase? seat).bind Phase.ending? else none

/-- The failure in which the evaluation of the bug at a seat ends in a run; a halt is none. -/
def fault? (seat : Nat) : Simulation → List Event → Option Fault
  | _, [] => none
  | s, e :: events => (failsWith? seat s e).or (fault? seat (s.perform e) events)

private theorem fault?_concat (seat : Nat) (s : Simulation) (events : List Event) (e : Event) :
    fault? seat s (events ++ [e]) =
      (fault? seat s events).or (failsWith? seat (s.performAll events) e) := by
  induction events generalizing s with
  | nil => simp [fault?, performAll]
  | cons first events ih =>
    rw [List.cons_append, fault?, fault?, ih, Option.or_assoc]
    rfl

/-- Whether the failure of the bug at a seat is about to be recorded. -/
def isFailing (s : Simulation) (seat : Nat) : Bool :=
  (s.phase? seat).any fun phase => phase.recording?.isSome

private theorem Registered.of_isFailing (h : Registered s) {seat : Nat}
    (hfailing : s.isFailing seat) : seat ∈ s.world.registry := by
  obtain ⟨phase, hphase, hrecording⟩ := (Option.any_eq_true _ _).mp hfailing
  apply h seat phase hphase
  cases phase with
  | failing e => rfl
  | _ => cases hrecording

/-- The entry for a bug that has failed. -/
def entry (program : Program) (seat : Nat) (e : Fault) : Failure :=
  ⟨program.bugNames.getD seat "", e.message⟩

/-- The entry that the log has for the bug at a seat, once its failure was recorded. -/
def recorded? (fault : Nat → Option Fault) (s : Simulation) (seat : Nat) : Option Failure :=
  if s.isFailing seat then none else (fault seat).map (entry s.program seat)

/-- The log has one entry for each failure that was recorded. -/
structure Accounted (fault : Nat → Option Fault) (s : Simulation) : Prop where
  workers : ∀ seat phase, s.phase? seat = some phase → phase.Accounts (fault seat)
  waiting : s.crew = none → ∀ seat ∈ s.world.registry, fault seat = none
  failures : s.world.failures.Perm
    ((List.range s.program.bugs.length).filterMap (recorded? fault s))

private theorem Accounted.begins {program : Program} (hs : Begins program s) :
    Accounted (fun _ => none) s := by
  refine ⟨?_, fun _ _ _ => rfl, ?_⟩
  · intro seat phase hphase
    rw [hs.phase? hphase]
    rfl
  · obtain ⟨config, shared, hbuild, hworld⟩ := hs.world
    rw [hworld, (build_enrolled hbuild).failures]
    simp [recorded?]

variable {fault : Nat → Option Fault}

private theorem failsWith?_of_ne {seat : Nat} {e : Event} (h : e ≠ .work seat) :
    failsWith? seat s e = none := if_neg h

/-- The log stays in order when it goes on with the entries that one bug gets. -/
private theorem Accounted.log (h : Accounted fault s) {s' : Simulation}
    {fault' : Nat → Option Fault} (seat : Nat) {extra : List Failure}
    (hprogram : s'.program = s.program)
    (hlog : s'.world.failures = s.world.failures ++ extra)
    (hother : ∀ i, i ≠ seat → recorded? fault' s' i = recorded? fault s i)
    (hown : (recorded? fault' s' seat).toList = (recorded? fault s seat).toList ++ extra)
    (hseat : extra = [] ∨ seat < s.program.bugs.length) :
    s'.world.failures.Perm
      ((List.range s'.program.bugs.length).filterMap (recorded? fault' s')) := by
  rw [hprogram, hlog]
  cases hseat with
  | inl hnone =>
    have hsame : recorded? fault' s' = recorded? fault s := by
      funext i
      by_cases hi : i = seat
      · rw [hnone, List.append_nil] at hown
        rw [hi]
        exact Option.ext fun a => by rw [← Option.mem_toList, hown, Option.mem_toList]
      · exact hother i hi
    rw [hnone, List.append_nil, hsame]
    exact h.failures
  | inr hlt =>
    have hperm := filterMap_perm_append List.nodup_range (List.mem_range.mpr hlt) hother hown
    exact (h.failures.append_right extra).trans hperm.symm

private theorem Accounted.work (h : Accounted fault s) (hstep : InStep actions parks s)
    (hregistered : Registered s) (hlisted : Listed s.program s) (seat : Nat) :
    Accounted (fun i => (fault i).or (failsWith? i s (.work seat))) (s.perform (.work seat)) := by
  have hother {i : Nat} (hi : i ≠ seat) : failsWith? i s (.work seat) = none :=
    failsWith?_of_ne fun he => hi (by cases he; rfl)
  cases hphase : s.phase? seat with
  | none =>
    have hsame : (fun i => (fault i).or (failsWith? i s (.work seat))) = fault := by
      funext i
      by_cases hi : i = seat
      · simp [failsWith?, hi, hphase]
      · rw [hother hi, Option.or_none]
    rw [hsame, perform_work_of_none hphase]
    exact h
  | some phase =>
    obtain ⟨phase', hmove, hprogram, hcrew, hphases⟩ := perform_work_of_some hphase
    have haccounts := h.workers seat phase hphase
    have hown : failsWith? seat s (.work seat) = phase.ending? := by simp [failsWith?, hphase]
    refine ⟨?_, ?_, ?_⟩
    · intro i phase'' hi
      rw [hphases] at hi
      by_cases hseat : i = seat
      · subst hseat
        rw [if_pos rfl, Option.some.injEq] at hi
        rw [hown, ← hi]
        exact haccounts.move hmove
      · rw [if_neg hseat] at hi
        rw [hother hseat, Option.or_none]
        exact h.workers i phase'' hi
    · intro hnone
      simp [hnone] at hcrew
    · have hname : (s.shared.world.bug seat).name = s.program.bugNames.getD seat "" :=
        hlisted.name seat
      have hlog := hmove.recorded
      rw [hname] at hlog
      refine h.log seat hprogram hlog ?_ ?_ ?_
      · intro i hi
        have hfailing : (s.perform (.work seat)).isFailing i = s.isFailing i := by
          simp [isFailing, hphases, hi]
        rw [recorded?, recorded?, hfailing, hother hi, Option.or_none, hprogram]
      · have hbefore : s.isFailing seat = phase.recording?.isSome := by simp [isFailing, hphase]
        have hafter : (s.perform (.work seat)).isFailing seat = phase.ending?.isSome := by
          simp [isFailing, hphases, hmove.recording_eq]
        rw [recorded?, recorded?, hbefore, hafter, hown, hprogram]
        exact haccounts.entries (entry s.program seat)
      · cases phase with
        | failing e => exact .inr (hstep.registry seat (hregistered seat _ hphase rfl))
        | _ => exact .inl rfl

private theorem Accounted.perform (h : Accounted fault s) (hstep : InStep actions parks s)
    (hregistered : Registered s) (hlisted : Listed s.program s) {e : Event}
    (hreset : e ≠ .command .reset) :
    Accounted (fun seat => (fault seat).or (failsWith? seat s e)) (s.perform e) := by
  by_cases hwork : ∃ seat, e = .work seat
  · obtain ⟨seat, rfl⟩ := hwork
    exact h.work hstep hregistered hlisted seat
  · have hne (seat : Nat) : e ≠ .work seat := fun he => hwork ⟨seat, he⟩
    obtain ⟨hworld, hprogram⟩ := perform_world (s := s) hne hreset
    have hsame : (fun seat => (fault seat).or (failsWith? seat s e)) = fault := by
      funext seat
      rw [failsWith?_of_ne (hne seat), Option.or_none]
    rw [hsame]
    refine ⟨?_, ?_, ?_⟩
    · intro seat phase hphase
      rw [phase?_eq_map] at hphase
      obtain ⟨worker, hworker, rfl⟩ := Option.map_eq_some_iff.mp hphase
      cases worker?_perform_of_ne (hne seat) hreset hworker with
      | inl hstays => exact h.workers seat worker.phase (phase?_of_worker hstays)
      | inr hnew =>
        obtain ⟨-, hcrew, hentering, hmem, -⟩ := hnew
        rw [hentering]
        exact h.waiting hcrew seat hmem
    · intro hnone seat hmem
      rw [hworld] at hmem
      cases hcrew : s.crew with
      | none => exact h.waiting hcrew seat hmem
      | some crew =>
        -- A crew is given up only when everybody is gone, and then nobody is registered.
        obtain ⟨phase, hphase, hpresent⟩ := hstep.present (by simp [hcrew]) seat hmem
        rw [phase?_eq_map] at hphase
        obtain ⟨worker, hworker, rfl⟩ := Option.map_eq_some_iff.mp hphase
        have hgone : worker.phase ≠ .gone := by
          intro hgone
          rw [hgone] at hpresent
          cases hpresent
        have hstays := worker?_perform_of_ne_gone (hne seat) hreset hworker hgone
        simp [worker?, hnone] at hstays
    · have hrecorded : recorded? fault (s.perform e) = recorded? fault s := by
        funext seat
        have hfailing : (s.perform e).isFailing seat = s.isFailing seat :=
          any_phase?_perform_of_ne rfl rfl (hne seat) hreset
        rw [recorded?, recorded?, hfailing, hprogram]
      rw [hworld, hprogram, hrecorded]
      exact h.failures

private theorem Accounted.performAll {program : Program} (hs : Begins program s)
    (events : List Event) (hreset : .command .reset ∉ events) :
    Accounted (fun seat => fault? seat s events) (s.performAll events) := by
  induction events using List.reverseRecOn with
  | nil => exact Accounted.begins hs
  | append_singleton events e ih =>
    simp only [List.mem_append, List.mem_singleton, not_or] at hreset
    have hprogram : (s.performAll events).program = program := by
      rw [program_performAll, hs.program]
    have hlisted := Listed.performAll hs events hreset.1
    rw [← hprogram] at hlisted
    rw [performAll_concat]
    simp only [fault?_concat]
    exact (ih hreset.1).perform ((InStep.begins hs).performAll_of events hreset.1)
      (Registered.performAll hs events hreset.1) hlisted (Ne.symm hreset.2)

/-! ## Leaving in order -/

/-- **Leaving.** At every moment of every run, killed or not: the registry lists bugs in the order
of their definitions and nobody twice; whoever is registered is live, and whoever is live and not
registered is about to leave the barrier; the log of failures has one entry, with the name of the
bug and the text of its fault, for each bug whose evaluation has ended in a failure, except for
those that are about to record it, who are still registered. So when nobody is live nobody is
registered, and the log is complete. A step of a worker takes nobody but its own bug out of the
registry or the barrier. -/
theorem leaving_in_order {program : Program} {now : Simulation} (hs : Begins program s)
    (events : List Event) (hreset : .command .reset ∉ events) (hnow : s.performAll events = now) :
    (now.world.registry.Sublist (List.range program.bugs.length) ∧
      now.world.liveBugs.map Bug.identity =
        now.world.registry.map fun seat => (seat, program.bugNames.getD seat "")) ∧
    (∀ seat ∈ now.world.registry, now.barrier.live.contains seat) ∧
    (∀ seat, now.barrier.live.contains seat → seat ∉ now.world.registry → now.isDeparting seat) ∧
    now.world.failures.Perm ((List.range program.bugs.length).filterMap fun seat =>
      if now.isFailing seat then none else (fault? seat s events).map (entry program seat)) ∧
    (∀ seat, now.isFailing seat → seat ∈ now.world.registry) ∧
    (now.barrier.isFinished → now.world.registry = [] ∧
      now.world.failures.Perm ((List.range program.bugs.length).filterMap fun seat =>
        (fault? seat s events).map (entry program seat))) ∧
    ∀ seat other, other ≠ seat →
      (other ∈ (now.perform (.work seat)).world.registry ↔ other ∈ now.world.registry) ∧
      (now.perform (.work seat)).barrier.live.contains other = now.barrier.live.contains other := by
  subst hnow
  have hstep := (InStep.begins hs).performAll_of events hreset
  have hregistered := Registered.performAll hs events hreset
  have hattended := Attended.performAll hs events hreset
  have hprogram : (s.performAll events).program = program := by
    rw [program_performAll, hs.program]
  have hlisted := Listed.performAll hs events hreset
  have hlog := (Accounted.performAll hs events hreset).failures
  have hrecorded : recorded? (fun seat => fault? seat s events) (s.performAll events) = fun seat =>
      if (s.performAll events).isFailing seat then none
      else (fault? seat s events).map (entry program seat) := by
    funext seat
    rw [recorded?, hprogram]
  rw [hprogram, hrecorded] at hlog
  refine ⟨⟨hlisted.registry, hlisted.identities hstep⟩, fun seat => hstep.live_of_registered,
    fun seat hlive hleft => hregistered.isDeparting hstep hattended hlive hleft, hlog,
    fun seat => hregistered.of_isFailing, ?_, ?_⟩
  · intro hfinished
    have hlive := List.isEmpty_iff.mp hfinished
    have hnobody : ∀ seat, seat ∉ (s.performAll events).world.registry := by
      intro seat hseat
      have hcontains := hstep.live_of_registered hseat
      simp [hlive, Table.contains, Table.get?] at hcontains
    have hdone : ∀ seat, (s.performAll events).isFailing seat = false := by
      intro seat
      by_contra hfails
      exact hnobody seat (hregistered.of_isFailing (by simpa using hfails))
    refine ⟨List.eq_nil_iff_forall_not_mem.mpr hnobody, ?_⟩
    simpa only [hdone, Bool.false_eq_true, if_false] using hlog
  · intro seat other hne
    exact ⟨hregistered.mem_registry_work hstep hne, live_work hne⟩

/-- A bug that moves by these amounts. -/
private def mover (name : String) (amounts : List Tree) : Tree :=
  .labeled "Bug" [.labeled name [], .labeled "list" [], .labeled "initially" [],
    .labeled "block" (amounts.map fun amount => .labeled "move" [amount]), .labeled "list" []]

/-- A bug `A` that fails on its second move, and a bug `B` that looks for it on its third one. -/
private def misled : Program :=
  let one := .labeled "1.0" []
  let nearby := .labeled "+" [one, .labeled "*" [.labeled "0.0" [],
    .labeled "." [.labeled "A" [], .labeled "x" []]]]
  ⟨.labeled "program" [], .labeled "list" [],
    [mover "A" [one, .labeled "nothing" []], mover "B" [one, one, nearby, one]]⟩

/-- One turn of the loop, and as many steps of each bug as it can take in a round. -/
private def everyTurn : List Event :=
  .tick 0 :: (List.replicate 40 (.work 0) ++ List.replicate 40 (.work 1))

private def threeTurns : List Event := .command .start :: (everyTurn ++ everyTurn ++ everyTurn)

/-- The first bug has failed in the second round and left the registry. -/
private def untilUnlisted : List Event :=
  .command .start :: (everyTurn ++ .tick 0 :: List.replicate 11 (.work 0))

theorem leaving_in_order_misled :
    ∃ s, create misled ⟨0, true⟩ = .ok s ∧ (s.performAll threeTurns).barrier.isFinished ∧
      (s.performAll threeTurns).world.registry = [] ∧
      (s.performAll threeTurns).world.failures.Perm
        [⟨"A", "variable \"nothing\" could not be found"⟩, ⟨"B", "bug \"A\" was not found"⟩] := by
  obtain ⟨s, hs, hfinished, hfirst, hsecond⟩ :
      ∃ s, create misled ⟨0, true⟩ = .ok s ∧ (s.performAll threeTurns).barrier.isFinished ∧
        fault? 0 s threeTurns = some (.undefinedVariable "nothing") ∧
        fault? 1 s threeTurns = some (.bugNotFound "A") := ⟨_, rfl, by decide +kernel⟩
  obtain ⟨-, -, -, -, -, hended, -⟩ :=
    leaving_in_order (.created hs) threeTurns (by decide +kernel) rfl
  obtain ⟨hregistry, hlog⟩ := hended hfinished
  refine ⟨s, hs, hfinished, hregistry, ?_⟩
  have hrange : List.range misled.bugs.length = [0, 1] := rfl
  rw [hrange, List.filterMap_cons, List.filterMap_cons, hfirst, hsecond] at hlog
  exact hlog

/-- Not everybody who is live is registered. -/
theorem unlisted_while_live :
    ∃ s, create misled ⟨0, true⟩ = .ok s ∧
      (s.performAll untilUnlisted).barrier.live.contains 0 = true ∧
      0 ∉ (s.performAll untilUnlisted).world.registry :=
  ⟨_, rfl, by decide +kernel, by decide +kernel⟩

end Simulation

end DrawingBugs
