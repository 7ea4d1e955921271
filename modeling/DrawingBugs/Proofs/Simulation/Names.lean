import DrawingBugs.Proofs.Machine.Footprint
import DrawingBugs.Proofs.Machine.Names
import DrawingBugs.Proofs.Simulation.Runs

/-!
# Built-in names in a simulation

A simulation begins with shared variables that were checked and with bugs that have none of their
own. What its workers do keeps built-in names out of all tables, so the fields of a bug hide no
variable and no parameter.
-/

namespace DrawingBugs

private theorem Table.Clean.foldl_insert {names : List String}
    (hnames : ∀ name ∈ names, isBuiltIn name = false) {t : Table String Float} (h : t.Clean) :
    Table.Clean (names.foldl (fun t name => t.insert name 0.0) t) := by
  induction names generalizing t with
  | nil => exact h
  | cons name names ih =>
    rw [List.forall_mem_cons] at hnames
    exact ih hnames.2 (h.insert hnames.1 0.0)

namespace World

private theorem clean_ofAllbugs {allbugs : Tree} {w : World} (h : ofAllbugs allbugs = .ok w) :
    w.globals.Clean := by
  dsimp only [ofAllbugs] at h
  split at h
  · cases h
  · next hfind =>
    obtain ⟨functions, -, h⟩ := bind_eq_ok.mp h
    cases h
    exact .foldl_insert (unreserved_of_find? hfind) .empty

private theorem Clean.enter {w : World} {seat : Nat} (h : w.Clean seat) (id : Nat) (name : String) :
    (w.enter (.newborn id name)).Clean seat := by
  refine ⟨?_, h.globals⟩
  change (((w.bugs ++ [Bug.newborn id name]).getD seat default).vars).Clean
  by_cases hold : seat < w.bugs.length
  · rw [List.getD_append _ _ _ _ hold]
    exact h.own
  · rw [List.getD_append_right _ _ _ _ (Nat.le_of_not_lt hold)]
    cases seat - w.bugs.length <;> exact .empty

private theorem Touches.clean {w w' : World} {seat other : Nat} (h : Touches other w w')
    (hne : seat ≠ other) (hw : w.Clean seat) : w'.Clean seat where
  own := by
    rw [bug, List.getD_eq_getElem?_getD, h.others seat hne, ← List.getD_eq_getElem?_getD]
    exact hw.own
  globals := hw.globals.of_keys h.keys

end World

namespace Phase

/-- No call of the machine that the worker runs binds a built-in name. -/
def Clean : Phase → Prop
  | .running m => m.Clean []
  | _ => True

private theorem Clean.step {phase : Phase} (h : phase.Clean) (seat : Nat) {s : Shared}
    (hs : ∀ i, s.world.Clean i) (definition : Tree) : (phase.step seat definition s).1.Clean ∧
      ∀ i, (phase.step seat definition s).2.world.Clean i := by
  cases phase with
  | entering =>
    refine ⟨?_, hs⟩
    simp only [Phase.step]
    cases s.barrier.permit seat with
    | granted => exact ⟨List.forall_mem_nil _, [], rfl, List.forall_mem_nil _⟩
    | halted | waiting => trivial
  | running m =>
    simp only [Phase.step]
    split
    · next outcome _ =>
      refine ⟨?_, hs⟩
      unfold afterOutcome
      split <;> trivial
    · next hongoing =>
      have hbusy : ¬ m.Returned [] := by
        intro hreturned
        obtain ⟨hstack, hresult⟩ := hreturned
        unfold Machine.outcome? at hongoing
        cases hfocus : m.focus <;> simp [hstack, hfocus, Focus.isResult] at hongoing hresult
      obtain ⟨hm, hown⟩ := Machine.Clean.step h (hs seat) hbusy
      refine ⟨hm, fun i => ?_⟩
      by_cases hi : i = seat
      · rwa [hi]
      · exact (Machine.step_touches m seat s).clean hi (hs i)
  | failing e => exact ⟨trivial, fun i => ⟨(hs i).own, (hs i).globals⟩⟩
  | leaving => exact ⟨trivial, fun i => ⟨(hs i).own, (hs i).globals⟩⟩
  | departing => exact ⟨trivial, hs⟩
  | gone => exact ⟨trivial, hs⟩

end Phase

namespace Simulation

/-- No built-in name is bound, neither in the world nor by a worker. -/
structure Clean (s : Simulation) : Prop where
  world : ∀ seat, s.world.Clean seat
  workers : ∀ seat worker, s.worker? seat = some worker → worker.phase.Clean

variable {s : Simulation}

private theorem clean_build {program : Program} {config : RunConfig} {shared : Shared}
    (h : build program config = .ok shared) (seat : Nat) : shared.world.Clean seat := by
  obtain ⟨w, hw, h⟩ := bind_eq_ok.mp h
  refine foldlM_enroll (P := fun s => s.world.Clean seat) ?_ ?_ h
  · intro s name hs
    exact hs.enter _ name
  · have hempty : (w.bug seat).vars.Clean := by
      have henrolled : Enrolled 0 ⟨w, .create 0 false⟩ := ofAllbugs_enrolled hw
      have hlength : w.bugs.length = 0 := henrolled.length
      rw [World.bug, List.getD_eq_default _ _ (by omega)]
      exact .empty
    exact ⟨hempty, World.clean_ofAllbugs hw⟩

private theorem Clean.create {program : Program} {config : RunConfig}
    (h : create program config = .ok s) : s.Clean := by
  obtain ⟨hbuild, -, -, hcrew, -⟩ := create_eq_ok h
  refine ⟨clean_build hbuild, fun seat worker hworker => ?_⟩
  simp [worker?, hcrew] at hworker

private theorem Clean.reset {fresh : Simulation} (h : s.reset = .ok fresh) : fresh.Clean := by
  obtain ⟨shared, hbuild, hshared, -, hworkers⟩ := reset_eq_ok h
  constructor
  · intro seat
    rw [Simulation.world, hshared]
    exact clean_build hbuild seat
  · intro seat worker hworker
    rw [(hworkers seat worker hworker).1]
    trivial

private theorem Clean.work (h : s.Clean) (seat : Nat) : (s.perform (.work seat)).Clean := by
  cases hworker : s.worker? seat with
  | none => rwa [perform_work_of_idle hworker]
  | some worker =>
    obtain ⟨hshared, -, -, -, hworkers⟩ := perform_work_of_worker hworker
    have hbefore := h.workers seat worker hworker
    obtain ⟨hphase, hworld⟩ := hbefore.step seat h.world worker.definition
    constructor
    · intro i
      rw [Simulation.world, hshared]
      exact hworld i
    · intro i other hother
      rw [hworkers] at hother
      split at hother
      · cases hother
        exact hphase
      · exact h.workers i other hother

/-- **Step.** No event binds a built-in name. -/
theorem Clean.perform (h : s.Clean) (e : Event) : (s.perform e).Clean := by
  by_cases hwork : ∃ seat, e = .work seat
  · obtain ⟨seat, rfl⟩ := hwork
    exact h.work seat
  by_cases hreset : e = .command .reset
  · subst hreset
    simp only [Simulation.perform, obey]
    split
    · next hfresh => exact .reset hfresh
    · exact ⟨h.world, h.workers⟩
  · have hne (seat : Nat) : e ≠ .work seat := fun he => hwork ⟨seat, he⟩
    constructor
    · intro seat
      rw [(perform_world hne hreset).1]
      exact h.world seat
    · intro seat worker hworker
      rcases worker?_perform_of_ne (hne seat) hreset hworker with hsame | ⟨-, -, hentering, -⟩
      · exact h.workers seat worker hsame
      · rw [hentering]
        trivial

/-- **Run.** In no state that a simulation reaches is a built-in name bound. -/
theorem Clean.performAll (h : s.Clean) (events : List Event) : (s.performAll events).Clean := by
  induction events generalizing s with
  | nil => exact h
  | cons e events ih => exact ih (h.perform e)

private theorem Clean.memory (h : s.Clean) {seat : Nat} {m : Machine}
    (hphase : s.phase? seat = some (.running m)) : m.memory.Clean := by
  rw [phase?_eq_map] at hphase
  obtain ⟨worker, hworker, hrunning⟩ := Option.map_eq_some_iff.mp hphase
  have hclean := h.workers seat worker hworker
  rw [hrunning] at hclean
  exact Machine.Clean.memory hclean

/-- **Built-in names are never bound.** The shared variables of a world that is made have other
names. A machine that works among tables without built-in names leaves none in them, whatever it
works on and whatever comes of it, if nobody else does. So in every state of every simulation all
tables are without them, and a lookup of such a name finds no parameter and no variable. -/
theorem builtIns_never_bound :
    (∀ allbugs w, World.ofAllbugs allbugs = .ok w → w.globals.Clean) ∧
    (∀ (seat : Nat) (env : Shared → Shared → Prop),
      (∀ s t, env s t → s.world.Clean seat → t.world.Clean seat) →
      ∀ (m : Machine) (s : Shared) (d : Machine × Shared), m.memory.Clean → s.world.Clean seat →
        Machine.Runs seat env m.stack (m, s) d → d.1.memory.Clean ∧ d.2.world.Clean seat) ∧
    ∀ program config s, create program config = .ok s → ∀ events,
      (∀ seat, (s.performAll events).world.Clean seat) ∧
      ∀ seat m, (s.performAll events).phase? seat = some (.running m) → m.memory.Clean ∧
        ∀ name, isBuiltIn name = true → m.memory.local? name = none ∧
          ((s.performAll events).world.bug seat).vars.get? name = none ∧
          (s.performAll events).world.global? name = none := by
  constructor
  · intro allbugs w hw
    exact World.clean_ofAllbugs hw
  constructor
  · intro seat env henv m s d hmemory hworld hrun
    have hm : m.Clean m.stack := ⟨hmemory, [], rfl, nofun⟩
    obtain ⟨hd, hafter⟩ := hm.runs henv hrun hworld
    exact ⟨hd.memory, hafter⟩
  · intro program config s hs events
    have hclean := (Clean.create hs).performAll events
    refine ⟨hclean.world, fun seat m hphase => ?_⟩
    have hmemory := hclean.memory hphase
    refine ⟨hmemory, fun name hname => ?_⟩
    exact ⟨hmemory.local?_eq_none hname, (hclean.world seat).own.get?_eq_none hname,
      (hclean.world seat).globals.get?_eq_none hname⟩

section Sample

open DrawingBugs.Tree

private def word (text : String) : Tree := .leaf (.ofText text)

/-- A bug with a variable, which it sets by calling a function with a parameter. -/
private def cruising : Tree :=
  .labeled "Bug" [word "a", .labeled "list" [.labeled "var" [word "speed"]],
    .labeled "initially" [],
    .labeled "block" [.labeled "assign" [word "speed",
      .labeled "call" [word "twice", .labeled "var" [word "4"]]]],
    .labeled "list" [.labeled "function" [word "twice", .labeled "var" [word "p"],
      .labeled "block" [.labeled "return" [.labeled "+" [word "p", word "p"]]]]]]

private def cruise : Program :=
  let shared := .labeled "Allbugs" [.labeled "list" [.labeled "var" [word "total"]]]
  ⟨.labeled "program" [shared, .labeled "list" [cruising]], shared, [cruising]⟩

private def insideCall : List Event := .command .start :: .tick 0 :: List.replicate 30 (.work 0)

/-- Inside the function its parameter is bound, and no built-in name. -/
theorem builtIns_never_bound_cruise :
    (∃ w, World.ofAllbugs cruise.allbugs = .ok w ∧ w.globals.keys = ["total"] ∧ w.globals.Clean) ∧
    ∃ s, create cruise ⟨0, true⟩ = .ok s ∧
      (∃ d, Machine.Runs 0 Eq [] (.executing .fresh cruising, s.shared) d ∧
        d.1.memory.scopes.map Table.keys = [["p"]] ∧ d.1.memory.Clean ∧ d.2.world.Clean 0) ∧
      ∃ m, (s.performAll insideCall).phase? 0 = some (.running m) ∧
        m.memory.scopes.map Table.keys = [["p"]] ∧ m.memory.local? "x" = none := by
  obtain ⟨hshared, hruns, hreached⟩ := builtIns_never_bound
  constructor
  · exact ⟨_, rfl, rfl, hshared cruise.allbugs _ rfl⟩
  obtain ⟨s, hs, hadvanced, hinside⟩ : ∃ s, create cruise ⟨0, true⟩ = .ok s ∧
      (Machine.advance 0 ([] : List Frame).length 29 (.executing .fresh cruising, s.shared)).any
        (fun c => c.1.memory.scopes.map Table.keys == [["p"]]) = true ∧
      ((s.performAll insideCall).phase? 0).any (fun phase =>
        match phase with
        | .running m => m.memory.scopes.map Table.keys == [["p"]]
        | _ => false) = true := ⟨_, rfl, by decide +kernel, by decide +kernel⟩
  refine ⟨s, hs, ?_, ?_⟩
  · obtain ⟨d, hrun, hd⟩ := Machine.Runs.exists_of_advance hadvanced
    have hclean := hruns 0 Eq (fun _ _ heq h => heq ▸ h) (.executing .fresh cruising) s.shared d
      (List.forall_mem_nil _) ((Clean.create hs).world 0) hrun
    exact ⟨d, hrun, beq_iff_eq.mp hd, hclean⟩
  · obtain ⟨phase, hphase, hp⟩ := (Option.any_eq_true _ _).mp hinside
    cases phase with
    | running m =>
      have hm := (hreached cruise ⟨0, true⟩ s hs insideCall).2 0 m hphase
      exact ⟨m, hphase, beq_iff_eq.mp hp, (hm.2 "x" rfl).1⟩
    | _ => cases hp

end Sample

end Simulation

end DrawingBugs
