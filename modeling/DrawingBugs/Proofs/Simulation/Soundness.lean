import DrawingBugs.Proofs.Machine.Manners
import DrawingBugs.Proofs.Simulation.Runs

/-!
# Programs that were read from a text

A machine that runs a bug takes trees apart by their labels and the places of their parts. The
shapes that the grammar gives to trees are roles of them: every part that is taken is there and
has the shape that its role needs, so that no machine ever fails for the shape of a tree.
-/

namespace DrawingBugs

namespace Tree

/-- The shapes of the trees that a machine executes. -/
inductive IsStatement : Tree → Prop
  | command {t : Tree} (h : IsCommand t) : IsStatement t
  | block {t : Tree} (h : IsBlock t) : IsStatement t
  | declaration {t : Tree} (h : IsDeclaration t) : IsStatement t
  | function {t : Tree} (h : IsFunction t) : IsStatement t
  | initially {t : Tree} (h : IsInitially t) : IsStatement t
  | bug {t : Tree} (h : IsBug t) : IsStatement t
  | declarations {ts : List Tree} (h : ∀ t ∈ ts, IsDeclaration t) : IsStatement (.labeled "list" ts)
  | functions {ts : List Tree} (h : ∀ t ∈ ts, IsFunction t) : IsStatement (.labeled "list" ts)

end Tree

namespace Roles

open DrawingBugs.Tree

/-- The roles of the trees that the grammar gives, and all faults but those in the shape of a
tree. -/
def shapes : Roles where
  expression := IsExpression
  statement := IsStatement
  case := IsCase
  function := IsFunction
  source _ := True
  target _ := True
  asks := True
  fault e := ∀ flaw, e ≠ .malformed flaw

private theorem shapes_welcomes (t : Tree) : shapes.Welcomes t where
  expression _ _ h := h
  block _ _ h := .block h
  case _ _ h := h
  source _ := trivial
  target _ := trivial
  asks := trivial

private theorem shapes_statement (t : Tree) (h : IsStatement t) : shapes.Executable t := by
  cases h with
  | command h => exact (shapes_welcomes t).executable h
  | block h =>
    obtain ⟨hbody⟩ := h
    exact fun c hc => .command (hbody c hc)
  | declaration h =>
    obtain ⟨htext⟩ := h
    simp only [Executable, text_node, htext]
  | function h =>
    have hfunction := h
    obtain ⟨-⟩ := h
    exact ⟨trivial, hfunction⟩
  | initially h =>
    cases h with
    | absent => exact fun c hc => by cases hc
    | present htext hbody =>
      simp only [Executable, text_node, htext]
      intro c hc
      cases hc
      exact .block hbody
  | bug h =>
    obtain ⟨htext, hdeclarations, hinitial, hcommands, hfunctions⟩ := h
    simp only [Executable, text_node, htext, Machine.sectionOrder, List.forall_mem_cons]
    exact ⟨.declarations hdeclarations, .functions hfunctions, .initially hinitial,
      .block (.block hcommands), by simp⟩
  | declarations h => exact fun c hc => .declaration (h c hc)
  | functions h => exact fun c hc => .function (h c hc)

/-- The shapes that the grammar gives to trees are closed under what a machine takes. -/
theorem shapes_closed : shapes.Closed where
  ordinary e h flaw he := by
    rw [he] at h
    cases h
  expression t h := (shapes_welcomes t).evaluable h
  statement := shapes_statement
  case t h := by
    obtain ⟨hguard, hbody⟩ := h
    exact ⟨hguard, .block (.block hbody)⟩
  function t h := by
    obtain ⟨hbody⟩ := h
    exact ⟨trivial, .block hbody⟩

end Roles

/-! ## Construction -/

namespace World

private theorem mapM_named_eq_ok {definitions : List Tree} {functions : List (String × Tree)}
    (h : definitions.mapM named = .ok functions) : functions.map Prod.snd = definitions := by
  induction definitions generalizing functions with
  | nil =>
    cases h
    rfl
  | cons definition definitions ih =>
    rw [List.mapM_cons] at h
    obtain ⟨first, hfirst, h⟩ := bind_eq_ok.mp h
    obtain ⟨rest, hrest, h⟩ := bind_eq_ok.mp h
    obtain ⟨name, _, hfirst⟩ := bind_eq_ok.mp hfirst
    cases h
    cases hfirst
    rw [List.map_cons, ih hrest]

private theorem mem_of_foldl_insert {functions : List (String × Tree)} {t : Table String Tree}
    {name : String} {f : Tree}
    (h : (functions.foldl (fun t (name, f) => t.insert name f) t).get? name = some f) :
    f ∈ functions.map Prod.snd ∨ t.get? name = some f := by
  induction functions generalizing t with
  | nil => exact .inr h
  | cons first functions ih =>
    rw [List.map_cons, List.mem_cons]
    rcases ih h with hmem | hget
    · exact .inl (.inr hmem)
    · rw [Table.get?_insert] at hget
      split at hget
      · exact .inl (.inl (Option.some.inj hget).symm)
      · exact .inr hget

theorem mem_of_ofAllbugs {allbugs : Tree} {w : World} (h : ofAllbugs allbugs = .ok w) {name : String}
    {f : Tree} (hf : w.functions.get? name = some f) :
    f ∈ (allbugs.child? 1).toList.flatMap Tree.children := by
  simp only [ofAllbugs] at h
  split at h
  · cases h
  · obtain ⟨functions, hfunctions, h⟩ := bind_eq_ok.mp h
    cases h
    rw [← mapM_named_eq_ok hfunctions]
    exact (mem_of_foldl_insert hf).resolve_right (by simp [Table.get?])

end World

namespace Roles

open DrawingBugs.Tree

private theorem shapes_functions {allbugs : Tree} (h : IsShared allbugs) :
    ∀ f ∈ (allbugs.child? 1).toList.flatMap children, IsFunction f := by
  cases h with
  | absent => simp [child?, labeled]
  | present _ hfunctions => simpa [child?, labeled] using hfunctions

private theorem shapes_mapM_named {definitions : List Tree} (h : ∀ f ∈ definitions, IsFunction f) :
    shapes.Comes (definitions.mapM World.named) := by
  induction definitions with
  | nil => trivial
  | cons definition definitions ih =>
    rw [List.forall_mem_cons] at h
    rw [List.mapM_cons]
    have hnamed : shapes.Comes (World.named definition) := by
      obtain ⟨-⟩ := h.1
      trivial
    exact hnamed.bind fun _ _ => (ih h.2).bind fun _ _ => trivial

theorem shapes_ofAllbugs {allbugs : Tree} (h : IsShared allbugs) :
    shapes.Gives (fun w => shapes.Functions w.functions) (World.ofAllbugs allbugs) := by
  have hcomes : shapes.Comes (World.ofAllbugs allbugs) := by
    simp only [World.ofAllbugs]
    split
    · exact shapes_closed.ordinary _ rfl
    · exact (shapes_mapM_named (shapes_functions h)).bind fun _ _ => trivial
  cases hw : World.ofAllbugs allbugs with
  | error e => rwa [hw] at hcomes
  | ok w => exact fun name f hf => shapes_functions h f (World.mem_of_ofAllbugs hw hf)

private theorem shapes_foldlM_enroll {definitions : List Tree} (h : ∀ t ∈ definitions, IsBug t)
    (s : Shared) : shapes.Comes (definitions.foldlM Simulation.enroll s) := by
  induction definitions generalizing s with
  | nil => trivial
  | cons definition definitions ih =>
    rw [List.forall_mem_cons] at h
    rw [List.foldlM_cons]
    have henroll : shapes.Comes (Simulation.enroll s definition) := by
      obtain ⟨-⟩ := h.1
      trivial
    exact henroll.bind fun next _ => ih h.2 next

private theorem shapes_build {program : Program} (h : program.IsShaped) (config : RunConfig) :
    shapes.Comes (Simulation.build program config) :=
  (shapes_ofAllbugs h.shared).bind fun _ _ => shapes_foldlM_enroll h.bugs _

private theorem shapes_create {program : Program} (h : program.IsShaped) (config : RunConfig) :
    shapes.Comes (Simulation.create program config) :=
  (shapes_build h config).bind fun _ _ => trivial

end Roles

/-! ## Runs -/

/-- Machines that are reached from another one by steps of its own, whatever happens to what is
shared in between; only the shared functions stay as they are. -/
inductive Machine.Reaches (functions : Table String Tree) (m : Machine) : Machine → Prop
  | refl : Reaches functions m m
  | step {m' : Machine} (h : Reaches functions m m') (seat : Nat) (s : Shared)
    (hs : s.world.functions = functions) : Reaches functions m (m'.step seat s).1

private theorem Machine.Plays.reaches {R : Roles} (hR : R.Closed) (hhalt : R.fault .halted)
    {functions : Table String Tree} (hfunctions : R.Functions functions) {m m' : Machine}
    (h : m.Plays R) (hreaches : Reaches functions m m') : m'.Plays R := by
  induction hreaches with
  | refl => exact h
  | step _ seat s hs ih => exact ih.step hR seat s (hs ▸ hfunctions) fun _ => hhalt

private theorem Machine.Plays.executing {R : Roles} {definition : Tree}
    (h : R.statement definition) : (Machine.executing .fresh definition).Plays R :=
  ⟨h, by simp [Machine.executing], nofun⟩

namespace Phase

/-- All that a worker runs is in its role, and so is the fault that it is about to record. -/
def Plays (R : Roles) : Phase → Prop
  | .running m => m.Plays R
  | .failing e => R.fault e
  | _ => True

private theorem Plays.step {R : Roles} (hR : R.Closed) {phase : Phase} (h : phase.Plays R)
    (seat : Nat) {definition : Tree} (hdefinition : R.statement definition) (s : Shared)
    (hs : R.Functions s.world.functions) (hhalt : s.barrier.killed → R.fault .halted) :
    (phase.step seat definition s).1.Plays R := by
  cases phase with
  | entering =>
    simp only [Phase.step]
    cases s.barrier.permit seat with
    | granted => exact Machine.Plays.executing hdefinition
    | halted | waiting => trivial
  | running m =>
    simp only [Phase.step]
    split
    · next outcome houtcome =>
      unfold afterOutcome
      split
      · trivial
      · next e _ =>
        have hfocus := Machine.Plays.focus h
        rwa [Machine.outcome?_eq_fault houtcome] at hfocus
      · trivial
    · exact Machine.Plays.step hR h seat s hs hhalt
  | failing e | leaving | departing | gone => trivial

end Phase

/-- All that a program holds is in its role, where every bug has roles of its own. -/
structure Program.Plays (R : Tree → Roles) (program : Program) : Prop where
  closed : ∀ t ∈ program.bugs, (R t).Closed
  bugs : ∀ t ∈ program.bugs, (R t).statement t
  shared : ∀ t ∈ program.bugs, ∀ w, World.ofAllbugs program.allbugs = .ok w →
    (R t).Functions w.functions

private theorem Program.IsShaped.plays {program : Program} (h : program.IsShaped) :
    program.Plays fun _ => .shapes where
  closed _ _ := Roles.shapes_closed
  bugs t ht := .bug (h.bugs t ht)
  shared _ _ _ hw := (Roles.shapes_ofAllbugs h.shared).ok hw

namespace Simulation

/-- All that the workers of a simulation run is in its role. -/
structure Plays (R : Tree → Roles) (s : Simulation) : Prop where
  program : s.program.Plays R
  functions : ∀ t ∈ s.program.bugs, (R t).Functions s.world.functions
  workers : ∀ seat worker, s.worker? seat = some worker →
    worker.definition ∈ s.program.bugs ∧ worker.phase.Plays (R worker.definition)

variable {R : Tree → Roles} {s : Simulation}

private theorem functions_of_build {program : Program} (h : program.Plays R) {config : RunConfig}
    {shared : Shared} (hshared : build program config = .ok shared) :
    ∀ t ∈ program.bugs, (R t).Functions shared.world.functions := by
  obtain ⟨w, hw, hfunctions, -⟩ := build_world hshared
  rw [hfunctions]
  exact fun t ht => h.shared t ht w hw

theorem Plays.create {program : Program} (h : program.Plays R) {config : RunConfig}
    (hs : Simulation.create program config = .ok s) : s.Plays R := by
  obtain ⟨hbuild, rfl, -, hcrew, -⟩ := create_eq_ok hs
  refine ⟨h, functions_of_build h hbuild, fun seat worker hworker => ?_⟩
  simp [worker?, hcrew] at hworker

private theorem plays_entering {program : Program} {i : Nat} {worker : Worker}
    (hdefinition : program.bugs[i]? = some worker.definition) (hentering : worker.phase = .entering) :
    worker.definition ∈ program.bugs ∧ worker.phase.Plays (R worker.definition) := by
  refine ⟨List.mem_of_getElem? hdefinition, ?_⟩
  rw [hentering]
  trivial

private theorem Plays.reset (h : s.Plays R) {fresh : Simulation} (hfresh : s.reset = .ok fresh) :
    fresh.Plays R := by
  obtain ⟨shared, hbuild, hshared, hprogram, hworkers⟩ := reset_eq_ok hfresh
  refine ⟨hprogram ▸ h.program, ?_, fun seat worker hworker => ?_⟩
  · have hfunctions := functions_of_build h.program hbuild
    rwa [world, hshared, hprogram]
  · obtain ⟨hentering, -, hdefinition⟩ := hworkers seat worker hworker
    exact plays_entering hdefinition hentering

private theorem Plays.work (h : s.Plays R) (hhalt : s.barrier.killed → ∀ t, (R t).fault .halted)
    (seat : Nat) : (s.perform (.work seat)).Plays R := by
  cases hworker : s.worker? seat with
  | none => rwa [perform_work_of_idle hworker]
  | some worker =>
    obtain ⟨hshared, hprogram, -, -, hworkers⟩ := perform_work_of_worker hworker
    obtain ⟨hdefinition, hphase⟩ := h.workers seat worker hworker
    refine ⟨hprogram ▸ h.program, ?_, fun i w hw => ?_⟩
    · rw [world, hshared, (worker.phase.step_move seat worker.definition s.shared).functions, hprogram]
      exact h.functions
    · rw [hprogram]
      rw [hworkers] at hw
      split at hw
      · cases hw
        exact ⟨hdefinition, hphase.step (h.program.closed _ hdefinition) seat
          (h.program.bugs _ hdefinition) s.shared (h.functions _ hdefinition)
          fun hkilled => hhalt hkilled _⟩
      · exact h.workers i w hw

theorem Plays.perform (h : s.Plays R) (hhalt : s.barrier.killed → ∀ t, (R t).fault .halted)
    (e : Event) : (s.perform e).Plays R := by
  by_cases hwork : ∃ seat, e = .work seat
  · obtain ⟨seat, rfl⟩ := hwork
    exact h.work hhalt seat
  · by_cases hreset : e = .command .reset
    · subst hreset
      simp only [Simulation.perform, obey]
      split
      · next hfresh => exact h.reset hfresh
      · exact ⟨h.program, h.functions, h.workers⟩
    · have hne (seat : Nat) : e ≠ .work seat := fun he => hwork ⟨seat, he⟩
      obtain ⟨hworld, hprogram⟩ := perform_world (s := s) hne hreset
      refine ⟨hprogram ▸ h.program, ?_, fun seat worker hworker => ?_⟩
      · rw [hworld, hprogram]
        exact h.functions
      · rw [hprogram]
        rcases worker?_perform_of_ne (hne seat) hreset hworker with
          hsame | ⟨-, -, hentering, -, hdefinition⟩
        · exact h.workers seat worker hsame
        · exact plays_entering hdefinition hentering

private theorem Plays.performAll (h : s.Plays R) (hhalt : ∀ t, (R t).fault .halted)
    (events : List Event) : (s.performAll events).Plays R := by
  induction events generalizing s with
  | nil => exact h
  | cons e events ih => exact ih (h.perform (fun _ => hhalt) e)

private theorem Plays.phase {R : Roles} (h : s.Plays fun _ => R) {seat : Nat} {phase : Phase}
    (hphase : s.phase? seat = some phase) : phase.Plays R := by
  rw [phase?_eq_map] at hphase
  obtain ⟨worker, hworker, rfl⟩ := Option.map_eq_some_iff.mp hphase
  exact (h.workers seat worker hworker).2

/-- **Soundness of the shapes.** A text is never refused for the shape of its tree. If it loads,
no simulation of its program is refused for the shape of a tree either; no machine that runs one
of its bugs comes to a fault in the shape of a tree, whatever happens to the world between its
steps; and in every run of every simulation no worker has such a fault. -/
theorem loaded_never_malformed (source : String) :
    (∀ fault, Program.load source ≠ .error (.unusable fault)) ∧
      ∀ program, Program.load source = .ok program →
        (∀ config flaw, Simulation.create program config ≠ .error (.malformed flaw)) ∧
        (∀ w, World.ofAllbugs program.allbugs = .ok w → ∀ definition ∈ program.bugs, ∀ m flaw,
          Machine.Reaches w.functions (.executing .fresh definition) m →
            m.focus ≠ .fault (.malformed flaw)) ∧
        ∀ config s, Simulation.create program config = .ok s → ∀ events seat flaw,
          (s.performAll events).phase? seat ≠ some (.failing (.malformed flaw)) ∧
            ∀ m, (s.performAll events).phase? seat = some (.running m) →
              m.focus ≠ .fault (.malformed flaw) := by
  rcases load_shaped source with ⟨program, hload, hshaped⟩ | ⟨e, hload⟩
  · refine ⟨by simp [hload], fun program' hprogram => ?_⟩
    cases hload.symm.trans hprogram
    have hplays := hshaped.plays
    refine ⟨fun config flaw hcreate => ?_, fun w hw definition hdefinition m flaw hreaches hm => ?_,
      fun config s hs events seat flaw => ?_⟩
    · have hcomes := Roles.shapes_create hshaped config
      rw [hcreate] at hcomes
      exact hcomes flaw rfl
    · have hm' := ((Machine.Plays.executing (hplays.bugs definition hdefinition)).reaches
        Roles.shapes_closed nofun (hplays.shared definition hdefinition w hw) hreaches).focus
      rw [hm] at hm'
      exact hm' flaw rfl
    · have hrun := (Plays.create hplays hs).performAll (fun _ => nofun) events
      refine ⟨fun hphase => hrun.phase hphase flaw rfl, fun m hphase hm => ?_⟩
      have hm' := Machine.Plays.focus (hrun.phase hphase)
      rw [hm] at hm'
      exact hm' flaw rfl
  · exact ⟨by simp [hload], by simp [hload]⟩

/-- A bug that moves by a variable that nobody has declared. -/
private def astray : Tree :=
  .node ⟨.keyword, "Bug", ⟨1, 1⟩⟩ [.leaf ⟨.name, "a", ⟨1, 5⟩⟩, .labeled "list" [],
    .labeled "initially" [],
    .labeled "block" [.node ⟨.keyword, "move", ⟨2, 1⟩⟩ [.leaf ⟨.name, "z", ⟨2, 6⟩⟩]],
    .labeled "list" []]

private def oneAstray : Program :=
  let shared := .labeled "Allbugs" []
  ⟨.labeled "program" [shared, .labeled "list" [astray]], shared, [astray]⟩

private def firstFailure : List Event := .command .start :: .tick 0 :: List.replicate 21 (.work 0)

theorem loaded_never_malformed_astray :
    Program.load "Bug a \x7b\nmove z\n\x7d\n" = .ok oneAstray ∧
      ∃ s, Simulation.create oneAstray ⟨0, true⟩ = .ok s ∧
        ((s.performAll firstFailure).phase? 0).any (fun phase =>
          match phase with
          | .failing e => e = .undefinedVariable "z"
          | _ => false) = true ∧
        ∀ flaw, (s.performAll firstFailure).phase? 0 ≠ some (.failing (.malformed flaw)) := by
  have hload : Program.load "Bug a \x7b\nmove z\n\x7d\n" = .ok oneAstray := by cbv
  obtain ⟨s, hs, hfails⟩ : ∃ s, Simulation.create oneAstray ⟨0, true⟩ = .ok s ∧
      ((s.performAll firstFailure).phase? 0).any (fun phase =>
        match phase with
        | .failing e => e = .undefinedVariable "z"
        | _ => false) = true := ⟨_, rfl, by decide +kernel⟩
  have hsound := ((loaded_never_malformed _).2 _ hload).2.2 _ s hs firstFailure 0
  exact ⟨hload, s, hs, hfails, fun flaw => (hsound flaw).1⟩

end Simulation

end DrawingBugs
