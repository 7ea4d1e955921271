import DrawingBugs.Proofs.Machine.Independence
import DrawingBugs.Proofs.Machine.Manners

/-!
# What a machine may touch

A machine reaches the world that it shares at many places: it asks other bugs, sets shared
variables, calls shared functions and draws. All that ever comes of it, also on the way to a fault,
is a change to its own bug, to the values of shared variables, and to the end of the log of lines.
-/

namespace DrawingBugs

namespace World

/-- The id of every line is its place in the log. -/
def Numbered (w : World) : Prop := w.lines.map Line.id = List.range w.lines.length

private theorem Numbered.increasing {w : World} (h : w.Numbered) :
    (w.lines.map Line.id).Pairwise (· < ·) := by
  rw [Numbered] at h
  rw [h]
  exact List.pairwise_lt_range

/-- From the first world to the second one nothing changes but the pose, the pen and the variables
of the bug at the seat, the values of shared variables, and the log of lines, which numbered lines
are added to. -/
structure Touches (seat : Nat) (w w' : World) : Prop where
  others : ∀ i, i ≠ seat → w'.bugs[i]? = w.bugs[i]?
  identities : w'.bugs.map Bug.identity = w.bugs.map Bug.identity
  registry : w'.registry = w.registry
  failures : w'.failures = w.failures
  functions : w'.functions = w.functions
  keys : w'.globals.keys = w.globals.keys
  lines : ∃ drawn, w'.lines = w.lines ++ drawn ∧
    drawn.map Line.id = List.range' w.lines.length drawn.length

variable {seat : Nat} {u v w : World}

private theorem Touches.refl (seat : Nat) (w : World) : Touches seat w w :=
  ⟨fun _ _ => rfl, rfl, rfl, rfl, rfl, rfl, [], by simp, rfl⟩

private theorem Touches.trans (h : Touches seat u v) (h' : Touches seat v w) :
    Touches seat u w where
  others i hi := (h'.others i hi).trans (h.others i hi)
  identities := h'.identities.trans h.identities
  registry := h'.registry.trans h.registry
  failures := h'.failures.trans h.failures
  functions := h'.functions.trans h.functions
  keys := h'.keys.trans h.keys
  lines := by
    obtain ⟨drawn, hv, hdrawn⟩ := h.lines
    obtain ⟨more, hw, hmore⟩ := h'.lines
    refine ⟨drawn ++ more, by rw [hw, hv, List.append_assoc], ?_⟩
    rw [List.map_append, hdrawn, hmore, hv, List.length_append, List.length_append,
      List.range'_append_1]

private theorem Touches.numbered (h : Touches seat v w) (hv : v.Numbered) : w.Numbered := by
  obtain ⟨drawn, hw, hdrawn⟩ := h.lines
  rw [Numbered] at hv
  rw [Numbered, hw, List.map_append, hv, hdrawn, List.length_append, List.range_eq_range',
    List.range_eq_range', ← List.range'_append_1, Nat.zero_add]

private theorem Keeps.touches {R : Roles} (hkeeps : Keeps v w) (hspares : Spares R seat v w) :
    Touches seat v w where
  others i hi := by
    have hbug := hspares.others i hi
    simp only [World.bug, List.getD_eq_getElem?_getD] at hbug
    by_cases hseated : i < v.bugs.length
    · rw [List.getElem?_eq_getElem hseated, List.getElem?_eq_getElem (hspares.count ▸ hseated)]
        at hbug ⊢
      exact congrArg some hbug
    · have hunseated : v.bugs.length ≤ i := Nat.le_of_not_lt hseated
      rw [List.getElem?_eq_none hunseated, List.getElem?_eq_none (hspares.count ▸ hunseated)]
  identities := hkeeps.identities
  registry := hkeeps.registry
  failures := hkeeps.failures
  functions := hkeeps.functions
  keys := hspares.keys
  lines := ⟨[], by simp [hkeeps.lines], rfl⟩

private theorem Touches.draw (w : World) (segment : Segment) (color : Color) :
    Touches seat w (w.draw segment color) :=
  ⟨fun _ _ => rfl, rfl, rfl, rfl, rfl, rfl, _, rfl, rfl⟩

end World

namespace Machine

variable {seat : Nat}

theorem step_touches (m : Machine) (seat : Nat) (s : Shared) :
    World.Touches seat s.world (m.step seat s).2.world := by
  have hspares := spares_step (R := Manner.any.toRoles) (m := m) (fun _ _ _ => trivial) seat s
  have hmove := m.step_move seat s
  generalize (m.step seat s).1 = m', (m.step seat s).2 = s' at hmove hspares
  cases hmove with
  | compute _ _ hkeeps => exact hkeeps.touches hspares
  | act _ _ hkeeps => exact hkeeps.touches hspares
  | draw => exact .draw s.world _ _
  | park | wait | proceed | halt | unwind => exact .refl seat s.world

/-- **Frame.** Whatever a machine works on, and whatever comes of it, while the others leave the
world alone it touches only what is its own. -/
theorem touches_own {env : Shared → Shared → Prop} (henv : ∀ s t, env s t → t.world = s.world)
    {base : List Frame} {m : Machine} {s : Shared} {d : Machine × Shared}
    (hrun : Runs seat env base (m, s) d) :
    World.Touches seat s.world d.2.world ∧
      (s.world.Numbered → d.2.world.Numbered ∧ (d.2.world.lines.map Line.id).Pairwise (· < ·)) := by
  have htouches : World.Touches seat s.world d.2.world := by
    refine hrun.invariant (P := fun c => World.Touches seat s.world c.2.world)
      (fun m' s' t hbefore _ hst => ?_) (.refl seat s.world)
    have hstep := step_touches m' seat t
    rw [henv s' t hst] at hstep
    exact hbefore.trans hstep
  exact ⟨htouches, fun hs => ⟨htouches.numbered hs, (htouches.numbered hs).increasing⟩⟩

section Sample

open DrawingBugs.Tree

private def numeral (v : String) : Tree := .leaf (.ofText v)

/-- Reads a field of the other bug into a shared variable, and then draws a line. -/
private def tracing : Tree :=
  .labeled "block" [
    .labeled "assign" [.leaf (.ofText "total"),
      .labeled "." [.leaf (.ofText "pilot"), .leaf (.ofText "speed")]],
    .labeled "line" [numeral "1", numeral "2", numeral "3", numeral "4"]]

/-- Two bugs, a shared variable, and one line that has been drawn. -/
private def sketch : Shared :=
  ⟨{ World.empty with
      globals := [("total", 0.0)]
      bugs := [.newborn 0 "tracer", { Bug.newborn 1 "pilot" with vars := [("speed", 5.0)] }]
      registry := [0, 1]
      lines := [⟨⟨0.0, 0.0, 1.0, 1.0⟩, .black, 0⟩] }, .unsupervised⟩

/-- A second line is drawn, and the other bug is as it was. -/
theorem touches_own_sketch :
    ∃ d, Runs 0 Eq [] (.executing .fresh tracing, sketch) d ∧ d.1.Returned [] ∧
      d.2.world.lines.map Line.id = [0, 1] ∧ d.2.world.bugs[1]? = sketch.world.bugs[1]? ∧
      d.2.world.registry = [0, 1] ∧ d.2.world.globals.keys = ["total"] := by
  obtain ⟨d, hrun, hd⟩ := Runs.exists_of_advance (by decide +kernel : (advance 0 [].length 24
    (.executing .fresh tracing, sketch)).any (fun c => c.1.stack.isEmpty && c.1.focus.isResult &&
      c.2.world.lines.length == 2) = true)
  simp only [Bool.and_eq_true, List.isEmpty_iff, beq_iff_eq] at hd
  obtain ⟨⟨hstack, hresult⟩, hdrawn⟩ := hd
  obtain ⟨htouches, hnumbered⟩ := touches_own (fun _ _ hst => by rw [hst]) hrun
  have hlines := (hnumbered rfl).1
  rw [World.Numbered, hdrawn] at hlines
  exact ⟨d, hrun, ⟨hstack, hresult⟩, hlines, htouches.others 1 (by decide), htouches.registry,
    htouches.keys⟩

end Sample

end Machine

end DrawingBugs
