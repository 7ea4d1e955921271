import DrawingBugs.Proofs.Machine.Actions
import DrawingBugs.Proofs.Number.Headings

/-!
# Headings after a turn

A bug that turns, by some degrees or to a heading, has its new heading brought back into one turn,
and what is left of the action does not touch it. So the heading stays where the rounded sum is.
-/

namespace DrawingBugs

/-- The heading that a turn leads to, before it is brought back into one turn. -/
def Bug.aimedAt (b : Bug) (label : String) (degrees : Float) : Float :=
  if label = "turn" then b.angle + degrees else degrees

private theorem Bug.act_turn {b : Bug} {label : String} {operands : List Float} {degrees : Float}
    (hword : label = "turn" ∨ label = "turnto") (hoperand : operands[0]? = some degrees) :
    b.act label operands =
      ({ b with angle := Number.wrapHeading (b.aimedAt label degrees) }, .ok none) := by
  rcases hword with rfl | rfl <;> simp [act, operandAt, hoperand, aimedAt]

namespace Machine

open Number

variable {seat : Nat} {env : Shared → Shared → Prop} {base : List Frame} {node : Tree}

private theorem Finishing.bugs_step {m : Machine} (h : m.Finishing base) (seat : Nat) (s : Shared) :
    (m.step seat s).2.world.bugs = s.world.bugs := by
  obtain ⟨-, ⟨segment, color, hfocus⟩ | hfocus | hfocus | hfocus | hfocus⟩ := h <;>
    simp only [Machine.step, hfocus, World.draw]

private theorem Runs.angle
    (henv : ∀ s t, env s t → (t.world.bug seat).angle = (s.world.bug seat).angle)
    {c d : Machine × Shared} (hrun : Runs seat env base c d) (h : c.1.Finishing base) :
    (d.2.world.bug seat).angle = (c.2.world.bug seat).angle := by
  have hall := hrun.invariant (P := fun e => e.1.Finishing base ∧
    (e.2.world.bug seat).angle = (c.2.world.bug seat).angle) ?_ ⟨h, rfl⟩
  · exact hall.2
  · rintro m s t ⟨hm, hangle⟩ hbusy hst
    refine ⟨hm.step hbusy seat t, ?_⟩
    rw [← hangle, ← henv s t hst, World.bug, hm.bugs_step seat t, World.bug]

/-- **Headings.** A bug that turns, by some degrees or to a heading, is left with a heading within one
turn, be it only the whole turn, if the heading that it aimed at is finite. It is less than the whole
turn unless the remainder was negative and so small that a turn added to it was rounded to the whole
turn. -/
theorem heading_within_turn
    (henv : ∀ s t, env s t → (t.world.bug seat).angle = (s.world.bug seat).angle)
    {m : Machine} {s : Shared} {d : Machine × Shared} {operands : List Float} {degrees v : Float}
    (hseat : seat < s.world.bugs.length) (hfocus : m.focus = .act node operands)
    (hword : node.text = "turn" ∨ node.text = "turnto") (hoperand : operands[0]? = some degrees)
    (haim : (s.world.bug seat).aimedAt node.text degrees = v) (hfinite : isFinite v = true)
    (hrun : Runs seat env m.stack (m.step seat s) d) :
    0.0 ≤ (d.2.world.bug seat).angle ∧ (d.2.world.bug seat).angle ≤ 360.0 ∧
      ((d.2.world.bug seat).angle < 360.0 ↔
        ¬ (leastLost ≤ turnRemainder v ∧ turnRemainder v < 0.0)) := by
  have hstep : m.step seat s = (m.focusOn .park, { s with
      world := s.world.modifyBug seat fun _ =>
        { s.world.bug seat with angle := wrapHeading v } }) := by
    simp only [Machine.step, hfocus, act, Bug.act_turn hword hoperand, haim]
  rw [hstep] at hrun
  have hangle := hrun.angle henv ⟨rfl, .inr (.inl rfl)⟩
  rw [World.bug_modifyBug hseat] at hangle
  rw [hangle]
  exact wrapHeading_bounds hfinite

section Sample

/-- A bug that looks to the north-east. -/
private def turning : Shared :=
  ⟨{ World.empty with bugs := [{ Bug.newborn 0 "top" with angle := 45.0 }], registry := [0] },
    .unsupervised⟩

private def turner (label : String) (degrees : Float) : Machine :=
  ⟨.act (.labeled label [.leaf (.ofText "0")]) [degrees], [], .fresh⟩

/-- A quarter back from there is 315 degrees. -/
theorem heading_within_turn_back :
    ∃ d, Runs 0 Eq [] ((turner "turn" (-90.0)).step 0 turning) d ∧ d.1.focus = .flow .normal ∧
      (d.2.world.bug 0).angle = 315.0 ∧ 0.0 ≤ (d.2.world.bug 0).angle ∧
      (d.2.world.bug 0).angle < 360.0 := by
  have haim : (turning.world.bug 0).aimedAt "turn" (-90.0) = -45.0 := by decide +kernel
  have hrun : Runs 0 Eq [] ((turner "turn" (-90.0)).step 0 turning)
      ((((turner "turn" (-90.0)).step 0 turning).1.focusOn (.flow .normal)),
        ((turner "turn" (-90.0)).step 0 turning).2) :=
    .of_advance (n := 2) (fun _ => rfl) rfl
  obtain ⟨hnonneg, -, hless⟩ := heading_within_turn (m := turner "turn" (-90.0)) (s := turning)
    (fun _ _ h => by rw [h]) (by decide) rfl (.inl rfl) rfl haim (by decide +kernel) hrun
  exact ⟨_, hrun, rfl, by decide +kernel, hnonneg, hless.mpr (by decide +kernel)⟩

/-- A bug that turns to a heading just short of zero looks in the direction 360. -/
theorem turnto_whole_turn : isFinite (-0.00000000000000001) = true ∧
    (((turner "turnto" (-0.00000000000000001)).step 0 turning).2.world.bug 0).angle = 360.0 ∧
    ¬ (((turner "turnto" (-0.00000000000000001)).step 0 turning).2.world.bug 0).angle < 360.0 := by
  decide +kernel

end Sample

end Machine

end DrawingBugs
