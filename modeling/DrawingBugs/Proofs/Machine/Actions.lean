import DrawingBugs.Proofs.Machine.Independence
import DrawingBugs.Proofs.Machine.Manners

/-!
# Visible actions from their operands on

An action evaluates all of its operands before it touches anything. From there on it changes its bug
in one step, and then it draws, parks and waits, so that it fails in that one step or not at all.
-/

namespace DrawingBugs

/-! ## A failing change -/

private theorem operandAt_eq_error {label : String} {operands : List Float} {i : Nat} {e : Fault}
    (h : operandAt label operands i = .error e) :
    operands.length ≤ i ∧ e = .malformed (.missingChild label i) := by
  unfold operandAt at h
  split at h
  · cases h
  · exact ⟨List.getElem?_eq_none_iff.mp ‹_›, (Except.error.inj h).symm⟩

private theorem operandAt_eq_ok {label : String} {operands : List Float} {i : Nat} {v : Float}
    (h : operandAt label operands i = .ok v) : operands[i]? = some v := by
  unfold operandAt at h
  split at h
  · cases h
    assumption
  · cases h

private theorem error_of_bind {α β : Type} {x : Except Fault α} {f : α → Except Fault β} {e : Fault}
    (h : x >>= f = .error e) : x = .error e ∨ ∃ a, x = .ok a ∧ f a = .error e := by
  cases x with
  | error => exact .inl (congrArg Except.error (Except.error.inj h))
  | ok a => exact .inr ⟨a, rfl, h⟩

/-- An action fails for want of an operand. It leaves its bug as it was, but for the first half of a
move to a place of which only one coordinate is given. -/
private theorem Bug.act_error {b : Bug} {label : String} {operands : List Float} {e : Fault}
    (h : (b.act label operands).2 = .error e) :
    (∃ i, e = .malformed (.missingChild label i)) ∧ ((b.act label operands).1 = b ∨
      label = "moveto" ∧ ∃ v, operands = [v] ∧ (b.act label operands).1 = { b with x := v }) := by
  have hmissing : ∀ {i e}, operandAt label operands i = .error e →
      ∃ i, e = .malformed (.missingChild label i) := fun h => ⟨_, (operandAt_eq_error h).2⟩
  unfold act at h ⊢
  dsimp only at h ⊢
  split at h
  case h_2 =>
    cases hx : operandAt "moveto" operands 0 with
    | error =>
      rw [hx] at h
      cases h
      exact ⟨hmissing hx, .inl rfl⟩
    | ok x =>
      cases hy : operandAt "moveto" operands 1 with
      | ok =>
        rw [hx, hy] at h
        cases h
      | error =>
        rw [hx, hy] at h
        cases h
        refine ⟨hmissing hy, .inr ⟨rfl, x, ?_, rfl⟩⟩
        have hfirst := operandAt_eq_ok hx
        match operands, hfirst, (operandAt_eq_error hy).1 with
        | [_], hfirst, _ => rw [Option.some.inj hfirst]
  case h_5 =>
    refine ⟨?_, .inl rfl⟩
    obtain h | ⟨_, -, h⟩ := error_of_bind h
    · exact hmissing h
    obtain h | ⟨_, -, h⟩ := error_of_bind h
    · exact hmissing h
    obtain h | ⟨_, -, h⟩ := error_of_bind h
    · exact hmissing h
    obtain h | ⟨_, -, h⟩ := error_of_bind h
    · exact hmissing h
    cases h
  all_goals
    cases hx : operandAt _ operands 0 <;> rw [hx] at h <;> cases h
    exact ⟨hmissing hx, .inl rfl⟩

private theorem World.modifyBug_bug (w : World) (seat : Nat) (f : Bug → Bug) :
    w.modifyBug seat (fun _ => f (w.bug seat)) = w.modifyBug seat f := by
  simp only [modifyBug, bug, List.modify_eq_set, List.getD_eq_getElem?_getD]

private theorem World.modifyBug_self (w : World) (seat : Nat) :
    w.modifyBug seat (fun _ => w.bug seat) = w := by
  rw [w.modifyBug_bug seat fun b => b, modifyBug]
  exact congrArg (fun bugs => { w with bugs }) (List.modify_id seat w.bugs)

/-! ## Operands -/

/-- A run above one more frame is a run. -/
private theorem Manner.any_runs_outer {seat : Nat} {env : Shared → Shared → Prop}
    {base : List Frame} {frame : Frame} {last : Aim} {c d : Machine × Shared}
    (hrun : Machine.Runs seat env (frame :: base) c d) (hworks : any.Works (frame :: base) last c.1) :
    Machine.Runs seat env base c d := by
  induction hrun with
  | refl => exact .refl _
  | @step m s t c hbusy henv _ ih =>
    refine .step (fun hreturned => ?_) henv (ih (any_turn hworks hbusy seat t).2)
    obtain ⟨a, hexpects, -⟩ := hworks.stack
    have hlength := hexpects.suffix.length_le
    rw [hreturned.1, List.length_cons] at hlength
    omega

namespace Machine

/-- The operands of an action above the base have just come to an end: all of them have values, or a
fault came of one. -/
inductive OperandsEnded (node : Tree) (base : List Frame) (m : Machine) : Prop
  | values {operands : List Float} (hfocus : m.focus = .act node operands) (hstack : m.stack = base)
      (hcount : operands.length = node.children.length)
  | fault {e : Fault} {done : List Float} {rest : List Tree} (hfocus : m.focus = .fault e)
      (hstack : m.stack = .operand node done rest :: base)

variable {seat : Nat} {env : Shared → Shared → Prop} {base : List Frame} {node : Tree}

private theorem Runs.operands {m : Machine} {done : List Float} {rest : List Tree} {s : Shared}
    {d : Machine × Shared} (hstack : m.stack = base)
    (hcount : done.length + rest.length = node.children.length)
    (hrun : Runs seat env base (m.nextOperand node done rest, s) d) (hd : d.1.stack = base) :
    ∃ m' s', Runs seat env base (m.nextOperand node done rest, s) (m', s') ∧
      OperandsEnded node base m' ∧ Runs seat env base (m', s') d := by
  induction rest generalizing m done s with
  | nil => exact ⟨_, s, .refl _, .values rfl hstack (by simpa using hcount), hrun⟩
  | cons operand rest ih =>
    have hworks : Manner.any.Works (.operand node done rest :: base) .value
        (m.nextOperand node done (operand :: rest)) := by
      rw [← hstack]
      exact Manner.Works.start (m := m.push (.operand node done rest) (.evaluate operand)) trivial rfl
    rcases Manner.any_runs_inner hrun hworks with hinside | ⟨m₁, s₁, t₁, hto, hleft, henv, hfrom⟩
    · -- As long as the operand is being evaluated its frame stands above the base.
      obtain ⟨a, hexpects, -⟩ := (Manner.any_runs hinside hworks).stack
      have hlength := hexpects.suffix.length_le
      rw [hd, List.length_cons] at hlength
      omega
    · have houter := Manner.any_runs_outer hto hworks
      have hbusy : ¬ m₁.Returned base := by
        rintro ⟨hbase, -⟩
        have hlength := congrArg List.length (hbase.symm.trans hleft.1)
        rw [List.length_cons] at hlength
        omega
      have hworks' : Manner.any.Works _ _ m₁ := Manner.any_runs hto hworks
      rcases value_or_fault hworks' hleft with ⟨v, hfocus⟩ | ⟨e, hfocus⟩
      · have hstep : m₁.step seat t₁ =
            (nextOperand { m₁ with stack := base } node (done ++ [v]) rest, t₁) := by
          simp only [Machine.step, hfocus, resume, hleft.1, resumeValue]
        rw [hstep] at hfrom
        have hcount' : (done ++ [v]).length + rest.length = node.children.length := by
          rw [← hcount, List.length_append, List.length_singleton, List.length_cons]
          omega
        obtain ⟨m', s', hto', hended, hfrom'⟩ := ih rfl hcount' hfrom
        refine ⟨m', s', houter.trans (.step hbusy henv ?_), hended, hfrom'⟩
        rw [hstep]
        exact hto'
      · exact ⟨m₁, s₁, houter, .fault hfocus hleft.1, .step hbusy henv hfrom⟩

private theorem perform_of_isAction {m : Machine} {w : World} (h : isAction node.text) :
    m.perform w node = m.nextOperand node [] node.children := by
  have hword : node.text ∈ ["move", "moveto", "turn", "turnto", "line"] := by
    simpa [isAction] using h
  simp only [List.mem_cons, List.not_mem_nil, or_false] at hword
  unfold perform
  rcases hword with hword | hword | hword | hword | hword <;> rw [hword] <;> rfl

private theorem Runs.action {m : Machine} {s : Shared} {d : Machine × Shared}
    (haction : isAction node.text) (hfocus : m.focus = .execute node)
    (hrun : Runs seat env m.stack (m, s) d)
    (hd : d.1.Returned m.stack) : d.1.focus = .fault .halted ∨
      ∃ m' s', Runs seat env m.stack (m, s) (m', s') ∧ OperandsEnded node m.stack m' ∧
        Runs seat env m.stack (m', s') d := by
  cases hrun with
  | refl => exact absurd hd.2 (by simp [hfocus, Focus.isResult])
  | @step _ _ t _ hbusy henv hrest =>
    by_cases hkilled : t.barrier.killed
    · have hstep : m.step seat t = (m.fail .halted, t) := by
        simp [Machine.step, hfocus, hkilled]
      rw [hstep] at hrest
      left
      rw [hrest.eq_of_returned ⟨rfl, rfl⟩]
      rfl
    · have hstep : m.step seat t = (m.focusOn (.perform node), t) := by
        simp [Machine.step, hfocus, hkilled]
      rw [hstep] at hrest
      cases hrest with
      | refl => exact absurd hd.2 (by simp [focusOn, Focus.isResult])
      | @step _ _ t' _ hbusy' henv' hrest =>
        have hstep' : (m.focusOn (.perform node)).step seat t' =
            ((m.focusOn (.perform node)).nextOperand node [] node.children, t') := by
          simp only [Machine.step, focusOn]
          rw [perform_of_isAction haction]
        rw [hstep'] at hrest
        obtain ⟨m', s', hto, hended, hfrom⟩ :=
          Runs.operands (m := m.focusOn (.perform node)) rfl (by simp) hrest hd.1
        refine .inr ⟨m', s', .step hbusy henv ?_, hended, hfrom⟩
        rw [hstep]
        refine .step hbusy' henv' ?_
        rw [hstep']
        exact hto

/-- What an action that has changed its bug still does. -/
def Finishing (base : List Frame) (m : Machine) : Prop :=
  m.stack = base ∧ ((∃ segment color, m.focus = .draw segment color) ∨ m.focus = .park ∨
    m.focus = .await ∨ m.focus = .flow .normal ∨ m.focus = .fault .halted)

theorem Finishing.step {m : Machine} (h : m.Finishing base) (hbusy : ¬ m.Returned base) (seat : Nat)
    (s : Shared) : (m.step seat s).1.Finishing base := by
  obtain ⟨hstack, ⟨segment, color, hfocus⟩ | hfocus | hfocus | hfocus | hfocus⟩ := h
  · simp only [Machine.step, hfocus]
    exact ⟨hstack, .inr (.inl rfl)⟩
  · simp only [Machine.step, hfocus]
    exact ⟨hstack, .inr (.inr (.inl rfl))⟩
  · simp only [Machine.step, hfocus]
    cases hpermit : s.barrier.permit seat
    · exact ⟨hstack, .inr (.inr (.inr (.inl rfl)))⟩
    · exact ⟨hstack, .inr (.inr (.inr (.inr rfl)))⟩
    · exact ⟨hstack, .inr (.inr (.inl hfocus))⟩
  · exact absurd ⟨hstack, by rw [hfocus]; rfl⟩ hbusy
  · exact absurd ⟨hstack, by rw [hfocus]; rfl⟩ hbusy

private theorem Runs.finishing {c d : Machine × Shared} (hrun : Runs seat env base c d)
    (h : c.1.Finishing base) : d.1.Finishing base :=
  hrun.invariant (P := fun c => c.1.Finishing base) (fun _ _ t hm hbusy _ => hm.step hbusy seat t) h

/-- An action changes its bug and goes on, or it fails; then it leaves all as it was, but for the
first half of a move to a place of which only one coordinate is given. -/
private theorem act_cases (m : Machine) (w : World) (seat : Nat) (label : String)
    (operands : List Float) : (m.act w seat label operands).1.Finishing m.stack ∨
      ∃ e, (m.act w seat label operands).1 = m.fail e ∧ e ≠ .halted ∧
        ((m.act w seat label operands).2 = w ∨ label = "moveto" ∧ ∃ v, operands = [v] ∧
          (m.act w seat label operands).2 = w.modifyBug seat fun b => { b with x := v }) := by
  rcases hact : (w.bug seat).act label operands with ⟨after, result⟩
  cases result with
  | ok segment? =>
    left
    simp only [act, hact]
    cases segment? with
    | none => exact ⟨rfl, .inr (.inl rfl)⟩
    | some segment =>
      cases after.color with
      | none => exact ⟨rfl, .inr (.inl rfl)⟩
      | some color => exact ⟨rfl, .inl ⟨segment, color, rfl⟩⟩
  | error e =>
    right
    obtain ⟨⟨i, rfl⟩, hafter⟩ := Bug.act_error (b := w.bug seat) (congrArg Prod.snd hact)
    simp only [act, hact] at hafter ⊢
    refine ⟨_, rfl, by simp, ?_⟩
    rcases hafter with rfl | ⟨hword, v, hoperands, rfl⟩
    · exact .inl (w.modifyBug_self seat)
    · exact .inr ⟨hword, v, hoperands, w.modifyBug_bug seat fun b => { b with x := v }⟩

/-- **Failing actions.** An action that fails, but not for a kill, fails in the very step after its
operands have ended, and in that step it neither parks nor changes anything; only a move to a place
of which one coordinate alone is given has already taken that one. -/
theorem failing_action_touches_nothing {m : Machine} {s : Shared} {d : Machine × Shared} {e : Fault}
    (haction : isAction node.text) (hfocus : m.focus = .execute node)
    (hrun : Runs seat env m.stack (m, s) d) (hstack : d.1.stack = m.stack)
    (hfault : d.1.focus = .fault e) (hhalted : e ≠ .halted) :
    ∃ m' s' t, Runs seat env m.stack (m, s) (m', s') ∧ OperandsEnded node m.stack m' ∧ env s' t ∧
      d = m'.step seat t ∧ d.2.barrier = t.barrier ∧
      (d.2.world = t.world ∨ node.text = "moveto" ∧ node.children.length = 1 ∧
        ∃ v, m'.focus = .act node [v] ∧
          d.2.world = t.world.modifyBug seat fun b => { b with x := v }) := by
  have hreturned : d.1.Returned m.stack := ⟨hstack, by rw [hfault]; rfl⟩
  have hother : d.1.focus ≠ .fault .halted := by
    rw [hfault]
    exact fun h => hhalted (Focus.fault.inj h)
  obtain ⟨m', s', hto, hended, hfrom⟩ := (hrun.action haction hfocus hreturned).resolve_left hother
  have hended' := hended
  cases hfrom with
  | refl =>
    cases hended with
    | values hact => rw [hact] at hfault; cases hfault
    | fault _ hframe =>
      have hlength := congrArg List.length (hframe.symm.trans hstack)
      simp at hlength
  | @step _ _ t _ _ henv hrest =>
    cases hended with
    | @fault e' done rest hfocus' hframe =>
      have hstep : m'.step seat t = ({ m' with stack := m.stack }, t) := by
        simp [Machine.step, hfocus', resume, hframe, unwind]
      have hd : d = m'.step seat t :=
        hrest.eq_of_returned (by rw [hstep]; exact ⟨rfl, by rw [hfocus']; rfl⟩)
      exact ⟨m', s', t, hto, hended', henv, hd, by rw [hd, hstep], .inl (by rw [hd, hstep])⟩
    | @values operands hact hbase hcount =>
      have hstep : m'.step seat t = ((m'.act t.world seat node.text operands).1,
          { t with world := (m'.act t.world seat node.text operands).2 }) := by
        simp only [Machine.step, hact]
      rw [hstep] at hrest
      rcases m'.act_cases t.world seat node.text operands with
        hfinishing | ⟨e', hfail, -, hworld⟩
      · rw [hbase] at hfinishing
        obtain ⟨-, ⟨_, _, h⟩ | h | h | h | h⟩ := hrest.finishing hfinishing
        case inr.inr.inr.inr => exact absurd h hother
        all_goals
          rw [hfault] at h
          cases h
      · have hd := hrest.eq_of_returned (by rw [hfail]; exact ⟨hbase, rfl⟩)
        refine ⟨m', s', t, hto, hended', henv, hd.trans hstep.symm, by rw [hd], ?_⟩
        rw [hd]
        rcases hworld with hworld | ⟨hword, v, rfl, hworld⟩
        · exact .inl hworld
        · exact .inr ⟨hword, by simpa using hcount.symm, v, hact, hworld⟩

section Sample

open DrawingBugs.Tree

private def coordinate (v : String) : Tree := .leaf (.ofText v)

/-- A line with two of four coordinates; the second one comes of a function that draws. -/
private def unfinished : Tree := .labeled "line" [coordinate "1", callOf "stroke" []]

private def withStroke : Memory :=
  { Memory.fresh with
    functions := [("stroke", functionOf "stroke" []
      [.labeled "line" [coordinate "1", coordinate "2", coordinate "3", coordinate "4"],
        .labeled "return" [coordinate "2"]])] }

/-- A place with one of two coordinates. -/
private def halfway : Tree := .labeled "moveto" [coordinate "5"]

private def hermit : Shared :=
  ⟨{ World.empty with bugs := [.newborn 0 "hermit"], registry := [0] }, .unsupervised⟩

/-- The line that the function has drawn stays, and no other comes to it. -/
theorem failing_action_touches_nothing_unfinished :
    ∃ d, Runs 0 Eq [] (.executing withStroke unfinished, hermit) d ∧
      d.1.focus = .fault (.malformed (.missingChild "line" 2)) ∧ d.2.world.lines.length = 1 ∧
      ∃ m' s', Runs 0 Eq [] (.executing withStroke unfinished, hermit) (m', s') ∧
        OperandsEnded unfinished [] m' ∧ d.2.world = s'.world := by
  obtain ⟨d, hadvance, hfault, hstack, hlines⟩ :
      ∃ d, advance 0 0 30 (.executing withStroke unfinished, hermit) = some d ∧
        d.1.focus = .fault (.malformed (.missingChild "line" 2)) ∧ d.1.stack = [] ∧
        d.2.world.lines.length = 1 := ⟨_, rfl, rfl, rfl, rfl⟩
  have hrun : Runs 0 Eq [] (.executing withStroke unfinished, hermit) d :=
    .of_advance (fun _ => rfl) hadvance
  obtain ⟨m', s', t, hto, hended, rfl, -, -, hworld⟩ := failing_action_touches_nothing
    (m := .executing withStroke unfinished) (by decide) rfl hrun hstack hfault (by decide)
  refine ⟨d, hrun, hfault, hlines, m', s', hto, hended, hworld.resolve_right ?_⟩
  rintro ⟨hword, -⟩
  exact absurd hword (by decide)

/-- A move to a place of which one coordinate is given fails, and the bug has moved. -/
theorem halfway_moves : ∃ m' s' d, Runs 0 Eq [] (.executing .fresh halfway, hermit) (m', s') ∧
    OperandsEnded halfway [] m' ∧ Runs 0 Eq [] (m', s') d ∧
    d.1.focus = .fault (.malformed (.missingChild "moveto" 1)) ∧
    (s'.world.bug 0).x = 0.0 ∧ (d.2.world.bug 0).x = 5.0 := by
  have hto : advance 0 0 4 (.executing .fresh halfway, hermit) =
      some (⟨.act halfway [5.0], [], .fresh⟩, hermit) := by rfl
  have hfrom : advance 0 0 1 (⟨.act halfway [5.0], [], .fresh⟩, hermit) =
      some (Machine.step 0 ⟨.act halfway [5.0], [], .fresh⟩ hermit) := rfl
  exact ⟨_, _, _, .of_advance (fun _ => rfl) hto, .values rfl rfl rfl,
    .of_advance (fun _ => rfl) hfrom, rfl, rfl, rfl⟩

end Sample

end Machine

end DrawingBugs
