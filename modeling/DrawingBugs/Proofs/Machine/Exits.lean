import DrawingBugs.Proofs.Machine.Manners

/-!
# Pending exits

An exit that ends a function is left pending for the caller. While an expression is evaluated, every
block that a called function runs takes the pending exit and ends by it, and the function leaves it
pending once more: so it is still pending when the expression has a value, and then it ends the loop
that the expression is evaluated in. Only a loop that begins meanwhile takes the exit for its own.
-/

namespace DrawingBugs

/-- All blocks, commands and expressions, with functions made of blocks. -/
abbrev Manner.blocks : Manner := .written (fun _ => True) Tree.IsBlock

private theorem Manner.blocks_settled : Manner.blocks.Settled :=
  written_settled (fun _ _ _ _ => trivial) fun _ ht => ⟨ht, trivial⟩

private theorem Manner.blocks_finds {own shared : Table String Tree} (h : FindsWritten own shared) :
    Manner.blocks.Finds own shared := by
  intro t name f _ _ _ hf
  obtain ⟨hbody⟩ := h _ f hf
  exact ⟨trivial, hbody⟩

private theorem Manner.GoesOn.exitPending {M : Manner} {a : Aim} {m m' : Machine}
    (h : M.GoesOn a m m') : m'.memory.exitPending = m.memory.exitPending := by
  induction h with
  | call _ ih => exact ih
  | turn | push | enter | enterLoop | define => rfl

namespace Machine

/-- An exit is pending, or it is on its way to the innermost loop. -/
def CarriesExit (m : Machine) : Prop := m.memory.exitPending = true ∨ m.focus = .flow .loopExit

/-- On the way from one machine to the other a loop stands above the base. -/
def LoopsBetween (seat : Nat) (env : Shared → Shared → Prop) (base : List Frame)
    (c d : Machine × Shared) : Prop :=
  ∃ b, Runs seat env base c b ∧ Runs seat env base b d ∧ loops base < loops b.1.stack

variable {M : Manner} {base : List Frame} {last : Aim} {m m' : Machine}

/-- A turn that takes no loop off carries the exit on. -/
private theorem CarriesExit.turn (houtlying : ¬ M.outlying) (h : M.Turn m m') (hm : m.CarriesExit)
    (hloop : ∀ body stack, m.focus.isResult → m.stack ≠ .loop body :: stack) : m'.CarriesExit := by
  have hpending {focus : Focus} (hfocus : m.focus = focus) (hother : focus ≠ .flow .loopExit) :
      m.memory.exitPending = true := hm.resolve_right (hfocus ▸ hother)
  cases h with
  | go _ hresult h =>
    refine .inl (h.exitPending.trans (hpending rfl ?_))
    intro hfocus
    rw [hfocus] at hresult
    cases hresult
  | assign hfocus => exact .inl (hpending hfocus (by simp))
  | answer hfocus _ _ h => exact .inl ((h.exitPending :).trans (hpending hfocus (by simp)))
  | «return» hfocus => exact .inl (hpending hfocus (by simp))
  | ignore _ hnone => exact absurd hnone houtlying
  | next hfocus hnone =>
    rw [hpending hfocus (by simp)] at hnone
    cases hnone
  | exit => exact .inr rfl
  | skip hfocus _ hnone => exact .inr (hm.resolve_left (by simp [hnone]))
  | @leave f stack hfocus =>
    refine .inl ?_
    rcases hm with hm | hm
    · simp [afterBody, leaveScope, hm]
    · rw [hfocus] at hm
      cases hm
      simp [afterBody]
  | iterate hfocus hstack => exact absurd hstack (hloop _ _ (by rw [hfocus]; rfl))
  | endLoop hfocus _ hstack => exact absurd hstack (hloop _ _ (by rw [hfocus]; rfl))
  | @unwind e frame stack hfocus =>
    refine .inl ?_
    cases frame <;> exact hpending hfocus (by simp)

private theorem not_loop_of_loops_le (hworks : M.Works base last m) (hbusy : ¬ m.Returned base)
    (hloops : loops m.stack ≤ loops base) (body : Tree) (stack : List Frame)
    (hresult : m.focus.isResult) : m.stack ≠ .loop body :: stack := by
  intro hstack
  have hsuffix := (hworks.inner (fun hbase => hbusy ⟨hbase, hresult⟩) hstack).2.2.suffix
  have hle := loops_le_of_suffix hsuffix
  rw [hstack, loops_cons] at hloops
  simp only [Frame.isLoop, if_true] at hloops
  omega

variable {seat : Nat} {env : Shared → Shared → Prop} {c d : Machine × Shared}

private theorem Runs.carriesExit (henv : ∀ s t, env s t → t.world.functions = s.world.functions)
    (h : Runs seat env base c d) (hworks : Manner.blocks.Works base last c.1)
    (hfinds : FindsWritten c.1.memory.functions c.2.world.functions) (hc : c.1.CarriesExit) :
    d.1.CarriesExit ∨ LoopsBetween seat env base c d := by
  have hrun := h.settled Manner.blocks_settled henv (P := fun d => Runs seat env base c d ∧
    (d.1.CarriesExit ∨ LoopsBetween seat env base c d)) ?_ hworks (Manner.blocks_finds hfinds)
    ⟨.refl c, .inl hc⟩
  · exact hrun.2.2.2
  · rintro m s t hworks hbusy hst ⟨hto, hm⟩ hturn
    have hstep : Runs seat env base (m, s) (m.step seat t) := .step hbusy hst (.refl _)
    refine ⟨hto.trans hstep, ?_⟩
    rcases hm with hcarries | ⟨b, hbefore, hafter, hloops⟩
    · by_cases hloops : loops base < loops m.stack
      · exact .inr ⟨(m, s), hto, hstep, hloops⟩
      · exact .inl (hcarries.turn id hturn
          (not_loop_of_loops_le hworks hbusy (Nat.le_of_not_lt hloops)))
    · exact .inr ⟨b, hbefore, hafter.trans hstep, hloops⟩

/-- The next step ends the innermost block by an exit, and the one after it the loop around. -/
def EndsLoop (seat : Nat) (body : Tree) (outer : List Frame) (m : Machine) : Prop :=
  ∀ s t, (m.step seat s).1.focus = .flow .loopExit ∧ (m.step seat s).1.stack = .loop body :: outer ∧
    ((m.step seat s).1.step seat t).1.focus = .flow .normal ∧
    ((m.step seat s).1.step seat t).1.stack = outer

private theorem CarriesExit.endsLoop (h : m.CarriesExit) {f : Flow} (hfocus : m.focus = .flow f)
    {body : Tree} {rest : List Tree} {outer : List Frame}
    (hstack : m.stack = .block rest :: .loop body :: outer) : m.EndsLoop seat body outer := by
  have hexit (s : Shared) : (m.step seat s).1 =
      ⟨.flow .loopExit, .loop body :: outer, { m.memory with exitPending := false }⟩ := by
    have hflow : (if m.memory.exitPending then .loopExit else f) = Flow.loopExit := by
      rcases h with hpending | hcarried
      · rw [if_pos hpending]
      · rw [hfocus] at hcarried
        cases hcarried
        exact ite_self _
    simp only [step, hfocus, resume, hstack, resumeFlow, afterInBlock, hflow, focusOn]
  intro s t
  rw [hexit s]
  exact ⟨rfl, rfl, rfl, rfl⟩

/-- **Pending exits.** An exit that is pending when the evaluation of an expression begins is pending
when it has a value, unless it begins a loop. When the statement of a loop's block that the expression
is evaluated in is done, that exit ends the loop, unless the statement begins a loop or fails. -/
theorem pending_exit_kept {e : Tree} {m : Machine} {s : Shared}
    (henv : ∀ s t, env s t → t.world.functions = s.world.functions)
    (hfunctions : FindsWritten m.memory.functions s.world.functions) (he : e.IsExpression)
    (hfocus : m.focus = .evaluate e) (hpending : m.memory.exitPending = true) :
    (∀ c v, Runs seat env m.stack (m, s) c → c.1.stack = m.stack → c.1.focus = .value v →
      c.1.memory.exitPending = true ∨ LoopsBetween seat env m.stack (m, s) c) ∧
    ∀ t rest body outer m₀ s₀ c, t.IsCommand → m₀.focus = .execute t →
      m₀.stack = .block rest :: .loop body :: outer →
      FindsWritten m₀.memory.functions s₀.world.functions →
      Runs seat env m₀.stack (m₀, s₀) (m, s) → Runs seat env m₀.stack (m, s) c →
      c.1.Returned m₀.stack →
        c.1.EndsLoop seat body outer ∨ (∃ fault, c.1.focus = .fault fault) ∨
          LoopsBetween seat env m₀.stack (m, s) c := by
  refine ⟨fun c v hrun hstack hvalue => ?_, ?_⟩
  · have hworks : Manner.blocks.Works m.stack .value m :=
      .start (by rw [hfocus]; exact ⟨he, trivial⟩) (by rw [hfocus]; rfl)
    refine (hrun.carriesExit henv hworks hfunctions (.inl hpending)).imp_left fun hcarries => ?_
    exact hcarries.resolve_right (by rw [hvalue]; nofun)
  · intro t rest body outer m₀ s₀ c ht hfocus₀ hstack₀ hfunctions₀ hrun₀ hrun hreturned
    have hworks₀ : Manner.blocks.Works m₀.stack .flow m₀ :=
      .start (by rw [hfocus₀]; exact ⟨.inl ht, trivial⟩) (by rw [hfocus₀]; rfl)
    have hworks {c d : Machine × Shared} (hrun : Runs seat env m₀.stack c d)
        (hworks : Manner.blocks.Works m₀.stack .flow c.1)
        (hfunctions : FindsWritten c.1.memory.functions c.2.world.functions) :
        Manner.blocks.Works m₀.stack .flow d.1 :=
      (hrun.settled Manner.blocks_settled henv (P := fun _ => True) (fun _ _ _ _ _ _ _ _ => trivial)
        hworks (Manner.blocks_finds hfunctions) trivial).1
    have hworking := hworks hrun₀ hworks₀ hfunctions₀
    rcases hrun.carriesExit henv hworking hfunctions (.inl hpending) with hcarries | hbetween
    · rcases flow_or_fault (hworks hrun hworking hfunctions) hreturned with ⟨f, hf⟩ | hfault
      · exact .inl (hcarries.endsLoop hf (hreturned.1.trans hstack₀))
      · exact .inr (.inl hfault)
    · exact .inr (.inr hbetween)

section Sample

open DrawingBugs.Tree

/-- The first function ends a loop of its caller, the second one does nothing, and the third one has
a loop of its own. -/
private def stopPassSpin : Table String Tree :=
  [("stop", stopper), ("pass", functionOf "pass" [] [.labeled "switch" []]),
    ("spin", functionOf "spin" [] [.labeled "loop" [.labeled "block" [exitNow]]])]

private def stopAnd (name : String) : Tree :=
  .labeled "return" [.labeled "+" [callOf "stop" [], callOf name []]]

private def loopOf (name : String) : List Frame :=
  [.block [], .loop (.labeled "block" [stopAnd name])]

private def beginning : Machine :=
  ⟨.execute (stopAnd "pass"), loopOf "pass", ⟨stopPassSpin, [], 0.0, 1, false⟩⟩

/-- The first call has left an exit pending, and the second one is to be evaluated. -/
private def midway (name : String) : Machine :=
  ⟨.evaluate (callOf name []), .rightOperand "+" 0.0 :: .returning :: loopOf name,
    ⟨stopPassSpin, [], 0.0, 1, true⟩⟩

private theorem isCommand_stopAnd (name : String) : (stopAnd name).IsCommand :=
  .leave rfl (.binary rfl (by decide) (isExpression_callOf nofun) (isExpression_callOf nofun))

private theorem findsWritten_stopPassSpin :
    FindsWritten stopPassSpin Shared.alone.world.functions := by
  refine findsWritten_of_mem ?_ nofun
  simp only [stopPassSpin, List.forall_mem_cons]
  exact ⟨isFunction_stopper, isFunction_functionOf (by simpa using .switch rfl nofun),
    isFunction_functionOf (by simpa using .loop rfl (by simpa using isCommand_exitNow)), nofun⟩

private theorem midway_works (name : String) :
    Manner.any.Works (midway name).stack .value (midway name) := .start (m := midway name) trivial rfl

private theorem beginning_works : Manner.any.Works (loopOf "pass") .flow beginning :=
  .start (m := beginning) trivial rfl

/-- The second call leaves the exit pending, and the loop ends. -/
theorem pending_exit_kept_pass :
    (∃ c v, Runs 0 Eq (midway "pass").stack (midway "pass", Shared.alone) c ∧ c.1.focus = .value v ∧
      (c.1.memory.exitPending = true ∨
        LoopsBetween 0 Eq (midway "pass").stack (midway "pass", Shared.alone) c)) ∧
    ∃ c, Runs 0 Eq beginning.stack (beginning, Shared.alone) (midway "pass", Shared.alone) ∧
      Runs 0 Eq beginning.stack (midway "pass", Shared.alone) c ∧ c.1.Returned beginning.stack ∧
      (c.1.EndsLoop 0 (.labeled "block" [stopAnd "pass"]) [] ∨ (∃ fault, c.1.focus = .fault fault) ∨
        LoopsBetween 0 Eq beginning.stack (midway "pass", Shared.alone) c) := by
  have hkept := @pending_exit_kept 0 Eq (callOf "pass" []) (midway "pass") Shared.alone
    (fun s t hst => by rw [hst]) findsWritten_stopPassSpin (isExpression_callOf nofun) rfl rfl
  obtain ⟨c, hrun, hc⟩ := Runs.exists_of_advance (by decide +kernel : (advance 0
    (midway "pass").stack.length 7 (midway "pass", Shared.alone)).any (fun c =>
      decide (c.1.stack.length = 4) && c.1.value?.isSome) = true)
  have hbeginning : Runs 0 Eq beginning.stack (beginning, Shared.alone) (midway "pass", Shared.alone) :=
    .of_advance (fun _ => rfl) (n := 13) rfl
  obtain ⟨d, hrun', hd⟩ := Runs.exists_of_advance (by decide +kernel : (advance 0
    beginning.stack.length 9 (midway "pass", Shared.alone)).any (fun c =>
      decide (c.1.stack.length = 2) && c.1.focus.isResult) = true)
  simp only [Bool.and_eq_true, decide_eq_true_eq] at hc hd
  obtain ⟨v, hvalue⟩ := Option.isSome_iff_exists.mp hc.2
  have hv := focus_of_value? hvalue
  have hstack := (Manner.any_runs hrun (midway_works "pass")).stack_eq hc.1
  have hreturned : d.1.Returned beginning.stack :=
    ⟨(Manner.any_runs (hbeginning.trans hrun') beginning_works).stack_eq hd.1, hd.2⟩
  refine ⟨⟨c, v, hrun, hv, hkept.1 c v hrun hstack hv⟩, d, hbeginning, hrun', hreturned, ?_⟩
  exact hkept.2 _ _ _ _ beginning Shared.alone d (isCommand_stopAnd "pass") rfl rfl
    findsWritten_stopPassSpin hbeginning hrun' hreturned

/-- The loop of the second call takes the exit for its own. -/
theorem pending_exit_lost_spin : (callOf "spin" []).IsExpression ∧
    FindsWritten stopPassSpin Shared.alone.world.functions ∧
    (midway "spin").focus = .evaluate (callOf "spin" []) ∧
    0 < (midway "spin").memory.loopDepth ∧ (midway "spin").memory.exitPending = true ∧
    ∃ c v, Runs 0 Eq (midway "spin").stack (midway "spin", Shared.alone) c ∧
      c.1.stack = (midway "spin").stack ∧ c.1.focus = .value v ∧ c.1.memory.exitPending = false := by
  obtain ⟨c, hrun, hc⟩ := Runs.exists_of_advance (by decide +kernel : (advance 0
    (midway "spin").stack.length 15 (midway "spin", Shared.alone)).any (fun c =>
      decide (c.1.stack.length = 4) && c.1.value?.isSome && !c.1.memory.exitPending) = true)
  simp only [Bool.and_eq_true, decide_eq_true_eq, Bool.not_eq_true'] at hc
  obtain ⟨v, hvalue⟩ := Option.isSome_iff_exists.mp hc.1.2
  have hv := focus_of_value? hvalue
  have hstack := (Manner.any_runs hrun (midway_works "spin")).stack_eq hc.1.1
  exact ⟨isExpression_callOf nofun, findsWritten_stopPassSpin, rfl, Nat.one_pos, rfl, c, v, hrun,
    hstack, hv, hc.2⟩

end Sample

end Machine

end DrawingBugs
