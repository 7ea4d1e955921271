import DrawingBugs.Proofs.Machine.Manners

/-!
# Returns

A call has the value of the return that its activation executes, and zero if there is none: every
call that the activation makes leaves the return slot empty. From the return on, the activation only
leaves its blocks and loops. An exit that is pending, as a call in the returned expression can leave
it, turns the return into an exit; if the return is inside a loop, then only that loop ends and the
activation goes on, and so it is the last return that counts.
-/

namespace DrawingBugs

/-- All blocks, commands and expressions, with any functions. -/
abbrev Manner.commands : Manner := .written (fun _ => True) fun _ => True

private theorem Manner.commands_closed :
    Manner.commands.Closed := written_closed fun _ _ _ _ => trivial

private theorem Manner.commands_finds (own shared : Table String Tree) :
    Manner.commands.Finds own shared :=
  fun _ _ _ _ _ _ _ => ⟨written_comes, written_comes⟩

private theorem Manner.GoesOn.returnValue {M : Manner} {a : Aim} {m m' : Machine}
    (h : M.GoesOn a m m') : m'.memory.returnValue = m.memory.returnValue ∨
      activations m'.stack = activations m.stack + 1 := by
  induction h with
  | call _ ih => exact ih
  | enter => exact .inr (activations_activation _)
  | turn | push | enterLoop | define => exact .inl rfl

namespace Machine

variable {base : List Frame} {m : Machine} {seat : Nat} {env : Shared → Shared → Prop}

/-- The activation above the base is at work itself: none of its calls is active. -/
def Own (base : List Frame) (m : Machine) : Prop := activations m.stack = activations base + 1

/-- The activation above the base executes a return of this value. -/
def OwnReturn (base : List Frame) (r : Float) (m : Machine) : Prop :=
  m.Own base ∧ m.focus = .value r ∧ ∃ stack, m.stack = .returning :: stack

/-- The activation above the base works on its own code. -/
def AtHome (base : List Frame) (m : Machine) : Prop :=
  Manner.commands.Works (.activation :: base) .flow m ∧ m.Own base

/-- The activation above the base waits for a call. -/
def Away (base : List Frame) (m : Machine) : Prop :=
  ∃ waiting, Manner.commands.Expects (.activation :: base) .flow waiting .value ∧
    activations waiting = activations base + 1 ∧ Manner.any.Works (.activation :: waiting) .flow m

private theorem Own.ne_base (h : m.Own base) : m.stack ≠ base := fun hstack => by
  rw [Own, hstack] at h
  omega

private theorem Away.activations_le (h : m.Away base) :
    activations base + 2 ≤ activations m.stack := by
  obtain ⟨waiting, -, hcount, hworks⟩ := h
  obtain ⟨a, hexpects, -⟩ := hworks.stack
  have hle := activations_le_of_suffix hexpects.suffix
  rw [activations_activation] at hle
  omega

private theorem Away.not_own (h : m.Away base) : ¬ m.Own base := fun hown => by
  have hle := h.activations_le
  rw [Own] at hown
  omega

private theorem Away.ne_base (h : m.Away base) : m.stack ≠ base := fun hstack => by
  have hle := h.activations_le
  rw [hstack] at hle
  omega

/-- At home a step is a turn, unless the activation is left. -/
private theorem AtHome.turn (h : m.AtHome base) (hbusy : ¬ m.Returned (.activation :: base))
    (seat : Nat) (s : Shared) : Manner.commands.Turn m (m.step seat s).1 :=
  h.1.turn Manner.commands_closed (fun hresult hstack => hbusy ⟨hstack, hresult⟩) seat s
    (Manner.commands_finds _ _) fun _ => trivial

private theorem AtHome.ne_activation {stack : List Frame} (h : m.AtHome base)
    (hbusy : ¬ m.Returned (.activation :: base)) (hresult : m.focus.isResult) :
    m.stack ≠ .activation :: stack := by
  intro hstack
  have hinner := h.1.inner (fun hbase => hbusy ⟨hbase, hresult⟩) hstack
  have hle := activations_le_of_suffix hinner.2.2.suffix
  have hown := h.2
  rw [Own, hstack, activations_activation] at hown
  rw [activations_activation] at hle
  omega

private theorem AtHome.next (h : m.AtHome base) (hbusy : ¬ m.Returned (.activation :: base))
    (seat : Nat) (s : Shared) : (m.step seat s).1.AtHome base ∨ (m.step seat s).1.Away base := by
  have hturn := h.turn hbusy seat s
  rcases hturn.works h.1 (fun hresult hstack => hbusy ⟨hstack, hresult⟩) with
    ⟨hworks, hcount | ⟨stack, hresult, hstack⟩⟩ | ⟨caller, scope, body, hcall, -, hcount, hcaller⟩
  · exact .inl ⟨hworks, hcount.trans h.2⟩
  · exact absurd hstack (h.ne_activation hbusy hresult)
  · rw [hcall]
    exact .inr ⟨caller.stack, hcaller, hcount.trans h.2,
      .start (m := caller.enter scope body) trivial rfl⟩

/-- A call of the activation goes on, comes home with an empty return slot, or fails. -/
private theorem Away.next (h : m.Away base) (seat : Nat) (s : Shared) :
    (m.step seat s).1.Away base ∨ (m.step seat s).1.AtHome base ∧
      ((∃ e, (m.step seat s).1.focus = .fault e) ∨ (m.step seat s).1.memory.returnValue = 0.0) := by
  obtain ⟨waiting, hexpects, hcount, hworks⟩ := h
  by_cases hreturned : m.Returned (.activation :: waiting)
  · obtain ⟨⟨hstack, -⟩, -, hresult⟩ := step_of_returned seat hworks hreturned s
    have hown : (m.step seat s).1.Own base := by rw [Own, hstack, hcount]
    rw [← hstack] at hexpects
    rcases hresult with ⟨e, hfault⟩ | ⟨hvalue, hslot⟩
    · exact .inr ⟨⟨⟨by rw [hfault]; trivial, .value, hexpects, by simp [hfault, Focus.aim?]⟩, hown⟩,
        .inl ⟨e, hfault⟩⟩
    · exact .inr ⟨⟨⟨by rw [hvalue]; trivial, .value, hexpects, by simp [hvalue, Focus.aim?]⟩, hown⟩,
        .inr hslot⟩
  · exact .inl ⟨waiting, hexpects, hcount, (Manner.any_turn hworks hreturned seat s).2⟩

private theorem AtHome.returnValue (h : m.AtHome base) (hbusy : ¬ m.Returned (.activation :: base))
    (seat : Nat) (s : Shared) (hhome : (m.step seat s).1.Own base) :
    (m.step seat s).1.memory.returnValue = m.memory.returnValue ∨
      m.OwnReturn base (m.step seat s).1.memory.returnValue := by
  have hturn := h.turn hbusy seat s
  have hleave (stack : List Frame) (hresult : m.focus.isResult) : m.stack ≠ .activation :: stack :=
    h.ne_activation hbusy hresult
  generalize (m.step seat s).1 = m' at hturn hhome
  -- Whatever goes on in the same activation enters no function.
  have hkept {a : Aim} {stack : List Frame} (hstack : activations stack = activations m.stack)
      (hgo : Manner.commands.GoesOn a { m with stack } m') :
      m'.memory.returnValue = m.memory.returnValue := by
    refine hgo.returnValue.resolve_right fun hmore => ?_
    have hown := h.2
    rw [Own] at hown hhome
    dsimp only at hmore
    omega
  have hpop {frame : Frame} {stack : List Frame} (hstack : m.stack = frame :: stack)
      (hactivation : frame.isActivation = false) : activations stack = activations m.stack := by
    simp [hstack, activations_cons, hactivation]
  cases hturn with
  | go _ _ hgo => exact .inl (hkept rfl hgo)
  | answer _ hstack hawaits hgo =>
    exact .inl (hkept (hpop hstack (Frame.isActivation_of_awaits hawaits)) hgo)
  | «return» hfocus hstack => exact .inr ⟨h.2, hfocus, _, hstack⟩
  | ignore _ houtlying => exact absurd houtlying id
  | next _ _ hstack hgo => exact .inl (hkept (hpop hstack rfl) hgo)
  | leave hfocus hstack => exact absurd hstack (hleave _ (by rw [hfocus]; rfl))
  | @unwind e frame => cases frame <;> exact .inl rfl
  | assign | exit | skip | iterate | endLoop => exact .inl rfl

/-- The activation has executed a return of this value, and only leaves its blocks and loops; with a
loop to leave, no exit is pending. -/
structure Leaving (base : List Frame) (r : Float) (m : Machine) : Prop where
  home : m.AtHome base
  slot : m.memory.returnValue = r
  flow : ∃ f, m.focus = .flow f ∧ f ≠ .normal ∧
    (loops base < loops m.stack → f = .returned ∧ m.memory.exitPending = false)

private theorem Leaving.next {r : Float} (h : m.Leaving base r) (seat : Nat) (s : Shared) :
    (m.step seat s).1.Leaving base r ∨
      (m.step seat s).1.stack = base ∧ (m.step seat s).1.focus = .value r := by
  obtain ⟨f, hfocus, hf, hloop⟩ := h.flow
  by_cases hreturned : m.Returned (.activation :: base)
  · refine .inr ⟨(step_of_returned seat h.home.1 hreturned s).1.1, ?_⟩
    simp [step, hfocus, resume, hreturned.1, resumeFlow, afterBody, h.slot]
  have hturn := h.home.turn hreturned seat s
  have hnext := h.home.next hreturned seat s
  have hinner {frame : Frame} {stack : List Frame} (hstack : m.stack = frame :: stack) :=
    h.home.1.inner (fun hbase => hreturned ⟨hbase, by rw [hfocus]; rfl⟩) hstack
  have hown {frame : Frame} {stack : List Frame} (hstack : m.stack = frame :: stack)
      (hactivation : frame.isActivation = false) : activations stack = activations base + 1 := by
    have hown := h.home.2
    simpa [Own, hstack, activations_cons, hactivation] using hown
  generalize (m.step seat s).1 = m' at hturn hnext ⊢
  have hhome (hown : m'.Own base) : m'.AtHome base := hnext.resolve_right fun haway => haway.not_own hown
  refine .inl ?_
  cases hturn with
  | go _ hresult =>
    rw [hfocus] at hresult
    cases hresult
  | @exit f' rest stack _ hpending hstack =>
    refine ⟨hhome (hown hstack rfl), h.slot, .loopExit, rfl, by decide, fun hmore => ?_⟩
    rw [hstack, loops_cons] at hloop
    rw [(hloop (Nat.lt_add_right _ hmore)).2] at hpending
    cases hpending
  | @skip f' rest stack _ _ hpending hstack =>
    refine ⟨hhome (hown hstack rfl), h.slot, f, hfocus, hf, fun hmore => ?_⟩
    rw [hstack, loops_cons] at hloop
    exact hloop (Nat.lt_add_right _ hmore)
  | @endLoop f' body stack hfocus' _ hstack =>
    have hle := loops_le_of_suffix (hinner hstack).2.2.suffix
    rw [hstack, loops_cons, Frame.isLoop, if_pos rfl] at hloop
    rw [loops_cons] at hle
    obtain ⟨rfl, hpending⟩ := hloop (by omega)
    obtain rfl : Flow.returned = f' := Focus.flow.inj (hfocus.symm.trans hfocus')
    exact ⟨hhome (hown hstack rfl), h.slot, .returned, rfl, by decide, fun _ => ⟨rfl, hpending⟩⟩
  | leave _ hstack =>
    exact absurd hstack (h.home.ne_activation hreturned (by rw [hfocus]; rfl))
  | ignore _ houtlying => exact absurd houtlying id
  | next hfocus' | iterate hfocus' =>
    rw [hfocus] at hfocus'
    cases hfocus'
    exact absurd rfl hf
  | assign hfocus' | answer hfocus' | «return» hfocus' | unwind hfocus' =>
    rw [hfocus] at hfocus'
    cases hfocus'

/-- The value is zero, or the activation above the base has executed a return of it on the way. -/
def Yields (seat : Nat) (env : Shared → Shared → Prop) (base : List Frame) (c d : Machine × Shared)
    (v : Float) : Prop :=
  v = 0.0 ∨ ∃ b, Runs seat env base c b ∧ Runs seat env base b d ∧ b.1.OwnReturn base v

/-- Where an activation can be that began with the first machine: at home with what has come to the
return slot, away, or at its end. -/
inductive Stage (seat : Nat) (env : Shared → Shared → Prop) (base : List Frame)
    (c : Machine × Shared) (d : Machine × Shared) : Prop
  | home (hhome : d.1.AtHome base) (hslot : Yields seat env base c d d.1.memory.returnValue)
  | away (haway : d.1.Away base)
  | failed {e : Fault} (hfault : d.1.focus = .fault e) (hhome : d.1.AtHome base ∨ d.1.stack = base)
  | left {v : Float} (hstack : d.1.stack = base) (hvalue : d.1.focus = .value v)
    (hslot : d.1.memory.returnValue = 0.0) (hv : Yields seat env base c d v)

private theorem Yields.step {c : Machine × Shared} {m : Machine} {s t : Shared} {v : Float}
    (hbusy : ¬ m.Returned base) (henv : env s t) (h : Yields seat env base c (m, s) v) :
    Yields seat env base c (m.step seat t) v := by
  refine h.imp_right fun ⟨b, hto, hfrom, hreturn⟩ => ⟨b, hto, ?_, hreturn⟩
  exact hfrom.trans (.step hbusy henv (.refl _))

private theorem Stage.next {c : Machine × Shared} {m : Machine} {s t : Shared}
    (hbusy : ¬ m.Returned base) (henv : env s t) (hto : Runs seat env base c (m, s))
    (h : Stage seat env base c (m, s)) :
    Stage seat env base c (m.step seat t) := by
  cases h with
  | home hhome hslot =>
    by_cases hreturned : m.Returned (.activation :: base)
    · obtain ⟨⟨hstack, -⟩, -, ⟨e, hfault⟩ | ⟨hvalue, hempty⟩⟩ :=
        step_of_returned seat hhome.1 hreturned t
      · exact .failed hfault (.inr hstack)
      · exact .left hstack hvalue hempty (hslot.step hbusy henv)
    · rcases hhome.next hreturned seat t with hhome' | haway
      · refine .home hhome' ?_
        rcases hhome.returnValue hreturned seat t hhome'.2 with hsame | hreturn
        · rw [hsame]
          exact hslot.step hbusy henv
        · exact .inr ⟨(m, s), hto, .step hbusy henv (.refl _), hreturn⟩
      · exact .away haway
  | away haway =>
    rcases haway.next seat t with haway' | ⟨hhome, ⟨e, hfault⟩ | hempty⟩
    · exact .away haway'
    · exact .failed hfault (.inl hhome)
    · exact .home hhome (.inl hempty)
  | @failed e hfault hhome =>
    have hfault' : (m.step seat t).1.focus = .fault e := by
      simpa [step, show m.focus = .fault e from hfault] using resume_unwind_focus m
    have hhome := hhome.resolve_right fun hstack =>
      hbusy ⟨hstack, by rw [show m.focus = .fault e from hfault]; rfl⟩
    by_cases hreturned : m.Returned (.activation :: base)
    · exact .failed hfault' (.inr (step_of_returned seat hhome.1 hreturned t).1.1)
    · rcases hhome.next hreturned seat t with hhome' | haway
      · exact .failed hfault' (.inl hhome')
      · exact .away haway
  | left hstack hvalue =>
    exact absurd ⟨hstack, by rw [show m.focus = .value _ from hvalue]; rfl⟩ hbusy

private theorem atHome_enter {scope : Table String Float} {body : Tree} (hbody : body.IsBlock) :
    (m.enter scope body).AtHome m.stack :=
  ⟨.start (m := m.enter scope body) ⟨.inr hbody, trivial⟩ rfl, activations_activation _⟩

private theorem Runs.stage {scope : Table String Float} {body : Tree} {s : Shared}
    {d : Machine × Shared} (hbody : body.IsBlock)
    (hrun : Runs seat env m.stack (m.enter scope body, s) d) :
    Stage seat env m.stack (m.enter scope body, s) d := by
  refine (hrun.invariant (P := fun d => Runs seat env m.stack (m.enter scope body, s) d ∧
    Stage seat env m.stack (m.enter scope body, s) d) ?_
    ⟨.refl _, .home (atHome_enter hbody) (.inl rfl)⟩).2
  rintro m' s' t ⟨hto, hstage⟩ hbusy henv
  exact ⟨hto.trans (.step hbusy henv (.refl _)), hstage.next hbusy henv hto⟩

/-- A return that no exit takes out of its loop is carried to the end of the activation. -/
private theorem OwnReturn.leaving {r : Float} (h : m.OwnReturn base r) (hhome : m.AtHome base)
    (hexit : m.memory.exitPending = false ∨ loops m.stack = loops base) (seat : Nat) (s : Shared) :
    (m.step seat s).1.Leaving base r := by
  obtain ⟨hown, hfocus, stack, hstack⟩ := h
  have hstep : (m.step seat s).1 = ⟨.flow .returned, stack, { m.memory with returnValue := r }⟩ := by
    simp only [step, hfocus, resume, hstack, resumeValue]
  have hbusy : ¬ m.Returned (.activation :: base) := fun hreturned => by
    have hother := hreturned.1
    rw [hstack] at hother
    cases hother
  have hown' : activations stack = activations base + 1 := by
    simpa [Own, hstack, activations_cons, Frame.isActivation] using hown
  have hnext := hhome.next hbusy seat s
  rw [hstep] at hnext ⊢
  refine ⟨hnext.resolve_right fun haway => haway.not_own hown', rfl, .returned, rfl, by decide, ?_⟩
  intro hmore
  refine ⟨rfl, hexit.resolve_right fun hloops => ?_⟩
  rw [hstack, loops_cons] at hloops
  simp only [Frame.isLoop] at hloops hmore
  omega

private theorem Runs.leaving {r : Float} {c d : Machine × Shared} (hrun : Runs seat env base c d)
    (hc : c.1.Leaving base r) : d.1.Leaving base r ∨ d.1.stack = base ∧ d.1.focus = .value r := by
  refine hrun.invariant
    (P := fun d => d.1.Leaving base r ∨ d.1.stack = base ∧ d.1.focus = .value r) ?_ (.inl hc)
  rintro m s t (hleaving | ⟨hstack, hvalue⟩) hbusy _
  · exact hleaving.next seat t
  · exact absurd ⟨hstack, by rw [show m.focus = .value r from hvalue]; rfl⟩ hbusy

/-- **Returns.** A call that comes to a value leaves the return slot empty; its value is zero, or that
of a return that its activation has executed. A return of the activation is final, and no statement
begins after it, unless it is inside a loop and an exit is pending. -/
theorem return_final {scope : Table String Float} {body : Tree} {s : Shared} {d : Machine × Shared}
    {v : Float} (hbody : body.IsBlock)
    (hrun : Runs seat env m.stack (m.enter scope body, s) d) (hstack : d.1.stack = m.stack)
    (hvalue : d.1.focus = .value v) :
    d.1.memory.returnValue = 0.0 ∧
      (v = 0.0 ∨ ∃ c, Runs seat env m.stack (m.enter scope body, s) c ∧ Runs seat env m.stack c d ∧
        c.1.OwnReturn m.stack v) ∧
      ∀ c r, Runs seat env m.stack (m.enter scope body, s) c → Runs seat env m.stack c d →
        c.1.OwnReturn m.stack r → c.1.memory.exitPending = false ∨ loops c.1.stack = loops m.stack →
          v = r ∧ ∀ b, Runs seat env m.stack c b → Runs seat env m.stack b d →
            ∀ t, b.1.focus ≠ .execute t ∧ b.1.focus ≠ .perform t := by
  have hend : d.1.memory.returnValue = 0.0 ∧
      Yields seat env m.stack (m.enter scope body, s) d v := by
    cases hrun.stage hbody with
    | home hhome => exact absurd hstack hhome.2.ne_base
    | away haway => exact absurd hstack haway.ne_base
    | failed hfault =>
      rw [hfault] at hvalue
      cases hvalue
    | left _ hvalue' hslot hyields =>
      rw [hvalue'] at hvalue
      cases hvalue
      exact ⟨hslot, hyields⟩
  refine ⟨hend.1, hend.2, fun c r hto hfrom hreturn hexit => ?_⟩
  have hhome : c.1.AtHome m.stack := by
    cases hto.stage hbody with
    | home hhome => exact hhome
    | away haway => exact absurd hreturn.1 haway.not_own
    | failed _ hhome => exact hhome.resolve_right hreturn.1.ne_base
    | left hstack' => exact absurd hstack' hreturn.1.ne_base
  have hafter {b : Machine × Shared} (hb : Runs seat env m.stack c b) : b = c ∨
      b.1.Leaving m.stack r ∨ b.1.stack = m.stack ∧ b.1.focus = .value r := by
    cases hb with
    | refl => exact .inl rfl
    | step _ _ hrest => exact .inr (hrest.leaving (hreturn.leaving hhome hexit seat _))
  constructor
  · rcases hafter hfrom with rfl | hleaving | ⟨-, hvalue'⟩
    · exact absurd hstack hreturn.1.ne_base
    · exact absurd hstack hleaving.home.2.ne_base
    · exact Focus.value.inj (hvalue.symm.trans hvalue')
  · intro b hb _ t
    rcases hafter hb with rfl | hleaving | ⟨-, hvalue'⟩
    · simp [hreturn.2.1]
    · obtain ⟨f, hflow, -⟩ := hleaving.flow
      simp [hflow]
    · simp [hvalue']

section Sample

open DrawingBugs.Tree

private def variableOf (name : String) : Tree := .leaf ⟨.name, name, ⟨1, 1⟩⟩

private def returnOf (t : Tree) : Tree := .labeled "return" [t]

/-- A body that returns the one from a loop, and then the variable `q`. -/
private def twice (t : Tree) : Tree :=
  .labeled "block" [.labeled "loop" [.labeled "block" [returnOf t]], returnOf (variableOf "q")]

private def pq : Table String Float := [("p", 3.0), ("q", 9.0)]

private def caller : Machine := ⟨.flow .normal, [], ⟨[("stop", stopper)], [], 0.0, 0, false⟩⟩

/-- The loop's return is executed. -/
private def returning (t : Tree) (r : Float) (exitPending : Bool) : Machine :=
  ⟨.value r, [.returning, .block [], .loop (.labeled "block" [returnOf t]),
    .block [returnOf (variableOf "q")], .activation],
    ⟨[("stop", stopper)], [pq], 0.0, 1, exitPending⟩⟩

private theorem isBlock_twice {t : Tree} (ht : t.IsExpression) : (twice t).IsBlock := by
  refine .block fun c hc => ?_
  simp only [List.mem_cons, List.not_mem_nil, or_false] at hc
  rcases hc with rfl | rfl
  · exact .loop rfl (by simpa using .leave rfl ht)
  · exact .leave rfl (.name rfl (by decide))

/-- The loop's return ends the call, with its value. -/
theorem return_final_twice :
    ∃ d v, Runs 0 Eq [] (caller.enter pq (twice (variableOf "p")), .alone)
        (returning (variableOf "p") 3.0 false, .alone) ∧
      (returning (variableOf "p") 3.0 false).OwnReturn [] 3.0 ∧
      Runs 0 Eq [] (returning (variableOf "p") 3.0 false, .alone) d ∧ d.1.Returned [] ∧
      d.1.focus = .value v ∧ v = 3.0 ∧ d.1.memory.returnValue = 0.0 := by
  have hto : Runs 0 Eq [] (caller.enter pq (twice (variableOf "p")), .alone)
      (returning (variableOf "p") 3.0 false, .alone) := .of_advance (fun _ => rfl) (n := 9) rfl
  have hown : (returning (variableOf "p") 3.0 false).OwnReturn [] 3.0 := ⟨rfl, rfl, _, rfl⟩
  obtain ⟨d, hfrom, hd⟩ := Runs.exists_of_advance (by decide +kernel : (advance 0 [].length 5
    (returning (variableOf "p") 3.0 false, .alone)).any (fun c =>
      c.1.stack.isEmpty && c.1.value? = some 3.0) = true)
  rw [Bool.and_eq_true, List.isEmpty_iff, decide_eq_true_eq] at hd
  have hvalue := focus_of_value? hd.2
  obtain ⟨hslot, -, hfinal⟩ := return_final (m := caller) (isBlock_twice (.name rfl (by decide)))
    (hto.trans hfrom) hd.1 hvalue
  exact ⟨d, 3.0, hto, hown, hfrom, ⟨hd.1, by rw [hvalue]; rfl⟩, hvalue,
    (hfinal _ _ hto hfrom hown (.inl rfl)).1, hslot⟩

/-- A call in the loop's return leaves an exit pending: the loop ends, the next statement begins, and
the call has the value of that one. -/
theorem return_overtaken_twice : (twice (callOf "stop" [])).IsBlock ∧ stopper.IsFunction ∧
    Runs 0 Eq [] (caller.enter pq (twice (callOf "stop" [])), .alone)
      (returning (callOf "stop" []) 0.0 true, .alone) ∧
    (returning (callOf "stop" []) 0.0 true).OwnReturn [] 0.0 ∧
    ∃ b d t, Runs 0 Eq [] (returning (callOf "stop" []) 0.0 true, .alone) b ∧ b.1.Own [] ∧
      b.1.focus = .execute t ∧ Runs 0 Eq [] b d ∧ d.1.stack = [] ∧ d.1.focus = .value 9.0 := by
  have hto : Runs 0 Eq [] (caller.enter pq (twice (callOf "stop" [])), .alone)
      (returning (callOf "stop" []) 0.0 true, .alone) := .of_advance (fun _ => rfl) (n := 17) rfl
  have hbegin : Runs 0 Eq [] (returning (callOf "stop" []) 0.0 true, .alone)
      (⟨.execute (returnOf (variableOf "q")), [.block [], .activation],
        ⟨[("stop", stopper)], [pq], 0.0, 0, false⟩⟩, .alone) := .of_advance (fun _ => rfl) (n := 4) rfl
  obtain ⟨d, hfrom, hd⟩ := Runs.exists_of_advance (by decide +kernel : (advance 0 [].length 6
    (⟨.execute (returnOf (variableOf "q")), [.block [], .activation],
      ⟨[("stop", stopper)], [pq], 0.0, 0, false⟩⟩, .alone)).any (fun c =>
        c.1.stack.isEmpty && c.1.value? = some 9.0) = true)
  rw [Bool.and_eq_true, List.isEmpty_iff, decide_eq_true_eq] at hd
  exact ⟨isBlock_twice (isExpression_callOf nofun), isFunction_stopper, hto, ⟨rfl, rfl, _, rfl⟩, _, d,
    _, hbegin, rfl, rfl, hfrom, hd.1, focus_of_value? hd.2⟩

end Sample

end Machine

end DrawingBugs
