import DrawingBugs.Proofs.Machine.Turns

/-!
# Runs above a stack

What is evaluated or executed above some frames leaves them alone until it hands its result to them.
A run above these frames ends when only they are left and a result is in focus. On the way what is
shared may change between the steps, and every frame above them is in its role and awaits what the
focus, or the frame before it, aims at.
-/

namespace DrawingBugs

/-- How many activations stand on a stack. -/
def activations (stack : List Frame) : Nat := stack.countP Frame.isActivation

/-- How many loops stand on a stack. -/
def loops (stack : List Frame) : Nat := stack.countP Frame.isLoop

theorem activations_cons (frame : Frame) (stack : List Frame) :
    activations (frame :: stack) = activations stack + if frame.isActivation then 1 else 0 :=
  List.countP_cons

theorem loops_cons (frame : Frame) (stack : List Frame) :
    loops (frame :: stack) = loops stack + if frame.isLoop then 1 else 0 :=
  List.countP_cons

theorem activations_activation (stack : List Frame) :
    activations (.activation :: stack) = activations stack + 1 := by
  simp [activations_cons, Frame.isActivation]

theorem activations_le_of_suffix {base stack : List Frame} (h : base <:+ stack) :
    activations base ≤ activations stack := h.sublist.countP_le

theorem loops_le_of_suffix {base stack : List Frame} (h : base <:+ stack) :
    loops base ≤ loops stack := h.sublist.countP_le

namespace Manner

/-- From a result that aims so, the frames lead to one that aims as the last of them above the
base. -/
inductive Expects (M : Manner) (base : List Frame) (last : Aim) : List Frame → Aim → Prop
  | base : M.Expects base last base last
  | frame {frame : Frame} {stack : List Frame} (hframe : frame.Offers M)
    (hstack : M.Expects base last stack frame.aim) : M.Expects base last (frame :: stack) frame.awaits

/-- The machine works above the base at a result that aims so. -/
structure Works (M : Manner) (base : List Frame) (last : Aim) (m : Machine) : Prop where
  focus : m.focus.Offers M
  stack : ∃ a, M.Expects base last m.stack a ∧ ∀ b ∈ m.focus.aim?, b = a

/-- From the first machine the second one has just entered a function above the base. -/
def Enters (M : Manner) (base : List Frame) (last : Aim) (m m' : Machine) : Prop :=
  ∃ caller scope body, m' = Machine.enter caller scope body ∧ M.body body ∧
    activations caller.stack = activations m.stack ∧ M.Expects base last caller.stack .value

variable {M : Manner} {base stack : List Frame} {last a : Aim} {m m' : Machine}

theorem Expects.suffix (h : M.Expects base last stack a) : base <:+ stack := by
  induction h with
  | base => exact List.suffix_refl base
  | frame _ _ ih => exact ih.trans (List.suffix_cons _ _)

private theorem Expects.inner {frame : Frame} (h : M.Expects base last (frame :: stack) a)
    (hbase : frame :: stack ≠ base) :
    frame.awaits = a ∧ frame.Offers M ∧ M.Expects base last stack frame.aim := by
  generalize hwhole : frame :: stack = whole at h
  cases h with
  | base => exact absurd hwhole hbase
  | frame hframe hstack =>
    cases hwhole
    exact ⟨rfl, hframe, hstack⟩

private theorem Expects.eq_of_base (h : M.Expects base last base a) : a = last := by
  generalize hwhole : base = stack at h
  cases h with
  | base => rfl
  | frame _ hstack =>
    have hlength := hstack.suffix.length_le
    rw [List.length_cons] at hlength
    omega

theorem Works.expects (h : M.Works base last m) (haim : m.focus.aim? = some a) :
    M.Expects base last m.stack a := by
  obtain ⟨b, hstack, hb⟩ := h.stack
  rwa [hb a haim]

theorem Works.inner (h : M.Works base last m) (hbase : m.stack ≠ base) {frame : Frame}
    (hstack : m.stack = frame :: stack) :
    (∀ b ∈ m.focus.aim?, frame.awaits = b) ∧ frame.Offers M ∧ M.Expects base last stack frame.aim := by
  obtain ⟨a, hexpects, ha⟩ := h.stack
  rw [hstack] at hexpects hbase
  obtain ⟨hawaits, hoffers, hbelow⟩ := hexpects.inner hbase
  exact ⟨fun b hb => hawaits.trans (ha b hb).symm, hoffers, hbelow⟩

theorem Works.start (hfocus : m.focus.Offers M) (haim : m.focus.aim? = some a) :
    M.Works m.stack a m :=
  ⟨hfocus, a, .base, fun b hb => by rw [haim] at hb; exact (Option.some.inj hb).symm⟩

private theorem Works.enter {caller : Machine} {scope : Table String Float} {body : Tree}
    (hbody : M.statement body) (h : M.Expects base last caller.stack .value) :
    M.Works base last (caller.enter scope body) :=
  ⟨hbody, .flow, .frame (show Frame.Offers M .activation from trivial) h,
    by simp [Machine.enter, Focus.aim?]⟩

private theorem GoesOn.works (h : M.GoesOn a m m') (hm : M.Expects base last m.stack a) :
    M.Works base last m' ∧ activations m'.stack = activations m.stack ∨ M.Enters base last m m' := by
  induction h with
  | turn haim hfocus _ => exact .inl ⟨⟨hfocus, _, hm, haim⟩, rfl⟩
  | @push _ m frame focus haim hawaits hactivation _ _ hframe hfocus =>
    subst haim
    refine .inl ⟨⟨hfocus, _, .frame hframe hm, by simp [Machine.push, hawaits]⟩, ?_⟩
    simp [Machine.push, activations_cons, hactivation]
  | @enter m scope body hbody => exact .inr ⟨m, scope, body, rfl, hbody, rfl, hm⟩
  | @enterLoop m _ body _ _ _ hbody =>
    exact .inl ⟨⟨hbody, .flow, .frame (show Frame.Offers M (.loop body) from hbody) hm,
      by simp [Machine.enterLoop, Machine.iterate, Machine.push, Focus.aim?]⟩, rfl⟩
  | define => exact .inl ⟨⟨trivial, .flow, hm, by simp [Machine.defineFunction, Focus.aim?]⟩, rfl⟩
  | call _ ih => exact ih (.frame (show Frame.Offers M .discard from trivial) hm)

/-- A turn leads on above the base, in the same activation unless it leaves that one, or it enters a
function. -/
theorem Turn.works (h : M.Turn m m') (hm : M.Works base last m)
    (hbusy : m.focus.isResult → m.stack ≠ base) :
    M.Works base last m' ∧ (activations m'.stack = activations m.stack ∨
      ∃ stack, m.focus.isResult ∧ m.stack = .activation :: stack) ∨ M.Enters base last m m' := by
  have hflow {focus : Focus} {stack : List Frame} {memory : Memory}
      (hoffers : focus.Offers M) (haim : ∀ b ∈ focus.aim?, b = .flow)
      (hstack : M.Expects base last stack .flow) : M.Works base last ⟨focus, stack, memory⟩ :=
    ⟨hoffers, .flow, hstack, haim⟩
  have hinner {focus : Focus} {frame : Frame} {stack : List Frame} (hfocus : m.focus = focus)
      (hresult : focus.isResult) (hstack : m.stack = frame :: stack) :
      M.Expects base last stack frame.aim := (hm.inner (hbusy (hfocus ▸ hresult)) hstack).2.2
  have hpop {frame : Frame} {stack : List Frame} (hstack : m.stack = frame :: stack)
      (hactivation : frame.isActivation = false) : activations stack = activations m.stack := by
    simp [hstack, activations_cons, hactivation]
  -- What goes on without the innermost frame goes on in the same activation.
  have hgo {frame : Frame} {stack : List Frame} (hstack : m.stack = frame :: stack)
      (hactivation : frame.isActivation = false)
      (h : M.GoesOn frame.aim { m with stack } m') (hexpects : M.Expects base last stack frame.aim) :
      M.Works base last m' ∧ (activations m'.stack = activations m.stack ∨
        ∃ stack, m.focus.isResult ∧ m.stack = .activation :: stack) ∨ M.Enters base last m m' := by
    have hsame := hpop hstack hactivation
    rcases h.works hexpects with ⟨hworks, hcount⟩ | ⟨caller, scope, body, rfl, hbody, hcount, hcaller⟩
    · exact .inl ⟨hworks, .inl (hcount.trans hsame)⟩
    · exact .inr ⟨caller, scope, body, rfl, hbody, hcount.trans hsame, hcaller⟩
  cases h with
  | go haim _ h => exact (h.works (hm.expects haim)).imp_left fun hworks => ⟨hworks.1, .inl hworks.2⟩
  | assign hfocus =>
    exact .inl ⟨hflow trivial (by simp [Focus.aim?]) (hm.expects (by rw [hfocus]; rfl)), .inl rfl⟩
  | answer hfocus hstack hawaits h =>
    exact hgo hstack (Frame.isActivation_of_awaits hawaits) h (hinner hfocus rfl hstack)
  | «return» hfocus hstack =>
    exact .inl ⟨hflow trivial (by simp [Focus.aim?]) (hinner hfocus rfl hstack),
      .inl (hpop hstack rfl)⟩
  | ignore hfocus _ hstack hactivation _ h => exact hgo hstack hactivation h (hinner hfocus rfl hstack)
  | next hfocus _ hstack h => exact hgo hstack rfl h (hinner hfocus rfl hstack)
  | exit hfocus _ hstack =>
    exact .inl ⟨hflow trivial (by simp [Focus.aim?]) (hinner hfocus rfl hstack),
      .inl (hpop hstack rfl)⟩
  | skip hfocus _ _ hstack =>
    exact .inl ⟨hflow hm.focus (by simp [hfocus, Focus.aim?]) (hinner hfocus rfl hstack),
      .inl (hpop hstack rfl)⟩
  | leave hfocus hstack =>
    exact .inl ⟨⟨trivial, .value, hinner hfocus rfl hstack, by simp [Machine.afterBody, Focus.aim?]⟩,
      .inr ⟨_, by rw [hfocus]; rfl, hstack⟩⟩
  | iterate hfocus hstack hbody =>
    exact .inl ⟨hflow hbody (by simp [Focus.aim?]) (hm.expects (by rw [hfocus]; rfl)), .inl rfl⟩
  | endLoop hfocus _ hstack =>
    exact .inl ⟨hflow trivial (by simp [Focus.aim?]) (hinner hfocus rfl hstack),
      .inl (hpop hstack rfl)⟩
  | @unwind e frame stack hfocus hstack =>
    refine .inl ⟨⟨?_, frame.aim, ?_, ?_⟩, ?_⟩
    · rw [Machine.unwind_focus]
      exact hm.focus
    · have hbelow := hinner hfocus rfl hstack
      cases frame <;> exact hbelow
    · rw [Machine.unwind_focus, hfocus]
      simp [Focus.aim?]
    · cases frame with
      | activation => exact .inr ⟨_, by rw [hfocus]; rfl, hstack⟩
      | _ => exact .inl (hpop hstack rfl)

theorem Works.turned (h : M.Turn m m') (hm : M.Works base last m)
    (hbusy : m.focus.isResult → m.stack ≠ base) (hbody : ∀ t, M.body t → M.statement t) :
    M.Works base last m' := by
  rcases h.works hm hbusy with hworks | ⟨caller, scope, body, rfl, hown, -, hexpects⟩
  · exact hworks.1
  · exact .enter (hbody body hown) hexpects

private theorem GoesOn.functions (hfixed : ∀ t, ¬ M.function t) (h : M.GoesOn a m m') :
    m'.memory.functions = m.memory.functions := by
  induction h with
  | define ht => exact absurd ht (hfixed _)
  | call _ ih => exact ih
  | turn | push | enter | enterLoop => rfl

private theorem Turn.functions (hfixed : ∀ t, ¬ M.function t) (h : M.Turn m m') :
    m'.memory.functions = m.memory.functions := by
  cases h with
  | go _ _ h => exact h.functions hfixed
  | answer _ _ _ h => exact (h.functions hfixed :)
  | ignore _ _ _ _ _ h => exact (h.functions hfixed :)
  | next _ _ _ h => exact (h.functions hfixed :)
  | @unwind e frame => cases frame <;> rfl
  | assign | «return» | exit | skip | leave | iterate | endLoop => rfl

theorem Works.stack_eq (h : M.Works base last m) (hlength : m.stack.length = base.length) :
    m.stack = base := by
  obtain ⟨a, hexpects, -⟩ := h.stack
  exact (hexpects.suffix.eq_of_length hlength.symm).symm

private theorem Works.aim_of_returned (h : M.Works base last m) (hstack : m.stack = base) :
    ∀ b ∈ m.focus.aim?, b = last := by
  obtain ⟨a, hexpects, ha⟩ := h.stack
  rw [hstack] at hexpects
  intro b hb
  rw [ha b hb, hexpects.eq_of_base]

/-- Manners of a machine that defines no functions and executes the bodies of those that it calls
as it does other statements. -/
structure Settled (M : Manner) : Prop where
  closed : M.Closed
  body : ∀ t, M.body t → M.statement t
  fixed : ∀ t, ¬ M.function t
  fault : ∀ e, M.fault e

theorem Works.turn (hM : M.Closed) (hm : M.Works base last m)
    (hbusy : m.focus.isResult → m.stack ≠ base) (seat : Nat) (s : Shared)
    (hfinds : M.Finds m.memory.functions s.world.functions) (hfault : ∀ e, M.fault e) :
    M.Turn m (m.step seat s).1 := by
  refine step_turn hM seat s hm.focus hfinds (fun _ => hfault _) fun hresult => ?_
  have hbase := hbusy hresult
  cases hstack : m.stack with
  | nil =>
    obtain ⟨a, hexpects, -⟩ := hm.stack
    rw [hstack] at hexpects hbase
    exact absurd (List.suffix_nil.mp hexpects.suffix).symm hbase
  | cons frame stack =>
    obtain ⟨hawaits, hoffers, -⟩ := hm.inner hbase hstack
    exact ⟨frame, stack, rfl, hawaits, hoffers⟩

end Manner

/-! ## Runs -/

namespace Machine

/-- Nothing but the base is left, and a result is in focus. -/
def Returned (base : List Frame) (m : Machine) : Prop := m.stack = base ∧ m.focus.isResult

theorem value_or_fault {M : Manner} {m : Machine} {base : List Frame} (h : M.Works base .value m)
    (hreturned : m.Returned base) : (∃ v, m.focus = .value v) ∨ ∃ e, m.focus = .fault e := by
  obtain ⟨hstack, hresult⟩ := hreturned
  have haim := h.aim_of_returned hstack
  cases hfocus : m.focus <;> rw [hfocus] at haim hresult <;> try cases hresult
  · exact .inl ⟨_, rfl⟩
  · exact nomatch haim .flow rfl
  · exact .inr ⟨_, rfl⟩

theorem flow_or_fault {M : Manner} {m : Machine} {base : List Frame} (h : M.Works base .flow m)
    (hreturned : m.Returned base) : (∃ f, m.focus = .flow f) ∨ ∃ e, m.focus = .fault e := by
  obtain ⟨hstack, hresult⟩ := hreturned
  have haim := h.aim_of_returned hstack
  cases hfocus : m.focus <;> rw [hfocus] at haim hresult <;> try cases hresult
  · exact nomatch haim .value rfl
  · exact .inl ⟨_, rfl⟩
  · exact .inr ⟨_, rfl⟩

theorem step_of_returned {M : Manner} {m : Machine} {stack : List Frame} (seat : Nat)
    (h : M.Works (.activation :: stack) .flow m) (hreturned : m.Returned (.activation :: stack))
    (s : Shared) : (m.step seat s).1.Returned stack ∧
      (m.step seat s).1.memory.scopes = m.memory.scopes.tail ∧
      ((∃ e, (m.step seat s).1.focus = .fault e) ∨
        (m.step seat s).1.focus = .value m.memory.returnValue ∧
          (m.step seat s).1.memory.returnValue = 0.0) := by
  have hstack := hreturned.1
  rcases flow_or_fault h hreturned with ⟨f, hfocus⟩ | ⟨e, hfocus⟩
  · simp [step, hfocus, resume, hstack, resumeFlow, afterBody, leaveScope, Returned, Focus.isResult]
  · simp [step, hfocus, resume, hstack, unwind, leaveScope, Returned, Focus.isResult]

theorem shared_step_of_isResult {m : Machine} (h : m.focus.isResult) (seat : Nat) (s : Shared) :
    (m.step seat s).2 = s := by
  unfold step
  cases hfocus : m.focus <;> first | rfl | (rw [hfocus] at h; cases h)

/-- A machine takes steps above a base. Before each of them what is shared may change. -/
inductive Runs (seat : Nat) (env : Shared → Shared → Prop) (base : List Frame) :
    Machine × Shared → Machine × Shared → Prop
  | refl (c : Machine × Shared) : Runs seat env base c c
  | step {m : Machine} {s t : Shared} {c : Machine × Shared} (hbusy : ¬ m.Returned base)
    (henv : env s t) (hrest : Runs seat env base (m.step seat t) c) : Runs seat env base (m, s) c

variable {seat : Nat} {env : Shared → Shared → Prop} {base : List Frame}

theorem Runs.trans {c d e : Machine × Shared} (h : Runs seat env base c d)
    (h' : Runs seat env base d e) : Runs seat env base c e := by
  induction h with
  | refl => exact h'
  | step hbusy henv _ ih => exact .step hbusy henv (ih h')

/-- What every step above the base preserves holds throughout the run. -/
theorem Runs.invariant {P : Machine × Shared → Prop}
    (hstep : ∀ m s t, P (m, s) → ¬ m.Returned base → env s t → P (m.step seat t))
    {c d : Machine × Shared} (h : Runs seat env base c d) (hc : P c) : P d := by
  induction h with
  | refl => exact hc
  | step hbusy henv _ ih => exact ih (hstep _ _ _ hc hbusy henv)

theorem Runs.eq_of_returned {c d : Machine × Shared} (h : Runs seat env base c d)
    (hc : c.1.Returned base) : d = c := by
  cases h with
  | refl => rfl
  | step hbusy => exact absurd hc hbusy

/-- What every turn above the base preserves holds throughout the run of a machine that defines no
functions, and the machine works above the base all the time. -/
theorem Runs.settled {M : Manner} {last : Aim} (hM : M.Settled)
    (henv : ∀ s t, env s t → t.world.functions = s.world.functions) {P : Machine × Shared → Prop}
    (hstep : ∀ m s t, M.Works base last m → ¬ m.Returned base → env s t → P (m, s) →
      M.Turn m (m.step seat t).1 → P (m.step seat t))
    {c d : Machine × Shared} (h : Runs seat env base c d) (hworks : M.Works base last c.1)
    (hfinds : M.Finds c.1.memory.functions c.2.world.functions) (hc : P c) :
    M.Works base last d.1 ∧ M.Finds d.1.memory.functions d.2.world.functions ∧ P d := by
  refine h.invariant (P := fun c => M.Works base last c.1 ∧
    M.Finds c.1.memory.functions c.2.world.functions ∧ P c) ?_ ⟨hworks, hfinds, hc⟩
  rintro m s t ⟨hworks, hfinds, hc⟩ hbusy hst
  have hbase (hresult : m.focus.isResult) : m.stack ≠ base := fun hstack => hbusy ⟨hstack, hresult⟩
  rw [← henv s t hst] at hfinds
  have hturn := hworks.turn hM.closed hbase seat t hfinds hM.fault
  refine ⟨hworks.turned hturn hbase hM.body, ?_, hstep m s t hworks hbusy hst hc hturn⟩
  rw [hturn.functions hM.fixed, functions_step]
  exact hfinds

/-- What every turn above the base preserves holds throughout the run of a machine that works on trees
in their roles, with functions in theirs. -/
theorem Runs.playing {R : Roles} {last : Aim} (hR : R.Closed) (hfault : ∀ e, R.fault e)
    (henv : ∀ s t, env s t → t.world.functions = s.world.functions) {P : Machine × Shared → Prop}
    (hstep : ∀ m s t, R.manner.Works base last m → ¬ m.Returned base → env s t → P (m, s) →
      R.manner.Turn m (m.step seat t).1 → P (m.step seat t))
    {c d : Machine × Shared} (h : Runs seat env base c d) (hworks : R.manner.Works base last c.1)
    (hown : R.Functions c.1.memory.functions) (hshared : R.Functions c.2.world.functions)
    (hc : P c) : R.manner.Works base last d.1 ∧ P d := by
  have hall := h.invariant (P := fun c => R.manner.Works base last c.1 ∧
    R.Functions c.1.memory.functions ∧ R.Functions c.2.world.functions ∧ P c) ?_
    ⟨hworks, hown, hshared, hc⟩
  · exact ⟨hall.1, hall.2.2.2⟩
  · rintro m s t ⟨hworks, hown, hshared, hc⟩ hbusy hst
    have hbase (hresult : m.focus.isResult) : m.stack ≠ base :=
      fun hstack => hbusy ⟨hstack, hresult⟩
    rw [← henv s t hst] at hshared
    have hturn := hworks.turn hR.manner hbase seat t (hR.finds hown hshared) hfault
    refine ⟨hworks.turned hturn hbase fun _ => id, hturn.defines hown, ?_,
      hstep m s t hworks hbusy hst hc hturn⟩
    rw [functions_step]
    exact hshared

/-- So many steps of a machine alone above frames of that number, if it does not return before. -/
def advance (seat depth : Nat) : Nat → Machine × Shared → Option (Machine × Shared)
  | 0, c => some c
  | n + 1, (m, s) =>
    if m.focus.isResult ∧ m.stack.length = depth then none
    else advance seat depth n (m.step seat s)

theorem Runs.of_advance (henv : ∀ s, env s s) {n : Nat} {c d : Machine × Shared}
    (h : advance seat base.length n c = some d) : Runs seat env base c d := by
  induction n generalizing c with
  | zero =>
    cases h
    exact .refl _
  | succ n ih =>
    obtain ⟨m, s⟩ := c
    rw [advance] at h
    split at h
    · cases h
    · next hbusy =>
      refine .step (fun hreturned => hbusy ⟨hreturned.2, ?_⟩) (henv s) (ih h)
      rw [hreturned.1]

theorem Runs.exists_of_advance {n : Nat} {c : Machine × Shared} {p : Machine × Shared → Bool}
    (h : (advance seat base.length n c).any p = true) : ∃ d, Runs seat Eq base c d ∧ p d = true := by
  obtain ⟨d, hd, hp⟩ := (Option.any_eq_true _ _).mp h
  exact ⟨d, .of_advance (fun _ => rfl) hd, hp⟩

end Machine

end DrawingBugs
