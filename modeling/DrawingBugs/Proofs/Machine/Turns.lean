import DrawingBugs.Proofs.Machine.Roles

/-!
# Turns of a machine

Every focus aims at a value or at a flow, and every frame awaits one of the two and then aims at one
of the two. What a step does to the stack and to the memory is one of a few turns: the machine goes
on with what is in focus, or it takes the innermost frame off the stack and goes on with that. Only
calls and loops come to stand on the stack together with a change of the memory, and only when they
are left is the change undone.
-/

namespace DrawingBugs

/-- What a focus comes to when no fault comes of it. -/
inductive Aim where
  | value
  | flow
  deriving DecidableEq

def Focus.aim? : Focus → Option Aim
  | .evaluate _ | .consult _ _ | .value _ => some .value
  | .fault _ => none
  | _ => some .flow

/-- Whether there is nothing left to do but to hand the focus to a frame. -/
def Focus.isResult : Focus → Bool
  | .value _ | .flow _ | .fault _ => true
  | _ => false

namespace Frame

def awaits : Frame → Aim
  | .guarded _ | .activation | .block _ | .list _ | .sections _ _ | .loop _ => .flow
  | _ => .value

def aim : Frame → Aim
  | .unary _ | .leftOperand _ | .rightOperand _ _ | .guard _ | .guarded _ | .argument _ _ _ _ _
  | .activation => .value
  | _ => .flow

def isActivation : Frame → Bool
  | .activation => true
  | _ => false

def isLoop : Frame → Bool
  | .loop _ => true
  | _ => false

theorem isActivation_of_awaits {frame : Frame} (h : frame.awaits = .value) :
    frame.isActivation = false := by
  cases frame <;> first | rfl | cases h

theorem isLoop_of_awaits {frame : Frame} (h : frame.awaits = .value) : frame.isLoop = false := by
  cases frame <;> first | rfl | cases h

end Frame

/-- Roles in which the body of a function need not be a statement like others. Whether there are
outlying trees tells whether a machine may come to what no body of a function holds: lists,
declarations, definitions of bugs, and cases that are used as expressions. -/
structure Manner extends Roles where
  body : Tree → Prop
  outlying : Prop

/-- What a frame holds of the activation that it belongs to is in its role. -/
def Frame.Offers (M : Manner) : Frame → Prop
  | .argument _ _ rest _ body => (∀ a ∈ rest, M.expression a) ∧ M.body body
  | .guard t => M.outlying ∧ M.Gives M.statement (t.part 1)
  | .guarded _ => M.outlying
  | .list rest => M.outlying ∧ ∀ c ∈ rest, M.statement c
  | .sections t rest => M.outlying ∧ ∀ i ∈ rest, M.Gives M.statement (t.part i)
  | frame => frame.Plays M.toRoles

def Focus.Offers (M : Manner) : Focus → Prop
  | .declare _ => M.outlying
  | focus => focus.Plays M.toRoles

namespace Manner

/-- The roles pass on to the parts that a machine takes. -/
structure Closed (M : Manner) : Prop where
  ordinary : ∀ e, e.isOrdinary → M.fault e
  expression : ∀ t, M.expression t → M.Evaluable t
  statement : ∀ t, M.statement t → M.Executable t
  case : ∀ t, M.case t → M.Gives M.expression (t.part 0) ∧ M.Gives M.statement (t.part 1)
  guards : ∀ t, M.expression t → t.kind = .keyword → M.outlying
  lists : ∀ t, M.statement t → t.text = "list" ∨ t.text = "var" ∨ t.text = "Bug" → M.outlying

/-- The body of every function that a call finds is in its role. -/
def Finds (M : Manner) (own shared : Table String Tree) : Prop :=
  ∀ t name f, M.expression t ∨ M.statement t → t.text = "call" → t.part 0 = .ok name →
    (own.get? name.text).or (shared.get? name.text) = some f →
      M.Comes (f.part 1) ∧ M.Gives M.body (f.part 2)

open Machine in
/-- How a machine can go on that aims at a result. -/
inductive GoesOn (M : Manner) : Aim → Machine → Machine → Prop
  | turn {a : Aim} {m : Machine} {focus : Focus} (haim : ∀ b ∈ focus.aim?, b = a)
    (hfocus : focus.Offers M) (hexit : focus = .flow .loopExit → 0 < m.memory.loopDepth) :
    GoesOn M a m (m.focusOn focus)
  | push {a : Aim} {m : Machine} {frame : Frame} {focus : Focus} (haim : frame.aim = a)
    (hawaits : focus.aim? = some frame.awaits) (hactivation : frame.isActivation = false)
    (hloop : frame.isLoop = false) (hbusy : focus.isResult = false) (hframe : frame.Offers M)
    (hfocus : focus.Offers M) : GoesOn M a m (m.push frame focus)
  | enter {m : Machine} {scope : Table String Float} {body : Tree} (hbody : M.body body) :
    GoesOn M .value m (m.enter scope body)
  | enterLoop {m : Machine} {t body : Tree} (ht : M.statement t) (htext : t.text = "loop")
    (hpart : t.part 0 = .ok body) (hbody : M.statement body) : GoesOn M .flow m (m.enterLoop body)
  | define {m : Machine} {name : String} {t : Tree} (ht : M.function t) :
    GoesOn M .flow m (m.defineFunction name t)
  /-- A call is made for its effects. -/
  | call {m m' : Machine} (h : GoesOn M .value { m with stack := .discard :: m.stack } m') :
    GoesOn M .flow m m'

/-- What a step can make of a machine. -/
inductive Turn (M : Manner) (m : Machine) : Machine → Prop
  | go {a : Aim} {m' : Machine} (haim : m.focus.aim? = some a) (hresult : m.focus.isResult = false)
    (h : M.GoesOn a m m') : Turn M m m'
  /-- A name is set in the innermost scope that binds it. -/
  | assign {name : String} {v : Float} {scopes : List (Table String Float)}
    (hm : m.focus = .store name v)
    (hscopes : Memory.setInScopes? name v m.memory.scopes = some scopes) :
    Turn M m { m with focus := .flow .normal, memory := { m.memory with scopes } }
  | answer {v : Float} {frame : Frame} {stack : List Frame} {m' : Machine} (hm : m.focus = .value v)
    (hstack : m.stack = frame :: stack) (hawaits : frame.awaits = .value)
    (h : M.GoesOn frame.aim { m with stack } m') : Turn M m m'
  | return {v : Float} {stack : List Frame} (hm : m.focus = .value v)
    (hstack : m.stack = .returning :: stack) :
    Turn M m ⟨.flow .returned, stack, { m.memory with returnValue := v }⟩
  | ignore {f : Flow} {frame : Frame} {stack : List Frame} {m' : Machine} (hm : m.focus = .flow f)
    (houtlying : M.outlying) (hstack : m.stack = frame :: stack)
    (hactivation : frame.isActivation = false) (hloop : frame.isLoop = false)
    (h : M.GoesOn frame.aim { m with stack } m') : Turn M m m'
  | next {rest : List Tree} {stack : List Frame} {m' : Machine} (hm : m.focus = .flow .normal)
    (hpending : m.memory.exitPending = false) (hstack : m.stack = .block rest :: stack)
    (h : M.GoesOn .flow { m with stack } m') : Turn M m m'
  /-- A pending exit ends a block. -/
  | exit {f : Flow} {rest : List Tree} {stack : List Frame} (hm : m.focus = .flow f)
    (hpending : m.memory.exitPending = true) (hstack : m.stack = .block rest :: stack) :
    Turn M m ⟨.flow .loopExit, stack, { m.memory with exitPending := false }⟩
  | skip {f : Flow} {rest : List Tree} {stack : List Frame} (hm : m.focus = .flow f)
    (hf : f ≠ .normal) (hpending : m.memory.exitPending = false)
    (hstack : m.stack = .block rest :: stack) : Turn M m { m with stack }
  | leave {f : Flow} {stack : List Frame} (hm : m.focus = .flow f)
    (hstack : m.stack = .activation :: stack) : Turn M m ({ m with stack }.afterBody f)
  | iterate {body : Tree} {stack : List Frame} (hm : m.focus = .flow .normal)
    (hstack : m.stack = .loop body :: stack) (hbody : M.statement body) :
    Turn M m (m.focusOn (.execute body))
  | endLoop {f : Flow} {body : Tree} {stack : List Frame} (hm : m.focus = .flow f) (hf : f ≠ .normal)
    (hstack : m.stack = .loop body :: stack) :
    Turn M m ({ m with stack }.leaveLoop.focusOn
      (.flow (if f = Flow.loopExit then Flow.normal else Flow.returned)))
  | unwind {e : Fault} {frame : Frame} {stack : List Frame} (hm : m.focus = .fault e)
    (hstack : m.stack = frame :: stack) : Turn M m ({ m with stack }.unwind frame)

variable {M : Manner} {m : Machine} {a : Aim}

private theorem GoesOn.fail {e : Fault} (h : M.fault e) : M.GoesOn a m (m.fail e) :=
  .turn (by simp [Focus.aim?]) h (by simp)

private theorem GoesOn.normal : M.GoesOn .flow m (m.focusOn (.flow .normal)) :=
  .turn (by simp [Focus.aim?]) trivial (by simp)

private theorem GoesOn.give {x : Except Fault Float} (hx : M.Comes x) :
    M.GoesOn .value m (m.give x) := by
  cases x with
  | ok v => exact .turn (by simp [Focus.aim?]) trivial (by simp)
  | error e => exact .fail hx

private theorem GoesOn.orFail {α : Type} {p : α → Prop} {x : Except Fault α}
    {f : α → Except Fault Machine} (hx : M.Gives p x)
    (hf : ∀ v, p v → M.GoesOn a m (m.orFail (f v))) : M.GoesOn a m (m.orFail (x >>= f)) := by
  cases x with
  | ok v => exact hf v hx
  | error e => exact .fail hx

private theorem GoesOn.nextArgument {parameters : List String} {rest : List Tree}
    {scope : Table String Float} {body : Tree} (hrest : ∀ t ∈ rest, M.expression t)
    (hbody : M.body body) : M.GoesOn .value m (m.nextArgument parameters rest scope body) := by
  unfold Machine.nextArgument
  split
  · rw [List.forall_mem_cons] at hrest
    exact .push rfl rfl rfl rfl rfl ⟨hrest.2, hbody⟩ hrest.1
  · exact .enter hbody

private theorem GoesOn.nextSection {t : Tree} {rest : List Nat}
    (houtlying : M.outlying) (hrest : ∀ i ∈ rest, M.Gives M.statement (t.part i)) :
    M.GoesOn .flow m (m.nextSection t rest) := by
  cases rest with
  | nil => exact .normal
  | cons i rest =>
    rw [List.forall_mem_cons] at hrest
    exact .orFail hrest.1 fun part hpart => .push rfl rfl rfl rfl rfl ⟨houtlying, hrest.2⟩ hpart

private theorem GoesOn.nextInList {rest : List Tree} (houtlying : M.outlying)
    (hrest : ∀ c ∈ rest, M.statement c) : M.GoesOn .flow m (m.nextInList rest) := by
  cases rest with
  | nil => exact .normal
  | cons c rest =>
    rw [List.forall_mem_cons] at hrest
    exact .push rfl rfl rfl rfl rfl ⟨houtlying, hrest.2⟩ hrest.1

private theorem GoesOn.nextInBlock {rest : List Tree} (hrest : ∀ c ∈ rest, M.statement c) :
    M.GoesOn .flow m (m.nextInBlock rest) := by
  cases rest with
  | nil => exact .normal
  | cons c rest =>
    rw [List.forall_mem_cons] at hrest
    exact .push rfl rfl rfl rfl rfl hrest.2 hrest.1

private theorem GoesOn.nextOperand {t : Tree} {done : List Float} {rest : List Tree}
    (ht : M.statement t) (haction : isAction t.text)
    (hcount : done.length + rest.length = t.children.length)
    (hrest : ∀ c ∈ rest, M.expression c) : M.GoesOn .flow m (m.nextOperand t done rest) := by
  cases rest with
  | nil => exact .turn (by simp [Focus.aim?]) ⟨ht, haction, hcount⟩ (by simp)
  | cons c rest =>
    rw [List.forall_mem_cons] at hrest
    rw [List.length_cons] at hcount
    exact .push rfl rfl rfl rfl rfl ⟨ht, haction, by omega, hrest.2⟩ hrest.1

variable (hM : M.Closed)
include hM

private theorem GoesOn.nextCase {rest : List Tree} (hrest : ∀ c ∈ rest, M.case c) :
    M.GoesOn .flow m (m.nextCase rest) := by
  cases rest with
  | nil => exact .normal
  | cons c rest =>
    rw [List.forall_mem_cons] at hrest
    obtain ⟨hguard, hbody⟩ := hM.case c hrest.1
    exact .orFail hguard fun guard hguard => .push rfl rfl rfl rfl rfl ⟨hbody, hrest.2⟩ hguard

/-! ## Calls and expressions -/

private theorem comes_locate (w : World) (name : String) : M.Comes (w.locate name) := by
  unfold World.locate
  split
  · trivial
  · exact hM.ordinary _ rfl

private theorem GoesOn.callBuiltIn (hasks : M.asks) (w : World) (name : String)
    (question : Question) (arguments : Tree) :
    M.GoesOn .value m (m.orFail (m.callBuiltIn w name question arguments)) := by
  dsimp only [Machine.callBuiltIn]
  split
  · exact .fail (hM.ordinary _ rfl)
  · next hcount =>
    have hpart : M.Comes (arguments.part 0) := by
      obtain ⟨bug, hbug⟩ := List.length_eq_one_iff.mp (Decidable.not_not.mp hcount)
      simp [Tree.part, Tree.child?, hbug, Roles.Gives]
    refine .orFail hpart fun bug _ => .orFail (comes_locate hM w bug.text) fun other _ => ?_
    exact .turn (by simp [Focus.aim?]) hasks (by simp)

private theorem GoesOn.callFunction {w : World} {name : String} {arguments : Tree}
    (hfound : ∀ f, (m.memory.functions.get? name).or (w.function? name) = some f →
      M.Comes (f.part 1) ∧ M.Gives M.body (f.part 2))
    (harguments : ∀ t ∈ arguments.children, M.expression t) :
    M.GoesOn .value m (m.orFail (m.callFunction w name arguments)) := by
  have hfunction : M.Gives (fun f => M.Comes (f.part 1) ∧ M.Gives M.body (f.part 2))
      (m.functionNamed w name) := by
    unfold Machine.functionNamed
    split
    · next f hf => exact hfound f hf
    · exact hM.ordinary _ rfl
  refine .orFail hfunction fun function hfunction => ?_
  refine .orFail hfunction.1 fun parameters _ => .orFail hfunction.2 fun body hbody => ?_
  dsimp only
  split
  · exact .fail (hM.ordinary _ rfl)
  · split
    · exact .fail (hM.ordinary _ rfl)
    · exact .nextArgument harguments hbody

private theorem GoesOn.callNode {w : World} (hfinds : M.Finds m.memory.functions w.functions)
    {t : Tree} (ht : M.expression t ∨ M.statement t) (htext : t.text = "call")
    (hcallable : M.Callable t) :
    M.GoesOn .value m (m.call w t) := by
  refine .orFail hcallable.1.self fun name hname => .orFail hcallable.2 fun arguments harguments => ?_
  split
  · next hbuiltIn => exact .callBuiltIn hM (hname.2 (.inl hbuiltIn)) w _ _ arguments
  · next hbuiltIn => exact .callBuiltIn hM (hname.2 (.inr hbuiltIn)) w _ _ arguments
  · exact .callFunction hM (fun f => hfinds t name f ht htext hname.1) harguments

private theorem comes_fetch (w : World) (seat : Nat) (memory : Memory) (name : String) :
    M.Comes (w.fetch seat memory name) := by
  simp only [World.fetch, Bug.builtIn]
  split
  · split
    · exact hM.ordinary _ rfl
    · trivial
  · split
    · trivial
    · exact hM.ordinary _ rfl

private theorem GoesOn.evaluateDot (w : World) {t : Tree}
    (ht : M.Comes (t.part 0) ∧ M.Comes (t.part 1) ∧ M.asks) :
    M.GoesOn .value m (m.evaluateDot w t) := by
  refine .orFail ht.1 fun bug _ => .orFail ht.2.1 fun name _ => ?_
  exact .orFail (comes_locate hM w bug.text) fun other _ => .turn (by simp [Focus.aim?]) ht.2.2 (by simp)

private theorem GoesOn.evaluate {w : World} (hfinds : M.Finds m.memory.functions w.functions)
    (seat : Nat) {t : Tree}
    (hexpression : M.expression t) : M.GoesOn .value m (m.evaluate w seat t) := by
  have ht := hM.expression t hexpression
  unfold Roles.Evaluable at ht
  simp only [Machine.evaluate]
  split <;> simp only [‹t.kind = _›] at ht
  · split
    · exact .turn (by simp [Focus.aim?]) trivial (by simp)
    · next hread => exact .fail (ht.resolve_left (by simp [hread]))
  · split
    · exact .give (comes_fetch hM w seat _ _)
    · next hchildren =>
      rw [if_neg (by simpa using hchildren)] at ht
      split
      · next htext =>
        exact .callNode hM hfinds (.inl hexpression) htext (by simpa only [if_pos htext] using ht)
      · next htext =>
        rw [if_neg htext] at ht
        exact .fail ht
  · next hkind =>
    split
    · next htext =>
      simp only [htext, if_true] at ht
      exact .orFail ht.1 fun guard hguard =>
        .push rfl rfl rfl rfl rfl ⟨hM.guards t hexpression hkind, ht.2⟩ hguard
    · next htext =>
      rw [if_neg htext] at ht
      exact .fail ht
  · split
    · next htext => exact .evaluateDot hM w (by simpa only [if_pos htext] using ht)
    · next htext =>
      rw [if_neg htext] at ht
      refine .orFail ht.1 fun first hfirst => ?_
      by_cases hone : t.children.length = 1
      · simp only [if_pos hone] at ht ⊢
        exact .push rfl rfl rfl rfl rfl ht.2 hfirst
      · simp only [if_neg hone] at ht ⊢
        exact .push rfl rfl rfl rfl rfl ht.2 hfirst
  · exact .fail ht
  · exact .fail ht

/-! ## Statements -/

private theorem comes_penColor (word : String) : M.Comes (Machine.penColor word) := by
  unfold Machine.penColor
  split
  · trivial
  · split
    · trivial
    · exact hM.ordinary _ rfl

private theorem GoesOn.perform {w : World} (hfinds : M.Finds m.memory.functions w.functions)
    {t : Tree} (ht : M.statement t) : M.GoesOn .flow m (m.perform w t) := by
  have hparts := hM.statement t ht
  unfold Roles.Executable at hparts
  unfold Machine.perform
  generalize htext : t.text = text at hparts ⊢
  split at hparts
  · exact .nextSection (hM.lists t ht (.inr (.inr htext))) hparts
  · exact .nextInList (hM.lists t ht (.inl htext)) hparts
  · exact .turn (by simp [Focus.aim?]) (hM.lists t ht (.inr (.inl htext))) (by simp)
  · exact .orFail hparts.1 fun name _ => .define hparts.2
  · cases hbody : t.child? 0 with
    | some body => exact .turn (by simp [Focus.aim?]) (hparts body hbody) (by simp)
    | none => exact .normal
  · exact .nextInBlock hparts
  · refine .orFail hparts.1 fun name hname => .orFail hparts.2 fun value hvalue => ?_
    exact .push rfl rfl rfl rfl rfl hname hvalue
  · exact .orFail hparts.self fun body hbody => .enterLoop ht htext hbody.1 hbody.2
  · exact .orFail hparts fun condition hcondition => .push rfl rfl rfl rfl rfl trivial hcondition
  · exact .nextCase hM hparts
  · exact .orFail hparts fun value hvalue => .push rfl rfl rfl rfl rfl trivial hvalue
  · have hcall := callNode (m := { m with stack := .discard :: m.stack }) hM hfinds (.inr ht) htext hparts
    exact .call hcall
  · refine .orFail hparts fun word _ => .orFail (comes_penColor hM word.text) fun color _ => ?_
    exact .turn (by simp [Focus.aim?]) trivial (by simp)
  · by_cases haction : isAction text
    · simp only [if_pos haction] at hparts ⊢
      exact .nextOperand ht (htext ▸ haction) (by simp) hparts.1
    · simp only [if_neg haction] at hparts ⊢
      exact .fail hparts

private theorem GoesOn.act (w : World) (seat : Nat) {t : Tree} {operands : List Float}
    (ht : M.statement t) (haction : isAction t.text)
    (hcount : operands.length = t.children.length) :
    M.GoesOn .flow m (m.act w seat t.text operands).1 := by
  have hresult := ((Roles.executable_iff_of_isAction haction).mp (hM.statement t ht)).2 (w.bug seat)
    operands hcount
  unfold Machine.act
  dsimp only
  split
  · exact .turn (by simp [Focus.aim?]) trivial (by simp)
  · exact .turn (by simp [Focus.aim?]) trivial (by simp)
  · next e _ he =>
    rw [he] at hresult
    exact .fail hresult

private theorem GoesOn.declare (houtlying : M.outlying) (w : World) (seat : Nat)
    (names : List String) : M.GoesOn .flow m (m.declare w seat names).1 := by
  cases names with
  | nil => exact .normal
  | cons name rest =>
    simp only [Machine.declare]
    split
    · exact .fail (hM.ordinary _ rfl)
    · exact .turn (by simp [Focus.aim?]) houtlying (by simp)

private theorem comes_answer (w : World) (seat other : Nat) (question : Question) :
    M.Comes (w.answer seat other question) := by
  cases question with
  | field bug name =>
    simp only [World.answer]
    split
    · trivial
    · exact hM.ordinary _ rfl
  | distance | direction => trivial

omit hM in
private theorem GoesOn.await {permit : Permit} (hm : m.focus = .await)
    (hhalt : permit = .halted → M.fault .halted) : M.GoesOn .flow m (m.await permit) := by
  cases permit with
  | granted => exact .normal
  | halted => exact .fail (hhalt rfl)
  | waiting =>
    have hsame : m = m.focusOn .await := by rw [Machine.focusOn, ← hm]
    rw [Machine.await, hsame]
    exact .turn (by simp [Focus.aim?]) trivial (by simp)

/-! ## Resumption -/

private theorem Turn.answers {v : Float} {frame : Frame} {stack : List Frame}
    (hm : m.focus = .value v) (hstack : m.stack = frame :: stack) (hawaits : frame.awaits = .value)
    (hframe : frame.Offers M) :
    M.Turn m ({ m with stack }.resumeValue v frame) := by
  by_cases hreturning : frame = .returning
  · subst hreturning
    exact .return hm hstack
  refine .answer hm hstack hawaits ?_
  cases frame with
  | unary operator => exact .give (hframe v)
  | leftOperand t =>
    exact .orFail hframe.1 fun second hsecond => .push rfl rfl rfl rfl rfl hframe.2 hsecond
  | rightOperand operator left => exact .give (hframe left v)
  | guard case =>
    simp only [Machine.resumeValue, Machine.afterGuard]
    split
    · exact .orFail hframe.2 fun body hbody => .push rfl rfl rfl rfl rfl hframe.1 hbody
    · exact .turn (by simp [Focus.aim?, Frame.aim]) trivial (by simp)
  | switchGuard case rest =>
    simp only [Machine.resumeValue, Machine.afterSwitchGuard]
    split
    · exact .orFail hframe.1 fun body hbody => .turn (by simp [Focus.aim?, Frame.aim]) hbody (by simp)
    · exact .nextCase hM hframe.2
  | argument parameter parameters rest scope body => exact .nextArgument hframe.1 hframe.2
  | operand t done rest =>
    obtain ⟨ht, haction, hcount, hrest⟩ := hframe
    exact .nextOperand ht haction (by simpa using hcount) hrest
  | assign name => exact .turn (by simp [Focus.aim?, Frame.aim]) hframe (by simp)
  | discard => exact .turn (by simp [Focus.aim?, Frame.aim]) trivial (by simp)
  | exitIf =>
    refine .turn (by simp [Focus.aim?, Frame.aim]) trivial fun hexit => ?_
    split at hexit
    · next hfires => exact hfires.2
    · cases hexit
  | returning => exact absurd rfl hreturning
  | guarded | activation | block | list | sections | loop => cases hawaits

omit hM in
private theorem Turn.flows {f : Flow} {frame : Frame} {stack : List Frame} (hm : m.focus = .flow f)
    (hstack : m.stack = frame :: stack) (hawaits : frame.awaits = .flow) (hframe : frame.Offers M) :
    M.Turn m ({ m with stack }.resumeFlow f frame) := by
  cases frame with
  | guarded guard =>
    exact .ignore hm hframe hstack rfl rfl (.turn (by simp [Focus.aim?, Frame.aim]) trivial (by simp))
  | activation => exact .leave hm hstack
  | block rest =>
    cases hpending : m.memory.exitPending with
    | true =>
      simp only [Machine.resumeFlow, Machine.afterInBlock, hpending, if_true]
      exact .exit hm hpending hstack
    | false =>
      have hmemory : { m.memory with exitPending := false } = m.memory := by rw [← hpending]
      simp only [Machine.resumeFlow, Machine.afterInBlock, hpending, hmemory]
      cases f with
      | normal => exact .next hm hpending hstack (.nextInBlock hframe)
      | returned | loopExit =>
        simp only [Bool.false_eq_true, if_false, Machine.focusOn, ← hm]
        exact .skip hm (by simp) hpending hstack
  | list rest => exact .ignore hm hframe.1 hstack rfl rfl (.nextInList hframe.1 hframe.2)
  | sections t rest => exact .ignore hm hframe.1 hstack rfl rfl (.nextSection hframe.1 hframe.2)
  | loop body =>
    cases f with
    | normal =>
      have hsame : { m with stack }.resumeFlow .normal (.loop body) = m.focusOn (.execute body) := by
        simp [Machine.resumeFlow, Machine.afterIteration, Machine.iterate, Machine.push,
          Machine.focusOn, hstack]
      rw [hsame]
      exact .iterate hm hstack hframe
    | loopExit => exact .endLoop hm (by simp) hstack
    | returned => exact .endLoop hm (by simp) hstack
  | _ => cases hawaits

/-! ## Steps -/

private theorem Turn.store {w : World} {seat : Nat} {name : String} {v : Float}
    (hm : m.focus = .store name v) : M.Turn m (m.store w seat name v).1 := by
  have hgo {m' : Machine} (h : M.GoesOn .flow m m') : M.Turn m m' :=
    .go (by rw [hm]; rfl) (by rw [hm]; rfl) h
  have hdone : M.Turn m (m.focusOn (.flow .normal)) := hgo .normal
  simp only [Machine.store, World.store]
  by_cases hbuiltIn : isBuiltIn name
  · simp only [if_pos hbuiltIn]
    exact hdone
  simp only [if_neg hbuiltIn]
  cases hlocal : m.memory.setLocal? name v with
  | some memory =>
    obtain ⟨scopes, hscopes, rfl⟩ := Option.map_eq_some_iff.mp hlocal
    exact .assign hm hscopes
  | none =>
    cases (w.setOwn? seat name v).or (w.setGlobal? name v) with
    | some w' => exact hdone
    | none => exact hgo (.fail (hM.ordinary _ rfl))

/-- **Turn.** A step of a machine is a turn, if what it works on is in its role and the innermost
frame awaits the result that is in focus. -/
theorem step_turn (seat : Nat) (s : Shared) (hfocus : m.focus.Offers M)
    (hfinds : M.Finds m.memory.functions s.world.functions)
    (hhalt : s.barrier.killed → M.fault .halted)
    (hready : m.focus.isResult → ∃ frame stack, m.stack = frame :: stack ∧
      (∀ a ∈ m.focus.aim?, frame.awaits = a) ∧ frame.Offers M) :
    M.Turn m (m.step seat s).1 := by
  have hgo {a : Aim} {m' : Machine} (haim : m.focus.aim? = some a)
      (hresult : m.focus.isResult = false) (h : M.GoesOn a m m') : M.Turn m m' :=
    .go haim hresult h
  unfold Machine.step
  cases hm : m.focus <;> rw [hm] at hfocus hready hgo
  case evaluate t => exact hgo rfl rfl (.evaluate hM hfinds seat hfocus)
  case execute t =>
    refine hgo rfl rfl ?_
    dsimp only
    split
    · next hkilled => exact .fail (hhalt hkilled)
    · exact .turn (by simp [Focus.aim?]) hfocus (by simp)
  case perform t => exact hgo rfl rfl (.perform hM hfinds hfocus)
  case consult other question => exact hgo rfl rfl (.give (comes_answer hM _ _ _ _))
  case declare names => exact hgo rfl rfl (.declare hM hfocus s.world seat names)
  case store name v => exact .store hM hm
  case act t operands =>
    obtain ⟨ht, haction, hcount⟩ := hfocus
    exact hgo rfl rfl (.act hM s.world seat ht haction hcount)
  case await => exact hgo rfl rfl (.await hm fun hpermit => hhalt (Barrier.killed_of_halted hpermit))
  case paint | draw | park => exact hgo rfl rfl (.turn (by simp [Focus.aim?]) trivial (by simp))
  case value v =>
    obtain ⟨frame, stack, hstack, hawaits, hframe⟩ := hready rfl
    simp only [Machine.resume, hstack]
    exact .answers hM hm hstack (hawaits _ rfl) hframe
  case flow f =>
    obtain ⟨frame, stack, hstack, hawaits, hframe⟩ := hready rfl
    simp only [Machine.resume, hstack]
    exact .flows hm hstack (hawaits _ rfl) hframe
  case fault e =>
    obtain ⟨frame, stack, hstack, -, -⟩ := hready rfl
    simp only [Machine.resume, hstack]
    exact .unwind hm hstack

end Manner

/-! ## Machines that work on trees in their roles -/

/-- The roles as a manner in which the body of a function is a statement and any tree may come. -/
def Roles.manner (R : Roles) : Manner := ⟨R, R.statement, True⟩

section

variable {R : Roles}

theorem Roles.Closed.manner (hR : R.Closed) : R.manner.Closed where
  ordinary := hR.ordinary
  expression := hR.expression
  statement := hR.statement
  case := hR.case
  guards _ _ _ := trivial
  lists _ _ _ := trivial

theorem Roles.Closed.finds (hR : R.Closed) {own shared : Table String Tree} (hown : R.Functions own)
    (hshared : R.Functions shared) : R.manner.Finds own shared := by
  intro t name f _ _ _ hf
  rcases Option.or_eq_some_iff.mp hf with hf | ⟨-, hf⟩
  · exact hR.function f (hown _ f hf)
  · exact hR.function f (hshared _ f hf)

private theorem Focus.offers_manner_iff {focus : Focus} :
    focus.Offers R.manner ↔ focus.Plays R := by
  cases focus <;> exact Iff.rfl

private theorem Frame.offers_manner_iff {frame : Frame} :
    frame.Offers R.manner ↔ frame.Plays R := by
  cases frame with
  | guard | list | sections => exact and_iff_right trivial
  | _ => exact Iff.rfl

private theorem Manner.GoesOn.defines {M : Manner} {a : Aim} {m m' : Machine} (h : M.GoesOn a m m')
    (hm : M.Functions m.memory.functions) : M.Functions m'.memory.functions := by
  induction h with
  | turn | push | enter | enterLoop => exact hm
  | call _ ih => exact ih hm
  | define ht =>
    intro called f hf
    simp only [Machine.defineFunction, Table.get?_insert] at hf
    split at hf
    · cases hf
      exact ht
    · exact hm called f hf

theorem Manner.Turn.defines {M : Manner} {m m' : Machine} (h : M.Turn m m')
    (hm : M.Functions m.memory.functions) : M.Functions m'.memory.functions := by
  cases h with
  | go _ _ h => exact h.defines hm
  | answer _ _ _ h => exact h.defines hm
  | ignore _ _ _ _ _ h => exact h.defines hm
  | next _ _ _ h => exact h.defines hm
  | @unwind e frame => cases frame <;> exact hm
  | assign | «return» | exit | skip | leave | iterate | endLoop => exact hm

private theorem Manner.GoesOn.plays {a : Aim} {m m' : Machine} (h : R.manner.GoesOn a m m')
    (hm : m.Plays R) : m'.Plays R := by
  induction h with
  | turn _ hfocus _ => exact ⟨Focus.offers_manner_iff.mp hfocus, hm.stack, hm.functions⟩
  | push _ _ _ _ _ hframe hfocus =>
    exact ⟨Focus.offers_manner_iff.mp hfocus,
      List.forall_mem_cons.mpr ⟨Frame.offers_manner_iff.mp hframe, hm.stack⟩, hm.functions⟩
  | enter hbody => exact ⟨hbody, List.forall_mem_cons.mpr ⟨trivial, hm.stack⟩, hm.functions⟩
  | enterLoop _ _ _ hbody => exact ⟨hbody, List.forall_mem_cons.mpr ⟨hbody, hm.stack⟩, hm.functions⟩
  | define ht => exact ⟨trivial, hm.stack, (Manner.GoesOn.define (M := R.manner) ht).defines hm.functions⟩
  | call _ ih => exact ih ⟨hm.focus, List.forall_mem_cons.mpr ⟨trivial, hm.stack⟩, hm.functions⟩

private theorem Machine.Plays.pop {m : Machine} {frame : Frame} {stack : List Frame}
    (hm : m.Plays R) (hstack : m.stack = frame :: stack) : Machine.Plays R { m with stack } := by
  have hframes := hm.stack
  rw [hstack] at hframes
  exact ⟨hm.focus, fun inner hinner => hframes inner (List.mem_cons_of_mem _ hinner), hm.functions⟩

private theorem Manner.Turn.plays {m m' : Machine} (h : R.manner.Turn m m') (hm : m.Plays R) :
    m'.Plays R := by
  cases h with
  | go _ _ h => exact h.plays hm
  | assign => exact ⟨trivial, hm.stack, hm.functions⟩
  | answer _ hstack _ h => exact h.plays (hm.pop hstack)
  | ignore _ _ hstack _ _ h => exact h.plays (hm.pop hstack)
  | next _ _ hstack h => exact h.plays (hm.pop hstack)
  | «return» _ hstack => exact ⟨trivial, (hm.pop hstack).stack, hm.functions⟩
  | exit _ _ hstack => exact ⟨trivial, (hm.pop hstack).stack, hm.functions⟩
  | skip _ _ _ hstack => exact hm.pop hstack
  | leave _ hstack => exact ⟨trivial, (hm.pop hstack).stack, hm.functions⟩
  | iterate _ _ hbody => exact ⟨hbody, hm.stack, hm.functions⟩
  | endLoop _ _ hstack => exact ⟨trivial, (hm.pop hstack).stack, hm.functions⟩
  | @unwind e frame stack _ hstack =>
    have hpop := hm.pop hstack
    cases frame <;> exact ⟨hpop.focus, hpop.stack, hpop.functions⟩

private theorem Machine.resumeValue_of_awaits {m : Machine} {frame : Frame}
    (h : frame.awaits = .flow) (v : Float) : m.resumeValue v frame = m := by
  cases frame <;> first | rfl | cases h

private theorem Machine.resumeFlow_of_awaits {m : Machine} {frame : Frame}
    (h : frame.awaits = .value) (f : Flow) : m.resumeFlow f frame = m := by
  cases frame <;> first | rfl | cases h

private theorem Machine.step_of_not_awaited {m : Machine} (hresult : m.focus.isResult)
    (hawaits : ∀ frame stack, m.stack = frame :: stack → ∃ a ∈ m.focus.aim?, frame.awaits ≠ a)
    (seat : Nat) (s : Shared) : (m.step seat s).1 = { m with stack := m.stack.tail } := by
  obtain ⟨focus, stack, memory⟩ := m
  cases stack with
  | nil => cases focus <;> first | rfl | cases hresult
  | cons frame stack =>
    obtain ⟨a, haim, hother⟩ := hawaits frame stack rfl
    cases focus with
    | value v =>
      cases haim
      refine resumeValue_of_awaits ?_ v
      cases hframe : frame.awaits with
      | value => exact absurd hframe hother
      | flow => rfl
    | flow f =>
      cases haim
      refine resumeFlow_of_awaits ?_ f
      cases hframe : frame.awaits with
      | value => rfl
      | flow => exact absurd hframe hother
    | fault e => cases haim
    | _ => cases hresult

end

/-- **Step.** A step of a machine takes only trees that are in their roles; a halt comes of it only
after a kill. -/
theorem Machine.Plays.step {R : Roles} (hR : R.Closed) {m : Machine} (h : m.Plays R) (seat : Nat)
    (s : Shared) (hs : R.Functions s.world.functions) (hhalt : s.barrier.killed → R.fault .halted) :
    (m.step seat s).1.Plays R := by
  by_cases hready : m.focus.isResult → ∃ frame stack, m.stack = frame :: stack ∧
      ∀ a ∈ m.focus.aim?, frame.awaits = a
  · refine (Manner.step_turn hR.manner seat s (Focus.offers_manner_iff.mpr h.focus)
      (hR.finds h.functions hs) hhalt fun hresult => ?_).plays h
    obtain ⟨frame, stack, hstack, hawaits⟩ := hready hresult
    have hframe := h.stack frame (by simp [hstack])
    exact ⟨frame, stack, hstack, hawaits, Frame.offers_manner_iff.mpr hframe⟩
  · simp only [Classical.not_imp, not_exists, not_and, Classical.not_forall] at hready
    rw [step_of_not_awaited hready.1 hready.2]
    exact ⟨h.focus, fun frame hframe => h.stack frame (List.mem_of_mem_tail hframe), h.functions⟩

end DrawingBugs
