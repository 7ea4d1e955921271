import DrawingBugs.Proofs.Machine.Moves

/-!
# The roles of trees

A machine takes every tree that it evaluates or executes from another one that it works on, or from
a function. What holds of the trees in each role and passes on to the parts that are taken from
them holds of all trees that a machine ever works on, and of the faults that come of them.
-/

namespace DrawingBugs

theorem Barrier.killed_of_halted {b : Barrier} {id : Nat} (h : b.permit id = .halted) : b.killed := by
  unfold Barrier.permit at h
  split at h
  · assumption
  · split at h <;> cases h

/-- Whether a fault is neither a halt nor one in the shape of a tree. -/
def Fault.isOrdinary : Fault → Bool
  | .malformed _ | .halted => false
  | _ => true

/-- Which trees may be evaluated, executed, chosen by a switch and called, which names may be
read and which assigned to, whether other bugs may be asked, and which faults may come of all
that. -/
structure Roles where
  expression : Tree → Prop
  statement : Tree → Prop
  case : Tree → Prop
  function : Tree → Prop
  source : String → Prop
  target : String → Prop
  asks : Prop
  fault : Fault → Prop

namespace Roles

variable (R : Roles)

/-- A result has the property, or else the fault is one that may arise. -/
def Gives {α : Type} (p : α → Prop) : Except Fault α → Prop
  | .ok a => p a
  | .error e => R.fault e

/-- Some result, or a fault that may arise. -/
abbrev Comes {α : Type} (x : Except Fault α) : Prop := R.Gives (fun _ => True) x

/-- What the call of a function takes from its node; the built-in functions ask another bug. -/
def Callable (t : Tree) : Prop :=
  R.Gives (fun name => name.text = "distance" ∨ name.text = "direction" → R.asks) (t.part 0) ∧
    R.Gives (fun arguments => ∀ a ∈ arguments.children, R.expression a) (t.part 1)

/-- What the evaluation of an expression takes from it. -/
def Evaluable (t : Tree) : Prop :=
  let refused := R.fault (.malformed (.notAnExpression t.text))
  match t.kind with
  | .number => (Number.read? t.text).isSome ∨ R.fault (.malformed (.badNumber t.text))
  | .name =>
    if t.children = [] then R.source t.text
    else if t.text = "call" then R.Callable t
    else refused
  | .keyword =>
    if t.text = "case" then
      R.Gives R.expression (t.part 0) ∧ R.Gives R.statement (t.part 1)
    else refused
  | .symbol =>
    if t.text = "." then R.Comes (t.part 0) ∧ R.Comes (t.part 1) ∧ R.asks
    else
      R.Gives R.expression (t.part 0) ∧
        if t.children.length = 1 then ∀ v, R.Comes (unaryValue t.text v)
        else R.Gives R.expression (t.part 1) ∧ ∀ a b, R.Comes (binaryValue t.text a b)
  | .endOfLine | .endOfInput => refused

/-- What the execution of a statement takes from it. -/
def Executable (t : Tree) : Prop :=
  match t.text with
  | "Bug" => ∀ i ∈ Machine.sectionOrder, R.Gives R.statement (t.part i)
  | "list" => ∀ c ∈ t.children, R.statement c
  | "var" => True
  | "function" => R.Comes (t.part 0) ∧ R.function t
  | "initially" => ∀ c ∈ t.child? 0, R.statement c
  | "block" => ∀ c ∈ t.children, R.statement c
  | "assign" =>
    R.Gives (fun name => R.target name.text) (t.part 0) ∧ R.Gives R.expression (t.part 1)
  | "loop" => R.Gives R.statement (t.part 0)
  | "exit" => R.Gives R.expression (t.part 0)
  | "switch" => ∀ c ∈ t.children, R.case c
  | "return" => R.Gives R.expression (t.part 0)
  | "call" => R.Callable t
  | "color" => R.Comes (t.part 0)
  | text =>
    if isAction text then
      (∀ c ∈ t.children, R.expression c) ∧ ∀ (b : Bug) (operands : List Float),
        operands.length = t.children.length → R.Comes (b.act text operands).2
    else R.fault (.malformed (.notAStatement text))

/-- The roles pass on to the parts that a machine takes, and allow all faults but a halt and those
in the shape of a tree. -/
structure Closed : Prop where
  ordinary : ∀ e, e.isOrdinary → R.fault e
  expression : ∀ t, R.expression t → R.Evaluable t
  statement : ∀ t, R.statement t → R.Executable t
  case : ∀ t, R.case t → R.Gives R.expression (t.part 0) ∧ R.Gives R.statement (t.part 1)
  function : ∀ t, R.function t → R.Comes (t.part 1) ∧ R.Gives R.statement (t.part 2)

variable {R}

theorem Gives.bind {α β : Type} {p : α → Prop} {q : β → Prop} {x : Except Fault α}
    {f : α → Except Fault β} (hx : R.Gives p x) (hf : ∀ a, p a → R.Gives q (f a)) :
    R.Gives q (x >>= f) := by
  cases x with
  | ok a => exact hf a hx
  | error e => exact hx

theorem Gives.imp {α : Type} {p q : α → Prop} {x : Except Fault α} (h : R.Gives p x)
    (hpq : ∀ a, p a → q a) : R.Gives q x := by
  cases x with
  | ok a => exact hpq a h
  | error e => exact h

theorem Gives.ok {α : Type} {p : α → Prop} {x : Except Fault α} {a : α} (h : R.Gives p x)
    (hx : x = .ok a) : p a := by
  subst hx
  exact h

theorem Gives.self {α : Type} {p : α → Prop} {x : Except Fault α} (h : R.Gives p x) :
    R.Gives (fun a => x = .ok a ∧ p a) x := by
  cases x with
  | ok a => exact ⟨rfl, h⟩
  | error e => exact h

/-- What a visible action takes from its node: its operands, and as many of them as it needs. -/
theorem executable_iff_of_isAction {t : Tree} (haction : isAction t.text) :
    R.Executable t ↔ (∀ c ∈ t.children, R.expression c) ∧ ∀ (b : Bug) (operands : List Float),
      operands.length = t.children.length → R.Comes (b.act t.text operands).2 := by
  unfold Executable
  split
  case h_14 => rw [if_pos haction]
  -- The words of the other statements are no actions.
  all_goals
    rw [‹t.text = _›] at haction
    cases haction

end Roles

def Focus.Plays (R : Roles) : Focus → Prop
  | .evaluate t => R.expression t
  | .execute t | .perform t => R.statement t
  | .consult _ _ => R.asks
  | .store name _ => R.target name
  | .act t operands => R.statement t ∧ isAction t.text ∧ operands.length = t.children.length
  | .fault e => R.fault e
  | _ => True

def Frame.Plays (R : Roles) : Frame → Prop
  | .unary operator => ∀ v, R.Comes (unaryValue operator v)
  | .leftOperand t => R.Gives R.expression (t.part 1) ∧ ∀ a b, R.Comes (binaryValue t.text a b)
  | .rightOperand operator _ => ∀ a b, R.Comes (binaryValue operator a b)
  | .guard t => R.Gives R.statement (t.part 1)
  | .switchGuard t rest => R.Gives R.statement (t.part 1) ∧ ∀ c ∈ rest, R.case c
  | .argument _ _ rest _ body => (∀ a ∈ rest, R.expression a) ∧ R.statement body
  | .assign name => R.target name
  | .operand t done rest =>
    R.statement t ∧ isAction t.text ∧ done.length + 1 + rest.length = t.children.length ∧
      ∀ a ∈ rest, R.expression a
  | .block rest | .list rest => ∀ c ∈ rest, R.statement c
  | .sections t rest => ∀ i ∈ rest, R.Gives R.statement (t.part i)
  | .loop body => R.statement body
  | _ => True

/-- All functions of a table are in their role. -/
def Roles.Functions (R : Roles) (functions : Table String Tree) : Prop :=
  ∀ name f, functions.get? name = some f → R.function f

namespace Machine

variable {R : Roles} {m : Machine}

/-- All that a machine works on is in its role. -/
structure Plays (R : Roles) (m : Machine) : Prop where
  focus : m.focus.Plays R
  stack : ∀ frame ∈ m.stack, frame.Plays R
  functions : R.Functions m.memory.functions

end Machine

end DrawingBugs
