import DrawingBugs.Proofs.Grammar.Shapes
import DrawingBugs.Proofs.Machine.Stacks

/-!
# Trees of any shape, and trees that were read from a text

A machine may come to any tree in any role. In what was read from a text, a function is made of
blocks of commands alone, and commands of expressions.
-/

namespace DrawingBugs

/-- Every function that a call finds was read from a text. -/
def FindsWritten (own shared : Table String Tree) : Prop :=
  ∀ name f, (own.get? name).or (shared.get? name) = some f → f.IsFunction

theorem findsWritten_of_mem {own shared : Table String Tree} (hown : ∀ entry ∈ own, entry.2.IsFunction)
    (hshared : ∀ entry ∈ shared, entry.2.IsFunction) : FindsWritten own shared := by
  intro name f hf
  rcases Option.or_eq_some_iff.mp hf with hf | ⟨-, hf⟩
  · exact hown _ (Table.mem_of_get?_eq_some hf)
  · exact hshared _ (Table.mem_of_get?_eq_some hf)

/-! ## Shapes and roles -/

namespace Tree

private theorem isAction_of_operandCount? {word : String} (h : (operandCount? word).isSome) :
    isAction word := by
  unfold operandCount? at h
  split at h
  case h_6 => cases h
  all_goals rfl

/-- Parts of a tree, and parts of those. -/
def Reaches (t c : Tree) : Prop := c ∈ t.children ∨ ∃ d ∈ t.children, c ∈ d.children

end Tree

namespace Roles

open DrawingBugs.Tree

/-- What a tree is made of is in the role of its shape, all names are, and others may be asked. -/
structure Welcomes (R : Roles) (t : Tree) : Prop where
  expression : ∀ c, t.Reaches c → c.IsExpression → R.expression c
  block : ∀ c ∈ t.children, c.IsBlock → R.statement c
  case : ∀ c ∈ t.children, c.IsCase → R.case c
  source : ∀ name, R.source name
  target : ∀ name, R.target name
  asks : R.asks

variable {R : Roles} {t : Tree}

private theorem comes_unaryValue {operator : String} (h : operator = "+" ∨ operator = "-")
    (v : Float) : R.Comes (unaryValue operator v) := by
  rcases h with rfl | rfl <;> trivial

private theorem comes_binaryValue {operator : String} (h : operator ∈ binaryOperators)
    (a b : Float) : R.Comes (binaryValue operator a b) := by
  simp only [binaryOperators, List.mem_cons, List.not_mem_nil, or_false] at h
  rcases h with rfl | rfl | rfl | rfl | rfl | rfl | rfl | rfl | rfl | rfl <;> trivial

private theorem comes_act {word : String} {count : Nat} (hcount : operandCount? word = some count)
    (b : Bug) (operands : List Float) (hoperands : operands.length = count) :
    R.Comes (b.act word operands).2 := by
  unfold operandCount? at hcount
  split at hcount <;> cases hcount
  case h_2 =>
    match operands, hoperands with
    | [_, _], _ => trivial
  case h_5 =>
    match operands, hoperands with
    | [_, _, _, _], _ => trivial
  all_goals
    match operands, hoperands with
    | [_], _ => trivial

private theorem Welcomes.call {name : Token} {arguments : List Tree}
    (h : R.Welcomes (.labeled "call" [.leaf name, .labeled "var" arguments]))
    (harguments : ∀ a ∈ arguments, IsExpression a) :
    R.Callable (.labeled "call" [.leaf name, .labeled "var" arguments]) := by
  refine ⟨fun _ => h.asks, fun a ha => h.expression a (.inr ⟨_, ?_, ha⟩) (harguments a ha)⟩
  simp [labeled]

theorem Welcomes.evaluable (h : R.Welcomes t) (ht : t.IsExpression) : R.Evaluable t := by
  have hpart (c : Tree) (hc : c ∈ t.children) := h.expression c (.inl hc)
  cases ht with
  | number hkind hread =>
    simp only [Evaluable, leaf, kind_node, hkind]
    exact .inl hread
  | name hkind =>
    simp only [Evaluable, leaf, kind_node, hkind]
    exact h.source _
  | field hkind htext =>
    simp only [Evaluable, kind_node, hkind, text_node, htext, if_true]
    exact ⟨trivial, trivial, h.asks⟩
  | @unary sign operand hkind htext hoperand =>
    have hdot : sign.text ≠ "." := by rcases htext with h | h <;> simp [h]
    simp only [Evaluable, kind_node, hkind, text_node, if_neg hdot, children_node,
      List.length_singleton, if_true]
    exact ⟨hpart operand (by simp) hoperand, comes_unaryValue htext⟩
  | @binary operator left right hkind htext hleft hright =>
    have hdot : (node operator [left, right]).text ≠ "." := by
      rw [text_node]
      intro h
      simp [binaryOperators, h] at htext
    simp only [Evaluable, kind_node, hkind]
    rw [if_neg hdot]
    exact ⟨hpart left (by simp) hleft, hpart right (by simp) hright, comes_binaryValue htext⟩
  | call harguments => exact h.call harguments

theorem Welcomes.executable (h : R.Welcomes t) (ht : t.IsCommand) : R.Executable t := by
  have hpart (c : Tree) (hc : c ∈ t.children) := h.expression c (.inl hc)
  cases ht with
  | @action word operands hcount hoperands =>
    have haction : isAction (node word operands).text :=
      isAction_of_operandCount? (Option.isSome_of_eq_some hcount)
    exact (executable_iff_of_isAction haction).mpr
      ⟨fun c hc => hpart c hc (hoperands c hc), comes_act hcount⟩
  | assign _ hvalue => exact ⟨h.target _, hpart _ (by simp [labeled]) hvalue⟩
  | loop htext hbody =>
    simp only [Executable, text_node, htext]
    exact h.block _ (by simp) (.block hbody)
  | exit htext hcondition =>
    simp only [Executable, text_node, htext]
    exact hpart _ (by simp) hcondition
  | switch htext hcases =>
    simp only [Executable, text_node, htext]
    exact fun c hc => h.case c hc (hcases c hc)
  | leave htext hvalue =>
    simp only [Executable, text_node, htext]
    exact hpart _ (by simp) hvalue
  | call harguments => exact h.call harguments
  | color htext =>
    simp only [Executable, text_node, htext]
    exact trivial

end Roles

namespace Roles

/-- All trees that have some property, in all roles. -/
def all (P : Tree → Prop) : Roles where
  expression := P
  statement := P
  case := P
  function := P
  source _ := True
  target _ := True
  asks := True
  fault _ := True

variable {P : Tree → Prop}

private theorem all_comes {α : Type} {x : Except Fault α} : (all P).Comes x := by
  cases x <;> trivial

variable (hP : ∀ t, P t → ∀ c ∈ t.children, P c)
include hP

private theorem all_part {t : Tree} (h : P t) (i : Nat) : (all P).Gives P (t.part i) := by
  cases hpart : t.part i with
  | ok c => exact hP t h c (List.mem_of_getElem? (Tree.part_eq_ok.mp hpart))
  | error e => trivial

private theorem all_callable {t : Tree} (h : P t) : (all P).Callable t :=
  ⟨all_comes.imp fun _ _ _ => trivial, (all_part hP h 1).imp fun _ ht => hP _ ht⟩

private theorem all_evaluable {t : Tree} (h : P t) : (all P).Evaluable t := by
  unfold Evaluable
  dsimp only
  split
  · exact .inr trivial
  · split
    · trivial
    · split
      · exact all_callable hP h
      · trivial
  · split
    · exact ⟨all_part hP h 0, all_part hP h 1⟩
    · trivial
  · split
    · exact ⟨all_comes, all_comes, trivial⟩
    · refine ⟨all_part hP h 0, ?_⟩
      split
      · exact fun _ => all_comes
      · exact ⟨all_part hP h 1, fun _ _ => all_comes⟩
  · trivial
  · trivial

private theorem all_executable {t : Tree} (h : P t) : (all P).Executable t := by
  unfold Executable
  split
  · exact fun i _ => all_part hP h i
  · exact hP t h
  · trivial
  · exact ⟨all_comes, h⟩
  · exact fun c hc => hP t h c (List.mem_of_getElem? hc)
  · exact hP t h
  · exact ⟨all_comes.imp fun _ _ => trivial, all_part hP h 1⟩
  · exact all_part hP h 0
  · exact all_part hP h 0
  · exact hP t h
  · exact all_part hP h 0
  · exact all_callable hP h
  · exact all_comes
  · split
    · exact ⟨hP t h, fun _ _ _ => all_comes⟩
    · trivial

theorem all_closed : (all P).Closed where
  ordinary _ _ := trivial
  expression _ h := all_evaluable hP h
  statement _ h := all_executable hP h
  case _ h := ⟨all_part hP h 0, all_part hP h 1⟩
  function _ h := ⟨all_comes, all_part hP h 2⟩

end Roles

namespace Manner

open DrawingBugs.Tree

/-- All trees in all roles. -/
def any : Manner where
  expression _ := True
  statement _ := True
  case _ := True
  function _ := True
  source _ := True
  target _ := True
  asks := True
  fault _ := True
  body _ := True
  outlying := True

private theorem everything_closed : (Roles.all fun _ => True).Closed :=
  Roles.all_closed fun _ _ _ _ => trivial

private theorem any_closed : any.Closed := everything_closed.manner

private theorem any_finds (own shared : Table String Tree) : any.Finds own shared :=
  everything_closed.finds (fun _ _ _ => trivial) fun _ _ _ => trivial

theorem any_turn {base : List Frame} {last : Aim} {m : Machine} (hworks : any.Works base last m)
    (hbusy : ¬ m.Returned base) (seat : Nat) (s : Shared) :
    any.Turn m (m.step seat s).1 ∧ any.Works base last (m.step seat s).1 := by
  have hbase (hresult : m.focus.isResult) : m.stack ≠ base := fun hstack => hbusy ⟨hstack, hresult⟩
  have hturn := hworks.turn any_closed hbase seat s (any_finds _ _) fun _ => trivial
  exact ⟨hturn, hworks.turned hturn hbase fun _ _ => trivial⟩

theorem any_runs {seat : Nat} {env : Shared → Shared → Prop} {base : List Frame} {last : Aim}
    {c d : Machine × Shared} (hrun : Machine.Runs seat env base c d)
    (hworks : any.Works base last c.1) : any.Works base last d.1 :=
  hrun.invariant (P := fun c => any.Works base last c.1)
    (fun _ _ t hworks hbusy _ => (any_turn hworks hbusy seat t).2) hworks

/-- A run that begins above one more frame stays above that frame, or it hands a result to it. -/
theorem any_runs_inner {seat : Nat} {env : Shared → Shared → Prop} {base : List Frame} {frame : Frame}
    {last : Aim} {c d : Machine × Shared} (hrun : Machine.Runs seat env base c d)
    (hworks : any.Works (frame :: base) last c.1) : Machine.Runs seat env (frame :: base) c d ∨
      ∃ m s t, Machine.Runs seat env (frame :: base) c (m, s) ∧ m.Returned (frame :: base) ∧
        env s t ∧ Machine.Runs seat env base (m.step seat t) d := by
  induction hrun with
  | refl => exact .inl (.refl _)
  | @step m s t c _ henv hrest ih =>
    by_cases hreturned : m.Returned (frame :: base)
    · exact .inr ⟨m, s, t, .refl _, hreturned, henv, hrest⟩
    · rcases ih (any_turn hworks hreturned seat t).2 with
        hinside | ⟨m', s', t', hto, hleft, henv', hfrom⟩
      · exact .inl (.step hreturned henv hinside)
      · exact .inr ⟨m', s', t', .step hreturned henv hto, hleft, henv', hfrom⟩

/-- A run that begins within a function stays there, or it ends when the function has returned. -/
theorem any_runs_function {seat : Nat} {env : Shared → Shared → Prop} {base : List Frame}
    {c d : Machine × Shared} (hrun : Machine.Runs seat env base c d)
    (hworks : any.Works (.activation :: base) .flow c.1) :
    Machine.Runs seat env (.activation :: base) c d ∨
      ∃ m s t, Machine.Runs seat env (.activation :: base) c (m, s) ∧
        m.Returned (.activation :: base) ∧ env s t ∧ d = m.step seat t := by
  rcases any_runs_inner hrun hworks with hinside | ⟨m, s, t, hto, hleft, henv, hfrom⟩
  · exact .inl hinside
  · have hdone := (Machine.step_of_returned seat (any_runs hto hworks) hleft t).1
    exact .inr ⟨m, s, t, hto, hleft, henv, hfrom.eq_of_returned hdone⟩

/-- The blocks, commands and expressions that have some property. -/
def written (P body : Tree → Prop) : Manner where
  expression t := t.IsExpression ∧ P t
  statement t := (t.IsCommand ∨ t.IsBlock) ∧ P t
  case t := t.IsCase ∧ P t
  function _ := False
  source _ := True
  target _ := True
  asks := True
  fault _ := True
  body := body
  outlying := False

variable {P body : Tree → Prop}

theorem written_comes {α : Type} {x : Except Fault α} : (written P body).Comes x := by
  cases x <;> trivial

variable (hP : ∀ t, P t → ∀ c ∈ t.children, P c)
include hP

private theorem written_welcomes {t : Tree} (h : P t) : (written P body).Welcomes t where
  expression c hc hexpression := by
    refine ⟨hexpression, ?_⟩
    rcases hc with hc | ⟨d, hd, hc⟩
    · exact hP t h c hc
    · exact hP d (hP t h d hd) c hc
  block c hc hblock := ⟨.inr hblock, hP t h c hc⟩
  case c hc hcase := ⟨hcase, hP t h c hc⟩
  source _ := trivial
  target _ := trivial
  asks := trivial

theorem written_closed : (written P body).Closed where
  ordinary _ _ := trivial
  expression t ht := (written_welcomes hP ht.2).evaluable ht.1
  statement t ht := by
    obtain ⟨hcommand | hblock, h⟩ := ht
    · exact (written_welcomes hP h).executable hcommand
    · have hchildren := hP t h
      obtain ⟨hbody⟩ := hblock
      exact fun c hc => ⟨.inl (hbody c hc), hchildren c hc⟩
  case t ht := by
    obtain ⟨hcase, h⟩ := ht
    have hchildren := hP t h
    obtain ⟨hguard, hbody⟩ := hcase
    exact ⟨⟨hguard, hchildren _ (by simp)⟩, .inr (.block hbody), hchildren _ (by simp)⟩
  guards t ht hkind := by
    obtain ⟨hexpression, -⟩ := ht
    cases hexpression with
    | number hother | name hother | field hother | unary hother | binary hother =>
      simp [leaf, hother] at hkind
    | call => cases hkind
  lists t ht htext := by
    obtain ⟨hcommand | hblock, -⟩ := ht
    · cases hcommand with
      | action hcount =>
        rw [text_node] at htext
        rcases htext with hword | hword | hword <;> rw [hword] at hcount <;> cases hcount
      | assign | call => simp at htext
      | loop hword | exit hword | switch hword | leave hword | color hword =>
        simp [hword] at htext
    · obtain ⟨-⟩ := hblock
      simp at htext

theorem written_settled (hbody : ∀ t, body t → t.IsBlock ∧ P t) : (written P body).Settled where
  closed := written_closed hP
  body t ht := ⟨.inr (hbody t ht).1, (hbody t ht).2⟩
  fixed _ := id
  fault _ := trivial

end Manner

/-! ## Small trees -/

/-- A world without bugs, where nobody supervises. -/
def Shared.alone : Shared := ⟨.empty, .unsupervised⟩

/-- The value in focus. -/
def Machine.value? (m : Machine) : Option Float :=
  match m.focus with
  | .value v => some v
  | _ => none

theorem Machine.focus_of_value? {m : Machine} {v : Float} (h : m.value? = some v) :
    m.focus = .value v := by
  unfold value? at h
  split at h
  · rw [← Option.some.inj h]
    assumption
  · cases h

namespace Tree

def functionOf (name : String) (parameters : List String) (body : List Tree) : Tree :=
  .labeled "function" [.leaf (.ofText name),
    .labeled "var" ((parameters.map Token.ofText).map .leaf), .labeled "block" body]

def callOf (name : String) (arguments : List Tree) : Tree :=
  .labeled "call" [.leaf (.ofText name), .labeled "var" arguments]

def exitNow : Tree := .labeled "exit" [.leaf (.ofText "1")]

/-- A function that ends a loop of its caller. -/
def stopper : Tree := functionOf "stop" [] [exitNow]

theorem isFunction_functionOf {name : String} {parameters : List String} {body : List Tree}
    (h : ∀ t ∈ body, t.IsCommand) : (functionOf name parameters body).IsFunction :=
  .function (.block h)

theorem isExpression_callOf {name : String} {arguments : List Tree}
    (h : ∀ t ∈ arguments, t.IsExpression) : (callOf name arguments).IsExpression := .call h

theorem isCommand_exitNow : exitNow.IsCommand := .exit rfl (.number rfl (by decide +kernel))

theorem isFunction_stopper : stopper.IsFunction :=
  isFunction_functionOf (by simpa using isCommand_exitNow)

end Tree

end DrawingBugs
