import DrawingBugs.Proofs.Grammar.Loading

/-!
# The shapes of trees

What the trees of a program look like that was read from a text: which labels they have, how many
parts, and of which shape each part is. The tree of every phrase of the grammar has the shape of
the phrase, and so has every part of a program that loads.
-/

namespace DrawingBugs

namespace Tree

def binaryOperators : List String := ["+", "-", "*", "/", "<", "<=", "=", "!=", ">", ">="]

inductive IsExpression : Tree → Prop
  | number {n : Token} (hkind : n.kind = .number) (hread : (Number.read? n.text).isSome) :
    IsExpression (.leaf n)
  | name {n : Token} (hkind : n.kind = .name) (hplaced : n.position ≠ .none) : IsExpression (.leaf n)
  | field {dot bug name : Token} (hkind : dot.kind = .symbol) (htext : dot.text = ".") :
    IsExpression (.node dot [.leaf bug, .leaf name])
  | unary {sign : Token} {operand : Tree} (hkind : sign.kind = .symbol)
    (htext : sign.text = "+" ∨ sign.text = "-") (hoperand : IsExpression operand) :
    IsExpression (.node sign [operand])
  | binary {operator : Token} {left right : Tree} (hkind : operator.kind = .symbol)
    (htext : operator.text ∈ binaryOperators) (hleft : IsExpression left)
    (hright : IsExpression right) : IsExpression (.node operator [left, right])
  | call {name : Token} {arguments : List Tree} (harguments : ∀ t ∈ arguments, IsExpression t) :
    IsExpression (.labeled "call" [.leaf name, .labeled "var" arguments])

/-- How many operands a visible action takes. -/
def operandCount? : String → Option Nat
  | "move" => some 1
  | "moveto" => some 2
  | "turn" => some 1
  | "turnto" => some 1
  | "line" => some 4
  | _ => none

mutual

inductive IsCommand : Tree → Prop
  | action {word : Token} {operands : List Tree} (hcount : operandCount? word.text = some operands.length)
    (hoperands : ∀ t ∈ operands, IsExpression t) : IsCommand (.node word operands)
  | assign {name : Token} {value : Tree} (hplaced : name.position ≠ .none)
    (hvalue : IsExpression value) : IsCommand (.labeled "assign" [.leaf name, value])
  | loop {word : Token} {body : List Tree} (htext : word.text = "loop")
    (hbody : ∀ t ∈ body, IsCommand t) : IsCommand (.node word [.labeled "block" body])
  | exit {word : Token} {condition : Tree} (htext : word.text = "exit")
    (hcondition : IsExpression condition) : IsCommand (.node word [condition])
  | switch {word : Token} {cases : List Tree} (htext : word.text = "switch")
    (hcases : ∀ t ∈ cases, IsCase t) : IsCommand (.node word cases)
  | leave {word : Token} {value : Tree} (htext : word.text = "return") (hvalue : IsExpression value) :
    IsCommand (.node word [value])
  | call {name : Token} {arguments : List Tree} (harguments : ∀ t ∈ arguments, IsExpression t) :
    IsCommand (.labeled "call" [.leaf name, .labeled "var" arguments])
  | color {word color : Token} (htext : word.text = "color") : IsCommand (.node word [.leaf color])

inductive IsCase : Tree → Prop
  | case {word : Token} {guard : Tree} {body : List Tree} (hguard : IsExpression guard)
    (hbody : ∀ t ∈ body, IsCommand t) : IsCase (.node word [guard, .labeled "block" body])

end

inductive IsBlock : Tree → Prop
  | block {body : List Tree} (hbody : ∀ t ∈ body, IsCommand t) : IsBlock (.labeled "block" body)

inductive IsDeclaration : Tree → Prop
  | declaration {word : Token} {names : List Token} (htext : word.text = "var") :
    IsDeclaration (.node word (names.map .leaf))

inductive IsFunction : Tree → Prop
  | function {name : Token} {parameters : List Token} {body : Tree} (hbody : IsBlock body) :
    IsFunction (.labeled "function" [.leaf name, .labeled "var" (parameters.map .leaf), body])

inductive IsInitially : Tree → Prop
  | absent : IsInitially (.labeled "initially" [])
  | present {word : Token} {body : Tree} (htext : word.text = "initially") (hbody : IsBlock body) :
    IsInitially (.node word [body])

inductive IsBug : Tree → Prop
  | bug {word name : Token} {declarations functions commands : List Tree} {initial : Tree}
    (htext : word.text = "Bug") (hdeclarations : ∀ t ∈ declarations, IsDeclaration t)
    (hinitial : IsInitially initial) (hcommands : ∀ t ∈ commands, IsCommand t)
    (hfunctions : ∀ t ∈ functions, IsFunction t) :
    IsBug (.node word [.leaf name, .labeled "list" declarations, initial,
      .labeled "block" commands, .labeled "list" functions])

inductive IsShared : Tree → Prop
  | absent : IsShared (.labeled "Allbugs" [])
  | present {word : Token} {declarations functions : List Tree}
    (hdeclarations : ∀ t ∈ declarations, IsDeclaration t)
    (hfunctions : ∀ t ∈ functions, IsFunction t) :
    IsShared (.node word [.labeled "list" declarations, .labeled "list" functions])

end Tree

/-- A program whose parts have the shapes that the grammar gives them. -/
structure Program.IsShaped (p : Program) : Prop where
  shared : p.allbugs.IsShared
  bugs : ∀ t ∈ p.bugs, t.IsBug

namespace Syntax

open DrawingBugs.Tree

/-- What phrases of at most `n` tokens stand for has the shape, if their number tokens hold
numbers. -/
def Shaped {α : Type} (n : Nat) (D : Phrase α) (P : α → Prop) : Prop :=
  ∀ ts a, ts.length ≤ n → (∀ t ∈ ts, t.Legible) → D ts a → P a

variable {α : Type} {n : Nat} {D : Phrase α} {P : α → Prop}

private theorem Shaped.mono {m : Nat} (h : Shaped n D P) (hm : m ≤ n) : Shaped m D P :=
  fun ts a hts => h ts a (Nat.le_trans hts hm)

/-! ## Combinators -/

private theorem Shaped.repeated (h : Shaped n D P) :
    Shaped n (Repeated D) fun as => ∀ a ∈ as, P a := by
  intro ts as hn hlegible d
  induction d with
  | none => simp
  | more first rest ih =>
    simp only [List.length_append, List.forall_mem_append] at hn hlegible
    rw [List.forall_mem_cons]
    exact ⟨h _ _ (by omega) hlegible.1 first, ih (by omega) hlegible.2⟩

private theorem Shaped.afterComma (h : Shaped n D P) : Shaped n (AfterComma D) P := by
  rintro ts a hn hlegible ⟨_, item⟩
  simp only [List.length_append, List.forall_mem_append] at hn hlegible
  exact h _ _ (by omega) hlegible.2 item

private theorem Shaped.separated (h : Shaped n D P) :
    Shaped n (Separated D) fun as => ∀ a ∈ as, P a := by
  rintro ts as hn hlegible ⟨first, rest⟩
  simp only [List.length_append, List.forall_mem_append] at hn hlegible
  rw [List.forall_mem_cons]
  exact ⟨h _ _ (by omega) hlegible.1 first, h.afterComma.repeated _ _ (by omega) hlegible.2 rest⟩

private theorem Shaped.optional (h : Shaped n D P) :
    Shaped n (Optional D) fun o => ∀ a ∈ o, P a := by
  rintro ts o hn hlegible (_ | item)
  · simp
  · intro a ha
    cases ha
    exact h _ _ hn hlegible item

private theorem Shaped.chained {O : Phrase Token} {D : Phrase Tree}
    (hO : ∀ ts op, O ts op → op.kind = .symbol ∧ op.text ∈ binaryOperators)
    (h : Shaped n D IsExpression) : Shaped n (Chained O D) IsExpression := by
  have hlinks {left t : Tree} {ts : List Token} (d : Links O D left ts t) (hn : ts.length ≤ n)
      (hlegible : ∀ t ∈ ts, t.Legible) (hleft : IsExpression left) : IsExpression t := by
    induction d with
    | stop => exact hleft
    | link operator operand rest ih =>
      simp only [List.length_append, List.forall_mem_append] at hn hlegible
      obtain ⟨hkind, htext⟩ := hO _ _ operator
      have hright := h _ _ (by omega) hlegible.2.1 operand
      exact ih (by omega) hlegible.2.2 (.binary hkind htext hleft hright)
  rintro ts t hn hlegible ⟨first, rest⟩
  simp only [List.length_append, List.forall_mem_append] at hn hlegible
  exact hlinks rest (by omega) hlegible.2 (h _ _ (by omega) hlegible.1 first)

/-! ## Expressions -/

private theorem Terminal.kind_eq {kind : Kind} {text : Option String} {ts : List Token} {t : Token}
    (h : Terminal kind text ts t) : t.kind = kind := by
  cases h with
  | token hfits => exact Token.kind_of_fits hfits

private theorem Terminal.text_eq {kind : Kind} {text : String} {ts : List Token} {t : Token}
    (h : Terminal kind (some text) ts t) : t.text = text :=
  Grammar.text_of_terminal h

private theorem AddOperator.isOperator {ts : List Token} {op : Token} (h : AddOperator ts op) :
    op.kind = .symbol ∧ (op.text = "+" ∨ op.text = "-") := by
  obtain sign | sign := h
  · exact ⟨sign.kind_eq, .inl sign.text_eq⟩
  · exact ⟨sign.kind_eq, .inr sign.text_eq⟩

private theorem AddOperator.isBinary (ts : List Token) (op : Token) (h : AddOperator ts op) :
    op.kind = .symbol ∧ op.text ∈ binaryOperators := by
  obtain ⟨hkind, htext | htext⟩ := h.isOperator <;> exact ⟨hkind, by rw [htext]; decide⟩

private theorem MultiplyOperator.isBinary (ts : List Token) (op : Token)
    (h : MultiplyOperator ts op) : op.kind = .symbol ∧ op.text ∈ binaryOperators := by
  obtain sign | sign := h <;> exact ⟨sign.kind_eq, by rw [sign.text_eq]; decide⟩

private theorem OrEqual.isBinary {text : String} {ts : List Token} {op : Token}
    (h : OrEqual text ts op) (hplain : text ∈ binaryOperators)
    (hequal : text ++ "=" ∈ binaryOperators) :
    op.kind = .symbol ∧ op.text ∈ binaryOperators := by
  obtain sign | ⟨sign, _⟩ := h
  · exact ⟨sign.kind_eq, by rwa [sign.text_eq]⟩
  · exact ⟨sign.kind_eq, hequal⟩

private theorem Comparator.isBinary (ts : List Token) (op : Token) (h : Comparator ts op) :
    op.kind = .symbol ∧ op.text ∈ binaryOperators := by
  obtain signs | signs | sign | ⟨bang, _⟩ := h
  · exact signs.isBinary (by decide) (by decide)
  · exact signs.isBinary (by decide) (by decide)
  · exact ⟨sign.kind_eq, by rw [sign.text_eq]; decide⟩
  · exact ⟨bang.kind_eq, show "!=" ∈ binaryOperators by decide⟩

private theorem Shaped.expression (h : Shaped n Unsigned IsExpression) :
    Shaped n Expression IsExpression := by
  have hfactor : Shaped n Factor IsExpression := by
    rintro ts t hn hlegible (operand | ⟨sign, operand⟩)
    · exact h _ _ hn hlegible operand
    · simp only [List.length_append, List.forall_mem_append] at hn hlegible
      obtain ⟨hkind, htext⟩ := sign.isOperator
      exact .unary hkind htext (h _ _ (by omega) hlegible.2 operand)
  exact ((hfactor.chained MultiplyOperator.isBinary).chained AddOperator.isBinary).chained
    Comparator.isBinary

private theorem Shaped.arguments {D : Phrase Tree} (h : Shaped n D IsExpression) :
    Shaped (n + 1) (Arguments D) fun t => ∃ ts, t = .labeled "var" ts ∧ ∀ t ∈ ts, IsExpression t := by
  rintro ts t hn hlegible ⟨⟨_⟩, items, ⟨_⟩⟩
  simp only [List.length_append, List.length_singleton, List.forall_mem_append] at hn hlegible
  have hitems := h.separated.optional _ _ (by omega) hlegible.2.1 items
  refine ⟨_, rfl, fun t ht => ?_⟩
  cases items with
  | absent => simp at ht
  | present items => exact hitems _ rfl t ht

/-- Expressions inside others are shorter. -/
private theorem shaped_unsigned (n : Nat) : Shaped n Unsigned IsExpression := by
  induction n with
  | zero =>
    intro ts t hn _ d
    obtain ⟨u, us, rfl, -⟩ := Grammar.starts_unsigned d
    simp at hn
  | succ n ih =>
    intro ts t hn hlegible d
    cases d with
    | named d =>
      cases d with
      | field _ point _ => exact .field point.kind_eq point.text_eq
      | name name =>
        obtain ⟨hfits⟩ := name
        exact .name (Token.kind_of_fits hfits) (hlegible _ (List.mem_singleton_self _)).placed
      | call function arguments =>
        simp only [List.length_append, List.forall_mem_append] at hn hlegible
        obtain ⟨ts, rfl, hts⟩ := ih.expression.arguments _ _ (by omega) hlegible.2 arguments
        exact .call hts
    | literal d =>
      obtain ⟨number⟩ := d
      obtain ⟨hfits⟩ := number
      obtain ⟨v, hv⟩ := (hlegible _ (List.mem_singleton_self _)).number (Token.kind_of_fits hfits)
      exact .number (Token.kind_of_fits hfits) (by rw [hv]; exact Number.read?_text v)
    | inner d =>
      obtain ⟨⟨_⟩, inner, ⟨_⟩⟩ := d
      simp only [List.length_append, List.length_singleton, List.forall_mem_append] at hn hlegible
      exact ih.expression _ _ (by omega) hlegible.2.1 inner

private theorem shaped_expression (n : Nat) :
    Shaped n Expression IsExpression := (shaped_unsigned n).expression

private theorem shaped_arguments (n : Nat) : Shaped n (Arguments Expression)
    fun t => ∃ ts, t = .labeled "var" ts ∧ ∀ t ∈ ts, IsExpression t :=
  (shaped_expression n).arguments.mono (Nat.le_succ n)

/-! ## Commands -/

private theorem shaped_furtherOperands (n count : Nat) :
    Shaped n (FurtherOperands count) fun ts => ts.length = count ∧ ∀ t ∈ ts, IsExpression t := by
  intro ts operands hn hlegible d
  induction d with
  | none => simp
  | more _ operand rest ih =>
    simp only [List.length_append, List.forall_mem_append] at hn hlegible
    obtain ⟨hcount, hrest⟩ := ih (by omega) hlegible.2.2
    refine ⟨by rw [List.length_cons, hcount], ?_⟩
    rw [List.forall_mem_cons]
    exact ⟨shaped_expression n _ _ (by omega) hlegible.2.1 operand, hrest⟩

private theorem shaped_directive (n : Nat) (word : String) (further : Nat) :
    Shaped n (Directive word further)
    fun t => ∃ k ts, t = .node k ts ∧ k.text = word ∧ ts.length = further + 1 ∧
      ∀ t ∈ ts, IsExpression t := by
  rintro ts t hn hlegible ⟨keyword, first, rest, _⟩
  simp only [List.length_append, List.forall_mem_append] at hn hlegible
  obtain ⟨hcount, hrest⟩ := shaped_furtherOperands n further _ _ (by omega) hlegible.2.2.1 rest
  refine ⟨_, _, rfl, keyword.text_eq, by rw [List.length_cons, hcount], ?_⟩
  rw [List.forall_mem_cons]
  exact ⟨shaped_expression n _ _ (by omega) hlegible.2.1 first, hrest⟩

private theorem shaped_action (n : Nat) : Shaped n Action IsCommand := by
  have haction {word : String} {further : Nat} (hcount : operandCount? word = some (further + 1)) :
      Shaped n (Directive word further) IsCommand := by
    intro ts t hn hlegible d
    obtain ⟨k, operands, rfl, rfl, hlength, hoperands⟩ := shaped_directive n _ _ ts t hn hlegible d
    exact .action (by rw [hcount, hlength]) hoperands
  intro ts t hn hlegible d
  cases d with
  | move d => exact haction rfl ts t hn hlegible d
  | moveTo d => exact haction rfl ts t hn hlegible d
  | turn d => exact haction rfl ts t hn hlegible d
  | turnTo d => exact haction rfl ts t hn hlegible d
  | line d => exact haction rfl ts t hn hlegible d

private theorem shaped_return (n : Nat) : Shaped n (Directive "return" 0) IsCommand := by
  intro ts t hn hlegible d
  obtain ⟨k, operands, rfl, htext, hlength, hoperands⟩ := shaped_directive n _ _ ts t hn hlegible d
  obtain ⟨value, rfl⟩ := List.length_eq_one_iff.mp hlength
  exact .leave htext (hoperands value (List.mem_singleton_self _))

private theorem shaped_assignment (n : Nat) : Shaped n Assignment IsCommand := by
  rintro ts t hn hlegible ⟨⟨_⟩, _, value, _⟩
  simp only [List.length_append, List.forall_mem_append] at hn hlegible
  exact .assign (hlegible.1 _ (List.mem_singleton_self _)).placed (shaped_expression n _ _ (by omega) hlegible.2.2.1 value)

private theorem shaped_exit (n : Nat) : Shaped n Exit IsCommand := by
  rintro ts t hn hlegible ⟨keyword, _, condition, _⟩
  simp only [List.length_append, List.forall_mem_append] at hn hlegible
  exact .exit keyword.text_eq (shaped_expression n _ _ (by omega) hlegible.2.2.1 condition)

private theorem shaped_performance (n : Nat) : Shaped n Performance IsCommand := by
  rintro ts t hn hlegible ⟨_, _, arguments, _⟩
  simp only [List.length_append, List.forall_mem_append] at hn hlegible
  cases arguments with
  | absent => exact @IsCommand.call _ [] (by simp)
  | present arguments =>
    obtain ⟨ts, rfl, hts⟩ := shaped_arguments n _ _ (by omega) hlegible.2.2.1 arguments
    exact .call hts

private theorem Shaped.braced {C : Phrase Tree} {P : Tree → Prop} (h : Shaped n C P) :
    Shaped (n + 1) (Braced C) fun ts => ∀ t ∈ ts, P t := by
  rintro ts t hn hlegible ⟨⟨_⟩, _, items, ⟨_⟩, _⟩
  simp only [List.length_append, List.length_singleton, List.forall_mem_append] at hn hlegible
  exact h.repeated _ _ (by omega) hlegible.2.2.1 items

private theorem Shaped.case {C : Phrase Tree} (h : Shaped n C IsCommand) :
    Shaped n (Case C) IsCase := by
  rintro ts t hn hlegible ⟨_, guard, _, commands⟩
  simp only [List.length_append, List.forall_mem_append] at hn hlegible
  exact .case (shaped_expression n _ _ (by omega) hlegible.2.1 guard)
    (h.repeated _ _ (by omega) hlegible.2.2.2 commands)

/-- Commands inside others are shorter. -/
private theorem shaped_command (n : Nat) : Shaped n Command IsCommand := by
  induction n with
  | zero =>
    intro ts t hn _ d
    obtain ⟨u, us, hts, -⟩ := Grammar.starts_command ⟨d⟩
    rw [show ts = u :: us from hts] at hn
    simp at hn
  | succ n ih =>
    intro ts t hn hlegible d
    cases d with
    | action d => exact shaped_action _ _ _ hn hlegible d
    | assign d => exact shaped_assignment _ _ _ hn hlegible d
    | exit d => exact shaped_exit _ _ _ hn hlegible d
    | leave d => exact shaped_return _ _ _ hn hlegible d
    | perform d => exact shaped_performance _ _ _ hn hlegible d
    | color d =>
      obtain ⟨keyword, _, _⟩ := d
      exact .color keyword.text_eq
    | loop d =>
      obtain ⟨keyword, body⟩ := d
      simp only [List.length_append, List.forall_mem_append] at hn hlegible
      exact .loop keyword.text_eq (ih.braced _ _ (by omega) hlegible.2 body)
    | switch d =>
      obtain ⟨keyword, cases⟩ := d
      simp only [List.length_append, List.forall_mem_append] at hn hlegible
      exact .switch keyword.text_eq (ih.case.braced _ _ (by omega) hlegible.2 cases)

private theorem shaped_block (n : Nat) : Shaped n (Block Command) IsBlock := by
  rintro ts t hn hlegible ⟨commands⟩
  exact .block ((shaped_command n).braced _ _ (Nat.le_succ_of_le hn) hlegible commands)

/-! ## Definitions -/

private theorem shaped_function (n : Nat) : Shaped n Syntax.Function IsFunction := by
  rintro ts t hn hlegible ⟨_, _, _, body⟩
  simp only [List.length_append, List.forall_mem_append] at hn hlegible
  exact .function (shaped_block n _ _ (by omega) hlegible.2.2.2 body)

private theorem shaped_declaration (n : Nat) : Shaped n Variables IsDeclaration := by
  rintro ts t - - ⟨keyword, _, _⟩
  exact .declaration keyword.text_eq

private theorem shaped_initially (n : Nat) : Shaped n Initially IsInitially := by
  rintro ts t hn hlegible ⟨keyword, body⟩
  simp only [List.length_append, List.forall_mem_append] at hn hlegible
  exact .present keyword.text_eq (shaped_block n _ _ (by omega) hlegible.2 body)

private theorem shaped_bugBody (n : Nat) : Shaped n BugBody IsBug := by
  rintro ts t hn hlegible ⟨keyword, _, _, _, declarations, initial, first, commands, functions, _⟩
  simp only [List.length_append, List.forall_mem_append] at hn hlegible
  obtain ⟨-, -, -, -, hdeclarations, hinitial, hfirst, hcommands, hfunctions, -⟩ := hlegible
  refine .bug keyword.text_eq
    ((shaped_declaration n).repeated _ _ (by omega) hdeclarations declarations) ?_ ?_
    ((shaped_function n).repeated _ _ (by omega) hfunctions functions)
  · cases initial with
    | absent => exact .absent
    | present initial => exact shaped_initially n _ _ (by omega) hinitial initial
  · rw [List.forall_mem_cons]
    exact ⟨shaped_command n _ _ (by omega) hfirst first,
      (shaped_command n).repeated _ _ (by omega) hcommands commands⟩

private theorem shaped_bugs (n : Nat) : Shaped n Bugs fun ts => ∀ t ∈ ts, IsBug t := by
  intro ts bugs hn hlegible d
  induction d with
  | last body _ =>
    simp only [List.length_append, List.forall_mem_append] at hn hlegible
    rw [List.forall_mem_singleton]
    exact shaped_bugBody n _ _ (by omega) hlegible.1 body
  | more body _ _ ih =>
    simp only [List.length_append, List.forall_mem_append] at hn hlegible
    rw [List.forall_mem_cons]
    exact ⟨shaped_bugBody n _ _ (by omega) hlegible.1 body, ih (by omega) hlegible.2.2⟩

private theorem shaped_allbugs (n : Nat) : Shaped n Allbugs IsShared := by
  rintro ts t hn hlegible ⟨⟨_, _, _, declarations, functions, _⟩, _⟩
  simp only [List.length_append, List.forall_mem_append] at hn hlegible
  obtain ⟨⟨-, -, -, hdeclarations, hfunctions, -⟩, -⟩ := hlegible
  exact .present ((shaped_declaration n).repeated _ _ (by omega) hdeclarations declarations)
    ((shaped_function n).repeated _ _ (by omega) hfunctions functions)

/-- The tree of a text is that of a program of the right shape. -/
private theorem shaped_text (n : Nat) : Shaped n Text
    fun root => ∃ program, Program.ofTree root = .ok program ∧ program.IsShaped := by
  rintro ts t hn hlegible ⟨_, shared, bugs⟩
  simp only [List.length_append, List.forall_mem_append] at hn hlegible
  refine ⟨_, rfl, ?_, shaped_bugs n _ _ (by omega) hlegible.2.2 bugs⟩
  cases shared with
  | absent => exact .absent
  | present shared => exact shaped_allbugs n _ _ (by omega) hlegible.2.1 shared

end Syntax

/-- A text that loads gives a program of the right shape, and no text is refused for its shape. -/
theorem load_shaped (source : String) :
    (∃ program, Program.load source = .ok program ∧ program.IsShaped) ∨
      ∃ e, Program.load source = .error (.rejected e) := by
  cases Grammar.outcome source with
  | program d rest hsplits hrequired =>
    obtain ⟨s, hs⟩ := hrequired
    have hlegible : ∀ t ∈ d.tokens, t.Legible := by
      have htokens := ((Scanner.holds_sourceStream source).lexemes rfl ⟨[], rfl, rfl⟩).1
      rw [hsplits.1, TokenStream.tokens_after] at htokens
      exact fun t ht => htokens t (List.mem_append_left _ ht)
    obtain ⟨program, hprogram, hshaped⟩ :=
      Syntax.shaped_text _ _ _ (Nat.le_refl _) hlegible d.steps
    exact .inl ⟨program, by simp only [Program.load, hs, hprogram]; rfl, hshaped⟩
  | stuck _ rest e hread _ _ hrequired _ =>
    exact .inr ⟨e, Grammar.load_of_stuck (hrequired source rest hread rfl)⟩

end DrawingBugs
