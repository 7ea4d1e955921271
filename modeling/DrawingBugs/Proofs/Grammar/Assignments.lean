import DrawingBugs.Proofs.Grammar.Lookahead

/-!
# Loops and assignments

A rule builds its tree from tokens and from the trees of other rules. So what holds of every node
that some rule builds holds of all trees that are read. In particular the word `loop` stands over a
block, an assignment is to a name, and no other node with parts has the text of one of them.
-/

namespace DrawingBugs

namespace Tree

/-- Every node whose text is `loop` has a block as its first part, if it has parts at all, and every
node whose text is `assign` a name. -/
inductive WellHeaded : Tree → Prop
  | node {value : Token} {children : List Tree}
    (hloop : value.text = "loop" → ∀ body ∈ children.head?, body.text = "block")
    (hassign : value.text = "assign" → ∀ target ∈ children.head?, target.kind = .name)
    (hchildren : ∀ c ∈ children, WellHeaded c) : WellHeaded (.node value children)

/-- The texts of the nodes whose first part is known. -/
def headed : List String := ["loop", "assign"]

/-- A tree that a rule has built from some state of the scanner, or a part of one. -/
inductive Parsed : Tree → Prop
  | whole {rule : Rule} (hrule : rule ∈ Grammar.program :: Grammar.rules) {s s' : Scanner} {t : Tree}
    (h : rule s = .ok (some t) s') : Parsed t
  | part {t c : Tree} (h : Parsed t) (hc : c ∈ t.children) : Parsed c

private theorem wellHeaded_leaf (value : Token) : (leaf value).WellHeaded := .node nofun nofun nofun

private theorem WellHeaded.other {value : Token} {children : List Tree}
    (htext : value.text ∉ headed)
    (hchildren : ∀ c ∈ children, c.WellHeaded) : (Tree.node value children).WellHeaded :=
  .node (fun h => absurd (by rw [h]; decide) htext) (fun h => absurd (by rw [h]; decide) htext)
    hchildren

private theorem WellHeaded.child {t c : Tree} (h : t.WellHeaded) (hc : c ∈ t.children) :
    c.WellHeaded := by
  obtain ⟨-, -, hchildren⟩ := h
  exact hchildren c hc

end Tree

namespace Recognizer

variable {α β : Type} {Q : α → Prop} {R : β → Prop}

/-- Whatever the recognizer returns has the property. -/
def Returns (p : Recognizer α) (Q : α → Prop) : Prop := ∀ s a s', p s = .ok a s' → Q a

/-- Whatever the recognizer matches has the property. -/
abbrev Matches (p : Recognizer (Option α)) (Q : α → Prop) : Prop := Returns p fun o => ∀ a ∈ o, Q a

private theorem returns_any (p : Recognizer α) : Returns p fun _ => True := fun _ _ _ _ => trivial

private theorem matches_any (p : Recognizer (Option α)) :
    Matches p fun _ => True := fun _ _ _ _ _ _ => trivial

private theorem Returns.pure {a : α} (h : Q a) : Returns (pure a) Q := by
  intro s b s' hb
  cases hb
  exact h

private theorem Returns.bind {p : Recognizer α} {f : α → Recognizer β} (hp : Returns p Q)
    (hf : ∀ a, Q a → Returns (f a) R) : Returns (p >>= f) R := by
  intro s b s' h
  obtain ⟨a, s₁, ha, hb⟩ := bind_eq_ok h
  exact hf a (hp s a s₁ ha) s₁ b s' hb

private theorem Returns.after {p : Recognizer α} {f : α → Recognizer β}
    (hf : ∀ a, Returns (f a) R) : Returns (p >>= f) R := (returns_any p).bind fun a _ => hf a

private theorem matches_none : Matches (pure none : Recognizer (Option α)) Q := .pure nofun

private theorem matches_take (kind : Kind) (text : Option String) :
    Matches (take kind text) fun t => t.fits kind text := by
  intro s o s' h t ht
  cases ht
  cases hnext : s.next with
  | mk r s₁ =>
    cases r with
    | ok t' =>
      rw [take_of_next hnext] at h
      split at h
      · next hfits =>
        cases h
        exact hfits
      · cases h
    | error e =>
      rw [take_of_failed hnext] at h
      cases h

private theorem returns_fail (expected : Expectation) : Returns (fail expected) Q := by
  intro s a s' h
  obtain ⟨t, s₁, -, hthrow⟩ := bind_eq_ok h
  cases hthrow

theorem Returns.expect {p : Recognizer (Option α)} (hp : Matches p Q) (expected : Expectation) :
    Returns (expect p expected) Q := by
  refine hp.bind fun o ho => ?_
  cases o with
  | some a => exact .pure (ho a rfl)
  | none => exact returns_fail expected

private theorem Matches.commit {lead : Recognizer (Option α)} {body : α → Recognizer β}
    (hlead : Matches lead Q) (hbody : ∀ a, Q a → Returns (body a) R) :
    Matches (commit lead body) R := by
  refine hlead.bind fun o ho => ?_
  cases o with
  | none => exact matches_none
  | some a => exact (hbody a (ho a rfl)).bind fun b hb => .pure fun _ h => Option.some.inj h ▸ hb

private theorem Matches.either {p q : Recognizer (Option α)} (hp : Matches p Q) (hq : Matches q Q) :
    Matches (either p q) Q := by
  refine hp.bind fun o ho => ?_
  cases o with
  | none => exact hq
  | some a => exact .pure ho

private theorem Returns.sized {p : Nat → Recognizer α} (h : ∀ fuel, Returns (p fuel) Q) :
    Returns (sized p) Q := fun s => h (s.size + 1) s

private theorem Matches.many {p : Recognizer (Option α)} (hp : Matches p Q) :
    Returns (many p) fun as => ∀ a ∈ as, Q a := by
  refine .sized fun fuel => ?_
  induction fuel with
  | zero => exact .pure nofun
  | succ fuel ih =>
    refine hp.bind fun o ho => ?_
    cases o with
    | none => exact .pure nofun
    | some a => exact ih.bind fun as has => .pure (List.forall_mem_cons.mpr ⟨ho a rfl, has⟩)

private theorem Matches.imp {Q' : α → Prop} {p : Recognizer (Option α)} (hp : Matches p Q)
    (h : ∀ a, Q a → Q' a) : Matches p Q' := fun s o s' ho a ha => h a (hp s o s' ho a ha)

private theorem matches_word (kind : Kind) (word : String) :
    Matches (take kind (some word)) fun t => t.text = word :=
  (matches_take kind (some word)).imp fun _ hfits => Token.text_of_fits hfits

private theorem matches_name : Matches Recognizer.name fun t => t.kind = .name :=
  (matches_take .name none).imp fun _ hfits => Token.kind_of_fits hfits

private theorem Matches.chain {operand : Rule} {operator : Recognizer (Option Token)}
    {P : Tree → Prop} {O : Token → Prop} (hoperand : Matches operand P)
    (hoperator : Matches operator O)
    (hnode : ∀ op left right, O op → P left → P right → P (.node op [left, right]))
    (expected : Expectation) : Matches (chain operand operator expected) P := by
  refine hoperand.commit fun left hleft => .sized fun fuel => ?_
  induction fuel generalizing left with
  | zero => exact .pure hleft
  | succ fuel ih =>
    refine hoperator.bind fun o ho => ?_
    cases o with
    | none => exact .pure hleft
    | some op =>
      exact (Returns.expect hoperand expected).bind fun right hright =>
        ih _ (hnode op left right (ho op rfl) hleft hright)

end Recognizer

namespace Grammar

open Recognizer DrawingBugs.Tree

/-! ## Expressions -/

private theorem matches_symbol {word : String} (hword : word ∉ headed) :
    Matches (symbol word) fun op => op.text ∉ headed :=
  (matches_word _ word).imp fun _ htext => htext ▸ hword

private theorem matches_addOperator : Matches addOperator fun op => op.text ∉ headed :=
  (matches_symbol (by decide)).either (matches_symbol (by decide))

private theorem matches_multiplyOperator : Matches multiplyOperator fun op => op.text ∉ headed :=
  (matches_symbol (by decide)).either (matches_symbol (by decide))

private theorem returns_withEquals {word : String} (hword : word ∉ headed)
    (hequals : word ++ "=" ∉ headed) {first : Token} (hfirst : first.text = word) :
    Returns (withEquals first) fun op => op.text ∉ headed := by
  refine .after fun o => ?_
  cases o with
  | none => exact .pure (hfirst ▸ hword)
  | some _ => exact .pure (hfirst ▸ hequals)

private theorem matches_comparator : Matches comparator fun op => op.text ∉ headed :=
  ((matches_word _ _).commit fun _ => returns_withEquals (by decide) (by decide)).either
    (((matches_word _ _).commit fun _ => returns_withEquals (by decide) (by decide)).either
      ((matches_symbol (by decide)).either
        ((matches_any _).commit fun _ _ => .after fun _ => .pure (by decide : "!=" ∉ headed))))

private theorem wellHeaded_binary (op : Token) (left right : Tree) (hop : op.text ∉ headed)
    (hleft : left.WellHeaded) (hright : right.WellHeaded) :
    (Tree.node op [left, right]).WellHeaded := .other hop (by simp [hleft, hright])

private theorem wellHeaded_callTree {name : Token} {arguments : Tree}
    (harguments : arguments.WellHeaded) : (callTree name arguments).WellHeaded :=
  .other (show "call" ∉ headed by decide) (by simp [wellHeaded_leaf, harguments])

private theorem wellHeaded_labeled {label : String} {children : List Tree} (hlabel : label ∉ headed)
    (hchildren : ∀ c ∈ children, c.WellHeaded) : (labeled label children).WellHeaded :=
  .other hlabel hchildren

private theorem wellHeaded_leaves (names : List Token) : ∀ c ∈ names.map leaf, c.WellHeaded := by
  simp [wellHeaded_leaf]

section Open

variable {nested : Rule} (hnested : Matches nested WellHeaded)
include hnested

private theorem returns_argumentsOver :
    Returns (argumentsOver nested) fun ts => ∀ t ∈ ts, t.WellHeaded := by
  refine hnested.bind fun o ho => ?_
  cases o with
  | none => exact .pure nofun
  | some first =>
    exact ((matches_any _).commit fun _ _ => .expect hnested _).many.bind fun rest hrest =>
      .pure (List.forall_mem_cons.mpr ⟨ho first rfl, hrest⟩)

private theorem matches_parameterListOver : Matches (parameterListOver nested) WellHeaded :=
  (matches_any _).commit fun _ _ => (returns_argumentsOver hnested).bind fun _ harguments =>
    .after fun _ => .pure (wellHeaded_labeled (by decide) harguments)

private theorem returns_namedOver (name : Token) : Returns (namedOver nested name) WellHeaded := by
  refine (matches_symbol (by decide)).bind fun o ho => ?_
  cases o with
  | some dot =>
    exact .after fun field => .pure (wellHeaded_binary dot _ _ (ho dot rfl)
      (wellHeaded_leaf name) (wellHeaded_leaf field))
  | none =>
    refine (matches_parameterListOver hnested).bind fun o ho => ?_
    cases o with
    | none => exact .pure (wellHeaded_leaf name)
    | some arguments => exact .pure (wellHeaded_callTree (ho arguments rfl))

private theorem matches_parenthesizedOver : Matches (parenthesizedOver nested) WellHeaded :=
  (matches_any _).commit fun _ _ => (Returns.expect hnested _).bind fun _ hinner =>
    .after fun _ => .pure hinner

private theorem matches_unsignedFactorOver : Matches (unsignedFactorOver nested) WellHeaded :=
  ((matches_any _).commit fun name _ => returns_namedOver hnested name).either
    (((matches_any _).commit fun number _ => .pure (wellHeaded_leaf number)).either
      (matches_parenthesizedOver hnested))

private theorem matches_factorOver : Matches (factorOver nested) WellHeaded :=
  (matches_addOperator.commit fun sign hsign =>
    (Returns.expect (matches_unsignedFactorOver hnested) _).bind fun operand hoperand =>
      .pure (.other hsign (by simp [hoperand]))).either (matches_unsignedFactorOver hnested)

private theorem matches_termOver : Matches (termOver nested) WellHeaded :=
  (matches_factorOver hnested).chain matches_multiplyOperator wellHeaded_binary _

private theorem matches_arithmeticOver : Matches (arithmeticOver nested) WellHeaded :=
  (matches_termOver hnested).chain matches_addOperator wellHeaded_binary _

private theorem matches_expressionOver : Matches (expressionOver nested) WellHeaded :=
  (matches_arithmeticOver hnested).chain matches_comparator wellHeaded_binary _

end Open

private theorem matches_expression : Matches expression WellHeaded := by
  refine .sized fun fuel => ?_
  induction fuel with
  | zero => exact matches_none
  | succ fuel ih => exact matches_expressionOver ih

private theorem matches_parameterList : Matches parameterList WellHeaded :=
  matches_parameterListOver matches_expression

private theorem matches_functionCall : Matches functionCall WellHeaded :=
  (matches_any _).commit fun _ _ => (Returns.expect matches_parameterList _).bind fun _ harguments =>
    .pure (wellHeaded_callTree harguments)

/-! ## Commands -/

private theorem returns_furtherOperands (word : String) (count : Nat) :
    Returns (furtherOperands word count) fun ts => ∀ t ∈ ts, t.WellHeaded := by
  induction count with
  | zero => exact .pure nofun
  | succ count ih =>
    exact .after fun _ => (Returns.expect matches_expression _).bind fun _ hoperand =>
      ih.bind fun _ hrest => .pure (List.forall_mem_cons.mpr ⟨hoperand, hrest⟩)

private theorem matches_withOperands {word : String} (hword : word ∉ headed) (further : Nat) :
    Matches (withOperands word further) WellHeaded :=
  (matches_word _ word).commit fun _ htext => (Returns.expect matches_expression _).bind
    fun _ hfirst => (returns_furtherOperands word further).bind fun _ hrest => .after fun _ =>
      .pure (.other (htext ▸ hword) (List.forall_mem_cons.mpr ⟨hfirst, hrest⟩))

private theorem matches_action : Matches action WellHeaded :=
  (matches_withOperands (by decide) _).either ((matches_withOperands (by decide) _).either
    ((matches_withOperands (by decide) _).either ((matches_withOperands (by decide) _).either
      (matches_withOperands (by decide) _))))

private theorem matches_assignment : Matches assignment WellHeaded :=
  matches_name.commit fun name hname => .after fun _ =>
    (Returns.expect matches_expression _).bind fun value hvalue => .after fun _ =>
      .pure (.node (fun h => absurd h (by decide)) (by rintro - _ ⟨⟩; exact hname)
        (by simp [wellHeaded_leaf, hvalue]))

private theorem matches_exitStatement : Matches exitStatement WellHeaded :=
  (matches_word _ "exit").commit fun _ htext => .after fun _ =>
    (Returns.expect matches_expression _).bind fun _ hcondition => .after fun _ =>
      .pure (.other (by rw [htext]; decide) (by simp [hcondition]))

private theorem matches_doStatement : Matches doStatement WellHeaded :=
  (matches_any _).commit fun _ _ => .after fun _ => matches_parameterList.bind fun o ho =>
    .after fun _ => .pure (wellHeaded_callTree (by
      cases o with
      | none => exact wellHeaded_labeled (by decide) nofun
      | some arguments => exact ho arguments rfl))

private theorem matches_colorStatement : Matches colorStatement WellHeaded :=
  (matches_word _ "color").commit fun _ htext => .after fun _ => .after fun _ =>
    .pure (.other (by rw [htext]; decide) (by simp [wellHeaded_leaf]))

section Open

variable {nested : Rule} (hnested : Matches nested WellHeaded)
include hnested

private theorem matches_blockOver :
    Matches (blockOver nested) fun t => t.WellHeaded ∧ t.text = "block" :=
  (matches_any _).commit fun _ _ => .after fun _ => hnested.many.bind fun _ hcommands =>
    .after fun _ => .after fun _ => .pure ⟨wellHeaded_labeled (by decide) hcommands, rfl⟩

private theorem matches_loopOver : Matches (loopOver nested) WellHeaded :=
  (matches_word _ "loop").commit fun _ htext => (Returns.expect (matches_blockOver hnested) _).bind
    fun _ hbody => .pure (.node (by simp [hbody.2]) (by simp [htext]) (by simp [hbody.1]))

private theorem matches_caseOver : Matches (caseOver nested) WellHeaded :=
  (matches_word _ "case").commit fun _ htext => (Returns.expect matches_expression _).bind
    fun _ hguard => .after fun _ => hnested.many.bind fun _ hcommands =>
      .pure (wellHeaded_binary _ _ _ (by rw [htext]; decide) hguard
        (wellHeaded_labeled (by decide) hcommands))

private theorem matches_switchOver : Matches (switchOver nested) WellHeaded :=
  (matches_word _ "switch").commit fun _ htext => .after fun _ =>
    (matches_caseOver hnested).many.bind fun _ hcases => .after fun _ => .after fun _ =>
      .pure (.other (by rw [htext]; decide) hcases)

private theorem matches_statementOver : Matches (statementOver nested) WellHeaded :=
  matches_assignment.either ((matches_loopOver hnested).either (matches_exitStatement.either
    ((matches_switchOver hnested).either ((matches_withOperands (by decide) _).either
      (matches_doStatement.either matches_colorStatement)))))

end Open

private theorem matches_command : Matches command WellHeaded := by
  refine .sized fun fuel => ?_
  induction fuel with
  | zero => exact matches_none
  | succ fuel ih => exact matches_action.either (matches_statementOver ih)

private theorem matches_block : Matches block WellHeaded :=
  (matches_blockOver matches_command).imp fun _ h => h.1

/-! ## Definitions -/

private theorem matches_initialBlock : Matches initialBlock WellHeaded :=
  (matches_word _ "initially").commit fun _ htext => (Returns.expect matches_block _).bind
    fun _ hbody => .pure (.other (by rw [htext]; decide) (by simp [hbody]))

private theorem matches_functionDefinition : Matches functionDefinition WellHeaded :=
  (matches_any _).commit fun _ _ => .after fun _ => .after fun parameters =>
    (Returns.expect matches_block _).bind fun body hbody =>
      .pure (wellHeaded_labeled (by decide) (by
        simp only [List.forall_mem_cons]
        exact ⟨wellHeaded_leaf _,
          wellHeaded_labeled (by decide) (wellHeaded_leaves parameters), hbody, nofun⟩))

private theorem matches_variableDeclaration : Matches variableDeclaration WellHeaded :=
  (matches_word _ "var").commit fun _ htext => .after fun names => .after fun _ =>
    .pure (.other (by rw [htext]; decide) (wellHeaded_leaves names))

private theorem matches_allbugsCode : Matches allbugsCode WellHeaded :=
  (matches_word _ "Allbugs").commit fun _ htext => .after fun _ =>
    matches_variableDeclaration.many.bind fun _ hdeclarations =>
      matches_functionDefinition.many.bind fun _ hfunctions => .after fun _ =>
        .pure (wellHeaded_binary _ _ _ (by rw [htext]; decide)
          (wellHeaded_labeled (by decide) hdeclarations)
          (wellHeaded_labeled (by decide) hfunctions))

private theorem matches_bugDefinition : Matches bugDefinition WellHeaded :=
  (matches_word _ "Bug").commit fun _ htext => .after fun _ => .after fun _ =>
    matches_variableDeclaration.many.bind fun _ hdeclarations =>
      matches_initialBlock.bind fun o ho => (Returns.expect matches_command _).bind fun _ hfirst =>
        matches_command.many.bind fun _ hrest =>
          matches_functionDefinition.many.bind fun _ hfunctions => .after fun _ =>
            .pure (.other (by rw [htext]; decide) (by
              have hinitially : (o.getD (labeled "initially" [])).WellHeaded := by
                cases o with
                | none => exact wellHeaded_labeled (by decide) nofun
                | some body => exact ho body rfl
              simp only [List.forall_mem_cons]
              exact ⟨wellHeaded_leaf _, wellHeaded_labeled (by decide) hdeclarations,
                hinitially, wellHeaded_labeled (by decide)
                  (List.forall_mem_cons.mpr ⟨hfirst, hrest⟩),
                wellHeaded_labeled (by decide) hfunctions, nofun⟩))

private theorem returns_sharedSection : Returns sharedSection WellHeaded := by
  refine matches_allbugsCode.bind fun o ho => ?_
  cases o with
  | none => exact .pure (wellHeaded_labeled (by decide) nofun)
  | some allbugs =>
    refine .after fun followed => ?_
    cases followed with
    | true => exact .pure (ho allbugs rfl)
    | false => exact returns_fail _

private theorem matches_program : Matches program WellHeaded := by
  refine .after fun _ => returns_sharedSection.bind fun _ hshared =>
    matches_bugDefinition.many.bind fun bugs hbugs => ?_
  cases bugs with
  | nil => exact matches_none
  | cons bug bugs =>
    refine .after fun _ => .pure fun t ht => ?_
    obtain rfl := Option.some.inj ht
    exact wellHeaded_labeled (by decide) (by
      simp only [List.forall_mem_cons]
      exact ⟨hshared, wellHeaded_labeled (by decide) hbugs, nofun⟩)

private theorem matches_rules : ∀ rule ∈ program :: rules, Matches rule WellHeaded :=
  List.forall_iff_forall_mem.mp
    ⟨matches_program, matches_allbugsCode, matches_bugDefinition, matches_initialBlock,
      matches_functionDefinition, matches_variableDeclaration, matches_block, matches_command,
      matches_action, matches_statementOver matches_command, matches_withOperands (by decide) _,
      matches_withOperands (by decide) _, matches_withOperands (by decide) _,
      matches_withOperands (by decide) _, matches_withOperands (by decide) _,
      matches_withOperands (by decide) _, matches_assignment, matches_loopOver matches_command,
      matches_exitStatement, matches_switchOver matches_command, matches_doStatement,
      matches_colorStatement, matches_expression, matches_arithmeticOver matches_expression,
      matches_termOver matches_expression, matches_factorOver matches_expression,
      matches_unsignedFactorOver matches_expression, matches_functionCall, matches_parameterList⟩

end Grammar

private theorem Tree.Parsed.wellHeaded {t : Tree} (h : t.Parsed) : t.WellHeaded := by
  induction h with
  | whole hrule h => exact Grammar.matches_rules _ hrule _ _ _ h _ rfl
  | part _ hc ih => exact ih.child hc

/-- Every loop that was read from a text is over a block. -/
theorem Tree.Parsed.text_child? {t body : Tree} (h : t.Parsed) (htext : t.text = "loop")
    (hbody : t.child? 0 = some body) : body.text = "block" := by
  obtain ⟨hloop, -, -⟩ := h.wellHeaded
  exact hloop htext body (List.head?_eq_getElem? ▸ hbody)

/-- Every assignment that was read from a text is to a name. -/
theorem Tree.Parsed.kind_child? {t target : Tree} (h : t.Parsed) (htext : t.text = "assign")
    (htarget : t.child? 0 = some target) : target.kind = .name := by
  obtain ⟨-, hassign, -⟩ := h.wellHeaded
  exact hassign htext target (List.head?_eq_getElem? ▸ htarget)

end DrawingBugs
