import DrawingBugs.Proofs.Grammar.Loading
import DrawingBugs.Proofs.Grammar.Relaid
import DrawingBugs.Proofs.Grammar.Splitting

/-!
# Layout does not matter

Every rule of the language comes off alike on relaid streams: no rule reads a line end without
those after it, and none looks past one. So a text may be laid out anew, and it still loads as the
same program or is refused with the same message.
-/

namespace DrawingBugs

/-! ## Tokens without their layout -/

namespace Token

/-- The tokens from the first one that is not a line end. -/
def dropLines (ts : List Token) : List Token := ts.dropWhile (·.kind = .endOfLine)

/-- The tokens with one line end for each run of them. -/
def collapseLines (ts : List Token) : List Token :=
  ts.destutter fun t u => ¬ (t.kind = .endOfLine ∧ u.kind = .endOfLine)

/-- The tokens without their layout: no places, no line ends at the top, and one line end wherever
there are several in a row. -/
def layoutFree (ts : List Token) : List Token := (collapseLines (dropLines ts)).map unplaced

private theorem dropLines_line {t : Token} (ht : t.kind = .endOfLine) (ts : List Token) :
    dropLines (t :: ts) = dropLines ts := List.dropWhile_cons_of_pos (decide_eq_true ht)

private theorem dropLines_other {t : Token} (ht : t.kind ≠ .endOfLine) (ts : List Token) :
    dropLines (t :: ts) = t :: ts := List.dropWhile_cons_of_neg (by simpa using ht)

private theorem collapseLines_line {t : Token} (ht : t.kind = .endOfLine) (ts : List Token) :
    collapseLines (t :: ts) = t :: collapseLines (dropLines ts) := by
  induction ts with
  | nil => rfl
  | cons u ts ih =>
    simp only [collapseLines, List.destutter_cons'] at ih ⊢
    by_cases hu : u.kind = .endOfLine
    · rw [List.destutter'_cons_neg _ (not_not_intro ⟨ht, hu⟩), dropLines_line hu, ih]
    · rw [List.destutter'_cons_pos _ fun h => hu h.2, dropLines_other hu, List.destutter_cons']

private theorem collapseLines_other {t : Token} (ht : t.kind ≠ .endOfLine) (ts : List Token) :
    collapseLines (t :: ts) = t :: collapseLines ts := by
  cases ts with
  | nil => rfl
  | cons u ts =>
    simp only [collapseLines, List.destutter_cons']
    rw [List.destutter'_cons_pos _ fun h => ht h.1]

private theorem head_collapseLines (t : Token) (ts : List Token) :
    ∃ rest, collapseLines (t :: ts) = t :: rest := by
  by_cases ht : t.kind = .endOfLine
  · exact ⟨_, collapseLines_line ht ts⟩
  · exact ⟨_, collapseLines_other ht ts⟩

end Token

namespace TokenStream

open Token

private theorem outcome_token_eq_ok {t : Token} {σ : TokenStream} {ts : List Token}
    (h : (token t σ).outcome = .ok ts) : ∃ rest, σ.outcome = .ok rest ∧ ts = t :: rest := by
  cases hσ : σ.outcome with
  | error e =>
    rw [outcome, hσ] at h
    cases h
  | ok rest =>
    rw [outcome, hσ] at h
    cases h
    exact ⟨rest, rfl, rfl⟩

private theorem outcome_pastLines {σ : TokenStream} {ts : List Token} (h : σ.outcome = .ok ts) :
    σ.pastLines.outcome = .ok (dropLines ts) := by
  induction σ generalizing ts with
  | failed _ => cases h
  | ended _ =>
    cases h
    rfl
  | token t σ ih =>
    obtain ⟨rest, hrest, rfl⟩ := outcome_token_eq_ok h
    by_cases ht : t.kind = .endOfLine
    · rw [pastLines, if_pos ht, dropLines_line ht, ih hrest]
    · rw [pastLines, if_neg ht, dropLines_other ht, h]

private theorem holds_pastLines {s : Scanner} {σ : TokenStream} (hs : s.Holds σ) :
    ∃ s' : Scanner, s'.Holds σ.pastLines := by
  induction hs with
  | failed h => exact ⟨_, .failed h⟩
  | ended h hs => exact ⟨_, .ended h hs⟩
  | @token s s' t σ h ht hs ih =>
    by_cases hline : t.kind = .endOfLine
    · simp only [pastLines, if_pos hline]
      exact ih
    · simp only [pastLines, if_neg hline]
      exact ⟨s, .token h ht hs⟩

private theorem relaid_of_tokens {s s' : Scanner} {σ σ' : TokenStream} {ts ts' : List Token}
    (hs : s.Holds σ) (hs' : s'.Holds σ') (hts : σ.outcome = .ok ts) (hts' : σ'.outcome = .ok ts')
    (h : (collapseLines ts).map unplaced = (collapseLines ts').map unplaced) : σ.Relaid σ' := by
  generalize hlength : σ.length = length
  induction length using Nat.strong_induction_on generalizing s s' σ σ' ts ts' with
  | _ length ih =>
    cases hs with
    | failed _ => cases hts
    | ended _ _ =>
      cases hts
      cases hs' with
      | failed _ => cases hts'
      | ended _ _ => exact .ended
      | @token _ _ u _ _ hu _ =>
        obtain ⟨us, _, rfl⟩ := outcome_token_eq_ok hts'
        obtain ⟨_, hhead⟩ := head_collapseLines u us
        rw [hhead] at h
        exact absurd (kind_eq_of_unplaced (List.cons.inj h).1).symm hu
    | @token _ _ t σ _ ht hs =>
      obtain ⟨ts, hrest, rfl⟩ := outcome_token_eq_ok hts
      cases hs' with
      | failed _ => cases hts'
      | ended _ _ =>
        cases hts'
        obtain ⟨_, hhead⟩ := head_collapseLines t ts
        rw [hhead] at h
        exact absurd (kind_eq_of_unplaced (List.cons.inj h).1) ht
      | @token _ _ u τ _ hu hs' =>
        obtain ⟨us, hrest', rfl⟩ := outcome_token_eq_ok hts'
        simp only [TokenStream.length] at hlength
        have htoken : t.unplaced = u.unplaced := by
          obtain ⟨_, ht⟩ := head_collapseLines t ts
          obtain ⟨_, hu⟩ := head_collapseLines u us
          rw [ht, hu] at h
          exact (List.cons.inj h).1
        have hkind := kind_eq_of_unplaced htoken
        by_cases hline : t.kind = .endOfLine
        · rw [collapseLines_line hline, collapseLines_line (hkind ▸ hline)] at h
          obtain ⟨_, hpast⟩ := holds_pastLines hs
          obtain ⟨_, hpast'⟩ := holds_pastLines hs'
          have hshorter := σ.length_pastLines
          exact .lines htoken hline (ih _ (by omega) hpast hpast' (outcome_pastLines hrest)
            (outcome_pastLines hrest') (List.cons.inj h).2 rfl)
        · rw [collapseLines_other hline, collapseLines_other (hkind ▸ hline)] at h
          exact .token htoken hline (ih _ (by omega) hs hs' hrest hrest' (List.cons.inj h).2 rfl)

end TokenStream

/-! ## Texts with the same lexemes -/

namespace Text

open Token

/-- Two texts with the same lexemes, but for layout. The gaps in front of the lexemes may differ, and
on a fresh line, which is one on which no lexeme stands so far, either text may have a blank line. -/
inductive Respaced : Bool → List Char → List Char → Prop
  | ended {fresh : Bool} {gap gap' : List Char} (hgap : Gap gap []) (hgap' : Gap gap' []) :
    Respaced fresh gap gap'
  | lexeme {fresh : Bool} {gap gap' lexeme rest rest' : List Char} {kind : Kind} {text : String}
    (hgap : Longest Gap gap (lexeme ++ rest)) (hgap' : Longest Gap gap' (lexeme ++ rest'))
    (hlexeme : Lexeme lexeme rest kind text) (hlexeme' : Lexeme lexeme rest' kind text)
    (hrest : Respaced (kind = .endOfLine) rest rest') :
    Respaced fresh (gap ++ (lexeme ++ rest)) (gap' ++ (lexeme ++ rest'))
  | blankLeft {gap rest text' : List Char} (hgap : Longest Gap gap (['\n'] ++ rest))
    (hrest : Respaced true rest text') : Respaced true (gap ++ (['\n'] ++ rest)) text'
  | blankRight {gap text rest' : List Char} (hgap : Longest Gap gap (['\n'] ++ rest'))
    (hrest : Respaced true text rest') : Respaced true text (gap ++ (['\n'] ++ rest'))

/-- The line ends in front of the tokens do not count on a fresh line. -/
def counted (fresh : Bool) (ts : List Token) : List Token := if fresh then dropLines ts else ts

private theorem counted_cons {t u : Token} (h : t.unplaced = u.unplaced) (fresh : Bool)
    {ts us : List Token} (hrest : (collapseLines (counted (t.kind = .endOfLine) ts)).map unplaced =
      (collapseLines (counted (t.kind = .endOfLine) us)).map unplaced) :
    (collapseLines (counted fresh (t :: ts))).map unplaced =
      (collapseLines (counted fresh (u :: us))).map unplaced := by
  have hkind := kind_eq_of_unplaced h
  by_cases ht : t.kind = .endOfLine
  · simp only [counted, ht, decide_true, if_true] at hrest
    cases fresh with
    | true =>
      simp only [counted, if_true, dropLines_line ht, dropLines_line (hkind ▸ ht), hrest]
    | false =>
      simp only [counted, Bool.false_eq_true, if_false, collapseLines_line ht,
        collapseLines_line (hkind ▸ ht), List.map_cons, h, hrest]
  · simp only [counted, ht, decide_false, Bool.false_eq_true, if_false] at hrest
    have hother (ts : List Token) (v : Token) (hv : v.kind ≠ .endOfLine) :
        counted fresh (v :: ts) = v :: ts := by
      cases fresh with
      | true => exact dropLines_other hv ts
      | false => rfl
    rw [hother ts t ht, hother us u (hkind ▸ ht), collapseLines_other ht,
      collapseLines_other (hkind ▸ ht), List.map_cons, List.map_cons, h, hrest]

private theorem Respaced.splits {fresh : Bool} {text text' : List Char}
    (h : Respaced fresh text text') (before before' : List Char) :
    ∃ ts ts', Splits before text (.ok ts) ∧ Splits before' text' (.ok ts') ∧
      (collapseLines (counted fresh ts)).map unplaced =
        (collapseLines (counted fresh ts')).map unplaced := by
  induction h generalizing before before' with
  | @ended fresh gap gap' hgap hgap' =>
    refine ⟨_, _, .ended hgap, .ended hgap', ?_⟩
    cases fresh <;> rfl
  | @lexeme fresh gap gap' lexeme rest rest' kind text hgap hgap' hlexeme hlexeme' _ ih =>
    obtain ⟨ts, ts', hts, hts', hcollapsed⟩ :=
      ih (before ++ gap ++ lexeme) (before' ++ gap' ++ lexeme)
    refine ⟨_, _, .token hgap hlexeme hts, .token hgap' hlexeme' hts', ?_⟩
    exact @counted_cons ⟨kind, text, .behind (before ++ gap)⟩
      ⟨kind, text, .behind (before' ++ gap')⟩ rfl fresh ts ts' hcollapsed
  | @blankLeft gap rest text' hgap _ ih =>
    obtain ⟨ts, ts', hts, hts', hcollapsed⟩ := ih (before ++ gap ++ ['\n']) before'
    refine ⟨_, ts', .token hgap .line hts, hts', ?_⟩
    rw [← hcollapsed]
    simp only [counted, if_true, dropLines_line]
  | @blankRight gap text rest' hgap _ ih =>
    obtain ⟨ts, ts', hts, hts', hcollapsed⟩ := ih before (before' ++ gap ++ ['\n'])
    refine ⟨ts, _, hts, .token hgap .line hts', ?_⟩
    rw [hcollapsed]
    simp only [counted, if_true, dropLines_line]

end Text

namespace Grammar

open Recognizer

variable {n n' : Nat}

/-! ## Expressions -/

private theorem alike_addOperator : MatchAlike Token.unplaced n n' addOperator addOperator :=
  (alike_symbol _).either (alike_symbol _)

private theorem alike_multiplyOperator :
    MatchAlike Token.unplaced n n' multiplyOperator multiplyOperator :=
  (alike_symbol _).either (alike_symbol _)

private theorem alike_withEquals {first first' : Token} (h : first.unplaced = first'.unplaced) :
    Alike Token.unplaced n n' (withEquals first) (withEquals first') := by
  refine (alike_symbol "=").byMatch (fun _ _ _ => .pure ?_) (.pure h)
  rw [Token.text_eq_of_unplaced h]
  exact Token.unplaced_setText h _

private theorem alike_bangEquals {bang bang' : Token} (h : bang.unplaced = bang'.unplaced) :
    Alike Token.unplaced n n' (bangEquals bang) (bangEquals bang') :=
  ((alike_symbol _).expect _).bind fun _ _ _ => .pure (Token.unplaced_setText h "!=")

private theorem alike_comparator : MatchAlike Token.unplaced n n' comparator comparator :=
  ((alike_symbol _).commit fun _ _ => alike_withEquals).either
    (((alike_symbol _).commit fun _ _ => alike_withEquals).either
      ((alike_symbol _).either ((alike_symbol _).commit fun _ _ => alike_bangEquals)))

private theorem unplaced_leaf {t u : Token} (h : t.unplaced = u.unplaced) :
    (Tree.leaf t).unplaced = (Tree.leaf u).unplaced := by
  simp [Tree.leaf, Tree.unplaced_node, h]

private theorem unplaced_labeled {ts us : List Tree} (label : String)
    (h : ts.map Tree.unplaced = us.map Tree.unplaced) :
    (Tree.labeled label ts).unplaced = (Tree.labeled label us).unplaced := by
  simp [Tree.labeled, Tree.unplaced_node, h]

private theorem unplaced_getD {o o' : Option Tree} (label : String)
    (h : o.map Tree.unplaced = o'.map Tree.unplaced) :
    (o.getD (.labeled label [])).unplaced = (o'.getD (.labeled label [])).unplaced := by
  rw [← Option.getD_map Tree.unplaced, h, Option.getD_map]

private theorem unplaced_callTree {name name' : Token} {arguments arguments' : Tree}
    (hname : name.unplaced = name'.unplaced) (h : arguments.unplaced = arguments'.unplaced) :
    (callTree name arguments).unplaced = (callTree name' arguments').unplaced :=
  unplaced_labeled "call" (by simp [unplaced_leaf hname, h])

section Open

variable {nested nested' : Rule} (hnested : MatchAlike Tree.unplaced n n' nested nested')
include hnested

private theorem alike_argumentsOver :
    Alike (List.map Tree.unplaced) n n' (argumentsOver nested) (argumentsOver nested') := by
  refine hnested.byMatch (fun first first' hfirst => ?_) (.pure rfl)
  exact (hnested.afterCommas .nextArgument).later.bind fun rest rest' hrest =>
    .pure (by simp [hfirst, hrest])

private theorem alike_parameterListOver : MatchAlike Tree.unplaced (n + 1) (n' + 1)
    (parameterListOver nested) (parameterListOver nested') :=
  (alike_symbol _).commit fun _ _ _ => (alike_argumentsOver hnested).bind fun _ _ harguments =>
    ((alike_symbol _).expect _).bind fun _ _ _ => .pure (unplaced_labeled "var" harguments)

private theorem alike_namedOver {name name' : Token} (hname : name.unplaced = name'.unplaced) :
    Alike Tree.unplaced n n' (namedOver nested name) (namedOver nested' name') := by
  refine (alike_symbol ".").byMatch (fun dot dot' hdot => ?_) ?_
  · refine (alike_name.expect _).bind fun field field' hfield => .pure ?_
    simp [Tree.unplaced_node, hdot, unplaced_leaf hname, unplaced_leaf hfield]
  · exact (alike_parameterListOver hnested).later.byMatch
      (fun _ _ harguments => .pure (unplaced_callTree hname harguments)) (.pure (unplaced_leaf hname))

private theorem alike_parenthesizedOver : MatchAlike Tree.unplaced (n + 1) (n' + 1)
    (parenthesizedOver nested) (parenthesizedOver nested') :=
  (alike_symbol _).commit fun _ _ _ => (hnested.expect _).bind fun _ _ hinner =>
    ((alike_symbol _).expect _).bind fun _ _ _ => .pure hinner

private theorem alike_unsignedFactorOver : MatchAlike Tree.unplaced (n + 1) (n' + 1)
    (unsignedFactorOver nested) (unsignedFactorOver nested') :=
  (alike_name.commit fun _ _ => alike_namedOver hnested).either
    (((alike_take (by decide)).commit fun _ _ hnumber => .pure (unplaced_leaf hnumber)).either
      (alike_parenthesizedOver hnested))

private theorem alike_factorOver : MatchAlike Tree.unplaced (n + 1) (n' + 1) (factorOver nested)
    (factorOver nested') := by
  have hfactor := alike_unsignedFactorOver hnested
  refine (alike_addOperator.commit fun sign sign' hsign => ?_).either hfactor
  refine (hfactor.expect _).later.bind fun operand operand' hoperand => .pure ?_
  simp [Tree.unplaced_node, hsign, hoperand]

private theorem alike_termOver : MatchAlike Tree.unplaced (n + 1) (n' + 1) (termOver nested)
    (termOver nested') :=
  (alike_factorOver hnested).chain alike_multiplyOperator _

private theorem alike_arithmeticOver :
    MatchAlike Tree.unplaced (n + 1) (n' + 1) (arithmeticOver nested)
    (arithmeticOver nested') :=
  (alike_termOver hnested).chain alike_addOperator _

private theorem alike_expressionOver :
    MatchAlike Tree.unplaced (n + 1) (n' + 1) (expressionOver nested)
    (expressionOver nested') :=
  (alike_arithmeticOver hnested).chain alike_comparator _

end Open

private theorem alike_expressionWithin (k k' : Nat) :
    MatchAlike Tree.unplaced k k' (expressionWithin k) (expressionWithin k') := by
  induction k generalizing k' with
  | zero => exact .of_zero (.inl rfl)
  | succ k ih =>
    cases k' with
    | zero => exact .of_zero (.inr rfl)
    | succ k' => exact alike_expressionOver (ih k')

private theorem alike_expression : MatchAlike Tree.unplaced n n' expression expression :=
  AlikeBy.sized fun k k' =>
    (alike_expressionWithin k k').mono (Nat.min_le_right n k) (Nat.min_le_right n' k')

private theorem alike_parameterList : MatchAlike Tree.unplaced n n' parameterList parameterList :=
  (alike_parameterListOver alike_expression).later

/-! ## Commands -/

private theorem alike_furtherOperands (word : String) (count : Nat) :
    Alike (List.map Tree.unplaced) n n' (furtherOperands word count) (furtherOperands word count) := by
  induction count with
  | zero => exact .pure rfl
  | succ count ih =>
    refine ((alike_symbol _).expect _).bind fun _ _ _ => ?_
    refine (alike_expression.expect _).bind fun operand operand' hoperand => ?_
    exact ih.bind fun rest rest' hrest => .pure (by simp [hoperand, hrest])

private theorem alike_withOperands (word : String) (further : Nat) :
    MatchAlike Tree.unplaced n n' (withOperands word further) (withOperands word further) := by
  refine (alike_keyword word).commit fun token token' htoken => ?_
  refine (alike_expression.expect _).bind fun first first' hfirst => ?_
  refine (alike_furtherOperands word further).bind fun rest rest' hrest => ?_
  refine (alike_lineEnd.expect _).bind fun _ _ _ => .pure ?_
  simp [Tree.unplaced_node, htoken, hfirst, hrest]

private theorem alike_action : MatchAlike Tree.unplaced n n' action action :=
  (alike_withOperands _ _).either ((alike_withOperands _ _).either ((alike_withOperands _ _).either
    ((alike_withOperands _ _).either (alike_withOperands _ _))))

private theorem alike_assignment : MatchAlike Tree.unplaced n n' assignment assignment := by
  refine alike_name.commit fun name name' hname => ?_
  refine ((alike_symbol _).expect _).bind fun _ _ _ => ?_
  refine (alike_expression.expect _).bind fun value value' hvalue => ?_
  refine (alike_lineEnd.expect _).bind fun _ _ _ => .pure (unplaced_labeled "assign" ?_)
  simp [unplaced_leaf hname, hvalue]

private theorem alike_exitStatement :
    MatchAlike Tree.unplaced n n' exitStatement exitStatement := by
  refine (alike_keyword _).commit fun exit exit' hexit => ?_
  refine ((alike_keyword _).expect _).bind fun _ _ _ => ?_
  refine (alike_expression.expect _).bind fun condition condition' hcondition => ?_
  refine (alike_lineEnd.expect _).bind fun _ _ _ => .pure ?_
  simp [Tree.unplaced_node, hexit, hcondition]

private theorem alike_doStatement : MatchAlike Tree.unplaced n n' doStatement doStatement := by
  refine (alike_keyword _).commit fun _ _ _ => ?_
  refine (alike_name.expect _).bind fun name name' hname => ?_
  refine alike_parameterList.alike.bind fun arguments arguments' harguments => ?_
  refine (alike_lineEnd.expect _).bind fun _ _ _ => .pure (unplaced_callTree hname ?_)
  exact unplaced_getD "var" harguments

private theorem alike_colorStatement :
    MatchAlike Tree.unplaced n n' colorStatement colorStatement := by
  refine (alike_keyword _).commit fun color color' hcolor => ?_
  refine ((alike_take (by decide)).expect _).bind fun value value' hvalue => ?_
  refine (alike_lineEnd.expect _).bind fun _ _ _ => .pure ?_
  simp [Tree.unplaced_node, hcolor, unplaced_leaf hvalue]

section Open

variable {nested nested' : Rule} (hnested : MatchAlike Tree.unplaced n n' nested nested')
include hnested

private theorem alike_blockOver : MatchAlike Tree.unplaced (n + 1) (n' + 1) (blockOver nested)
    (blockOver nested') := by
  refine (alike_symbol _).commit fun _ _ _ => (alike_lineEnd.expect _).bind fun _ _ _ => ?_
  refine hnested.many.bind fun commands commands' hcommands => ?_
  refine ((alike_symbol _).expect _).bind fun _ _ _ => (alike_lineEnd.expect _).bind fun _ _ _ => ?_
  exact .pure (unplaced_labeled "block" hcommands)

private theorem alike_loopOver : MatchAlike Tree.unplaced (n + 1) (n' + 1) (loopOver nested)
    (loopOver nested') := by
  refine (alike_keyword _).commit fun loop loop' hloop => ?_
  refine ((alike_blockOver hnested).expect _).later.bind fun body body' hbody => .pure ?_
  simp [Tree.unplaced_node, hloop, hbody]

private theorem alike_caseOver : MatchAlike Tree.unplaced (n + 1) (n' + 1) (caseOver nested)
    (caseOver nested') := by
  refine (alike_keyword _).commit fun case case' hcase => ?_
  refine (alike_expression.expect _).bind fun guard guard' hguard => ?_
  refine (alike_lineEnd.expect _).bind fun _ _ _ => ?_
  refine hnested.many.bind fun commands commands' hcommands => .pure ?_
  simp [Tree.unplaced_node, hcase, hguard, unplaced_labeled "block" hcommands]

private theorem alike_switchOver : MatchAlike Tree.unplaced (n + 1) (n' + 1) (switchOver nested)
    (switchOver nested') := by
  refine (alike_keyword _).commit fun switch switch' hswitch => ?_
  refine (alike_opening _ _).bind fun _ _ _ => ?_
  refine (alike_caseOver hnested).many.later.bind fun cases cases' hcases => ?_
  refine ((alike_symbol _).expect _).bind fun _ _ _ => (alike_lineEnd.expect _).bind fun _ _ _ => ?_
  exact .pure (by simp [Tree.unplaced_node, hswitch, hcases])

private theorem alike_statementOver :
    MatchAlike Tree.unplaced (n + 1) (n' + 1) (statementOver nested)
    (statementOver nested') :=
  alike_assignment.either ((alike_loopOver hnested).either (alike_exitStatement.either
    ((alike_switchOver hnested).either ((alike_withOperands _ _).either
      (alike_doStatement.either alike_colorStatement)))))

end Open

private theorem alike_commandWithin (k k' : Nat) :
    MatchAlike Tree.unplaced k k' (commandWithin k) (commandWithin k') := by
  induction k generalizing k' with
  | zero => exact .of_zero (.inl rfl)
  | succ k ih =>
    cases k' with
    | zero => exact .of_zero (.inr rfl)
    | succ k' => exact alike_action.either (alike_statementOver (ih k'))

private theorem alike_command : MatchAlike Tree.unplaced n n' command command :=
  AlikeBy.sized fun k k' =>
    (alike_commandWithin k k').mono (Nat.min_le_right n k) (Nat.min_le_right n' k')

private theorem alike_block : MatchAlike Tree.unplaced n n' block block :=
  (alike_blockOver alike_command).later

/-! ## Definitions -/

private theorem alike_initialBlock : MatchAlike Tree.unplaced n n' initialBlock initialBlock := by
  refine (alike_keyword _).commit fun initially initially' hinitially => ?_
  refine (alike_block.expect _).bind fun body body' hbody => .pure ?_
  simp [Tree.unplaced_node, hinitially, hbody]

private theorem alike_parameters : Alike (List.map Token.unplaced) n n' parameters parameters :=
  (alike_keyword _).byMatch (fun _ _ _ => alike_name.commaSeparated _ _) (.pure rfl)

private theorem unplaced_leaves {ts us : List Token}
    (h : ts.map Token.unplaced = us.map Token.unplaced) :
    (ts.map Tree.leaf).map Tree.unplaced = (us.map Tree.leaf).map Tree.unplaced := by
  have hleaf (ts : List Token) :
      (ts.map Tree.leaf).map Tree.unplaced = (ts.map Token.unplaced).map Tree.leaf := by
    simp [Tree.leaf, Tree.unplaced_node]
  rw [hleaf, hleaf, h]

private theorem alike_functionDefinition :
    MatchAlike Tree.unplaced n n' functionDefinition functionDefinition := by
  refine (alike_keyword _).commit fun _ _ _ => ?_
  refine (alike_name.expect _).bind fun name name' hname => ?_
  refine alike_parameters.bind fun parameters parameters' hparameters => ?_
  refine (alike_block.expect _).bind fun body body' hbody => .pure ?_
  refine unplaced_labeled "function" ?_
  simp [unplaced_leaf hname, unplaced_labeled "var" (unplaced_leaves hparameters), hbody]

private theorem alike_variableDeclaration :
    MatchAlike Tree.unplaced n n' variableDeclaration variableDeclaration := by
  refine (alike_keyword _).commit fun var var' hvar => ?_
  refine (alike_name.commaSeparated _ _).bind fun names names' hnames => ?_
  refine (alike_lineEnd.expect _).bind fun _ _ _ => .pure ?_
  rw [Tree.unplaced_node, Tree.unplaced_node, hvar, unplaced_leaves hnames]

private theorem alike_closing (brace line : Expectation) :
    Alike id n n' (closing brace line) (closing brace line) :=
  ((alike_symbol _).expect brace).bind fun _ _ _ => alike_expectLineEndOrEnd line

private theorem alike_allbugsCode : MatchAlike Tree.unplaced n n' allbugsCode allbugsCode := by
  refine (alike_keyword _).commit fun allbugs allbugs' hallbugs => ?_
  refine (alike_opening _ _).bind fun _ _ _ => ?_
  refine alike_variableDeclaration.many.bind fun declared declared' hdeclared => ?_
  refine alike_functionDefinition.many.bind fun functions functions' hfunctions => ?_
  refine (alike_closing _ _).bind fun _ _ _ => .pure ?_
  simp [Tree.unplaced_node, hallbugs, unplaced_labeled "list" hdeclared,
    unplaced_labeled "list" hfunctions]

private theorem alike_bugDefinition :
    MatchAlike Tree.unplaced n n' bugDefinition bugDefinition := by
  refine (alike_keyword _).commit fun bug bug' hbug => ?_
  refine (alike_name.expect _).bind fun name name' hname => ?_
  refine (alike_opening _ _).bind fun _ _ _ => ?_
  refine alike_variableDeclaration.many.bind fun declared declared' hdeclared => ?_
  refine alike_initialBlock.alike.bind fun initially initially' hinitially => ?_
  refine (alike_command.expect _).bind fun first first' hfirst => ?_
  refine alike_command.many.bind fun rest rest' hrest => ?_
  refine alike_functionDefinition.many.bind fun functions functions' hfunctions => ?_
  refine (alike_closing _ _).bind fun _ _ _ => .pure ?_
  have hcommands : (first :: rest).map Tree.unplaced = (first' :: rest').map Tree.unplaced := by
    simp [hfirst, hrest]
  simp [Tree.unplaced_node, hbug, unplaced_leaf hname, unplaced_labeled "list" hdeclared,
    unplaced_getD "initially" hinitially, unplaced_labeled "block" hcommands,
    unplaced_labeled "list" hfunctions]

private theorem alike_sharedSection : Alike Tree.unplaced n n' sharedSection sharedSection :=
  alike_allbugsCode.byMatch (fun _ _ hallbugs => alike_ifNext (.pure hallbugs) (alike_fail _))
    (.pure rfl)

private theorem alike_finish {shared shared' : Tree} {bugs bugs' : List Tree}
    (hshared : shared.unplaced = shared'.unplaced)
    (hbugs : bugs.map Tree.unplaced = bugs'.map Tree.unplaced) :
    Alike Tree.unplaced n n' (finish shared bugs) (finish shared' bugs') := by
  have hempty : bugs.isEmpty = bugs'.isEmpty := by simpa using congrArg List.isEmpty hbugs
  simp only [finish, hempty]
  split
  · exact alike_fail _
  · refine (alike_take_endOfInput.expect _).bind fun _ _ _ => .pure ?_
    refine unplaced_labeled "program" ?_
    simp [hshared, unplaced_labeled "list" hbugs]

private theorem alike_required_afterLines :
    Alike Tree.unplaced n n' (do
      let shared ← sharedSection
      let bugs ← many bugDefinition
      finish shared bugs) (do
      let shared ← sharedSection
      let bugs ← many bugDefinition
      finish shared bugs) :=
  alike_sharedSection.bind fun _ _ hshared => alike_bugDefinition.many.bind
    fun _ _ hbugs => alike_finish hshared hbugs

private theorem endAlike_required {source source' : String}
    (h : (Scanner.sourceStream source).pastLines.Relaid (Scanner.sourceStream source').pastLines) :
    EndAlike Tree.unplaced (fun _ => 0) (Scanner.sourceStream source).pastLines
      (Scanner.sourceStream source').pastLines (Program.required (.ofSource source))
      (Program.required (.ofSource source')) := by
  obtain ⟨t, u, ht, hu, -⟩ := h.next
  obtain ⟨o, s, hline, hs⟩ := lineEnd_of_pastLines (Scanner.holds_sourceStream source) ht
  obtain ⟨o', s', hline', hs'⟩ := lineEnd_of_pastLines (Scanner.holds_sourceStream source') hu
  rw [required_eq, bind_of_ok hline, bind_of_ok hline']
  exact alike_required_afterLines s s' _ _ hs hs' h (Nat.lt_succ_self _) (Nat.lt_succ_self _)

private theorem load_of_ok {source : String} {root : Tree} {s : Scanner}
    (h : Program.required (.ofSource source) = .ok root s) :
    ∃ program, Program.load source = .ok program ∧ program.root = root := by
  cases outcome source with
  | program d _ _ hload =>
    obtain ⟨s', hs'⟩ := hload
    cases h.symm.trans hs'
    exact load_of_required ⟨s, h⟩
  | stuck _ _ _ hread _ _ hload _ =>
    obtain ⟨s', hs'⟩ := hload source _ hread rfl
    cases h.symm.trans hs'

end Grammar

namespace Tree

mutual

private theorem agrees_of_unplaced : ∀ {t u : Tree}, t.unplaced = u.unplaced → t.agrees u
  | node a as, node b bs, h => by
    rw [unplaced, unplaced] at h
    obtain ⟨hvalue, hchildren⟩ := Tree.node.inj h
    have hagree : a.agrees b := by
      simp [Token.agrees, Token.kind_eq_of_unplaced hvalue, Token.text_eq_of_unplaced hvalue]
    simp [agrees, hagree, agreeAll_of_unplaced hchildren]

private theorem agreeAll_of_unplaced :
    ∀ {ts us : List Tree}, unplacedAll ts = unplacedAll us → agreeAll ts us
  | [], [], _ => by simp [agreeAll]
  | t :: ts, u :: us, h => by
    rw [unplacedAll, unplacedAll] at h
    obtain ⟨hhead, htail⟩ := List.cons.inj h
    simp [agreeAll, agrees_of_unplaced hhead, agreeAll_of_unplaced htail]
  | [], _ :: _, h => by simp [unplacedAll] at h
  | _ :: _, [], h => by simp [unplacedAll] at h

end

end Tree

/-! ## Loading -/

namespace Program

open Grammar Recognizer Scanner

/-- Both texts load, as programs that agree in shape, kinds and texts, or both are refused with the
same message about the same find. -/
inductive LoadAlike (source source' : String) : Prop
  | loaded {p p' : Program} (hload : load source = .ok p) (hload' : load source' = .ok p')
    (hroot : p.root.agrees p'.root)
  | refused {e e' : LoadError} (hload : load source = .error e) (hload' : load source' = .error e')
    (hmessage : e.diagnostic.message = e'.diagnostic.message)
    (hfound : e.diagnostic.found = e'.diagnostic.found)

private theorem loadAlike_of_relaid {source source' : String}
    (h : (sourceStream source).pastLines.Relaid (sourceStream source').pastLines) :
    LoadAlike source source' := by
  have hend := endAlike_required h
  generalize hr : required (.ofSource source) = r at hend
  generalize hr' : required (.ofSource source') = r' at hend
  cases hend with
  | @failed x t t' _ _ htoken =>
    have hload : load source = .error (.rejected (.unexpected x t)) := by simp only [load, hr]
    have hload' : load source' = .error (.rejected (.unexpected x t')) := by simp only [load, hr']
    exact .refused hload hload' rfl (congrArg some (Token.quoted_eq_of_unplaced htoken))
  | done hroot _ _ _ _ _ =>
    obtain ⟨p, hload, rfl⟩ := load_of_ok hr
    obtain ⟨p', hload', rfl⟩ := load_of_ok hr'
    exact .loaded hload hload' (Tree.agrees_of_unplaced hroot)

private theorem loadAlike_of_layoutFree {source source' : String} {ts ts' : List Token}
    (hts : (ofSource source).tokens.1 = .ok ts) (hts' : (ofSource source').tokens.1 = .ok ts')
    (h : Token.layoutFree ts = Token.layoutFree ts') : LoadAlike source source' := by
  rw [tokens_ofSource] at hts hts'
  obtain ⟨_, hs⟩ := TokenStream.holds_pastLines (holds_sourceStream source)
  obtain ⟨_, hs'⟩ := TokenStream.holds_pastLines (holds_sourceStream source')
  exact loadAlike_of_relaid (TokenStream.relaid_of_tokens hs hs' (TokenStream.outcome_pastLines hts)
    (TokenStream.outcome_pastLines hts') h)

/-- **Layout does not matter.** Two texts whose tokens are the same without their layout both load,
as programs that agree but for places, or are both refused with the same message and the same find.
In particular this holds of texts that differ in blanks, comments and blank lines only. -/
theorem layout_immaterial :
    (∀ (source source' : String) (ts ts' : List Token), (ofSource source).tokens.1 = .ok ts →
      (ofSource source').tokens.1 = .ok ts' → Token.layoutFree ts = Token.layoutFree ts' →
      LoadAlike source source') ∧
    ∀ source source' : String, Text.Respaced true source.toList source'.toList →
      LoadAlike source source' := by
  constructor
  · intro source source' ts ts' hts hts' h
    exact loadAlike_of_layoutFree hts hts' h
  · intro source source' h
    obtain ⟨ts, ts', hts, hts', hcollapsed⟩ := h.splits [] []
    exact loadAlike_of_layoutFree hts.tokens hts'.tokens hcollapsed

section Sample

private def plainBug : String := "Bug a \x7b\ndo b\n\x7d\n"

private def spacedBug : String :=
  "\n// one\nBug a\x7b /* two\n */\n\n\tdo b\r\n\n\x7d\n\n"

private def plainWord : String := "Allbugs\n"

private def spacedWord : String := "// one\n\tAllbugs /* two */\n\n"

private theorem word_toList : "Allbugs".toList = 'A' :: "llbugs".toList := by decide

private theorem lexeme_word {c : Char} (hc : ¬ c.isAlphanum) (rest : List Char) :
    Text.Lexeme "Allbugs".toList (c :: rest) .keyword "Allbugs" := by
  have hletters : ∀ d ∈ "Allbugs".toList, d.isAlphanum := List.all_eq_true.mp (by decide)
  have hword := Text.longest_word ("llbugs".toList ++ c :: rest) (show 'A'.isAlpha by decide)
  rw [← List.cons_append, ← word_toList, List.takeWhile_append_of_pos hletters,
    List.dropWhile_append_of_pos hletters, List.takeWhile_cons_of_neg hc,
    List.dropWhile_cons_of_neg hc, List.append_nil] at hword
  exact .word hword

private theorem respaced_word : Text.Respaced true plainWord.toList spacedWord.toList := by
  have hline {gap rest : List Char} (hgap : Text.Gap gap ('\n' :: rest)) :
      Text.Longest Text.Gap gap (['\n'] ++ rest) := hgap.longest (Text.bare_of_line (by simp))
  have hword {gap rest : List Char} (hgap : Text.Gap gap ("Allbugs".toList ++ rest)) :
      Text.Longest Text.Gap gap ("Allbugs".toList ++ rest) := by
    refine hgap.longest ?_
    rw [word_toList]
    intro c cs hcs
    obtain ⟨rfl, -⟩ := List.cons.inj hcs
    exact ⟨by decide, fun hslash => absurd hslash (by decide)⟩
  have hone (rest : List Char) : Text.Gap "// one".toList ('\n' :: rest) :=
    @Text.Gap.line " one".toList [] _ (by decide) (by simp) .none
  have htwo (rest : List Char) : Text.Gap " /* two */".toList rest :=
    .blank (by decide) (@Text.Gap.block " two ".toList [] _ (by decide) .none)
  have hplain : plainWord.toList = [] ++ ("Allbugs".toList ++ ([] ++ (['\n'] ++ []))) := by decide
  have hspaced : spacedWord.toList = "// one".toList ++ (['\n'] ++ (['\t'] ++ ("Allbugs".toList ++
      (" /* two */".toList ++ (['\n'] ++ ([] ++ (['\n'] ++ []))))))) := by decide
  rw [hplain, hspaced]
  refine .blankRight (hline (hone _)) (.lexeme (hword .none) (hword (.blank (by decide) .none))
    (lexeme_word (by decide) _) (lexeme_word (by decide) _) ?_)
  refine .lexeme (hline .none) (hline (htwo _)) .line .line ?_
  exact .blankRight (hline .none) (.ended .none .none)

/-- A bug in a plain layout and in a roomy one, and a word after which the brace is missing. -/
theorem layout_immaterial_spaced :
    (∃ ts ts', (ofSource plainBug).tokens.1 = .ok ts ∧ (ofSource spacedBug).tokens.1 = .ok ts' ∧
      ts.length = 10 ∧ ts'.length = 15 ∧ Token.layoutFree ts = Token.layoutFree ts' ∧
      LoadAlike plainBug spacedBug) ∧
    Text.Respaced true plainWord.toList spacedWord.toList ∧ LoadAlike plainWord spacedWord ∧
      (load plainBug).isOk ∧ (load plainWord).isOk = false := by
  have hplain : (ofSource plainBug).tokens.1 = .ok (sourceTokens plainBug) := by cbv
  have hspaced : (ofSource spacedBug).tokens.1 = .ok (sourceTokens spacedBug) := by cbv
  have hlength : (sourceTokens plainBug).length = 10 := by cbv
  have hlength' : (sourceTokens spacedBug).length = 15 := by cbv
  have hsame : Token.layoutFree (sourceTokens plainBug) =
      Token.layoutFree (sourceTokens spacedBug) := by cbv
  have hloads : (load plainBug).isOk := by cbv
  have hrefused : (load plainWord).isOk = false := by cbv
  have hbug := layout_immaterial.1 _ _ _ _ hplain hspaced hsame
  have hword := layout_immaterial.2 _ _ respaced_word
  exact ⟨⟨_, _, hplain, hspaced, hlength, hlength', hsame, hbug⟩, respaced_word, hword, hloads,
    hrefused⟩

end Sample

end Program

end DrawingBugs
