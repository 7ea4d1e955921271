import DrawingBugs.Grammar.Definition
import DrawingBugs.Proofs.Grammar.Combinators
import Mathlib.Data.List.Basic

/-!
# Lookahead

A rule reads at most one token before it decides. When it does not match, that token is back in its
place and everything that can still be read is what it was. A token is never taken back onto
another one. A program that does not match has read the line ends in front of it, and nothing else.
-/

namespace DrawingBugs

namespace Scanner

/-- The scanner after `n` more tokens or errors. -/
def drop : Nat → Scanner → Scanner
  | 0, s => s
  | n + 1, s => drop n s.next.2

/-- What is read after `n` other tokens or errors. -/
def reading (s : Scanner) (n : Nat) : Except LexicalError Token := (s.drop n).next.1

private theorem drop_add (m n : Nat) (s : Scanner) : s.drop (m + n) = (s.drop m).drop n := by
  induction m generalizing s with
  | zero => rw [Nat.zero_add, drop]
  | succ m ih => rw [Nat.succ_add, drop, drop, ih]

private theorem reading_congr {s s' : Scanner} (h : s.next = s'.next) (n : Nat) :
    s.reading n = s'.reading n := by
  cases n with
  | zero => exact congrArg Prod.fst h
  | succ n => rw [reading, reading, drop, drop, h]

/-- Another scanner goes on after all the line ends that come next. -/
def PastLineEnds (s s' : Scanner) : Prop :=
  ∃ k, (∀ n < k, ∃ t, s.reading n = .ok t ∧ t.kind = .endOfLine) ∧
    (∃ t, s.reading k = .ok t ∧ t.kind ≠ .endOfLine) ∧ s'.next = (s.drop k).next

private theorem PastLineEnds.later {s s₁ s' : Scanner} {t : Token} (h : s.next = (.ok t, s₁))
    (ht : t.kind = .endOfLine) (hrest : s₁.PastLineEnds s') : s.PastLineEnds s' := by
  obtain ⟨k, hlines, hother, hnext⟩ := hrest
  have hreading (n : Nat) : s.reading (n + 1) = s₁.reading n := by rw [reading, drop, h, reading]
  refine ⟨k + 1, ?_, ?_, ?_⟩
  · intro n hn
    cases n with
    | zero => exact ⟨t, congrArg Prod.fst h, ht⟩
    | succ n =>
      rw [hreading]
      exact hlines n (Nat.lt_of_succ_lt_succ hn)
  · rw [hreading]
    exact hother
  · rw [drop, h]
    exact hnext

private theorem PastLineEnds.congr {s s₁ s' : Scanner} (h : s.PastLineEnds s₁)
    (hnext : s'.next = s₁.next) : s.PastLineEnds s' := by
  obtain ⟨k, hlines, hother, hk⟩ := h
  exact ⟨k, hlines, hother, hnext.trans hk⟩

private theorem crowded_next (s : Scanner) : s.next.2.crowded = s.crowded := by
  simp only [next]
  split <;> rfl

private theorem crowded_takeBack {s : Scanner} (h : s.pending = none) (t : Token) :
    (s.takeBack t).crowded = s.crowded := by
  simp [takeBack, h]

end Scanner

namespace Recognizer

variable {α β : Type}

/-- The scanner that a recognizer leaves behind, whatever comes of it. -/
def after (p : Recognizer α) (s : Scanner) : Scanner :=
  match p s with
  | .ok _ s' => s'
  | .error _ s' => s'

/-- The recognizer takes no token back while another one is pending. -/
def Steady (p : Recognizer α) : Prop := ∀ s, (p.after s).crowded = s.crowded

/-- A steady recognizer that puts back what it has read when it does not match. -/
structure Cautious (p : Recognizer (Option α)) : Prop where
  steady : Steady p
  restores : ∀ s s', p s = .ok none s' → s'.next = s.next

theorem bind_eq_ok {p : Recognizer α} {f : α → Recognizer β} {s s' : Scanner} {b : β}
    (h : (p >>= f) s = .ok b s') : ∃ a s₁, p s = .ok a s₁ ∧ f a s₁ = .ok b s' := by
  replace h : EStateM.bind p f s = .ok b s' := h
  simp only [EStateM.bind] at h
  split at h
  · next a s₁ ha => exact ⟨a, s₁, ha, h⟩
  · cases h

/-! ## Steady recognizers -/

private theorem Steady.pure (a : α) : Steady (pure a) := fun _ => rfl

private theorem Steady.bind {p : Recognizer α} {f : α → Recognizer β} (hp : Steady p)
    (hf : ∀ a, Steady (f a)) : Steady (p >>= f) := by
  intro s
  have hfirst := hp s
  show (match EStateM.bind p f s with | .ok _ s' => s' | .error _ s' => s').crowded = s.crowded
  simp only [EStateM.bind, after] at hfirst ⊢
  cases hs : p s with
  | ok a s₁ =>
    rw [hs] at hfirst
    exact (hf a s₁).trans hfirst
  | error e s₁ =>
    rw [hs] at hfirst
    exact hfirst

private theorem steady_nextToken_bind {f : Token → Recognizer α}
    (hf : ∀ t s, s.pending = none → ((f t).after s).crowded = s.crowded) :
    Steady (nextToken >>= f) := by
  intro s
  have hcrowded := s.crowded_next
  show (match EStateM.bind nextToken f s with
    | .ok _ s' => s'
    | .error _ s' => s').crowded = s.crowded
  cases hnext : s.next with
  | mk r s' =>
    rw [hnext] at hcrowded
    cases r with
    | ok t =>
      simp only [EStateM.bind, nextToken_of_next hnext]
      exact (hf t s' (Scanner.pending_of_next hnext)).trans hcrowded
    | error e =>
      simp only [EStateM.bind, nextToken_of_failed hnext]
      exact hcrowded

private theorem steady_nextToken : Steady nextToken := by
  have hsteady : Steady (nextToken >>= pure) := steady_nextToken_bind fun _ _ _ => rfl
  rwa [bind_pure] at hsteady

private theorem steady_isNext (kind : Kind) (text : String) : Steady (isNext kind text) :=
  steady_nextToken_bind fun t _ hs => Scanner.crowded_takeBack hs t

private theorem steady_take (kind : Kind) (text : Option String) : Steady (take kind text) := by
  refine steady_nextToken_bind fun t s hs => ?_
  by_cases hfits : t.fits kind text
  · simp only [hfits, if_true]
    rfl
  · simp only [hfits]
    exact Scanner.crowded_takeBack hs t

private theorem steady_fail (expected : Expectation) : Steady (fail expected : Recognizer α) :=
  steady_nextToken_bind fun _ _ _ => rfl

private theorem Steady.expect {p : Recognizer (Option α)} (hp : Steady p) (expected : Expectation) :
    Steady (expect p expected) := by
  refine hp.bind fun o => ?_
  cases o with
  | none => exact steady_fail expected
  | some a => exact .pure a

private theorem Steady.sized {p : Nat → Recognizer α} (hp : ∀ fuel, Steady (p fuel)) :
    Steady (sized p) :=
  fun s => hp (s.size + 1) s

private theorem Steady.manyWithin {p : Recognizer (Option α)} (hp : Steady p) (fuel : Nat) :
    Steady (manyWithin p fuel) := by
  induction fuel with
  | zero => exact .pure []
  | succ fuel ih =>
    refine hp.bind fun o => ?_
    cases o with
    | none => exact .pure []
    | some a => exact ih.bind fun _ => .pure _

private theorem Steady.many {p : Recognizer (Option α)} (hp : Steady p) : Steady (many p) :=
  .sized hp.manyWithin

private theorem Steady.chainWithin {operand : Rule} {operator : Recognizer (Option Token)}
    (hoperand : Steady operand) (hoperator : Steady operator) (expected : Expectation) (fuel : Nat)
    (left : Tree) : Steady (chainWithin operand operator expected fuel left) := by
  induction fuel generalizing left with
  | zero => exact .pure left
  | succ fuel ih =>
    refine hoperator.bind fun o => ?_
    cases o with
    | none => exact .pure left
    | some op => exact (hoperand.expect expected).bind fun _ => ih _

/-! ## Cautious recognizers -/

private theorem take_eq_none {kind : Kind} {text : Option String} {s s' : Scanner}
    (h : take kind text s = .ok none s') :
    ∃ t s₁, s.next = (.ok t, s₁) ∧ t.fits kind text = false ∧ s' = s₁.takeBack t := by
  cases hnext : s.next with
  | mk r s₁ =>
    cases r with
    | ok t =>
      rw [take_of_next hnext] at h
      split at h
      · cases h
      · next hfits =>
        cases h
        exact ⟨t, s₁, rfl, Bool.eq_false_iff.mpr hfits, rfl⟩
    | error e =>
      rw [take_of_failed hnext] at h
      cases h

private theorem cautious_take (kind : Kind) (text : Option String) : Cautious (take kind text) := by
  refine ⟨steady_take kind text, ?_⟩
  intro s s' h
  obtain ⟨t, s₁, hnext, -, rfl⟩ := take_eq_none h
  rw [hnext]
  exact Scanner.next_takeBack t s₁ (Scanner.pending_of_next hnext)

private theorem take_eq_some {kind : Kind} {text : Option String} {s s' : Scanner} {t : Token}
    (h : take kind text s = .ok (some t) s') : s.next = (.ok t, s') ∧ t.kind = kind := by
  cases hnext : s.next with
  | mk r s₁ =>
    cases r with
    | ok t' =>
      rw [take_of_next hnext] at h
      split at h
      · next hfits =>
        cases h
        exact ⟨rfl, Token.kind_of_fits hfits⟩
      · cases h
    | error e =>
      rw [take_of_failed hnext] at h
      cases h

private theorem cautious_none : Cautious (pure none : Recognizer (Option α)) := by
  refine ⟨.pure none, ?_⟩
  intro s s' h
  cases h
  rfl

private theorem commit_eq_none {lead : Recognizer (Option α)} {body : α → Recognizer β}
    {s s' : Scanner} (h : commit lead body s = .ok none s') : lead s = .ok none s' := by
  obtain ⟨o, s₁, hlead, hrest⟩ := bind_eq_ok h
  cases o with
  | none =>
    cases hrest
    exact hlead
  | some a =>
    obtain ⟨b, s₂, -, hb⟩ := bind_eq_ok hrest
    cases hb

/-- A rule that commits itself with its first part is as cautious as that. -/
private theorem Cautious.commit {lead : Recognizer (Option α)} {body : α → Recognizer β}
    (hlead : Cautious lead) (hbody : ∀ a, Steady (body a)) : Cautious (commit lead body) := by
  constructor
  · refine hlead.steady.bind fun o => ?_
    cases o with
    | none => exact .pure none
    | some a => exact (hbody a).bind fun b => .pure (some b)
  · intro s s' h
    exact hlead.restores s s' (commit_eq_none h)

private theorem Cautious.either {p q : Recognizer (Option α)} (hp : Cautious p) (hq : Cautious q) :
    Cautious (either p q) := by
  constructor
  · refine hp.steady.bind fun o => ?_
    cases o with
    | none => exact hq.steady
    | some a => exact .pure (some a)
  · intro s s' h
    obtain ⟨o, s₁, hfirst, hsecond⟩ := bind_eq_ok h
    cases o with
    | none => exact (hq.restores s₁ s' hsecond).trans (hp.restores s s₁ hfirst)
    | some a => cases hsecond

private theorem Cautious.sized {p : Nat → Recognizer (Option α)} (hp : ∀ fuel, Cautious (p fuel)) :
    Cautious (sized p) :=
  ⟨.sized fun fuel => (hp fuel).steady, fun s s' h => (hp (s.size + 1)).restores s s' h⟩

private theorem Cautious.chain {operand : Rule} {operator : Recognizer (Option Token)}
    (hoperand : Cautious operand) (hoperator : Steady operator) (expected : Expectation) :
    Cautious (chain operand operator expected) :=
  hoperand.commit fun left => .sized fun fuel =>
    hoperand.steady.chainWithin hoperator expected fuel left

private theorem cautious_lineEnd : Cautious lineEnd :=
  (cautious_take _ _).commit fun _ => (steady_take _ _).many.bind fun _ => .pure ()

private theorem steady_expectLineEndOrEnd (expected : Expectation) :
    Steady (expectLineEndOrEnd expected) := by
  refine cautious_lineEnd.steady.bind fun o => ?_
  cases o with
  | none =>
    refine (steady_isNext _ _).bind fun ended => ?_
    cases ended with
    | false => exact steady_fail expected
    | true => exact .pure ()
  | some a => exact .pure ()

private theorem steady_opening (brace line : Expectation) : Steady (opening brace line) :=
  ((steady_take _ _).expect brace).bind fun _ => cautious_lineEnd.steady.expect line

private theorem Steady.commaSeparated {item : Recognizer (Option α)} (hitem : Steady item)
    (first next : Expectation) : Steady (commaSeparated item first next) :=
  (hitem.expect first).bind fun _ =>
    ((cautious_take _ _).commit fun _ => hitem.expect next).steady.many.bind fun _ => .pure _

end Recognizer

namespace Grammar

open Recognizer

/-! ## Expressions -/

private theorem cautious_addOperator : Cautious addOperator :=
  (cautious_take _ _).either (cautious_take _ _)

private theorem cautious_multiplyOperator : Cautious multiplyOperator :=
  (cautious_take _ _).either (cautious_take _ _)

private theorem steady_withEquals (first : Token) : Steady (withEquals first) := by
  refine (steady_take _ _).bind fun o => ?_
  cases o with
  | none => exact .pure first
  | some _ => exact .pure _

private theorem cautious_comparator : Cautious comparator :=
  ((cautious_take _ _).commit steady_withEquals).either
    (((cautious_take _ _).commit steady_withEquals).either
      ((cautious_take _ _).either
        ((cautious_take _ _).commit fun _ => ((steady_take _ _).expect _).bind fun _ => .pure _)))

section Open

variable {nested : Rule} (hnested : Cautious nested)
include hnested

private theorem steady_argumentsOver : Steady (argumentsOver nested) := by
  refine hnested.steady.bind fun o => ?_
  cases o with
  | none => exact .pure []
  | some first =>
    exact ((cautious_take _ _).commit fun _ => hnested.steady.expect _).steady.many.bind fun _ =>
      .pure _

private theorem cautious_parameterListOver : Cautious (parameterListOver nested) :=
  (cautious_take _ _).commit fun _ => (steady_argumentsOver hnested).bind fun _ =>
    ((steady_take _ _).expect _).bind fun _ => .pure _

private theorem steady_namedOver (name : Token) : Steady (namedOver nested name) := by
  refine (steady_take _ _).bind fun o => ?_
  cases o with
  | none =>
    refine (cautious_parameterListOver hnested).steady.bind fun o => ?_
    cases o with
    | none => exact .pure _
    | some _ => exact .pure _
  | some dot => exact ((steady_take _ _).expect _).bind fun _ => .pure _

private theorem cautious_parenthesizedOver : Cautious (parenthesizedOver nested) :=
  (cautious_take _ _).commit fun _ => (hnested.steady.expect _).bind fun _ =>
    ((steady_take _ _).expect _).bind fun _ => .pure _

private theorem cautious_unsignedFactorOver : Cautious (unsignedFactorOver nested) :=
  ((cautious_take _ _).commit (steady_namedOver hnested)).either
    (((cautious_take _ _).commit fun _ => .pure _).either (cautious_parenthesizedOver hnested))

private theorem cautious_factorOver : Cautious (factorOver nested) :=
  (cautious_addOperator.commit fun _ =>
    ((cautious_unsignedFactorOver hnested).steady.expect _).bind fun _ => .pure _).either
    (cautious_unsignedFactorOver hnested)

private theorem cautious_termOver : Cautious (termOver nested) :=
  (cautious_factorOver hnested).chain cautious_multiplyOperator.steady _

private theorem cautious_arithmeticOver : Cautious (arithmeticOver nested) :=
  (cautious_termOver hnested).chain cautious_addOperator.steady _

private theorem cautious_expressionOver : Cautious (expressionOver nested) :=
  (cautious_arithmeticOver hnested).chain cautious_comparator.steady _

end Open

private theorem cautious_expression : Cautious expression := by
  refine .sized fun fuel => ?_
  induction fuel with
  | zero => exact cautious_none
  | succ fuel ih => exact cautious_expressionOver ih

private theorem cautious_parameterList : Cautious parameterList :=
  cautious_parameterListOver cautious_expression

private theorem cautious_functionCall : Cautious functionCall :=
  (cautious_take _ _).commit fun _ => (cautious_parameterList.steady.expect _).bind fun _ => .pure _

/-! ## Commands -/

private theorem steady_furtherOperands (word : String) (count : Nat) :
    Steady (furtherOperands word count) := by
  induction count with
  | zero => exact .pure []
  | succ count ih =>
    exact ((steady_take _ _).expect _).bind fun _ =>
      (cautious_expression.steady.expect _).bind fun _ => ih.bind fun _ => .pure _

private theorem cautious_withOperands (word : String) (further : Nat) :
    Cautious (withOperands word further) :=
  (cautious_take _ _).commit fun _ => (cautious_expression.steady.expect _).bind fun _ =>
    (steady_furtherOperands word further).bind fun _ =>
      (cautious_lineEnd.steady.expect _).bind fun _ => .pure _

private theorem cautious_action : Cautious action :=
  (cautious_withOperands _ _).either ((cautious_withOperands _ _).either
    ((cautious_withOperands _ _).either
      ((cautious_withOperands _ _).either (cautious_withOperands _ _))))

private theorem cautious_assignment : Cautious assignment :=
  (cautious_take _ _).commit fun _ => ((steady_take _ _).expect _).bind fun _ =>
    (cautious_expression.steady.expect _).bind fun _ =>
      (cautious_lineEnd.steady.expect _).bind fun _ => .pure _

private theorem cautious_exitStatement : Cautious exitStatement :=
  (cautious_take _ _).commit fun _ => ((steady_take _ _).expect _).bind fun _ =>
    (cautious_expression.steady.expect _).bind fun _ =>
      (cautious_lineEnd.steady.expect _).bind fun _ => .pure _

private theorem cautious_doStatement : Cautious doStatement :=
  (cautious_take _ _).commit fun _ => ((steady_take _ _).expect _).bind fun _ =>
    cautious_parameterList.steady.bind fun _ =>
      (cautious_lineEnd.steady.expect _).bind fun _ => .pure _

private theorem cautious_colorStatement : Cautious colorStatement :=
  (cautious_take _ _).commit fun _ => ((steady_take _ _).expect _).bind fun _ =>
    (cautious_lineEnd.steady.expect _).bind fun _ => .pure _

section Open

variable {nested : Rule} (hnested : Cautious nested)
include hnested

private theorem cautious_blockOver : Cautious (blockOver nested) :=
  (cautious_take _ _).commit fun _ => (cautious_lineEnd.steady.expect _).bind fun _ =>
    hnested.steady.many.bind fun _ => ((steady_take _ _).expect _).bind fun _ =>
      (cautious_lineEnd.steady.expect _).bind fun _ => .pure _

private theorem cautious_loopOver : Cautious (loopOver nested) :=
  (cautious_take _ _).commit fun _ =>
    ((cautious_blockOver hnested).steady.expect _).bind fun _ => .pure _

private theorem cautious_caseOver : Cautious (caseOver nested) :=
  (cautious_take _ _).commit fun _ => (cautious_expression.steady.expect _).bind fun _ =>
    (cautious_lineEnd.steady.expect _).bind fun _ => hnested.steady.many.bind fun _ => .pure _

private theorem cautious_switchOver : Cautious (switchOver nested) :=
  (cautious_take _ _).commit fun _ => (steady_opening _ _).bind fun _ =>
    (cautious_caseOver hnested).steady.many.bind fun _ => ((steady_take _ _).expect _).bind fun _ =>
      (cautious_lineEnd.steady.expect _).bind fun _ => .pure _

private theorem cautious_statementOver : Cautious (statementOver nested) :=
  cautious_assignment.either ((cautious_loopOver hnested).either (cautious_exitStatement.either
    ((cautious_switchOver hnested).either ((cautious_withOperands _ _).either
      (cautious_doStatement.either cautious_colorStatement)))))

end Open

private theorem cautious_command : Cautious command := by
  refine .sized fun fuel => ?_
  induction fuel with
  | zero => exact cautious_none
  | succ fuel ih => exact cautious_action.either (cautious_statementOver ih)

private theorem cautious_block : Cautious block := cautious_blockOver cautious_command

/-! ## Definitions -/

private theorem cautious_initialBlock : Cautious initialBlock :=
  (cautious_take _ _).commit fun _ => (cautious_block.steady.expect _).bind fun _ => .pure _

private theorem steady_parameters : Steady parameters := by
  refine (steady_take _ _).bind fun o => ?_
  cases o with
  | none => exact .pure []
  | some _ => exact (steady_take _ _).commaSeparated _ _

private theorem cautious_functionDefinition : Cautious functionDefinition :=
  (cautious_take _ _).commit fun _ => ((steady_take _ _).expect _).bind fun _ =>
    steady_parameters.bind fun _ => (cautious_block.steady.expect _).bind fun _ => .pure _

private theorem cautious_variableDeclaration : Cautious variableDeclaration :=
  (cautious_take _ _).commit fun _ => ((steady_take _ _).commaSeparated _ _).bind fun _ =>
    (cautious_lineEnd.steady.expect _).bind fun _ => .pure _

private theorem steady_closing (brace line : Expectation) : Steady (closing brace line) :=
  ((steady_take _ _).expect brace).bind fun _ => steady_expectLineEndOrEnd line

private theorem cautious_allbugsCode : Cautious allbugsCode :=
  (cautious_take _ _).commit fun _ => (steady_opening _ _).bind fun _ =>
    cautious_variableDeclaration.steady.many.bind fun _ =>
      cautious_functionDefinition.steady.many.bind fun _ =>
        (steady_closing _ _).bind fun _ => .pure _

private theorem cautious_bugDefinition : Cautious bugDefinition :=
  (cautious_take _ _).commit fun _ => ((steady_take _ _).expect _).bind fun _ =>
    (steady_opening _ _).bind fun _ => cautious_variableDeclaration.steady.many.bind fun _ =>
      cautious_initialBlock.steady.bind fun _ => (cautious_command.steady.expect _).bind fun _ =>
        cautious_command.steady.many.bind fun _ =>
          cautious_functionDefinition.steady.many.bind fun _ =>
            (steady_closing _ _).bind fun _ => .pure _

private theorem steady_sharedSection : Steady sharedSection := by
  refine cautious_allbugsCode.steady.bind fun o => ?_
  cases o with
  | none => exact .pure _
  | some allbugs =>
    refine (steady_isNext _ _).bind fun followed => ?_
    cases followed with
    | false => exact steady_fail _
    | true => exact .pure _

private theorem steady_program : Steady program := by
  refine cautious_lineEnd.steady.bind fun _ => steady_sharedSection.bind fun _ => ?_
  refine cautious_bugDefinition.steady.many.bind fun bugs => ?_
  cases bugs with
  | nil => exact .pure none
  | cons bug bugs => exact ((steady_take _ _).expect _).bind fun _ => .pure _

/-! ## Programs -/

private theorem pastLineEnds_of_take {s s' : Scanner} (h : take .endOfLine none s = .ok none s') :
    s.PastLineEnds s' := by
  have hrestored := (cautious_take _ _).restores s s' h
  obtain ⟨t, s₁, hnext, hfits, -⟩ := take_eq_none h
  refine ⟨0, by simp, ⟨t, congrArg Prod.fst hnext, ?_⟩, hrestored⟩
  intro hkind
  simp [Token.fits, hkind] at hfits

private theorem manyWithin_lineEnds {fuel : Nat} {s s' : Scanner} {ts : List Token}
    (hfuel : s.size < fuel)
    (h : manyWithin (take .endOfLine none) fuel s = .ok ts s') : s.PastLineEnds s' := by
  induction fuel generalizing s ts with
  | zero => exact absurd hfuel (Nat.not_lt_zero _)
  | succ fuel ih =>
    obtain ⟨o, s₁, hfirst, hrest⟩ := bind_eq_ok h
    cases o with
    | none =>
      cases hrest
      exact pastLineEnds_of_take hfirst
    | some t =>
      obtain ⟨hnext, hkind⟩ := take_eq_some hfirst
      obtain ⟨ts, s₂, hmany, hpure⟩ := bind_eq_ok hrest
      cases hpure
      have hsize := Scanner.size_of_next hnext (by rw [hkind]; decide)
      exact .later hnext hkind (ih (by omega) hmany)

private theorem lineEnd_eq_ok {s s' : Scanner} {o : Option Unit} (h : lineEnd s = .ok o s') :
    s.PastLineEnds s' := by
  obtain ⟨o, s₁, hfirst, hrest⟩ := bind_eq_ok h
  cases o with
  | none =>
    cases hrest
    exact pastLineEnds_of_take hfirst
  | some t =>
    obtain ⟨hnext, hkind⟩ := take_eq_some hfirst
    obtain ⟨_, s₂, hbody, hpure⟩ := bind_eq_ok hrest
    obtain ⟨ts, s₃, hmany, hunit⟩ := bind_eq_ok hbody
    cases hunit
    cases hpure
    exact .later hnext hkind (manyWithin_lineEnds (Nat.lt_succ_self _) hmany)

private theorem sharedSection_eq_ok {s s' : Scanner} {shared : Tree}
    (h : sharedSection s = .ok shared s') :
    s'.next = s.next ∨ ∃ t s₁, s'.next = (.ok t, s₁) ∧ t.fits .keyword (some "Bug") := by
  obtain ⟨o, s₁, hallbugs, hrest⟩ := bind_eq_ok h
  cases o with
  | none =>
    cases hrest
    exact .inl (cautious_allbugsCode.restores s s' hallbugs)
  | some allbugs =>
    obtain ⟨followed, s₂, hahead, hreturn⟩ := bind_eq_ok hrest
    cases followed with
    | false =>
      obtain ⟨t, s₃, -, hthrow⟩ := bind_eq_ok hreturn
      cases hthrow
    | true =>
      cases hreturn
      cases hnext : s₁.next with
      | mk r s₃ =>
        cases r with
        | ok t =>
          rw [isNext_of_next hnext] at hahead
          obtain ⟨hfits, rfl⟩ := EStateM.Result.ok.inj hahead
          exact .inr ⟨t, s₃, Scanner.next_takeBack t s₃ (Scanner.pending_of_next hnext), hfits⟩
        | error e =>
          rw [isNext_of_failed hnext] at hahead
          cases hahead

private theorem many_eq_nil {p : Rule} {s s' : Scanner} (h : many p s = .ok [] s') :
    p s = .ok none s' := by
  obtain ⟨o, s₁, hfirst, hrest⟩ := bind_eq_ok h
  cases o with
  | none =>
    cases hrest
    exact hfirst
  | some a =>
    obtain ⟨as, s₂, -, hcons⟩ := bind_eq_ok hrest
    cases hcons

/-- A program that does not match has read the line ends in front of it. -/
private theorem program_eq_none {s s' : Scanner} (h : program s = .ok none s') :
    s.PastLineEnds s' := by
  obtain ⟨_, s₁, hlines, h⟩ := bind_eq_ok h
  obtain ⟨shared, s₂, hshared, h⟩ := bind_eq_ok h
  obtain ⟨bugs, s₃, hbugs, h⟩ := bind_eq_ok h
  cases bugs with
  | cons bug bugs =>
    obtain ⟨t, s₄, -, hsome⟩ := bind_eq_ok h
    cases hsome
  | nil =>
    cases h
    have hbug := many_eq_nil hbugs
    have hrestored := cautious_bugDefinition.restores s₂ s' hbug
    cases sharedSection_eq_ok hshared with
    | inl hleft => exact (lineEnd_eq_ok hlines).congr (hrestored.trans hleft)
    | inr hfollowed =>
      -- The first token of a bug definition cannot be refused by one.
      obtain ⟨t, s₄, hnext, hfits⟩ := hfollowed
      obtain ⟨t', s₅, hnext', hfits', -⟩ := take_eq_none (commit_eq_none hbug)
      cases hnext.symm.trans hnext'
      rw [hfits] at hfits'
      cases hfits'

/-- The rules of the language, without the one for whole programs. -/
def rules : List Rule :=
  [allbugsCode, bugDefinition, initialBlock, functionDefinition, variableDeclaration, block,
    command, action, statement, moveAction, moveToAction, turnAction, turnToAction, lineAction,
    returnStatement, assignment, loopStatement, exitStatement, switchStatement, doStatement,
    colorStatement, expression, arithmetic, term, factor, unsignedFactor, functionCall,
    parameterList]

private theorem cautious_rules : ∀ rule ∈ rules, Cautious rule :=
  List.forall_iff_forall_mem.mp
    ⟨cautious_allbugsCode, cautious_bugDefinition, cautious_initialBlock,
      cautious_functionDefinition, cautious_variableDeclaration, cautious_block, cautious_command,
      cautious_action,
      cautious_statementOver cautious_command, cautious_withOperands _ _, cautious_withOperands _ _,
      cautious_withOperands _ _, cautious_withOperands _ _, cautious_withOperands _ _,
      cautious_withOperands _ _, cautious_assignment, cautious_loopOver cautious_command,
      cautious_exitStatement, cautious_switchOver cautious_command, cautious_doStatement,
      cautious_colorStatement, cautious_expression, cautious_arithmeticOver cautious_expression,
      cautious_termOver cautious_expression, cautious_factorOver cautious_expression,
      cautious_unsignedFactorOver cautious_expression, cautious_functionCall,
      cautious_parameterList⟩

private theorem steady_rules : ∀ rule ∈ program :: rules, Steady rule :=
  List.forall_mem_cons.mpr ⟨steady_program, fun rule hrule => (cautious_rules rule hrule).steady⟩

/-- The scanners that come up for a source when rules and single tokens are asked for one after the
other, also after errors. -/
inductive Reached (source : String) : Scanner → Prop
  | fresh : Reached source (.ofSource source)
  | token {s : Scanner} (h : Reached source s) : Reached source (nextToken.after s)
  | rule {s : Scanner} {rule : Rule} (hrule : rule ∈ program :: rules) (h : Reached source s) :
    Reached source (rule.after s)

private theorem Reached.crowded {source : String} {s : Scanner} (h : Reached source s) :
    s.crowded = false := by
  induction h with
  | fresh => rfl
  | token _ ih => exact (steady_nextToken _).trans ih
  | rule hrule _ ih => exact (steady_rules _ hrule _).trans ih

/-- A rule that does not match leaves everything that can be read as it was, from every state of the
scanner. A program that does not match has read the line ends in front of it and nothing else. No
token is ever taken back onto another one. -/
theorem unmatched_restores :
    (∀ rule ∈ rules, ∀ s s', rule s = .ok none s' → ∀ n, s'.reading n = s.reading n) ∧
      (∀ s s', program s = .ok none s' →
        ∃ k, (∀ n < k, ∃ t, s.reading n = .ok t ∧ t.kind = .endOfLine) ∧
          (∃ t, s.reading k = .ok t ∧ t.kind ≠ .endOfLine) ∧
          ∀ n, s'.reading n = s.reading (k + n)) ∧
      (∀ rule ∈ program :: rules, ∀ s, (rule.after s).crowded = s.crowded) ∧
      ∀ source s, Reached source s → s.crowded = false := by
  refine ⟨?_, ?_, steady_rules, fun source s h => h.crowded⟩
  · intro rule hrule s s' h n
    exact Scanner.reading_congr ((cautious_rules rule hrule).restores s s' h) n
  · intro s s' h
    obtain ⟨k, hlines, hother, hnext⟩ := program_eq_none h
    refine ⟨k, hlines, hother, ?_⟩
    intro n
    rw [Scanner.reading_congr hnext, Scanner.reading, Scanner.reading, Scanner.drop_add]

theorem unmatched_restores_pending :
    (block.after (.ofSource "\n\n\x7d")).pending = some (.endOfLine .first) ∧
      (∃ s', command (block.after (.ofSource "\n\n\x7d")) = .ok none s' ∧
        ∀ n, s'.reading n = (block.after (.ofSource "\n\n\x7d")).reading n) ∧
      (∃ s', program (block.after (.ofSource "\n\n\x7d")) = .ok none s' ∧
        ∃ k, ∀ n, s'.reading n = (block.after (.ofSource "\n\n\x7d")).reading (k + n)) ∧
      (program.after (block.after (.ofSource "\n\n\x7d"))).crowded = false := by
  refine ⟨rfl, ⟨_, rfl, ?_⟩, ⟨_, rfl, ?_⟩, ?_⟩
  · exact unmatched_restores.1 command (by simp [rules]) _ _ rfl
  · obtain ⟨k, -, -, hk⟩ := unmatched_restores.2.1 (block.after (.ofSource "\n\n\x7d")) _ rfl
    exact ⟨k, hk⟩
  · exact unmatched_restores.2.2.2 "\n\n\x7d" _
      (.rule (List.mem_cons_self) (.rule (by simp [rules]) .fresh))

end Grammar

end DrawingBugs
