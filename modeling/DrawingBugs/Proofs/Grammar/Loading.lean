import DrawingBugs.Proofs.Grammar.Lexemes
import DrawingBugs.Proofs.Grammar.Programs
import Mathlib

/-!
# Loading a text

A text loads exactly when its tokens are a program of the grammar. A text that does not load is
blamed on the first token that no program goes on with, or on a comment that is left open.
-/

namespace DrawingBugs

open Grammar Recognizer

/-! ## The stream of a text -/

namespace Scanner

def sourceStream (source : String) : TokenStream := (ofSource source).stream

/-- The tokens of a text, the end of the input among them; they break off in front of a lexical
error. -/
def sourceTokens (source : String) : List Token := (sourceStream source).tokens

theorem holds_sourceStream (source : String) : (ofSource source).Holds (sourceStream source) :=
  holds_stream rfl

theorem tokens_ofSource (source : String) : (ofSource source).tokens.1 = (sourceStream source).outcome :=
  tokens_fst rfl

private theorem ended_of_endOfInput {source : String} {read : List Token} {rest : TokenStream}
    {t : Token} (hσ : sourceStream source = rest.after read) (hnext : rest.next = .ok t)
    (ht : t.kind = .endOfInput) : rest = .ended t.position := by
  obtain ⟨s, hs⟩ := (hσ ▸ holds_sourceStream source).of_after
  exact hs.ended_of_next hnext ht

end Scanner

open Scanner

/-! ## What is left after a program -/

namespace Recognizer

variable {α β δ : Type}

/-- Where the recognizer comes off, what is left has this property. -/
def Leaves (R : Recognizer α) (P : TokenStream → Prop) : Prop :=
  ∀ (s : Scanner) (σ : TokenStream), s.Holds σ → ∀ a s', R s = .ok a s' → ∃ τ, s'.Holds τ ∧ P τ

private theorem Gives.of {R : Recognizer α} {σ : TokenStream} {o : Answer α}
    (h : Gives (fun n : Nat => n) (fun _ => R) σ o) {s : Scanner} (hs : s.Holds σ) : o.Of (R s) :=
  h (σ.length + 1) s (Nat.lt_succ_self _) hs

private theorem Leaves.bind {R : Recognizer α} {S : α → Recognizer β} {F : Form δ α}
    {P : TokenStream → Prop} (hR : ∀ N, Reads N (fun n : Nat => n) (fun _ => R) F)
    (hS : ∀ a, Leaves (S a) P) :
    Leaves (R >>= S) P := by
  intro s σ hs b s' hok
  replace hok : EStateM.bind R S s = .ok b s' := hok
  simp only [EStateM.bind] at hok
  cases (hR (σ.length + 1)).readsAt σ (Nat.lt_succ_self _) with
  | found d rest hσ hgives _ =>
    have hdone := (hgives rest rfl).of (hσ ▸ hs)
    cases hr : R s with
    | ok a s₁ =>
      rw [hr] at hdone hok
      exact hS a s₁ rest hdone.2 b s' hok
    | error e s₁ =>
      rw [hr] at hok
      cases hok
  | stuck read rest e hσ _ _ hgives _ =>
    have hstuck := (hgives rest rfl).of (hσ ▸ hs)
    cases hr : R s with
    | ok a s₁ =>
      rw [hr] at hstuck
      exact hstuck.elim
    | error e s₁ =>
      rw [hr] at hok
      cases hok

end Recognizer

namespace Grammar

private theorem atEnd_leaves (root : Tree) :
    Leaves (atEnd root .endOfProgram) fun τ => τ.Stops NotAtEnd := by
  intro s σ hs a s' hok
  by_cases hstops : σ.Stops NotAtEnd
  · have hdone := (atEnd_gives root .endOfProgram hstops).of hs
    rw [hok] at hdone
    exact ⟨σ, hdone.2, hstops⟩
  · obtain ⟨e, -, hgives⟩ := atEnd_refuses (b := fun n : Nat => n) root .endOfProgram hstops
    have hstuck := (hgives σ rfl).of hs
    rw [hok] at hstuck
    exact hstuck.elim

private theorem finish_leaves (shared : Tree) (bugs : List Tree) :
    Leaves (finish shared bugs) fun τ => τ.Stops NotAtEnd := by
  simp only [finish]
  split
  · intro s σ hs a s' hok
    have hstuck := (fail_gives (α := Tree) .bugDefinition σ).of hs
    rw [hok] at hstuck
    exact hstuck.elim
  · exact atEnd_leaves _

private theorem required_leaves : Leaves Program.required fun τ => τ.Stops NotAtEnd := by
  rw [required_eq]
  refine Leaves.bind (fun N => Recognizes.lineEnd.reads) fun _ => ?_
  refine Leaves.bind (fun N => sharedSection_reads) fun shared => ?_
  exact Leaves.bind (fun N => many_bugDefinition_reads) (finish_leaves shared)

/-- A text holds a program, or the rule for programs gets stuck on it. -/
inductive Outcome (source : String) : Prop
  | program (d : Syntax.Derivation Syntax.Text) (rest : TokenStream)
    (hsplits : textForm.Splits (sourceStream source) d rest)
    (hload : ∃ s, Program.required (.ofSource source) = .ok d.value s)
  | stuck (read : List Token) (rest : TokenStream) (e : SyntaxError)
    (hread : sourceStream source = rest.after read) (hblames : e.Blames rest.next)
    (hviable : textForm.Viable read)
    (hload : ∀ (source' : String) (τ : TokenStream), sourceStream source' = τ.after read →
      τ.next = rest.next → ∃ s, Program.required (.ofSource source') = .error e s)
    (hnone : ∀ τ : TokenStream, τ.next = rest.next → ∀ d τ', ¬ textForm.Splits (τ.after read) d τ')

theorem outcome (source : String) : Outcome source := by
  have hs := holds_sourceStream source
  cases required_reads.readsAt (sourceStream source) (Nat.lt_succ_self _) (b := fun n : Nat => n) with
  | found d rest hσ hgives _ =>
    have hdone := (hgives rest rfl).of (hσ ▸ hs)
    cases hr : Program.required (.ofSource source) with
    | error e s =>
      rw [hr] at hdone
      exact hdone.elim
    | ok root s =>
      rw [hr] at hdone
      obtain ⟨rfl, hrest⟩ := hdone
      obtain ⟨τ, hτ, hstops⟩ := required_leaves _ _ hs _ s hr
      cases hτ.unique hrest
      exact .program d rest ⟨hσ, hstops⟩ ⟨s, hr⟩
  | stuck read rest e hσ hblames hviable hgives hnone =>
    refine .stuck read rest e hσ hblames hviable ?_ hnone
    intro source' τ hτ hnext
    have hstuck := (hgives τ hnext).of (hτ ▸ holds_sourceStream source')
    cases hr : Program.required (.ofSource source') with
    | ok root s =>
      rw [hr] at hstuck
      exact hstuck.elim
    | error e' s =>
      rw [hr] at hstuck
      exact ⟨s, by rw [show e' = e from hstuck]⟩

private theorem ofTree_of_text {ts : List Token} {root : Tree} (d : Syntax.Text ts root) :
    ∃ program, Program.ofTree root = .ok program ∧ program.root = root := by
  obtain ⟨_, _, _⟩ := d
  exact ⟨_, rfl, rfl⟩

theorem load_of_required {source : String} {d : Syntax.Derivation Syntax.Text}
    (h : ∃ s, Program.required (.ofSource source) = .ok d.value s) :
    ∃ program, Program.load source = .ok program ∧ program.root = d.value := by
  obtain ⟨s, hs⟩ := h
  obtain ⟨program, hprogram, hroot⟩ := ofTree_of_text d.steps
  exact ⟨program, by simp only [Program.load, hs, hprogram]; rfl, hroot⟩

theorem load_of_stuck {source : String} {e : SyntaxError}
    (h : ∃ s, Program.required (.ofSource source) = .error e s) :
    Program.load source = .error (.rejected e) := by
  obtain ⟨s, hs⟩ := h
  simp only [Program.load, hs]

private theorem splits_text {σ : TokenStream} {p : Position} {ts : List Token} {root : Tree}
    (d : Syntax.Text ts root) (hσ : σ = (TokenStream.ended p).after ts) :
    textForm.Splits σ ⟨d⟩ (.ended p) :=
  ⟨hσ, .endOfInput p, rfl, not_not_intro rfl⟩

private theorem ended_of_splits {source : String} {d : Syntax.Derivation Syntax.Text}
    {rest : TokenStream} (h : textForm.Splits (sourceStream source) d rest) :
    ∃ p, sourceStream source = (TokenStream.ended p).after d.tokens := by
  obtain ⟨hσ, t, hnext, hnot⟩ := h
  have hend := ended_of_endOfInput hσ hnext (Token.kind_of_fits (not_not.mp hnot))
  exact ⟨t.position, by rw [hσ, hend]; rfl⟩

private theorem load_of_text {source : String} {ts : List Token} {root : Tree} {p : Position}
    (hσ : sourceStream source = (TokenStream.ended p).after ts) (d : Syntax.Text ts root) :
    ∃ program, Program.load source = .ok program ∧ program.root = root := by
  have hsplits := splits_text d hσ
  cases outcome source with
  | program d' rest hsplits' hload =>
    have hd : d' = ⟨d⟩ := (required_reads (b := fun n : Nat => n)).splits_unique
      (Nat.lt_succ_self _) hsplits' hsplits
    rw [hd] at hload
    exact load_of_required hload
  | stuck read rest e hread _ _ _ hnone => exact absurd (hread ▸ hsplits) (hnone rest rfl _ _)

private theorem text_unique {ts : List Token} {root root' : Tree} (d : Syntax.Text ts root)
    (d' : Syntax.Text ts root') : (⟨d⟩ : Syntax.Derivation Syntax.Text) = ⟨d'⟩ :=
  (required_reads (b := fun n : Nat => n)).splits_unique (Nat.lt_succ_self _)
    (splits_text d (p := .none) rfl) (splits_text d' rfl)

end Grammar

/-! ## Which texts load -/

namespace Syntax

/-- The tokens of a program determine its derivation. -/
private theorem program_unique {d d' : Derivation Syntax.Program} (h : d.tokens = d'.tokens) :
    d = d' := by
  obtain ⟨⟨text, ⟨hend⟩⟩⟩ := d
  obtain ⟨⟨text', ⟨hend'⟩⟩⟩ := d'
  obtain ⟨rfl, hlast⟩ := List.append_inj' h rfl
  cases hlast
  cases text_unique text text'
  rfl

end Syntax

/-- **Exact grammar.** A text loads as a program with this root exactly when it has tokens without
a lexical error and they derive the root in the grammar; and the tokens of a program have one
derivation. -/
theorem load_iff_derivable (source : String) (root : Tree) :
    ((∃ program, Program.load source = .ok program ∧ program.root = root) ↔
      ∃ ts, (Scanner.ofSource source).tokens.1 = .ok ts ∧ Nonempty (Syntax.Program ts root)) ∧
    Function.Injective fun d : Syntax.Derivation Syntax.Program => d.tokens := by
  refine ⟨⟨?_, ?_⟩, fun _ _ => Syntax.program_unique⟩
  · rintro ⟨program, hload, rfl⟩
    cases outcome source with
    | program d rest hsplits hrequired =>
      obtain ⟨program', hload', hroot⟩ := load_of_required hrequired
      cases hload.symm.trans hload'
      obtain ⟨p, hσ⟩ := ended_of_splits hsplits
      refine ⟨d.tokens ++ [.endOfInput p], ?_, ?_⟩
      · rw [tokens_ofSource, hσ, TokenStream.outcome_after]
        rfl
      · rw [hroot]
        exact ⟨.program d.steps (.token rfl)⟩
    | stuck _ _ _ _ _ _ hrequired _ =>
      have hload' := load_of_stuck (hrequired source _ ‹_› rfl)
      cases hload.symm.trans hload'
  · rintro ⟨ts, hts, ⟨⟨text, ⟨_⟩⟩⟩⟩
    rw [tokens_ofSource] at hts
    obtain ⟨us, p, hσ, hts⟩ := TokenStream.outcome_eq_ok hts
    obtain ⟨rfl, -⟩ := List.append_inj' hts rfl
    exact load_of_text hσ text

/-! ## Where a text is blamed -/

/-- The tokens begin a program. -/
def Syntax.Viable (ts : List Token) : Prop :=
  ∃ (d : Syntax.Derivation Syntax.Program) (rest : List Token), d.tokens = ts ++ rest

private theorem Syntax.Viable.take {ts : List Token} (h : Syntax.Viable ts) (n : Nat) :
    Syntax.Viable (ts.take n) := by
  obtain ⟨d, rest, hd⟩ := h
  refine ⟨d, ts.drop n ++ rest, ?_⟩
  rw [← List.append_assoc, List.take_append_drop, hd]

private theorem viable_of_text {ts : List Token} (h : textForm.Viable ts) : Syntax.Viable ts := by
  obtain ⟨d, rest, hd⟩ := h
  refine ⟨⟨.program d.steps (.token (t := .endOfInput .none) rfl)⟩, rest ++ [.endOfInput .none], ?_⟩
  show d.tokens ++ _ = _
  rw [show d.tokens = ts ++ rest from hd, List.append_assoc]

/-- A token at which the rule for programs is stuck goes on with no program. -/
private theorem not_viable_of_stuck {read : List Token} {rest : TokenStream} {t : Token}
    (hnext : rest.next = .ok t) (hend : t.kind = .endOfInput → rest = .ended t.position)
    (hnone : ∀ τ : TokenStream, τ.next = rest.next → ∀ d τ', ¬ textForm.Splits (τ.after read) d τ') :
    ¬ Syntax.Viable (read ++ [t]) := by
  rintro ⟨⟨@⟨p, _, root, e, text, ⟨hfits⟩⟩⟩, more, hmore⟩
  replace hmore : p ++ [e] = read ++ [t] ++ more := hmore
  rcases List.eq_nil_or_concat more with rfl | ⟨more, last, rfl⟩
  · -- The token is the end of the input, and the text is all that was read.
    rw [List.append_nil] at hmore
    obtain ⟨rfl, hlast⟩ := List.append_inj' hmore rfl
    cases hlast
    refine hnone rest rfl _ _ (splits_text text (p := t.position) ?_)
    rw [hend (Token.kind_of_fits hfits)]
  · rw [List.concat_eq_append, ← List.append_assoc] at hmore
    obtain ⟨rfl, -⟩ := List.append_inj' hmore rfl
    refine hnone ((TokenStream.ended .none).after (t :: more)) hnext.symm _ _
      (splits_text text (p := .none) ?_)
    rw [List.append_assoc, TokenStream.after_append, List.singleton_append]

/-- Up to this token, and no longer with it, the tokens begin a program. -/
def Syntax.FirstUnviable (ts : List Token) (j : Nat) : Prop :=
  IsLeast {j | j < ts.length ∧ ¬ Syntax.Viable (ts.take (j + 1))} j

private theorem Syntax.FirstUnviable.of_append {read more : List Token} {t : Token}
    (hviable : Syntax.Viable read) (hnot : ¬ Syntax.Viable (read ++ [t])) :
    Syntax.FirstUnviable (read ++ t :: more) read.length := by
  refine ⟨⟨by simp, by rwa [List.take_length_add_append, List.take_succ_cons, List.take_zero]⟩, ?_⟩
  rintro j ⟨-, hj⟩
  by_contra hlt
  have htake : (read ++ t :: more).take (j + 1) = read.take (j + 1) :=
    List.take_append_of_le_length (Nat.not_le.mp hlt)
  rw [htake] at hj
  exact hj (hviable.take (j + 1))

private theorem TokenStream.tokens_of_next {σ : TokenStream} {t : Token} (h : σ.next = .ok t) :
    ∃ more, σ.tokens = t :: more := by
  cases σ with
  | token _ _ | ended _ =>
    cases h
    exact ⟨_, rfl⟩
  | failed _ => cases h

private theorem exists_after_of_take {source : String} {read : List Token} {t : Token}
    (h : (sourceTokens source).take (read.length + 1) = read ++ [t]) :
    ∃ τ : TokenStream, sourceStream source = τ.after read ∧ τ.next = .ok t := by
  refine @TokenStream.exists_after_of_tokens _ _ ((sourceTokens source).drop (read.length + 1)) _ ?_
  calc (sourceStream source).tokens
      = (sourceTokens source).take (read.length + 1) ++ (sourceTokens source).drop (read.length + 1) :=
        (List.take_append_drop _ _).symm
    _ = _ := by rw [h, List.append_assoc, List.singleton_append]

private theorem Token.quoted_cases (t : Token) :
    (t.kind = .endOfLine → t.quoted = "end of line") ∧
    (t.kind = .endOfInput → t.quoted = "end of input") ∧
    (t.kind ≠ .endOfLine → t.kind ≠ .endOfInput → t.quoted = s!"'{t.text}'") := by
  unfold Token.quoted
  cases t.kind <;> simp [Kind.description]

/-- **Errors are located at the first token that cannot continue.** For a text that does not load,
if there is a first token with which its tokens no longer begin a program, the error is at the
place of that token and says that an end of line, the end of the input or the quoted text was found
there, and every text with the same tokens up to there has the same error; and if there is none, the
error is that of the scanner: a comment that is left open, at the place where it was opened. -/
theorem load_error_at_first_unviable (source : String) (e : LoadError)
    (h : Program.load source = .error e) :
    (∀ j, Syntax.FirstUnviable (sourceTokens source) j →
      ∃ t, (sourceTokens source)[j]? = some t ∧ e.diagnostic.position = t.position ∧
        (t.kind = .endOfLine → e.diagnostic.found = some "end of line") ∧
        (t.kind = .endOfInput → e.diagnostic.found = some "end of input") ∧
        (t.kind ≠ .endOfLine → t.kind ≠ .endOfInput → e.diagnostic.found = some s!"'{t.text}'") ∧
        ∀ source', (sourceTokens source').take (j + 1) = (sourceTokens source).take (j + 1) →
          Program.load source' = .error e) ∧
    ((∀ j, ¬ Syntax.FirstUnviable (sourceTokens source) j) →
      Syntax.Viable (sourceTokens source) ∧
      ∃ p, (Scanner.ofSource source).tokens.1 = .error (.openComment p) ∧
        OpensComment source.toList p ∧
        e.diagnostic = ⟨"Unterminated block comment", p, none⟩) := by
  cases outcome source with
  | program _ _ _ hrequired =>
    obtain ⟨program, hload, -⟩ := load_of_required hrequired
    cases h.symm.trans hload
  | stuck read rest err hread hblames hviable hrequired hnone =>
    cases h.symm.trans (load_of_stuck (hrequired source rest hread rfl))
    have htokens : sourceTokens source = read ++ rest.tokens := by
      rw [sourceTokens, hread, TokenStream.tokens_after]
    have hviable := viable_of_text hviable
    cases err with
    | unexpected expected t =>
      have hnext : rest.next = .ok t := hblames
      obtain ⟨more, hmore⟩ := TokenStream.tokens_of_next hnext
      rw [hmore] at htokens
      have hfirst : Syntax.FirstUnviable (sourceTokens source) read.length := by
        rw [htokens]
        exact .of_append hviable
          (not_viable_of_stuck hnext (ended_of_endOfInput hread hnext) hnone)
      refine ⟨fun j hj => ?_, fun hno => absurd hfirst (hno _)⟩
      obtain rfl := IsLeast.unique hj hfirst
      obtain ⟨hline, hinput, hother⟩ := t.quoted_cases
      refine ⟨t, by simp [htokens], rfl, fun hkind => congrArg some (hline hkind),
        fun hkind => congrArg some (hinput hkind),
        fun hkind hkind' => congrArg some (hother hkind hkind'), fun source' hsame => ?_⟩
      have htake : (sourceTokens source).take (read.length + 1) = read ++ [t] := by
        rw [htokens, List.take_length_add_append, List.take_succ_cons, List.take_zero]
      obtain ⟨τ, hτ, hnext'⟩ := exists_after_of_take (hsame.trans htake)
      exact load_of_stuck (hrequired source' τ hτ (hnext'.trans hnext.symm))
    | lexical err =>
      obtain rfl : rest = .failed err := by
        cases rest <;> cases hblames
        rfl
      rw [show (TokenStream.failed err).tokens = [] from rfl, List.append_nil] at htokens
      rw [htokens]
      refine ⟨fun j hj => absurd (hviable.take (j + 1)) hj.1.2, fun _ => ⟨hviable, ?_⟩⟩
      have houtcome : (sourceStream source).outcome = .error err := by
        rw [hread, TokenStream.outcome_after]
        rfl
      obtain ⟨p, rfl, hopens⟩ :=
        ((holds_sourceStream source).lexemes rfl ⟨[], rfl, rfl⟩).2 err houtcome
      exact ⟨p, by rw [tokens_ofSource, houtcome], hopens, rfl⟩

/-- A bug without a command: its closing brace is the first token that no program goes on with. -/
theorem load_error_at_first_unviable_brace :
    ∃ e, Program.load "Bug a \x7b\n\x7d\n" = .error e ∧ e.diagnostic.position = ⟨2, 1⟩ ∧
      e.diagnostic.found = some "'\x7d'" ∧
      ∃ j t, Syntax.FirstUnviable (sourceTokens "Bug a \x7b\n\x7d\n") j ∧
        (sourceTokens "Bug a \x7b\n\x7d\n")[j]? = some t ∧ t.position = ⟨2, 1⟩ := by
  have hload : Program.load "Bug a \x7b\n\x7d\n" =
      .error (.rejected (.unexpected .bugCommand ⟨.symbol, "\x7d", ⟨2, 1⟩⟩)) := by cbv
  have hlexes : (Scanner.ofSource "Bug a \x7b\n\x7d\n").tokens.1.isOk := by cbv
  obtain ⟨hfirst, hlexical⟩ := load_error_at_first_unviable _ _ hload
  refine ⟨_, hload, rfl, by decide, ?_⟩
  by_contra hnone
  -- If all tokens went on with a program the scanner would have failed.
  obtain ⟨-, p, hp, -, -⟩ := hlexical fun j hj => by
    obtain ⟨t, ht, hposition, -⟩ := hfirst j hj
    exact hnone ⟨j, t, hj, ht, hposition.symm⟩
  rw [hp] at hlexes
  cases hlexes

end DrawingBugs
