import DrawingBugs.Proofs.Grammar.Lexemes
import DrawingBugs.Proofs.Grammar.Lookahead

/-!
# What is left to read

A scanner stands at a place of its source text: where its cursor is, or where the token begins that
was taken back. Reading a token moves that place on. Looking at one only passes over what stands in
front of it, and at the end of the input the place stays.
-/

namespace DrawingBugs

namespace Position

/-- The first place comes before the second one in every text. -/
def Precedes (p q : Position) : Prop := p.line < q.line ∨ p.line = q.line ∧ p.column < q.column

private theorem precedes_after (p : Position) (c : Char) : p.Precedes (p.after c) := by
  simp only [Precedes, after]
  split <;> simp

private theorem Precedes.trans {p q r : Position} (h : p.Precedes q) (h' : q.Precedes r) :
    p.Precedes r := by
  simp only [Precedes] at h h' ⊢
  omega

private theorem Precedes.ne {p q : Position} (h : p.Precedes q) : p ≠ q := by
  rintro rfl
  simp only [Precedes] at h
  omega

private theorem Precedes.past {p q : Position} (h : p.Precedes q) (cs : List Char) :
    p.Precedes (q.past cs) := by
  induction cs generalizing q with
  | nil => exact h
  | cons c cs ih => exact ih (h.trans (q.precedes_after c))

/-- What a text that begins at `p` has from a place on. -/
def textFrom (place : Position) : Position → List Char → List Char
  | _, [] => []
  | p, c :: cs => if p = place then c :: cs else textFrom place (p.after c) cs

private theorem textFrom_past (p : Position) (before rest : List Char) :
    textFrom (p.past before) p (before ++ rest) = rest := by
  induction before generalizing p with
  | nil => cases rest <;> simp [textFrom, past]
  | cons c before ih =>
    have hne : p ≠ (p.after c).past before := ((p.precedes_after c).past before).ne
    change (if p = (p.after c).past before then _ else textFrom ((p.after c).past before) (p.after c)
      (before ++ rest)) = rest
    rw [if_neg hne, ih]

end Position

namespace Cursor

variable {text cs : List Char} {p : Position}

private theorem In.textFrom (h : In text ⟨p, cs⟩) : Position.textFrom p .first text = cs := by
  obtain ⟨before, rfl, rfl⟩ := h
  exact Position.textFrom_past .first before cs

private theorem skip_in (mode : Trivia) (h : In text ⟨p, cs⟩) : In text (skip mode p cs).2 := by
  fun_induction skip mode p cs
  case case1 ih => exact ih h.after
  case case2 ih => exact ih h.after
  case case3 ih => exact ih h.after
  case case4 ih => exact ih (In.past h)
  case case5 ih => exact ih (In.past h)
  case case9 ih => exact ih h.after
  case case11 ih => exact ih h.after
  case case12 ih => exact ih h.after
  all_goals exact h

private theorem rest_of_open {mode : Trivia} {opened : Position} {cursor : Cursor}
    (h : skip mode p cs = (some opened, cursor)) : cursor.rest = [] := by
  fun_induction skip mode p cs <;> simp_all
  rw [← h.2]

private theorem lexeme_position {t : Token} {cursor : Cursor} (h : lexeme p cs = (.ok t, cursor)) :
    t.position = p := by
  cases cs with
  | nil =>
    cases h
    rfl
  | cons c cs =>
    simp only [lexeme] at h
    split at h
    · cases h
      rfl
    split at h
    · simp only [numberToken] at h
      split at h <;> cases h
      rfl
    split at h <;> cases h <;> rfl

/-- What a cursor comes to: a token that begins behind it, or the end of the text. -/
theorem scan_cases {cursor cursor' : Cursor} {r : Except LexicalError Token} (hin : cursor.In text)
    (h : cursor.scan = (r, cursor')) : cursor'.In text ∧
      ((∃ t rest, r = .ok t ∧ In text ⟨t.position, rest⟩ ∧ rest.length ≤ cursor.rest.length ∧
          lexeme t.position rest = (.ok t, cursor')) ∨
        (∃ e, r = .error e) ∧ cursor'.rest = []) := by
  have hskipped := skip_in .blank hin
  have hlength := length_skip .blank cursor.position cursor.rest
  unfold scan at h
  cases hskip : skip .blank cursor.position cursor.rest with
  | mk opened start =>
    rw [hskip] at h hskipped hlength
    cases opened with
    | some opened =>
      cases h
      exact ⟨hskipped, .inr ⟨⟨_, rfl⟩, rest_of_open hskip⟩⟩
    | none =>
      have hlexeme : lexeme start.position start.rest = (r, cursor') := h
      obtain ⟨t, ht, -, hafter⟩ := lexeme_in hskipped
      rw [hlexeme] at ht hafter
      cases ht
      have hplace := lexeme_position hlexeme
      refine ⟨hafter, .inl ⟨t, start.rest, rfl, ?_, hlength, ?_⟩⟩
      · rw [hplace]
        exact hskipped
      · rw [hplace]
        exact hlexeme

private theorem length_lexeme_le {t : Token} {cursor : Cursor} (h : lexeme p cs = (.ok t, cursor)) :
    cursor.rest.length ≤ cs.length := by
  by_cases ht : t.kind = .endOfInput
  · rw [(lexeme_endOfInput h ht).2]
    exact Nat.zero_le _
  · exact Nat.le_of_lt (length_lexeme h ht)

end Cursor

namespace Scanner

/-- The second scanner comes from the first one by reading and by looking at what is next. -/
inductive Leads (s : Scanner) : Scanner → Prop
  | refl : Leads s s
  | next {s' : Scanner} (h : Leads s s') : Leads s s'.next.2
  | look {s' s'' : Scanner} {t : Token} (h : Leads s s') (hnext : s'.next = (.ok t, s'')) :
    Leads s (s''.takeBack t)

/-- From the first scanner to the second one exactly these tokens are read, not counting the end of
the input. -/
inductive Consumes (s : Scanner) : List Token → Scanner → Prop
  | refl : Consumes s [] s
  | read {ts : List Token} {s' s'' : Scanner} {t : Token} (h : Consumes s ts s')
    (hnext : s'.next = (.ok t, s'')) (ht : t.kind ≠ .endOfInput) : Consumes s (ts ++ [t]) s''
  | finish {ts : List Token} {s' s'' : Scanner} {t : Token} (h : Consumes s ts s')
    (hnext : s'.next = (.ok t, s'')) (ht : t.kind = .endOfInput) : Consumes s ts s''
  | look {ts : List Token} {s' s'' : Scanner} {t : Token} (h : Consumes s ts s')
    (hnext : s'.next = (.ok t, s'')) : Consumes s ts (s''.takeBack t)

variable {text rest : List Char} {s s' s'' : Scanner} {ts us : List Token} {σ : TokenStream}

theorem Leads.trans (h : s.Leads s') (h' : s'.Leads s'') : s.Leads s'' := by
  induction h' with
  | refl => exact h
  | next _ ih => exact ih.next
  | look _ hnext ih => exact ih.look hnext

theorem Leads.of_next {r : Except LexicalError Token} (h : s.next = (r, s')) : s.Leads s' := by
  have hnext : s.Leads s.next.2 := Leads.refl.next
  rwa [h] at hnext

theorem Consumes.trans (h : s.Consumes ts s') (h' : s'.Consumes us s'') :
    s.Consumes (ts ++ us) s'' := by
  induction h' with
  | refl => rwa [List.append_nil]
  | read _ hnext ht ih =>
    rw [← List.append_assoc]
    exact ih.read hnext ht
  | finish _ hnext ht ih => exact ih.finish hnext ht
  | look _ hnext ih => exact ih.look hnext

theorem Consumes.leads (h : s.Consumes ts s') : s.Leads s' := by
  induction h with
  | refl => exact .refl
  | read _ hnext _ ih => exact ih.trans (.of_next hnext)
  | finish _ hnext _ ih => exact ih.trans (.of_next hnext)
  | look _ hnext ih => exact ih.look hnext

theorem Consumes.holds (h : s.Consumes ts s') (hs : s.Holds σ) :
    ∃ τ : TokenStream, σ = τ.after ts ∧ s'.Holds τ := by
  induction h with
  | refl => exact ⟨σ, rfl, hs⟩
  | read _ hnext ht ih =>
    obtain ⟨τ, rfl, hτ⟩ := ih
    cases hτ with
    | token h _ hrest =>
      cases hnext.symm.trans h
      exact ⟨_, by rw [TokenStream.after_append, TokenStream.after_cons, TokenStream.after_nil], hrest⟩
    | ended h _ =>
      cases hnext.symm.trans h
      exact absurd rfl ht
    | failed h => cases hnext.symm.trans h
  | finish _ hnext ht ih =>
    obtain ⟨τ, rfl, hτ⟩ := ih
    cases hτ with
    | token h hkind _ =>
      cases hnext.symm.trans h
      exact absurd ht hkind
    | ended h hstay =>
      cases hnext.symm.trans h
      exact ⟨_, rfl, .ended hstay hstay⟩
    | failed h => cases hnext.symm.trans h
  | look _ hnext ih =>
    obtain ⟨τ, rfl, hτ⟩ := ih
    exact ⟨τ, rfl, hτ.takeBack hnext⟩

/-- The place of what comes next. -/
def place (s : Scanner) : Position :=
  match s.pending with
  | some t => t.position
  | none => s.cursor.position

/-- The scanner is in the text, and so much of it is in front of it. -/
inductive Ahead (text : List Char) : Scanner → List Char → Prop
  | cursor {s : Scanner} (hpending : s.pending = none) (hin : s.cursor.In text) :
    Ahead text s s.cursor.rest
  | pending {s : Scanner} {t : Token} {rest : List Char} (hpending : s.pending = some t)
    (hstart : Cursor.In text ⟨t.position, rest⟩) (hlexeme : Cursor.lexeme t.position rest = (.ok t, s.cursor))
    (hin : s.cursor.In text) : Ahead text s rest

theorem ahead_ofSource (source : String) : Ahead source.toList (ofSource source) source.toList :=
  .cursor rfl ⟨[], rfl, rfl⟩

private theorem Ahead.next (h : Ahead text s rest) {r : Except LexicalError Token}
    (hnext : s.next = (r, s')) : ∃ rest', Ahead text s' rest' ∧ rest'.length ≤ rest.length ∧
      (∀ t, r = .ok t → t.kind ≠ .endOfInput → rest'.length < rest.length) ∧
      ∀ e, r = .error e → rest' = [] := by
  cases h with
  | cursor hpending hin =>
    cases hscan : s.cursor.scan with
    | mk r' cursor' =>
      simp only [Scanner.next, hpending, hscan] at hnext
      cases hnext
      obtain ⟨hin', htoken | ⟨⟨e, rfl⟩, hend⟩⟩ := Cursor.scan_cases hin hscan
      · obtain ⟨t, start, rfl, -, hstart, hlexeme⟩ := htoken
        refine ⟨_, .cursor rfl hin', (Cursor.length_lexeme_le hlexeme).trans hstart, ?_, ?_⟩
        · intro t' ht' hkind
          cases ht'
          exact Nat.lt_of_lt_of_le (Cursor.length_lexeme hlexeme hkind) hstart
        · intro e he
          cases he
      · refine ⟨_, .cursor rfl hin', by simp [hend], ?_, fun _ _ => hend⟩
        intro t ht
        cases ht
  | @pending t _ hpending _ hlexeme hin =>
    simp only [Scanner.next, hpending] at hnext
    cases hnext
    refine ⟨_, .cursor rfl hin, Cursor.length_lexeme_le hlexeme, ?_, ?_⟩
    · intro t' ht' hkind
      cases ht'
      exact Cursor.length_lexeme hlexeme hkind
    · intro e he
      cases he

private theorem Ahead.look (h : Ahead text s rest) {t : Token} (hnext : s.next = (.ok t, s')) :
    ∃ rest', Ahead text (s'.takeBack t) rest' ∧ rest'.length ≤ rest.length := by
  cases h with
  | cursor hpending hin =>
    cases hscan : s.cursor.scan with
    | mk r' cursor' =>
      simp only [Scanner.next, hpending, hscan] at hnext
      cases hnext
      obtain ⟨hin', htoken | ⟨⟨e, he⟩, -⟩⟩ := Cursor.scan_cases hin hscan
      · obtain ⟨t', start, ht', hstart, hlength, hlexeme⟩ := htoken
        cases ht'
        exact ⟨start, .pending rfl hstart hlexeme hin', hlength⟩
      · cases he
  | pending hpending hstart hlexeme hin =>
    simp only [Scanner.next, hpending] at hnext
    cases hnext
    exact ⟨rest, .pending rfl hstart hlexeme hin, Nat.le_refl _⟩

theorem Leads.ahead (h : s.Leads s') (hs : Ahead text s rest) :
    ∃ rest', Ahead text s' rest' ∧ rest'.length ≤ rest.length := by
  induction h with
  | refl => exact ⟨rest, hs, Nat.le_refl _⟩
  | next _ ih =>
    obtain ⟨rest₁, h₁, hlength₁⟩ := ih
    obtain ⟨rest₂, h₂, hlength₂, -⟩ := h₁.next rfl
    exact ⟨rest₂, h₂, hlength₂.trans hlength₁⟩
  | look _ hnext ih =>
    obtain ⟨rest₁, h₁, hlength₁⟩ := ih
    obtain ⟨rest₂, h₂, hlength₂⟩ := h₁.look hnext
    exact ⟨rest₂, h₂, hlength₂.trans hlength₁⟩

theorem Consumes.ahead (h : s.Consumes ts s') (hs : Ahead text s rest) :
    ∃ rest', Ahead text s' rest' ∧ rest'.length ≤ rest.length ∧
      (ts ≠ [] → rest'.length < rest.length) := by
  induction h with
  | refl => exact ⟨rest, hs, Nat.le_refl _, fun hts => absurd rfl hts⟩
  | read _ hnext ht ih =>
    obtain ⟨rest₁, h₁, hlength₁, -⟩ := ih
    obtain ⟨rest₂, h₂, -, hless, -⟩ := h₁.next hnext
    have hlength := Nat.lt_of_lt_of_le (hless _ rfl ht) hlength₁
    exact ⟨rest₂, h₂, Nat.le_of_lt hlength, fun _ => hlength⟩
  | finish _ hnext _ ih =>
    obtain ⟨rest₁, h₁, hlength₁, hless₁⟩ := ih
    obtain ⟨rest₂, h₂, hlength₂, -⟩ := h₁.next hnext
    exact ⟨rest₂, h₂, hlength₂.trans hlength₁, fun hts => Nat.lt_of_le_of_lt hlength₂ (hless₁ hts)⟩
  | look _ hnext ih =>
    obtain ⟨rest₁, h₁, hlength₁, hless₁⟩ := ih
    obtain ⟨rest₂, h₂, hlength₂⟩ := h₁.look hnext
    exact ⟨rest₂, h₂, hlength₂.trans hlength₁, fun hts => Nat.lt_of_le_of_lt hlength₂ (hless₁ hts)⟩

theorem Ahead.holds (h : Ahead text s rest) : ∃ σ : TokenStream, s.Holds σ := by
  cases h with
  | cursor hpending _ => exact ⟨_, holds_stream hpending⟩
  | @pending t _ hpending _ hlexeme _ =>
    have hnext : s.next = (.ok t, { s with pending := none }) := by simp only [Scanner.next, hpending]
    by_cases ht : t.kind = .endOfInput
    · obtain ⟨hend, hcursor⟩ := Cursor.lexeme_endOfInput hlexeme ht
      rw [hend] at hnext
      refine ⟨_, .ended hnext ?_⟩
      simp [Scanner.next, hcursor, Cursor.scan, Cursor.skip, Cursor.lexeme]
    · exact ⟨_, .token hnext ht (holds_stream rfl)⟩

/-! ## Reading on and on -/

private theorem Ahead.stay (h : Ahead text s rest) (hrest : rest = []) (hs : s.pending = none) :
    ∃ p, s.next = (.ok (.endOfInput p), s) := by
  cases h with
  | pending hpending => cases hs.symm.trans hpending
  | cursor =>
    obtain ⟨⟨p, cs⟩, pending, crowded⟩ := s
    obtain rfl : pending = none := hs
    obtain rfl : cs = [] := hrest
    exact ⟨p, rfl⟩

end Scanner

end DrawingBugs
