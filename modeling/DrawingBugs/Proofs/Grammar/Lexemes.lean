import DrawingBugs.Proofs.Grammar.TokenStream
import DrawingBugs.Proofs.Number.Legible
import Mathlib.Data.List.TakeWhile

/-!
# Lexemes

What a scanner gives for a source text: number tokens that hold numbers, and no error but a block
comment that is opened in the text and never closed.
-/

namespace DrawingBugs

/-- A block comment is opened at this place of the text and not closed after it. -/
def OpensComment (text : List Char) (p : Position) : Prop :=
  ∃ before comment, text = before ++ '/' :: '*' :: comment ∧ p = Position.first.past before ∧
    ¬ ['*', '/'] <:+: comment

/-- A token that was read from a text: it has a place there, and a number has the text of one. -/
structure Token.Legible (t : Token) : Prop where
  number : t.kind = .number → ∃ v, t.text = Number.text v
  placed : t.position ≠ .none

namespace Cursor

/-- The cursor is a place in the text. -/
def In (text : List Char) (cursor : Cursor) : Prop :=
  ∃ before, text = before ++ cursor.rest ∧ cursor.position = Position.first.past before

variable {text cs : List Char} {p : Position}

theorem In.past {ds : List Char} (h : In text ⟨p, ds ++ cs⟩) : In text ⟨p.past ds, cs⟩ := by
  obtain ⟨before, htext, rfl⟩ := h
  refine ⟨before ++ ds, by simpa using htext, ?_⟩
  simp [Position.past, List.foldl_append]

theorem In.after {c : Char} (h : In text ⟨p, c :: cs⟩) : In text ⟨p.after c, cs⟩ :=
  @In.past text cs p [c] h

private theorem line_past (p : Position) (cs : List Char) : p.line ≤ (p.past cs).line := by
  induction cs generalizing p with
  | nil => exact Nat.le_refl _
  | cons c cs ih =>
    refine Nat.le_trans ?_ (ih (p.after c))
    simp only [Position.after]
    split <;> simp

private theorem In.placed (h : In text ⟨p, cs⟩) : p ≠ .none := by
  obtain ⟨before, -, rfl⟩ := h
  intro hnone
  have hline := line_past .first before
  rw [hnone] at hline
  exact absurd hline (by decide)

/-- What is left of a block comment closes it. -/
def Closes (starred : Bool) (cs : List Char) : Prop :=
  ['*', '/'] <:+: if starred then '*' :: cs else cs

theorem Closes.later {starred : Bool} {c : Char} (h : Closes starred (c :: cs))
    (hc : ¬ (starred ∧ c = '/')) : Closes (c = '*') cs := by
  have hmark : ['*', '/'] <:+: c :: cs := by
    cases starred with
    | false => exact h
    | true =>
      obtain hprefix | hinfix := List.infix_cons_iff.mp h
      · obtain ⟨rest, hrest⟩ := hprefix
        cases hrest
        exact absurd ⟨rfl, rfl⟩ hc
      · exact hinfix
  by_cases hstar : c = '*'
  · simpa [Closes, hstar] using hmark
  · obtain hprefix | hinfix := List.infix_cons_iff.mp hmark
    · obtain ⟨rest, hrest⟩ := hprefix
      cases hrest
      exact absurd rfl hstar
    · simpa [Closes, hstar] using hinfix

/-- Where skipping ends: at a place in the text, or without one in a block comment that nothing
closes. The comment was open already, or it is opened in the text. -/
def Skips (text : List Char) (mode : Trivia) (cs : List Char) : Option Position × Cursor → Prop
  | (none, cursor) => In text cursor
  | (some opened, _) =>
    (∃ starred, mode = .blockComment opened starred ∧ ¬ Closes starred cs) ∨ OpensComment text opened

private theorem Skips.outside {mode mode' : Trivia} {ds : List Char} {r : Option Position × Cursor}
    (h : Skips text mode cs r) (hmode : mode = .blank ∨ mode = .lineComment) :
    Skips text mode' ds r := by
  rcases r with ⟨_ | opened, cursor⟩
  · exact h
  · obtain ⟨_, hopen, -⟩ | hopens := h
    · rw [hopen] at hmode
      obtain hmode | hmode := hmode <;> cases hmode
    · exact .inr hopens

private theorem Skips.opened {mode : Trivia} {ds : List Char} {r : Option Position × Cursor}
    (h : Skips text (.blockComment p false) cs r) (hin : In text ⟨p, '/' :: '*' :: cs⟩) :
    Skips text mode ds r := by
  rcases r with ⟨_ | opened, cursor⟩
  · exact h
  · obtain ⟨starred, hopen, hclose⟩ | hopens := h
    · cases hopen
      obtain ⟨before, htext, hp⟩ := hin
      exact .inr ⟨before, cs, htext, hp, hclose⟩
    · exact .inr hopens

private theorem Skips.inside {opened : Position} {starred : Bool} {c : Char}
    {r : Option Position × Cursor} (h : Skips text (.blockComment opened (c = '*')) cs r)
    (hc : ¬ (starred ∧ c = '/')) :
    Skips text (.blockComment opened starred) (c :: cs) r := by
  rcases r with ⟨_ | opened', cursor⟩
  · exact h
  · obtain ⟨_, hopen, hclose⟩ | hopens := h
    · cases hopen
      exact .inl ⟨starred, rfl, fun h => hclose (h.later hc)⟩
    · exact .inr hopens

private theorem not_closes_nil (starred : Bool) : ¬ Closes starred [] := by
  intro h
  have hlength := h.length_le
  cases starred <;> simp at hlength

private theorem skips_skip (mode : Trivia) (h : In text ⟨p, cs⟩) :
    Skips text mode cs (skip mode p cs) := by
  fun_induction skip mode p cs
  case case1 ih => exact (ih h.after).outside (.inl rfl)
  case case2 ih => exact (ih h.after).outside (.inl rfl)
  case case3 ih => exact (ih h.after).outside (.inl rfl)
  case case4 ih => exact (ih (In.past h)).outside (.inr rfl)
  case case5 ih => exact (ih (In.past h)).opened h
  case case6 => exact h
  case case7 => exact h
  case case8 => exact h
  case case9 ih => exact (ih h.after).outside (.inr rfl)
  case case10 starred _ => exact .inl ⟨starred, rfl, not_closes_nil starred⟩
  case case11 ih => exact (ih h.after).outside (.inl rfl)
  case case12 hc ih => exact (ih h.after).inside hc

theorem splitNumber_append (cs : List Char) : (splitNumber cs).1 ++ (splitNumber cs).2 = cs := by
  have hwhole : cs.takeWhile Char.isDigit ++ cs.dropWhile Char.isDigit = cs :=
    List.takeWhile_append_dropWhile
  simp only [splitNumber, List.span_eq_takeWhile_dropWhile]
  split
  · next tail htail =>
    rw [htail] at hwhole
    split
    · rw [htail, hwhole]
    · simpa [List.append_assoc] using hwhole
  · exact hwhole

theorem splitNumber_written {c : Char} (cs : List Char) (hc : c.isDigit) :
    Number.Written (splitNumber (c :: cs)).1 := by
  have hall (cs : List Char) : ∀ d ∈ cs.takeWhile Char.isDigit, d.isDigit :=
    fun d hd => List.mem_takeWhile_imp hd
  have hdigits : Number.Digits ((c :: cs).takeWhile Char.isDigit) :=
    ⟨by rw [List.takeWhile_cons_of_pos hc]; exact List.cons_ne_nil _ _, hall _⟩
  have hbare : Number.Written ((c :: cs).takeWhile Char.isDigit) :=
    ⟨_, [], (List.append_nil _).symm, hdigits, .bare (.inl rfl)⟩
  simp only [splitNumber, List.span_eq_takeWhile_dropWhile]
  split
  · next tail _ =>
    split
    · exact hbare
    · refine ⟨_, _, rfl, hdigits, ?_⟩
      rw [← List.append_nil (tail.takeWhile Char.isDigit)]
      exact .point (hall tail) (.inl rfl)
  · exact hbare

private theorem numberToken_written {number : List Char} (h : Number.Written number)
    (p : Position) : ∃ v, numberToken number p = .ok ⟨.number, Number.text v, p⟩ := by
  obtain ⟨v, hv⟩ := Option.isSome_iff_exists.mp (h.readChars? false)
  have hv : Number.readChars? number = some v := hv
  exact ⟨v, by simp only [numberToken, hv]⟩

theorem lexeme_in (h : In text ⟨p, cs⟩) :
    ∃ t, (lexeme p cs).1 = .ok t ∧ t.Legible ∧ In text (lexeme p cs).2 := by
  cases cs with
  | nil => exact ⟨_, rfl, ⟨fun hkind => (by cases hkind), h.placed⟩, h⟩
  | cons c cs =>
    simp only [lexeme]
    split
    · exact ⟨_, rfl, ⟨fun hkind => (by cases hkind), h.placed⟩, h.after⟩
    split
    · next hdigit =>
      obtain ⟨v, hv⟩ := numberToken_written (splitNumber_written cs hdigit) p
      refine ⟨_, hv, ⟨fun _ => ⟨v, rfl⟩, h.placed⟩, In.past ?_⟩
      rw [splitNumber_append]
      exact h
    split
    · refine ⟨_, rfl, ⟨fun hkind => ?_, h.placed⟩, In.past ?_⟩
      · simp only [Token.word] at hkind
        split at hkind <;> cases hkind
      · rw [List.span_eq_takeWhile_dropWhile, List.takeWhile_append_dropWhile]
        exact h
    · exact ⟨_, rfl, ⟨fun hkind => (by cases hkind), h.placed⟩, h.after⟩

end Cursor

namespace Scanner

variable {text : List Char}

private theorem next_in {s s' : Scanner} {r : Except LexicalError Token} (hs : s.pending = none)
    (hin : s.cursor.In text) (h : s.next = (r, s')) :
    (∃ t, r = .ok t ∧ t.Legible ∧ s'.cursor.In text) ∨
      ∃ p, r = .error (.openComment p) ∧ OpensComment text p := by
  have hskips := Cursor.skips_skip .blank hin
  cases hskip : Cursor.skip .blank s.cursor.position s.cursor.rest with
  | mk o cursor =>
    rw [hskip] at hskips
    simp only [next, hs, Cursor.scan, hskip] at h
    cases o with
    | none =>
      obtain ⟨t, ht, hlegible, hin'⟩ := Cursor.lexeme_in hskips
      cases h
      exact .inl ⟨t, ht, hlegible, hin'⟩
    | some p =>
      obtain ⟨_, hmode, -⟩ | hopens := hskips
      · cases hmode
      · cases h
        exact .inr ⟨p, rfl, hopens⟩

/-- The tokens of a text are legible, and where they break off a comment is left open. -/
theorem Holds.lexemes {s : Scanner} {σ : TokenStream} (h : s.Holds σ) (hs : s.pending = none)
    (hin : s.cursor.In text) :
    (∀ t ∈ σ.tokens, t.Legible) ∧
      ∀ e, σ.outcome = .error e → ∃ p, e = .openComment p ∧ OpensComment text p := by
  induction h with
  | @token _ _ t σ h _ _ ih =>
    obtain ⟨_, ht, hlegible, hin'⟩ | ⟨p, he, -⟩ := next_in hs hin h
    · cases ht
      obtain ⟨htokens, herror⟩ := ih (pending_of_next h) hin'
      refine ⟨List.forall_mem_cons.mpr ⟨hlegible, htokens⟩, fun e he => herror e ?_⟩
      simp only [TokenStream.outcome] at he
      cases hrest : σ.outcome with
      | ok ts =>
        rw [hrest] at he
        cases he
      | error e' =>
        rw [hrest] at he
        exact he
    · cases he
  | ended h _ =>
    obtain ⟨_, ht, hlegible, -⟩ | ⟨p, he, -⟩ := next_in hs hin h
    · cases ht
      exact ⟨by simpa [TokenStream.tokens] using hlegible, fun e he => by cases he⟩
    · cases he
  | failed h =>
    obtain ⟨t, ht, -⟩ | ⟨p, he, hopens⟩ := next_in hs hin h
    · cases ht
    · cases he
      refine ⟨by simp [TokenStream.tokens], fun e he => ?_⟩
      cases he
      exact ⟨p, rfl, hopens⟩

end Scanner

end DrawingBugs
