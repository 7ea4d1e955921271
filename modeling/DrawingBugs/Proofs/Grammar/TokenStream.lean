import DrawingBugs.Scanner
import Mathlib.Data.List.TakeDrop

/-!
# Token streams

What a scanner still has to give, without the characters it is read from: tokens, and then the
end of the input or the first lexical error.
-/

namespace DrawingBugs

inductive TokenStream where
  | token (t : Token) (rest : TokenStream)
  | ended (p : Position)
  | failed (e : LexicalError)

namespace TokenStream

/-- The tokens, the end of the input among them. -/
def tokens : TokenStream → List Token
  | token t rest => t :: rest.tokens
  | ended p => [.endOfInput p]
  | failed _ => []

/-- All the tokens, or the error in front of which they break off. -/
def outcome : TokenStream → Except LexicalError (List Token)
  | token t rest => rest.outcome.map (t :: ·)
  | ended p => .ok [.endOfInput p]
  | failed e => .error e

/-- How many tokens come before the end. -/
def length : TokenStream → Nat
  | token _ rest => rest.length + 1
  | _ => 0

/-- What comes next. -/
def next : TokenStream → Except LexicalError Token
  | token t _ => .ok t
  | ended p => .ok (.endOfInput p)
  | failed e => .error e

/-- The stream with more tokens in front. -/
def after (σ : TokenStream) : List Token → TokenStream
  | [] => σ
  | t :: ts => token t (σ.after ts)

@[simp] theorem after_nil (σ : TokenStream) : σ.after [] = σ := rfl

@[simp] theorem after_cons (σ : TokenStream) (t : Token) (ts : List Token) :
    σ.after (t :: ts) = token t (σ.after ts) := rfl

theorem after_append (σ : TokenStream) (ts us : List Token) :
    σ.after (ts ++ us) = (σ.after us).after ts := by
  induction ts with
  | nil => rfl
  | cons t ts ih => rw [List.cons_append, after_cons, after_cons, ih]

@[simp] theorem length_after (σ : TokenStream) (ts : List Token) :
    (σ.after ts).length = ts.length + σ.length := by
  induction ts with
  | nil => simp
  | cons t ts ih =>
    simp only [after_cons, length, ih, List.length_cons]
    omega

@[simp] theorem tokens_after (σ : TokenStream) (ts : List Token) :
    (σ.after ts).tokens = ts ++ σ.tokens := by
  induction ts with
  | nil => rfl
  | cons t ts ih => rw [after_cons, tokens, ih, List.cons_append]

theorem after_cancel {σ τ : TokenStream} {ts : List Token} (h : σ.after ts = τ.after ts) : σ = τ := by
  induction ts with
  | nil => exact h
  | cons t ts ih =>
    rw [after_cons, after_cons] at h
    exact ih (token.inj h).2

theorem next_after {σ τ : TokenStream} (h : σ.next = τ.next) (ts : List Token) :
    (σ.after ts).next = (τ.after ts).next := by
  cases ts with
  | nil => exact h
  | cons t ts => rfl

theorem exists_after_of_tokens {σ : TokenStream} {ts rest : List Token} {t : Token}
    (h : σ.tokens = ts ++ t :: rest) : ∃ τ : TokenStream, σ = τ.after ts ∧ τ.next = .ok t := by
  induction ts generalizing σ with
  | nil =>
    cases σ with
    | token u σ =>
      cases h
      exact ⟨_, rfl, rfl⟩
    | ended p =>
      cases h
      exact ⟨_, rfl, rfl⟩
    | failed e => cases h
  | cons u ts ih =>
    cases σ with
    | token u' σ =>
      obtain ⟨rfl, hσ⟩ := List.cons_eq_cons.mp h
      obtain ⟨τ, rfl, hτ⟩ := ih hσ
      exact ⟨τ, rfl, hτ⟩
    | ended p => simp [tokens] at h
    | failed e => cases h

theorem outcome_after (σ : TokenStream) (ts : List Token) :
    (σ.after ts).outcome = σ.outcome.map (ts ++ ·) := by
  induction ts with
  | nil => cases h : σ.outcome <;> simp [h, Except.map]
  | cons t ts ih =>
    rw [after_cons, outcome, ih]
    cases σ.outcome <;> rfl

theorem outcome_eq_ok {σ : TokenStream} {ts : List Token} (h : σ.outcome = .ok ts) :
    ∃ us p, σ = (ended p).after us ∧ ts = us ++ [.endOfInput p] := by
  induction σ generalizing ts with
  | token t σ ih =>
    cases hσ : σ.outcome with
    | error e =>
      rw [outcome, hσ] at h
      cases h
    | ok rest =>
      obtain ⟨us, p, rfl, rfl⟩ := ih hσ
      rw [outcome, hσ] at h
      cases h
      exact ⟨t :: us, p, rfl, rfl⟩
  | ended p =>
    cases h
    exact ⟨[], p, rfl, rfl⟩
  | failed e => cases h

end TokenStream

namespace Cursor

theorem length_skip (mode : Trivia) (p : Position) (cs : List Char) :
    (skip mode p cs).2.rest.length ≤ cs.length := by
  fun_induction skip mode p cs <;> simp_all <;> omega

private theorem length_splitNumber {c : Char} (cs : List Char) (hc : c.isDigit) :
    (splitNumber (c :: cs)).2.length ≤ cs.length := by
  have hwhole : ((c :: cs).dropWhile Char.isDigit).length ≤ cs.length := by
    rw [List.dropWhile_cons_of_pos hc]
    exact (List.dropWhile_sublist _).length_le
  simp only [splitNumber, List.span_eq_takeWhile_dropWhile]
  split
  · next tail htail =>
    have hfraction := (List.dropWhile_sublist (l := tail) Char.isDigit).length_le
    rw [htail, List.length_cons] at hwhole
    split
    · rw [htail, List.length_cons]
      exact hwhole
    · exact Nat.le_trans hfraction (Nat.le_of_succ_le hwhole)
  · exact hwhole

theorem length_lexeme {p : Position} {cs : List Char} {t : Token} {cursor : Cursor}
    (h : lexeme p cs = (.ok t, cursor)) (ht : t.kind ≠ .endOfInput) :
    cursor.rest.length < cs.length := by
  cases cs with
  | nil =>
    cases h
    exact absurd rfl ht
  | cons c cs =>
    have hcs : cs.length < (c :: cs).length := Nat.lt_succ_self _
    simp only [lexeme] at h
    split at h
    · cases h
      exact hcs
    split at h
    · next hdigit =>
      obtain ⟨-, rfl⟩ := Prod.mk.inj h
      exact Nat.lt_of_le_of_lt (length_splitNumber cs hdigit) hcs
    split at h
    · next halpha =>
      cases h
      rw [List.span_eq_takeWhile_dropWhile, List.dropWhile_cons_of_pos (by simp [Char.isAlphanum, halpha])]
      exact Nat.lt_of_le_of_lt (List.dropWhile_sublist _).length_le hcs
    · cases h
      exact hcs

theorem lexeme_endOfInput {p : Position} {cs : List Char} {t : Token} {cursor : Cursor}
    (h : lexeme p cs = (.ok t, cursor)) (ht : t.kind = .endOfInput) :
    t = .endOfInput p ∧ cursor = ⟨p, []⟩ := by
  cases cs with
  | nil =>
    cases h
    exact ⟨rfl, rfl⟩
  | cons c cs =>
    exfalso
    simp only [lexeme] at h
    split at h
    · cases h
      cases ht
    split at h
    · simp only [numberToken] at h
      split at h <;> cases h
      cases ht
    split at h
    · cases h
      simp only [Token.word] at ht
      split at ht <;> cases ht
    · cases h
      cases ht

private theorem scan_eq_ok {cursor cursor' : Cursor} {t : Token}
    (h : cursor.scan = (.ok t, cursor')) :
    ∃ p cs, cs.length ≤ cursor.rest.length ∧ lexeme p cs = (.ok t, cursor') := by
  simp only [scan] at h
  split at h
  · cases h
  · next skipped hskip =>
    refine ⟨_, _, ?_, h⟩
    have hlength := length_skip .blank cursor.position cursor.rest
    rwa [hskip] at hlength

end Cursor

namespace Scanner

theorem pending_of_next {s s' : Scanner} {r : Except LexicalError Token} (h : s.next = (r, s')) :
    s'.pending = none := by
  simp only [next] at h
  split at h
  · cases h
    rfl
  · next hpending =>
    cases h
    exact hpending

theorem size_of_next {s s' : Scanner} {t : Token} (h : s.next = (.ok t, s'))
    (ht : t.kind ≠ .endOfInput) : s'.size < s.size := by
  simp only [next] at h
  split at h
  · next hpending =>
    cases h
    simp [size, hpending, ht]
  · next hpending =>
    cases hscan : s.cursor.scan with
    | mk r cursor =>
      rw [hscan] at h
      cases h
      obtain ⟨p, cs, hcs, hlexeme⟩ := Cursor.scan_eq_ok hscan
      have hlength := Cursor.length_lexeme hlexeme ht
      simp only [size, hpending, Option.any_none]
      exact Nat.lt_of_lt_of_le hlength hcs

theorem next_endOfInput {s s' : Scanner} {t : Token} (hs : s.pending = none)
    (h : s.next = (.ok t, s')) (ht : t.kind = .endOfInput) :
    t = .endOfInput t.position ∧ s'.next = (.ok t, s') := by
  cases hscan : s.cursor.scan with
  | mk r cursor =>
    simp only [next, hs, hscan] at h
    cases h
    obtain ⟨p, cs, -, hlexeme⟩ := Cursor.scan_eq_ok hscan
    obtain ⟨rfl, rfl⟩ := Cursor.lexeme_endOfInput hlexeme ht
    refine ⟨rfl, ?_⟩
    simp [next, Cursor.scan, Cursor.skip, Cursor.lexeme]

/-- The scanner has exactly this stream left to give. -/
inductive Holds : Scanner → TokenStream → Prop
  | token {s s' : Scanner} {t : Token} {σ : TokenStream} (h : s.next = (.ok t, s'))
    (ht : t.kind ≠ .endOfInput) (hs : Holds s' σ) : Holds s (.token t σ)
  | ended {s s' : Scanner} {p : Position} (h : s.next = (.ok (.endOfInput p), s'))
    (hs : s'.next = (.ok (.endOfInput p), s')) : Holds s (.ended p)
  | failed {s s' : Scanner} {e : LexicalError} (h : s.next = (.error e, s')) : Holds s (.failed e)

theorem Holds.next_eq {s : Scanner} {σ : TokenStream} (h : Holds s σ) :
    ∃ s', s.next = (σ.next, s') := by
  cases h with
  | token h _ _ => exact ⟨_, h⟩
  | ended h _ => exact ⟨_, h⟩
  | failed h => exact ⟨_, h⟩

/-- Looking at the next token leaves the stream as it was. -/
theorem Holds.takeBack {s s' : Scanner} {σ : TokenStream} {t : Token} (h : Holds s σ)
    (hnext : s.next = (.ok t, s')) : Holds (s'.takeBack t) σ := by
  have hback := next_takeBack t s' (pending_of_next hnext)
  cases h with
  | token h ht hs =>
    cases hnext.symm.trans h
    exact .token hback ht hs
  | ended h hs =>
    cases hnext.symm.trans h
    exact .ended hback hs
  | failed h => cases hnext.symm.trans h

theorem Holds.unique {s : Scanner} {σ τ : TokenStream} (hσ : Holds s σ) (hτ : Holds s τ) : σ = τ := by
  induction hσ generalizing τ with
  | token h ht _ ih =>
    cases hτ with
    | token h' _ hs =>
      cases h.symm.trans h'
      rw [ih hs]
    | ended h' _ =>
      cases h.symm.trans h'
      exact absurd rfl ht
    | failed h' => cases h.symm.trans h'
  | ended h _ =>
    cases hτ with
    | token h' ht _ =>
      cases h.symm.trans h'
      exact absurd rfl ht
    | ended h' _ =>
      cases h.symm.trans h'
      rfl
    | failed h' => cases h.symm.trans h'
  | failed h =>
    cases hτ with
    | token h' _ _ => cases h.symm.trans h'
    | ended h' _ => cases h.symm.trans h'
    | failed h' =>
      cases h.symm.trans h'
      rfl

theorem Holds.of_after {s : Scanner} {σ : TokenStream} {ts : List Token} (h : Holds s (σ.after ts)) :
    ∃ s', Holds s' σ := by
  induction ts generalizing s with
  | nil => exact ⟨s, h⟩
  | cons t ts ih =>
    cases h with
    | token _ _ hs => exact ih hs

theorem Holds.ended_of_next {s : Scanner} {σ : TokenStream} {t : Token} (h : Holds s σ)
    (hnext : σ.next = .ok t) (ht : t.kind = .endOfInput) : σ = .ended t.position := by
  cases h with
  | token _ hkind _ =>
    cases hnext
    exact absurd ht hkind
  | ended _ _ =>
    cases hnext
    rfl
  | failed _ => cases hnext

/-- There are no more tokens than the size of a scanner says. -/
theorem Holds.length_le {s : Scanner} {σ : TokenStream} (h : Holds s σ) : σ.length ≤ s.size := by
  induction h with
  | token h ht _ ih => exact Nat.succ_le_of_lt (Nat.lt_of_le_of_lt ih (size_of_next h ht))
  | ended _ _ => exact Nat.zero_le _
  | failed _ => exact Nat.zero_le _

def streamWithin : Nat → Scanner → TokenStream
  | 0, s => .ended s.cursor.position
  | fuel + 1, s =>
    match s.next with
    | (.error e, _) => .failed e
    | (.ok t, s') => if t.kind = .endOfInput then .ended t.position else .token t (streamWithin fuel s')

/-- What the scanner has left to give. -/
def stream (s : Scanner) : TokenStream := streamWithin (s.size + 1) s

private theorem holds_streamWithin {fuel : Nat} {s : Scanner} (hs : s.pending = none)
    (hfuel : s.size < fuel) : Holds s (streamWithin fuel s) := by
  induction fuel generalizing s with
  | zero => exact absurd hfuel (Nat.not_lt_zero _)
  | succ fuel ih =>
    simp only [streamWithin]
    split
    · next h => exact .failed h
    · next t s' h =>
      split
      · next ht =>
        obtain ⟨hend, hstay⟩ := next_endOfInput hs h ht
        rw [hend] at h hstay
        exact .ended h hstay
      · next ht =>
        have hsize := size_of_next h ht
        exact .token h ht (ih (pending_of_next h) (by omega))

theorem holds_stream {s : Scanner} (hs : s.pending = none) : Holds s s.stream :=
  holds_streamWithin hs (Nat.lt_succ_self _)

private theorem readAll_fst {fuel : Nat} {s : Scanner} {σ : TokenStream} (h : Holds s σ)
    (hfuel : σ.length < fuel) : (readAll fuel s).1 = σ.outcome := by
  induction h generalizing fuel with
  | token h ht _ ih =>
    obtain ⟨fuel, rfl⟩ := Nat.exists_eq_succ_of_ne_zero (Nat.ne_of_gt (Nat.zero_lt_of_lt hfuel))
    simp only [readAll, h, if_neg ht, TokenStream.outcome]
    rw [ih (Nat.lt_of_succ_lt_succ hfuel)]
  | ended h _ =>
    obtain ⟨fuel, rfl⟩ := Nat.exists_eq_succ_of_ne_zero (Nat.ne_of_gt (Nat.zero_lt_of_lt hfuel))
    simp [readAll, h, TokenStream.outcome, Token.endOfInput]
  | failed h =>
    obtain ⟨fuel, rfl⟩ := Nat.exists_eq_succ_of_ne_zero (Nat.ne_of_gt (Nat.zero_lt_of_lt hfuel))
    simp [readAll, h, TokenStream.outcome]

/-- The tokens of a scanner are those of its stream. -/
theorem tokens_fst {s : Scanner} (hs : s.pending = none) : s.tokens.1 = s.stream.outcome :=
  readAll_fst (holds_stream hs) (Nat.lt_succ_of_le (holds_stream hs).length_le)

end Scanner

end DrawingBugs
