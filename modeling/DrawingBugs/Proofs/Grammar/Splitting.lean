import DrawingBugs.Proofs.Grammar.Lexemes
import Mathlib

/-!
# Splitting a text

A source text is gaps and lexemes in turn. A gap is as many blanks and comments as there are; a
lexeme is the longest word or number after it, a line end, or any other character. The scanner
gives one token for each lexeme, at the line and column where the lexeme begins, and then one for
the end of the input. It fails only where a block comment is opened that nothing closes.
-/

namespace DrawingBugs

/-- The line and column of the character behind a text: line ends and the characters after the
last of them, counted from one. -/
def Position.behind (before : List Char) : Position :=
  ⟨before.count '\n' + 1, (before.reverse.takeWhile (· ≠ '\n')).length + 1⟩

namespace Text

/-- Blanks and comments in front of a rest of the text. -/
inductive Gap : List Char → List Char → Prop
  | none {rest : List Char} : Gap [] rest
  | blank {c : Char} {gap rest : List Char} (hc : c ∈ [' ', '\t', '\r']) (h : Gap gap rest) :
    Gap (c :: gap) rest
  /-- A line comment goes on to the end of its line. -/
  | line {body gap rest : List Char} (hbody : '\n' ∉ body)
    (hend : ∀ c ∈ (gap ++ rest).head?, c = '\n') (h : Gap gap rest) :
    Gap ('/' :: '/' :: (body ++ gap)) rest
  /-- A block comment goes on to the first mark that closes it. -/
  | block {body gap rest : List Char} (hbody : ¬ ['*', '/'] <:+: body ++ ['*']) (h : Gap gap rest) :
    Gap ('/' :: '*' :: (body ++ '*' :: '/' :: gap)) rest

/-- A letter, and letters and digits after it. -/
def Word (cs _rest : List Char) : Prop :=
  ∃ c tail, cs = c :: tail ∧ c.isAlpha ∧ ∀ d ∈ tail, d.isAlphanum

/-- Digits, with or without a point and digits after it. -/
def Numeral (cs _rest : List Char) : Prop :=
  Number.Digits cs ∨
    ∃ whole fraction, cs = whole ++ '.' :: fraction ∧ Number.Digits whole ∧ Number.Digits fraction

/-- A part in front of a rest of the text is the longest one of its class. -/
def Longest (Class : List Char → List Char → Prop) (part rest : List Char) : Prop :=
  Class part rest ∧
    ∀ part' rest', part' ++ rest' = part ++ rest → Class part' rest' → part'.length ≤ part.length

/-- A lexeme in front of a rest of the text, with the kind and the text of its token. -/
inductive Lexeme : List Char → List Char → Kind → String → Prop
  | line {rest : List Char} : Lexeme ['\n'] rest .endOfLine "\n"
  | word {word rest : List Char} (h : Longest Word word rest) :
    Lexeme word rest (if isKeyword (String.ofList word) then .keyword else .name)
      (String.ofList word)
  /-- The text of a number is the canonical one of its value. -/
  | number {number rest : List Char} {v : Float} (h : Longest Numeral number rest)
    (hv : Number.readChars? number = some v) : Lexeme number rest .number (Number.text v)
  | symbol {c : Char} {rest : List Char} (hc : c ≠ '\n' ∧ ¬ c.isAlpha ∧ ¬ c.isDigit)
    (hslash : c = '/' → ∀ d ∈ rest.head?, d ≠ '/' ∧ d ≠ '*') :
    Lexeme [c] rest .symbol (String.singleton c)

/-- The text after what came before, split into gaps and lexemes. The split gives the tokens of the
lexemes and of the end, or the place of a block comment that nothing closes. -/
inductive Splits : List Char → List Char → Except Position (List Token) → Prop
  | ended {before gap : List Char} (hgap : Gap gap []) :
    Splits before gap (.ok [⟨.endOfInput, "EOF", .behind (before ++ gap)⟩])
  | opened {before gap comment : List Char} (hgap : Gap gap ('/' :: '*' :: comment))
    (hopen : ¬ ['*', '/'] <:+: comment) :
    Splits before (gap ++ '/' :: '*' :: comment) (.error (.behind (before ++ gap)))
  | token {before gap lexeme rest : List Char} {kind : Kind} {text : String}
    {r : Except Position (List Token)} (hgap : Longest Gap gap (lexeme ++ rest))
    (hlexeme : Lexeme lexeme rest kind text) (hrest : Splits (before ++ gap ++ lexeme) rest r) :
    Splits before (gap ++ (lexeme ++ rest)) (r.map (⟨kind, text, .behind (before ++ gap)⟩ :: ·))

end Text

/-! ## Places -/

private theorem Position.past_append (p : Position) (as bs : List Char) :
    p.past (as ++ bs) = (p.past as).past bs := by
  simp [past, List.foldl_append]

theorem Position.past_first (before : List Char) : Position.first.past before = .behind before := by
  induction before using List.reverseRecOn with
  | nil => rfl
  | append_singleton before c ih =>
    rw [past_append, ih]
    by_cases hc : c = '\n'
    · simp [past, after, behind, hc]
    · simp [past, after, behind, hc]

/-! ## Gaps -/

namespace Cursor

private theorem closes_cons {starred : Bool} {c : Char} {cs : List Char} :
    Closes starred (c :: cs) ↔ starred = true ∧ c = '/' ∨ Closes (c = '*') cs := by
  constructor
  · intro h
    by_cases hc : starred = true ∧ c = '/'
    · exact .inl hc
    · exact .inr (h.later hc)
  · intro h
    cases h with
    | inl hc =>
      rw [Closes, if_pos hc.1, hc.2]
      exact ⟨[], cs, rfl⟩
    | inr h =>
      have hlater : ['*', '/'] <:+: c :: cs := by
        by_cases hstar : c = '*'
        · simpa [Closes, hstar] using h
        · have hin : ['*', '/'] <:+: cs := by simpa [Closes, hstar] using h
          exact hin.trans (List.suffix_cons c cs).isInfix
      cases starred with
      | false => exact hlater
      | true => exact hlater.trans (List.suffix_cons '*' (c :: cs)).isInfix

private theorem skip_body (opened : Position) {body : List Char} {starred : Bool} (p : Position)
    (rest : List Char) (h : ¬ Closes starred (body ++ ['*'])) :
    skip (.blockComment opened starred) p (body ++ '*' :: '/' :: rest) =
      skip .blank (p.past (body ++ ['*', '/'])) rest := by
  induction body generalizing starred p with
  | nil => simp [skip, Position.past]
  | cons c body ih =>
    rw [List.cons_append, closes_cons, not_or] at h
    have hrest := ih (p.after c) h.2
    rw [List.cons_append, Cursor.skip.eq_def]
    simp only [if_neg h.1, hrest]
    rfl

private theorem skip_open (opened : Position) {cs : List Char} {starred : Bool} (p : Position)
    (h : ¬ Closes starred cs) :
    skip (.blockComment opened starred) p cs = (some opened, ⟨p.past cs, []⟩) := by
  induction cs generalizing starred p with
  | nil => rfl
  | cons c cs ih =>
    rw [closes_cons, not_or] at h
    rw [skip, if_neg h.1, ih (p.after c) h.2]
    rfl

private theorem skip_line {body : List Char} (p : Position) (rest : List Char) (hbody : '\n' ∉ body)
    (hend : ∀ c ∈ rest.head?, c = '\n') :
    skip .lineComment p (body ++ rest) = (none, ⟨p.past body, rest⟩) := by
  induction body generalizing p with
  | nil =>
    cases rest with
    | nil => rfl
    | cons c rest =>
      have hc : c = '\n' := hend c rfl
      simp [skip, hc, Position.past]
  | cons c body ih =>
    rw [List.mem_cons, not_or] at hbody
    rw [List.cons_append, skip, if_neg (Ne.symm hbody.1), ih (p.after c) hbody.2]
    rfl

end Cursor

namespace Text

/-- The text begins with neither a blank nor a comment. -/
def Bare (cs : List Char) : Prop :=
  ∀ c rest, cs = c :: rest → c ∉ [' ', '\t', '\r'] ∧
    (c = '/' → ∀ d ∈ rest.head?, d ≠ '/' ∧ d ≠ '*')

theorem bare_of_line {rest : List Char} (h : ∀ c ∈ rest.head?, c = '\n') : Bare rest := by
  intro c cs hrest
  have hc : c = '\n' := h c (by rw [hrest]; rfl)
  rw [hc]
  exact ⟨by decide, fun hslash => absurd hslash (by decide)⟩

private theorem Bare.skip {cs : List Char} (h : Bare cs) (p : Position) :
    Cursor.skip .blank p cs = (none, ⟨p, cs⟩) := by
  rw [Cursor.skip]
  · intro tail htail
    exact (h _ _ htail).1 (by decide)
  · intro tail htail
    exact (h _ _ htail).1 (by decide)
  · intro tail htail
    exact (h _ _ htail).1 (by decide)
  · intro tail htail
    exact ((h _ _ htail).2 rfl '/' rfl).1 rfl
  · intro tail htail
    exact ((h _ _ htail).2 rfl '*' rfl).2 rfl

private theorem Gap.skip {gap rest : List Char} (h : Gap gap rest) (p : Position) :
    Cursor.skip .blank p (gap ++ rest) = Cursor.skip .blank (p.past gap) rest := by
  induction h generalizing p with
  | none => rfl
  | @blank c gap rest hc h ih =>
    have hskip : Cursor.skip .blank p (c :: (gap ++ rest)) =
        Cursor.skip .blank (p.after c) (gap ++ rest) := by
      simp only [List.mem_cons, List.not_mem_nil, or_false] at hc
      obtain rfl | rfl | rfl := hc
      · rw [Cursor.skip]
      · rw [Cursor.skip]
      · rw [Cursor.skip]
    rw [List.cons_append, hskip, ih]
    rfl
  | @line body gap rest hbody hend h ih =>
    -- The line end stops the comment and the gap alike, so skipping blanks again does nothing.
    have hbare := (bare_of_line hend).skip ((p.past ['/', '/']).past body)
    have hline := Cursor.skip_line (p.past ['/', '/']) (gap ++ rest) hbody hend
    rw [← hbare, ih] at hline
    rw [List.cons_append, List.cons_append, List.append_assoc, Cursor.skip, hline,
      ← Position.past_append, ← Position.past_append]
    rfl
  | @block body gap rest hbody h ih =>
    have hclose : ¬ Cursor.Closes false (body ++ ['*']) := hbody
    have hblock := Cursor.skip_body p (p.past ['/', '*']) (gap ++ rest) hclose
    rw [List.cons_append, List.cons_append, List.append_assoc, List.cons_append, List.cons_append,
      Cursor.skip, hblock, ih, ← Position.past_append, ← Position.past_append]
    simp

private theorem Gap.append {gap gap' rest : List Char} (h : Gap gap (gap' ++ rest))
    (h' : Gap gap' rest) : Gap (gap ++ gap') rest := by
  generalize hall : gap' ++ rest = all at h
  induction h with
  | none => exact h'
  | blank hc h ih => exact .blank hc (ih hall)
  | line hbody hend h ih =>
    subst hall
    rw [List.cons_append, List.cons_append, List.append_assoc]
    exact .line hbody (by rwa [List.append_assoc]) (ih rfl)
  | block hbody h ih =>
    rw [List.cons_append, List.cons_append, List.append_assoc, List.cons_append, List.cons_append]
    exact .block hbody (ih hall)

/-- A gap that nothing goes on with is the longest one, since every other gap leaves skipping at
the same place. -/
theorem Gap.longest {gap rest : List Char} (h : Gap gap rest) (hbare : Bare rest) :
    Longest Gap gap rest := by
  refine ⟨h, ?_⟩
  intro gap' rest' hall h'
  have hskip := h'.skip .first
  rw [hall, h.skip, hbare.skip] at hskip
  have hlength := Cursor.length_skip .blank (Position.first.past gap') rest'
  rw [← hskip] at hlength
  have htotal := congrArg List.length hall
  simp only [List.length_append] at htotal
  simp only at hlength
  omega

private theorem exists_first_mark {cs : List Char} (h : ['*', '/'] <:+: cs) :
    ∃ body tail, cs = body ++ '*' :: '/' :: tail ∧ ¬ ['*', '/'] <:+: body ++ ['*'] := by
  induction cs with
  | nil => exact absurd h.length_le (by simp)
  | cons c cs ih =>
    by_cases hhead : ['*', '/'] <+: c :: cs
    · obtain ⟨tail, htail⟩ := hhead
      exact ⟨[], tail, htail.symm, by decide⟩
    · have hlater : ['*', '/'] <:+: cs := (List.infix_cons_iff.mp h).resolve_left hhead
      obtain ⟨body, tail, rfl, hbody⟩ := ih hlater
      refine ⟨c :: body, tail, rfl, ?_⟩
      intro hmark
      rw [List.cons_append] at hmark
      cases List.infix_cons_iff.mp hmark with
      | inl hfirst =>
        refine hhead (hfirst.trans ⟨'/' :: tail, ?_⟩)
        simp
      | inr hin => exact hbody hin

private theorem bare_or_gap (cs : List Char) :
    Bare cs ∨ (∃ c rest, cs = c :: rest ∧ c ∈ [' ', '\t', '\r']) ∨
      (∃ rest, cs = '/' :: '/' :: rest) ∨ ∃ rest, cs = '/' :: '*' :: rest := by
  by_cases hbare : Bare cs
  · exact .inl hbare
  refine .inr ?_
  simp only [Bare, not_forall, not_and_or] at hbare
  obtain ⟨c, rest, rfl, hc⟩ := hbare
  cases hc with
  | inl hblank => exact .inl ⟨c, rest, rfl, not_not.mp hblank⟩
  | inr hslash =>
    obtain ⟨rfl, d, hd, hmark⟩ := hslash
    obtain ⟨tail, rfl⟩ := List.head?_eq_some_iff.mp hd
    cases hmark with
    | inl hline => exact .inr (.inl ⟨tail, by rw [not_not.mp hline]⟩)
    | inr hblock => exact .inr (.inr ⟨tail, by rw [not_not.mp hblock]⟩)

/-- The gap at the beginning of a text ends in front of something else, or where a comment is
opened that nothing closes. -/
private theorem exists_gap (cs : List Char) :
    ∃ gap rest, cs = gap ++ rest ∧ Gap gap rest ∧
      (Bare rest ∨ ∃ comment, rest = '/' :: '*' :: comment ∧ ¬ ['*', '/'] <:+: comment) := by
  generalize hlength : cs.length = length
  induction length using Nat.strong_induction_on generalizing cs with
  | _ length ih =>
    subst hlength
    obtain hbare | ⟨c, tail, rfl, hc⟩ | ⟨tail, rfl⟩ | ⟨tail, rfl⟩ := bare_or_gap cs
    · exact ⟨[], cs, rfl, .none, .inl hbare⟩
    · obtain ⟨gap, rest, rfl, hgap, hrest⟩ := ih _ (Nat.lt_succ_self _) tail rfl
      exact ⟨c :: gap, rest, rfl, .blank hc hgap, hrest⟩
    · have hsplit := List.takeWhile_append_dropWhile (p := (· ≠ '\n')) (l := tail)
      have hshorter := (List.dropWhile_sublist (· ≠ '\n') (l := tail)).length_le
      obtain ⟨gap, rest, hall, hgap, hrest⟩ :=
        ih _ (by simp only [List.length_cons]; omega) (tail.dropWhile (· ≠ '\n')) rfl
      have hbody : '\n' ∉ tail.takeWhile (· ≠ '\n') := by
        intro hmem
        simpa using List.mem_takeWhile_imp hmem
      have hend : ∀ c ∈ (gap ++ rest).head?, c = '\n' := by
        intro c hc
        have hstop := List.head?_dropWhile_not (· ≠ '\n') tail
        rw [hall, Option.mem_def.mp hc] at hstop
        simpa using hstop
      refine ⟨_, rest, ?_, .line hbody hend hgap, hrest⟩
      rw [List.cons_append, List.cons_append, List.append_assoc, ← hall, hsplit]
    · by_cases hclosed : ['*', '/'] <:+: tail
      · obtain ⟨body, after, rfl, hbody⟩ := exists_first_mark hclosed
        have hshorter : after.length < ('/' :: '*' :: (body ++ '*' :: '/' :: after)).length := by
          simp only [List.length_cons, List.length_append]
          omega
        obtain ⟨gap, rest, rfl, hgap, hrest⟩ := ih _ hshorter after rfl
        exact ⟨_, rest, by simp, .block hbody hgap, hrest⟩
      · exact ⟨[], _, rfl, .none, .inr ⟨tail, rfl, hclosed⟩⟩

/-! ## Lexemes -/

private theorem Longest.unique {Class : List Char → List Char → Prop}
    {part part' rest rest' : List Char} (h : Longest Class part rest)
    (h' : Longest Class part' rest')
    (hall : part ++ rest = part' ++ rest') : part = part' ∧ rest = rest' := by
  have hle : part.length ≤ part'.length := h'.2 part rest hall h.1
  have hge : part'.length ≤ part.length := h.2 part' rest' hall.symm h'.1
  exact List.append_inj hall (Nat.le_antisymm hle hge)

private theorem length_le_takeWhile {p : Char → Bool} {part : List Char} (h : ∀ c ∈ part, p c)
    (rest : List Char) : part.length ≤ ((part ++ rest).takeWhile p).length := by
  rw [List.takeWhile_append_of_pos h, List.length_append]
  exact Nat.le_add_right _ _

theorem longest_word {c : Char} (cs : List Char) (hc : c.isAlpha) :
    Longest Word ((c :: cs).takeWhile Char.isAlphanum) ((c :: cs).dropWhile Char.isAlphanum) := by
  have hfirst : c.isAlphanum := by simp [Char.isAlphanum, hc]
  constructor
  · rw [List.takeWhile_cons_of_pos hfirst]
    exact ⟨c, _, rfl, hc, fun d hd => List.mem_takeWhile_imp hd⟩
  · intro word rest hall hword
    rw [List.takeWhile_append_dropWhile] at hall
    obtain ⟨d, tail, rfl, hd, htail⟩ := hword
    have hletters : ∀ e ∈ d :: tail, e.isAlphanum :=
      List.forall_mem_cons.mpr ⟨by simp [Char.isAlphanum, hd], htail⟩
    rw [← hall]
    exact length_le_takeWhile hletters rest

private theorem splitNumber_digits {cs : List Char} (hcs : Number.Digits cs) (rest : List Char) :
    cs.length ≤ (Cursor.splitNumber (cs ++ rest)).1.length := by
  have hwhole := length_le_takeWhile hcs.2 rest
  simp only [Cursor.splitNumber, List.span_eq_takeWhile_dropWhile]
  split
  · split
    · exact hwhole
    · rw [List.length_append]
      exact Nat.le_add_right_of_le hwhole
  · exact hwhole

private theorem splitNumber_point {whole fraction : List Char} (hwhole : Number.Digits whole)
    (hfraction : Number.Digits fraction) (rest : List Char) :
    (Cursor.splitNumber (whole ++ '.' :: (fraction ++ rest))).1 =
      whole ++ '.' :: (fraction ++ rest).takeWhile Char.isDigit := by
  have hspan : (whole ++ '.' :: (fraction ++ rest)).span Char.isDigit =
      (whole, '.' :: (fraction ++ rest)) :=
    Number.span_digits hwhole.2 (by simp)
  have hne : (fraction ++ rest).takeWhile Char.isDigit ≠ [] := by
    rw [List.takeWhile_append_of_pos hfraction.2]
    exact List.append_ne_nil_of_left_ne_nil hfraction.1 _
  simp only [Cursor.splitNumber, hspan]
  rw [List.span_eq_takeWhile_dropWhile]
  simp only [if_neg hne]

private theorem numeral_splitNumber {c : Char} (cs rest : List Char) (hc : c.isDigit) :
    Numeral (Cursor.splitNumber (c :: cs)).1 rest := by
  have hwhole : Number.Digits ((c :: cs).takeWhile Char.isDigit) :=
    ⟨by rw [List.takeWhile_cons_of_pos hc]; exact List.cons_ne_nil _ _,
      fun d hd => List.mem_takeWhile_imp hd⟩
  simp only [Cursor.splitNumber, List.span_eq_takeWhile_dropWhile]
  split
  · split
    · exact .inl hwhole
    · next hne => exact .inr ⟨_, _, rfl, hwhole, hne, fun d hd => List.mem_takeWhile_imp hd⟩
  · exact .inl hwhole

theorem longest_numeral {c : Char} (cs : List Char) (hc : c.isDigit) :
    Longest Numeral (Cursor.splitNumber (c :: cs)).1 (Cursor.splitNumber (c :: cs)).2 := by
  refine ⟨numeral_splitNumber cs _ hc, ?_⟩
  intro number rest hall hnumber
  rw [Cursor.splitNumber_append] at hall
  rw [← hall]
  cases hnumber with
  | inl hdigits => exact splitNumber_digits hdigits rest
  | inr hpoint =>
    obtain ⟨whole, fraction, rfl, hwhole, hfraction⟩ := hpoint
    have hlonger := length_le_takeWhile hfraction.2 rest
    rw [List.append_assoc, List.cons_append, splitNumber_point hwhole hfraction]
    simp only [List.length_append, List.length_cons]
    omega

private theorem Numeral.head {cs rest : List Char} (h : Numeral cs rest) :
    ∃ c tail, cs = c :: tail ∧ c.isDigit := by
  obtain hdigits | ⟨whole, fraction, rfl, hwhole, -⟩ := h
  · simpa using hdigits.head []
  · exact hwhole.head _

private theorem Lexeme.ne_nil {lexeme rest : List Char} {kind : Kind} {text : String}
    (h : Lexeme lexeme rest kind text) : lexeme ≠ [] := by
  cases h with
  | line => exact List.cons_ne_nil _ _
  | word h =>
    obtain ⟨c, tail, rfl, -⟩ := h.1
    exact List.cons_ne_nil _ _
  | number h _ =>
    obtain ⟨c, tail, rfl, -⟩ := h.1.head
    exact List.cons_ne_nil _ _
  | symbol => exact List.cons_ne_nil _ _

private theorem Lexeme.kind_ne {lexeme rest : List Char} {kind : Kind} {text : String}
    (h : Lexeme lexeme rest kind text) : kind ≠ .endOfInput := by
  cases h with
  | word => split <;> decide
  | _ => decide

private theorem Lexeme.bare {gap lexeme rest : List Char} {kind : Kind} {text : String}
    (h : Lexeme lexeme rest kind text) (hgap : Longest Gap gap (lexeme ++ rest)) :
    Bare (lexeme ++ rest) := by
  intro c tail hall
  constructor
  · intro hblank
    have hlonger : Gap (gap ++ [c]) tail := by
      refine Gap.append ?_ (.blank hblank .none)
      rw [List.singleton_append, ← hall]
      exact hgap.1
    have hlength := hgap.2 (gap ++ [c]) tail (by simp [hall]) hlonger
    rw [List.length_append, List.length_singleton] at hlength
    omega
  · rintro rfl
    cases h with
    | line => cases hall
    | word h =>
      obtain ⟨d, word, rfl, hd, -⟩ := h.1
      cases hall
      exact absurd hd (by decide)
    | number h _ =>
      obtain ⟨d, number, rfl, hd⟩ := h.1.head
      cases hall
      exact absurd hd (by decide)
    | symbol hc hslash =>
      cases hall
      exact hslash rfl

/-- Every text that is not used up begins with a lexeme, unless it begins with a gap. -/
private theorem exists_lexeme {c : Char} {cs : List Char} (h : Bare (c :: cs)) :
    ∃ lexeme rest kind text, c :: cs = lexeme ++ rest ∧ Lexeme lexeme rest kind text := by
  by_cases hline : c = '\n'
  · subst hline
    exact ⟨['\n'], cs, _, _, rfl, .line⟩
  by_cases hdigit : c.isDigit
  · obtain ⟨v, hv⟩ := Option.isSome_iff_exists.mp
      ((Cursor.splitNumber_written cs hdigit).readChars? false)
    exact ⟨_, _, _, _, (Cursor.splitNumber_append (c :: cs)).symm,
      .number (longest_numeral cs hdigit) hv⟩
  by_cases halpha : c.isAlpha
  · exact ⟨_, _, _, _, List.takeWhile_append_dropWhile.symm, .word (longest_word cs halpha)⟩
  · exact ⟨[c], cs, _, _, rfl, .symbol ⟨hline, halpha, hdigit⟩ (h c cs rfl).2⟩

/-- The scanner reads a lexeme as its token. -/
private theorem Lexeme.read {lexeme rest : List Char} {kind : Kind} {text : String}
    (h : Lexeme lexeme rest kind text) (p : Position) :
    Cursor.lexeme p (lexeme ++ rest) = (.ok ⟨kind, text, p⟩, ⟨p.past lexeme, rest⟩) := by
  cases h with
  | line => rfl
  | word h =>
    obtain ⟨c, tail, rfl, hc, -⟩ := h.1
    have hline : c ≠ '\n' := by
      rintro rfl
      exact absurd hc (by decide)
    obtain ⟨hword, hrest⟩ := h.unique (longest_word (tail ++ rest) hc)
      List.takeWhile_append_dropWhile.symm
    simp only [List.cons_append, Cursor.lexeme, if_neg hline, if_neg (Number.not_isDigit_of_isAlpha hc),
      if_pos hc]
    rw [List.span_eq_takeWhile_dropWhile, ← hword, ← hrest]
    rfl
  | number h hv =>
    obtain ⟨c, tail, rfl, hc⟩ := h.1.head
    have hline : c ≠ '\n' := by
      rintro rfl
      exact absurd hc (by decide)
    obtain ⟨hnumber, hrest⟩ := h.unique (longest_numeral (tail ++ rest) hc)
      (Cursor.splitNumber_append _).symm
    simp only [List.cons_append, Cursor.lexeme, if_neg hline, if_pos hc]
    rw [← hnumber, ← hrest, Cursor.numberToken, hv]
  | symbol hc hslash =>
    simp only [List.singleton_append, Cursor.lexeme, if_neg hc.1, if_neg hc.2.1, if_neg hc.2.2]
    rfl

/-! ## Splits -/

private theorem past_behind (before cs : List Char) :
    (Position.behind before).past cs = .behind (before ++ cs) := by
  rw [← Position.past_first, ← Position.past_append, Position.past_first]

private theorem exists_splits (before text : List Char) : ∃ r, Splits before text r := by
  generalize hlength : text.length = length
  induction length using Nat.strong_induction_on generalizing before text with
  | _ length ih =>
    obtain ⟨gap, rest, rfl, hgap, hbare | ⟨comment, rfl, hopen⟩⟩ := exists_gap text
    · cases rest with
      | nil =>
        rw [List.append_nil]
        exact ⟨_, .ended hgap⟩
      | cons c cs =>
        obtain ⟨lexeme, rest, kind, text, hall, hlexeme⟩ := exists_lexeme hbare
        rw [hall] at hgap hbare hlength ⊢
        have hshorter : rest.length < length := by
          have hpos := List.length_pos_iff.mpr hlexeme.ne_nil
          simp only [List.length_append] at hlength
          omega
        obtain ⟨r, hr⟩ := ih _ hshorter (before ++ gap ++ lexeme) rest rfl
        exact ⟨_, .token (hgap.longest hbare) hlexeme hr⟩
    · exact ⟨_, .opened hgap hopen⟩

/-- A scanner in front of a text has the stream that the split of the text gives. -/
private theorem Splits.holds {before text : List Char} {r : Except Position (List Token)}
    (h : Splits before text r) {s : Scanner} (hcursor : s.cursor = ⟨.behind before, text⟩)
    (hpending : s.pending = none) :
    ∃ σ, s.Holds σ ∧ σ.outcome = r.mapError .openComment := by
  induction h generalizing s with
  | @ended before gap hgap =>
    have hskip := hgap.skip (.behind before)
    rw [List.append_nil, past_behind] at hskip
    have hnext : s.next = (.ok (.endOfInput (.behind (before ++ gap))),
        { s with cursor := ⟨.behind (before ++ gap), []⟩ }) := by
      simp [Scanner.next, hpending, Cursor.scan, hcursor, hskip, Cursor.skip, Cursor.lexeme]
    exact ⟨_, .ended hnext (Scanner.next_endOfInput hpending hnext rfl).2, rfl⟩
  | @opened before gap comment hgap hopen =>
    have hskip := hgap.skip (.behind before)
    have hclose : ¬ Cursor.Closes false comment := hopen
    rw [past_behind, Cursor.skip, Cursor.skip_open _ _ hclose] at hskip
    have hnext : s.next = (.error (.openComment (.behind (before ++ gap))), s.next.2) := by
      simp [Scanner.next, hpending, Cursor.scan, hcursor, hskip]
    exact ⟨_, .failed hnext, rfl⟩
  | @token before gap lexeme rest kind text r hgap hlexeme hrest ih =>
    have hskip := hgap.1.skip (.behind before)
    rw [past_behind, (hlexeme.bare hgap).skip] at hskip
    have hnext : s.next = (.ok ⟨kind, text, .behind (before ++ gap)⟩,
        { s with cursor := ⟨.behind (before ++ gap ++ lexeme), rest⟩ }) := by
      simp [Scanner.next, hpending, Cursor.scan, hcursor, hskip, hlexeme.read, past_behind]
    obtain ⟨σ, hσ, houtcome⟩ := @ih { s with cursor := _ } rfl hpending
    refine ⟨_, .token hnext hlexeme.kind_ne hσ, ?_⟩
    rw [TokenStream.outcome, houtcome]
    cases r <;> rfl

/-- A text has one split, and the scanner finds it. -/
theorem Splits.tokens {source : String} {r : Except Position (List Token)}
    (h : Splits [] source.toList r) :
    (Scanner.ofSource source).tokens.1 = r.mapError .openComment := by
  obtain ⟨σ, hσ, houtcome⟩ := h.holds (s := .ofSource source) rfl rfl
  have hstream := Scanner.holds_stream (s := .ofSource source) rfl
  rw [Scanner.tokens_fst rfl, hstream.unique hσ, houtcome]

private theorem openComment_of_message {e : LexicalError}
    (h : e.message = "Unterminated block comment") : e = .openComment e.position := by
  cases e with
  | openComment opened => rfl
  | malformedNumber text start =>
    have hchars : ("Malformed number '" ++ text ++ "'").toList =
        "Unterminated block comment".toList := congrArg String.toList h
    have hmalformed : "Malformed number '".toList = 'M' :: "alformed number '".toList := by decide
    have hopen : "Unterminated block comment".toList =
        'U' :: "nterminated block comment".toList := by decide
    rw [String.toList_append, String.toList_append, hmalformed, hopen, List.cons_append,
      List.cons_append, List.cons.injEq] at hchars
    exact absurd hchars.1 (by decide)

/-- The tokens of a source are those of its split into the longest gaps and lexemes, each at the
line and column of its lexeme. Scanning fails exactly where a block comment is left open, at the
comment's opener, and with no other error. -/
theorem tokens_iff_splits (source : String) :
    (∀ ts, (Scanner.ofSource source).tokens.1 = .ok ts ↔ Splits [] source.toList (.ok ts)) ∧
      (∀ e, (Scanner.ofSource source).tokens.1 = .error e ↔
        e.message = "Unterminated block comment" ∧ Splits [] source.toList (.error e.position)) ∧
      ((∃ ts, (Scanner.ofSource source).tokens.1 = .ok ts) ↔
        ∀ p, ¬ Splits [] source.toList (.error p)) := by
  obtain ⟨r, hr⟩ := exists_splits [] source.toList
  have htokens := hr.tokens
  refine ⟨?_, ?_, ?_⟩
  · intro ts
    constructor
    · intro h
      cases r with
      | ok ts' =>
        cases htokens.symm.trans h
        exact hr
      | error p => cases htokens.symm.trans h
    · intro h
      exact h.tokens
  · intro e
    constructor
    · intro h
      cases r with
      | ok ts => cases htokens.symm.trans h
      | error p =>
        cases htokens.symm.trans h
        exact ⟨rfl, hr⟩
    · intro h
      rw [h.2.tokens, openComment_of_message h.1]
      rfl
  · constructor
    · intro ⟨ts, h⟩ p hp
      cases h.symm.trans hp.tokens
    · intro h
      cases r with
      | ok ts => exact ⟨ts, htokens⟩
      | error p => exact absurd hr (h p)

end Text

end DrawingBugs
