import DrawingBugs.Proofs.Grammar.Splitting
import DrawingBugs.Proofs.Grammar.Unread
import DrawingBugs.Proofs.Number.Decimals

/-!
# Kinds from texts

The scanner finds the kind of a token from the first character it reads, `Token.ofText` from the
finished text. Both find the same one, except for the numerals that are read as infinity: the text
of infinity is a word.
-/

namespace DrawingBugs

private theorem isKeyword_eq_false {text : String} (h : ∀ c ∈ text.toList.head?, ¬ c.isAlpha) :
    isKeyword text = false := by
  have hwords : ∀ word ∈ keywords, word.toList.head?.any Char.isAlpha := by decide +kernel
  rw [isKeyword, Bool.eq_false_iff]
  intro hmem
  obtain ⟨c, hc, halpha⟩ := (Option.any_eq_true _ _).mp (hwords text (List.contains_iff_mem.mp hmem))
  exact h c hc halpha

namespace Token

variable {text : String} {c : Char} {cs : List Char}

private theorem ne_lineEnd (htext : text.toList = c :: cs) (hc : c ≠ '\n') : text ≠ "\n" := by
  rintro rfl
  exact hc (List.cons.inj htext).1.symm

private theorem classify_word (htext : text.toList = c :: cs) (hc : c.isAlpha) (p : Position) :
    classify text = (word text p).kind := by
  have hline : text ≠ "\n" := ne_lineEnd htext fun h => absurd (h ▸ hc) (by decide)
  have hhead : text.toList.head?.any Char.isAlpha = true := by
    rw [htext]
    exact hc
  simp only [classify, word, if_neg hline, if_pos hhead]

private theorem classify_other (htext : text.toList = c :: cs) (hc : c ≠ '\n' ∧ ¬ c.isAlpha) :
    classify text = if (Number.readChars? (c :: cs)).isSome then .number else .symbol := by
  have hword : isKeyword text = false := isKeyword_eq_false (by simpa [htext] using hc.2)
  have hline : text ≠ "\n" := ne_lineEnd htext hc.1
  have hhead : (c :: cs).head?.any Char.isAlpha = false := by simpa using hc.2
  simp only [classify, hword, Number.read?, htext, hhead, if_neg hline, Bool.false_eq_true, if_false]

private theorem classify_symbol {c : Char} (hc : c ≠ '\n' ∧ ¬ c.isAlpha ∧ ¬ c.isDigit) :
    classify (String.singleton c) = .symbol := by
  rw [classify_other (String.toList_singleton c) ⟨hc.1, hc.2.1⟩,
    Number.readChars?_singleton hc.2.2]
  rfl

private theorem classify_number {v : Float} (hv : Number.isFinite v = true) :
    classify (Number.text v) = .number := by
  obtain ⟨negative, cs, hchars, hwritten⟩ := Number.reportLayout.exists_written hv
  obtain ⟨c, tail, hhead, hc⟩ : ∃ c tail, (Number.text v).toList = c :: tail ∧
      c ≠ '\n' ∧ ¬ c.isAlpha := by
    rw [Number.text, Number.Layout.render, String.toList_ofList, hchars]
    cases negative with
    | true => exact ⟨'-', cs, rfl, by decide⟩
    | false =>
      obtain ⟨c, tail, rfl, hc⟩ := hwritten.head
      exact ⟨c, tail, rfl, fun h => absurd (h ▸ hc) (by decide),
        fun h => Number.not_isDigit_of_isAlpha h hc⟩
  have hread := Number.read?_text v
  rw [Number.read?, hhead] at hread
  rw [classify_other hhead hc, if_pos hread]

private theorem classify_infinity {v : Float} (hv : Number.Binary64.ofFloat v = .infinite false) :
    Number.text v = "inf" ∧ classify (Number.text v) = .name := by
  have htext : Number.text v = "inf" := by
    rw [Number.text, Number.Layout.render, Number.Layout.chars, hv]
    rfl
  exact ⟨htext, by rw [htext]; decide +kernel⟩

end Token

namespace Text

private theorem Numeral.standsFor {cs rest : List Char} (h : Numeral cs rest) :
    ∃ q, Number.StandsFor cs q := by
  obtain hdigits | ⟨whole, fraction, rfl, hwhole, hfraction⟩ := h
  · exact ⟨_, .whole hdigits⟩
  · exact ⟨_, .point hwhole hfraction⟩

end Text

namespace Cursor

/-- The token of a numeral is a number by its text as long as the numeral is in range. -/
private theorem numberToken_classified {numeral : List Char} {q : ℚ}
    (h : Number.StandsFor numeral q)
    (p : Position) : ∃ text, numberToken numeral p = .ok ⟨.number, text, p⟩ ∧
      ((q < 2 ^ 1024 - 2 ^ 970 ∧ Token.classify text = .number) ∨
        (2 ^ 1024 - 2 ^ 970 ≤ q ∧ text = "inf" ∧ Token.classify text = .name)) := by
  obtain ⟨v, hv, hrange⟩ := h.readChars?
  refine ⟨Number.text v, by rw [numberToken, hv], ?_⟩
  exact hrange.imp (And.imp_right Token.classify_number) (And.imp_right Token.classify_infinity)

/-- The kind of a token that is read from a text is the one its own text has, unless it is a numeral
that is out of range. -/
private theorem lexeme_classified {p : Position} {cs : List Char} {t : Token} {cursor : Cursor}
    (h : lexeme p cs = (.ok t, cursor)) (ht : t.kind ≠ .endOfInput) :
    (t.kind ≠ .number ∧ Token.classify t.text = t.kind) ∨
      (t.kind = .number ∧ ∃ numeral rest q, cs = numeral ++ rest ∧
        Text.Longest Text.Numeral numeral rest ∧ Number.StandsFor numeral q ∧
        ((q < 2 ^ 1024 - 2 ^ 970 ∧ Token.classify t.text = .number) ∨
          (2 ^ 1024 - 2 ^ 970 ≤ q ∧ t.text = "inf" ∧ Token.classify t.text = .name))) := by
  cases cs with
  | nil =>
    cases h
    exact absurd rfl ht
  | cons c cs =>
    simp only [lexeme] at h
    split at h
    · cases h
      have hclass : Token.classify "\n" = .endOfLine := by decide +kernel
      exact .inl ⟨Kind.noConfusion, hclass⟩
    next hline =>
    split at h
    · next hdigit =>
      have hlongest := Text.longest_numeral cs hdigit
      obtain ⟨q, hq⟩ := hlongest.1.standsFor
      obtain ⟨text, htoken, hrange⟩ := numberToken_classified hq p
      rw [htoken] at h
      cases h
      exact .inr ⟨rfl, _, _, q, (splitNumber_append (c :: cs)).symm, hlongest, hq, hrange⟩
    next hdigit =>
    split at h
    · next halpha =>
      obtain ⟨d, tail, hword, hd, -⟩ := (Text.longest_word cs halpha).1
      rw [List.span_eq_takeWhile_dropWhile, hword] at h
      cases h
      refine .inl ⟨?_, Token.classify_word String.toList_ofList hd p⟩
      simp only [Token.word]
      split <;> decide
    · next halpha =>
      cases h
      exact .inl ⟨Kind.noConfusion, Token.classify_symbol ⟨hline, halpha, hdigit⟩⟩

end Cursor

namespace Scanner

variable {text rest : List Char} {s s' : Scanner} {t : Token}

private theorem Ahead.exists_lexeme (h : Ahead text s rest) (hnext : s.next = (.ok t, s')) :
    ∃ rest', Cursor.In text ⟨t.position, rest'⟩ ∧
      Cursor.lexeme t.position rest' = (.ok t, s'.cursor) := by
  cases h with
  | cursor hpending hin =>
    cases hscan : s.cursor.scan with
    | mk r cursor =>
      simp only [Scanner.next, hpending, hscan] at hnext
      cases hnext
      obtain ⟨-, ⟨t', rest', ht', hstart, -, hlexeme⟩ | ⟨⟨e, he⟩, -⟩⟩ := Cursor.scan_cases hin hscan
      · cases ht'
        exact ⟨rest', hstart, hlexeme⟩
      · cases he
  | pending hpending hstart hlexeme =>
    simp only [Scanner.next, hpending] at hnext
    cases hnext
    exact ⟨_, hstart, hlexeme⟩

private theorem next_eq_ok (h : s.next.1.toOption = some t) : s.next = (.ok t, s.next.2) := by
  cases hresult : s.next.1 with
  | ok u =>
    rw [hresult] at h
    cases h
    rw [← hresult]
  | error e =>
    rw [hresult] at h
    cases h

/-- **Classification.** The token of a text has the kind that the scanner gives it, with one
exception: a numeral is read as infinity from the middle on between the largest double and the first
power of two out of range, and the text of infinity is a name. -/
theorem classified_as_read {source : String} (hs : (ofSource source).Leads s)
    (hnext : s.next = (.ok t, s')) (ht : t.kind ≠ .endOfInput) :
    (t.kind ≠ .number → (Token.ofText t.text).agrees t) ∧
      (t.kind = .number → ∃ before numeral rest q,
        source.toList = before ++ (numeral ++ rest) ∧ t.position = .behind before ∧
        Text.Longest Text.Numeral numeral rest ∧ Number.StandsFor numeral q ∧
        ((Token.ofText t.text).agrees t ↔ q < 2 ^ 1024 - 2 ^ 970) ∧
        (2 ^ 1024 - 2 ^ 970 ≤ q → t.text = "inf" ∧ (Token.ofText t.text).kind = .name)) := by
  have hagrees : (Token.ofText t.text).agrees t ↔ Token.classify t.text = t.kind := by
    simp [Token.agrees, Token.ofText]
  obtain ⟨rest, hahead, -⟩ := hs.ahead (ahead_ofSource source)
  obtain ⟨rest', ⟨before, hsource, hposition⟩, hlexeme⟩ := hahead.exists_lexeme hnext
  obtain ⟨hkind, hclass⟩ | ⟨hkind, numeral, rest, q, hsplit, hlongest, hq, hrange⟩ :=
    Cursor.lexeme_classified hlexeme ht
  · exact ⟨fun _ => hagrees.mpr hclass, fun h => absurd h hkind⟩
  · refine ⟨fun h => absurd hkind h, fun _ => ⟨before, numeral, rest, q, ?_, ?_, hlongest, hq, ?_, ?_⟩⟩
    · rw [hsource, hsplit]
    · rw [← Position.past_first]
      exact hposition
    · rw [hagrees, hkind]
      obtain ⟨hless, hclass⟩ | ⟨hle, -, hclass⟩ := hrange
      · exact iff_of_true hclass hless
      · exact iff_of_false (by simp [hclass]) (not_lt.mpr hle)
    · intro hle
      obtain ⟨hless, -⟩ | ⟨-, hinfinity⟩ := hrange
      · exact absurd hless (not_lt.mpr hle)
      · exact hinfinity

/-- A number of eighteen digits is written with an exponent, and is a number by this text too. -/
theorem classified_as_read_exponent :
    ∃ s s', (ofSource "move 100000000000000000\n").Leads s ∧
      s.next = (.ok ⟨.number, "1e17", ⟨1, 6⟩⟩, s') ∧
      (Token.ofText "1e17").agrees ⟨.number, "1e17", ⟨1, 6⟩⟩ := by
  have hnext := next_eq_ok (s := (ofSource "move 100000000000000000\n").next.2)
    (t := ⟨.number, "1e17", ⟨1, 6⟩⟩) (by decide +kernel)
  obtain ⟨-, hnumber⟩ := classified_as_read Leads.refl.next hnext (by decide)
  obtain ⟨-, -, -, q, -, -, -, -, hiff, hinfinity⟩ := hnumber rfl
  refine ⟨_, _, Leads.refl.next, hnext, hiff.mpr (lt_of_not_ge fun hle => ?_)⟩
  exact absurd (hinfinity hle).1 (by decide)

/-- A one and 309 zeros are read as a number whose text is a name. -/
theorem infinity_not_classified :
    ∃ s', (ofSource (String.ofList ('1' :: List.replicate 309 '0'))).next =
        (.ok ⟨.number, "inf", .first⟩, s') ∧
      ¬ (Token.ofText "inf").agrees ⟨.number, "inf", .first⟩ := by
  rw [ofSource, String.toList_ofList]
  exact ⟨_, next_eq_ok (by decide +kernel), by decide +kernel⟩

end Scanner

end DrawingBugs
