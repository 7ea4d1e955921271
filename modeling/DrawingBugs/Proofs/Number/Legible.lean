import DrawingBugs.Number.Layout
import DrawingBugs.Number.Reading
import Mathlib.Data.List.TakeDrop

/-!
# Numbers read back

Digits with a fraction and an exponent, either of which may be missing, stand for a number. Every
layout writes numbers in this way.
-/

namespace DrawingBugs.Number

/-- There are digits, and nothing else. -/
def Digits (cs : List Char) : Prop := cs ≠ [] ∧ ∀ c ∈ cs, c.isDigit

/-- Nothing, or an exponent. -/
def Exponent (cs : List Char) : Prop :=
  cs = [] ∨ ∃ sign digits, cs = 'e' :: (sign ++ digits) ∧ sign ∈ [[], ['-'], ['+']] ∧ Digits digits

theorem not_isDigit_of_isAlpha {c : Char} (h : c.isAlpha) : ¬ c.isDigit := by
  have hletter : 'A'.toNat ≤ c.toNat := by
    obtain hupper | hlower := (Bool.or_eq_true _ _).mp h
    · exact UInt32.le_iff_toNat_le.mp (of_decide_eq_true hupper).1
    · have hle : 'a'.toNat ≤ c.toNat :=
        UInt32.le_iff_toNat_le.mp (of_decide_eq_true ((Bool.and_eq_true _ _).mp hlower).1)
      exact Nat.le_trans (by decide) hle
  intro hdigit
  have hle : 'A'.toNat ≤ '9'.toNat := Nat.le_trans hletter (Char.isDigit_iff_toNat.mp hdigit).2
  exact absurd hle (by decide)

private theorem digits_decimalDigits (n : Nat) : Digits (decimalDigits n) :=
  ⟨Nat.toDigits_ne_nil, fun _ hc => Nat.isDigit_of_mem_toDigits (by decide) (by decide) hc⟩

private theorem Digits.append {ds es : List Char} (hds : Digits ds) (hes : ∀ c ∈ es, c.isDigit) :
    Digits (ds ++ es) := by
  refine ⟨List.append_ne_nil_of_left_ne_nil hds.1 es, fun c hc => ?_⟩
  rcases List.mem_append.mp hc with hc | hc
  · exact hds.2 c hc
  · exact hes c hc

theorem Digits.head {ds : List Char} (h : Digits ds) (rest : List Char) :
    ∃ c tail, ds ++ rest = c :: tail ∧ c.isDigit := by
  obtain ⟨c, tail, rfl⟩ := List.exists_cons_of_ne_nil h.1
  exact ⟨c, tail ++ rest, rfl, h.2 c List.mem_cons_self⟩

theorem span_digits {ds rest : List Char} (hds : ∀ c ∈ ds, c.isDigit)
    (hrest : ∀ c ∈ rest.head?, ¬ c.isDigit) : (ds ++ rest).span Char.isDigit = (ds, rest) := by
  rw [List.span_eq_takeWhile_dropWhile, List.takeWhile_append_of_pos hds,
    List.dropWhile_append_of_pos hds]
  cases rest with
  | nil => simp
  | cons c rest =>
    have hc : ¬ c.isDigit := hrest c rfl
    rw [List.takeWhile_cons_of_neg hc, List.dropWhile_cons_of_neg hc, List.append_nil]

theorem Digits.span {ds : List Char} (h : Digits ds) : ds.span Char.isDigit = (ds, []) := by
  have hspan : (ds ++ []).span Char.isDigit = (ds, []) := span_digits h.2 (by simp)
  rwa [List.append_nil] at hspan

theorem takeSign_of_digit {c : Char} (hc : c.isDigit) (cs : List Char) :
    takeSign (c :: cs) = (false, c :: cs) := by
  rw [takeSign]
  · rintro rest ⟨⟩
    exact absurd hc (by decide)
  · rintro rest ⟨⟩
    exact absurd hc (by decide)

private theorem Exponent.head {cs : List Char} (h : Exponent cs) : ∀ c ∈ cs.head?, ¬ c.isDigit := by
  obtain rfl | ⟨sign, digits, rfl, -, -⟩ := h
  · simp
  · simp

private theorem Exponent.readExponent? {cs : List Char} (h : Exponent cs) :
    (Number.readExponent? cs).isSome := by
  obtain rfl | ⟨sign, digits, rfl, hsign, hne, hdigits⟩ := h
  · rfl
  · have hsplit : (takeSign (sign ++ digits)).2 = digits := by
      simp only [List.mem_cons, List.not_mem_nil, or_false] at hsign
      obtain rfl | rfl | rfl := hsign
      · obtain ⟨d, ds, rfl⟩ := List.exists_cons_of_ne_nil hne
        rw [List.nil_append, takeSign_of_digit (hdigits d List.mem_cons_self)]
      · rfl
      · rfl
    have hall : digits.all Char.isDigit := List.all_eq_true.mpr hdigits
    simp [Number.readExponent?, hsplit, hne, hall]

/-- A fraction, if any, before an exponent, if any. -/
inductive Tail : List Char → Prop
  | bare {exponent : List Char} (h : Exponent exponent) : Tail exponent
  | point {fraction exponent : List Char} (hfraction : ∀ c ∈ fraction, c.isDigit)
    (h : Exponent exponent) : Tail ('.' :: (fraction ++ exponent))

private theorem digits_zero :
    Digits ['0'] := ⟨List.cons_ne_nil _ _, List.forall_mem_singleton.mpr rfl⟩

private theorem tail_zero : Tail ['.', '0'] := .point digits_zero.2 (.inl rfl)

private theorem Tail.head {cs : List Char} (h : Tail cs) : ∀ c ∈ cs.head?, ¬ c.isDigit := by
  cases h with
  | bare h => exact h.head
  | point => simp

private theorem Tail.readExponent? {cs : List Char} (h : Tail cs) :
    (Number.readExponent? (takeFraction cs).2).isSome := by
  cases h with
  | bare h =>
    have hbare : takeFraction cs = ([], cs) := by
      obtain rfl | ⟨sign, digits, rfl, -, -⟩ := h <;> rfl
    rw [hbare]
    exact h.readExponent?
  | point hfraction h =>
    rw [takeFraction, span_digits hfraction h.head]
    exact h.readExponent?

/-- Digits with a tail. -/
def Written (cs : List Char) : Prop := ∃ digits tail, cs = digits ++ tail ∧ Digits digits ∧ Tail tail

theorem Written.head {cs : List Char} (h : Written cs) : ∃ c tail, cs = c :: tail ∧ c.isDigit := by
  obtain ⟨digits, tail, rfl, hdigits, -⟩ := h
  exact hdigits.head tail

private theorem Written.readNumeral? {cs : List Char} (h : Written cs) :
    (Number.readNumeral? cs).isSome := by
  obtain ⟨digits, tail, rfl, ⟨hne, hdigits⟩, htail⟩ := h
  simp only [Number.readNumeral?, span_digits hdigits htail.head, hne, false_and, if_false,
    Option.isSome_map]
  exact htail.readExponent?

private theorem Written.readMagnitude? {cs : List Char} (h : Written cs) :
    (Number.readMagnitude? cs).isSome := by
  simp only [Number.readMagnitude?]
  split
  · rfl
  split
  · rfl
  · rw [Option.isSome_map]
    exact h.readNumeral?

private theorem Written.takeSign {cs : List Char} (h : Written cs) :
    Number.takeSign cs = (false, cs) := by
  obtain ⟨c, tail, rfl, hc⟩ := h.head
  exact takeSign_of_digit hc tail

/-- What is written is a number, under a minus sign as well. -/
theorem Written.readChars? {cs : List Char} (h : Written cs) (negative : Bool) :
    (Number.readChars? (Layout.signed negative cs)).isSome := by
  have hsign : Number.takeSign (Layout.signed negative cs) = (negative, cs) := by
    cases negative
    · exact h.takeSign
    · rfl
  simp only [Number.readChars?, hsign, Option.isSome_map]
  exact h.readMagnitude?

theorem readChars?_singleton {c : Char} (hc : ¬ c.isDigit) : readChars? [c] = none := by
  have hspan : ([] ++ [c]).span Char.isDigit = ([], [c]) := span_digits (by simp) (by simpa using hc)
  have hfraction : (takeFraction [c]).1 = [] := by
    simp only [takeFraction]
    split
    · next h =>
      cases h
      rfl
    · rfl
  have hword {word : List Char} (hlength : word.length ≠ 1) : [c].map Char.toLower ≠ word := by
    rintro rfl
    exact hlength rfl
  rw [List.nil_append] at hspan
  have hmagnitude : readMagnitude? [c] = none := by
    simp only [readMagnitude?, readNumeral?, hspan, hfraction, and_self, if_true]
    rw [if_neg (not_or.mpr ⟨hword (by decide), hword (by decide)⟩), if_neg (hword (by decide))]
    rfl
  have hsign : (takeSign [c]).2 = [] ∨ (takeSign [c]).2 = [c] := by
    simp only [takeSign]
    split
    · next h => exact .inl (List.cons.inj h).2.symm
    · next h => exact .inl (List.cons.inj h).2.symm
    · exact .inr rfl
  simp only [readChars?, Option.map_eq_none_iff]
  obtain hnothing | hall := hsign
  · rw [hnothing]
    decide
  · rw [hall]
    exact hmagnitude

private theorem written_positional {digits : List Char} (h : Digits digits) (exponent : Int) :
    Written (positional digits exponent) := by
  simp only [positional]
  split
  · refine ⟨digits ++ List.replicate exponent.toNat '0', ['.', '0'], rfl, h.append ?_, ?_⟩
    · intro c hc
      rw [List.eq_of_mem_replicate hc]
      rfl
    · exact tail_zero
  split
  · next hleading =>
    refine ⟨_, _, rfl, ⟨?_, fun c hc => h.2 c (List.mem_of_mem_take hc)⟩, ?_⟩
    · have hpos : 0 < (exponent + digits.length).toNat := by omega
      exact fun hnil => (List.take_eq_nil_iff.mp hnil).elim (Nat.ne_of_gt hpos) h.1
    · rw [← List.append_nil (digits.drop _)]
      exact .point (fun c hc => h.2 c (List.mem_of_mem_drop hc)) (.inl rfl)
  · refine ⟨['0'], _, rfl, digits_zero, ?_⟩
    rw [← List.append_nil (List.replicate _ '0' ++ digits)]
    refine .point (fun c hc => ?_) (.inl rfl)
    rcases List.mem_append.mp hc with hc | hc
    · rw [List.eq_of_mem_replicate hc]
      rfl
    · exact h.2 c hc

private theorem exponent_scientific (plusSign : Bool) (leading : Int) :
    Exponent ('e' :: ((if leading < 0 then ['-'] else if plusSign then ['+'] else []) ++
      decimalDigits leading.natAbs)) := by
  refine .inr ⟨_, _, rfl, ?_, digits_decimalDigits leading.natAbs⟩
  split
  · simp
  · split <;> simp

private theorem written_scientific {digits : List Char} (h : Digits digits) (plusSign : Bool)
    (exponent : Int) : Written (scientific plusSign digits exponent) := by
  obtain ⟨hne, hdigits⟩ := h
  obtain ⟨d, ds, rfl⟩ := List.exists_cons_of_ne_nil hne
  have hd : Digits [d] := ⟨List.cons_ne_nil d [], fun c hc => hdigits c (by simp_all)⟩
  have hexponent := exponent_scientific plusSign (exponent + (d :: ds).length - 1)
  simp only [scientific]
  cases ds with
  | nil => exact ⟨[d], _, by simp, hd, .bare hexponent⟩
  | cons e es =>
    exact ⟨[d], _, by simp, hd,
      .point (fun c hc => hdigits c (List.mem_cons_of_mem d hc)) hexponent⟩

/-- Every layout writes a finite number in digits, under a minus sign if it is negative. -/
theorem Layout.exists_written (layout : Layout) {v : Float} (hv : isFinite v = true) :
    ∃ negative cs, layout.chars v = signed negative cs ∧ Written cs := by
  rw [isFinite] at hv
  simp only [Layout.chars]
  split
  · next h => simp [h, Binary64.isFinite] at hv
  · next h => simp [h, Binary64.isFinite] at hv
  · next negative mantissa exponent _ =>
    split
    · exact ⟨negative, _, rfl, ['0'], ['.', '0'], rfl, digits_zero, tail_zero⟩
    · refine ⟨negative, _, rfl, ?_⟩
      simp only [Layout.decimal]
      split
      · exact written_positional (digits_decimalDigits _) _
      · exact written_scientific (digits_decimalDigits _) _ _

private theorem Layout.readChars?_chars (layout : Layout) (v : Float) :
    (Number.readChars? (layout.chars v)).isSome := by
  by_cases hv : isFinite v = true
  · obtain ⟨negative, cs, hchars, hwritten⟩ := layout.exists_written hv
    rw [hchars]
    exact hwritten.readChars? negative
  · rw [isFinite] at hv
    simp only [Layout.chars]
    split
    · rfl
    · next negative _ => cases negative <;> rfl
    · next h => simp [h, Binary64.isFinite] at hv

theorem read?_text (v : Float) : (read? (text v)).isSome := by
  simp only [read?, text, Layout.render, String.toList_ofList]
  exact Layout.readChars?_chars reportLayout v

end DrawingBugs.Number
