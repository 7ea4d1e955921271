import DrawingBugs.Machine.Expression
import DrawingBugs.Proofs.Number.Units

/-!
# Comparison operators

Two numbers are compared by where their difference lies, and an operator reads the difference in
the one order or in the other. Read as an integer the difference is the same up to its sign, so that
each operator is an interval. The intervals of `<`, `=` and `>` meet nowhere and leave nothing out,
but `<=` and `>=` leave out a point of the band that `=` takes in.
-/

namespace DrawingBugs

namespace Number.Comparator

/-- The differences between which a comparator holds, for a band of this width on either side. -/
def Allows (width difference : Int) : Comparator → Prop
  | less => difference < -width
  | atMost => difference < width
  | equal => -width ≤ difference ∧ difference ≤ width
  | unequal => difference < -width ∨ width < difference
  | greater => width < difference
  | atLeast => -width < difference

private theorem isNaN_tolerance : tolerance.isNaN = false := by decide +kernel

private theorem units_tolerance_pos : 0 < units tolerance := by decide +kernel

variable {a b : Float}

private theorem holds_iff_allows (h : (a - b).isNaN = false) (c : Comparator) :
    c.holds tolerance a b = true ↔ c.Allows (units tolerance) (units (a - b)) := by
  have hback : (b - a).isNaN = false := (isNaN_sub_comm a b).trans h
  have hband : (-tolerance).isNaN = false := (isNaN_neg tolerance).trans isNaN_tolerance
  have hunits : units (b - a) = -units (a - b) := units_sub_comm a b
  cases c <;>
    simp only [holds, exceeds, Allows, Bool.decide_or, Bool.not_or, Bool.or_eq_true,
      Bool.and_eq_true, Bool.not_eq_true', decide_eq_true_eq, decide_eq_false_iff_not,
      lt_iff_units isNaN_tolerance h, lt_iff_units isNaN_tolerance hback, lt_iff_units hband h,
      lt_iff_units hband hback, lt_iff_units h hband, units_neg, hunits] <;>
    omega

end Number.Comparator

open Number Number.Comparator

/-- The operator has the value that stands for truth. -/
def Compares (operator : String) (a b : Float) : Prop := binaryValue operator a b = .ok 1.0

variable {a b : Float}

private theorem binaryValue_of_ofSymbol? {operator : String} {c : Comparator}
    (h : ofSymbol? operator = some c) (a b : Float) :
    binaryValue operator a b = .ok (ofBool (c.holds tolerance a b)) := by
  unfold binaryValue
  split
  case h_5 => rw [h]
  all_goals simp [ofSymbol?] at h

private theorem compares_iff {operator : String} {c : Comparator} (h : ofSymbol? operator = some c)
    (hnumber : (a - b).isNaN = false) :
    Compares operator a b ↔ c.Allows (units tolerance) (units (a - b)) := by
  rw [← holds_iff_allows hnumber, Compares, binaryValue_of_ofSymbol? h, Except.ok.injEq]
  cases c.holds tolerance a b
  · exact ⟨fun heq => absurd heq (by decide +kernel), nofun⟩
  · exact ⟨fun _ => rfl, fun _ => rfl⟩

/-- **Comparisons.** Between two numbers whose difference is a number every operator is true or
false, exactly one of `<`, `=` and `>` is true, and `!=` is the negation of `=`. At most and at least
are what they say, and the negations of more and of less, except where the difference is the
tolerance itself: there `=` is true, and `<=` or `>=` is not. -/
theorem comparisons_agree (h : (a - b).isNaN = false) :
    (∀ operator ∈ ["<", "<=", "=", "!=", ">", ">="],
      binaryValue operator a b = .ok 1.0 ∨ binaryValue operator a b = .ok 0.0) ∧
    ((Compares "<" a b ∨ Compares "=" a b ∨ Compares ">" a b) ∧
      ¬ (Compares "<" a b ∧ Compares "=" a b) ∧ ¬ (Compares "=" a b ∧ Compares ">" a b) ∧
      ¬ (Compares "<" a b ∧ Compares ">" a b)) ∧
    (Compares "!=" a b ↔ ¬ Compares "=" a b) ∧
    (Compares "<=" a b ↔ (Compares "<" a b ∨ Compares "=" a b) ∧ ¬ (a - b == tolerance)) ∧
    (Compares "<=" a b ↔ ¬ Compares ">" a b ∧ ¬ (a - b == tolerance)) ∧
    (Compares ">=" a b ↔ (Compares ">" a b ∨ Compares "=" a b) ∧ ¬ (b - a == tolerance)) ∧
    (Compares ">=" a b ↔ ¬ Compares "<" a b ∧ ¬ (b - a == tolerance)) := by
  have hpos := units_tolerance_pos
  have hback : (b - a).isNaN = false := (isNaN_sub_comm a b).trans h
  have hless := compares_iff (rfl : ofSymbol? "<" = some .less) h
  have hatMost := compares_iff (rfl : ofSymbol? "<=" = some .atMost) h
  have hequal := compares_iff (rfl : ofSymbol? "=" = some .equal) h
  have hunequal := compares_iff (rfl : ofSymbol? "!=" = some .unequal) h
  have hgreater := compares_iff (rfl : ofSymbol? ">" = some .greater) h
  have hatLeast := compares_iff (rfl : ofSymbol? ">=" = some .atLeast) h
  refine ⟨fun operator hmem => ?_, ?_⟩
  · obtain ⟨c, hc⟩ : ∃ c, ofSymbol? operator = some c := by
      simp only [List.mem_cons, List.not_mem_nil, or_false] at hmem
      obtain rfl | rfl | rfl | rfl | rfl | rfl := hmem <;> exact ⟨_, rfl⟩
    rw [binaryValue_of_ofSymbol? hc]
    cases c.holds tolerance a b
    · exact .inr rfl
    · exact .inl rfl
  · rw [beq_iff_units h isNaN_tolerance, beq_iff_units hback isNaN_tolerance, units_sub_comm a b,
      hless, hatMost, hequal, hunequal, hgreater, hatLeast]
    simp only [Allows]
    omega

/-- Numbers whose difference lies within the band are equal, and neither is more than the other. -/
theorem comparisons_agree_within :
    (5.0005 - 5.0 : Float).isNaN = false ∧ Compares "=" 5.0005 5.0 ∧ ¬ Compares "<" 5.0005 5.0 ∧
      ¬ Compares ">" 5.0005 5.0 ∧ ¬ Compares "!=" 5.0005 5.0 ∧ Compares "<=" 5.0005 5.0 ∧
      Compares ">=" 5.0005 5.0 := by
  have hnumber : (5.0005 - 5.0 : Float).isNaN = false := by decide +kernel
  have hequal : Compares "=" 5.0005 5.0 := (binaryValue_of_ofSymbol? (c := .equal) rfl _ _).trans
    (congrArg Except.ok (by decide +kernel))
  obtain ⟨-, ⟨-, hless, hgreater, -⟩, hunequal, hatMost, -, hatLeast, -⟩ :=
    comparisons_agree hnumber
  exact ⟨hnumber, hequal, fun h => hless ⟨h, hequal⟩, fun h => hgreater ⟨hequal, h⟩,
    fun h => hunequal.mp h hequal, hatMost.mpr ⟨.inr hequal, by decide +kernel⟩,
    hatLeast.mpr ⟨.inr hequal, by decide +kernel⟩⟩

/-- One thousandth and zero are equal, and neither is more than the other, but the one is not at most
the other. -/
theorem not_atMost_at_tolerance :
    ((0.001 : Float) - 0.0).isNaN = false ∧ ¬ Compares "<=" 0.001 0.0 ∧
      ¬ (Compares "<=" 0.001 0.0 ↔ (Compares "<" 0.001 0.0 ∨ Compares "=" 0.001 0.0)) ∧
      ¬ (Compares "<=" 0.001 0.0 ↔ ¬ Compares ">" 0.001 0.0) := by
  have hvalue : ∀ {operator c v}, ofSymbol? operator = some c →
      ofBool (c.holds tolerance 0.001 0.0) = v → binaryValue operator 0.001 0.0 = .ok v :=
    fun hc hv => (binaryValue_of_ofSymbol? hc _ _).trans (congrArg Except.ok hv)
  have hne : (Except.ok 0.0 : Except Fault Float) ≠ .ok 1.0 :=
    fun h => absurd (Except.ok.inj h) (by decide +kernel)
  have hatMost : ¬ Compares "<=" 0.001 0.0 := by
    rw [Compares, hvalue (c := .atMost) (v := 0.0) rfl (by decide +kernel)]
    exact hne
  have hgreater : ¬ Compares ">" 0.001 0.0 := by
    rw [Compares, hvalue (c := .greater) (v := 0.0) rfl (by decide +kernel)]
    exact hne
  have hequal : Compares "=" 0.001 0.0 := hvalue (c := .equal) rfl (by decide +kernel)
  exact ⟨by decide +kernel, hatMost, fun h => hatMost (h.mpr (.inr hequal)),
    fun h => hatMost (h.mpr hgreater)⟩

end DrawingBugs
