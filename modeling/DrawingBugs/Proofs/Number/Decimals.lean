import DrawingBugs.Proofs.Number.Legible
import DrawingBugs.Proofs.Number.Rounding

/-!
# Decimals read as doubles

A decimal is read as the nearest double. Short ones are a product or a quotient of two doubles that
are exact, all others a quotient of integers; either way there is one rounding. From the middle
between the largest double and the first power of two out of range on, a decimal is read as infinity.
-/

namespace DrawingBugs.Number

open Float.Model (UnpackedFloat Format totalExponent)
open Float.Model.UnpackedFloat (Sign divCore accuracyOfFraction)

namespace Binary64

/-- How often the least positive double goes into one. -/
def one : Nat := magnitude 1 0

/-- Half the distance between the largest double and the first power of two out of range. -/
def lastHalfStep : Nat := magnitude 1 970

private theorem magnitude_natCast (m k : Nat) : magnitude m k = m * 2 ^ k * one := by
  have hsplit : raise 2 (k - leastExponent) = 2 ^ k * raise 2 (0 - leastExponent) := by
    have h := raise_add 2 (Int.natCast_nonneg k) (show 0 ≤ 0 - leastExponent by decide)
    rw [raise_eq_pow 2 k, Int.toNat_natCast] at h
    rw [← h]
    congr 1
  rw [one, magnitude, magnitude, hsplit, Nat.one_mul, Nat.mul_assoc]

private theorem one_pos : 0 < one := magnitude_pos (by decide)

private theorem magnitude_natural (n : Nat) : magnitude n 0 = n * one := by
  rw [one, magnitude, magnitude, Nat.one_mul]

private theorem natural_lt_overflow {n : Nat} (hn : n < 2 * hiddenBit) : n * one < overflow := by
  rw [← magnitude_natural]
  exact magnitude_lt_overflow hn (by decide) (by decide)

private theorem exists_one_eq : ∃ k : Nat, (0 : Int) = leastExponent + k ∧ one = 2 ^ k := by
  obtain ⟨k, hk⟩ := exists_exponent_eq (e := 0) (by decide)
  exact ⟨k, hk, by rw [one, hk, magnitude_eq, Nat.one_mul]⟩

section Operations

variable {m m' : Nat} {e e' : Int}

private theorem stored_mul (hm : 0 < m) (hm' : 0 < m') {k : Nat} (hdigits : 52 ≤ (m * m').log2)
    (he : e + e' = leastExponent + k) :
    (stored (.mul .binary64 (.finite .positive m e hm) (.finite .positive m' e' hm'))).isNaN = false ∧
      (ofUnpacked (stored (.mul .binary64 (.finite .positive m e hm)
        (.finite .positive m' e' hm')))).units = (min (nearest (m * m' * 2 ^ k)) overflow : Nat) := by
  simp only [UnpackedFloat.mul, he]
  exact stored_roundWithAccuracy_exact .positive (.inl hdigits)

private theorem log2_div_le {n d : Nat} (hn : n ≠ 0) (hd : d ≠ 0) (j : Nat)
    (h : d.log2 + 1 + j ≤ n.log2) : j ≤ (n / d).log2 := by
  have hless : d * 2 ^ j ≤ n := by
    calc d * 2 ^ j ≤ 2 ^ (d.log2 + 1) * 2 ^ j := Nat.mul_le_mul_right _ Nat.lt_log2_self.le
      _ = 2 ^ (d.log2 + 1 + j) := (pow_add _ _ _).symm
      _ ≤ 2 ^ n.log2 := Nat.pow_le_pow_right (by decide) h
      _ ≤ n := Nat.log2_self_le hn
  have hquotient : 2 ^ j ≤ n / d := (Nat.le_div_iff_mul_le (Nat.pos_of_ne_zero hd)).mpr
    (Nat.mul_comm d _ ▸ hless)
  exact (Nat.le_log2 (Nat.lt_of_lt_of_le (Nat.two_pow_pos j) hquotient).ne').mpr hquotient

/-- The quotient is taken with at least 53 digits, unless these are behind the last one of the least
double. -/
private theorem divCore_eq (hm : 0 < m) (hm' : 0 < m') {k : Nat} (he : e - e' = leastExponent + k) :
    ∃ j ≤ k, (52 ≤ (m * 2 ^ (k - j) / m').log2 ∨ j = 0) ∧
      divCore .binary64 m e m' e' = (m * 2 ^ (k - j) / m', leastExponent + j,
        accuracyOfFraction (m * 2 ^ (k - j) % m') m') := by
  obtain ⟨j, hj⟩ : ∃ j, min k (m.log2 + k - (m'.log2 + 53)) = j := ⟨_, rfl⟩
  have htarget : min (e - e') (Format.binary64.targetExponent
      (totalExponent m e - totalExponent m' e')) = leastExponent + j := by
    simp only [Format.targetExponent, totalExponent, Format.mantissaBits, Format.minExponent,
      leastExponent] at he ⊢
    omega
  have hshift : (e - e' - (leastExponent + (j : Int))).toNat = k - j := by omega
  refine ⟨j, by omega, ?_, ?_⟩
  · obtain hnone | hsome := Nat.eq_zero_or_pos j
    · exact .inr hnone
    · refine .inl (log2_div_le (Nat.mul_pos hm (Nat.two_pow_pos _)).ne' hm'.ne' 52 ?_)
      rw [log2_mul_pow hm]
      omega
  · simp only [divCore, htarget, hshift, Nat.shiftLeft_eq]

private theorem stored_div (hm : 0 < m) (hm' : 0 < m') {k : Nat} (he : e - e' = leastExponent + k) :
    (stored (.div .binary64 (.finite .positive m e hm) (.finite .positive m' e' hm'))).isNaN = false ∧
      (ofUnpacked (stored (.div .binary64 (.finite .positive m e hm)
        (.finite .positive m' e' hm')))).units = (min (nearestTo (m * 2 ^ k) m') overflow : Nat) := by
  obtain ⟨j, hj, hdigits, hcore⟩ := divCore_eq hm hm' he
  have hvalue : m * 2 ^ (k - j) * 2 ^ j = m * 2 ^ k := by
    rw [Nat.mul_assoc, ← pow_add, Nat.sub_add_cancel hj]
  have hround := stored_roundWithAccuracy .positive hm' hdigits
  rw [hvalue] at hround
  simp only [UnpackedFloat.div, hcore]
  exact hround

end Operations

end Binary64

/-- The double is a number, and this is its value as a multiple of the least positive one. -/
def HasUnits (v : Float) (n : Int) : Prop := v.isNaN = false ∧ units v = n

private theorem hasUnits_iff {v : Float} {u : UnpackedFloat}
    (h : v.toModel.unpack = Binary64.stored u)
    (n : Int) : HasUnits v n ↔ (Binary64.stored u).isNaN = false ∧
      (Binary64.ofUnpacked (Binary64.stored u)).units = n := by
  rw [HasUnits, isNaN_eq, units_eq, h]

/-! ## Exact doubles -/

/-- The double is this natural number, and not zero. -/
structure IsNatural (v : Float) (n : Nat) : Prop where
  pos : 0 < n
  hasUnits : HasUnits v (n * Binary64.one : Nat)
  inRange : n * Binary64.one < Binary64.overflow

private theorem signed_eq_natCast {negative : Bool} {m n : Nat} (hn : 0 < n)
    (h : signed negative m = (n : Int)) : negative = false ∧ m = n := by
  cases negative with
  | false => exact ⟨rfl, Int.ofNat_inj.mp h⟩
  | true =>
    rw [signed_true] at h
    omega

private theorem IsNatural.unpack {v : Float} {n : Nat} (h : IsNatural v n) :
    ∃ (m k : Nat) (hm : 0 < m),
      v.toModel.unpack = .finite .positive m (Binary64.leastExponent + k) hm ∧
      Binary64.hiddenBit ≤ m ∧ 1022 ≤ k ∧ k ≤ 2045 ∧ m * 2 ^ k = n * Binary64.one := by
  obtain ⟨hn, ⟨hnumber, hunits⟩, hless⟩ := h
  have hpos := Nat.mul_pos hn Binary64.one_pos
  have hcanonical := canonical_unpack v
  rw [isNaN_eq] at hnumber
  rw [units_eq] at hunits
  cases hunpack : v.toModel.unpack with
  | notANumber =>
    rw [hunpack] at hnumber
    contradiction
  | infinity s =>
    rw [hunpack] at hunits
    exact absurd (signed_eq_natCast hpos hunits).2 hless.ne'
  | zero s =>
    rw [hunpack] at hunits
    have hzero := (signed_eq_natCast hpos hunits).2
    rw [Binary64.magnitude_zero] at hzero
    exact absurd hzero hpos.ne
  | finite s m e hm =>
    rw [hunpack] at hunits hcanonical
    obtain ⟨hsign, hvalue⟩ := signed_eq_natCast hpos hunits
    obtain ⟨hdigits, he, he', hfilled⟩ := hcanonical
    obtain ⟨k, rfl⟩ := Binary64.exists_exponent_eq he
    obtain ⟨j, hj, hone⟩ := Binary64.exists_one_eq
    rw [Binary64.magnitude_eq] at hvalue
    simp only [Binary64.leastExponent] at hj he'
    have hlarge : 1022 ≤ k := by
      by_contra hsmall
      have htop : m * 2 ^ k < 2 ^ j := by
        calc m * 2 ^ k < 2 ^ 53 * 2 ^ k := Nat.mul_lt_mul_of_pos_right hdigits (Nat.two_pow_pos k)
          _ = 2 ^ (53 + k) := (pow_add _ _ _).symm
          _ ≤ 2 ^ j := Nat.pow_le_pow_right (by decide) (by omega)
      rw [hvalue, hone] at htop
      exact absurd htop (Nat.not_lt.mpr (Nat.le_mul_of_pos_left _ hn))
    cases s with
    | negative => cases hsign
    | positive => exact ⟨m, k, hm, rfl, hfilled.resolve_right (by omega), hlarge, by omega, hvalue⟩

section Naturals

variable {a b : Float} {m d : Nat}

private theorem IsNatural.div (ha : IsNatural a m) (hb : IsNatural b d) :
    HasUnits (a / b) (min (nearestTo (m * Binary64.one) d) Binary64.overflow : Nat) := by
  obtain ⟨p, k, hp, hunpack, -, hlow, -, hvalue⟩ := ha.unpack
  obtain ⟨q, l, hq, hunpack', -, -, hhigh, hvalue'⟩ := hb.unpack
  obtain ⟨j, hj, hone⟩ := Binary64.exists_one_eq
  simp only [Binary64.leastExponent] at hj
  have hdiv : (a / b).toModel.unpack =
      Binary64.stored (.div .binary64 a.toModel.unpack b.toModel.unpack) := rfl
  have hexponent : Binary64.leastExponent + (k : Int) - (Binary64.leastExponent + l) =
      Binary64.leastExponent + (k + j - l : Nat) := by
    simp only [Binary64.leastExponent]
    omega
  have hratio : nearestTo (p * 2 ^ (k + j - l)) q = nearestTo (m * Binary64.one) d := by
    have hnumerator : p * 2 ^ (k + j - l) * 2 ^ l = m * Binary64.one * Binary64.one := by
      rw [Nat.mul_assoc, ← pow_add, Nat.sub_add_cancel (by omega), pow_add, ← Nat.mul_assoc,
        hvalue, hone]
    rw [← nearestTo_mul _ (Nat.two_pow_pos l), hnumerator, hvalue', nearestTo_mul _ Binary64.one_pos]
  rw [hunpack, hunpack'] at hdiv
  rw [hasUnits_iff hdiv, ← hratio]
  exact Binary64.stored_div hp hq hexponent

private theorem IsNatural.mul (ha : IsNatural a m) (hb : IsNatural b d) :
    HasUnits (a * b) (min (nearest (m * d * Binary64.one)) Binary64.overflow : Nat) := by
  obtain ⟨p, k, hp, hunpack, hfilled, hlow, -, hvalue⟩ := ha.unpack
  obtain ⟨q, l, hq, hunpack', -, hlow', -, hvalue'⟩ := hb.unpack
  obtain ⟨j, hj, hone⟩ := Binary64.exists_one_eq
  simp only [Binary64.leastExponent] at hj
  have hmul : (a * b).toModel.unpack =
      Binary64.stored (.mul .binary64 a.toModel.unpack b.toModel.unpack) := rfl
  have hexponent : Binary64.leastExponent + (k : Int) + (Binary64.leastExponent + l) =
      Binary64.leastExponent + (k + l - j : Nat) := by
    simp only [Binary64.leastExponent]
    omega
  have hproduct : p * q * 2 ^ (k + l - j) = m * d * Binary64.one := by
    refine Nat.eq_of_mul_eq_mul_right (Nat.two_pow_pos j) ?_
    rw [Nat.mul_assoc, ← pow_add, Nat.sub_add_cancel (by omega), pow_add, Nat.mul_mul_mul_comm,
      hvalue, hvalue', ← hone]
    ring
  have hdigits : 52 ≤ (p * q).log2 := (Nat.le_log2 (Nat.mul_pos hp hq).ne').mpr
    (hfilled.trans (Nat.le_mul_of_pos_right p hq))
  rw [hunpack, hunpack'] at hmul
  rw [hasUnits_iff hmul, ← hproduct]
  exact Binary64.stored_mul hp hq hdigits hexponent

end Naturals

private theorem unpack_ofNat {n : Nat} (hn : n < 2 ^ 64) : n.toUInt64.toFloat.toModel.unpack =
    Binary64.stored (.normalize .binary64 n 0 .positive) := by
  have h : n.toUInt64.toNat = n := UInt64.toNat_ofNat_of_lt' hn
  have hunpack : n.toUInt64.toFloat.toModel.unpack =
      Binary64.stored (.normalize .binary64 n.toUInt64.toNat 0 .positive) := rfl
  rw [hunpack, h]

private theorem isNatural_ofNat {n : Nat} (hn : 0 < n) (hdigits : n < 2 * Binary64.hiddenBit) :
    IsNatural n.toUInt64.toFloat n := by
  obtain ⟨k, hk, hone⟩ := Binary64.exists_one_eq
  have hsmall := Binary64.natural_lt_overflow hdigits
  have hword : n < 2 ^ 64 := by
    simp only [Binary64.hiddenBit] at hdigits
    omega
  have hvalue : (n * 2 ^ k : Int) = signed false (Binary64.magnitude n 0) := by
    rw [Binary64.magnitude_natural, hone, signed_false]
    push_cast
    rfl
  have hstored := Binary64.stored_normalize n k .positive
  rw [← hk, hvalue, Binary64.rounded_signed, Binary64.nearest_magnitude hdigits (by decide),
    Binary64.magnitude_natural, min_eq_left hsmall.le] at hstored
  exact ⟨hn, (hasUnits_iff (unpack_ofNat hword) _).mpr hstored, hsmall⟩

private theorem isNatural_powerOfTen {k : Nat} (hk : k < 23) :
    IsNatural Float.exactlyRepresentablePowersOfTen[k] (10 ^ k) := by
  have hall : ∀ i (hi : i < 23), Float.exactlyRepresentablePowersOfTen[i].isNaN = false ∧
      units Float.exactlyRepresentablePowersOfTen[i] = (10 ^ i * Binary64.one : Nat) ∧
      10 ^ i * Binary64.one < Binary64.overflow := by
    decide +kernel
  obtain ⟨hnumber, hunits, hless⟩ := hall k hk
  exact ⟨Nat.pow_pos (by decide), ⟨hnumber, hunits⟩, hless⟩

/-! ## Decimals -/

private theorem nearestTo_zero (d : Nat) : nearestTo 0 d = 0 := by
  simp [nearestTo, nearestRatio, excess]

private theorem nearestTo_eq_zero {n d : Nat} (h : 2 * n < d) : nearestTo n d = 0 := by
  have hquotient : n / d = 0 := Nat.div_eq_of_lt (by omega)
  have hrest : n % d = n := Nat.mod_eq_of_lt (by omega)
  simp [nearestTo, nearestRatio, excess, hquotient, hrest, h]

private theorem stored_ofScientific_whole {m : Nat} (hm : 0 < m) :
    (Binary64.stored (.ofScientific .binary64 m 0)).isNaN = false ∧
      (Binary64.ofUnpacked (Binary64.stored (.ofScientific .binary64 m 0))).units =
        (min (nearest (m * Binary64.one)) Binary64.overflow : Nat) := by
  obtain ⟨j, hj, hone⟩ := Binary64.exists_one_eq
  simp only [Binary64.leastExponent] at hj
  have hlong : 0 < m <<< 53 := by
    rw [Nat.shiftLeft_eq]
    exact Nat.mul_pos hm (by decide)
  have hproduct : UnpackedFloat.ofScientific .binary64 m 0 = .mul .binary64
      (.finite .positive (m <<< 53) (-53) hlong) (.finite .positive (10 ^ 0) 0 (by decide)) := by
    have hrange : (2 : Int) ^ Format.binary64.exponentBits = 2048 := rfl
    simp only [UnpackedFloat.ofScientific, dif_neg hm.ne', hrange]
    rw [if_neg (by decide), if_neg (by omega), if_pos (Int.le_refl 0)]
    rfl
  have hexponent : (-53 : Int) + 0 = Binary64.leastExponent + (j - 53 : Nat) := by
    simp only [Binary64.leastExponent]
    omega
  have hdigits : 52 ≤ (m <<< 53 * 10 ^ 0).log2 := by
    rw [Nat.pow_zero, Nat.mul_one, Nat.shiftLeft_eq, log2_mul_pow hm]
    omega
  have hvalue : m <<< 53 * 10 ^ 0 * 2 ^ (j - 53) = m * Binary64.one := by
    rw [Nat.pow_zero, Nat.mul_one, Nat.shiftLeft_eq, Nat.mul_assoc, ← pow_add,
      Nat.add_sub_cancel' (by omega), hone]
  rw [hproduct, ← hvalue]
  exact Binary64.stored_mul hlong (by decide) hdigits hexponent

private theorem stored_ofScientific_fraction {m k : Nat} (hm : 0 < m) (hk : 0 < k) :
    (Binary64.stored (.ofScientific .binary64 m (-k))).isNaN = false ∧
      (Binary64.ofUnpacked (Binary64.stored (.ofScientific .binary64 m (-k)))).units =
        (min (nearestTo (m * Binary64.one) (10 ^ k)) Binary64.overflow : Nat) := by
  obtain ⟨j, hj, hone⟩ := Binary64.exists_one_eq
  have hrange : (2 : Int) ^ Format.binary64.exponentBits = 2048 := rfl
  simp only [UnpackedFloat.ofScientific, dif_neg hm.ne', hrange]
  rw [if_neg (by omega)]
  split
  next hsmall =>
    -- The division is left out where the power of ten is so large that the double is zero.
    have hzero : nearestTo (m * Binary64.one) (10 ^ k) = 0 := by
      refine nearestTo_eq_zero ?_
      simp only [Binary64.leastExponent] at hj
      calc 2 * (m * Binary64.one) < 2 * (2 ^ (m.log2 + 1) * Binary64.one) :=
            Nat.mul_lt_mul_of_pos_left
              (Nat.mul_lt_mul_of_pos_right Nat.lt_log2_self Binary64.one_pos) (by decide)
        _ = 2 ^ (m.log2 + 2 + j) := by
            rw [hone]
            ring
        _ ≤ 2 ^ k := Nat.pow_le_pow_right (by decide) (by omega)
        _ ≤ 10 ^ k := Nat.pow_le_pow_left (by decide) k
    rw [hzero, Binary64.stored_zero]
    exact ⟨rfl, by simp [Binary64.ofUnpacked, Binary64.units, Binary64.magnitude_zero]⟩
  next =>
    rw [if_neg (by omega)]
    have hpower : (-(-(k : Int))).toNat = k := by omega
    simp only [hpower, hone]
    exact Binary64.stored_div hm (Nat.pow_pos (by decide)) hj

/-- A decimal with few digits is made from two exact doubles. -/
private theorem ofScientific_short {m k : Nat} (hm : 0 < m) (h : m < 2 ^ 53 ∧ k ≤ 22) :
    HasUnits (Float.ofScientific m (decide (0 < k)) k)
      (min (nearestTo (m * Binary64.one) (10 ^ k)) Binary64.overflow : Nat) := by
  have hdigits : IsNatural m.toUInt64.toFloat m := isNatural_ofNat hm h.1
  have hpower := isNatural_powerOfTen (Nat.lt_succ_of_le h.2)
  rw [Float.ofScientific, dif_pos h]
  obtain rfl | hk := Nat.eq_zero_or_pos k
  · have hmul := hdigits.mul hpower
    rw [pow_zero, Nat.mul_one] at hmul
    rw [pow_zero, nearestTo_one]
    exact hmul
  · rw [if_pos (decide_eq_true hk)]
    exact hdigits.div hpower

/-- A decimal with many digits is a quotient of integers. -/
private theorem unpack_ofScientific {m k : Nat} (h : ¬ (m < 2 ^ 53 ∧ k ≤ 22)) :
    (Float.ofScientific m (decide (0 < k)) k).toModel.unpack =
      Binary64.stored (.ofScientific .binary64 m (-k)) := by
  have hexponent : (if decide (0 < k) = true then Int.negOfNat k else Int.ofNat k) = -k := by
    obtain rfl | hk := Nat.eq_zero_or_pos k
    · rfl
    · rw [if_pos (decide_eq_true hk), Int.negOfNat_eq]
      rfl
  rw [Float.ofScientific, dif_neg h]
  simp only [hexponent]
  rfl

private theorem ofScientific_zero (k : Nat) :
    HasUnits (Float.ofScientific 0 (decide (0 < k)) k) 0 := by
  by_cases h : 0 < 2 ^ 53 ∧ k ≤ 22
  · have hshort : ∀ i : Fin 23, (Float.ofScientific 0 (decide (0 < i.val)) i.val).isNaN = false ∧
        units (Float.ofScientific 0 (decide (0 < i.val)) i.val) = 0 := by
      decide +kernel
    exact hshort ⟨k, Nat.lt_succ_of_le h.2⟩
  · have hzero : UnpackedFloat.ofScientific .binary64 0 (-k) = .zero .positive := rfl
    rw [hasUnits_iff (unpack_ofScientific h), hzero, Binary64.stored_zero]
    exact ⟨rfl, by simp [Binary64.ofUnpacked, Binary64.units, Binary64.magnitude_zero]⟩

/-- A decimal is read as the nearest double, whatever its length. -/
private theorem hasUnits_ofScientific (m k : Nat) :
    HasUnits (Float.ofScientific m (decide (0 < k)) k)
    (min (nearestTo (m * Binary64.one) (10 ^ k)) Binary64.overflow : Nat) := by
  obtain rfl | hm := Nat.eq_zero_or_pos m
  · rw [Nat.zero_mul, nearestTo_zero]
    exact ofScientific_zero k
  by_cases h : m < 2 ^ 53 ∧ k ≤ 22
  · exact ofScientific_short hm h
  · rw [hasUnits_iff (unpack_ofScientific h)]
    obtain rfl | hk := Nat.eq_zero_or_pos k
    · rw [pow_zero, nearestTo_one]
      exact stored_ofScientific_whole hm
    · exact stored_ofScientific_fraction hm hk

/-! ## Infinity -/

namespace Binary64

private theorem exists_lastHalfStep_eq : ∃ k, lastHalfStep = 2 ^ k ∧ overflow = 2 ^ (54 + k) := by
  obtain ⟨k, hk⟩ := exists_exponent_eq (e := 970) (by decide)
  have hoverflow : overflow = magnitude hiddenBit (leastExponent + (k + 2 : Nat)) := by
    rw [overflow]
    congr 1
    omega
  refine ⟨k, by rw [lastHalfStep, hk, magnitude_eq, Nat.one_mul], ?_⟩
  rw [hoverflow, magnitude_eq, show hiddenBit = 2 ^ 52 from rfl, ← pow_add]
  congr 1
  omega

/-- The nearest value is out of range from the middle on between the largest double and the first
power of two out of range. -/
private theorem overflow_le_nearestTo (n : Nat) {d : Nat} (hd : 0 < d) :
    overflow ≤ nearestTo n d ↔ overflow * d ≤ n + lastHalfStep * d := by
  obtain ⟨k, hstep, htop⟩ := exists_lastHalfStep_eq
  obtain ⟨hmost, hfilled⟩ := nearestRatio_excess n hd
  have hpos : 0 < 2 ^ k * d := Nat.mul_pos (Nat.two_pow_pos k) hd
  have hbelow : n < 2 ^ ((n / d).log2 + 1) * d := (Nat.div_lt_iff_lt_mul hd).mp Nat.lt_log2_self
  rw [hstep, htop, pow_add, Nat.mul_assoc, nearestTo]
  rcases lt_trichotomy (n / d).log2 (53 + k) with hlow | hlast | hhigh
  · -- Even when it is rounded up, the number stays below the last power of two in range.
    have hn : n < 2 ^ 53 * (2 ^ k * d) := by
      rw [← Nat.mul_assoc, ← pow_add]
      exact Nat.lt_of_lt_of_le hbelow
        (Nat.mul_le_mul_right d (Nat.pow_le_pow_right (by decide) hlow))
    have hrounded : nearestRatio n (d * 2 ^ excess (n / d)) * 2 ^ excess (n / d) ≤ 2 ^ 53 * 2 ^ k :=
      Nat.mul_le_mul hmost (Nat.pow_le_pow_right (by decide) (by simp only [excess]; omega))
    have hk := Nat.two_pow_pos k
    omega
  · have hexcess : excess (n / d) = k + 1 := by
      simp only [excess]
      omega
    have hdivisor : d * 2 ^ (k + 1) = 2 * (2 ^ k * d) := by
      rw [pow_succ]
      ring
    rw [hlast, Nat.add_right_comm, pow_add, Nat.mul_assoc] at hbelow
    rw [hexcess, hdivisor] at hmost ⊢
    have hround : nearestRatio n (2 * (2 ^ k * d)) = 2 ^ 53 ↔ _ :=
      nearestRatio_eq_iff (by omega) (by decide) (by omega)
    have htwice : 2 ^ 54 * 2 ^ k = 2 ^ 53 * 2 ^ (k + 1) := by
      rw [pow_succ 2 k]
      ring
    rw [htwice, Nat.mul_le_mul_right_iff (Nat.two_pow_pos _)]
    change _ ≤ 2 ^ 53 at hmost
    omega
  · have hquotient : 2 ^ (54 + k) ≤ n / d := by
      refine (Nat.le_log2 fun hzero => ?_).mp (by omega)
      simp [hzero] at hhigh
    have hn : 2 ^ 54 * (2 ^ k * d) ≤ n := by
      rw [← Nat.mul_assoc, ← pow_add]
      exact (Nat.le_div_iff_mul_le hd).mp hquotient
    have hrounded :
        2 ^ 54 * 2 ^ k ≤ nearestRatio n (d * 2 ^ excess (n / d)) * 2 ^ excess (n / d) := by
      have hshift : 2 ^ 54 * 2 ^ k = 2 ^ 52 * 2 ^ (k + 2) := by
        rw [pow_add 2 k]
        ring
      rw [hshift]
      exact Nat.mul_le_mul (hfilled.resolve_right (by simp only [excess]; omega))
        (Nat.pow_le_pow_right (by decide) (by simp only [excess]; omega))
    exact iff_of_true hrounded (Nat.le_add_right_of_le hn)

end Binary64

private theorem HasUnits.finite_or_infinite {v : Float} {n : Nat} (h : HasUnits v n) :
    (isFinite v = true ∧ n < Binary64.overflow) ∨
      (Binary64.ofFloat v = .infinite false ∧ n = Binary64.overflow) := by
  obtain ⟨hnumber, hunits⟩ := h
  have hcanonical := canonical_unpack v
  have hover := Binary64.overflow_pos
  rw [isNaN_eq] at hnumber
  rw [units_eq] at hunits
  rw [isFinite, Binary64.ofFloat_eq]
  cases hunpack : v.toModel.unpack with
  | notANumber =>
    rw [hunpack] at hnumber
    contradiction
  | infinity s =>
    rw [hunpack] at hunits
    change signed _ Binary64.overflow = n at hunits
    cases s with
    | positive => exact .inr ⟨rfl, (Int.ofNat_inj.mp hunits).symm⟩
    | negative =>
      rw [Binary64.isNegative, signed_true] at hunits
      omega
  | zero s =>
    rw [hunpack] at hunits
    change signed _ (Binary64.magnitude 0 _) = n at hunits
    rw [Binary64.magnitude_zero, signed_zero] at hunits
    exact .inl ⟨rfl, by omega⟩
  | finite s m e hm =>
    rw [hunpack] at hunits hcanonical
    change signed _ (Binary64.magnitude m e) = n at hunits
    have hless := Binary64.magnitude_lt_overflow hcanonical.1 hcanonical.2.1 hcanonical.2.2.1
    refine .inl ⟨rfl, ?_⟩
    cases s <;> simp only [Binary64.isNegative, signed_true, signed_false] at hunits <;> omega

/-! ## Numerals -/

/-- What a numeral stands for: its digits in base ten, divided by ten for each digit behind the
point. -/
inductive StandsFor : List Char → ℚ → Prop
  | whole {digits : List Char} (h : Digits digits) : StandsFor digits (digitsValue digits)
  | point {whole fraction : List Char} (hwhole : Digits whole) (hfraction : Digits fraction) :
    StandsFor (whole ++ '.' :: fraction) (digitsValue (whole ++ fraction) / 10 ^ fraction.length)

private theorem StandsFor.head {cs : List Char} {q : ℚ} (h : StandsFor cs q) :
    ∃ c tail, cs = c :: tail ∧ c.isDigit := by
  cases h with
  | whole hdigits => simpa using hdigits.head []
  | point hwhole hfraction => exact hwhole.head _

private theorem StandsFor.readNumeral? {cs : List Char} {q : ℚ} (h : StandsFor cs q) :
    ∃ whole fraction, Number.readNumeral? cs = some ⟨whole, fraction, false, []⟩ ∧
      q = digitsValue (whole ++ fraction) / 10 ^ fraction.length := by
  cases h with
  | whole hdigits =>
    refine ⟨cs, [], ?_, by simp⟩
    simp only [Number.readNumeral?, hdigits.span, takeFraction]
    rw [if_neg fun hnone => hdigits.1 hnone.1]
    rfl
  | @point whole fraction hwhole hfraction =>
    have hspan : (whole ++ '.' :: fraction).span Char.isDigit = (whole, '.' :: fraction) :=
      span_digits hwhole.2 (by simp)
    refine ⟨whole, fraction, ?_, rfl⟩
    simp only [Number.readNumeral?, hspan, takeFraction, hfraction.span]
    rw [if_neg fun hnone => hwhole.1 hnone.1]
    rfl

private theorem readMagnitude?_of_digit {c : Char} (hc : c.isDigit) (cs : List Char) :
    readMagnitude? (c :: cs) = (readNumeral? (c :: cs)).map Numeral.value := by
  have hword {word : List Char} (h : ∃ d ∈ word.head?, d.isAlpha) :
      (c :: cs).map Char.toLower ≠ word := by
    rintro rfl
    obtain ⟨d, hd, halpha⟩ := h
    rw [← Option.some_inj.mp hd, Char.isAlpha_toLower_eq_isAlpha] at halpha
    exact not_isDigit_of_isAlpha halpha hc
  simp only [readMagnitude?]
  rw [if_neg (not_or.mpr ⟨hword ⟨'i', rfl, rfl⟩, hword ⟨'i', rfl, rfl⟩⟩),
    if_neg (hword ⟨'n', rfl, rfl⟩)]

private theorem Numeral.value_eq (whole fraction : List Char) :
    Numeral.value ⟨whole, fraction, false, []⟩ = Float.ofScientific (digitsValue (whole ++ fraction))
      (decide (0 < fraction.length)) fraction.length := by
  have hscale : Numeral.scale ⟨whole, fraction, false, []⟩ = -fraction.length := by
    simp [Numeral.scale, digitsValue]
  have hsign : decide (-(fraction.length : Int) < 0) = decide (0 < fraction.length) := by
    rw [decide_eq_decide]
    omega
  rw [Numeral.value, hscale, hsign, Int.natAbs_neg, Int.natAbs_natCast]

private theorem cast_overflow : (Binary64.overflow : ℚ) = 2 ^ 1024 * Binary64.one := by
  have h : Binary64.overflow = Binary64.hiddenBit * 2 ^ 972 * Binary64.one :=
    Binary64.magnitude_natCast Binary64.hiddenBit 972
  have hhidden : Binary64.hiddenBit = 2 ^ 52 := rfl
  rw [h, hhidden, ← pow_add, Nat.cast_mul, Nat.cast_pow, Nat.cast_ofNat]

private theorem cast_lastHalfStep : (Binary64.lastHalfStep : ℚ) = 2 ^ 970 * Binary64.one := by
  have h : Binary64.lastHalfStep = 1 * 2 ^ 970 * Binary64.one := Binary64.magnitude_natCast 1 970
  rw [h, Nat.one_mul, Nat.cast_mul, Nat.cast_pow, Nat.cast_ofNat]

private theorem overflow_mul_le_iff {m d : Nat} (hd : 0 < d) :
    Binary64.overflow * d ≤ m * Binary64.one + Binary64.lastHalfStep * d ↔
      (2 ^ 1024 - 2 ^ 970 : ℚ) ≤ m / d := by
  have hd' : (0 : ℚ) < d := by exact_mod_cast hd
  have hone : (0 : ℚ) < Binary64.one := by exact_mod_cast Binary64.one_pos
  have hcancel : ((2 : ℚ) ^ 1024 * d - 2 ^ 970 * d) * Binary64.one ≤ m * Binary64.one ↔ _ :=
    mul_le_mul_iff_of_pos_right hone
  rw [le_div_iff₀ hd', sub_mul, ← hcancel, ← Nat.cast_le (α := ℚ), Nat.cast_add, Nat.cast_mul,
    Nat.cast_mul, Nat.cast_mul, cast_overflow, cast_lastHalfStep]
  generalize (2 : ℚ) ^ 1024 = a, (2 : ℚ) ^ 970 = b
  constructor <;> intro h <;> linarith

/-- A numeral is read as infinity from the middle on between the largest double and the first power
of two out of range, and as a finite double below it. -/
theorem StandsFor.readChars? {cs : List Char} {q : ℚ} (h : StandsFor cs q) :
    ∃ v, Number.readChars? cs = some v ∧
      ((q < 2 ^ 1024 - 2 ^ 970 ∧ isFinite v = true) ∨
        (2 ^ 1024 - 2 ^ 970 ≤ q ∧ Binary64.ofFloat v = .infinite false)) := by
  obtain ⟨c, tail, hcs, hc⟩ := h.head
  obtain ⟨whole, fraction, hread, hq⟩ := h.readNumeral?
  obtain ⟨v, hv⟩ : ∃ v, Float.ofScientific (digitsValue (whole ++ fraction))
      (decide (0 < fraction.length)) fraction.length = v := ⟨_, rfl⟩
  have hunits := hasUnits_ofScientific (digitsValue (whole ++ fraction)) fraction.length
  rw [hv] at hunits
  have hvalue : Number.readChars? cs = some v := by
    rw [hcs] at hread ⊢
    simp [Number.readChars?, takeSign_of_digit hc, readMagnitude?_of_digit hc, hread,
      Numeral.value_eq, hv]
  have hten : 0 < 10 ^ fraction.length := Nat.pow_pos (by decide)
  have hrange : min (nearestTo (digitsValue (whole ++ fraction) * Binary64.one)
      (10 ^ fraction.length)) Binary64.overflow = Binary64.overflow ↔ 2 ^ 1024 - 2 ^ 970 ≤ q := by
    rw [min_eq_right_iff, Binary64.overflow_le_nearestTo _ hten, overflow_mul_le_iff hten, hq,
      Nat.cast_pow, Nat.cast_ofNat]
  refine ⟨v, hvalue, ?_⟩
  obtain ⟨hfinite, hless⟩ | ⟨hinfinite, heq⟩ := hunits.finite_or_infinite
  · exact .inl ⟨lt_of_not_ge fun hle => hless.ne (hrange.mpr hle), hfinite⟩
  · exact .inr ⟨hrange.mp heq, hinfinite⟩

end DrawingBugs.Number
