import DrawingBugs.Number.Heading
import DrawingBugs.Proofs.Number.Rounding

/-!
# Headings within a turn

The remainder of a division by 360 is exact. Where it is negative a whole turn is added to it, and
the sum is rounded: it stays within the turn unless the remainder is so close to zero that the
nearest double is the whole turn.
-/

namespace DrawingBugs.Number

open Float.Model (UnpackedFloat)

namespace Binary64

private theorem ofFloat_ofBits (w : UInt64) : ofFloat (Float.ofBits w) = ofBits w.toNat := by
  have hunpack : (Float.ofBits w).toModel.unpack =
      stored (UnpackedFloat.unpack .binary64 w.toBitVec) := rfl
  have hcanonical : (ofUnpacked (UnpackedFloat.unpack .binary64 w.toBitVec)).Canonical := by
    rw [ofUnpacked_unpack]
    exact canonical_ofBits _
  rw [ofFloat_eq, hunpack, stored_of_canonical hcanonical, ofUnpacked_unpack]
  rfl

private theorem finiteFloat_eq (negative : Bool) (m : Nat) (e : Int) :
    finiteFloat negative m e =
      let shift := min (52 - m.log2) (e - leastExponent).toNat
      let filled := m * raise 2 shift
      let field := if filled < hiddenBit then 0 else (e - shift + 1075).toNat
      Float.ofBits (UInt64.ofNat
        ((if negative then signBit else 0) + field * hiddenBit + filled % hiddenBit)) := rfl

private theorem ofBits_fields (negative : Bool) {field fraction : Nat} (hfield : field < 2047)
    (hfraction : fraction < hiddenBit) :
    ofBits (UInt64.ofNat ((if negative then signBit else 0) + field * hiddenBit + fraction)).toNat =
      if field = 0 then .finite negative fraction leastExponent
      else .finite negative (hiddenBit + fraction) (field - 1075) := by
  have hsign : (if negative then signBit else 0) = negative.toNat * signBit := by
    cases negative <;> rfl
  have hbit : negative.toNat < 2 := Bool.toNat_lt negative
  obtain ⟨word, hword⟩ : ∃ word, negative.toNat * signBit + field * hiddenBit + fraction = word :=
    ⟨_, rfl⟩
  have hnegative : signBit ≤ word ↔ negative = true := by
    simp only [hiddenBit, signBit] at *
    cases negative <;> simp at hword ⊢ <;> omega
  simp only [hiddenBit, signBit] at *
  have hexponent : word / 0x10000000000000 % 2048 = field := by omega
  have hrest : word % 0x10000000000000 = fraction := by omega
  rw [hsign, hword, UInt64.toNat_ofNat_of_lt' (by simp only [UInt64.size]; omega)]
  simp only [ofBits, hiddenBit, signBit, hexponent, hrest, hnegative, Bool.decide_eq_true]
  rw [if_neg (by omega)]

private theorem magnitude_mul_pow (m : Nat) {e : Int} {j : Nat} (h : leastExponent + j ≤ e) :
    magnitude (m * 2 ^ j) (e - j) = magnitude m e := by
  obtain ⟨k, hk⟩ := exists_exponent_eq (e := e - j) (by omega)
  obtain rfl : e = leastExponent + (j + k : Nat) := by omega
  rw [hk, magnitude_eq, magnitude_eq, pow_add, Nat.mul_assoc]

private theorem magnitude_mod (m n : Nat) (e : Int) :
    magnitude (m % n) e = magnitude m e % magnitude n e := by
  simp only [magnitude, Nat.mul_mod_mul_right]

private theorem filled_mantissa {m shift : Nat} {e : Int} (hm : m < 2 * hiddenBit)
    (hshift : min (52 - m.log2) (e - leastExponent).toNat = shift) (he : leastExponent ≤ e) :
    m * 2 ^ shift < 2 * hiddenBit ∧
      (m * 2 ^ shift < hiddenBit → m * 2 ^ shift = 0 ∨ e - shift = leastExponent) := by
  obtain rfl | hpos := Nat.eq_zero_or_pos m
  · simp [hiddenBit]
  have hlog : m.log2 < 53 := (Nat.log2_lt hpos.ne').mpr hm
  constructor
  · calc m * 2 ^ shift ≤ m * 2 ^ (52 - m.log2) :=
          Nat.mul_le_mul_left m (Nat.pow_le_pow_right (by decide) (by omega))
      _ < 2 ^ (m.log2 + 1) * 2 ^ (52 - m.log2) :=
          Nat.mul_lt_mul_of_pos_right Nat.lt_log2_self (Nat.two_pow_pos _)
      _ = 2 ^ 53 := by
          rw [← pow_add]
          congr 1
          omega
  · intro hless
    by_contra hne
    have hall : shift = 52 - m.log2 := by omega
    have hmost : 2 ^ 52 ≤ m * 2 ^ shift := by
      calc 2 ^ 52 = 2 ^ m.log2 * 2 ^ shift := by
            rw [← pow_add]
            congr 1
            omega
        _ ≤ m * 2 ^ shift := Nat.mul_le_mul_right _ (Nat.log2_self_le hpos.ne')
    exact absurd hmost (Nat.not_le.mpr hless)

private theorem ofFloat_finiteFloat (negative : Bool) {m : Nat} {e : Int} (hm : m < 2 * hiddenBit)
    (he : leastExponent ≤ e) (he' : e ≤ 971) :
    (ofFloat (finiteFloat negative m e)).isFinite = true ∧
      (ofFloat (finiteFloat negative m e)).units = signed negative (magnitude m e) := by
  obtain ⟨shift, hshift⟩ : ∃ shift, min (52 - m.log2) (e - leastExponent).toNat = shift := ⟨_, rfl⟩
  obtain ⟨hless, hleast⟩ := filled_mantissa hm hshift he
  have hbottom : leastExponent = -1074 := rfl
  have hraise : raise 2 (shift : Int) = 2 ^ shift := rfl
  rw [finiteFloat_eq, ← magnitude_mul_pow m (e := e) (j := shift) (by omega)]
  simp only [hshift, hraise]
  generalize m * 2 ^ shift = filled at *
  have hfield : (if filled < hiddenBit then 0 else (e - shift + 1075).toNat) < 2047 := by
    split <;> omega
  rw [ofFloat_ofBits, ofBits_fields negative hfield (Nat.mod_lt _ (by decide))]
  by_cases hsubnormal : filled < hiddenBit
  · rw [if_pos hsubnormal, if_pos rfl, Nat.mod_eq_of_lt hsubnormal]
    refine ⟨rfl, ?_⟩
    obtain rfl | hexponent := hleast hsubnormal
    · simp [units, magnitude_zero]
    · rw [units, hexponent]
  · have hexponent : ((e - shift + 1075).toNat : Int) = e - shift + 1075 := by omega
    have hmantissa : hiddenBit + filled % hiddenBit = filled := by
      simp only [hiddenBit] at *
      omega
    rw [if_neg hsubnormal, if_neg (by omega), hexponent]
    refine ⟨rfl, ?_⟩
    rw [units, hmantissa]
    congr 2
    omega

end Binary64

private theorem isNaN_of_isFinite {v : Float} (h : isFinite v = true) : v.isNaN = false := by
  rw [isFinite, Binary64.ofFloat_eq] at h
  rw [isNaN_eq]
  cases hv : v.toModel.unpack with
  | notANumber =>
    rw [hv] at h
    contradiction
  | _ => rfl

/-- The whole turn, 360, as a multiple of the least positive double. -/
def wholeTurn : Nat := Binary64.magnitude 360 0

/-- Half the distance from 360 to the double below it, as a multiple of the least positive one. -/
def halfStep : Nat := Binary64.magnitude 1 (-45)

private theorem wholeTurn_eq : wholeTurn = 45 * 2 ^ 48 * halfStep := by
  have h : Binary64.magnitude (360 * 2 ^ 45) (-45) = wholeTurn :=
    Binary64.magnitude_mul_pow 360 (e := 0) (j := 45) (by decide)
  rw [← h, halfStep, Binary64.magnitude, Binary64.magnitude]
  ring

private theorem exists_halfStep_eq : ∃ k, halfStep = 2 ^ k :=
  ⟨1029, (Binary64.magnitude_eq 1 1029).trans (Nat.one_mul _)⟩

private theorem log2_lt_of_lt_pow {n j : Nat} (hj : 0 < j) (h : n < 2 ^ j) : n.log2 < j := by
  obtain rfl | hn := Nat.eq_zero_or_pos n
  · exact hj
  · exact (Nat.log2_lt hn.ne').mpr h

/-- Below a turn the nearest double is the whole turn from half a step on. -/
private theorem nearest_below_wholeTurn {n : Nat} (h : n < wholeTurn) :
    nearest n ≤ wholeTurn ∧ (nearest n = wholeTurn ↔ wholeTurn - n ≤ halfStep) := by
  obtain ⟨k, hk⟩ := exists_halfStep_eq
  rw [wholeTurn_eq, hk] at h ⊢
  have hlog : n.log2 < 54 + k := log2_lt_of_lt_pow (by omega) (by rw [pow_add]; omega)
  obtain ⟨j, hj⟩ : ∃ j, 48 + k - excess n = j + 1 :=
    ⟨47 + k - excess n, by simp only [excess]; omega⟩
  have hturn : 45 * 2 ^ 48 * 2 ^ k = 45 * 2 ^ (j + 1) * 2 ^ excess n := by
    rw [Nat.mul_assoc, Nat.mul_assoc, ← pow_add, ← pow_add, ← hj]
    congr 2
    simp only [excess]
    omega
  have heven : 45 * 2 ^ (j + 1) % 2 = 0 := by
    rw [pow_succ]
    omega
  have hsteps : n < 45 * 2 ^ (j + 1) * 2 ^ excess n := hturn ▸ h
  have hclose :
      2 * (45 * 2 ^ 48 * 2 ^ k - n) ≤ 2 ^ excess n ↔ 45 * 2 ^ 48 * 2 ^ k - n ≤ 2 ^ k := by
    -- Below 256 the doubles lie closer, but then half a step below 360 is far away.
    obtain hlow | htop := Nat.lt_or_ge n.log2 (53 + k)
    · have hless : n < 2 ^ 53 * 2 ^ k := by
        rw [← pow_add]
        exact Nat.lt_of_lt_of_le Nat.lt_log2_self (Nat.pow_le_pow_right (by decide) hlow)
      have hgap : 2 ^ excess n ≤ 2 ^ k :=
        Nat.pow_le_pow_right (by decide) (by simp only [excess]; omega)
      omega
    · have hgap : excess n = k + 1 := by
        simp only [excess]
        omega
      rw [hgap, pow_succ]
      omega
  rw [hturn] at hclose ⊢
  refine ⟨Nat.mul_le_mul_right _ (nearestRatio_le (Nat.two_pow_pos _) hsteps.le), ?_⟩
  rw [nearest, Nat.mul_left_inj (Nat.two_pow_pos _).ne', nearestQuotient_eq,
    nearestRatio_eq_iff (Nat.two_pow_pos _) heven hsteps, hclose]

private theorem signed_tmod (negative : Bool) (m n : Nat) :
    (signed negative m).tmod n = signed negative (m % n) := by
  cases negative with
  | false => exact (Int.ofNat_tmod m n).symm
  | true => rw [signed_true, signed_true, Int.neg_tmod, Int.ofNat_tmod]

private theorem units_turnRemainder {v : Float} (h : isFinite v = true) :
    isFinite (turnRemainder v) = true ∧ units (turnRemainder v) = (units v).tmod wholeTurn := by
  have hcanonical := Binary64.canonical_ofFloat v
  rw [isFinite] at h
  rw [turnRemainder, units, units, isFinite]
  cases hv : Binary64.ofFloat v with
  | notANumber | infinite => simp [hv, Binary64.isFinite] at h
  | finite negative m e =>
    rw [hv] at hcanonical
    obtain ⟨hm, he, he', -⟩ := hcanonical
    have hbottom : Binary64.leastExponent = -1074 := rfl
    simp only [Binary64.units_finite, signed_tmod, raise_eq_pow]
    split
    next hneg =>
      have hturn : Binary64.magnitude (360 * 2 ^ (-e).toNat) e = wholeTurn := by
        have h := Binary64.magnitude_mul_pow 360 (e := 0) (j := (-e).toNat) (by omega)
        rwa [show (0 : Int) - ((-e).toNat : Int) = e by omega] at h
      have hfloat := Binary64.ofFloat_finiteFloat negative
        (Nat.lt_of_le_of_lt (Nat.mod_le m (360 * 2 ^ (-e).toNat)) hm) he he'
      rwa [Binary64.magnitude_mod, hturn] at hfloat
    next hnonneg =>
      have hwhole : Binary64.magnitude (m * 2 ^ e.toNat) 0 = Binary64.magnitude m e := by
        have h := Binary64.magnitude_mul_pow m (e := e) (j := e.toNat) (by omega)
        rwa [show e - (e.toNat : Int) = 0 by omega] at h
      have hrest : m * 2 ^ e.toNat % 360 < 360 := Nat.mod_lt _ (by decide)
      have hfloat := Binary64.ofFloat_finiteFloat negative (e := 0)
        (Nat.lt_of_lt_of_le hrest (by decide)) (by decide) (by decide)
      rwa [Binary64.magnitude_mod, hwhole] at hfloat

/-- The least negative number of degrees that a turn further on counts as the whole turn. -/
def leastLost : Float := Binary64.finiteFloat true 1 (-45)

private theorem units_zero : units 0.0 = 0 := by decide +kernel

private theorem units_turn : units 360.0 = wholeTurn := by decide +kernel

private theorem leastLost_eq : isFinite leastLost = true ∧ units leastLost = -halfStep :=
  Binary64.ofFloat_finiteFloat true (by decide) (by decide) (by decide)

/-- A negative remainder that a turn is added to. -/
private theorem units_add_turn {r : Float} (hr : isFinite r = true) (hneg : units r < 0)
    (hturn : -(wholeTurn : Int) < units r) :
    (r + 360.0).isNaN = false ∧ 0 ≤ units (r + 360.0) ∧ units (r + 360.0) ≤ wholeTurn ∧
      (units (r + 360.0) = wholeTurn ↔ -(halfStep : Int) ≤ units r) := by
  obtain ⟨hnumber, hsum⟩ := units_add hr (b := 360.0) (by decide +kernel)
  obtain ⟨n, hn⟩ := Int.eq_ofNat_of_zero_le (a := units r + wholeTurn) (by omega)
  obtain ⟨hle, heq⟩ := nearest_below_wholeTurn (n := n) (by omega)
  have hover : wholeTurn < Binary64.overflow :=
    Binary64.magnitude_lt_overflow (by decide) (by decide) (by decide)
  have hrounded : Binary64.rounded (n : Int) = (nearest n : Nat) := by
    rw [← signed_false, Binary64.rounded_signed, min_eq_left (hle.trans hover.le), signed_false]
  rw [units_turn, hn, hrounded] at hsum
  rw [hsum]
  exact ⟨hnumber, by omega, by omega, by omega⟩

/-- A heading is brought back into one turn, except where a turn added to the remainder is the whole
turn when it is rounded. -/
theorem wrapHeading_bounds {v : Float} (h : isFinite v = true) :
    0.0 ≤ wrapHeading v ∧ wrapHeading v ≤ 360.0 ∧
      (wrapHeading v < 360.0 ↔ ¬ (leastLost ≤ turnRemainder v ∧ turnRemainder v < 0.0)) := by
  have hzero : (0.0 : Float).isNaN = false := by decide +kernel
  have hwhole : (360.0 : Float).isNaN = false := by decide +kernel
  obtain ⟨hlost, hlost'⟩ := leastLost_eq
  obtain ⟨hr, hunits⟩ := units_turnRemainder h
  have hnumber := isNaN_of_isFinite hr
  have hturn :
      -(wholeTurn : Int) < units (turnRemainder v) ∧ units (turnRemainder v) < wholeTurn := by
    have hpos : (0 : Int) < wholeTurn := by exact_mod_cast Binary64.magnitude_pos (by decide)
    rw [hunits]
    exact ⟨Int.lt_tmod_of_pos _ hpos, Int.tmod_lt_of_pos _ hpos⟩
  rw [lt_iff_units hnumber hzero, le_iff_units (isNaN_of_isFinite hlost) hnumber, hlost',
    units_zero]
  simp only [wrapHeading, lt_iff_units hnumber hzero, units_zero]
  split
  next hneg =>
    obtain ⟨hsum, hnonneg, hle, heq⟩ := units_add_turn hr hneg hturn.1
    rw [le_iff_units hzero hsum, le_iff_units hsum hwhole, lt_iff_units hsum hwhole, units_zero,
      units_turn]
    omega
  next hnonneg =>
    rw [le_iff_units hzero hnumber, le_iff_units hnumber hwhole, lt_iff_units hnumber hwhole,
      units_zero, units_turn]
    omega

end DrawingBugs.Number
