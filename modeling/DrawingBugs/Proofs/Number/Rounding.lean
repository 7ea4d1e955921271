import DrawingBugs.Proofs.Number.Units

/-!
# Rounded sums

A sum of doubles is exact as an integer, and the double it yields is the nearest one: the lowest
digits are cut off until 53 are left, and a tie goes to the even side. So the value of a sum is the
sum of the values, rounded. A quotient is rounded in the same way, with what its remainder says of
the digits behind the point.
-/

namespace DrawingBugs.Number

open Float.Model (UnpackedFloat Format totalExponent)
open Float.Model.UnpackedFloat (Sign ExtendedMantissa accuracyOfFraction)

/-- The quotient, rounded to the nearest natural number, and to the even one of two. -/
def nearestRatio (n d : Nat) : Nat :=
  if 2 * (n % d) < d then n / d
  else if d < 2 * (n % d) then n / d + 1
  else n / d + n / d % 2

/-- The quotient by `2 ^ j`, rounded to the nearest natural number, and to the even one of two. -/
def nearestQuotient (n j : Nat) : Nat :=
  if 2 * (n % 2 ^ j) < 2 ^ j then n / 2 ^ j
  else if 2 ^ j < 2 * (n % 2 ^ j) then n / 2 ^ j + 1
  else n / 2 ^ j + n / 2 ^ j % 2

theorem nearestQuotient_eq (n j : Nat) : nearestQuotient n j = nearestRatio n (2 ^ j) := rfl

/-- How many of the lowest digits a double of this value cannot hold. -/
def excess (n : Nat) : Nat := n.log2 - 52

/-- The nearest value of a double, be it out of range. -/
def nearest (n : Nat) : Nat := nearestQuotient n (excess n) * 2 ^ excess n

/-- The nearest value of a double to a ratio, be it out of range. -/
def nearestTo (n d : Nat) : Nat := nearestRatio n (d * 2 ^ excess (n / d)) * 2 ^ excess (n / d)

private theorem nearest_zero : nearest 0 = 0 := rfl

theorem nearestTo_one (n : Nat) : nearestTo n 1 = nearest n := by
  rw [nearestTo, nearest, nearestQuotient_eq, Nat.div_one, Nat.one_mul]

/-- The mantissa is the quotient, and the two bits say whether the remainder is a half or more, and
whether it is neither nothing nor a half. -/
def Divided (n d : Nat) (em : ExtendedMantissa) : Prop :=
  em.mantissa = n / d ∧ (em.roundBit = true ↔ d ≤ 2 * (n % d)) ∧
    (em.stickyBit = true ↔ n % d ≠ 0 ∧ 2 * (n % d) ≠ d)

private theorem divided_ofFraction (n : Nat) {d : Nat} (hd : 0 < d) :
    Divided n d (.ofMantissaAndAccuracy (n / d) (accuracyOfFraction (n % d) d)) := by
  by_cases hrest : n % d = 0
  · simp [Divided, accuracyOfFraction, hrest, ExtendedMantissa.ofMantissaAndAccuracy, hd.ne']
  rw [accuracyOfFraction, if_neg hrest]
  rcases lt_trichotomy (2 * (n % d)) d with hless | heq | hmore
  · rw [compare_lt_iff_lt.mpr hless]
    exact ⟨rfl, ⟨nofun, fun h => by omega⟩, ⟨fun _ => ⟨hrest, hless.ne⟩, fun _ => rfl⟩⟩
  · rw [compare_eq_iff_eq.mpr heq]
    exact ⟨rfl, ⟨fun _ => heq.ge, fun _ => rfl⟩, ⟨nofun, fun h => absurd heq h.2⟩⟩
  · rw [compare_gt_iff_gt.mpr hmore]
    exact ⟨rfl, ⟨fun _ => hmore.le, fun _ => rfl⟩, ⟨fun _ => ⟨hrest, hmore.ne'⟩, fun _ => rfl⟩⟩

private theorem Divided.shiftRightOne {n d : Nat} {em : ExtendedMantissa} (hd : 0 < d)
    (h : Divided n d em) : Divided n (d * 2) em.shiftRightOne := by
  obtain ⟨hmantissa, hround, hsticky⟩ := h
  have hrest : n % (d * 2) = n % d + d * (n / d % 2) := Nat.mod_mul
  have hless : n % d < d := Nat.mod_lt _ hd
  refine ⟨?_, ?_, ?_⟩
  · rw [ExtendedMantissa.shiftRightOne, hmantissa, Nat.div_div_eq_div_mul]
  · rw [ExtendedMantissa.shiftRightOne, hmantissa, hrest]
    obtain hbit | hbit := Nat.mod_two_eq_zero_or_one (n / d)
    · simp [hbit]
      omega
    · simp [hbit]
      omega
  · rw [ExtendedMantissa.shiftRightOne, Bool.or_eq_true, hround, hsticky, hrest]
    obtain hbit | hbit := Nat.mod_two_eq_zero_or_one (n / d) <;> simp only [hbit] <;> omega

private theorem Divided.shiftRight {n d : Nat} {em : ExtendedMantissa} (hd : 0 < d)
    (h : Divided n d em) (j : Nat) : Divided n (d * 2 ^ j) (em >>> j) := by
  induction j with
  | zero =>
    rw [pow_zero, Nat.mul_one]
    exact h
  | succ j ih =>
    rw [pow_succ, ← Nat.mul_assoc]
    exact ih.shiftRightOne (Nat.mul_pos hd (Nat.two_pow_pos j))

private theorem Divided.roundedMantissa {n d : Nat} {em : ExtendedMantissa} (hd : 0 < d)
    (h : Divided n d em) : em.roundedMantissa = nearestRatio n d := by
  obtain ⟨mantissa, roundBit, stickyBit⟩ := em
  obtain ⟨hmantissa, hround, hsticky⟩ := h
  simp only at hmantissa hround hsticky
  subst hmantissa
  simp only [nearestRatio]
  cases roundBit <;> cases stickyBit <;>
    simp only [Bool.false_eq_true, false_iff, true_iff, ne_eq, ExtendedMantissa.roundedMantissa,
      ExtendedMantissa.accuracy, UnpackedFloat.Accuracy.roundToNearestEven] at hround hsticky ⊢ <;>
    split_ifs <;> omega

private theorem nearestRatio_mul (n d : Nat) {c : Nat} (hc : 0 < c) :
    nearestRatio (n * c) (d * c) = nearestRatio n d := by
  simp only [nearestRatio, Nat.mul_div_mul_right _ _ hc, Nat.mul_mod_mul_right, ← Nat.mul_assoc,
    Nat.mul_lt_mul_right hc]

private theorem le_nearestRatio (n d : Nat) : n / d ≤ nearestRatio n d := by
  simp only [nearestRatio]
  split_ifs <;> omega

theorem nearestRatio_le {n d c : Nat} (hd : 0 < d) (h : n ≤ c * d) : nearestRatio n d ≤ c := by
  have hdiv := Nat.div_add_mod n d
  have hquotient : n / d ≤ c := Nat.div_le_of_le_mul (Nat.mul_comm c _ ▸ h)
  obtain heq | hlt := Nat.eq_or_lt_of_le hquotient
  · rw [heq, Nat.mul_comm] at hdiv
    have hrest : n % d = 0 := by omega
    simp [nearestRatio, hrest, heq, hd]
  · simp only [nearestRatio]
    split_ifs <;> omega

/-- Below an even multiple the nearest one is that multiple from half a step on. -/
theorem nearestRatio_eq_iff {n d c : Nat} (hd : 0 < d) (hc : c % 2 = 0) (h : n < c * d) :
    nearestRatio n d = c ↔ 2 * (c * d - n) ≤ d := by
  have hdiv := Nat.div_add_mod n d
  have hless : n % d < d := Nat.mod_lt _ hd
  have hquotient : n / d < c := Nat.div_lt_of_lt_mul (Nat.mul_comm c _ ▸ h)
  -- Only from the last step before the multiple can it be reached, where a tie goes to it.
  obtain ⟨k, hk⟩ := Nat.exists_eq_add_of_lt hquotient
  have hmul : c * d = d * (n / d) + d + k * d := by rw [hk]; ring
  simp only [nearestRatio]
  obtain rfl | hk' := Nat.eq_zero_or_pos k
  · split_ifs <;> omega
  · have hfar : d ≤ k * d := Nat.le_mul_of_pos_left _ hk'
    split_ifs <;> omega

theorem log2_mul_pow {n : Nat} (hn : 0 < n) (k : Nat) : (n * 2 ^ k).log2 = n.log2 + k := by
  have hbounds := (Nat.log2_eq_iff hn.ne').mp rfl
  refine (Nat.log2_eq_iff (Nat.mul_pos hn (Nat.two_pow_pos k)).ne').mpr ⟨?_, ?_⟩
  · rw [pow_add]
    exact Nat.mul_le_mul_right _ hbounds.1
  · rw [Nat.add_right_comm, pow_add]
    exact Nat.mul_lt_mul_of_pos_right hbounds.2 (Nat.two_pow_pos k)

private theorem excess_mul_pow {n k : Nat} (h : 0 < n ∨ k = 0) :
    excess (n * 2 ^ k) = n.log2 + k - 52 := by
  obtain hn | rfl := h
  · rw [excess, log2_mul_pow hn]
  · rw [pow_zero, Nat.mul_one, excess, Nat.add_zero]

private theorem log2_mul_pow_div {n d : Nat} (h : 0 < n / d) (k : Nat) :
    (n * 2 ^ k / d).log2 = (n / d).log2 + k := by
  obtain rfl | hd := Nat.eq_zero_or_pos d
  · simp at h
  have hbounds := (Nat.log2_eq_iff h.ne').mp rfl
  have hlow : 2 ^ ((n / d).log2 + k) ≤ n * 2 ^ k / d := by
    rw [Nat.le_div_iff_mul_le hd, pow_add, Nat.mul_right_comm]
    exact Nat.mul_le_mul_right _ ((Nat.le_div_iff_mul_le hd).mp hbounds.1)
  refine (Nat.log2_eq_iff (Nat.lt_of_lt_of_le (Nat.two_pow_pos _) hlow).ne').mpr ⟨hlow, ?_⟩
  rw [Nat.div_lt_iff_lt_mul hd, Nat.add_right_comm, pow_add, Nat.mul_right_comm]
  exact Nat.mul_lt_mul_of_pos_right ((Nat.div_lt_iff_lt_mul hd).mp hbounds.2) (Nat.two_pow_pos k)

theorem nearestTo_mul (n : Nat) {d c : Nat} (hc : 0 < c) :
    nearestTo (n * c) (d * c) = nearestTo n d := by
  simp only [nearestTo, Nat.mul_div_mul_right _ _ hc]
  rw [Nat.mul_right_comm, nearestRatio_mul _ _ hc]

private theorem div_excess_lt (n : Nat) : n / 2 ^ excess n < 2 * Binary64.hiddenBit := by
  refine Nat.div_lt_of_lt_mul ?_
  calc n < 2 ^ (n.log2 + 1) := Nat.lt_log2_self
    _ ≤ 2 ^ (excess n + 53) := Nat.pow_le_pow_right (by decide) (by simp only [excess]; omega)
    _ = 2 ^ excess n * (2 * Binary64.hiddenBit) := by rw [pow_add]; rfl

private theorem le_div_excess {n : Nat} (h : 0 < excess n) :
    Binary64.hiddenBit ≤ n / 2 ^ excess n := by
  have hn : n ≠ 0 := by
    rintro rfl
    exact absurd h (by decide)
  refine (Nat.le_div_iff_mul_le (Nat.two_pow_pos _)).mpr ?_
  calc Binary64.hiddenBit * 2 ^ excess n = 2 ^ (52 + excess n) := by rw [pow_add]; rfl
    _ = 2 ^ n.log2 := by congr 1; simp only [excess] at h ⊢; omega
    _ ≤ n := Nat.log2_self_le hn

theorem nearestRatio_excess (n : Nat) {d : Nat} (hd : 0 < d) :
    nearestRatio n (d * 2 ^ excess (n / d)) ≤ 2 * Binary64.hiddenBit ∧
      (Binary64.hiddenBit ≤ nearestRatio n (d * 2 ^ excess (n / d)) ∨ excess (n / d) = 0) := by
  have hpos : 0 < d * 2 ^ excess (n / d) := Nat.mul_pos hd (Nat.two_pow_pos _)
  have hquotient : n / (d * 2 ^ excess (n / d)) = n / d / 2 ^ excess (n / d) :=
    (Nat.div_div_eq_div_mul _ _ _).symm
  constructor
  · refine nearestRatio_le hpos ((Nat.div_lt_iff_lt_mul hpos).mp ?_).le
    rw [hquotient]
    exact div_excess_lt _
  · refine (Nat.eq_zero_or_pos _).symm.imp_left fun h => ?_
    refine Nat.le_trans ?_ (le_nearestRatio _ _)
    rw [hquotient]
    exact le_div_excess h

namespace Binary64

theorem magnitude_eq (m k : Nat) : magnitude m (leastExponent + k) = m * 2 ^ k := by
  rw [magnitude, raise]
  congr 2
  omega

private theorem targetExponent_eq {m k : Nat} (h : 0 < m ∨ k = 0) :
    Format.binary64.targetExponent (totalExponent m (leastExponent + k)) =
      leastExponent + excess (m * 2 ^ k) := by
  rw [excess_mul_pow h]
  simp only [Format.targetExponent, totalExponent, Format.mantissaBits, Format.minExponent,
    leastExponent]
  omega

private theorem shiftToTargetExponent_eq {m k : Nat} (h : 0 < m ∨ k = 0)
    (accuracy : UnpackedFloat.Accuracy) :
    UnpackedFloat.shiftToTargetExponent .binary64 m (leastExponent + k) accuracy =
      (ExtendedMantissa.ofMantissaAndAccuracy m accuracy >>> (excess (m * 2 ^ k) - k),
        leastExponent + (k + (excess (m * 2 ^ k) - k) : Nat)) := by
  have hshift : (leastExponent + (excess (m * 2 ^ k) : Int) - (leastExponent + k)).toNat =
      excess (m * 2 ^ k) - k := by omega
  simp only [UnpackedFloat.shiftToTargetExponent, UnpackedFloat.shiftToExponent,
    targetExponent_eq h, hshift]
  congr 1
  omega

/-- A rounded mantissa fits, or it is one power of two too large and moves by one more digit. -/
private theorem fitted_shiftToTargetExponent {q g : Nat} (hpos : 0 < q) (hmost : q ≤ 2 * hiddenBit)
    (hfilled : hiddenBit ≤ q ∨ g = 0) : ∃ m e, 0 < m ∧ Fitted m e ∧ magnitude m e = q * 2 ^ g ∧
      (UnpackedFloat.shiftToTargetExponent .binary64 q (leastExponent + g) .exact).1.mantissa = m ∧
      (UnpackedFloat.shiftToTargetExponent .binary64 q (leastExponent + g) .exact).2 = e := by
  rw [shiftToTargetExponent_eq (.inl hpos), excess_mul_pow (.inl hpos)]
  obtain rfl | hlt := Nat.eq_or_lt_of_le hmost
  · -- The mantissa was rounded up to a power of two with 54 digits, of which the last is zero.
    have hone : (2 * hiddenBit).log2 + g - 52 - g = 1 := by
      have hlog : (2 * hiddenBit).log2 = 53 := by decide
      omega
    rw [hone]
    refine ⟨hiddenBit, leastExponent + (g + 1 : Nat), by decide,
      ⟨by decide, by omega, .inl (Nat.le_refl _)⟩, ?_, rfl, rfl⟩
    rw [magnitude_eq, pow_succ]
    ring
  · have hlog : q.log2 ≤ 52 := by
      obtain h | h := Nat.lt_or_ge q hiddenBit
      · exact (log2_lt_of_lt_hiddenBit h).le
      · exact (log2_of_hiddenBit_le h hlt).le
    have hnone : q.log2 + g - 52 - g = 0 := by omega
    rw [hnone]
    refine ⟨q, leastExponent + g, hpos, ⟨hlt, by omega, hfilled.imp_right fun h => by simp [h]⟩,
      magnitude_eq q g, rfl, rfl⟩

/-- A word keeps a double that fits, or it stands for the first power of two out of range. -/
private theorem units_stored_finite {s : Sign} {m : Nat} {e : Int} (hm : 0 < m) (h : Fitted m e) :
    (stored (.finite s m e hm)).isNaN = false ∧
      (ofUnpacked (stored (.finite s m e hm))).units =
        signed (isNegative s) (min (magnitude m e) overflow) := by
  rw [stored_finite hm h]
  obtain ⟨hless, hleast, hfilled⟩ := h
  split
  next hlarge =>
    have hhidden : hiddenBit ≤ m := hfilled.resolve_right (by simp only [leastExponent]; omega)
    rw [min_eq_right (overflow_le_magnitude hhidden hlarge)]
    exact ⟨rfl, rfl⟩
  next hsmall =>
    rw [min_eq_left (magnitude_lt_overflow hless hleast (by omega)).le]
    exact ⟨rfl, rfl⟩

private theorem excess_mul_pow_div {n d k : Nat} (h : 52 ≤ (n / d).log2 ∨ k = 0) :
    excess (n * 2 ^ k / d) = excess (n / d * 2 ^ k) ∧ k ≤ excess (n / d * 2 ^ k) := by
  obtain h | rfl := h
  · have hpos : 0 < n / d := by
      by_contra hzero
      simp [Nat.eq_zero_of_not_pos hzero] at h
    rw [excess_mul_pow (.inl hpos), excess, log2_mul_pow_div hpos]
    omega
  · simp

/-- A quotient with enough digits, and with what is said of its remainder, is rounded to the nearest
double. -/
theorem stored_roundWithAccuracy (s : Sign) {n d k : Nat} (hd : 0 < d)
    (hk : 52 ≤ (n / d).log2 ∨ k = 0) :
    (stored (UnpackedFloat.roundWithAccuracy .binary64 s (n / d) (leastExponent + k)
        (accuracyOfFraction (n % d) d))).isNaN = false ∧
      (ofUnpacked (stored (UnpackedFloat.roundWithAccuracy .binary64 s (n / d) (leastExponent + k)
        (accuracyOfFraction (n % d) d)))).units =
        signed (isNegative s) (min (nearestTo (n * 2 ^ k) d) overflow) := by
  have hdigits : 0 < n / d ∨ k = 0 := hk.imp_left fun h => by
    by_contra hzero
    simp [Nat.eq_zero_of_not_pos hzero] at h
  obtain ⟨hexcess, hmore⟩ := excess_mul_pow_div hk
  obtain ⟨hmost, hfilled⟩ := nearestRatio_excess (n * 2 ^ k) hd
  rw [nearestTo]
  rw [hexcess] at hmost hfilled ⊢
  generalize hg : excess (n / d * 2 ^ k) = g at *
  have hratio : nearestRatio n (d * 2 ^ (g - k)) = nearestRatio (n * 2 ^ k) (d * 2 ^ g) := by
    rw [← nearestRatio_mul n _ (Nat.two_pow_pos k), Nat.mul_assoc, ← pow_add,
      Nat.sub_add_cancel hmore]
  have hrounded := ((divided_ofFraction n hd).shiftRight hd (g - k)).roundedMantissa
    (Nat.mul_pos hd (Nat.two_pow_pos _))
  simp only [UnpackedFloat.roundWithAccuracy, shiftToTargetExponent_eq hdigits, hg, hrounded,
    hratio, Nat.add_sub_cancel' hmore]
  generalize nearestRatio (n * 2 ^ k) (d * 2 ^ g) = q at *
  obtain rfl | hpos := Nat.eq_zero_or_pos q
  · obtain rfl : g = 0 := hfilled.resolve_left (by decide)
    have hnone : (UnpackedFloat.shiftToTargetExponent .binary64 0 (leastExponent + (0 : Nat))
        .exact).1.mantissa = 0 := by
      rw [shiftToTargetExponent_eq (.inr rfl)]
      rfl
    rw [dif_pos hnone, stored_zero]
    exact ⟨rfl, by simp [ofUnpacked, units, magnitude_zero]⟩
  · obtain ⟨m, e, hm, hfitted, hvalue, hmantissa, hexponent⟩ :=
      fitted_shiftToTargetExponent hpos hmost hfilled
    simp only [hmantissa, hexponent]
    rw [dif_neg hm.ne', ← hvalue]
    exact units_stored_finite hm hfitted

theorem stored_roundWithAccuracy_exact (s : Sign) {m k : Nat} (hk : 52 ≤ m.log2 ∨ k = 0) :
    (stored (UnpackedFloat.roundWithAccuracy .binary64 s m (leastExponent + k) .exact)).isNaN =
        false ∧
      (ofUnpacked (stored (UnpackedFloat.roundWithAccuracy .binary64 s m (leastExponent + k)
        .exact))).units = signed (isNegative s) (min (nearest (m * 2 ^ k)) overflow) := by
  have h := stored_roundWithAccuracy s (n := m) (d := 1) (k := k) (by decide) (by rwa [Nat.div_one])
  rwa [nearestTo_one, Nat.div_one, Nat.mod_one] at h

private theorem decreaseExponent_eq (m k j : Nat) :
    UnpackedFloat.decreaseExponent m (leastExponent + k) (leastExponent + j) =
      (m * 2 ^ (k - j), leastExponent + (min k j : Nat)) := by
  have hshift : (leastExponent + k - (leastExponent + (j : Int))).toNat = k - j := by omega
  simp only [UnpackedFloat.decreaseExponent, hshift, Nat.shiftLeft_eq]
  congr 1
  omega

private theorem stored_round (s : Sign) {m k : Nat} (hm : 0 < m) :
    (stored (UnpackedFloat.round .binary64 s m (leastExponent + k))).isNaN = false ∧
      (ofUnpacked (stored (UnpackedFloat.round .binary64 s m (leastExponent + k)))).units =
        signed (isNegative s) (min (nearest (m * 2 ^ k)) overflow) := by
  have hvalue :
      m * 2 ^ (k - excess (m * 2 ^ k)) * 2 ^ (min k (excess (m * 2 ^ k))) = m * 2 ^ k := by
    rw [Nat.mul_assoc, ← pow_add]
    congr 2
    omega
  have hdigits : 52 ≤ (m * 2 ^ (k - excess (m * 2 ^ k))).log2 ∨ min k (excess (m * 2 ^ k)) = 0 := by
    rw [log2_mul_pow hm, excess_mul_pow (.inl hm)]
    omega
  have hround := stored_roundWithAccuracy_exact s hdigits
  rw [hvalue] at hround
  simp only [UnpackedFloat.round, targetExponent_eq (.inl hm), decreaseExponent_eq]
  exact hround

/-- The value of the nearest double to a multiple of the least one. -/
def rounded (n : Int) : Int := signed (decide (n < 0)) (min (nearest n.natAbs) overflow)

theorem stored_normalize (n : Int) (k : Nat) (s : Sign) :
    (stored (.normalize .binary64 n (leastExponent + k) s)).isNaN = false ∧
      (ofUnpacked (stored (.normalize .binary64 n (leastExponent + k) s))).units =
        rounded (n * 2 ^ k) := by
  have habs : (n * 2 ^ k).natAbs = n.natAbs * 2 ^ k := by
    rw [Int.natAbs_mul, Int.natAbs_pow]
    rfl
  have hpow : (0 : Int) < 2 ^ k := Int.pow_pos (by decide)
  rcases lt_trichotomy n 0 with hn | rfl | hn
  · have hneg : n * 2 ^ k < 0 := Int.mul_neg_of_neg_of_pos hn hpow
    have hround : UnpackedFloat.normalize .binary64 n (leastExponent + k) s =
        .round .binary64 .negative n.natAbs (leastExponent + k) := by
      simp only [UnpackedFloat.normalize, compare_lt_iff_lt.mpr hn]
      congr 1
      omega
    rw [hround, rounded, habs, decide_eq_true hneg]
    exact stored_round .negative (Int.natAbs_pos.mpr hn.ne)
  · have hzero : UnpackedFloat.normalize .binary64 0 (leastExponent + k) s = .zero s := rfl
    rw [hzero, stored_zero, Int.zero_mul]
    exact ⟨rfl, by simp [ofUnpacked, units, magnitude_zero, rounded, nearest_zero]⟩
  · have hpos : ¬ n * 2 ^ k < 0 := Int.not_lt.mpr (Int.mul_pos hn hpow).le
    have hround : UnpackedFloat.normalize .binary64 n (leastExponent + k) s =
        .round .binary64 .positive n.natAbs (leastExponent + k) := by
      simp only [UnpackedFloat.normalize, compare_gt_iff_gt.mpr hn]
      congr 1
      omega
    rw [hround, rounded, habs, decide_eq_false hpos]
    exact stored_round .positive (Int.natAbs_pos.mpr hn.ne')

private theorem nearest_of_dvd {n : Nat} (h : 2 ^ excess n ∣ n) : nearest n = n := by
  have hpos := Nat.two_pow_pos (excess n)
  simp [nearest, nearestQuotient, Nat.mod_eq_zero_of_dvd h, Nat.div_mul_cancel h, hpos]

theorem exists_exponent_eq {e : Int} (h : leastExponent ≤ e) : ∃ k : Nat, e = leastExponent + k :=
  ⟨(e - leastExponent).toNat, by omega⟩

theorem nearest_magnitude {m : Nat} {e : Int} (hm : m < 2 * hiddenBit) (he : leastExponent ≤ e) :
    nearest (magnitude m e) = magnitude m e := by
  obtain ⟨k, rfl⟩ := exists_exponent_eq he
  rw [magnitude_eq]
  obtain rfl | hpos := Nat.eq_zero_or_pos m
  · rw [Nat.zero_mul, nearest_zero]
  · have hlog : m.log2 < 53 := (Nat.log2_lt hpos.ne').mpr hm
    refine nearest_of_dvd (Dvd.dvd.mul_left (pow_dvd_pow 2 ?_) m)
    rw [excess_mul_pow (.inl hpos)]
    omega

theorem rounded_signed (negative : Bool) (n : Nat) :
    rounded (signed negative n) = signed negative (min (nearest n) overflow) := by
  obtain rfl | hpos := Nat.eq_zero_or_pos n
  · simp [rounded, nearest_zero]
  · cases negative with
    | false =>
      have hnonneg : ¬ (n : Int) < 0 := by omega
      rw [signed_false, rounded, decide_eq_false hnonneg, Int.natAbs_natCast]
    | true =>
      have hneg : (-n : Int) < 0 := by omega
      rw [signed_true, rounded, decide_eq_true hneg, Int.natAbs_neg, Int.natAbs_natCast]

private theorem rounded_units {negative : Bool} {m : Nat} {e : Int}
    (h : (Binary64.finite negative m e).Canonical) :
    rounded (Binary64.finite negative m e).units = (Binary64.finite negative m e).units := by
  obtain ⟨hm, he, he', -⟩ := h
  rw [units, rounded_signed, nearest_magnitude hm he,
    min_eq_left (magnitude_lt_overflow hm he he').le]

private theorem apply_mul_pow (s : Sign) {m k j : Nat} (h : j ≤ k) :
    s.apply (m * 2 ^ (k - j) : Nat) * 2 ^ j =
      signed (isNegative s) (magnitude m (leastExponent + k)) := by
  have hpow : (2 : Int) ^ k = 2 ^ (k - j) * 2 ^ j := by rw [← pow_add, Nat.sub_add_cancel h]
  rw [magnitude_eq]
  cases s <;> simp [Sign.apply, isNegative, hpow, mul_assoc]

private theorem stored_add {u w : UnpackedFloat} (hu : (ofUnpacked u).Canonical)
    (hw : (ofUnpacked w).Canonical) (hu' : (ofUnpacked u).isFinite)
    (hw' : (ofUnpacked w).isFinite) :
    (stored (.add .binary64 u w)).isNaN = false ∧
      (ofUnpacked (stored (.add .binary64 u w))).units =
        rounded ((ofUnpacked u).units + (ofUnpacked w).units) := by
  have hzero : ∀ s, (ofUnpacked (.zero s)).units = 0 := fun s => by
    simp [ofUnpacked, units, magnitude_zero]
  rcases u with _ | _ | s | ⟨s, m, e, hm⟩ <;> rcases w with _ | _ | s' | ⟨s', m', e', hm'⟩
  case finite.finite =>
    obtain ⟨k, rfl⟩ := exists_exponent_eq hu.2.1
    obtain ⟨k', rfl⟩ := exists_exponent_eq hw.2.1
    have hmin : min (leastExponent + (k : Int)) (leastExponent + k') =
        leastExponent + (min k k' : Nat) := by omega
    have hsum := stored_normalize (s.apply (m * 2 ^ (k - min k k') : Nat) +
      s'.apply (m' * 2 ^ (k' - min k k') : Nat)) (min k k') .positive
    rw [Int.add_mul, apply_mul_pow s (Nat.min_le_left k k'),
      apply_mul_pow s' (Nat.min_le_right k k')] at hsum
    simp only [UnpackedFloat.add, hmin, decreaseExponent_eq, min_eq_right (Nat.min_le_left k k'),
      min_eq_right (Nat.min_le_right k k')]
    exact hsum
  case finite.zero =>
    have hadd : UnpackedFloat.add .binary64 (.finite s m e hm) (.zero s') = .finite s m e hm := rfl
    rw [hadd, stored_of_canonical hu, hzero, Int.add_zero]
    exact ⟨rfl, (rounded_units hu).symm⟩
  case zero.finite =>
    have hadd :
        UnpackedFloat.add .binary64 (.zero s) (.finite s' m' e' hm') = .finite s' m' e' hm' := rfl
    rw [hadd, stored_of_canonical hw, hzero, Int.zero_add]
    exact ⟨rfl, (rounded_units hw).symm⟩
  case zero.zero =>
    obtain ⟨s'', hadd⟩ : ∃ s'', UnpackedFloat.add .binary64 (.zero s) (.zero s') = .zero s'' := by
      cases s <;> cases s' <;> exact ⟨_, rfl⟩
    rw [hadd, stored_zero, hzero, hzero, hzero]
    exact ⟨rfl, by simp [rounded, nearest_zero]⟩
  all_goals contradiction

end Binary64

theorem units_add {a b : Float} (ha : isFinite a) (hb : isFinite b) :
    (a + b).isNaN = false ∧ units (a + b) = Binary64.rounded (units a + units b) := by
  have hadd : (a + b).toModel.unpack =
      Binary64.stored (.add .binary64 a.toModel.unpack b.toModel.unpack) := rfl
  rw [isFinite, Binary64.ofFloat_eq] at ha hb
  rw [isNaN_eq, units_eq, units_eq, units_eq, hadd]
  exact Binary64.stored_add (canonical_unpack a) (canonical_unpack b) ha hb

end DrawingBugs.Number
