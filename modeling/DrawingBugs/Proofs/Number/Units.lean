import DrawingBugs.Proofs.Number.Doubles

/-!
# Doubles as integers

Every finite double is a multiple of the least positive one, so that it is known by an integer. The
order of doubles is the order of these integers, and a difference taken the other way round is the
integer with the opposite sign, rounded or not.
-/

namespace DrawingBugs.Number

open Float.Model (UnpackedFloat Format)
open Float.Model.UnpackedFloat (Sign packComponents)

private theorem raise_pos {base : Nat} (h : 0 < base) (e : Int) : 0 < raise base e := Nat.pow_pos h

theorem raise_eq_pow (base : Nat) (e : Int) : raise base e = base ^ e.toNat := rfl

theorem raise_add (base : Nat) {a b : Int} (ha : 0 ≤ a) (hb : 0 ≤ b) :
    raise base (a + b) = raise base a * raise base b := by
  rw [raise_eq_pow, raise_eq_pow, raise_eq_pow, Int.toNat_add ha hb, pow_add]

/-- The number with this absolute value. -/
def signed (negative : Bool) (n : Nat) : Int := if negative then -n else n

@[simp] theorem signed_true (n : Nat) : signed true n = -n := rfl

@[simp] theorem signed_false (n : Nat) : signed false n = n := rfl

@[simp] theorem signed_zero (negative : Bool) : signed negative 0 = 0 := by
  cases negative <;> rfl

@[simp] theorem signed_not (negative : Bool) (n : Nat) :
    signed (!negative) n = -signed negative n := by
  cases negative <;> simp

private theorem compare_signed {m n : Nat} {o : Ordering} (h : compare m n = o) (negative : Bool) :
    compare (signed negative m) (signed negative n) = if negative then o.swap else o := by
  cases negative <;> cases o <;> simp_all [compare_lt_iff_lt, compare_gt_iff_gt]

namespace Binary64

/-- How often the least positive double, `2 ^ -1074`, goes into `m * 2 ^ e`. -/
@[irreducible] def magnitude (m : Nat) (e : Int) : Nat := m * raise 2 (e - leastExponent)

/-- The least power of two that is out of range. -/
def overflow : Nat := magnitude hiddenBit 972

/-- The value as a multiple of the least positive double. An infinity stands for the first power of
two out of range. -/
def units : Binary64 → Int
  | .notANumber => 0
  | .infinite negative => signed negative overflow
  | .finite negative m e => signed negative (magnitude m e)

theorem units_finite (negative : Bool) (m : Nat) (e : Int) :
    (finite negative m e).units = signed negative (magnitude m e) := rfl

theorem magnitude_zero (e : Int) : magnitude 0 e = 0 := by
  rw [magnitude, Nat.zero_mul]

theorem magnitude_pos {m : Nat} {e : Int} (hm : 0 < m) : 0 < magnitude m e := by
  rw [magnitude]
  exact Nat.mul_pos hm (raise_pos (by decide) _)

private theorem magnitude_lt_of_exponent_lt {m m' : Nat} {e e' : Int} (hm : m < 2 * hiddenBit)
    (he : leastExponent ≤ e) (hm' : hiddenBit ≤ m') (hlt : e < e') :
    magnitude m e < magnitude m' e' := by
  have hsplit : raise 2 (e' - leastExponent) = raise 2 (e - leastExponent) * raise 2 (e' - e) := by
    rw [← raise_add 2 (by omega) (by omega)]
    congr 1
    omega
  have htwo : 2 ≤ raise 2 (e' - e) := by
    have hraise : raise 2 (e' - e) = raise 2 1 * raise 2 (e' - e - 1) := by
      rw [← raise_add 2 (by omega) (by omega)]
      congr 1
      omega
    rw [hraise]
    exact Nat.le_mul_of_pos_right _ (raise_pos (by decide) _)
  rw [magnitude, magnitude]
  calc m * raise 2 (e - leastExponent) < 2 * hiddenBit * raise 2 (e - leastExponent) :=
        Nat.mul_lt_mul_of_pos_right hm (raise_pos (by decide) _)
    _ = hiddenBit * (raise 2 (e - leastExponent) * 2) := by
        rw [Nat.mul_comm 2, Nat.mul_assoc, Nat.mul_comm 2]
    _ ≤ m' * (raise 2 (e - leastExponent) * raise 2 (e' - e)) :=
        Nat.mul_le_mul hm' (Nat.mul_le_mul_left _ htwo)
    _ = m' * raise 2 (e' - leastExponent) := by rw [hsplit]

private theorem magnitude_lt_magnitude {m m' : Nat} (hlt : m < m') (e : Int) :
    magnitude m e < magnitude m' e := by
  rw [magnitude, magnitude]
  exact Nat.mul_lt_mul_of_pos_right hlt (raise_pos (by decide) _)

theorem magnitude_lt_overflow {m : Nat} {e : Int} (hm : m < 2 * hiddenBit)
    (he : leastExponent ≤ e) (he' : e ≤ 971) : magnitude m e < overflow :=
  magnitude_lt_of_exponent_lt hm he (Nat.le_refl _) (by omega)

theorem overflow_le_magnitude {m : Nat} {e : Int} (hm : hiddenBit ≤ m) (he : 972 ≤ e) :
    overflow ≤ magnitude m e := by
  obtain rfl | hlt := Int.le_iff_eq_or_lt.mp he
  · obtain rfl | hm' := Nat.eq_or_lt_of_le hm
    · exact Nat.le_refl _
    · exact (magnitude_lt_magnitude hm' 972).le
  · exact (magnitude_lt_of_exponent_lt (by decide) (by decide) hm hlt).le

theorem overflow_pos : 0 < overflow := magnitude_pos (by decide)

private theorem compare_magnitude {m m' : Nat} {e e' : Int} {n n' : Bool}
    (h : (Binary64.finite n m e).Canonical) (h' : (Binary64.finite n' m' e').Canonical) :
    compare (magnitude m e) (magnitude m' e') = (compare e e').then (compare m m') := by
  obtain ⟨hm, he, -, hfilled⟩ := h
  obtain ⟨hm', he', -, hfilled'⟩ := h'
  rcases lt_trichotomy e e' with hlt | rfl | hlt
  · rw [compare_lt_iff_lt.mpr hlt]
    exact compare_lt_iff_lt.mpr
      (magnitude_lt_of_exponent_lt hm he (hfilled'.resolve_right (by omega)) hlt)
  · rw [compare_eq_iff_eq.mpr (rfl : e = e)]
    rcases lt_trichotomy m m' with hlt | rfl | hlt
    · rw [compare_lt_iff_lt.mpr hlt]
      exact compare_lt_iff_lt.mpr (magnitude_lt_magnitude hlt e)
    · simp
    · rw [compare_gt_iff_gt.mpr hlt]
      exact compare_gt_iff_gt.mpr (magnitude_lt_magnitude hlt e)
  · rw [compare_gt_iff_gt.mpr hlt]
    exact compare_gt_iff_gt.mpr
      (magnitude_lt_of_exponent_lt hm' he' (hfilled.resolve_right (by omega)) hlt)

private theorem compare_infinities (s s' : Sign) :
    compare s s' = compare (signed (isNegative s) overflow) (signed (isNegative s') overflow) := by
  have hpos := overflow_pos
  cases s <;> cases s' <;> symm
  case negative.negative | positive.positive => exact compare_eq_iff_eq.mpr rfl
  case negative.positive => exact compare_lt_iff_lt.mpr (by simp [isNegative]; omega)
  case positive.negative => exact compare_gt_iff_gt.mpr (by simp [isNegative]; omega)

/-- The order of doubles is the order of their values. -/
private theorem compare_units {u w : UnpackedFloat} (hu : (ofUnpacked u).Canonical)
    (hw : (ofUnpacked w).Canonical) (hu' : u.isNaN = false) (hw' : w.isNaN = false) :
    u.compare w = some (compare (ofUnpacked u).units (ofUnpacked w).units) := by
  have hover := overflow_pos
  have hbounds : ∀ {s m e} (hm : 0 < m), (ofUnpacked (.finite s m e hm)).Canonical →
      0 < magnitude m e ∧ magnitude m e < overflow :=
    fun hm h => ⟨magnitude_pos hm, magnitude_lt_overflow h.1 h.2.1 h.2.2.1⟩
  rcases u with s | _ | s | ⟨s, m, e, hm⟩ <;> rcases w with s' | _ | s' | ⟨s', m', e', hm'⟩
  case finite.finite =>
    have hsame := compare_magnitude hu hw
    have := hbounds hm hu
    have := hbounds hm' hw
    cases s <;> cases s' <;> refine congrArg some (Eq.symm ?_)
    case negative.negative => exact compare_signed hsame true
    case positive.positive => exact compare_signed hsame false
    all_goals
      simp [ofUnpacked, isNegative, units, compare_lt_iff_lt, compare_gt_iff_gt]
      omega
  case infinity.infinity => exact congrArg some (compare_infinities s s')
  case finite.infinity | finite.zero =>
    have := hbounds hm hu
    cases s <;> cases s' <;> refine congrArg some (Eq.symm ?_) <;>
      simp [ofUnpacked, isNegative, units, magnitude_zero, compare_lt_iff_lt, compare_gt_iff_gt] <;>
      omega
  case infinity.finite | zero.finite =>
    have := hbounds hm' hw
    cases s <;> cases s' <;> refine congrArg some (Eq.symm ?_) <;>
      simp [ofUnpacked, isNegative, units, magnitude_zero, compare_lt_iff_lt, compare_gt_iff_gt] <;>
      omega
  case infinity.zero | zero.infinity | zero.zero =>
    cases s <;> cases s' <;> refine congrArg some (Eq.symm ?_) <;>
      simp [ofUnpacked, isNegative, units, magnitude_zero, compare_lt_iff_lt, compare_gt_iff_gt,
        hover]
  all_goals contradiction

@[simp] theorem isNegative_neg (s : Sign) : isNegative (-s) = !isNegative s := by
  cases s <;> rfl

private theorem canonical_neg {u : UnpackedFloat} (h : (ofUnpacked u).Canonical) :
    (ofUnpacked u.neg).Canonical := by
  cases u <;> exact h

private theorem units_neg (u : UnpackedFloat) :
    (ofUnpacked u.neg).units = -(ofUnpacked u).units := by
  cases u <;> simp [UnpackedFloat.neg, ofUnpacked, units]

private theorem isNaN_neg (u : UnpackedFloat) : u.neg.isNaN = u.isNaN := by
  cases u <;> rfl

private theorem unpack_packComponents_neg (s : Sign) {e : BitVec 11} {m : BitVec 52}
    (h : e = -1#11 → m = 0#52) :
    UnpackedFloat.unpack .binary64 (packComponents .binary64 (-s) e m) =
      (UnpackedFloat.unpack .binary64 (packComponents .binary64 s e m)).neg := by
  rw [unpack_packComponents, unpack_packComponents]
  split
  next hfull =>
    rw [if_pos (h hfull), if_pos (h hfull)]
    rfl
  next =>
    split
    · split <;> rfl
    · rfl

private theorem stored_neg (u : UnpackedFloat) : stored u.neg = (stored u).neg := by
  cases u with
  | notANumber => rfl
  | infinity s | zero s => cases s <;> rfl
  | finite s m e hm =>
    simp only [stored, UnpackedFloat.neg, UnpackedFloat.pack, UnpackedFloat.packedInfinity]
    split
    · exact unpack_packComponents_neg s fun _ => rfl
    next hlarge =>
    split
    · refine unpack_packComponents_neg s fun hfull => absurd ?_ hlarge
      have htop := congrArg BitVec.toNat hfull
      simp at htop
      omega
    · exact unpack_packComponents_neg s fun hfull => absurd hfull (by decide)

private theorem round_neg (s : Sign) (m : Nat) (e : Int) :
    UnpackedFloat.round .binary64 (-s) m e = (UnpackedFloat.round .binary64 s m e).neg := by
  simp only [UnpackedFloat.round, UnpackedFloat.roundWithAccuracy]
  split <;> rfl

private theorem normalize_neg {n : Int} (hn : n ≠ 0) (e : Int) (s : Sign) :
    UnpackedFloat.normalize .binary64 (-n) e s = (UnpackedFloat.normalize .binary64 n e s).neg := by
  rcases lt_or_gt_of_ne hn with h | h
  · have h' : (-n) > 0 := by omega
    simp only [UnpackedFloat.normalize, compare_lt_iff_lt.mpr h, compare_gt_iff_gt.mpr h']
    exact round_neg .negative _ e
  · have h' : -n < 0 := by omega
    simp only [UnpackedFloat.normalize, compare_gt_iff_gt.mpr h, compare_lt_iff_lt.mpr h',
      Int.neg_neg]
    exact round_neg .positive _ e

/-- A difference taken the other way round is the opposite one, or both are zero. -/
private theorem sub_comm_neg (u w : UnpackedFloat) :
    UnpackedFloat.sub .binary64 w u = (UnpackedFloat.sub .binary64 u w).neg ∨
      ∃ s s', UnpackedFloat.sub .binary64 u w = .zero s ∧
        UnpackedFloat.sub .binary64 w u = .zero s' := by
  rcases u with s | _ | s | ⟨s, m, e, hm⟩ <;> rcases w with s' | _ | s' | ⟨s', m', e', hm'⟩
  case finite.finite =>
    -- Both differences are taken at the smaller exponent, so the integers are opposites.
    simp only [UnpackedFloat.sub, min_comm e' e]
    generalize s.apply _ = x, s'.apply _ = y
    by_cases hzero : x - y = 0
    · refine .inr ⟨.positive, .positive, ?_, ?_⟩
      · rw [hzero]
        rfl
      · rw [← Int.neg_sub, hzero]
        rfl
    · rw [← Int.neg_sub]
      exact .inl (normalize_neg hzero _ _)
  case zero.zero => cases s <;> cases s' <;> exact .inr ⟨_, _, rfl, rfl⟩
  case infinity.infinity | infinity.zero | infinity.finite | zero.infinity | zero.finite
      | finite.infinity | finite.zero => cases s <;> cases s' <;> exact .inl rfl
  all_goals exact .inl rfl

end Binary64

/-- The value of a double as a multiple of the least positive one. -/
def units (v : Float) : Int := (Binary64.ofFloat v).units

theorem units_eq (v : Float) : units v = (Binary64.ofUnpacked v.toModel.unpack).units := by
  rw [units, Binary64.ofFloat_eq]

theorem isNaN_eq (v : Float) : v.isNaN = v.toModel.unpack.isNaN := rfl

private theorem unpack_sub (a b : Float) : (a - b).toModel.unpack =
    Binary64.stored (.sub .binary64 a.toModel.unpack b.toModel.unpack) := rfl

theorem canonical_unpack (v : Float) : (Binary64.ofUnpacked v.toModel.unpack).Canonical := by
  rw [← Binary64.ofFloat_eq]
  exact Binary64.canonical_ofFloat v

section Order

variable {a b : Float}

private theorem compare_unpack (ha : a.isNaN = false) (hb : b.isNaN = false) :
    a.toModel.unpack.compare b.toModel.unpack = some (compare (units a) (units b)) := by
  rw [units_eq, units_eq]
  exact Binary64.compare_units (canonical_unpack a) (canonical_unpack b) ha hb

theorem lt_iff_units (ha : a.isNaN = false) (hb : b.isNaN = false) :
    a < b ↔ units a < units b := by
  have h : a < b ↔ a.toModel.unpack.compare b.toModel.unpack = some .lt := by
    simp [LT.lt, Float.lt, Float.Model.lt, UnpackedFloat.lt]
  rw [h, compare_unpack ha hb, Option.some_inj, compare_lt_iff_lt]

theorem le_iff_units (ha : a.isNaN = false) (hb : b.isNaN = false) :
    a ≤ b ↔ units a ≤ units b := by
  have h : a ≤ b ↔ (a.toModel.unpack.compare b.toModel.unpack).any (·.isLE) = true := by
    simp only [LE.le, Float.le, Float.Model.le, UnpackedFloat.le]
    exact decide_eq_true_iff
  rw [h, compare_unpack ha hb, Option.any_some, Ordering.isLE_iff_ne_gt, ← ne_eq,
    compare_le_iff_le]

theorem beq_iff_units (ha : a.isNaN = false) (hb : b.isNaN = false) :
    (a == b) = true ↔ units a = units b := by
  have h : (a == b) = (a.toModel.unpack.compare b.toModel.unpack == some .eq) := rfl
  rw [h, compare_unpack ha hb, beq_iff_eq, Option.some_inj, compare_eq_iff_eq]

end Order

private theorem unpack_neg (v : Float) : (-v).toModel.unpack = v.toModel.unpack.neg :=
  Binary64.stored_of_canonical (Binary64.canonical_neg (canonical_unpack v))

theorem units_neg (v : Float) : units (-v) = -units v := by
  rw [units_eq, units_eq, unpack_neg, Binary64.units_neg]

theorem isNaN_neg (v : Float) : (-v).isNaN = v.isNaN := by
  rw [isNaN_eq, isNaN_eq, unpack_neg, Binary64.isNaN_neg]

theorem units_sub_comm (a b : Float) : units (b - a) = -units (a - b) := by
  rw [units_eq, units_eq, unpack_sub, unpack_sub]
  obtain hneg | ⟨s, s', hzero, hzero'⟩ := Binary64.sub_comm_neg a.toModel.unpack b.toModel.unpack
  · rw [hneg, Binary64.stored_neg, Binary64.units_neg]
  · rw [hzero, hzero', Binary64.stored_zero, Binary64.stored_zero]
    simp [Binary64.ofUnpacked, Binary64.units, Binary64.magnitude_zero]

theorem isNaN_sub_comm (a b : Float) : (b - a).isNaN = (a - b).isNaN := by
  rw [isNaN_eq, isNaN_eq, unpack_sub, unpack_sub]
  obtain hneg | ⟨s, s', hzero, hzero'⟩ := Binary64.sub_comm_neg a.toModel.unpack b.toModel.unpack
  · rw [hneg, Binary64.stored_neg, Binary64.isNaN_neg]
  · rw [hzero, hzero', Binary64.stored_zero, Binary64.stored_zero]
    rfl

end DrawingBugs.Number
