import DrawingBugs.Number.Binary64
import Mathlib

/-!
# Doubles and the words that hold them

A word of 64 bits has fields for a sign, an exponent and a mantissa. Read as a double it stands for
what the fields say, and a double whose mantissa fits comes back from the word that it is packed
into, unless its exponent is too large.
-/

namespace DrawingBugs.Number

open Float.Model (UnpackedFloat Format totalExponent)
open Float.Model.UnpackedFloat (Sign unpackMantissa unpackExponent unpackSign packComponents
  unpackMantissa_packComponents unpackExponent_packComponents unpackSign_packComponents)

namespace Binary64

/-- A word of 64 bits. -/
abbrev Word := BitVec Format.binary64.numBits

/-- What a word of 64 bits stands for. -/
def ofBits (bits : Nat) : Binary64 :=
  let negative := decide (signBit ≤ bits)
  let field := bits / hiddenBit % 2048
  let fraction := bits % hiddenBit
  if field = 2047 then
    if fraction = 0 then .infinite negative else .notANumber
  else if field = 0 then .finite negative fraction leastExponent
  else .finite negative (hiddenBit + fraction) (field - 1075)

private theorem ofFloat_eq_ofBits (v : Float) : ofFloat v = ofBits v.toBits.toNat := rfl

def isNegative : Sign → Bool
  | .negative => true
  | .positive => false

/-- What an unpacked double stands for. -/
def ofUnpacked : UnpackedFloat → Binary64
  | .infinity s => .infinite (isNegative s)
  | .notANumber => .notANumber
  | .zero s => .finite (isNegative s) 0 leastExponent
  | .finite s m e _ => .finite (isNegative s) m e

private theorem toNat_unpackMantissa (b : Word) :
    (unpackMantissa b).toNat = b.toNat % hiddenBit := by
  simp [unpackMantissa, hiddenBit]

private theorem toNat_unpackExponent (b : Word) :
    (unpackExponent b).toNat = b.toNat / hiddenBit % 2048 := by
  simp [unpackExponent, Nat.shiftRight_eq_div_pow, hiddenBit]

private theorem isNegative_unpackSign (b : Word) :
    isNegative (Sign.ofBitVec (unpackSign b)) = decide (signBit ≤ b.toNat) := by
  have hb : b.toNat < 2 ^ 64 := b.isLt
  have hsign : (unpackSign b).toNat = b.toNat / 2 ^ 63 % 2 := by
    simp [unpackSign, Nat.shiftRight_eq_div_pow]
  have hzero : unpackSign b = 0#1 ↔ ¬ signBit ≤ b.toNat := by
    rw [← BitVec.toNat_inj, hsign, BitVec.toNat_zero, signBit]
    omega
  by_cases h : signBit ≤ b.toNat <;> simp [Sign.ofBitVec, hzero, h, isNegative]

private theorem toNat_hiddenBit_append (m : BitVec 52) :
    (1#1 ++ m).toNat = hiddenBit + m.toNat := by
  rw [BitVec.toNat_append, ← Nat.shiftLeft_add_eq_or_of_lt m.isLt]
  rfl

private theorem exponentBias_eq : Format.binary64.exponentBias = 1023 := rfl

theorem ofUnpacked_unpack (b : Word) :
    ofUnpacked (UnpackedFloat.unpack .binary64 b) = ofBits b.toNat := by
  have hfull : unpackExponent b = -1#_ ↔ b.toNat / hiddenBit % 2048 = 2047 := by
    rw [← BitVec.toNat_inj, toNat_unpackExponent]
    rfl
  have hnone : unpackExponent b = 0#_ ↔ b.toNat / hiddenBit % 2048 = 0 := by
    rw [← BitVec.toNat_inj, toNat_unpackExponent]
    rfl
  have hempty : unpackMantissa b = 0#_ ↔ b.toNat % hiddenBit = 0 := by
    rw [← BitVec.toNat_inj, toNat_unpackMantissa]
    rfl
  simp only [UnpackedFloat.unpack, ofBits, hfull, hnone]
  split
  · simp only [hempty]
    split <;> simp [ofUnpacked, isNegative_unpackSign]
  split
  · next hzero =>
    split
    · next h => simp [ofUnpacked, isNegative_unpackSign, hempty.mp h]
    · simp [ofUnpacked, isNegative_unpackSign, toNat_unpackMantissa, toNat_unpackExponent, hzero,
        exponentBias_eq, leastExponent]
  · simp [ofUnpacked, isNegative_unpackSign, toNat_hiddenBit_append, toNat_unpackMantissa,
      toNat_unpackExponent, exponentBias_eq]

theorem ofFloat_eq (v : Float) : ofFloat v = ofUnpacked v.toModel.unpack := by
  rw [ofFloat_eq_ofBits]
  exact (ofUnpacked_unpack v.toModel.toBits.toBitVec).symm

/-- A finite double has its mantissa filled up, unless its exponent is the least one. -/
def Canonical : Binary64 → Prop
  | .finite _ m e =>
    m < 2 * hiddenBit ∧ leastExponent ≤ e ∧ e ≤ 971 ∧ (hiddenBit ≤ m ∨ e = leastExponent)
  | _ => True

theorem canonical_ofBits (bits : Nat) : (ofBits bits).Canonical := by
  simp only [ofBits]
  split
  · split <;> trivial
  next hfull =>
  split
  · exact ⟨by simp only [hiddenBit]; omega, by decide, by decide, .inr rfl⟩
  · next hnone =>
    have hfield : bits / hiddenBit % 2048 < 2048 := Nat.mod_lt _ (by decide)
    have hfraction : bits % hiddenBit < hiddenBit := Nat.mod_lt _ (by decide)
    exact ⟨by omega, by simp only [leastExponent]; omega, by omega, .inl (Nat.le_add_right _ _)⟩

theorem canonical_ofFloat (v : Float) : (ofFloat v).Canonical := by
  rw [ofFloat_eq_ofBits]
  exact canonical_ofBits _

/-- What stands in the fields of a word is what they were set to. -/
theorem unpack_packComponents (s : Sign) (e : BitVec 11) (m : BitVec 52) :
    UnpackedFloat.unpack .binary64 (packComponents .binary64 s e m) =
      if e = -1#11 then if m = 0#52 then .infinity s else .notANumber
      else if e = 0#11 then
        if h : m = 0#52 then .zero s
        else .finite s m.toNat leastExponent
          (Nat.pos_of_ne_zero fun hzero => h (BitVec.eq_of_toNat_eq hzero))
      else .finite s (hiddenBit + m.toNat) (e.toNat - 1075) (by simp only [hiddenBit]; omega) := by
  simp only [UnpackedFloat.unpack, unpackExponent_packComponents, unpackMantissa_packComponents,
    unpackSign_packComponents, Sign.ofBitVec_toBitVec]
  split
  · rfl
  split
  · next h =>
    split
    · rfl
    · simp [h, exponentBias_eq, leastExponent]
  · simp [toNat_hiddenBit_append, exponentBias_eq]

theorem log2_of_hiddenBit_le {m : Nat} (h : hiddenBit ≤ m) (hm : m < 2 * hiddenBit) : m.log2 = 52 :=
  (Nat.log2_eq_iff (by simp only [hiddenBit] at h; omega)).mpr
    ⟨by simpa [hiddenBit] using h, by simpa [hiddenBit] using hm⟩

theorem log2_lt_of_lt_hiddenBit {m : Nat} (hm : m < hiddenBit) : m.log2 < 52 := by
  by_cases h : m = 0
  · simp [h]
  · exact (Nat.log2_lt h).mpr (by simpa [hiddenBit] using hm)

/-- A finite double whose mantissa fits and is filled up, unless its exponent is the least one. Its
exponent may be too large for a word. -/
def Fitted (m : Nat) (e : Int) : Prop :=
  m < 2 * hiddenBit ∧ leastExponent ≤ e ∧ (hiddenBit ≤ m ∨ e = leastExponent)

private theorem pack_finite {s : Sign} {m : Nat} {e : Int} (hm : 0 < m) (h : Fitted m e) :
    UnpackedFloat.pack .binary64 (.finite s m e hm) =
      if 972 ≤ e then packComponents .binary64 s (-1#11) 0#52
      else if hiddenBit ≤ m then
        packComponents .binary64 s (BitVec.ofNat 11 (e + 1075).toNat) (BitVec.ofNat 52 m)
      else packComponents .binary64 s 0#11 (BitVec.ofNat 52 m) := by
  obtain ⟨hless, hleast, hfilled⟩ := h
  have hfull : 2 ^ 11 ≤ (e + 1075).toNat + 1 ↔ 972 ≤ e := by omega
  have hnormal : m.log2 + 1 = 53 ↔ hiddenBit ≤ m := by
    constructor
    · intro h
      by_contra hlt
      have := log2_lt_of_lt_hiddenBit (Nat.lt_of_not_le hlt)
      omega
    · intro h
      rw [log2_of_hiddenBit_le h hless]
  have hbits : Format.binary64.mantissaBits = 53 := rfl
  have hsum : e + (Format.binary64.exponentBias : Int) + (52 : Nat) = e + 1075 := by
    rw [exponentBias_eq]
    omega
  simp only [UnpackedFloat.pack, UnpackedFloat.packedInfinity, hsum, hbits, hfull, hnormal]
  rfl

/-- What is left of a double once it has been packed into a word. -/
def stored (u : UnpackedFloat) : UnpackedFloat :=
  UnpackedFloat.unpack .binary64 (UnpackedFloat.pack .binary64 u)

/-- A word keeps a finite double that fits, or it stands for an infinity. -/
theorem stored_finite {s : Sign} {m : Nat} {e : Int} (hm : 0 < m) (h : Fitted m e) :
    stored (.finite s m e hm) =
      if 972 ≤ e then .infinity s else .finite s m e hm := by
  rw [stored, pack_finite hm h]
  obtain ⟨hless, hleast, hfilled⟩ := h
  simp only [leastExponent, hiddenBit] at hless hleast hfilled
  split
  · simp [unpack_packComponents]
  next hlarge =>
  split
  · next hnormal =>
    have hm' : (BitVec.ofNat 52 m).toNat + hiddenBit = m := by
      simp only [hiddenBit, BitVec.toNat_ofNat] at hnormal ⊢
      omega
    have he' : (BitVec.ofNat 11 (e + 1075).toNat).toNat = (e + 1075).toNat := by
      rw [BitVec.toNat_ofNat]
      omega
    have hfull : BitVec.ofNat 11 (e + 1075).toNat ≠ -1#11 := by
      rw [ne_eq, ← BitVec.toNat_inj, he']
      simp
      omega
    have hnone : BitVec.ofNat 11 (e + 1075).toNat ≠ 0#11 := by
      rw [ne_eq, ← BitVec.toNat_inj, he']
      simp
      omega
    rw [unpack_packComponents, if_neg hfull, if_neg hnone]
    simp only [he', Nat.add_comm hiddenBit, hm']
    congr 1
    omega
  · next hsubnormal =>
    simp only [hiddenBit] at hsubnormal
    have hm' : (BitVec.ofNat 52 m).toNat = m := by
      rw [BitVec.toNat_ofNat]
      omega
    have hnone : BitVec.ofNat 52 m ≠ 0#52 := by
      rw [ne_eq, ← BitVec.toNat_inj, hm']
      simp
      omega
    rw [unpack_packComponents, if_neg (by decide), if_pos rfl, dif_neg hnone]
    simp only [hm', leastExponent]
    congr 1
    omega

private theorem stored_infinity (s : Sign) : stored (.infinity s) = .infinity s := by
  cases s <;> rfl

theorem stored_zero (s : Sign) : stored (.zero s) = .zero s := by
  cases s <;> rfl

theorem stored_of_canonical {u : UnpackedFloat} (h : (ofUnpacked u).Canonical) :
    stored u = u := by
  cases u with
  | infinity s => exact stored_infinity s
  | notANumber => rfl
  | zero s => exact stored_zero s
  | finite s m e hm =>
    obtain ⟨hless, hleast, hmost, hfilled⟩ := h
    rw [stored_finite hm ⟨hless, hleast, hfilled⟩, if_neg (by omega)]

end Binary64
end DrawingBugs.Number
