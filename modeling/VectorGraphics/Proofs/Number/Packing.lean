import Mathlib
import VectorGraphics.Number.Binary

/-!
# Packed and unpacked numbers

An unpacked number is canonical in a format if its mantissa is as long as the format allows, or
its exponent as small. Unpacking yields a canonical number (`canonical_unpack`), and a canonical
number with an exponent that fits survives packing (`unpack_pack`), while one with a larger
exponent becomes infinite (`unpack_pack_of_overflow`).
-/

namespace VectorGraphics.Packing

open Float.Model.UnpackedFloat
open Float.Model (UnpackedFloat)

variable {f : Float.Model.Format}

/-- The largest exponent of a finite number of the format. -/
def maxExponent (f : Float.Model.Format) : ℤ := 2 ^ (f.exponentBits - 1) - f.mantissaBits

/-- The mantissa fits the format, and is short only at the smallest exponent. -/
def Canonical (f : Float.Model.Format) : UnpackedFloat → Prop
  | .finite _ m e _ =>
    m < 2 ^ f.mantissaBits ∧ f.minExponent ≤ e
      ∧ (2 ^ f.mantissaBitsWithoutImplicit ≤ m ∨ e = f.minExponent)
  | _ => True

/-- The exponent of a finite number does not exceed the largest one. -/
def Fits (f : Float.Model.Format) : UnpackedFloat → Prop
  | .finite _ _ e _ => e ≤ maxExponent f
  | _ => True

/-! ## The fields of a packed number -/

theorem ofBitVec_toBitVec (s : Sign) : Sign.ofBitVec s.toBitVec = s := by
  cases s <;> rfl

theorem unpackSign_packComponents (s : Sign) (e : BitVec f.exponentBits)
    (m : BitVec f.mantissaBitsWithoutImplicit) :
    unpackSign (packComponents f s e m) = s.toBitVec := by
  simp only [unpackSign, packComponents, BitVec.extractLsb]
  rw [BitVec.extractLsb'_append_eq_of_le (by omega),
    BitVec.extractLsb'_append_eq_of_le (by omega)]
  ext i hi
  obtain rfl : i = 0 := by omega
  simp

/-- Half the number of stored exponents is a power of two. -/
theorem two_pow_exponentBits (f : Float.Model.Format) :
    2 ^ f.exponentBits = 2 * 2 ^ (f.exponentBits - 1) := by
  have := f.he
  rw [← Nat.pow_succ']
  congr 1
  omega

theorem exponentBias_cast (f : Float.Model.Format) :
    (f.exponentBias : ℤ) = 2 ^ (f.exponentBits - 1) - 1 := by
  have := Nat.two_pow_pos (f.exponentBits - 1)
  rw [Float.Model.Format.exponentBias]
  push_cast [Nat.cast_sub (Nat.one_le_two_pow : 1 ≤ 2 ^ (f.exponentBits - 1))]
  rfl

theorem minExponent_eq (f : Float.Model.Format) :
    f.minExponent = 1 - f.exponentBias - f.mantissaBitsWithoutImplicit := by
  rw [exponentBias_cast, Float.Model.Format.minExponent, Float.Model.Format.mantissaBits]
  push_cast
  ring

theorem maxExponent_eq (f : Float.Model.Format) :
    maxExponent f = f.exponentBias - f.mantissaBitsWithoutImplicit := by
  rw [exponentBias_cast, maxExponent, Float.Model.Format.mantissaBits]
  push_cast
  ring

theorem two_pow_exponentBits_eq_bias (f : Float.Model.Format) :
    (2 ^ f.exponentBits : ℕ) = 2 * f.exponentBias + 2 := by
  have := Nat.one_le_two_pow (n := f.exponentBits - 1)
  rw [two_pow_exponentBits, Float.Model.Format.exponentBias]
  omega

/-- The stored exponent of an infinity or NaN. -/
theorem toNat_neg_one (f : Float.Model.Format) :
    (-1#f.exponentBits).toNat = 2 * f.exponentBias + 1 := by
  rw [BitVec.neg_one_eq_allOnes, BitVec.toNat_allOnes, two_pow_exponentBits_eq_bias]
  omega

/-- The mantissa with its implicit bit. -/
theorem toNat_implicit_append {w : ℕ} (m : BitVec w) : (1#1 ++ m).toNat = 2 ^ w + m.toNat := by
  rw [BitVec.toNat_append, ← Nat.shiftLeft_add_eq_or_of_lt m.isLt]
  simp [Nat.shiftLeft_eq]

theorem unpack_packComponents_normal (s : Sign) {e : ℕ} (h₀ : 0 < e)
    (h₁ : e ≤ 2 * f.exponentBias) (m : BitVec f.mantissaBitsWithoutImplicit) :
    unpack f (packComponents f s (BitVec.ofNat _ e) m)
      = .finite s (2 ^ f.mantissaBitsWithoutImplicit + m.toNat)
          (e - (f.exponentBias + f.mantissaBitsWithoutImplicit))
          (by have := Nat.two_pow_pos f.mantissaBitsWithoutImplicit; omega) := by
  have he : (BitVec.ofNat f.exponentBits e).toNat = e := by
    rw [BitVec.toNat_ofNat, Nat.mod_eq_of_lt]
    rw [two_pow_exponentBits_eq_bias]
    omega
  have hinf : BitVec.ofNat f.exponentBits e ≠ -1#f.exponentBits := fun h => by
    have h := congrArg BitVec.toNat h
    rw [he, toNat_neg_one] at h
    omega
  have hzero : BitVec.ofNat f.exponentBits e ≠ 0#f.exponentBits := fun h => by
    have h := congrArg BitVec.toNat h
    rw [he, BitVec.toNat_zero] at h
    omega
  simp only [unpack, unpackMantissa_packComponents, unpackExponent_packComponents,
    unpackSign_packComponents, ofBitVec_toBitVec, if_neg hinf, if_neg hzero, he,
    toNat_implicit_append]

theorem zero_ne_neg_one (f : Float.Model.Format) :
    (0#f.exponentBits) ≠ -1#f.exponentBits := fun h => by
  have h := congrArg BitVec.toNat h
  rw [toNat_neg_one, BitVec.toNat_zero] at h
  omega

theorem unpack_packComponents_subnormal (s : Sign) {m : ℕ} (h₀ : 0 < m)
    (h₁ : m < 2 ^ f.mantissaBitsWithoutImplicit) :
    unpack f (packComponents f s 0#_ (BitVec.ofNat _ m)) = .finite s m f.minExponent h₀ := by
  have hm : (BitVec.ofNat f.mantissaBitsWithoutImplicit m).toNat = m := by
    rw [BitVec.toNat_ofNat, Nat.mod_eq_of_lt h₁]
  have hzero : BitVec.ofNat f.mantissaBitsWithoutImplicit m ≠ 0#_ := fun h => by
    have h := congrArg BitVec.toNat h
    rw [hm, BitVec.toNat_zero] at h
    omega
  simp only [unpack, unpackMantissa_packComponents, unpackExponent_packComponents,
    unpackSign_packComponents, ofBitVec_toBitVec, if_neg (zero_ne_neg_one f), dif_neg hzero, hm,
    if_true, BitVec.toNat_zero]
  congr 1
  rw [minExponent_eq]
  push_cast
  ring

/-! ## Packing and unpacking -/

theorem log2_eq_of_normal {m : ℕ} (h₀ : 2 ^ f.mantissaBitsWithoutImplicit ≤ m)
    (h₁ : m < 2 ^ f.mantissaBits) : m.log2 + 1 = f.mantissaBits := by
  have hm : m ≠ 0 := by have := Nat.two_pow_pos f.mantissaBitsWithoutImplicit; omega
  have hlow := (Nat.le_log2 hm).2 h₀
  have hhigh := (Nat.log2_lt hm).2 h₁
  rw [Float.Model.Format.mantissaBits] at *
  omega

/-- A canonical number with an exponent that fits survives packing. -/
theorem unpack_pack {u : UnpackedFloat} (hc : Canonical f u) (hf : Fits f u) :
    unpack f (pack f u) = u := by
  cases u with
  | notANumber =>
    have hne : (1#f.mantissaBitsWithoutImplicit <<< (f.mantissaBitsWithoutImplicit - 1)) ≠ 0#_ :=
      fun h => by
        have h := congrArg BitVec.toNat h
        have hlt := Nat.pow_lt_pow_right (a := 2) (by omega)
          (show f.mantissaBitsWithoutImplicit - 1 < f.mantissaBitsWithoutImplicit by
            have := f.hm; omega)
        have hone : 1 < 2 ^ f.mantissaBitsWithoutImplicit := Nat.one_lt_two_pow (by
          have := f.hm; omega)
        rw [BitVec.toNat_shiftLeft, BitVec.toNat_ofNat, Nat.mod_eq_of_lt hone, Nat.shiftLeft_eq,
          Nat.one_mul, Nat.mod_eq_of_lt hlt, BitVec.toNat_zero] at h
        have := Nat.two_pow_pos (f.mantissaBitsWithoutImplicit - 1)
        omega
    simp only [pack, packedNaN, unpack, unpackMantissa_packComponents,
      unpackExponent_packComponents, if_true, if_neg hne]
  | infinity s =>
    simp [pack, packedInfinity, unpack]
  | zero s =>
    simp [pack, packedZero, unpack, zero_ne_neg_one f]
  | finite s m e hm =>
    obtain ⟨hlt, hmin, hnormal⟩ := hc
    rw [Fits, maxExponent_eq] at hf
    rw [minExponent_eq] at hmin
    have hbias : ¬2 ^ f.exponentBits
        ≤ (e + f.exponentBias + f.mantissaBitsWithoutImplicit).toNat + 1 := by
      rw [two_pow_exponentBits_eq_bias]
      omega
    simp only [pack, if_neg hbias]
    by_cases hlow : 2 ^ f.mantissaBitsWithoutImplicit ≤ m
    · rw [if_pos (log2_eq_of_normal hlow hlt), unpack_packComponents_normal s (by omega) (by omega)]
      have hmod : 2 ^ f.mantissaBitsWithoutImplicit
          + (BitVec.ofNat f.mantissaBitsWithoutImplicit m).toNat = m := by
        rw [Float.Model.Format.mantissaBits, Nat.pow_add, Nat.pow_one] at hlt
        rw [BitVec.toNat_ofNat, Nat.mod_eq_sub_mod hlow, Nat.mod_eq_of_lt (by omega)]
        omega
      congr 1
      omega
    · have hlog : ¬m.log2 + 1 = f.mantissaBits := by
        have := (Nat.log2_lt hm.ne').2 (Nat.lt_of_not_le hlow)
        rw [Float.Model.Format.mantissaBits]
        omega
      rw [if_neg hlog, unpack_packComponents_subnormal s hm (Nat.lt_of_not_le hlow)]
      congr 1
      exact (hnormal.resolve_left hlow).symm

/-- A number with too large an exponent is packed as an infinity. -/
theorem unpack_pack_of_overflow {s : Sign} {m : ℕ} {e : ℤ} (hm : 0 < m)
    (h : maxExponent f < e) : unpack f (pack f (.finite s m e hm)) = .infinity s := by
  rw [maxExponent_eq] at h
  have hbias : 2 ^ f.exponentBits
      ≤ (e + f.exponentBias + f.mantissaBitsWithoutImplicit).toNat + 1 := by
    rw [two_pow_exponentBits_eq_bias]
    omega
  simp [pack, if_pos hbias, packedInfinity, unpack]

/-- Every unpacked number is canonical, and its exponent fits. -/
theorem canonical_unpack (hb : 0 < f.exponentBias) (b : BitVec f.numBits) :
    Canonical f (unpack f b) ∧ Fits f (unpack f b) := by
  have hm := (unpackMantissa b).isLt
  have he := (unpackExponent b).isLt
  rw [two_pow_exponentBits_eq_bias] at he
  simp only [unpack]
  split
  · split <;> exact ⟨trivial, trivial⟩
  · next hinf =>
    have hinf : (unpackExponent b).toNat ≠ 2 * f.exponentBias + 1 := fun h =>
      hinf (BitVec.eq_of_toNat_eq (h.trans (toNat_neg_one f).symm))
    split
    · next hzero =>
      split
      · exact ⟨trivial, trivial⟩
      · have he₀ : (unpackExponent b).toNat = 0 := by rw [hzero, BitVec.toNat_zero]
        have hmin : ((unpackExponent b).toNat : ℤ)
            - (f.exponentBias + f.mantissaBitsWithoutImplicit) + 1 = f.minExponent := by
          rw [minExponent_eq, he₀]
          push_cast
          ring
        refine ⟨⟨?_, hmin.ge, .inr hmin⟩, ?_⟩
        · rw [Float.Model.Format.mantissaBits, Nat.pow_add]
          omega
        · rw [Fits, maxExponent_eq, he₀]
          omega
    · next hzero =>
      have hzero : (unpackExponent b).toNat ≠ 0 := fun h =>
        hzero (BitVec.eq_of_toNat_eq (h.trans BitVec.toNat_zero.symm))
      refine ⟨⟨?_, ?_, .inl ?_⟩, ?_⟩
      · rw [toNat_implicit_append, Float.Model.Format.mantissaBits, Nat.pow_add]
        omega
      · rw [minExponent_eq]
        omega
      · rw [toNat_implicit_append]
        omega
      · rw [Fits, maxExponent_eq]
        omega

end VectorGraphics.Packing
