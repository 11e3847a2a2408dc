import LaserCutter.Proofs.Number.Rounding

/-!
# Packing of floats

What is unpacked from a bit pattern is in canonical form, and a canonical number within the range of
the format is what its own bit pattern unpacks to.
-/

namespace LaserCutter.Number

open Float.Model (Format totalExponent UnpackedFloat)
open Float.Model.UnpackedFloat

variable (spec : Format)

/-- The exponent of the largest numbers of a format. -/
def maxExponent (spec : Format) : ℤ := spec.exponentBias - spec.mantissaBitsWithoutImplicit

def largest (spec : Format) : ℚ := (2 ^ spec.mantissaBits - 1) * 2 ^ maxExponent spec

theorem mantissaBits_eq : spec.mantissaBits = spec.mantissaBitsWithoutImplicit + 1 :=
  Nat.add_comm _ _

theorem two_pow_exponentBits : 2 ^ spec.exponentBits = 2 * spec.exponentBias + 2 := by
  have bits := spec.he
  have positive : 0 < 2 ^ (spec.exponentBits - 1) := by positivity
  have twice : 2 ^ spec.exponentBits = 2 ^ (spec.exponentBits - 1) * 2 := by
    rw [← pow_succ, Nat.sub_add_cancel bits]
  unfold Format.exponentBias
  omega

theorem minExponent_eq :
    spec.minExponent = 1 - spec.exponentBias - spec.mantissaBitsWithoutImplicit := by
  have positive : 1 ≤ 2 ^ (spec.exponentBits - 1) := Nat.one_le_two_pow
  unfold Format.minExponent Format.exponentBias Format.mantissaBits
  push_cast [positive]
  ring

theorem unpackSign_packComponents (s : Sign) (e : BitVec spec.exponentBits)
    (m : BitVec spec.mantissaBitsWithoutImplicit) :
    unpackSign (packComponents spec s e m) = s.toBitVec := by
  refine BitVec.eq_of_getLsbD_eq fun i bound => ?_
  have only : i = 0 := by omega
  subst only
  simp [unpackSign, packComponents, BitVec.getLsbD_append, BitVec.getElem_append]

theorem ofBitVec_toBitVec (s : Sign) : Sign.ofBitVec s.toBitVec = s := by
  cases s <;> rfl

theorem toNat_one_append {n : ℕ} (m : BitVec n) : (1#1 ++ m).toNat = 2 ^ n + m.toNat := by
  rw [BitVec.toNat_append, ← Nat.shiftLeft_add_eq_or_of_lt m.isLt, Nat.shiftLeft_eq]
  simp

theorem allOnes_ne_zero : (-1#_ : BitVec spec.exponentBits) ≠ 0#_ := by
  intro same
  have bits := spec.he
  have counts := congrArg BitVec.toNat same
  have two := two_pow_exponentBits spec
  simp only [BitVec.neg_one_eq_allOnes, BitVec.toNat_allOnes, BitVec.toNat_zero] at counts
  omega

/-- What is unpacked is in canonical form and within the range of the format. -/
theorem canonical_unpack (b : BitVec spec.numBits) : Canonical spec (unpack spec b) := by
  have exponents := two_pow_exponentBits spec
  have least := minExponent_eq spec
  have bits : spec.mantissaBits = spec.mantissaBitsWithoutImplicit + 1 := mantissaBits_eq spec
  have rest := (unpackMantissa b).isLt
  have twice : 2 ^ spec.mantissaBits = 2 * 2 ^ spec.mantissaBitsWithoutImplicit := by
    rw [bits, pow_succ']
  have half : 2 ^ (spec.mantissaBits - 1) = 2 ^ spec.mantissaBitsWithoutImplicit := by
    rw [bits, Nat.add_sub_cancel]
  unfold unpack
  dsimp only
  split
  · split <;> trivial
  · split
    · rename_i zero
      split
      · trivial
      · refine ⟨by omega, ?_, .inr ?_⟩ <;> rw [zero, BitVec.toNat_zero] <;> omega
    · rename_i positive
      have nonzero : (unpackExponent b).toNat ≠ 0 := fun zero =>
        positive (BitVec.eq_of_toNat_eq (by simpa using zero))
      refine ⟨?_, by omega, .inl ?_⟩ <;> rw [toNat_one_append] <;> omega

theorem unpack_packComponents (s : Sign) (e : BitVec spec.exponentBits)
    (m : BitVec spec.mantissaBitsWithoutImplicit) :
    unpack spec (packComponents spec s e m) =
      if e = -1#_ then if m = 0#_ then .infinity s else .notANumber
      else if e = 0#_ then
        if h : m = 0#_ then .zero s
        else .finite s m.toNat spec.minExponent
          (Nat.pos_of_ne_zero fun zero => h (BitVec.eq_of_toNat_eq (by simpa using zero)))
      else .finite s (2 ^ spec.mantissaBitsWithoutImplicit + m.toNat)
        (e.toNat - spec.exponentBias - spec.mantissaBitsWithoutImplicit) (by positivity) := by
  have least := minExponent_eq spec
  unfold unpack
  simp only [unpackMantissa_packComponents, unpackExponent_packComponents,
    unpackSign_packComponents, ofBitVec_toBitVec, toNat_one_append]
  split
  · rfl
  · split
    · rename_i zero
      split
      · rfl
      · congr 1
        rw [zero, BitVec.toNat_zero]
        omega
    · congr 1
      omega

/-- The exponent field of a number that is not subnormal. -/
theorem toNat_exponentField {e : ℤ} (low : spec.minExponent ≤ e) (high : e ≤ maxExponent spec) :
    ((BitVec.ofNat spec.exponentBits
      (e + spec.exponentBias + spec.mantissaBitsWithoutImplicit).toNat).toNat : ℤ) =
        e + spec.exponentBias + spec.mantissaBitsWithoutImplicit := by
  have exponents := two_pow_exponentBits spec
  have least := minExponent_eq spec
  unfold maxExponent at high
  rw [BitVec.toNat_ofNat, Nat.mod_eq_of_lt (by omega)]
  omega

/-- The mantissa field of a normal number leaves out its first bit. -/
theorem toNat_mantissaField {m : ℕ} (normal : 2 ^ spec.mantissaBitsWithoutImplicit ≤ m)
    (room : m < 2 ^ spec.mantissaBits) :
    2 ^ spec.mantissaBitsWithoutImplicit +
      (BitVec.ofNat spec.mantissaBitsWithoutImplicit m).toNat = m := by
  have twice : 2 ^ spec.mantissaBits = 2 * 2 ^ spec.mantissaBitsWithoutImplicit := by
    rw [mantissaBits_eq, pow_succ']
  have rest : m % 2 ^ spec.mantissaBitsWithoutImplicit =
      m - 2 ^ spec.mantissaBitsWithoutImplicit := by
    rw [Nat.mod_eq_sub_mod normal, Nat.mod_eq_of_lt (by omega)]
  rw [BitVec.toNat_ofNat, rest]
  omega

/-- Packing a number within the range of the format takes its first bit as a mark. -/
theorem pack_finite {s : Sign} {m : ℕ} {e : ℤ} {positive : 0 < m} (high : e ≤ maxExponent spec) :
    pack spec (.finite s m e positive) =
      if m.log2 + 1 = spec.mantissaBits then
        packComponents spec s (BitVec.ofNat spec.exponentBits
          (e + spec.exponentBias + spec.mantissaBitsWithoutImplicit).toNat)
          (BitVec.ofNat spec.mantissaBitsWithoutImplicit m)
      else packComponents spec s 0#_ (BitVec.ofNat spec.mantissaBitsWithoutImplicit m) := by
  have exponents := two_pow_exponentBits spec
  have finite : ¬ 2 ^ spec.exponentBits ≤
      (e + spec.exponentBias + spec.mantissaBitsWithoutImplicit).toNat + 1 := by
    unfold maxExponent at high
    omega
  unfold pack
  dsimp only
  rw [if_neg finite]

theorem unpack_pack_normal {s : Sign} {m : ℕ} {e : ℤ} {positive : 0 < m}
    (normal : 2 ^ spec.mantissaBitsWithoutImplicit ≤ m) (room : m < 2 ^ spec.mantissaBits)
    (low : spec.minExponent ≤ e) (high : e ≤ maxExponent spec) :
    unpack spec (pack spec (.finite s m e positive)) = .finite s m e positive := by
  have exponents := two_pow_exponentBits spec
  have least := minExponent_eq spec
  have field := toNat_exponentField spec low high
  have log : m.log2 + 1 = spec.mantissaBits := by
    rw [mantissaBits_eq, (Nat.log2_eq_iff positive.ne').mpr ⟨normal, by rwa [← mantissaBits_eq]⟩]
  rw [pack_finite spec high, if_pos log]
  generalize BitVec.ofNat spec.exponentBits
    (e + spec.exponentBias + spec.mantissaBitsWithoutImplicit).toNat = exponent at field
  have bounded : exponent ≠ -1#_ := by
    rintro rfl
    rw [BitVec.neg_one_eq_allOnes, BitVec.toNat_allOnes] at field
    unfold maxExponent at high
    omega
  have nonzero : exponent ≠ 0#_ := by
    rintro rfl
    rw [BitVec.toNat_zero] at field
    omega
  have mantissa := toNat_mantissaField spec normal room
  rw [unpack_packComponents, if_neg bounded, if_neg nonzero]
  congr 1
  omega

theorem unpack_pack_subnormal {s : Sign} {m : ℕ} {positive : 0 < m}
    (subnormal : m < 2 ^ spec.mantissaBitsWithoutImplicit)
    (high : spec.minExponent ≤ maxExponent spec) :
    unpack spec (pack spec (.finite s m spec.minExponent positive)) =
      .finite s m spec.minExponent positive := by
  have log : ¬ m.log2 + 1 = spec.mantissaBits := by
    have short := (Nat.log2_lt positive.ne').mpr subnormal
    have bits := mantissaBits_eq spec
    omega
  have mantissa : (BitVec.ofNat spec.mantissaBitsWithoutImplicit m).toNat = m := by
    rw [BitVec.toNat_ofNat, Nat.mod_eq_of_lt subnormal]
  have nonzero : BitVec.ofNat spec.mantissaBitsWithoutImplicit m ≠ 0#_ := by
    intro zero
    rw [zero, BitVec.toNat_zero] at mantissa
    omega
  rw [pack_finite spec high, if_neg log, unpack_packComponents, if_neg (allOnes_ne_zero spec).symm,
    if_pos rfl, dif_neg nonzero]
  congr 1

/-- Packing and unpacking gives a canonical number back, if it is within the range of the format. -/
theorem unpack_pack_finite {s : Sign} {m : ℕ} {e : ℤ} {positive : 0 < m}
    (canonical : Canonical spec (.finite s m e positive)) (high : e ≤ maxExponent spec) :
    unpack spec (pack spec (.finite s m e positive)) = .finite s m e positive := by
  obtain ⟨room, low, full⟩ := canonical
  by_cases normal : 2 ^ spec.mantissaBitsWithoutImplicit ≤ m
  · exact unpack_pack_normal spec normal room low high
  · rcases full with full | rfl
    · rw [mantissaBits_eq, Nat.add_sub_cancel] at full
      exact absurd full normal
    · exact unpack_pack_subnormal spec (not_le.mp normal) high

theorem unpack_packedZero (s : Sign) : unpack spec (packedZero spec s) = .zero s := by
  refine (unpack_packComponents spec s 0#_ 0#_).trans ?_
  rw [if_neg (allOnes_ne_zero spec).symm, if_pos rfl, dif_pos rfl]

end LaserCutter.Number
