import LaserCutter.Proofs.Number.Binary64

/-!
# Equal floats

A binary64 number is known by what it is unpacked to. So two numbers that compare equal are the same
one, unless they are zeros of different signs. A product or a quotient has the sign of one side if
the other side is positive, also where it overflows or comes to zero.
-/

namespace LaserCutter.Number

open Float.Model (Format UnpackedFloat)
open Float.Model.UnpackedFloat

section packing

variable {spec : Format}

theorem toBitVec_ofBitVec (b : BitVec 1) : (Sign.ofBitVec b).toBitVec = b := by
  revert b
  decide

/-- A bit pattern is put together from its three fields. -/
theorem packComponents_unpack (b : BitVec spec.numBits) :
    packComponents spec (Sign.ofBitVec (unpackSign b)) (unpackExponent b) (unpackMantissa b) =
      b := by
  rw [packComponents, toBitVec_ofBitVec]
  simp only [unpackSign, unpackExponent, unpackMantissa, BitVec.extractLsb]
  ext i bound
  grind

theorem pack_subnormal (s : Sign) {m : BitVec spec.mantissaBitsWithoutImplicit}
    (positive : 0 < m.toNat) (wide : spec.minExponent ≤ maxExponent spec) :
    pack spec (.finite s m.toNat spec.minExponent positive) = packComponents spec s 0#_ m := by
  have short := (Nat.log2_lt positive.ne').mpr m.isLt
  have bits := mantissaBits_eq spec
  rw [pack_finite spec wide, if_neg (by omega), BitVec.ofNat_toNat, BitVec.setWidth_eq]

theorem pack_normal (s : Sign) {e : BitVec spec.exponentBits}
    {m : BitVec spec.mantissaBitsWithoutImplicit} (bounded : e ≠ -1#_) (_some : e ≠ 0#_) :
    pack spec (.finite s (2 ^ spec.mantissaBitsWithoutImplicit + m.toNat)
      (e.toNat - spec.exponentBias - spec.mantissaBitsWithoutImplicit) (by positivity)) =
        packComponents spec s e m := by
  have exponents := two_pow_exponentBits spec
  have room := e.isLt
  have rest := m.isLt
  have top : e.toNat ≠ 2 ^ spec.exponentBits - 1 := fun same =>
    bounded (BitVec.eq_of_toNat_eq (by simpa [BitVec.neg_one_eq_allOnes] using same))
  have high : (e.toNat - spec.exponentBias - spec.mantissaBitsWithoutImplicit : ℤ) ≤
      maxExponent spec := by
    unfold maxExponent
    omega
  have log : (2 ^ spec.mantissaBitsWithoutImplicit + m.toNat).log2 =
      spec.mantissaBitsWithoutImplicit := by
    rw [Nat.log2_eq_iff (by positivity), pow_succ]
    omega
  have field : (e.toNat - spec.exponentBias - spec.mantissaBitsWithoutImplicit +
      spec.exponentBias + spec.mantissaBitsWithoutImplicit : ℤ).toNat = e.toNat := by
    omega
  have first : BitVec.ofNat spec.mantissaBitsWithoutImplicit
      (2 ^ spec.mantissaBitsWithoutImplicit + m.toNat) = m := by
    apply BitVec.eq_of_toNat_eq
    rw [BitVec.toNat_ofNat, Nat.add_mod_left, Nat.mod_eq_of_lt rest]
  rw [pack_finite spec high, if_pos (by rw [log, mantissaBits_eq]), field, first,
    BitVec.ofNat_toNat, BitVec.setWidth_eq]

/-- A valid bit pattern is what its own number is packed to. -/
theorem pack_unpack (wide : spec.minExponent ≤ maxExponent spec) {b : BitVec spec.numBits}
    (valid : spec.Valid b) : pack spec (unpack spec b) = b := by
  have fields := packComponents_unpack b
  have nan := valid.eq_packedNaN
  generalize Sign.ofBitVec (unpackSign b) = s, unpackExponent b = e, unpackMantissa b = m
    at fields nan
  subst fields
  rw [unpack_packComponents]
  split
  · rename_i all
    subst all
    split
    · rename_i noMantissa
      rw [noMantissa]
      rfl
    · exact (nan rfl ‹_›).symm
  · split
    · rename_i zero
      subst zero
      split
      · rename_i noMantissa
        rw [noMantissa]
        rfl
      · exact pack_subnormal s _ wide
    · exact pack_normal s ‹_› ‹_›

end packing

/-- A number is known by what it is unpacked to. -/
theorem eq_of_exact_eq {x y : Float} (same : exact x = exact y) : x = y := by
  have packed (z : Float) : pack .binary64 (exact z) = z.toModel.toBits.toBitVec :=
    pack_unpack (by decide) z.toModel.valid
  have bits := (packed x).symm.trans ((congrArg (pack .binary64) same).trans (packed y))
  obtain ⟨⟨bitsX, _⟩⟩ := x
  obtain ⟨⟨bitsY, _⟩⟩ := y
  cases UInt64.toBitVec_inj.mp bits
  rfl

/-- The sign of a number; NaN has none. -/
def sign? : UnpackedFloat → Option Sign
  | .notANumber => none
  | .infinity s | .zero s | .finite s .. => some s

section sign

variable (spec : Format)

theorem sign?_roundWithAccuracy (s : Sign) (m : ℕ) (e : ℤ) (acc : Accuracy) :
    sign? (roundWithAccuracy spec s m e acc) = some s := by
  unfold roundWithAccuracy
  dsimp only
  split <;> rfl

theorem sign?_packComponents (s : Sign) (e : BitVec spec.exponentBits)
    (m : BitVec spec.mantissaBitsWithoutImplicit) (number : e ≠ -1#_ ∨ m = 0#_) :
    sign? (unpack spec (packComponents spec s e m)) = some s := by
  rw [unpack_packComponents]
  split
  · rw [if_pos (number.resolve_left (not_not_intro ‹_›))]
    rfl
  · split
    · split <;> rfl
    · rfl

/-- Packing keeps the sign, also of what is too large for the format. -/
theorem sign?_unpack_pack (x : UnpackedFloat) : sign? (unpack spec (pack spec x)) = sign? x := by
  cases x with
  | notANumber =>
    have bits := spec.hm
    have quiet : BitVec.ofNat spec.mantissaBitsWithoutImplicit 1 <<<
        (spec.mantissaBitsWithoutImplicit - 1) ≠ 0#_ := by
      intro zero
      have top := congrArg (BitVec.getLsbD · (spec.mantissaBitsWithoutImplicit - 1)) zero
      simp [bits] at top
    rw [pack, packedNaN, unpack_packComponents, if_pos rfl, if_neg quiet]
  | infinity s => exact sign?_packComponents spec s _ _ (.inr rfl)
  | zero s => exact sign?_packComponents spec s _ _ (.inr rfl)
  | finite s m e positive =>
    rw [pack]
    split
    · exact sign?_packComponents spec s _ _ (.inr rfl)
    · rename_i bounded
      split
      · refine sign?_packComponents spec s _ _ (.inl fun all => bounded ?_)
        have field := congrArg BitVec.toNat all
        rw [BitVec.toNat_ofNat, BitVec.neg_one_eq_allOnes, BitVec.toNat_allOnes,
          Nat.mod_eq_of_lt (by omega)] at field
        omega
      · exact sign?_packComponents spec s _ _ (.inl (allOnes_ne_zero spec).symm)

/-- A whole number that is rounded to the format keeps the sign, and zero takes the given one. -/
theorem sign?_normalize (s : Sign) (k : ℕ) (e : ℤ) :
    sign? (UnpackedFloat.normalize spec (s.apply k) e s) = some s := by
  rcases Nat.eq_zero_or_pos k with rfl | positive
  · cases s <;> rfl
  · cases s with
    | negative =>
      have below : -(k : ℤ) < 0 := by omega
      rw [UnpackedFloat.normalize, Sign.apply, Int.compare_eq_lt.mpr below]
      exact sign?_roundWithAccuracy spec _ _ _ _
    | positive =>
      have above : (0 : ℤ) < k := by omega
      rw [UnpackedFloat.normalize, Sign.apply, Int.compare_eq_gt.mpr above]
      exact sign?_roundWithAccuracy spec _ _ _ _

theorem positive_mul (s : Sign) : .positive * s = s := by cases s <;> rfl

theorem mul_positive (s : Sign) : s * .positive = s := by cases s <;> rfl

theorem div_positive (s : Sign) : s / .positive = s := by cases s <;> rfl

variable {x : UnpackedFloat} {m : ℕ} {e : ℤ} (positive : 0 < m)

theorem sign?_finite_mul : sign? (mul spec (.finite .positive m e positive) x) = sign? x := by
  cases x with
  | notANumber => rfl
  | infinity s => exact congrArg some (positive_mul s)
  | zero s => exact congrArg some (positive_mul s)
  | finite s => exact (sign?_roundWithAccuracy spec _ _ _ _).trans (congrArg some (positive_mul s))

theorem sign?_mul_finite : sign? (mul spec x (.finite .positive m e positive)) = sign? x := by
  cases x with
  | notANumber => rfl
  | infinity s => exact congrArg some (mul_positive s)
  | zero s => exact congrArg some (mul_positive s)
  | finite s => exact (sign?_roundWithAccuracy spec _ _ _ _).trans (congrArg some (mul_positive s))

theorem sign?_div_finite : sign? (div spec x (.finite .positive m e positive)) = sign? x := by
  cases x with
  | notANumber => rfl
  | infinity s => exact congrArg some (div_positive s)
  | zero s => exact congrArg some (div_positive s)
  | finite s => exact (sign?_roundWithAccuracy spec _ _ _ _).trans (congrArg some (div_positive s))

end sign

/-- Rounding to a whole number keeps the sign, also where it comes to zero. -/
theorem sign?_round (x : Float) : sign? (exact (round x)) = sign? (exact x) := by
  unfold round
  split
  · rename_i s m e positive finite
    split
    · rfl
    · rw [finite]
      exact (sign?_unpack_pack _ _).trans (sign?_normalize _ s _ 0)
  · rfl

/-- A canonical number is known by its value, if it is not zero. -/
theorem eq_of_mul_zpow_eq {spec : Format} {m m' : ℕ} {e e' : ℤ}
    (room : m < 2 ^ spec.mantissaBits) (least : spec.minExponent ≤ e)
    (full : 2 ^ (spec.mantissaBits - 1) ≤ m ∨ e = spec.minExponent)
    (room' : m' < 2 ^ spec.mantissaBits) (least' : spec.minExponent ≤ e')
    (full' : 2 ^ (spec.mantissaBits - 1) ≤ m' ∨ e' = spec.minExponent)
    (equal : (m * 2 ^ e : ℚ) = m' * 2 ^ e') : m = m' ∧ e = e' := by
  rcases lt_trichotomy e e' with less | rfl | more
  · exact absurd equal (lt_of_exponent_lt room least full' less).ne
  · have scale : (2 : ℚ) ^ e ≠ 0 := by positivity
    exact ⟨by exact_mod_cast mul_right_cancel₀ scale equal, rfl⟩
  · exact absurd equal (lt_of_exponent_lt room' least' full more).ne'

/-- A place and a sign belong to one canonical number. -/
theorem eq_of_place?_eq {spec : Format} {x y : UnpackedFloat} (canonical : Canonical spec x)
    (canonical' : Canonical spec y) (places : place? x = place? y) (signs : sign? x = sign? y) :
    x = y := by
  have nonzero (s : Sign) {m : ℕ} (e : ℤ) (positive : 0 < m) : signed s (m * 2 ^ e) ≠ 0 := by
    have value : (m * 2 ^ e : ℚ) ≠ 0 := by positivity
    cases s <;> simp [signed, value]
  rcases x with ⟨⟨⟩⟩ | _ | s | ⟨s, m, e, positive⟩ <;>
    rcases y with ⟨⟨⟩⟩ | _ | s' | ⟨s', m', e', positive'⟩ <;>
    simp only [place?, sign?, Option.some.injEq, reduceCtorEq, WithBot.coe_inj, WithTop.coe_inj,
      WithBot.coe_eq_top, WithBot.top_eq_coe, WithBot.bot_ne_coe, WithBot.coe_ne_bot,
      WithTop.coe_ne_top, WithTop.top_ne_coe, bot_ne_top, top_ne_bot, zero.injEq,
      finite.injEq] at places signs ⊢
  · exact signs
  · exact nonzero s' e' positive' places.symm
  · exact nonzero s e positive places
  · subst signs
    obtain ⟨room, least, full⟩ := canonical
    obtain ⟨room', least', full'⟩ := canonical'
    refine ⟨rfl, eq_of_mul_zpow_eq room least full room' least' full' ?_⟩
    cases s with
    | negative => exact neg_injective places
    | positive => exact places

section equal

variable {x y : Float}

theorem beq_iff_place : x == y ↔ ∃ p, place? (exact x) = some p ∧ place? (exact y) = some p := by
  have unfolded : (x == y) =
      (UnpackedFloat.compare x.toModel.unpack y.toModel.unpack == some .eq) := rfl
  rw [unfolded, compare_place]
  cases place? (exact x) with
  | none => simp
  | some p =>
    cases place? (exact y) with
    | none => simp
    | some q =>
      have swapped : p = q ↔ q = p := eq_comm
      simp [swapped]

/-- Numbers that compare equal are the same one, if they have the same sign. -/
theorem eq_of_beq (equal : x == y) (signs : sign? (exact x) = sign? (exact y)) : x = y := by
  obtain ⟨p, atX, atY⟩ := beq_iff_place.mp equal
  exact eq_of_exact_eq (eq_of_place?_eq (canonical_unpack .binary64 _)
    (canonical_unpack .binary64 _) (atX.trans atY.symm) signs)

theorem sign?_eq_none_iff {u : UnpackedFloat} : sign? u = none ↔ place? u = none := by
  rcases u with ⟨⟨⟩⟩ | _ | _ | _ <;> simp [sign?, place?]

/-- Every number but NaN is equal to itself. -/
theorem beq_self_iff : x == x ↔ sign? (exact x) ≠ none := by
  rw [beq_iff_place, Ne, sign?_eq_none_iff, Option.eq_none_iff_forall_ne_some]
  simp

theorem beq_symm (equal : x == y) : y == x := by
  obtain ⟨p, atX, atY⟩ := beq_iff_place.mp equal
  exact beq_iff_place.mpr ⟨p, atY, atX⟩

theorem beq_self_of_isFinite (finite : isFinite x) : x == x := by
  rw [beq_self_iff]
  unfold isFinite at finite
  intro signless
  cases known : exact x <;> simp_all [sign?]

end equal

end LaserCutter.Number
