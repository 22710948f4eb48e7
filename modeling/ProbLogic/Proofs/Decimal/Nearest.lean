/-
# The float nearest to a decimal

A decimal is turned into a float by one product or one quotient: the mantissa
and the power of ten are exact, either as floats or as natural numbers, and only
their product or quotient is rounded. So a decimal that is near a float is read
as that float (`Binary.Canonical.toFloat_eq`), and no decimal is read as a
negative one.

Key definitions: `IsNormal`.
Key theorems: `isNormal_toFloat`, `isNormal_powerOfTen`, `Binary.Canonical.toFloat_eq`,
`toBits_toFloat_lt`.
-/
import ProbLogic.Scalar
import ProbLogic.Proofs.Decimal.Bits

namespace ProbLogic

open Float.Model Float.Model.UnpackedFloat

/-- Powers of an integer exponent, as the fraction by which they are computed. -/
theorem up_div_up {base : ℕ} (hbase : 0 < base) (e : ℤ) :
    (Binary.up base e : ℚ) / Binary.up base (-e) = (base : ℚ) ^ e := by
  have hbase' : (base : ℚ) ≠ 0 := by exact_mod_cast hbase.ne'
  unfold Binary.up
  rw [Nat.pow_eq, Nat.pow_eq, Nat.cast_pow, Nat.cast_pow, ← zpow_natCast, ← zpow_natCast,
    ← zpow_sub₀ hbase']
  congr 1
  omega

/-! ### Exact factors -/

/-- A positive float with all digits of its mantissa, and its value. -/
def IsNormal (x : Float) (q : ℚ) : Prop :=
  ∃ (m : ℕ) (e : ℤ) (hm : 0 < m), x.toModel.unpack = .finite .positive m e hm ∧
    2 ^ 52 ≤ m ∧ q = m * 2 ^ e

theorem Binary.near_mantissa (b : Binary) : b.Near b.mantissa := by
  apply near_of_lt
  · split <;> linarith
  · linarith

/-- A natural number below `2 ^ 53` is shifted until it has all digits. -/
theorem round_eq {m k : ℕ} (hm : 0 < m) (hk : m.log2 + k = 52) :
    ∃ hm' : 0 < m * 2 ^ k,
      Float.Model.unpack (.pack (UnpackedFloat.round .binary64 .positive m 0)) =
        .finite .positive (m * 2 ^ k) (-k) hm' := by
  have hlow : 2 ^ 52 ≤ m * 2 ^ k := by
    rw [← hk, pow_add]
    exact Nat.mul_le_mul_right _ (Nat.log2_self_le hm.ne')
  have hhigh : m * 2 ^ k < 2 ^ 53 := by
    have hpow : (2 : ℕ) ^ 53 = 2 ^ (m.log2 + 1) * 2 ^ k := by
      rw [← pow_add]
      congr 1
      omega
    rw [hpow]
    exact Nat.mul_lt_mul_of_pos_right Nat.lt_log2_self (Nat.two_pow_pos k)
  let b : Binary := ⟨m * 2 ^ k, -k, decide (m * 2 ^ k = 2 ^ 52)⟩
  have hb : b.Canonical := by
    refine ⟨?_, hhigh, ?_, ?_, fun _ => hlow, ?_⟩ <;> dsimp only [b]
    · omega
    · omega
    · omega
    · rw [decide_eq_true_iff]
      omega
  have htarget : (0 - max ((m.log2 : ℤ) + 0 - 52) (-1074)).toNat = k := by omega
  have hexponent : (0 : ℤ) - k = b.exponent := zero_sub _
  have hround : UnpackedFloat.round .binary64 .positive m 0 =
      .finite .positive b.mantissa b.exponent hb.pos := by
    unfold UnpackedFloat.round decreaseExponent
    dsimp only
    rw [targetExponent_eq, htarget, hexponent, Nat.shiftLeft_eq]
    apply hb.roundWithAccuracy_eq .positive (describes_exact b.mantissa)
    · left
      exact (Nat.le_log2 hb.pos.ne').mpr hlow
    · rw [sub_self, zpow_zero, mul_one]
      exact b.near_mantissa
  rw [hround]
  exact ⟨hb.pos, hb.unpack_pack⟩

/-- Natural numbers below `2 ^ 53` are floats. -/
theorem isNormal_toFloat {m : ℕ} (hpos : 0 < m) (hlt : m < 2 ^ 53) :
    IsNormal m.toUInt64.toFloat m := by
  have hlog : m.log2 < 53 := (Nat.log2_lt hpos.ne').mpr hlt
  have hk : m.log2 + (52 - m.log2) = 52 := by omega
  obtain ⟨hm', hunpack⟩ := round_eq hpos hk
  have hnat : m.toUInt64.toNat = m := by
    rw [Nat.toUInt64_eq, UInt64.toNat_ofNat']
    exact Nat.mod_eq_of_lt (hlt.trans (by norm_num))
  have hmodel : m.toUInt64.toFloat.toModel =
      .pack (UnpackedFloat.round .binary64 .positive m 0) := by
    have hcompare : compare (m : ℤ) 0 = .gt := Int.compare_eq_gt.mpr (by omega)
    show Float.Model.pack (UnpackedFloat.normalize .binary64 (m.toUInt64.toNat : ℤ) 0 .positive) = _
    rw [hnat]
    unfold UnpackedFloat.normalize
    rw [hcompare]
    rfl
  refine ⟨m * 2 ^ (52 - m.log2), -((52 - m.log2 : ℕ) : ℤ), hm', ?_, ?_, ?_⟩
  · rw [hmodel, hunpack]
  · calc 2 ^ 52 = 2 ^ m.log2 * 2 ^ (52 - m.log2) := by rw [← pow_add, hk]
      _ ≤ m * 2 ^ (52 - m.log2) := Nat.mul_le_mul_right _ (Nat.log2_self_le hpos.ne')
  · rw [zpow_neg, zpow_natCast, Nat.cast_mul, Nat.cast_pow, Nat.cast_two]
    field_simp

/-- Powers of ten up to the twenty-second are floats. -/
theorem isNormal_powerOfTen (i : ℕ) (hi : i < Float.exactlyRepresentablePowersOfTen.size) :
    IsNormal Float.exactlyRepresentablePowersOfTen[i] (10 ^ i) := by
  have hall : ∀ i : Fin 23,
      let n := (Float.exactlyRepresentablePowersOfTen[i]).toBits.toNat
      0 < n ∧ n < 0x7FF0000000000000 ∧ 2 ^ 52 ≤ (Binary.ofBits n).mantissa ∧
        (Binary.ofBits n).mantissa * Binary.up 2 (Binary.ofBits n).exponent =
          10 ^ i.val * Binary.up 2 (-(Binary.ofBits n).exponent) := by
    decide +kernel
  obtain ⟨hpos, hlt, hfull, hvalue⟩ := hall ⟨i, hi⟩
  refine ⟨_, _, _, unpack_of_lt hpos hlt, hfull, ?_⟩
  rw [← Nat.cast_two, ← up_div_up two_pos, mul_div_assoc']
  have hup : ∀ e : ℤ, ((Binary.up 2 e : ℕ) : ℚ) ≠ 0 := by
    intro e
    exact_mod_cast (Nat.two_pow_pos e.toNat).ne'
  rw [eq_div_iff (hup _)]
  exact_mod_cast hvalue.symm

/-! ### Products and quotients -/

namespace Binary

variable {b : Binary}

/-- The float with the mantissa and the exponent of `b`. -/
def Canonical.toFloat (hb : b.Canonical) : Float :=
  .ofModel (.pack (.finite .positive b.mantissa b.exponent hb.pos))

theorem Canonical.mul_isNormal (hb : b.Canonical) {x y : Float} {q r : ℚ} (hx : IsNormal x q)
    (hy : IsNormal y r) (hnear : b.Near (q * r / 2 ^ b.exponent)) : x * y = hb.toFloat := by
  obtain ⟨m₁, e₁, hm₁, hunpack₁, hfull, rfl⟩ := hx
  obtain ⟨m₂, e₂, hm₂, hunpack₂, -, rfl⟩ := hy
  have hdigits : 52 ≤ (m₁ * m₂).log2 :=
    (Nat.le_log2 (Nat.mul_pos hm₁ hm₂).ne').mpr (hfull.trans (Nat.le_mul_of_pos_right _ hm₂))
  have hscale : (m₁ * 2 ^ e₁ * (m₂ * 2 ^ e₂) / 2 ^ b.exponent : ℚ) =
      m₁ * m₂ * 2 ^ (e₁ + e₂ - b.exponent) := by
    rw [zpow_sub₀ two_ne_zero, zpow_add₀ two_ne_zero]
    ring
  rw [hscale] at hnear
  have hmul := hb.mul_eq hm₁ hm₂ (.inl hdigits) hnear
  show Float.ofModel (.pack (mul .binary64 x.toModel.unpack y.toModel.unpack)) = _
  rw [hunpack₁, hunpack₂, hmul]
  rfl

theorem Canonical.div_isNormal (hb : b.Canonical) {x y : Float} {q r : ℚ} (hx : IsNormal x q)
    (hy : IsNormal y r) (hnear : b.Near (q / r / 2 ^ b.exponent)) : x / y = hb.toFloat := by
  obtain ⟨m₁, e₁, hm₁, hunpack₁, -, rfl⟩ := hx
  obtain ⟨m₂, e₂, hm₂, hunpack₂, -, rfl⟩ := hy
  have hscale : (m₁ * 2 ^ e₁ / (m₂ * 2 ^ e₂) / 2 ^ b.exponent : ℚ) =
      m₁ / m₂ * 2 ^ (e₁ - e₂ - b.exponent) := by
    rw [zpow_sub₀ two_ne_zero, zpow_sub₀ two_ne_zero, mul_div_mul_comm, mul_div_assoc]
  rw [hscale] at hnear
  have hdiv := hb.div_eq hm₁ hm₂ hnear
  show Float.ofModel (.pack (div .binary64 x.toModel.unpack y.toModel.unpack)) = _
  rw [hunpack₁, hunpack₂, hdiv]
  rfl

/-- Numbers near a float have a magnitude for which the power of ten is computed. -/
theorem Canonical.near_bounds (hb : b.Canonical) {q : ℚ} (hnear : b.Near (q / 2 ^ b.exponent)) :
    (10 : ℚ) ^ (-330 : ℤ) < q ∧ q < 10 ^ (310 : ℤ) := by
  have hpow : (0 : ℚ) < 2 ^ b.exponent := zpow_pos two_pos _
  have hM : (1 : ℚ) ≤ b.mantissa := by exact_mod_cast hb.pos
  have hM' : (b.mantissa : ℚ) + 1 ≤ 2 ^ 53 := by exact_mod_cast hb.lt
  have htwo : (1 : ℚ) ≤ 2 := by norm_num
  obtain ⟨hlow, hhigh, -⟩ := hnear.isNearest
  rw [le_div_iff₀ hpow] at hlow
  rw [div_le_iff₀ hpow] at hhigh
  constructor
  · have hsmall : (2 ^ 1075 : ℕ) < 10 ^ 330 := by decide +kernel
    calc (10 : ℚ) ^ (-330 : ℤ) = (10 ^ 330)⁻¹ := zpow_neg 10 330
      _ < (2 ^ 1075)⁻¹ := by
          refine inv_strictAnti₀ (pow_pos two_pos _) ?_
          exact_mod_cast hsmall
      _ = 1 / 2 * 2 ^ (-1074 : ℤ) := by
          rw [pow_succ, mul_inv, mul_comm, one_div]
          congr 1
      _ ≤ 1 / 2 * 2 ^ b.exponent := by
          have := zpow_le_zpow_right₀ htwo hb.least_le
          linarith
      _ ≤ q := by
          refine le_trans (mul_le_mul_of_nonneg_right ?_ hpow.le) hlow
          linarith
  · have hlarge : (2 ^ 53 * 2 ^ 971 : ℕ) < 10 ^ 310 := by decide +kernel
    calc q ≤ (b.mantissa + 1 / 2) * 2 ^ b.exponent := hhigh
      _ ≤ 2 ^ 53 * 2 ^ b.exponent := by
          refine mul_le_mul_of_nonneg_right ?_ hpow.le
          linarith
      _ ≤ 2 ^ 53 * 2 ^ (971 : ℤ) := by
          have := zpow_le_zpow_right₀ htwo hb.le_greatest
          linarith
      _ < 10 ^ (310 : ℤ) := by exact_mod_cast hlarge

end Binary

/-! ### Decimals -/

theorem toDigits_bounds {n : ℕ} (hn : 0 < n) :
    (10 : ℚ) ^ (((Nat.toDigits 10 n).length : ℤ) - 1) ≤ n ∧
      (n : ℚ) < 10 ^ ((Nat.toDigits 10 n).length : ℤ) := by
  have hpos : 0 < (Nat.toDigits 10 n).length := Nat.length_toDigits_pos
  obtain ⟨k, hk⟩ : ∃ k, (Nat.toDigits 10 n).length = k + 1 :=
    ⟨_, (Nat.succ_pred_eq_of_pos hpos).symm⟩
  rw [hk]
  have hlow : 10 ^ k ≤ n := by
    by_cases hk0 : k = 0
    · rw [hk0]
      exact hn
    · apply Nat.le_of_not_lt
      rw [← Nat.length_toDigits_le_iff (by norm_num) (Nat.pos_of_ne_zero hk0), hk]
      omega
  have hhigh : n < 10 ^ (k + 1) :=
    (Nat.length_toDigits_le_iff (by norm_num) (Nat.succ_pos k)).mp hk.le
  constructor
  · rw [Nat.cast_add, Nat.cast_one, add_sub_cancel_right, zpow_natCast]
    exact_mod_cast hlow
  · rw [zpow_natCast]
    exact_mod_cast hhigh

namespace Binary

variable {b : Binary}

/-- The general way of reading `m * 10 ^ e`, by natural numbers of any size. -/
theorem Canonical.ofScientific_eq (hb : b.Canonical) {m : ℕ} {e : ℤ} (hm : m ≠ 0)
    (hhigh : e ≤ 2048) (hlow : -(2048 + (m.log2 : ℤ)) ≤ e)
    (hnear : b.Near (m * 10 ^ e / 2 ^ b.exponent)) :
    Float.ofModel (.ofScientific m e) = hb.toFloat := by
  have hlimit : (2 : ℤ) ^ Format.binary64.exponentBits = 2048 := by decide
  have hbits : Format.binary64.mantissaBits = 53 := rfl
  have hunpacked : UnpackedFloat.ofScientific .binary64 m e =
      .finite .positive b.mantissa b.exponent hb.pos := by
    unfold UnpackedFloat.ofScientific
    rw [dif_neg hm, hlimit, if_neg (by omega), if_neg (by omega)]
    by_cases he : 0 ≤ e
    · obtain ⟨n, rfl⟩ := Int.eq_ofNat_of_zero_le he
      rw [if_pos he]
      apply hb.mul_eq
      · left
        have hpos : 0 < m * 10 ^ n := Nat.mul_pos (Nat.pos_of_ne_zero hm) (by positivity)
        rw [hbits, Nat.shiftLeft_eq, Int.toNat_natCast, mul_right_comm]
        refine (Nat.le_log2 (by positivity)).mpr ?_
        exact (Nat.pow_le_pow_right two_pos (by norm_num)).trans (Nat.le_mul_of_pos_left _ hpos)
      · convert hnear using 1
        rw [hbits, Nat.shiftLeft_eq, Int.toNat_natCast, zpow_sub₀ two_ne_zero, add_zero, zpow_neg]
        push_cast
        rw [zpow_natCast]
        field_simp
    · obtain ⟨n, rfl⟩ : ∃ n : ℕ, e = -n := ⟨(-e).toNat, by omega⟩
      rw [if_neg he]
      apply hb.div_eq
      convert hnear using 1
      rw [neg_neg, Int.toNat_natCast, sub_self, zero_sub, zpow_neg, zpow_neg, zpow_natCast,
        Nat.cast_pow]
      push_cast
      ring
  show Float.ofModel (.pack (UnpackedFloat.ofScientific .binary64 m e)) = _
  rw [hunpacked]
  rfl

/-- A decimal that is near a float is read as that float. -/
theorem Canonical.toFloat_eq (hb : b.Canonical) {d : Decimal}
    (hnear : b.Near (d.toRat / 2 ^ b.exponent)) : d.toFloat = hb.toFloat := by
  obtain ⟨hsmall, hlarge⟩ := hb.near_bounds hnear
  have hm : d.mantissa ≠ 0 := by
    intro hm
    unfold Decimal.toRat at hsmall
    rw [hm, Nat.cast_zero, zero_mul] at hsmall
    exact absurd hsmall (not_lt.mpr (zpow_nonneg (by norm_num) _))
  obtain ⟨hlow, hhigh⟩ := toDigits_bounds (Nat.pos_of_ne_zero hm)
  have hten : (1 : ℚ) < 10 := by norm_num
  have hpow : (0 : ℚ) < 10 ^ d.exponent := zpow_pos (by norm_num) _
  have hle : ((Nat.toDigits 10 d.mantissa).length : ℤ) + d.exponent ≤ 310 := by
    have hvalue : (10 : ℚ) ^ (((Nat.toDigits 10 d.mantissa).length : ℤ) - 1 + d.exponent) <
        10 ^ (310 : ℤ) := by
      rw [zpow_add₀ (by norm_num)]
      exact lt_of_le_of_lt (mul_le_mul_of_nonneg_right hlow hpow.le) hlarge
    have := (zpow_lt_zpow_iff_right₀ hten).mp hvalue
    omega
  have hge : -330 ≤ ((Nat.toDigits 10 d.mantissa).length : ℤ) + d.exponent := by
    have hvalue : (10 : ℚ) ^ (-330 : ℤ) <
        10 ^ (((Nat.toDigits 10 d.mantissa).length : ℤ) + d.exponent) := by
      rw [zpow_add₀ (by norm_num)]
      exact hsmall.trans (mul_lt_mul_of_pos_right hhigh hpow)
    have := (zpow_lt_zpow_iff_right₀ hten).mp hvalue
    omega
  unfold Decimal.toFloat
  dsimp only
  rw [if_neg hm, if_neg (by omega), if_neg (by omega)]
  unfold Float.ofScientific
  by_cases hfast : d.mantissa < 2 ^ 53 ∧ d.exponent.natAbs ≤ 22
  · have hx := isNormal_toFloat (Nat.pos_of_ne_zero hm) hfast.1
    have hy := isNormal_powerOfTen d.exponent.natAbs (Nat.lt_succ_of_le hfast.2)
    rw [dif_pos hfast]
    by_cases he : d.exponent < 0
    · rw [if_pos (decide_eq_true he)]
      apply hb.div_isNormal hx hy
      rw [div_eq_mul_inv _ ((10 : ℚ) ^ _), ← zpow_natCast, ← zpow_neg,
        show -(d.exponent.natAbs : ℤ) = d.exponent by omega]
      exact hnear
    · rw [if_neg (by simpa using he)]
      apply hb.mul_isNormal hx hy
      rw [← zpow_natCast, show (d.exponent.natAbs : ℤ) = d.exponent by omega]
      exact hnear
  · rw [dif_neg hfast]
    have hexponent : (if decide (d.exponent < 0) = true then Int.negOfNat d.exponent.natAbs
        else Int.ofNat d.exponent.natAbs) = d.exponent := by
      by_cases he : d.exponent < 0
      · rw [if_pos (decide_eq_true he), Int.negOfNat_eq, Int.ofNat_eq_natCast]
        omega
      · rw [if_neg (by simpa using he), Int.ofNat_eq_natCast]
        omega
    have hdigits : (Nat.toDigits 10 d.mantissa).length ≤ d.mantissa.log2 + 1 := by
      rw [Nat.length_toDigits_le_iff (by norm_num) (Nat.succ_pos _)]
      exact Nat.lt_log2_self.trans_le (Nat.pow_le_pow_left (by norm_num) _)
    dsimp only
    rw [hexponent]
    exact hb.ofScientific_eq hm (by omega) (by omega) hnear

end Binary

/-! ### No decimal is read as a negative float -/

theorem toBits_mul_lt {x y : Float} (hx : x.toBits.toNat < 2 ^ 63) (hy : y.toBits.toNat < 2 ^ 63) :
    (x * y).toBits.toNat < 2 ^ 63 :=
  ((notNegative_unpack hx).mul (notNegative_unpack hy)).pack

theorem toBits_div_lt {x y : Float} (hx : x.toBits.toNat < 2 ^ 63) (hy : y.toBits.toNat < 2 ^ 63) :
    (x / y).toBits.toNat < 2 ^ 63 :=
  ((notNegative_unpack hx).div (notNegative_unpack hy)).pack

theorem toBits_natCast_lt (m : ℕ) : m.toUInt64.toFloat.toBits.toNat < 2 ^ 63 := by
  have hnormalize : NotNegative
      (UnpackedFloat.normalize .binary64 (m.toUInt64.toNat : ℤ) 0 .positive) := by
    unfold UnpackedFloat.normalize
    split
    next h =>
      have hlt := Int.compare_eq_lt.mp h
      omega
    next => rfl
    next => exact notNegative_roundWithAccuracy _ _ _
  exact hnormalize.pack

theorem notNegative_ofScientific (m : ℕ) (e : ℤ) :
    NotNegative (UnpackedFloat.ofScientific .binary64 m e) := by
  unfold UnpackedFloat.ofScientific
  by_cases hm : m = 0
  · rw [dif_pos hm]
    exact rfl
  rw [dif_neg hm]
  by_cases hhigh : e > 2 ^ Format.binary64.exponentBits
  · rw [if_pos hhigh]
    exact rfl
  rw [if_neg hhigh]
  by_cases hlow : e < -((2 ^ Format.binary64.exponentBits : ℤ) + m.log2)
  · rw [if_pos hlow]
    exact rfl
  rw [if_neg hlow]
  by_cases he : 0 ≤ e
  · rw [if_pos he]
    apply NotNegative.mul <;> exact rfl
  · rw [if_neg he]
    apply NotNegative.div <;> exact rfl

theorem toBits_ofScientific_lt (m : ℕ) (s : Bool) (e : ℕ) :
    (Float.ofScientific m s e).toBits.toNat < 2 ^ 63 := by
  unfold Float.ofScientific
  split
  next h =>
    have hpower : ∀ i : Fin 23,
        (Float.exactlyRepresentablePowersOfTen[i]).toBits.toNat < 2 ^ 63 := by
      decide +kernel
    have hy := hpower ⟨e, Nat.lt_succ_of_le h.2⟩
    cases s with
    | true => exact toBits_div_lt (toBits_natCast_lt m) hy
    | false => exact toBits_mul_lt (toBits_natCast_lt m) hy
  next h =>
    exact (notNegative_ofScientific m _).pack

theorem toBits_toFloat_lt (d : Decimal) : d.toFloat.toBits.toNat < 2 ^ 63 := by
  have hzero : (0 : Float).toBits.toNat < 2 ^ 63 := by decide +kernel
  have hinfinity : Decimal.infinity.toBits.toNat < 2 ^ 63 := by decide +kernel
  unfold Decimal.toFloat
  dsimp only
  split
  · exact hzero
  · split
    · exact hinfinity
    · split
      · exact hzero
      · exact toBits_ofScientific_lt _ _ _

end ProbLogic
