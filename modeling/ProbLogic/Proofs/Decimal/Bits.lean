/-
# Floats by their bits

The 64 bits of a float are a sign, eleven bits of exponent and 52 bits of
mantissa. A finite positive float is given by its bits as a number
(`Binary.ofBits`, `Binary.toBits`), and unpacking and packing it are inverse to
each other.

Key definitions: `Binary.toBits`, `NotNegative`.
Key theorems: `Binary.canonical_ofBits`, `Binary.toBits_ofBits`, `unpack_of_lt`.
-/
import ProbLogic.Proofs.Decimal.Rounding

namespace ProbLogic

open Float.Model Float.Model.UnpackedFloat

namespace Binary

variable {b : Binary} {n : ℕ}

/-- With no bits of exponent, the mantissa has no hidden bit. -/
theorem ofBits_of_lt (hn : n < 2 ^ 52) : ofBits n = ⟨n, -1074, false⟩ := by
  have hdiv : n / Nat.pow 2 52 % Nat.pow 2 11 = 0 := by
    rw [Nat.pow_eq, Nat.pow_eq]
    omega
  unfold ofBits
  dsimp only
  rw [if_pos hdiv, Nat.pow_eq, Nat.mod_eq_of_lt hn]

theorem ofBits_add {q f : ℕ} (hf : f < 2 ^ 52) (hq : 0 < q) (hq' : q < 2047) :
    ofBits (q * 2 ^ 52 + f) =
      ⟨2 ^ 52 + f, q - 1075, decide (f = 0) && decide (q ≠ 1)⟩ := by
  have hdiv : (q * 2 ^ 52 + f) / Nat.pow 2 52 % Nat.pow 2 11 = q := by
    rw [Nat.pow_eq, Nat.pow_eq]
    omega
  have hmod : (q * 2 ^ 52 + f) % Nat.pow 2 52 = f := by
    rw [Nat.pow_eq]
    omega
  unfold ofBits
  dsimp only
  rw [hdiv, hmod, if_neg (Nat.ne_of_gt hq)]
  rfl

/-- The bits of a finite float, split into exponent and mantissa. -/
theorem bits_cases (hlt : n < 0x7FF0000000000000) :
    n < 2 ^ 52 ∨ ∃ q f, f < 2 ^ 52 ∧ 0 < q ∧ q < 2047 ∧ n = q * 2 ^ 52 + f := by
  by_cases hn : n < 2 ^ 52
  · exact .inl hn
  · exact .inr ⟨n / 2 ^ 52, n % 2 ^ 52, by omega, by omega, by omega, by omega⟩

theorem canonical_ofBits (hpos : 0 < n) (hlt : n < 0x7FF0000000000000) :
    (ofBits n).Canonical := by
  rcases bits_cases hlt with hn | ⟨q, f, hf, hq, hq', rfl⟩
  · rw [ofBits_of_lt hn]
    exact ⟨hpos, hn.trans (by norm_num), le_rfl, by norm_num, fun h => absurd rfl h, by simp⟩
  · rw [ofBits_add hf hq hq']
    refine ⟨?_, ?_, ?_, ?_, ?_, ?_⟩ <;> dsimp only
    · omega
    · omega
    · omega
    · omega
    · omega
    · rw [Bool.and_eq_true, decide_eq_true_iff, decide_eq_true_iff]
      omega

/-- The bits of a finite positive float, as a number. -/
def toBits (b : Binary) : ℕ :=
  if b.mantissa < 2 ^ 52 then b.mantissa
  else (b.exponent + 1075).toNat * 2 ^ 52 + (b.mantissa - 2 ^ 52)

theorem toBits_ofBits (hlt : n < 0x7FF0000000000000) : (ofBits n).toBits = n := by
  unfold toBits
  rcases bits_cases hlt with hn | ⟨q, f, hf, hq, hq', rfl⟩
  · rw [ofBits_of_lt hn]
    exact if_pos hn
  · rw [ofBits_add hf hq hq']
    dsimp only
    rw [if_neg (by omega)]
    omega

theorem Canonical.toBits_bounds (hb : b.Canonical) :
    0 < b.toBits ∧ b.toBits < 0x7FF0000000000000 := by
  have hpos := hb.pos
  have hlt := hb.lt
  have hge := hb.least_le
  have hle := hb.le_greatest
  unfold toBits
  split <;> omega

theorem Canonical.ofBits_toBits (hb : b.Canonical) : ofBits b.toBits = b := by
  have hlt := hb.lt
  have hge := hb.least_le
  have hle := hb.le_greatest
  have hedge := hb.edge_iff
  unfold toBits
  by_cases hm : b.mantissa < 2 ^ 52
  · have he : b.exponent = -1074 := by
      by_contra he
      exact absurd (hb.full he) (Nat.not_le_of_lt hm)
    have hedge' : b.edge = false := by
      rw [Bool.eq_false_iff, ne_eq, hedge]
      omega
    rw [if_pos hm, ofBits_of_lt hm, ← he, ← hedge']
  · have hexponent : ((b.exponent + 1075).toNat : ℤ) - 1075 = b.exponent := by omega
    have hmantissa : 2 ^ 52 + (b.mantissa - 2 ^ 52) = b.mantissa := by omega
    have hedge' : (decide (b.mantissa - 2 ^ 52 = 0) && decide ((b.exponent + 1075).toNat ≠ 1)) =
        b.edge := by
      rw [Bool.eq_iff_iff, hedge, Bool.and_eq_true, decide_eq_true_iff, decide_eq_true_iff]
      omega
    rw [if_neg hm, ofBits_add (by omega) (by omega) (by omega), hexponent, hmantissa, hedge']

end Binary

/-! ### Unpacking -/

section Unpack

variable (v : BitVec Format.binary64.numBits)

theorem toNat_unpackMantissa : (unpackMantissa v).toNat = v.toNat % 2 ^ 52 := by
  unfold unpackMantissa
  rw [BitVec.toNat_cast, BitVec.extractLsb_toNat, Nat.shiftRight_zero]
  rfl

theorem toNat_unpackExponent : (unpackExponent v).toNat = v.toNat / 2 ^ 52 % 2 ^ 11 := by
  unfold unpackExponent
  rw [BitVec.toNat_cast, BitVec.extractLsb_toNat, Nat.shiftRight_eq_div_pow]
  rfl

theorem toNat_unpackSign : (unpackSign v).toNat = v.toNat / 2 ^ 63 % 2 := by
  unfold unpackSign
  rw [BitVec.toNat_cast, BitVec.extractLsb_toNat, Nat.shiftRight_eq_div_pow]
  rfl

end Unpack

theorem ofBitVec_unpackSign {v : BitVec Format.binary64.numBits} (hv : v.toNat < 2 ^ 63) :
    Sign.ofBitVec (unpackSign v) = .positive := by
  have hzero : unpackSign v = 0#1 := by
    apply BitVec.eq_of_toNat_eq
    rw [toNat_unpackSign, Nat.div_eq_of_lt hv]
    rfl
  rw [hzero]
  rfl

/-- A finite positive float is unpacked to its mantissa and exponent. -/
theorem unpack_of_lt {v : BitVec Format.binary64.numBits} (hpos : 0 < v.toNat)
    (hlt : v.toNat < 0x7FF0000000000000) :
    UnpackedFloat.unpack .binary64 v = .finite .positive (Binary.ofBits v.toNat).mantissa
      (Binary.ofBits v.toNat).exponent (Binary.canonical_ofBits hpos hlt).pos := by
  have hsign : Sign.ofBitVec (unpackSign v) = .positive := ofBitVec_unpackSign (by omega)
  have hexponent := toNat_unpackExponent v
  have hmantissa := toNat_unpackMantissa v
  have hbias : (Format.binary64.exponentBias : ℤ) + Format.binary64.mantissaBitsWithoutImplicit =
    1075 := by decide
  have hfinite : unpackExponent v ≠ -1#_ := by
    intro h
    have htop : (unpackExponent v).toNat = 2047 := congrArg BitVec.toNat h
    omega
  unfold UnpackedFloat.unpack
  dsimp only
  rw [if_neg hfinite, hsign, hbias]
  rcases Binary.bits_cases hlt with hn | ⟨q, f, hf, hq, hq', hn⟩
  · have hzero : unpackExponent v = 0#_ := by
      apply BitVec.eq_of_toNat_eq
      rw [hexponent, Nat.div_eq_of_lt hn]
      rfl
    have hne : unpackMantissa v ≠ 0#_ := by
      intro h
      have hm : (unpackMantissa v).toNat = 0 := congrArg BitVec.toNat h
      omega
    rw [if_pos hzero, dif_neg hne]
    apply finite_congr <;> rw [Binary.ofBits_of_lt hn]
    · rw [hmantissa, Nat.mod_eq_of_lt hn]
    · dsimp only
      omega
  · have hne : unpackExponent v ≠ 0#_ := by
      intro h
      have he : (unpackExponent v).toNat = 0 := congrArg BitVec.toNat h
      omega
    have hhidden : (1#1 ++ unpackMantissa v).toNat = 2 ^ 52 + (unpackMantissa v).toNat := by
      rw [BitVec.toNat_append, ← Nat.shiftLeft_add_eq_or_of_lt (unpackMantissa v).isLt]
      rfl
    rw [if_neg hne]
    apply finite_congr <;> rw [hn, Binary.ofBits_add hf hq hq']
    · rw [hhidden, hmantissa]
      dsimp only
      omega
    · dsimp only
      omega

/-! ### Packing -/

theorem toNat_packComponents (e : BitVec 11) (m : BitVec 52) :
    (packComponents .binary64 .positive e m).toNat = e.toNat * 2 ^ 52 + m.toNat := by
  unfold packComponents
  rw [BitVec.toNat_append, BitVec.toNat_append, ← Nat.shiftLeft_add_eq_or_of_lt m.isLt,
    ← Nat.shiftLeft_add_eq_or_of_lt e.isLt, Nat.shiftLeft_eq]
  have hsign : (Sign.toBitVec .positive).toNat <<< Format.binary64.exponentBits = 0 := rfl
  rw [hsign, zero_add]

/-- A finite positive float is packed to its bits. -/
theorem Binary.Canonical.toNat_pack {b : Binary} (hb : b.Canonical) :
    (UnpackedFloat.pack .binary64 (.finite .positive b.mantissa b.exponent hb.pos)).toNat =
      b.toBits := by
  have hlt := hb.lt
  have hge := hb.least_le
  have hle := hb.le_greatest
  have hbias : b.exponent + Format.binary64.exponentBias +
      Format.binary64.mantissaBitsWithoutImplicit = b.exponent + 1075 := by
    rw [add_assoc]
    rfl
  have hbits : Format.binary64.mantissaBits = 53 := rfl
  have hfinite : ¬ 2 ^ Format.binary64.exponentBits ≤ (b.exponent + 1075).toNat + 1 := by
    have htop : 2 ^ Format.binary64.exponentBits = 2048 := rfl
    omega
  unfold UnpackedFloat.pack Binary.toBits
  dsimp only
  rw [hbias, hbits, if_neg hfinite]
  by_cases hm : b.mantissa < 2 ^ 52
  · have hlog : b.mantissa.log2 < 52 := (Nat.log2_lt hb.pos.ne').mpr hm
    rw [if_neg (by omega), if_pos hm, toNat_packComponents, BitVec.toNat_ofNat,
      BitVec.toNat_ofNat, Nat.zero_mod, zero_mul, zero_add, Nat.mod_eq_of_lt hm]
  · have hlog : b.mantissa.log2 = 52 := log2_eq (Nat.le_of_not_lt hm) hlt
    have hmod : b.mantissa % 2 ^ 52 = b.mantissa - 2 ^ 52 := by omega
    have hsmall : (b.exponent + 1075).toNat < 2 ^ 11 := by omega
    rw [if_pos (by omega), if_neg hm, toNat_packComponents, BitVec.toNat_ofNat,
      BitVec.toNat_ofNat, hmod, Nat.mod_eq_of_lt hsmall]

theorem Binary.Canonical.unpack_pack {b : Binary} (hb : b.Canonical) :
    (Float.Model.pack (.finite .positive b.mantissa b.exponent hb.pos)).unpack =
      .finite .positive b.mantissa b.exponent hb.pos := by
  have hbits := hb.toNat_pack
  obtain ⟨hpos, hlt⟩ := hb.toBits_bounds
  rw [← hbits] at hpos hlt
  have hunpack := unpack_of_lt hpos hlt
  exact hunpack.trans (finite_congr _ (by rw [hbits, hb.ofBits_toBits])
    (by rw [hbits, hb.ofBits_toBits]))

theorem eq_of_toBits {x y : Float} (h : x.toBits.toNat = y.toBits.toNat) : x = y := by
  obtain ⟨⟨u, hu⟩⟩ := x
  obtain ⟨⟨v, hv⟩⟩ := y
  have huv : u = v := UInt64.toNat_inj.mp h
  subst huv
  rfl

/-- A finite positive float is what its mantissa and exponent are packed to. -/
theorem pack_ofBits {x : Float} (hpos : 0 < x.toBits.toNat)
    (hlt : x.toBits.toNat < 0x7FF0000000000000) :
    Float.ofModel (.pack (.finite .positive (Binary.ofBits x.toBits.toNat).mantissa
      (Binary.ofBits x.toBits.toNat).exponent (Binary.canonical_ofBits hpos hlt).pos)) = x := by
  apply eq_of_toBits
  exact (Binary.canonical_ofBits hpos hlt).toNat_pack.trans (Binary.toBits_ofBits hlt)

/-! ### Floats without a sign -/

/-- Not below zero; the float that is no number has no sign. -/
def NotNegative : UnpackedFloat → Prop
  | .infinity s => s = .positive
  | .notANumber => True
  | .zero s => s = .positive
  | .finite s _ _ _ => s = .positive

theorem NotNegative.pack {f : UnpackedFloat} (hf : NotNegative f) :
    (Float.Model.pack f).toBits.toNat < 2 ^ 63 := by
  have hcomponents (e : BitVec 11) (m : BitVec 52) :
      (packComponents .binary64 .positive e m).toNat < 2 ^ 63 := by
    have he := e.isLt
    have hm := m.isLt
    rw [toNat_packComponents]
    omega
  show (UnpackedFloat.pack .binary64 f).toNat < 2 ^ 63
  cases f with
  | infinity s =>
    obtain rfl : s = .positive := hf
    exact hcomponents _ _
  | notANumber => exact hcomponents _ _
  | zero s =>
    obtain rfl : s = .positive := hf
    exact hcomponents _ _
  | finite s m e hm =>
    obtain rfl : s = .positive := hf
    unfold UnpackedFloat.pack
    dsimp only
    split
    · exact hcomponents _ _
    · split
      · exact hcomponents _ _
      · exact hcomponents _ _

theorem notNegative_unpack {v : BitVec Format.binary64.numBits} (hv : v.toNat < 2 ^ 63) :
    NotNegative (UnpackedFloat.unpack .binary64 v) := by
  have hsign := ofBitVec_unpackSign hv
  unfold UnpackedFloat.unpack
  dsimp only
  rw [hsign]
  by_cases htop : unpackExponent v = -1#_
  · rw [if_pos htop]
    by_cases hmantissa : unpackMantissa v = 0#_
    · rw [if_pos hmantissa]
      exact rfl
    · rw [if_neg hmantissa]
      trivial
  · rw [if_neg htop]
    by_cases hexponent : unpackExponent v = 0#_
    · rw [if_pos hexponent]
      by_cases hmantissa : unpackMantissa v = 0#_
      · rw [dif_pos hmantissa]
        exact rfl
      · rw [dif_neg hmantissa]
        exact rfl
    · rw [if_neg hexponent]
      exact rfl

/-- A float that is finite and has no sign is below infinity. -/
theorem toBits_lt_of_isFinite {x : Float} (hx : x.toBits.toNat < 2 ^ 63)
    (hfinite : x.isFinite = true) : x.toBits.toNat < 0x7FF0000000000000 := by
  by_contra hge
  have hinfinite (v : BitVec Format.binary64.numBits) (hv : v.toNat = x.toBits.toNat) :
      (UnpackedFloat.unpack .binary64 v).isFinite = false := by
    have htop : unpackExponent v = -1#_ := by
      apply BitVec.eq_of_toNat_eq
      have hvalue : v.toNat / 2 ^ 52 % 2 ^ 11 = 2047 := by omega
      rw [toNat_unpackExponent, hvalue]
      rfl
    unfold UnpackedFloat.unpack
    dsimp only
    rw [if_pos htop]
    split
    · rfl
    · rfl
  have hmodel : x.isFinite = false := hinfinite _ rfl
  rw [hmodel] at hfinite
  cases hfinite

theorem notNegative_roundWithAccuracy (m : ℕ) (e : ℤ) (acc : Accuracy) :
    NotNegative (roundWithAccuracy .binary64 .positive m e acc) := by
  let first := shiftToTargetExponent .binary64 m e acc
  let second := shiftToTargetExponent .binary64 first.1.roundedMantissa first.2 .exact
  unfold roundWithAccuracy
  dsimp only
  by_cases hzero : second.1.mantissa = 0
  · rw [dif_pos hzero]
    exact rfl
  · rw [dif_neg hzero]
    exact rfl

theorem NotNegative.mul {f g : UnpackedFloat} (hf : NotNegative f) (hg : NotNegative g) :
    NotNegative (UnpackedFloat.mul .binary64 f g) := by
  cases f <;> cases g <;> dsimp only [NotNegative] at hf hg <;> subst_vars
  case finite.finite => exact notNegative_roundWithAccuracy _ _ _
  all_goals trivial

theorem NotNegative.div {f g : UnpackedFloat} (hf : NotNegative f) (hg : NotNegative g) :
    NotNegative (UnpackedFloat.div .binary64 f g) := by
  cases f <;> cases g <;> dsimp only [NotNegative] at hf hg <;> subst_vars
  case finite.finite => exact notNegative_roundWithAccuracy _ _ _
  all_goals trivial

end ProbLogic
