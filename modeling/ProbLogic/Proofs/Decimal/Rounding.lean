/-
# Rounding to the nearest float

A finite positive float has a mantissa below `2 ^ 53` and an exponent from
`-1074` on; unless the exponent is least, the mantissa has all of its 53 bits
(`Binary.Canonical`). The numbers that round to a float lie around it: up to
half a unit away, and below a power of two up to a quarter (`Binary.Near`).

Rounding cuts digits off a mantissa and keeps two bits that say where the rest
lies in relation to one half (`Describes`). So it takes the nearest number with
the digits that are left, and of two equally near ones the even one
(`IsNearest`). This is the float that the number is near
(`Binary.Canonical.roundWithAccuracy_eq`).

Key definitions: `Describes`, `IsNearest`, `Binary.Canonical`, `Binary.Near`.
Key theorems: `Describes.shiftRight`, `Describes.isNearest`,
`Binary.Canonical.roundWithAccuracy_eq`, `describes_divCore`.
-/
import ProbLogic.Decimal.Shortest
import Mathlib.Algebra.Order.Field.Basic
import Mathlib.Algebra.Order.Field.Power
import Mathlib.Algebra.Order.Field.Rat
import Mathlib.Tactic.Linarith
import Mathlib.Tactic.NormNum
import Mathlib.Tactic.FieldSimp
import Mathlib.Tactic.Ring

namespace ProbLogic

open Float.Model Float.Model.UnpackedFloat

/-! ### Digits that are cut off -/

/-- What an extended mantissa says of a number: the whole part, and where the rest lies in
relation to one half. -/
def Describes (x : ℚ) (em : ExtendedMantissa) : Prop :=
  match em.roundBit, em.stickyBit with
  | false, false => x = em.mantissa
  | false, true => em.mantissa < x ∧ x < em.mantissa + 1 / 2
  | true, false => x = em.mantissa + 1 / 2
  | true, true => em.mantissa + 1 / 2 < x ∧ x < em.mantissa + 1

variable {x : ℚ} {em : ExtendedMantissa}

theorem Describes.bounds (h : Describes x em) : em.mantissa ≤ x ∧ x < em.mantissa + 1 := by
  obtain ⟨m, r, s⟩ := em
  cases r <;> cases s <;> simp only [Describes] at h ⊢ <;> constructor <;> linarith

theorem Describes.shiftRightOne (h : Describes x em) : Describes (x / 2) em.shiftRightOne := by
  obtain ⟨m, r, s⟩ := em
  have hm : (m : ℚ) = 2 * (m / 2 : ℕ) + (m % 2 : ℕ) := by
    exact_mod_cast (Nat.div_add_mod m 2).symm
  rcases Nat.mod_two_eq_zero_or_one m with hmod | hmod <;> rw [hmod] at hm <;>
    cases r <;> cases s <;>
    simp [Describes, ExtendedMantissa.shiftRightOne, hmod] at h hm ⊢ <;>
    (repeat' apply And.intro) <;> linarith

theorem Describes.shiftRight (h : Describes x em) (k : ℕ) :
    Describes (x / 2 ^ k) (em >>> k) := by
  induction k with
  | zero =>
    rw [pow_zero, div_one]
    exact h
  | succ k ih =>
    rw [pow_succ, ← div_div]
    exact ih.shiftRightOne

/-! ### The nearest number -/

/-- The whole number nearest to `y`, of two the even one. -/
def IsNearest (y : ℚ) (n : ℕ) : Prop :=
  n - 1 / 2 ≤ y ∧ y ≤ n + 1 / 2 ∧ (n % 2 = 1 → y ≠ n - 1 / 2 ∧ y ≠ n + 1 / 2)

theorem IsNearest.not_lt {y : ℚ} {n n' : ℕ} (h : IsNearest y n) (h' : IsNearest y n') :
    ¬ n < n' := by
  intro hlt
  obtain ⟨-, hle, hodd⟩ := h
  obtain ⟨hle', -, hodd'⟩ := h'
  -- only a tie between two numbers in a row is left, and one of them is odd
  have hstep : (n : ℚ) + 1 ≤ n' := by exact_mod_cast hlt
  have hn' : (n' : ℚ) = n + 1 := by linarith
  have htie : y = n + 1 / 2 := by linarith
  have hsucc : n' = n + 1 := by exact_mod_cast hn'
  rcases Nat.mod_two_eq_zero_or_one n with hmod | hmod
  · exact (hodd' (by omega)).1 (by linarith)
  · exact (hodd hmod).2 htie

theorem IsNearest.unique {y : ℚ} {n n' : ℕ} (h : IsNearest y n) (h' : IsNearest y n') :
    n = n' :=
  Nat.le_antisymm (Nat.le_of_not_lt (h'.not_lt h)) (Nat.le_of_not_lt (h.not_lt h'))

theorem isNearest_of_lt {y : ℚ} {n : ℕ} (hlow : (n : ℚ) - 1 / 2 < y) (hhigh : y < n + 1 / 2) :
    IsNearest y n :=
  ⟨hlow.le, hhigh.le, fun _ => ⟨ne_of_gt hlow, ne_of_lt hhigh⟩⟩

theorem isNearest_of_even {y : ℚ} {n : ℕ} (hn : n % 2 = 0) (hlow : (n : ℚ) - 1 / 2 ≤ y)
    (hhigh : y ≤ n + 1 / 2) : IsNearest y n :=
  ⟨hlow, hhigh, fun hodd => by omega⟩

theorem Describes.isNearest (h : Describes x em) : IsNearest x em.roundedMantissa := by
  obtain ⟨m, r, s⟩ := em
  cases r <;> cases s <;> simp only [Describes] at h <;>
    simp only [ExtendedMantissa.roundedMantissa, ExtendedMantissa.accuracy,
      Accuracy.roundToNearestEven]
  · exact isNearest_of_lt (by linarith) (by linarith)
  · exact isNearest_of_lt (by linarith) (by linarith)
  · -- the tie goes to the even neighbour
    have hmod : (m + m % 2) % 2 = 0 := by omega
    have hle : m % 2 ≤ 1 := by omega
    have hcast : ((m % 2 : ℕ) : ℚ) ≤ 1 := by exact_mod_cast hle
    apply isNearest_of_even hmod <;> push_cast <;> linarith
  · apply isNearest_of_lt <;> push_cast <;> linarith

/-! ### The numbers around a float -/

namespace Binary

/-- The mantissa and the exponent of a finite positive float. -/
structure Canonical (b : Binary) : Prop where
  pos : 0 < b.mantissa
  lt : b.mantissa < 2 ^ 53
  least_le : -1074 ≤ b.exponent
  le_greatest : b.exponent ≤ 971
  full : b.exponent ≠ -1074 → 2 ^ 52 ≤ b.mantissa
  edge_iff : b.edge = true ↔ b.mantissa = 2 ^ 52 ∧ b.exponent ≠ -1074

/-- The numbers that round to `b`, counted in units of its last place. -/
def Near (b : Binary) (z : ℚ) : Prop :=
  let low : ℚ := b.mantissa - if b.edge then 1 / 4 else 1 / 2
  let high : ℚ := b.mantissa + 1 / 2
  if b.mantissa % 2 = 0 then low ≤ z ∧ z ≤ high else low < z ∧ z < high

variable {b : Binary} {z : ℚ}

theorem Near.bounds (h : b.Near z) :
    (b.mantissa - if b.edge then 1 / 4 else 1 / 2 : ℚ) ≤ z ∧ z ≤ b.mantissa + 1 / 2 := by
  unfold Near at h
  dsimp only at h
  split at h
  · exact h
  · exact ⟨h.1.le, h.2.le⟩

theorem near_of_lt (hlow : (b.mantissa - if b.edge then 1 / 4 else 1 / 2 : ℚ) < z)
    (hhigh : z < b.mantissa + 1 / 2) : b.Near z := by
  unfold Near
  dsimp only
  split
  · exact ⟨hlow.le, hhigh.le⟩
  · exact ⟨hlow, hhigh⟩

theorem Near.isNearest (h : b.Near z) : IsNearest z b.mantissa := by
  have hlow : (b.mantissa : ℚ) - 1 / 2 ≤ b.mantissa - if b.edge then 1 / 4 else 1 / 2 := by
    split <;> linarith
  refine ⟨hlow.trans h.bounds.1, h.bounds.2, fun hodd => ?_⟩
  unfold Near at h
  dsimp only at h
  rw [if_neg (by omega)] at h
  exact ⟨ne_of_gt (lt_of_le_of_lt hlow h.1), ne_of_lt h.2⟩

end Binary

/-! ### The exponent of the result -/

theorem log2_eq {n k : ℕ} (hlow : 2 ^ k ≤ n) (hhigh : n < 2 ^ (k + 1)) : n.log2 = k := by
  have hn : n ≠ 0 := Nat.ne_of_gt (lt_of_lt_of_le (Nat.two_pow_pos k) hlow)
  exact (Nat.log2_eq_iff hn).mpr ⟨hlow, hhigh⟩

theorem targetExponent_eq (m : ℕ) (e : ℤ) :
    Format.binary64.targetExponent (totalExponent m e) = max (m.log2 + e - 52) (-1074) := by
  have hmin : Format.binary64.minExponent = -1074 := by decide
  unfold Format.targetExponent totalExponent
  rw [hmin]
  have hbits : (Format.binary64.mantissaBits : ℤ) = 53 := by decide
  rw [hbits]
  congr 1
  ring

/-- The exponent that rounding gives a number is the exponent of its float. -/
theorem Binary.Canonical.target_eq {b : Binary} (hb : b.Canonical) :
    max ((b.mantissa.log2 : ℤ) + b.exponent - 52) (-1074) = b.exponent := by
  have hle : b.mantissa.log2 ≤ 52 := by
    have hlt := (Nat.log2_lt (Nat.ne_of_gt hb.pos)).mpr hb.lt
    omega
  by_cases hleast : b.exponent = -1074
  · omega
  · have hlog := log2_eq (hb.full hleast) hb.lt
    have hge := hb.least_le
    omega

/-- A shift to an exponent that is not smaller divides by a power of two. -/
theorem Describes.shiftToExponent {m : ℕ} {e t : ℤ} {acc : Accuracy}
    (hx : Describes x (.ofMantissaAndAccuracy m acc)) (het : e ≤ t) :
    Describes (x * 2 ^ (e - t)) (UnpackedFloat.shiftToExponent m e acc t).1 ∧
      (UnpackedFloat.shiftToExponent m e acc t).2 = t := by
  obtain ⟨k, rfl⟩ : ∃ k : ℕ, t = e + k := ⟨(t - e).toNat, by omega⟩
  have hk : (e + k - e).toNat = k := by omega
  unfold UnpackedFloat.shiftToExponent
  dsimp only
  rw [hk]
  refine ⟨?_, rfl⟩
  have hscale : x * 2 ^ (e - (e + k)) = x / 2 ^ k := by
    rw [show e - (e + k) = -(k : ℤ) by ring, zpow_neg, zpow_natCast, div_eq_mul_inv]
  rw [hscale]
  exact hx.shiftRight k

theorem finite_congr {m m' : ℕ} {e e' : ℤ} {hm : 0 < m} {hm' : 0 < m'} (sign : Sign)
    (hmantissa : m = m') (hexponent : e = e') :
    UnpackedFloat.finite sign m e hm = .finite sign m' e' hm' := by
  subst hmantissa hexponent
  rfl

/-- A number described by `m` lies between two powers of two in a row. -/
theorem Describes.log2_bounds {m : ℕ} {acc : Accuracy}
    (hx : Describes x (.ofMantissaAndAccuracy m acc)) :
    x < 2 ^ (m.log2 + 1) ∧ (m ≠ 0 → 2 ^ m.log2 ≤ x) := by
  have hmantissa : (ExtendedMantissa.ofMantissaAndAccuracy m acc).mantissa = m := by
    unfold ExtendedMantissa.ofMantissaAndAccuracy
    split <;> rfl
  obtain ⟨hlow, hhigh⟩ := hx.bounds
  rw [hmantissa] at hlow hhigh
  constructor
  · have hsucc : m + 1 ≤ 2 ^ (m.log2 + 1) := Nat.lt_log2_self
    calc x < m + 1 := hhigh
      _ ≤ 2 ^ (m.log2 + 1) := by exact_mod_cast hsucc
  · intro hm
    calc (2 : ℚ) ^ m.log2 ≤ m := by exact_mod_cast Nat.log2_self_le hm
      _ ≤ x := hlow

namespace Binary

variable {b : Binary} {m : ℕ} {e : ℤ} {acc : Accuracy}

/-- Cutting off digits stops at the exponent of the float. It stops one before it only for
numbers right below a power of two. -/
theorem Canonical.target_cases (hb : b.Canonical)
    (hx : Describes x (.ofMantissaAndAccuracy m acc)) (hdigits : 52 ≤ m.log2 ∨ e ≤ -1074)
    (hnear : b.Near (x * 2 ^ (e - b.exponent))) {t : ℤ}
    (ht : max ((m.log2 : ℤ) + e - 52) (-1074) = t) :
    t = b.exponent ∨
      t = b.exponent - 1 ∧ b.mantissa = 2 ^ 52 ∧
        2 ^ 53 - 1 / 2 ≤ x * 2 ^ (e - t) ∧ x * 2 ^ (e - t) ≤ 2 ^ 53 := by
  obtain ⟨hlt, hge⟩ := hx.log2_bounds
  obtain ⟨hlow, hhigh⟩ := hnear.bounds
  have hM : (b.mantissa : ℚ) + 1 ≤ 2 ^ 53 := by exact_mod_cast hb.lt
  have hleast := hb.least_le
  rcases lt_trichotomy t b.exponent with hlt' | heq | hgt
  · right
    have hM' : 2 ^ 52 ≤ b.mantissa := hb.full (by omega)
    have hfull : (2 : ℚ) ^ 52 ≤ b.mantissa := by exact_mod_cast hM'
    have hhalf : (b.mantissa : ℚ) - 1 / 2 ≤ x * 2 ^ (e - b.exponent) := by
      refine le_trans ?_ hlow
      split <;> linarith
    have hscale : x * 2 ^ (e - t) = x * 2 ^ (e - b.exponent) * 2 ^ (b.exponent - t) := by
      rw [mul_assoc, ← zpow_add₀ (by norm_num)]
      congr 2
      ring
    have hsmall : x * 2 ^ (e - t) ≤ (2 : ℚ) ^ 53 := by
      calc x * 2 ^ (e - t) ≤ 2 ^ (m.log2 + 1) * 2 ^ (e - t) :=
            mul_le_mul_of_nonneg_right hlt.le (zpow_nonneg (by norm_num) _)
        _ = 2 ^ (((m.log2 + 1 : ℕ) : ℤ) + (e - t)) := by
            rw [zpow_add₀ (by norm_num), zpow_natCast]
        _ ≤ 2 ^ ((53 : ℕ) : ℤ) := zpow_le_zpow_right₀ (by norm_num) (by push_cast; omega)
        _ = 2 ^ 53 := zpow_natCast 2 53
    -- two exponents or more apart, the number would have a digit too many
    have hone : t = b.exponent - 1 := by
      by_contra hne
      have hfour : (2 : ℚ) ^ (2 : ℤ) ≤ 2 ^ (b.exponent - t) :=
        zpow_le_zpow_right₀ (by norm_num) (by omega)
      have hmul := mul_le_mul hhalf hfour (by norm_num) (by linarith)
      rw [← hscale, zpow_two] at hmul
      linarith
    rw [hscale, show b.exponent - t = 1 by omega, zpow_one] at hsmall ⊢
    have hle : b.mantissa ≤ 2 ^ 52 := by
      have hcast : (b.mantissa : ℚ) < ((2 ^ 52 + 1 : ℕ) : ℚ) := by
        push_cast
        linarith
      have := Nat.cast_lt.mp hcast
      omega
    have heq : b.mantissa = 2 ^ 52 := le_antisymm hle hM'
    have hedge : b.edge = true := hb.edge_iff.mpr ⟨heq, by omega⟩
    rw [if_pos hedge, heq] at hlow
    refine ⟨hone, heq, ?_, hsmall⟩
    push_cast at hlow
    linarith
  · exact .inl heq
  · -- the number would have more digits than the float
    exfalso
    have hm : m ≠ 0 := by
      intro hm
      rw [hm, Nat.log2_zero] at hdigits ht
      omega
    have hbig : (2 : ℚ) ^ (53 : ℤ) ≤ x * 2 ^ (e - b.exponent) := by
      calc (2 : ℚ) ^ (53 : ℤ) ≤ 2 ^ ((m.log2 : ℤ) + (e - b.exponent)) :=
            zpow_le_zpow_right₀ (by norm_num) (by omega)
        _ = 2 ^ m.log2 * 2 ^ (e - b.exponent) := by
            rw [zpow_add₀ (by norm_num), zpow_natCast]
        _ ≤ x * 2 ^ (e - b.exponent) :=
            mul_le_mul_of_nonneg_right (hge hm) (zpow_nonneg (by norm_num) _)
    norm_num at hbig hM
    linarith

/-- Rounding takes the nearest number with the digits that are left, and then may shift the
result. -/
theorem roundWithAccuracy_of_isNearest (sign : Sign) {t : ℤ} {r k M : ℕ} (hM : 0 < M)
    (hx : Describes x (.ofMantissaAndAccuracy m acc)) (hdigits : 52 ≤ m.log2 ∨ e ≤ -1074)
    (ht : max ((m.log2 : ℤ) + e - 52) (-1074) = t) (hr : IsNearest (x * 2 ^ (e - t)) r)
    (hk : max ((r.log2 : ℤ) + t - 52) (-1074) = t + k)
    (hmantissa : (ExtendedMantissa.mk r false false >>> k).mantissa = M) :
    roundWithAccuracy .binary64 sign m e acc = .finite sign M (t + k) hM := by
  have het : e ≤ t := by omega
  obtain ⟨hdescribes, hexponent⟩ := hx.shiftToExponent het
  have hfirst := hdescribes.isNearest.unique hr
  have hamount : (t + k - t).toNat = k := by omega
  unfold roundWithAccuracy shiftToTargetExponent
  rw [targetExponent_eq, ht]
  dsimp only
  rw [hfirst, hexponent, targetExponent_eq, hk]
  unfold shiftToExponent ExtendedMantissa.ofMantissaAndAccuracy
  dsimp only
  rw [hamount]
  rw [← hmantissa] at hM
  rw [dif_neg (Nat.ne_of_gt hM)]
  exact finite_congr sign hmantissa rfl

/-- A number that is near a float is rounded to it. -/
theorem Canonical.roundWithAccuracy_eq (hb : b.Canonical) (sign : Sign)
    (hx : Describes x (.ofMantissaAndAccuracy m acc)) (hdigits : 52 ≤ m.log2 ∨ e ≤ -1074)
    (hnear : b.Near (x * 2 ^ (e - b.exponent))) :
    roundWithAccuracy .binary64 sign m e acc =
      .finite sign b.mantissa b.exponent hb.pos := by
  rcases hb.target_cases hx hdigits hnear rfl with ht | ⟨ht, hM, hlow, hhigh⟩
  · have hr := hnear.isNearest
    have hk : max ((b.mantissa.log2 : ℤ) + b.exponent - 52) (-1074) = b.exponent + (0 : ℕ) :=
      hb.target_eq.trans (add_zero _).symm
    rw [roundWithAccuracy_of_isNearest sign hb.pos hx hdigits ht hr hk rfl]
    exact finite_congr sign rfl (add_zero _)
  · -- the mantissa overflows to the next power of two
    have hr : IsNearest (x * 2 ^ (e - (b.exponent - 1))) (2 ^ 53) := by
      rw [ht] at hlow hhigh
      apply isNearest_of_even (by norm_num) <;> push_cast <;> linarith
    have hk : max (((2 ^ 53 : ℕ).log2 : ℤ) + (b.exponent - 1) - 52) (-1074) =
        b.exponent - 1 + (1 : ℕ) := by
      rw [Nat.log2_two_pow]
      have := hb.least_le
      omega
    rw [roundWithAccuracy_of_isNearest sign hb.pos hx hdigits ht hr hk hM.symm]
    exact finite_congr sign rfl (sub_add_cancel _ _)

end Binary

/-! ### Products and quotients -/

theorem describes_exact (m : ℕ) : Describes m (.ofMantissaAndAccuracy m .exact) := rfl

theorem describes_accuracyOfFraction (q : ℕ) {num den : ℕ} (hlt : num < den) :
    Describes (q + num / den) (.ofMantissaAndAccuracy q (accuracyOfFraction num den)) := by
  have hden : (0 : ℚ) < den := by exact_mod_cast (Nat.zero_le num).trans_lt hlt
  have hone : (num : ℚ) / den < 1 := (div_lt_one hden).mpr (by exact_mod_cast hlt)
  unfold accuracyOfFraction
  by_cases hnum : num = 0
  · rw [if_pos hnum, hnum, Nat.cast_zero, zero_div, add_zero]
    exact describes_exact q
  · rw [if_neg hnum]
    have hpos : (0 : ℚ) < num / den :=
      div_pos (by exact_mod_cast Nat.pos_of_ne_zero hnum) hden
    rcases Nat.lt_trichotomy (2 * num) den with h | h | h
    · have hhalf : (num : ℚ) / den < 1 / 2 := by
        rw [div_lt_div_iff₀ hden two_pos, one_mul, mul_comm]
        exact_mod_cast h
      rw [Nat.compare_eq_lt.mpr h]
      exact ⟨lt_add_of_pos_right _ hpos, add_lt_add_right hhalf _⟩
    · have hhalf : (num : ℚ) / den = 1 / 2 := by
        rw [div_eq_div_iff hden.ne' two_ne_zero, one_mul, mul_comm]
        exact_mod_cast h
      rw [Nat.compare_eq_eq.mpr h]
      exact congrArg ((q : ℚ) + ·) hhalf
    · have hhalf : 1 / 2 < (num : ℚ) / den := by
        rw [div_lt_div_iff₀ two_pos hden, one_mul, mul_comm]
        exact_mod_cast h
      rw [Nat.compare_eq_gt.mpr h]
      exact ⟨add_lt_add_right hhalf _, add_lt_add_right hone _⟩

variable {m₁ m₂ : ℕ} {e₁ e₂ : ℤ}

/-- The quotient of two mantissas with enough digits, and the rest that it leaves. -/
theorem describes_divCore (hm₁ : 0 < m₁) (hm₂ : 0 < m₂) {q : ℕ} {t : ℤ} {acc : Accuracy}
    (h : divCore .binary64 m₁ e₁ m₂ e₂ = (q, t, acc)) :
    Describes (m₁ / m₂ * 2 ^ (e₁ - e₂ - t)) (.ofMantissaAndAccuracy q acc) ∧
      (52 ≤ q.log2 ∨ t ≤ -1074) := by
  have htotal : totalExponent m₁ e₁ - totalExponent m₂ e₂ =
      totalExponent m₁ (e₁ - e₂ - m₂.log2 - 1) := by
    unfold totalExponent
    ring
  unfold divCore at h
  dsimp only at h
  rw [htotal, targetExponent_eq] at h
  obtain ⟨hq, ht, hacc⟩ : _ ∧ _ ∧ _ := by simpa only [Prod.mk.injEq] using h
  rw [ht, Nat.shiftLeft_eq] at hq hacc
  obtain ⟨k, hk⟩ : ∃ k : ℕ, e₁ - e₂ - t = k := ⟨(e₁ - e₂ - t).toNat, by omega⟩
  rw [hk, Int.toNat_natCast] at hq hacc
  have hm₂' : (m₂ : ℚ) ≠ 0 := by exact_mod_cast hm₂.ne'
  constructor
  · have hvalue : (m₁ / m₂ * 2 ^ (e₁ - e₂ - t) : ℚ) = q + (m₁ * 2 ^ k % m₂ : ℕ) / m₂ := by
      have hdivMod : ((m₁ * 2 ^ k : ℕ) : ℚ) = m₂ * q + (m₁ * 2 ^ k % m₂ : ℕ) := by
        rw [← hq]
        exact_mod_cast (Nat.div_add_mod _ _).symm
      rw [hk, zpow_natCast]
      push_cast at hdivMod
      field_simp
      rw [hdivMod]
    rw [hvalue, ← hacc]
    exact describes_accuracyOfFraction q (Nat.mod_lt _ hm₂)
  · by_cases htle : t ≤ -1074
    · exact .inr htle
    · -- the dividend has at least 53 digits more than the divisor
      left
      have hdigits : 53 + m₂.log2 ≤ m₁.log2 + k := by omega
      have hbig : 2 ^ 52 * m₂ ≤ m₁ * 2 ^ k := by
        calc 2 ^ 52 * m₂ ≤ 2 ^ 52 * 2 ^ (m₂.log2 + 1) :=
              Nat.mul_le_mul_left _ Nat.lt_log2_self.le
          _ = 2 ^ (53 + m₂.log2) := by rw [← pow_add]; congr 1; omega
          _ ≤ 2 ^ (m₁.log2 + k) := Nat.pow_le_pow_right two_pos hdigits
          _ = 2 ^ m₁.log2 * 2 ^ k := pow_add _ _ _
          _ ≤ m₁ * 2 ^ k := Nat.mul_le_mul_right _ (Nat.log2_self_le hm₁.ne')
      have hq52 : 2 ^ 52 ≤ q := by
        rw [← hq]
        exact (Nat.le_div_iff_mul_le hm₂).mpr hbig
      have hq0 : q ≠ 0 := by omega
      exact (Nat.le_log2 hq0).mpr hq52

namespace Binary

variable {b : Binary}

theorem Canonical.mul_eq (hb : b.Canonical) (hm₁ : 0 < m₁) (hm₂ : 0 < m₂)
    (hdigits : 52 ≤ (m₁ * m₂).log2 ∨ e₁ + e₂ ≤ -1074)
    (hnear : b.Near (m₁ * m₂ * 2 ^ (e₁ + e₂ - b.exponent))) :
    mul .binary64 (.finite .positive m₁ e₁ hm₁) (.finite .positive m₂ e₂ hm₂) =
      .finite .positive b.mantissa b.exponent hb.pos := by
  rw [← Nat.cast_mul] at hnear
  exact hb.roundWithAccuracy_eq _ (describes_exact _) hdigits hnear

theorem Canonical.div_eq (hb : b.Canonical) (hm₁ : 0 < m₁) (hm₂ : 0 < m₂)
    (hnear : b.Near (m₁ / m₂ * 2 ^ (e₁ - e₂ - b.exponent))) :
    div .binary64 (.finite .positive m₁ e₁ hm₁) (.finite .positive m₂ e₂ hm₂) =
      .finite .positive b.mantissa b.exponent hb.pos := by
  rcases hcore : divCore .binary64 m₁ e₁ m₂ e₂ with ⟨q, t, acc⟩
  obtain ⟨hdescribes, hdigits⟩ := describes_divCore hm₁ hm₂ hcore
  have hscale : (m₁ / m₂ * 2 ^ (e₁ - e₂ - b.exponent) : ℚ) =
      m₁ / m₂ * 2 ^ (e₁ - e₂ - t) * 2 ^ (t - b.exponent) := by
    rw [mul_assoc, ← zpow_add₀ two_ne_zero, sub_add_sub_cancel]
  rw [hscale] at hnear
  unfold UnpackedFloat.div
  dsimp only
  rw [hcore]
  exact hb.roundWithAccuracy_eq _ hdescribes hdigits hnear

end Binary
end ProbLogic
