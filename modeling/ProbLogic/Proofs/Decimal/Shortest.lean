/-
# The text of a float reads back

Among the multiples of a power of ten, the two neighbours of a float are the
ones to try. If the grid is finer than the numbers around the float are wide,
one of them rounds to it (`Binary.Canonical.near_of_step`). With 17 digits the grid
is fine enough: its step is at most a `10 ^ 16`th part of a float of less than
`2 ^ 53` units. So the search for the shortest decimal ends with one that is
near the float (`Binary.Canonical.near_shortest`), and the text of a finite
float is a numeral that is read as this float (`spells_floatText`,
`toFloat_floatDecimal`).

Key definitions: `Decimal.spelled`, `floatDecimal`.
Key theorems: `Binary.Canonical.near_shortest`, `spells_floatText`, `toFloat_floatDecimal`.
-/
import ProbLogic.Proofs.Token
import ProbLogic.Proofs.Decimal.Nearest
import Mathlib.Data.Nat.Cast.Order.Field

namespace ProbLogic

namespace Binary

variable {b : Binary} {t : ℤ}

theorem up_pos {base : ℕ} (hbase : 0 < base) (e : ℤ) : 0 < up base e := Nat.pow_pos hbase

theorem cast_up {base : ℕ} (hbase : 0 < base) (e : ℤ) :
    (up base e : ℚ) = base ^ e * up base (-e) := by
  have hne : (up base (-e) : ℚ) ≠ 0 := by exact_mod_cast (up_pos hbase (-e)).ne'
  rw [← up_div_up hbase e, div_mul_cancel₀ _ hne]

/-! ### Multiples of a power of ten -/

theorem grid_pos (b : Binary) (t : ℤ) : 0 < b.grid t :=
  Nat.mul_pos (up_pos (by norm_num) _) (up_pos two_pos _)

theorem quarter_pos (b : Binary) (t : ℤ) : 0 < b.quarter t :=
  Nat.mul_pos (up_pos two_pos _) (up_pos (by norm_num) _)

/-- A multiple of `10 ^ t` in quarters of `b`'s unit. -/
theorem cast_mul_grid (b : Binary) (t : ℤ) (c : ℕ) :
    (c * b.grid t : ℚ) = 4 * (c * 10 ^ t / 2 ^ b.exponent) * b.quarter t := by
  have hpow : (2 : ℚ) ^ (2 - b.exponent) = 4 / 2 ^ b.exponent := by
    rw [zpow_sub₀ two_ne_zero]
    norm_num
  rw [grid, quarter, Nat.cast_mul, Nat.cast_mul, cast_up (by norm_num) t,
    cast_up two_pos (2 - b.exponent), neg_sub, Nat.cast_ofNat, Nat.cast_ofNat, hpow]
  ring

theorem quarters_strictMono (b : Binary) (t : ℤ) :
    StrictMono fun x : ℚ => 4 * x * b.quarter t := by
  have hquarter : (0 : ℚ) < b.quarter t := by exact_mod_cast b.quarter_pos t
  intro x y hxy
  exact mul_lt_mul_of_pos_right (by linarith) hquarter

theorem readsBack_iff (hpos : 0 < b.mantissa) (c : ℕ) :
    b.readsBack t c = true ↔ b.Near (c * 10 ^ t / 2 ^ b.exponent) := by
  have hmono := quarters_strictMono b t
  have hgrid := cast_mul_grid b t c
  have hlow : ((4 * b.mantissa - if b.edge then 1 else 2 : ℕ) : ℚ) =
      4 * (b.mantissa - if b.edge then 1 / 4 else 1 / 2) := by
    rw [Nat.cast_sub]
    · push_cast
      split <;> ring
    · split <;> omega
  have hhigh : ((4 * b.mantissa + 2 : ℕ) : ℚ) = 4 * (b.mantissa + 1 / 2) := by
    push_cast
    ring
  unfold readsBack Near
  dsimp only
  split <;>
    rw [Bool.and_eq_true, decide_eq_true_iff, decide_eq_true_iff]
  · rw [← Nat.cast_le (α := ℚ), ← Nat.cast_le (α := ℚ)]
    simp only [Nat.cast_mul, hlow, hhigh, hgrid]
    exact and_congr hmono.le_iff_le hmono.le_iff_le
  · rw [← Nat.cast_lt (α := ℚ), ← Nat.cast_lt (α := ℚ)]
    simp only [Nat.cast_mul, hlow, hhigh, hgrid]
    exact and_congr hmono.lt_iff_lt hmono.lt_iff_lt

theorem below_bounds (b : Binary) (t : ℤ) :
    b.below t * 10 ^ t / 2 ^ b.exponent ≤ (b.mantissa : ℚ) ∧
      b.mantissa < ((b.below t + 1 : ℕ) : ℚ) * 10 ^ t / 2 ^ b.exponent := by
  have hmono := quarters_strictMono b t
  constructor
  · rw [← hmono.le_iff_le, ← cast_mul_grid]
    exact_mod_cast Nat.div_mul_le_self _ _
  · rw [← hmono.lt_iff_lt, ← cast_mul_grid, mul_comm ((b.below t + 1 : ℕ) : ℚ)]
    exact_mod_cast Nat.lt_mul_div_succ _ (b.grid_pos t)

/-- Of the two neighbours one that rounds to `b` is taken, if there is one. -/
theorem neighbour?_cases (b : Binary) (t : ℤ) :
    (∃ c, b.readsBack t c = true ∧ b.neighbour? t = some ⟨c, t⟩) ∨
      b.neighbour? t = none ∧ b.readsBack t (b.below t) = false ∧
        b.readsBack t (b.below t + 1) = false := by
  unfold neighbour?
  dsimp only
  split
  next hbelow habove =>
    split
    · exact .inl ⟨_, hbelow, rfl⟩
    · exact .inl ⟨_, habove, rfl⟩
  next hbelow habove => exact .inl ⟨_, hbelow, rfl⟩
  next hbelow habove => exact .inl ⟨_, habove, rfl⟩
  next hbelow habove => exact .inr ⟨rfl, hbelow, habove⟩

/-! ### Seventeen digits -/

/-- Steps of at most a `10 ^ 16`th part of `b` do not miss the numbers around it. -/
theorem Canonical.near_of_step (hb : b.Canonical) {z s : ℚ} (hz : z ≤ b.mantissa)
    (hz' : b.mantissa < z + s) (hs : s * 10 ^ 16 ≤ b.mantissa) : b.Near z ∨ b.Near (z + s) := by
  have hM : (b.mantissa : ℚ) + 1 ≤ 2 ^ 53 := by exact_mod_cast hb.lt
  have hstep : s < (if b.edge then 1 / 4 else 1 / 2) + 1 / 2 := by
    split
    · next hedge =>
      have heq : (b.mantissa : ℚ) = 2 ^ 52 := by exact_mod_cast (hb.edge_iff.mp hedge).1
      linarith
    · linarith
  have hpos : (0 : ℚ) < if b.edge then 1 / 4 else 1 / 2 := by split <;> norm_num
  by_cases hlow : (b.mantissa - if b.edge then 1 / 4 else 1 / 2 : ℚ) < z
  · exact .inl (near_of_lt hlow (by linarith))
  · exact .inr (near_of_lt (by linarith) (by linarith))

/-- The digits of `den / num`, rounded up and lessened by one, bound it. -/
theorem pow_length_toDigits_le {num den : ℕ} (hnum : 0 < num) (hlt : num < den) :
    (10 : ℚ) ^ (-((Nat.toDigits 10 ((den + num - 1) / num - 1)).length : ℤ)) ≤ num / den := by
  have htwo : 2 ≤ (den + num - 1) / num := (Nat.le_div_iff_mul_le hnum).mpr (by omega)
  have hround := Nat.lt_mul_div_succ (den + num - 1) hnum
  obtain ⟨n, hn⟩ : ∃ n, (den + num - 1) / num = n + 1 := ⟨(den + num - 1) / num - 1, by omega⟩
  rw [hn] at htwo hround ⊢
  rw [Nat.add_sub_cancel]
  obtain ⟨-, hdigits⟩ := toDigits_bounds (n := n) (by omega)
  rw [zpow_natCast] at hdigits
  have hsucc : n + 1 ≤ 10 ^ (Nat.toDigits 10 n).length := by exact_mod_cast hdigits
  have hden : den ≤ num * (n + 1) := by
    rw [Nat.mul_succ num (n + 1)] at hround
    omega
  have hbound : den ≤ num * 10 ^ (Nat.toDigits 10 n).length :=
    hden.trans (Nat.mul_le_mul_left num hsucc)
  have hden0 : (0 : ℚ) < den := by exact_mod_cast hnum.trans hlt
  rw [zpow_neg, zpow_natCast, inv_eq_one_div, div_le_div_iff₀ (by positivity) hden0, one_mul]
  exact_mod_cast hbound

/-- The magnitude is not too large. -/
theorem Canonical.le_value (hb : b.Canonical) :
    (10 : ℚ) ^ (b.magnitude - 1) ≤ b.mantissa * 2 ^ b.exponent := by
  have hnum : 0 < b.mantissa * up 2 b.exponent := Nat.mul_pos hb.pos (up_pos two_pos _)
  have hden : 0 < up 2 (-b.exponent) := up_pos two_pos _
  have hden' : (0 : ℚ) < up 2 (-b.exponent) := by exact_mod_cast hden
  have hvalue : (b.mantissa * 2 ^ b.exponent : ℚ) =
      (b.mantissa * up 2 b.exponent : ℕ) / up 2 (-b.exponent) := by
    rw [Nat.cast_mul, mul_div_assoc, up_div_up two_pos, Nat.cast_two]
  rw [hvalue]
  unfold magnitude
  dsimp only
  split
  · next hle =>
    have hquotient : 0 < b.mantissa * up 2 b.exponent / up 2 (-b.exponent) :=
      Nat.div_pos hle hden
    exact (toDigits_bounds hquotient).1.trans Nat.cast_div_le
  · next hlt =>
    rw [sub_sub_cancel_left]
    exact pow_length_toDigits_le hnum (Nat.lt_of_not_le hlt)

theorem Canonical.exists_neighbour? (hb : b.Canonical) :
    ∃ d, b.neighbour? (b.magnitude - 17) = some d := by
  obtain ⟨hbelow, habove⟩ := b.below_bounds (b.magnitude - 17)
  have hpow : (0 : ℚ) < 2 ^ b.exponent := zpow_pos two_pos _
  have hsucc : ((b.below (b.magnitude - 17) + 1 : ℕ) : ℚ) * 10 ^ (b.magnitude - 17) /
      2 ^ b.exponent = b.below (b.magnitude - 17) * 10 ^ (b.magnitude - 17) / 2 ^ b.exponent +
        10 ^ (b.magnitude - 17) / 2 ^ b.exponent := by
    push_cast
    ring
  have hstep : (10 : ℚ) ^ (b.magnitude - 17) / 2 ^ b.exponent * 10 ^ 16 ≤ b.mantissa := by
    have hscale : (10 : ℚ) ^ (b.magnitude - 1) = 10 ^ (b.magnitude - 17) * 10 ^ 16 := by
      rw [← zpow_natCast, ← zpow_add₀ (by norm_num)]
      congr 1
      push_cast
      ring
    have hle := hb.le_value
    rw [hscale, ← div_le_iff₀ hpow] at hle
    rwa [div_mul_eq_mul_div]
  rcases b.neighbour?_cases (b.magnitude - 17) with ⟨c, -, hc⟩ | ⟨-, hnot, hnot'⟩
  · exact ⟨_, hc⟩
  · rw [Bool.eq_false_iff, ne_eq, readsBack_iff hb.pos] at hnot hnot'
    rw [hsucc] at habove hnot'
    rcases hb.near_of_step hbelow habove hstep with h | h
    · exact absurd h hnot
    · exact absurd h hnot'

/-- The search ends with a decimal near the float. -/
theorem Canonical.near_shortest (hb : b.Canonical) :
    b.Near (b.shortest.toRat / 2 ^ b.exponent) := by
  have hsome : ∃ d, ((List.range 17).findSome? fun k => b.neighbour? (b.magnitude - (k + 1 : ℕ))) =
      some d := by
    cases hsearch : (List.range 17).findSome? fun k => b.neighbour? (b.magnitude - (k + 1 : ℕ)) with
    | some d => exact ⟨d, rfl⟩
    | none =>
      obtain ⟨d, hd⟩ := hb.exists_neighbour?
      have hlast := List.findSome?_eq_none_iff.mp hsearch 16 (by decide)
      rw [show (16 + 1 : ℕ) = (17 : ℤ) by norm_num, hd] at hlast
      cases hlast
  obtain ⟨d, hd⟩ := hsome
  obtain ⟨k, -, hk⟩ := List.exists_of_findSome?_eq_some hd
  have hnear : b.Near (d.toRat / 2 ^ b.exponent) := by
    rcases b.neighbour?_cases (b.magnitude - (k + 1 : ℕ)) with ⟨c, hc, hsome⟩ | ⟨hnone, -⟩
    · rw [hsome, Option.some_inj] at hk
      rw [← hk]
      exact (readsBack_iff hb.pos c).mp hc
    · rw [hnone] at hk
      cases hk
  have hvalue : b.shortest.toRat = d.toRat := by
    unfold shortest
    dsimp only
    rw [hd, Option.getD_some]
    split
    · next hten =>
      unfold Decimal.toRat
      rw [hten, zpow_add_one₀ (by norm_num)]
      push_cast
      ring
    · rfl
  rw [hvalue]
  exact hnear

end Binary

/-! ### The text -/

open Token Text

namespace Decimal

/-- The decimal that a numeral without an exponent spells. -/
def spelled (d : Decimal) : Decimal :=
  if 0 ≤ d.exponent then ⟨d.mantissa * 10 ^ d.exponent.toNat, 0⟩ else d

theorem toRat_spelled (d : Decimal) : d.spelled.toRat = d.toRat := by
  unfold spelled
  by_cases he : 0 ≤ d.exponent
  · rw [if_pos he]
    unfold toRat
    rw [zpow_zero, mul_one, Nat.cast_mul, Nat.cast_pow, Nat.cast_ofNat, ← zpow_natCast,
      Int.toNat_of_nonneg he]
  · rw [if_neg he]

/-- Digits with a point before the last `k` of them. -/
theorem spells_split {ds : List Char} {k : ℕ} (hds : ∀ c ∈ ds, c.isDigit = true) (hk : 0 < k)
    (hlength : k < ds.length) :
    Spells ⟨digitsValue ds, -k⟩ (ds.take (ds.length - k) ++ '.' :: ds.drop (ds.length - k)) := by
  have hlengths : (ds.take (ds.length - k)).length = ds.length - k ∧
      (ds.drop (ds.length - k)).length = k := by
    rw [List.length_take, List.length_drop]
    omega
  have hvalue : ofDigits (ds.take (ds.length - k)) (ds.drop (ds.length - k)) =
      ⟨digitsValue ds, -k⟩ := by
    unfold ofDigits
    rw [List.take_append_drop, hlengths.2]
  rw [← hvalue]
  apply Spells.point
  · apply List.ne_nil_of_length_pos
    omega
  · exact fun c hc => hds c (List.mem_of_mem_take hc)
  · apply List.ne_nil_of_length_pos
    omega
  · exact fun c hc => hds c (List.mem_of_mem_drop hc)

theorem spells_positional (d : Decimal) : Spells d.spelled d.positional := by
  have hdigits := isDigit_toDigits d.mantissa
  have hzeros (k : ℕ) : ∀ c ∈ List.replicate k '0', c.isDigit = true := by
    intro c hc
    rw [List.eq_of_mem_replicate hc]
    rfl
  unfold spelled positional
  by_cases he : 0 ≤ d.exponent
  · have hvalue : ofDigits (Nat.toDigits 10 d.mantissa ++ List.replicate d.exponent.toNat '0') [] =
        ⟨d.mantissa * 10 ^ d.exponent.toNat, 0⟩ := by
      unfold ofDigits
      rw [List.append_nil, digitsValue_eq_ofDigitChars, Nat.ofDigitChars_append,
        Nat.ofDigitChars_ten_toDigits, Nat.ofDigitChars_replicate_zero, Nat.mul_comm]
      rfl
    dsimp only
    rw [if_pos he, if_pos he, ← hvalue]
    apply Spells.whole
    · exact List.append_ne_nil_of_left_ne_nil Nat.toDigits_ne_nil _
    · intro c hc
      rcases List.mem_append.mp hc with h | h
      · exact hdigits c h
      · exact hzeros _ c h
  · dsimp only
    rw [if_neg he, if_neg he]
    generalize hpadded : List.replicate
      (d.exponent.natAbs + 1 - (Nat.toDigits 10 d.mantissa).length) '0' ++
        Nat.toDigits 10 d.mantissa = padded
    have hvalue : (⟨digitsValue padded, -(d.exponent.natAbs : ℤ)⟩ : Decimal) = d := by
      have hmantissa : digitsValue padded = d.mantissa := by
        rw [← hpadded, digitsValue_eq_ofDigitChars, Nat.ofDigitChars_append,
          Nat.ofDigitChars_replicate_zero, Nat.mul_zero, Nat.ofDigitChars_ten_toDigits]
      have hexponent : -(d.exponent.natAbs : ℤ) = d.exponent := by omega
      rw [hmantissa, hexponent]
    have hlength : d.exponent.natAbs < padded.length := by
      rw [← hpadded, List.length_append, List.length_replicate]
      omega
    have hpaddedDigits : ∀ c ∈ padded, c.isDigit = true := by
      intro c hc
      rw [← hpadded] at hc
      rcases List.mem_append.mp hc with h | h
      · exact hzeros _ c h
      · exact hdigits c h
    have hspells := spells_split hpaddedDigits (by omega) hlength
    rwa [hvalue] at hspells

end Decimal

/-- The decimal that the text of a finite float without a sign spells. -/
def floatDecimal (x : Float) : Decimal :=
  if x.toBits.toNat = 0 then ⟨0, 0⟩ else (Binary.ofBits x.toBits.toNat).shortest.spelled

variable {x : Float}

theorem spells_floatText (hx : x.toBits.toNat < 0x7FF0000000000000) :
    Spells (floatDecimal x) (Decimal.floatText x).toList := by
  have hsize : x.toBits.toNat % Nat.pow 2 63 = x.toBits.toNat := by
    rw [Nat.pow_eq]
    omega
  have htext : (Decimal.floatText x).toList = Decimal.magnitudeText x.toBits.toNat := by
    unfold Decimal.floatText
    dsimp only
    rw [hsize, if_neg (by omega), if_pos rfl, List.nil_append, String.toList_ofList]
  rw [htext]
  unfold floatDecimal Decimal.magnitudeText
  by_cases hzero : x.toBits.toNat = 0
  · rw [if_pos hzero, if_pos hzero]
    have hdigits : ∀ c ∈ ['0'], c.isDigit = true := List.all_eq_true.mp (by decide)
    exact Spells.whole (List.cons_ne_nil _ _) hdigits
  · rw [if_neg hzero, if_neg hzero, if_pos hx]
    exact Decimal.spells_positional _

theorem toFloat_floatDecimal (hx : x.toBits.toNat < 0x7FF0000000000000) :
    (floatDecimal x).toFloat = x := by
  unfold floatDecimal
  by_cases hzero : x.toBits.toNat = 0
  · rw [if_pos hzero]
    apply eq_of_toBits
    rw [hzero]
    decide +kernel
  · have hb := Binary.canonical_ofBits (Nat.pos_of_ne_zero hzero) hx
    have hnear := hb.near_shortest
    rw [if_neg hzero]
    rw [← Decimal.toRat_spelled] at hnear
    exact (hb.toFloat_eq hnear).trans (pack_ofBits (Nat.pos_of_ne_zero hzero) hx)

end ProbLogic
