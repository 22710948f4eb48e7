/-
# Reading the text of a float

A numeral is read as the float nearest to its value. The text of a finite float
that has no sign is a numeral of a decimal that is nearest to the float, so it
reads back. Of the finite floats with a sign only the negative zero is not
below zero; its text is `-0`. The text of any number has no blanks, and is one of
three words or starts, after its sign, with a digit or a point.

Key definitions: `Decimal.isNumeric`.
Key theorems: `readFloat?_of_spells`, `isField_of_readFloat?`, `toBits_cases_of_zero_le`,
`readFloat?_floatText`.
-/
import ProbLogic.Decimal.Reader
import ProbLogic.Proofs.Decimal.Shortest

namespace ProbLogic

open Float.Model Float.Model.UnpackedFloat Text Token

/-! ### Numerals -/

section Numerals

variable {d : Decimal} {cs : List Char}

theorem Token.Spells.not_isBlank (h : Spells d cs) : ∀ c ∈ cs, isBlank c = false := by
  cases h with
  | whole _ hds => exact fun c hc => isBlank_of_isDigit (hds c hc)
  | point _ hds _ hfs =>
    intro c hc
    rcases List.mem_append.mp hc with hc | hc
    · exact isBlank_of_isDigit (hds c hc)
    · rcases List.mem_cons.mp hc with rfl | hc
      · decide
      · exact isBlank_of_isDigit (hfs c hc)

/-- The digits of a decimal are read as it. -/
theorem Decimal.read?_of_spells (h : Spells d cs) : Decimal.read? cs = some d := by
  have hnil : Stops Char.isDigit [] := fun c hc => nomatch hc
  cases h with
  | @whole ds hne hds =>
    have htake := takeWhile_append_eq hds hnil
    have hdrop := dropWhile_append_eq hds hnil
    rw [List.append_nil] at htake hdrop
    simp [Decimal.read?, htake, hdrop, hne, Decimal.readExponent?]
  | @point ds fs hne hds hfs hfraction =>
    have hpoint : Stops Char.isDigit ('.' :: fs) := stops_cons (by decide) fs
    have htake := takeWhile_append_eq hfraction hnil
    have hdrop := dropWhile_append_eq hfraction hnil
    rw [List.append_nil] at htake hdrop
    simp [Decimal.read?, takeWhile_append_eq hds hpoint, dropWhile_append_eq hds hpoint, htake,
      hdrop, hne, Decimal.readExponent?]

theorem toLower_of_isDigit {c : Char} (h : c.isDigit = true) : c.toLower = c := by
  obtain ⟨-, hhigh⟩ := toNat_of_isDigit h
  have hsmall : ¬ (c.val ≥ 'A'.val ∧ c.val ≤ 'Z'.val) := by
    rintro ⟨hA, -⟩
    have hA : 65 ≤ c.toNat := hA
    omega
  unfold Char.toLower
  rw [dif_neg hsmall]

/-- A numeral is read as the float nearest to it. -/
theorem readFloat?_of_spells (h : Spells d cs) : Decimal.readFloat? cs = some d.toFloat := by
  obtain ⟨c, ds, rfl, hc⟩ := h.exists_digit
  -- a digit is neither a sign nor the start of a word
  have hne : ∀ e : Char, e.isDigit = false → c ≠ e := by
    rintro e he rfl
    rw [hc] at he
    cases he
  have hword : ∀ e w, e.isDigit = false → String.ofList ((c :: ds).map Char.toLower) ≠
      String.ofList (e :: w) := by
    intro e w he heq
    have hlist := congrArg String.toList heq
    rw [String.toList_ofList, String.toList_ofList, List.map_cons, toLower_of_isDigit hc] at hlist
    exact hne e he (List.cons.inj hlist).1
  have hmagnitude : Decimal.readMagnitude? (c :: ds) = some d.toFloat := by
    unfold Decimal.readMagnitude?
    dsimp only
    rw [if_neg (not_or.mpr ⟨hword 'i' ['n', 'f'] (by decide),
        hword 'i' ['n', 'f', 'i', 'n', 'i', 't', 'y'] (by decide)⟩),
      if_neg (hword 'n' ['a', 'n'] (by decide)), Decimal.read?_of_spells h]
    rfl
  rw [← hmagnitude]
  unfold Decimal.readFloat?
  split
  · next heq => exact absurd (List.cons.inj heq).1 (hne '-' (by decide))
  · next heq => exact absurd (List.cons.inj heq).1 (hne '+' (by decide))
  · rfl

end Numerals

/-! ### The characters of a number -/

section Characters

variable {c : Char} {cs : List Char}

/-- A letter, a digit, a sign or a point. -/
def Decimal.isNumeric (c : Char) : Bool := c.isAlphanum || c == '+' || c == '-' || c == '.'

theorem Decimal.isNumeric_of_isDigit (h : c.isDigit = true) : isNumeric c = true := by
  simp [isNumeric, Char.isAlphanum, h]

theorem isAlphanum_of_toLower (h : c.toLower.isAlphanum = true) : c.isAlphanum = true := by
  unfold Char.toLower at h
  split at h
  · next hupper =>
    have hupper : c.isUpper = true := decide_eq_true hupper
    show ((c.isUpper || c.isLower) || c.isDigit) = true
    rw [hupper]
    rfl
  · exact h

theorem Decimal.isNumeric_of_toLower {word : String}
    (h : String.ofList (cs.map Char.toLower) = word)
    (hword : word.toList.all Char.isAlphanum = true) : ∀ c ∈ cs, isNumeric c = true := by
  intro c hc
  have hmem : c.toLower ∈ word.toList := by
    rw [← h, String.toList_ofList]
    exact List.mem_map_of_mem hc
  simp [isNumeric, isAlphanum_of_toLower (List.all_eq_true.mp hword _ hmem)]

theorem Decimal.isNumeric_of_readExponent? (h : (readExponent? cs).isSome = true) :
    ∀ c ∈ cs, isNumeric c = true := by
  revert h
  fun_cases readExponent? cs with
  | case1 => exact fun _ c hc => nomatch hc
  | case2 | case4 => exact fun h => nomatch h
  | case3 d cs hd negative digits hsign hdigits =>
    intro _
    have hdigits : ∀ c ∈ digits, isNumeric c = true := by
      simp only [Bool.or_eq_true, not_or, Bool.not_eq_true, Bool.not_eq_false'] at hdigits
      exact fun c hc => isNumeric_of_isDigit (List.all_eq_true.mp hdigits.2 c hc)
    refine List.forall_mem_cons.mpr ⟨by rcases hd with rfl | rfl <;> decide, ?_⟩
    split at hsign
    · obtain ⟨-, rfl⟩ := Prod.mk.inj hsign
      exact List.forall_mem_cons.mpr ⟨by decide, hdigits⟩
    · obtain ⟨-, rfl⟩ := Prod.mk.inj hsign
      exact List.forall_mem_cons.mpr ⟨by decide, hdigits⟩
    · obtain ⟨-, rfl⟩ := Prod.mk.inj hsign
      exact hdigits

theorem Decimal.isNumeric_of_read? (h : (Decimal.read? cs).isSome = true) :
    ∀ c ∈ cs, isNumeric c = true := by
  have hsplit : ∀ ds : List Char, (∀ c ∈ ds.dropWhile Char.isDigit, isNumeric c = true) →
      ∀ c ∈ ds, isNumeric c = true := by
    intro ds hrest c hc
    rw [← List.takeWhile_append_dropWhile (p := Char.isDigit) (l := ds)] at hc
    rcases List.mem_append.mp hc with hc | hc
    · exact isNumeric_of_isDigit (List.all_eq_true.mp List.all_takeWhile c hc)
    · exact hrest c hc
  refine hsplit cs ?_
  revert h
  fun_cases Decimal.read? cs with
  | case1 => exact fun h => nomatch h
  | case2 whole fraction rest hpoint =>
    intro h
    rw [Option.isSome_map] at h
    split at hpoint
    · next ds heq =>
      obtain ⟨-, rfl⟩ := Prod.mk.inj hpoint
      rw [heq]
      exact List.forall_mem_cons.mpr ⟨by decide, hsplit ds (isNumeric_of_readExponent? h)⟩
    · obtain ⟨-, rfl⟩ := Prod.mk.inj hpoint
      exact isNumeric_of_readExponent? h

/-- A number is one of three words in any case, or starts with a digit or a point. -/
theorem Decimal.readMagnitude?_cases (h : (readMagnitude? cs).isSome = true) :
    String.ofList (cs.map Char.toLower) ∈ ["inf", "infinity", "nan"] ∨
      (Decimal.read? cs).isSome = true := by
  unfold readMagnitude? at h
  dsimp only at h
  split at h
  · next hword => exact .inl (by rcases hword with hword | hword <;> simp [hword])
  · split at h
    · next hword => exact .inl (by simp [hword])
    · rw [Option.isSome_map] at h
      exact .inr h

theorem Decimal.isNumeric_of_readMagnitude? (h : (readMagnitude? cs).isSome = true) :
    ∀ c ∈ cs, isNumeric c = true := by
  rcases readMagnitude?_cases h with hword | hd
  · refine isNumeric_of_toLower rfl ?_
    simp only [List.mem_cons, List.not_mem_nil, or_false] at hword
    rcases hword with hword | hword | hword <;> rw [hword] <;> rfl
  · exact isNumeric_of_read? hd

/-- The text of a number has only numeric characters. -/
theorem Decimal.isNumeric_of_readFloat? (h : (readFloat? cs).isSome = true) :
    ∀ c ∈ cs, isNumeric c = true := by
  unfold readFloat? at h
  split at h
  · rw [Option.isSome_map] at h
    exact List.forall_mem_cons.mpr ⟨by decide, isNumeric_of_readMagnitude? h⟩
  · exact List.forall_mem_cons.mpr ⟨by decide, isNumeric_of_readMagnitude? h⟩
  · exact isNumeric_of_readMagnitude? h

/-- The text of a number can stand between blanks. -/
theorem isField_of_readFloat? (h : (Decimal.readFloat? cs).isSome = true) : IsField cs := by
  constructor
  · rintro rfl
    cases h
  · intro c hc
    have hnumeric := Decimal.isNumeric_of_readFloat? h c hc
    simp only [Decimal.isNumeric, Bool.or_eq_true, beq_iff_eq] at hnumeric
    rcases hnumeric with ((hc | rfl) | rfl) | rfl
    · exact isBlank_of_isWordPart (by simp [isWordPart, hc])
    · decide
    · decide
    · decide

/-- A numeral starts with a digit or a point. -/
theorem Decimal.exists_cons_of_read? (h : (Decimal.read? cs).isSome = true) :
    ∃ c ds, cs = c :: ds ∧ (c.isDigit = true ∨ c = '.') := by
  cases cs with
  | nil => cases h
  | cons c ds =>
    refine ⟨c, ds, rfl, Classical.byContradiction fun hc => ?_⟩
    obtain ⟨hdigit, hpoint⟩ := not_or.mp hc
    revert h
    fun_cases Decimal.read? (c :: ds) with
    | case1 => exact fun h => nomatch h
    | case2 whole fraction rest hsplit hempty =>
      rw [List.dropWhile_cons_of_neg hdigit] at hsplit
      have hwhole : whole = [] := List.takeWhile_cons_of_neg hdigit
      split at hsplit
      · next heq => exact absurd (List.cons.inj heq).1 hpoint
      · obtain ⟨rfl, -⟩ := Prod.mk.inj hsplit
        rw [hwhole] at hempty
        exact absurd rfl hempty

end Characters

/-! ### Floats that are not below zero -/

theorem ofBitVec_unpackSign_of_le {v : BitVec Format.binary64.numBits} (hv : 2 ^ 63 ≤ v.toNat) :
    Sign.ofBitVec (unpackSign v) = .negative := by
  have hlt : v.toNat < 2 ^ 64 := v.isLt
  have hone : unpackSign v = 1#1 := by
    apply BitVec.eq_of_toNat_eq
    have hvalue : v.toNat / 2 ^ 63 % 2 = 1 := by omega
    rw [toNat_unpackSign, hvalue]
    rfl
  rw [hone]
  rfl

/-- The only finite float with a sign that is not below zero is a zero. -/
theorem toNat_eq_of_zero_le {v : BitVec Format.binary64.numBits} (hv : 2 ^ 63 ≤ v.toNat)
    (hfinite : (UnpackedFloat.unpack .binary64 v).isFinite = true)
    (hle : (UnpackedFloat.zero .positive).le (UnpackedFloat.unpack .binary64 v) = true) :
    v.toNat = 2 ^ 63 := by
  have hsign := ofBitVec_unpackSign_of_le hv
  have hlt : v.toNat < 2 ^ 64 := v.isLt
  unfold UnpackedFloat.unpack at hfinite hle
  dsimp only at hfinite hle
  rw [hsign] at hfinite hle
  by_cases htop : unpackExponent v = -1#_
  · rw [if_pos htop] at hfinite
    split at hfinite
    · cases hfinite
    · cases hfinite
  rw [if_neg htop] at hle
  by_cases hexponent : unpackExponent v = 0#_
  · rw [if_pos hexponent] at hle
    by_cases hmantissa : unpackMantissa v = 0#_
    · have he : v.toNat / 2 ^ 52 % 2 ^ 11 = 0 := by
        rw [← toNat_unpackExponent, hexponent]
        rfl
      have hm : v.toNat % 2 ^ 52 = 0 := by
        rw [← toNat_unpackMantissa, hmantissa]
        rfl
      omega
    · rw [dif_neg hmantissa] at hle
      cases hle
  · rw [if_neg hexponent] at hle
    cases hle

/-- A finite float that is not below zero has no sign, or is the negative zero. -/
theorem toBits_cases_of_zero_le {x : Float} (hfinite : x.isFinite = true) (hx : 0 ≤ x) :
    x.toBits.toNat < 0x7FF0000000000000 ∨ x = -0 := by
  by_cases hsign : x.toBits.toNat < 2 ^ 63
  · exact .inl (toBits_lt_of_isFinite hsign hfinite)
  · have hbits : x.toBits.toNat = 2 ^ 63 := by
      have hle : (0 : Float).toModel.unpack.le x.toModel.unpack = true := of_decide_eq_true hx
      have hzero : (0 : Float).toModel.unpack = .zero .positive := rfl
      rw [hzero] at hle
      exact toNat_eq_of_zero_le (v := x.toBits.toBitVec) (Nat.le_of_not_lt hsign) hfinite hle
    refine .inr (eq_of_toBits (hbits.trans ?_))
    decide +kernel

/-- **The text of a float is read back**, if it is finite and not below zero. -/
theorem readFloat?_floatText {x : Float} (hfinite : x.isFinite = true) (hx : 0 ≤ x) :
    Decimal.readFloat? (Decimal.floatText x).toList = some x := by
  rcases toBits_cases_of_zero_le hfinite hx with hlt | rfl
  · rw [readFloat?_of_spells (spells_floatText hlt), toFloat_floatDecimal hlt]
  · decide +kernel

theorem not_isBlank_floatText {x : Float} (hfinite : x.isFinite = true) (hx : 0 ≤ x) :
    ∀ c ∈ (Decimal.floatText x).toList, isBlank c = false := by
  rcases toBits_cases_of_zero_le hfinite hx with hlt | rfl
  · exact (spells_floatText hlt).not_isBlank
  · have hall : (Decimal.floatText (-0)).toList.all (fun c => !isBlank c) = true := by
      decide +kernel
    intro c hc
    simpa using List.all_eq_true.mp hall c hc

end ProbLogic
