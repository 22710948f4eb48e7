/-
# A line that weights a literal

A line of a table holds a key, its weight, and possibly the weight of the
opposite key. Which of its fields belong to the key is found from the end: the
numbers are the last one or two fields that denote a number. A literal in
several words may end in a word that denotes one, such as `inf`. In a line with
two weights this does no harm, since no third number is looked for. In a line
with one weight the word is taken for a weight as well; what is left is then not
a literal, and the line is refused. All other lines that hold a literal and its
weights are read (`read_literal_line`).

Key definitions: `endsInNumber`.
Key theorems: `readFields?_append`, `countNumbers_pair`, `countNumbers_single`,
`read_literal_line`.
-/
import ProbLogic.Proofs.LiteralFields
import ProbLogic.Proofs.WeightText

namespace ProbLogic

open Text

/-- The text has several words, and the last of them is a number word. -/
def endsInNumber (cs : List Char) : Bool :=
  match (words cs).reverse with
  | f :: _ :: _ => isNumberWord f
  | _ => false

theorem endsInNumber_iff {cs : List Char} : endsInNumber cs = true ↔
    ∃ ws f, words cs = ws ++ [f] ∧ ws ≠ [] ∧ isNumberWord f = true := by
  have hreverse : ∀ ws f, words cs = ws ++ [f] ↔ (words cs).reverse = f :: ws.reverse := by
    intro ws f
    rw [← List.reverse_inj, List.reverse_append]
    rfl
  constructor
  · intro h
    unfold endsInNumber at h
    split at h
    · next f g gs heq =>
      refine ⟨(g :: gs).reverse, f, (hreverse _ f).mpr ?_, by simp, h⟩
      rw [heq, List.reverse_reverse]
    · cases h
  · rintro ⟨ws, f, hwords, hws, hf⟩
    obtain ⟨g, gs, hcons⟩ := List.exists_cons_of_ne_nil (mt List.reverse_eq_nil_iff.mp hws)
    rw [endsInNumber, (hreverse ws f).mp hwords, hcons]
    exact hf

namespace Weights

/-! ### The fields of a line -/

section Fields

variable {κ α : Type} [Numeral α] [KeyText κ] {ks ns : List (List Char)} {f g : List Char}

/-- The key of a line is in the fields before its numbers. -/
theorem readFields?_append (h : countNumbers α (ks ++ ns) = ns.length) :
    readFields? (κ := κ) (α := α) (ks ++ ns) =
      (KeyText.read? ([' '].intercalate ks)).bind fun k =>
        (ns.mapM readWeight?).map fun xs => (k, xs) := by
  unfold readFields?
  rw [h, List.length_append, Nat.add_sub_cancel]
  dsimp only
  rw [List.take_left, List.drop_left]
  cases KeyText.read? (κ := κ) ([' '].intercalate ks) with
  | none => rfl
  | some k =>
    cases ns.mapM (readWeight? (α := α)) with
    | none => rfl
    | some xs => rfl

theorem countNumbers_append (hks : ks ≠ []) (ns : List (List Char)) :
    countNumbers α (ks ++ ns) = (((ns.reverse ++ (ks.drop 1).reverse).take 2).takeWhile
      fun f => (Numeral.read? (α := α) f).isSome).length := by
  have hlength : 1 ≤ ks.length := List.length_pos_iff.mpr hks
  rw [countNumbers, List.drop_append_of_le_length hlength, List.reverse_append]

/-- No more than two numbers are looked for. -/
theorem countNumbers_pair (hks : ks ≠ []) (hf : (Numeral.read? (α := α) f).isSome = true)
    (hg : (Numeral.read? (α := α) g).isSome = true) : countNumbers α (ks ++ [f, g]) = 2 := by
  rw [countNumbers_append hks]
  simp [hf, hg]

/-- A number before the last one is looked for in all fields but the first. -/
theorem countNumbers_single (hks : ks ≠ []) (hf : (Numeral.read? (α := α) f).isSome = true)
    (hlast : ∀ ws g, ws ≠ [] → ks = ws ++ [g] → (Numeral.read? (α := α) g).isSome = false) :
    countNumbers α (ks ++ [f]) = 1 := by
  rw [countNumbers_append hks]
  cases hrest : (ks.drop 1).reverse with
  | nil => simp [hf]
  | cons g gs =>
    obtain ⟨k, ks, rfl⟩ := List.exists_cons_of_ne_nil hks
    have hg := hlast (k :: gs.reverse) g (by simp) (by
      rw [List.cons_append, ← List.reverse_cons, ← hrest]
      simp)
    simp [hf, hg]

variable [Signed κ]

section Lines

variable {line : List Char} (hwords : Text.words line ≠ [])

include hwords

theorem not_isEmpty_trim : ¬ (trim line).isEmpty = true := by
  intro hempty
  rw [← words_trim, List.isEmpty_iff.mp hempty] at hwords
  exact hwords rfl

theorem addLine_of_single (w : Weights κ α) (n : Nat) {k : κ} {x : α}
    (h : readFields? (Text.words line) = some (k, [x])) :
    w.addLine n line = .ok (w.insert k x) := by
  unfold addLine
  dsimp only
  rw [if_neg (not_isEmpty_trim hwords), words_trim]
  simp only [h]

theorem addLine_of_pair (w : Weights κ α) (n : Nat) {k : κ} {x y : α}
    (h : readFields? (Text.words line) = some (k, [x, y])) :
    w.addLine n line = .ok (w.insertPair k x y) := by
  unfold addLine
  dsimp only
  rw [if_neg (not_isEmpty_trim hwords), words_trim]
  simp only [h]

theorem addLine_of_none (w : Weights κ α) (n : Nat)
    (h : readFields? (κ := κ) (α := α) (Text.words line) = none) :
    w.addLine n line = .error (.invalid n (String.ofList (trim line))) := by
  unfold addLine
  dsimp only
  rw [if_neg (not_isEmpty_trim hwords), words_trim]
  simp only [h]

end Lines

/-- A text without a line feed is one line. -/
theorem read_of_line {text : String} (h : '\n' ∉ text.toList) :
    read (κ := κ) (α := α) text = empty.addLine 1 text.toList := by
  have hlines : Text.lines text.toList = [text.toList] := by
    refine pieces_eq_singleton fun c hc => ?_
    have hne : c ≠ '\n' := fun heq => h (heq ▸ hc)
    simpa using hne
  rw [read, hlines]
  exact bind_pure _

end Fields

/-! ### Lines with a literal -/

section Literals

variable {text weight opposite : String} {l : Literal} {x y : Float}

theorem isSome_of_readWeight? {cs : List Char} (h : readWeight? cs = some x) :
    (Decimal.readFloat? cs).isSome = true :=
  Option.isSome_iff_exists.mpr ⟨x, (Option.filter_eq_some_iff.mp h).1⟩

theorem read?_intercalate_words (h : Literal.parse text = .ok l) (hcomment : '%' ∉ text.toList) :
    KeyText.read? ([' '].intercalate (words text.toList)) = some l :=
  toOption_parse_eq_some.mpr (parse_intercalate_words h hcomment)

/-- The table with a literal and its opposite. -/
theorem entries_insertPair (h : Token.IsName l.atom.name.toList) (x y : Float) :
    ((empty : Weights Literal Float).insertPair l x y).entries.Perm [(l, x), (l.negate, y)] := by
  have hplain := Atom.plain_of_isName h
  have hne : compare l l.negate ≠ .eq := by
    intro heq
    have hself : l = l.negate := Literal.eq_of_compare (fun _ => hplain) (fun _ => hplain) heq
    have hpositive := congrArg Literal.positive hself
    simp [Literal.negate] at hpositive
  show (Ascending.put l x [(l.negate, y)]).Perm _
  unfold Ascending.put
  dsimp only
  split
  · exact .refl _
  · next heq => exact absurd heq hne
  · exact .swap _ _ _

/-- A field after a text in one line. -/
theorem words_append_field (text : String) (hweight : IsField weight.toList) :
    words (text ++ " " ++ weight).toList = words text.toList ++ [weight.toList] := by
  have hline : (text ++ " " ++ weight).toList = text.toList ++ ' ' :: weight.toList := by simp
  rw [hline, words_append_cons (by decide), words_of_isField hweight]

theorem newline_notMem_append (htext : '\n' ∉ text.toList) (hweight : IsField weight.toList) :
    '\n' ∉ (text ++ " " ++ weight).toList := by
  have hnewline : '\n' ∉ weight.toList := fun hmem => nomatch hweight.2 '\n' hmem
  simp [htext, hnewline]

/-- A line with two weights is read, whatever the literal looks like. -/
theorem read_pair {line : String} (hparse : Literal.parse text = .ok l)
    (hcomment : '%' ∉ text.toList) (hline : '\n' ∉ line.toList)
    (hwords : words line.toList = words text.toList ++ [weight.toList, opposite.toList])
    (hx : readWeight? weight.toList = some x) (hy : readWeight? opposite.toList = some y) :
    read line = .ok ((empty : Weights Literal Float).insertPair l x y) := by
  have hcount := countNumbers_pair (α := Float) (words_ne_nil_of_parse hparse hcomment)
    (isSome_of_readWeight? hx) (isSome_of_readWeight? hy)
  have hfields : readFields? (words line.toList) = some (l, [x, y]) := by
    rw [hwords, readFields?_append hcount, read?_intercalate_words hparse hcomment, List.mapM_cons,
      List.mapM_cons, List.mapM_nil, hx, hy]
    rfl
  rw [read_of_line hline]
  exact addLine_of_pair (by simp [hwords]) empty 1 hfields

/-- A line with one weight is read if the literal does not end in a number word. -/
theorem read_single {line : String} (hparse : Literal.parse text = .ok l)
    (hcomment : '%' ∉ text.toList) (hline : '\n' ∉ line.toList)
    (hwords : words line.toList = words text.toList ++ [weight.toList])
    (hx : readWeight? weight.toList = some x) (hend : endsInNumber text.toList = false) :
    read line = .ok (⟨[(l, x)]⟩ : Weights Literal Float) := by
  have hlast : ∀ ws g, ws ≠ [] → words text.toList = ws ++ [g] →
      (Numeral.read? (α := Float) g).isSome = false := by
    intro ws g hws heq
    cases hread : (Numeral.read? (α := Float) g).isSome with
    | false => rfl
    | true =>
      have hnumber := isNumberWord_of_parse hparse hcomment heq hws hread
      rw [endsInNumber_iff.mpr ⟨ws, g, heq, hws, hnumber⟩] at hend
      cases hend
  have hcount := countNumbers_single (α := Float) (words_ne_nil_of_parse hparse hcomment)
    (isSome_of_readWeight? hx) hlast
  have hfields : readFields? (words line.toList) = some (l, [x]) := by
    rw [hwords, readFields?_append hcount, read?_intercalate_words hparse hcomment, List.mapM_cons,
      List.mapM_nil, hx]
    rfl
  rw [read_of_line hline]
  exact addLine_of_single (by simp [hwords]) empty 1 hfields

/-- A line with one weight is refused if the literal ends in a number word. -/
theorem read_refused {line : String} (hparse : Literal.parse text = .ok l)
    (hcomment : '%' ∉ text.toList) (hline : '\n' ∉ line.toList)
    (hwords : words line.toList = words text.toList ++ [weight.toList])
    (hx : readWeight? weight.toList = some x) (hend : endsInNumber text.toList = true) :
    read (κ := Literal) (α := Float) line =
      .error (.invalid 1 (String.ofList (trim line.toList))) := by
  obtain ⟨ws, g, heq, hws, hnumber⟩ := endsInNumber_iff.mp hend
  have hread := isSome_readFloat?_of_isNumberWord hnumber
  have hcount := countNumbers_pair (α := Float) hws hread (isSome_of_readWeight? hx)
  have hkey : KeyText.read? (κ := Literal) ([' '].intercalate ws) = none := by
    cases hkey : KeyText.read? (κ := Literal) ([' '].intercalate ws) with
    | none => rfl
    | some l' =>
      have hparse' := toOption_parse_eq_some.mp hkey
      exact absurd hparse' (parse_words_ne_ok hparse hcomment heq hws hread l')
  rw [heq, List.append_assoc, List.singleton_append] at hwords
  have hfields : readFields? (κ := Literal) (α := Float) (words line.toList) = none := by
    rw [hwords, readFields?_append hcount, hkey]
    rfl
  rw [read_of_line hline]
  exact addLine_of_none (by simp [hwords]) empty 1 hfields

/-- **A line that weights a literal.** With the weights of a literal and of its opposite it is read
as these two, in whatever notation the literal is written. With one weight it is read as this one,
but if the literal is written in several words of which the last is a word for infinity or for no
number, the line is refused. -/
theorem read_literal_line (hparse : Literal.parse text = .ok l) (hline : '\n' ∉ text.toList)
    (hcomment : '%' ∉ text.toList) (hx : readWeight? weight.toList = some x)
    (hy : readWeight? opposite.toList = some y) :
    (∃ w : Weights Literal Float, read (text ++ " " ++ weight ++ " " ++ opposite) = .ok w ∧
      w.entries.Perm [(l, x), (l.negate, y)]) ∧
    read (text ++ " " ++ weight) =
      if endsInNumber text.toList then
        .error (.invalid 1 (String.ofList (trim (text ++ " " ++ weight).toList)))
      else .ok (⟨[(l, x)]⟩ : Weights Literal Float) := by
  have hweight := isField_of_readFloat? (isSome_of_readWeight? hx)
  have hopposite := isField_of_readFloat? (isSome_of_readWeight? hy)
  have hline₁ := newline_notMem_append hline hweight
  have hwords₁ := words_append_field text hweight
  constructor
  · have hwords₂ := words_append_field (text ++ " " ++ weight) hopposite
    rw [hwords₁, List.append_assoc] at hwords₂
    exact ⟨_, read_pair hparse hcomment (newline_notMem_append hline₁ hopposite) hwords₂ hx hy,
      entries_insertPair (isName_of_parse hparse) x y⟩
  · split
    · next hend => exact read_refused hparse hcomment hline₁ hwords₁ hx hend
    · next hend =>
      exact read_single hparse hcomment hline₁ hwords₁ hx (Bool.eq_false_iff.mpr hend)

end Literals

/-- Negation with a parenthesis, and blanks before the literal and in its arguments. -/
def spacedText : String := " not\t( p(a , [ inf ]) )"

theorem read_literal_line_spacedText :
    Literal.parse spacedText = .ok (.neg ⟨"p(a,[inf])"⟩) ∧
    '\n' ∉ spacedText.toList ∧ '%' ∉ spacedText.toList ∧
    ∃ x y : Float, readWeight? "0.30".toList = some x ∧ readWeight? "+7e-1".toList = some y ∧
      (∃ w : Weights Literal Float, read (spacedText ++ " " ++ "0.30" ++ " " ++ "+7e-1") = .ok w ∧
        w.entries.Perm [(.neg ⟨"p(a,[inf])"⟩, x), (.pos ⟨"p(a,[inf])"⟩, y)]) ∧
      read (spacedText ++ " " ++ "0.30") =
        .ok (⟨[(.neg ⟨"p(a,[inf])"⟩, x)]⟩ : Weights Literal Float) := by
  have hparse : Literal.parse spacedText = .ok (.neg ⟨"p(a,[inf])"⟩) :=
    toOption_parse_eq_some.mp (by decide +kernel)
  have hline : '\n' ∉ spacedText.toList := by decide
  have hcomment : '%' ∉ spacedText.toList := by decide
  obtain ⟨x, hx⟩ : ∃ x : Float, readWeight? "0.30".toList = some x :=
    Option.isSome_iff_exists.mp (by decide +kernel)
  obtain ⟨y, hy⟩ : ∃ y : Float, readWeight? "+7e-1".toList = some y :=
    Option.isSome_iff_exists.mp (by decide +kernel)
  obtain ⟨hpair, hsingle⟩ := read_literal_line hparse hline hcomment hx hy
  rw [if_neg (by decide +kernel)] at hsingle
  exact ⟨hparse, hline, hcomment, x, y, hx, hy, hpair, hsingle⟩

/-- The literal `not inf` and its weight in one line are refused. -/
theorem read_not_inf :
    Literal.parse "not inf" = .ok (.neg ⟨"inf"⟩) ∧
    (readWeight? (α := Float) "0.5".toList).isSome = true ∧
    read (κ := Literal) (α := Float) "not inf 0.5" = .error (.invalid 1 "not inf 0.5") := by
  have hparse : Literal.parse "not inf" = .ok (.neg ⟨"inf"⟩) :=
    toOption_parse_eq_some.mp (by decide +kernel)
  have hsome : (readWeight? (α := Float) "0.5".toList).isSome = true := by decide +kernel
  obtain ⟨x, hx⟩ := Option.isSome_iff_exists.mp hsome
  have hrefused : read (κ := Literal) (α := Float) "not inf 0.5" =
      .error (.invalid 1 (String.ofList (trim "not inf 0.5".toList))) :=
    read_refused hparse (by decide) (by decide) (by decide) hx (by decide)
  exact ⟨hparse, hsome, hrefused⟩

end Weights
end ProbLogic
