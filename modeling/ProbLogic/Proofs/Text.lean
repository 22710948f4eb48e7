/-
# Lines, trimming and digits

A text that is put together from lines is cut into the same lines, and a text
that neither starts nor ends with a blank is trimmed to itself. A line that is
put together from fields has them as its words. The decimal digits of a number
have its value.

Key definitions: `IsField`.
Key theorems: `pieces_append_cons`, `pieces_flatMap`, `lines_flatMap`, `trim_eq_self`,
`words_trim`, `words_intercalate`, `digitsValue_toDigits`.
-/
import ProbLogic.Text

namespace ProbLogic
namespace Text

variable {p : Char → Bool} {c : Char} {cs w : List Char}

/-- The printable characters of ASCII but the space are not blank. -/
theorem isBlank_of_printable (hlow : 33 ≤ c.toNat) (hhigh : c.toNat ≤ 126) :
    isBlank c = false := by
  simp only [isBlank, blankRanges, List.any_cons, List.any_nil, Bool.or_eq_false_iff,
    Bool.and_eq_false_iff, decide_eq_false_iff_not, and_true]
  omega

/-! ### Cutting -/

theorem pieces_ne_nil (p : Char → Bool) (cs : List Char) : pieces p cs ≠ [] := by
  cases cs with
  | nil => simp [pieces]
  | cons c cs =>
    rw [pieces]
    split
    · simp
    · split <;> simp

/-- The pieces before a separator and those after it. -/
theorem pieces_append_cons (hc : p c = true) (cs ds : List Char) :
    pieces p (cs ++ c :: ds) = pieces p cs ++ pieces p ds := by
  induction cs with
  | nil =>
    show pieces p (c :: ds) = [] :: pieces p ds
    rw [pieces, if_pos hc]
  | cons d cs ih =>
    obtain ⟨w, ws, hpieces⟩ := List.exists_cons_of_ne_nil (pieces_ne_nil p cs)
    rw [List.cons_append, pieces, pieces, ih, hpieces]
    split <;> rfl

/-- A text without a separator is one piece. -/
theorem pieces_eq_singleton (hw : ∀ c ∈ w, p c = false) : pieces p w = [w] := by
  induction w with
  | nil => rfl
  | cons d w ih =>
    rw [pieces, ih fun e he => hw e (List.mem_cons_of_mem _ he)]
    simp [hw d List.mem_cons_self]

/-- The text is cut at its first separator. -/
theorem pieces_append (hw : ∀ c ∈ w, p c = false) (hc : p c = true) (cs : List Char) :
    pieces p (w ++ c :: cs) = w :: pieces p cs := by
  rw [pieces_append_cons hc, pieces_eq_singleton hw]
  rfl

/-- Words that are each ended by a separator are pieces of the text. -/
theorem pieces_flatMap (hc : p c = true) (ws : List (List Char))
    (hws : ∀ w ∈ ws, ∀ d ∈ w, p d = false) (cs : List Char) :
    pieces p (ws.flatMap (· ++ [c]) ++ cs) = ws ++ pieces p cs := by
  induction ws with
  | nil => rfl
  | cons w ws ih =>
    have hrest := ih fun u hu => hws u (List.mem_cons_of_mem _ hu)
    rw [List.flatMap_cons, List.append_assoc, List.append_assoc, List.singleton_append,
      pieces_append (hws w List.mem_cons_self) hc, hrest, List.cons_append]

/-- Lines that are each ended by a line feed are lines of the text. -/
theorem lines_flatMap (ls : List (List Char)) (hls : ∀ l ∈ ls, '\n' ∉ l) (cs : List Char) :
    lines (ls.flatMap (· ++ ['\n']) ++ cs) = ls ++ lines cs := by
  apply pieces_flatMap (by decide)
  intro l hl c hc
  have hne : c ≠ '\n' := fun h => hls l hl (h ▸ hc)
  simpa using hne

/-! ### Prefixes -/

/-- The text does not go on with a character that satisfies `p`. -/
def Stops (p : Char → Bool) (cs : List Char) : Prop := ∀ c, cs.head? = some c → p c = false

theorem stops_cons (h : p c = false) (cs : List Char) : Stops p (c :: cs) := fun _ hd =>
  Option.some.inj hd ▸ h

theorem stops_dropWhile (p : Char → Bool) (cs : List Char) : Stops p (cs.dropWhile p) := by
  intro c hc
  have h := List.head?_dropWhile_not p cs
  rw [hc] at h
  simpa using h

theorem dropWhile_eq_self (h : Stops p cs) : cs.dropWhile p = cs := by
  cases cs with
  | nil => rfl
  | cons c cs => rw [List.dropWhile_cons, if_neg (by simp [h c rfl])]

theorem dropWhile_append_eq (hw : ∀ c ∈ w, p c = true) (h : Stops p cs) :
    (w ++ cs).dropWhile p = cs := by
  rw [List.dropWhile_append_of_pos hw, dropWhile_eq_self h]

theorem takeWhile_append_eq (hw : ∀ c ∈ w, p c = true) (h : Stops p cs) :
    (w ++ cs).takeWhile p = w := by
  have hsplit : (w ++ cs).takeWhile p ++ (w ++ cs).dropWhile p = w ++ cs :=
    List.takeWhile_append_dropWhile
  rw [dropWhile_append_eq hw h] at hsplit
  exact List.append_cancel_right hsplit

/-! ### Trimming -/

/-- A text without blanks at its ends is trimmed. -/
theorem trim_eq_self (hfirst : Stops isBlank cs)
    (hlast : ∀ c, cs.getLast? = some c → isBlank c = false) : trim cs = cs := by
  have hreverse : Stops isBlank cs.reverse := fun c hc =>
    hlast c (by rwa [List.head?_reverse] at hc)
  rw [trim, dropWhile_eq_self hfirst, dropWhile_eq_self hreverse, List.reverse_reverse]

/-- A trimmed text does not start with a blank. -/
theorem stops_trim (cs : List Char) : Stops isBlank (trim cs) := by
  intro c hc
  have hprefix : trim cs <+: cs.dropWhile isBlank := by
    rw [← List.reverse_suffix, trim, List.reverse_reverse]
    exact List.dropWhile_suffix isBlank
  obtain ⟨rest, hrest⟩ := hprefix
  refine stops_dropWhile isBlank cs c ?_
  rw [← hrest, List.head?_append, hc]
  rfl

/-- A trimmed text does not end with a blank. -/
theorem isBlank_getLast?_trim (h : (trim cs).getLast? = some c) : isBlank c = false := by
  rw [trim, List.getLast?_reverse] at h
  exact stops_dropWhile isBlank _ c h

/-- Trimming keeps a first character that is not blank. -/
theorem head?_trim (h : cs.head? = some c) (hc : isBlank c = false) :
    (trim cs).head? = some c := by
  obtain ⟨cs, rfl⟩ := List.head?_eq_some_iff.mp h
  have hdrop : (cs.reverse ++ [c]).dropWhile isBlank = cs.reverse.dropWhile isBlank ++ [c] := by
    rw [List.dropWhile_append]
    split
    · next hnil => simp [List.isEmpty_iff.mp hnil, hc]
    · rfl
  have hfirst : (c :: cs).dropWhile isBlank = c :: cs := dropWhile_eq_self (stops_cons hc cs)
  rw [trim, hfirst, List.reverse_cons, hdrop]
  simp

/-! ### Fields -/

/-- A text that can stand in a line between blanks. -/
def IsField (cs : List Char) : Prop := cs ≠ [] ∧ ∀ c ∈ cs, isBlank c = false

theorem words_of_isField (hw : IsField w) : words w = [w] := by
  rw [words, pieces_eq_singleton hw.2]
  simp [hw.1]

/-- The words before a blank and those after it. -/
theorem words_append_cons (hc : isBlank c = true) (cs ds : List Char) :
    words (cs ++ c :: ds) = words cs ++ words ds := by
  rw [words, pieces_append_cons hc, List.filter_append]
  rfl

theorem words_dropWhile (cs : List Char) : words (cs.dropWhile isBlank) = words cs := by
  induction cs with
  | nil => rfl
  | cons c cs ih =>
    rw [List.dropWhile_cons]
    split
    · next hc =>
      rw [ih]
      exact (words_append_cons hc [] cs).symm
    · rfl

theorem words_append_blanks {ds : List Char} (hds : ∀ c ∈ ds, isBlank c = true)
    (cs : List Char) : words (cs ++ ds) = words cs := by
  cases ds with
  | nil => rw [List.append_nil]
  | cons c ds =>
    have hdrop : (ds ++ []).dropWhile isBlank = [] :=
      dropWhile_append_eq (fun d hd => hds d (List.mem_cons_of_mem c hd)) fun d hd => nomatch hd
    have hnone : words ds = [] := by
      rw [← words_dropWhile, ← List.append_nil ds, hdrop]
      rfl
    rw [words_append_cons (hds c List.mem_cons_self), hnone, List.append_nil]

/-- Trimming keeps the words. -/
theorem words_trim (cs : List Char) : words (trim cs) = words cs := by
  have hsplit : trim cs ++ ((cs.dropWhile isBlank).reverse.takeWhile isBlank).reverse =
      cs.dropWhile isBlank := by
    rw [trim, ← List.reverse_append, List.takeWhile_append_dropWhile, List.reverse_reverse]
  have hblanks : ∀ c ∈ ((cs.dropWhile isBlank).reverse.takeWhile isBlank).reverse,
      isBlank c = true := fun c hc =>
    List.all_eq_true.mp List.all_takeWhile c (List.mem_reverse.mp hc)
  rw [← words_append_blanks hblanks (trim cs), hsplit, words_dropWhile]

/-- Fields with a space between them are the words of the line. -/
theorem words_intercalate {fs : List (List Char)} (hfs : ∀ f ∈ fs, IsField f) :
    words ([' '].intercalate fs) = fs := by
  induction fs with
  | nil => rfl
  | cons f fs ih =>
    have hrest := ih fun g hg => hfs g (List.mem_cons_of_mem _ hg)
    obtain ⟨hne, hblank⟩ := hfs f List.mem_cons_self
    unfold words at hrest ⊢
    cases fs with
    | nil =>
      rw [List.intercalate_singleton, pieces_eq_singleton hblank]
      simp [hne]
    | cons g fs =>
      rw [List.intercalate_cons_cons, List.append_assoc, List.singleton_append,
        pieces_append hblank (by decide), List.filter_cons, hrest]
      simp [hne]

theorem newline_notMem_intercalate {fs : List (List Char)} (hfs : ∀ f ∈ fs, IsField f) :
    '\n' ∉ [' '].intercalate fs := by
  have hfield : ∀ {f : List Char}, IsField f → '\n' ∉ f := by
    intro f hf hmem
    cases hf.2 '\n' hmem
  induction fs with
  | nil => exact List.not_mem_nil
  | cons f fs ih =>
    have hrest := ih fun g hg => hfs g (List.mem_cons_of_mem _ hg)
    have hfirst := hfield (hfs f List.mem_cons_self)
    cases fs with
    | nil => rwa [List.intercalate_singleton]
    | cons g fs =>
      rw [List.intercalate_cons_cons, List.mem_append, List.mem_append]
      rintro ((h | h) | h)
      · exact hfirst h
      · cases List.mem_singleton.mp h
      · exact hrest h

/-- A line of fields starts and ends with one. -/
theorem exists_ends_intercalate {f : List Char} {fs : List (List Char)}
    (hfs : ∀ g ∈ f :: fs, IsField g) :
    (∃ c, ([' '].intercalate (f :: fs)).head? = some c ∧ isBlank c = false) ∧
      ∃ c, ([' '].intercalate (f :: fs)).getLast? = some c ∧ isBlank c = false := by
  induction fs generalizing f with
  | nil =>
    obtain ⟨hne, hblank⟩ := hfs f List.mem_cons_self
    rw [List.intercalate_singleton]
    exact ⟨⟨f.head hne, List.head?_eq_some_head hne, hblank _ (List.head_mem hne)⟩,
      ⟨f.getLast hne, List.getLast?_eq_some_getLast hne, hblank _ (List.getLast_mem hne)⟩⟩
  | cons g fs ih =>
    obtain ⟨hne, hblank⟩ := hfs f List.mem_cons_self
    obtain ⟨-, c, hlast, hc⟩ := ih fun g hg => hfs g (List.mem_cons_of_mem _ hg)
    rw [List.intercalate_cons_cons]
    refine ⟨⟨f.head hne, ?_, hblank _ (List.head_mem hne)⟩, c, ?_, hc⟩
    · rw [List.append_assoc, List.head?_append, List.head?_eq_some_head hne]
      rfl
    · rw [List.getLast?_append, hlast]
      rfl

/-- A line of fields is not trimmed. -/
theorem trim_intercalate {f : List Char} {fs : List (List Char)}
    (hfs : ∀ g ∈ f :: fs, IsField g) :
    trim ([' '].intercalate (f :: fs)) = [' '].intercalate (f :: fs) := by
  obtain ⟨⟨c, hfirst, hc⟩, d, hlast, hd⟩ := exists_ends_intercalate hfs
  apply trim_eq_self
  · intro e he
    rwa [← Option.some.inj (hfirst.symm.trans he)]
  · intro e he
    rwa [← Option.some.inj (hlast.symm.trans he)]

/-! ### Digits -/

theorem toNat_of_isDigit (h : c.isDigit = true) : 48 ≤ c.toNat ∧ c.toNat ≤ 57 := by
  simpa [Char.isDigit, UInt32.le_iff_toNat_le] using h

theorem isBlank_of_isDigit (h : c.isDigit = true) : isBlank c = false := by
  obtain ⟨hlow, hhigh⟩ := toNat_of_isDigit h
  exact isBlank_of_printable (by omega) (by omega)

theorem digitsValue_eq_ofDigitChars (ds : List Char) :
    digitsValue ds = Nat.ofDigitChars 10 ds 0 := by
  rw [Nat.ofDigitChars_eq_foldl]
  rfl

theorem isDigit_toDigits (n : Nat) : ∀ c ∈ Nat.toDigits 10 n, c.isDigit = true := fun _ hc =>
  Nat.isDigit_of_mem_toDigits (by decide) (by decide) hc

theorem digitsValue_toDigits (n : Nat) : digitsValue (Nat.toDigits 10 n) = n := by
  rw [digitsValue_eq_ofDigitChars, Nat.ofDigitChars_ten_toDigits]

/-- Numbers are told apart by their digits. -/
theorem toDigits_inj {m n : Nat} (h : Nat.toDigits 10 m = Nat.toDigits 10 n) : m = n := by
  rw [← digitsValue_toDigits m, h, digitsValue_toDigits]

end Text
end ProbLogic
