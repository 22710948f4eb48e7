/-
# What a text is made of

A text is made of lexemes with blanks between them, and a rest. `Skips` says
what may stand between two lexemes: spaces, and comments that run to the end of
a line. `Spelled` says which characters are a lexeme of which token, and
`Longest` that no longer lexeme of the same kind starts at the same place.
`Layout` puts these together to a whole text.

`tokenize` finds such a layout (`layout_tokenize`). Where it stops, neither a
lexeme nor a blank starts (`not_spelled_of_scan?`, `Skips.eq_self`).

Key definitions: `Skips`, `Spelled`, `Longest`, `Layout`.
Key theorems: `skipBlank_of_skips`, `skips_skipBlank`, `exists_spelled_of_scan?`,
`layout_tokenize`, `Layout.sources`.
-/
import ProbLogic.Proofs.AtomNames
import ProbLogic.Token.Repetition

namespace ProbLogic
namespace Token

open Text

variable {cs rest w : List Char} {c : Char} {t : Token}

/-! ### Blanks -/

/-- A line ends here: with the text, with a line feed, or with a carriage return and a line
feed. -/
def EndsLine (cs : List Char) : Prop :=
  cs = [] ∨ ['\n'] <+: cs ∨ ['\r', '\n'] <+: cs

/-- Between the start of a text and `rest` there are only spaces and comments that run to the end
of a line. -/
inductive Skips (rest : List Char) : List Char → Prop
  | done : Skips rest rest
  | space {c : Char} {cs : List Char} (hc : isSpace c = true) (h : Skips rest cs) :
      Skips rest (c :: cs)
  | comment {body cs : List Char} (hbody : ∀ c ∈ body, isInLine c = true) (hend : EndsLine cs)
      (h : Skips rest cs) : Skips rest ('%' :: (body ++ cs))

theorem Skips.suffix (h : Skips rest cs) : rest <:+ cs := by
  induction h with
  | done => exact List.suffix_refl _
  | space _ _ ih => exact ih.trans (List.suffix_cons _ _)
  | @comment body cs _ _ _ ih =>
    exact (ih.trans (List.suffix_append body cs)).trans (List.suffix_cons _ _)

theorem isInLine_iff : isInLine c = true ↔ c ≠ '\n' ∧ c ≠ '\r' := by
  simp [isInLine, and_comm]

/-- Inside a comment the characters of its line are skipped. -/
theorem skipFrom_inLine (start : List Char) (hw : ∀ c ∈ w, isInLine c = true) (cs : List Char) :
    skipFrom (some start) (w ++ cs) = skipFrom (some start) cs := by
  induction w with
  | nil => rfl
  | cons c w ih =>
    obtain ⟨hfeed, hreturn⟩ := isInLine_iff.mp (hw c List.mem_cons_self)
    rw [List.cons_append, skipFrom, if_neg hfeed, if_neg hreturn]
    exact ih fun d hd => hw d (List.mem_cons_of_mem c hd)

/-- A comment is over at the end of its line. -/
theorem skipFrom_endsLine (start : List Char) (h : EndsLine cs) :
    skipFrom (some start) cs = skipBlank cs := by
  rcases h with rfl | ⟨cs, rfl⟩ | ⟨cs, rfl⟩
  · rfl
  · rfl
  · rfl

/-- A line that does not end here goes on with a carriage return without a line feed. -/
theorem exists_of_not_endsLine (hstop : Stops isInLine cs) (h : ¬ EndsLine cs) :
    ∃ r, cs = '\r' :: r ∧ r.head? ≠ some '\n' := by
  cases cs with
  | nil => exact absurd (.inl rfl) h
  | cons c r =>
    have hfeed : c ≠ '\n' := by
      rintro rfl
      exact h (.inr (.inl ⟨r, rfl⟩))
    have hreturn : c = '\r' := by
      have hc := hstop c rfl
      rw [← Bool.not_eq_true, isInLine_iff] at hc
      exact Classical.not_not.mp fun hne => hc ⟨hfeed, hne⟩
    subst hreturn
    refine ⟨r, rfl, fun hhead => ?_⟩
    obtain ⟨r, rfl⟩ := List.head?_eq_some_iff.mp hhead
    exact h (.inr (.inr ⟨r, rfl⟩))

/-- A comment that runs into a carriage return without a line feed is none. -/
theorem skipFrom_not_endsLine (start : List Char) (hstop : Stops isInLine cs)
    (h : ¬ EndsLine cs) : skipFrom (some start) cs = start := by
  obtain ⟨r, rfl, hnext⟩ := exists_of_not_endsLine hstop h
  rw [skipFrom, if_neg (by decide), if_pos rfl, if_neg hnext]

theorem skipBlank_percent (cs : List Char) :
    skipBlank ('%' :: cs) = skipFrom (some ('%' :: cs)) cs := rfl

theorem skipBlank_comment (hw : ∀ c ∈ w, isInLine c = true) (hend : EndsLine cs) :
    skipBlank ('%' :: (w ++ cs)) = skipBlank cs := by
  rw [skipBlank_percent, skipFrom_inLine _ hw, skipFrom_endsLine _ hend]

theorem takeWhile_isInLine (cs : List Char) : ∀ c ∈ cs.takeWhile isInLine, isInLine c = true :=
  fun c hc => List.all_eq_true.mp List.all_takeWhile c hc

theorem skipBlank_broken (h : ¬ EndsLine (cs.dropWhile isInLine)) :
    skipBlank ('%' :: cs) = '%' :: cs := by
  have hsplit : cs.takeWhile isInLine ++ cs.dropWhile isInLine = cs :=
    List.takeWhile_append_dropWhile
  have hline := skipFrom_inLine ('%' :: cs) (takeWhile_isInLine cs) (cs.dropWhile isInLine)
  rw [hsplit] at hline
  rw [skipBlank_percent, hline, skipFrom_not_endsLine _ (stops_dropWhile isInLine cs) h]

/-- **Blanks are skipped**, whatever follows them. -/
theorem skipBlank_of_skips (h : Skips rest cs) : skipBlank cs = skipBlank rest := by
  induction h with
  | done => rfl
  | space hc _ ih => rw [skipBlank_space hc, ih]
  | comment hbody hend _ ih => rw [skipBlank_comment hbody hend, ih]

/-- Only blanks are skipped. -/
theorem skips_skipBlank (cs : List Char) : Skips (skipBlank cs) cs := by
  induction hn : cs.length using Nat.strongRecOn generalizing cs with
  | ind n ih =>
    cases cs with
    | nil => exact .done
    | cons c cs =>
      rw [List.length_cons] at hn
      cases hc : isSpace c with
      | true =>
        rw [skipBlank_space hc]
        exact .space hc (ih cs.length (by omega) cs rfl)
      | false =>
        by_cases hcomment : c = '%'
        · subst hcomment
          by_cases hend : EndsLine (cs.dropWhile isInLine)
          · have hle := (List.dropWhile_suffix isInLine (l := cs)).length_le
            have hrest := ih (cs.dropWhile isInLine).length (by omega) _ rfl
            have hall := Skips.comment (takeWhile_isInLine cs) hend hrest
            rw [← skipBlank_comment (takeWhile_isInLine cs) hend] at hall
            rwa [List.takeWhile_append_dropWhile] at hall
          · rw [skipBlank_broken hend]
            exact .done
        · rw [skipBlank_other hc hcomment]
          exact .done

theorem skipBlank_skipBlank (cs : List Char) : skipBlank (skipBlank cs) = skipBlank cs :=
  (skipBlank_of_skips (skips_skipBlank cs)).symm

/-- Where skipping ends there is no blank to skip. -/
theorem Skips.eq_self (h : Skips rest cs) (hcs : skipBlank cs = cs) : rest = cs := by
  cases h with
  | done => rfl
  | @space c cs hc h =>
    have hle := length_skipBlank_le cs
    rw [← skipBlank_space hc cs, hcs, List.length_cons] at hle
    omega
  | @comment body cs hbody hend h =>
    have hle := length_skipBlank_le cs
    rw [← skipBlank_comment hbody hend, hcs, List.length_cons, List.length_append] at hle
    omega

/-! ### Lexemes -/

/-- The characters of a token that is always written in the same way. -/
def fixedText? : Token → Option String
  | .query => some "query"
  | .evidence => some "evidence"
  | .verum => some "true"
  | .falsum => some "false"
  | .notWord => some "not"
  | .notProvable => some "\\+"
  | .dash => some "-"
  | .annotates => some "::"
  | .impliedBy => some ":-"
  | .leftArrow => some "<-"
  | .semicolon => some ";"
  | .comma => some ","
  | .dot => some "."
  | .slash => some "/"
  | .lparen => some "("
  | .rparen => some ")"
  | .number _ | .atom _ => none

/-- Nothing, or a balanced group in parentheses. -/
def IsArguments (group : List Char) : Prop :=
  group = [] ∨ ∃ inner, Balanced inner ∧ group = '(' :: (inner ++ [')'])

/-- The characters are a lexeme of the token. The name of an atom has no blanks, its lexeme may
have some in the arguments. -/
inductive Spelled : Token → List Char → Prop
  | fixed {t : Token} {text : String} (h : fixedText? t = some text) : Spelled t text.toList
  | number {d : Decimal} {digits : List Char} (h : Spells d digits) : Spelled (.number d) digits
  | atom {word group : List Char} (hword : IsIdentifier word) (hgroup : IsArguments group) :
      Spelled (.atom ⟨String.ofList ((word ++ group).filter fun c => !isBlank c)⟩) (word ++ group)

/-- Tokens of the same kind: both numbers, both atoms, or the same token. -/
def Alike : Token → Token → Prop
  | .number _, .number _ => True
  | .atom _, .atom _ => True
  | t, u => t = u

/-- No lexeme of the same kind that starts at the same place is longer. -/
def Longest (t : Token) (lexeme rest : List Char) : Prop :=
  ∀ u other, Alike t u → Spelled u other → other <+: lexeme ++ rest → other <+: lexeme

theorem fixedText?_of_mem_words : ∀ x ∈ words, fixedText? x.2.2 = some x.1 := by
  simp [words, fixedText?]

theorem fixedText?_of_mem_signs : ∀ x ∈ signs, fixedText? x.2 = some x.1 := by
  simp [signs, fixedText?]

theorem Alike.eq_of_fixedText? {u : Token} {text : String} (h : Alike t u)
    (hu : fixedText? u = some text) : t = u := by
  unfold Alike at h
  split at h
  · cases hu
  · cases hu
  · exact h

theorem longest_of_fixedText? {text : String} (h : fixedText? t = some text)
    (rest : List Char) : Longest t text.toList rest := by
  intro u other halike hother _
  have hu : t = u := by
    cases t with
    | number d => cases h
    | atom a => cases h
    | _ => exact halike
  subst hu
  cases hother with
  | fixed h' =>
    obtain rfl := Option.some.inj (h.symm.trans h')
    exact List.prefix_refl _
  | number _ => cases h
  | atom _ _ => cases h

/-! ### Numbers are the longest ones -/

/-- A run of characters that satisfy `p` is a prefix of all that there are. -/
theorem prefix_takeWhile {p : Char → Bool} (hw : ∀ c ∈ w, p c = true) (h : w <+: cs) :
    w <+: cs.takeWhile p := by
  obtain ⟨rest, rfl⟩ := h
  rw [List.takeWhile_append_of_pos hw]
  exact List.prefix_append w _

/-- A number at the start of a text is made of its first digits, and possibly of a point with
digits after them. -/
theorem Spells.prefix_cases {d : Decimal} {ds other : List Char} (h : Spells d other)
    (hds : ∀ c ∈ ds, c.isDigit = true) (hstop : Stops Char.isDigit cs) (hother : other <+: ds ++ cs) :
    other <+: ds ∨ ∃ fs, fs ≠ [] ∧ (∀ c ∈ fs, c.isDigit = true) ∧ other = ds ++ '.' :: fs ∧
      '.' :: fs <+: cs := by
  cases h with
  | whole _ hdigits =>
    have hstarts := prefix_takeWhile hdigits hother
    rw [takeWhile_append_eq hds hstop] at hstarts
    exact .inl hstarts
  | @point ds' fs _ hdigits hfs hfraction =>
    obtain ⟨tail, htail⟩ := hother
    rw [List.append_assoc, List.cons_append] at htail
    have hpoint : Stops Char.isDigit ('.' :: (fs ++ tail)) := stops_cons (by decide) _
    have hwhole := congrArg (List.takeWhile Char.isDigit) htail
    rw [takeWhile_append_eq hdigits hpoint, takeWhile_append_eq hds hstop] at hwhole
    subst hwhole
    exact .inr ⟨fs, hfs, hfraction, rfl, tail, List.append_cancel_left htail⟩

theorem exists_digits_of_head? (h : cs.head?.any Char.isDigit = true) :
    ∃ ds r, cs = ds ++ r ∧ ds ≠ [] ∧ (∀ c ∈ ds, c.isDigit = true) ∧ Stops Char.isDigit r := by
  refine ⟨cs.takeWhile Char.isDigit, cs.dropWhile Char.isDigit,
    List.takeWhile_append_dropWhile.symm, ?_,
    fun c hc => List.all_eq_true.mp List.all_takeWhile c hc, stops_dropWhile _ _⟩
  cases cs with
  | nil => cases h
  | cons c cs =>
    have hc : c.isDigit = true := h
    rw [List.takeWhile_cons, if_pos hc]
    exact List.cons_ne_nil _ _

/-- What is read as a number is the longest one. -/
theorem exists_spells_of_scanNumber? (h : scanNumber? cs = some (t, rest)) :
    ∃ d lexeme, t = .number d ∧ cs = lexeme ++ rest ∧ Spells d lexeme ∧
      ∀ u other, Spells u other → other <+: cs → other <+: lexeme := by
  unfold scanNumber? at h
  split at h
  case isFalse => cases h
  case isTrue hfirst =>
  obtain ⟨ds, r, rfl, hne, hds, hstop⟩ := exists_digits_of_head? hfirst
  simp only [takeWhile_append_eq hds hstop, dropWhile_append_eq hds hstop] at h
  -- without digits after a point the number ends with the first digits
  have hwhole : (∀ fs, fs ≠ [] → (∀ c ∈ fs, c.isDigit = true) → ¬ '.' :: fs <+: r) →
      some (Token.number (.ofDigits ds []), r) = some (t, rest) →
      ∃ d lexeme, t = .number d ∧ ds ++ r = lexeme ++ rest ∧ Spells d lexeme ∧
        ∀ u other, Spells u other → other <+: ds ++ r → other <+: lexeme := by
    intro hnone heq
    obtain ⟨rfl, rfl⟩ := Prod.mk.inj (Option.some.inj heq)
    refine ⟨_, ds, rfl, rfl, .whole hne hds, fun u other hother hstarts => ?_⟩
    rcases hother.prefix_cases hds hstop hstarts with hstarts | ⟨fs, hfs, hfraction, -, hpoint⟩
    · exact hstarts
    · exact absurd hpoint (hnone fs hfs hfraction)
  split at h
  · next r =>
    split at h
    · next hpoint =>
      obtain ⟨fs, r, rfl, hfs, hfraction, hend⟩ := exists_digits_of_head? hpoint
      simp only [takeWhile_append_eq hfraction hend, dropWhile_append_eq hfraction hend] at h
      obtain ⟨rfl, rfl⟩ := Prod.mk.inj (Option.some.inj h)
      refine ⟨_, ds ++ '.' :: fs, rfl, by simp, .point hne hds hfs hfraction,
        fun u other hother hstarts => ?_⟩
      rcases hother.prefix_cases hds hstop hstarts with hstarts | ⟨fs', -, hdigits, rfl, hmore⟩
      · exact hstarts.trans (List.prefix_append _ _)
      · have hfs' := prefix_takeWhile hdigits (List.cons_prefix_cons.mp hmore).2
        rw [takeWhile_append_eq hfraction hend] at hfs'
        exact (List.prefix_append_right_inj ds).mpr (List.cons_prefix_cons.mpr ⟨rfl, hfs'⟩)
    · next hpoint =>
      refine hwhole (fun fs hfs hfraction hstarts => hpoint ?_) h
      obtain ⟨tail, htail⟩ := (List.cons_prefix_cons.mp hstarts).2
      rw [← htail]
      exact head?_any_append hfs hfraction tail
  · next hpoint =>
    refine hwhole (fun fs _ _ hstarts => ?_) h
    obtain ⟨tail, htail⟩ := hstarts
    exact hpoint _ htail.symm

/-! ### Atoms are the longest ones -/

theorem isArguments_arguments (cs : List Char) :
    IsArguments (arguments cs).1 ∧ cs = (arguments cs).1 ++ (arguments cs).2 := by
  unfold arguments
  split
  · next cs =>
    cases h : closing? 0 cs with
    | none => exact ⟨.inl rfl, rfl⟩
    | some r =>
      obtain ⟨inner, hinner, hgroup, hcs⟩ := closing?_eq_some_iff.mp h
      exact ⟨.inr ⟨inner, hinner, by rw [← hgroup]⟩, congrArg _ hcs⟩
  · exact ⟨.inl rfl, rfl⟩

/-- Arguments that start a text are the ones that are found. -/
theorem IsArguments.prefix_arguments {group : List Char} (h : IsArguments group)
    (hstarts : group <+: cs) : group <+: (arguments cs).1 := by
  rcases h with rfl | ⟨inner, hinner, rfl⟩
  · exact List.nil_prefix
  · obtain ⟨tail, rfl⟩ := hstarts
    have hclosing : closing? 0 (inner ++ [')'] ++ tail) = some (inner ++ [')'], tail) :=
      closing?_eq_some_iff.mpr ⟨inner, hinner, rfl, rfl⟩
    refine ⟨[], ?_⟩
    rw [List.append_nil, List.cons_append, arguments, hclosing]

theorem IsIdentifier.ne_nil (h : IsIdentifier w) : w ≠ [] := by
  rintro rfl
  cases h.1

theorem filter_identifier (h : IsIdentifier w) : (w.filter fun c => !isBlank c) = w := by
  rw [List.filter_eq_self]
  intro c hc
  simp [isBlank_of_isWordPart (h.2 c hc)]

theorem scanAtom?_of_start (h : cs.head?.any isWordStart = true) :
    scanAtom? cs = some (.atom ⟨String.ofList (cs.takeWhile isWordPart ++
      (arguments (cs.dropWhile isWordPart)).1.filter fun c => !isBlank c)⟩,
      (arguments (cs.dropWhile isWordPart)).2) := by
  rw [scanAtom?, if_pos h]

theorem scanAtom?_of_not_start (h : cs.head?.any isWordStart = false) : scanAtom? cs = none := by
  rw [scanAtom?, if_neg (by simp [h])]

theorem isIdentifier_takeWhile (h : cs.head?.any isWordStart = true) :
    IsIdentifier (cs.takeWhile isWordPart) := by
  refine ⟨?_, fun c hc => List.all_eq_true.mp List.all_takeWhile c hc⟩
  cases cs with
  | nil => cases h
  | cons c cs =>
    have hc : isWordStart c = true := h
    rw [List.takeWhile_cons, if_pos (isWordPart_of_isWordStart hc)]
    exact hc

theorem eq_word_arguments_append (cs : List Char) :
    cs = (cs.takeWhile isWordPart ++ (arguments (cs.dropWhile isWordPart)).1) ++
      (arguments (cs.dropWhile isWordPart)).2 := by
  rw [List.append_assoc, ← (isArguments_arguments _).2, List.takeWhile_append_dropWhile]

/-- What is read as an atom is the longest one. -/
theorem exists_spelled_of_scanAtom? (h : scanAtom? cs = some (t, rest)) :
    ∃ lexeme, cs = lexeme ++ rest ∧ Spelled t lexeme ∧ Longest t lexeme rest := by
  cases hstart : cs.head?.any isWordStart with
  | false =>
    rw [scanAtom?_of_not_start hstart] at h
    cases h
  | true =>
  rw [scanAtom?_of_start hstart] at h
  obtain ⟨rfl, rfl⟩ := Prod.mk.inj (Option.some.inj h)
  have hword := isIdentifier_takeWhile hstart
  have hspelled := Spelled.atom hword (isArguments_arguments (cs.dropWhile isWordPart)).1
  rw [List.filter_append, filter_identifier hword] at hspelled
  have hcs := eq_word_arguments_append cs
  refine ⟨_, hcs, hspelled, fun u other halike hother hstarts => ?_⟩
  rw [← hcs] at hstarts
  cases hother with
  | fixed hfixed =>
    rw [← halike.eq_of_fixedText? hfixed] at hfixed
    cases hfixed
  | number _ => cases halike
  | @atom word group hother hgroup' =>
    rcases hgroup' with rfl | ⟨inner, hinner, rfl⟩
    · rw [List.append_nil] at hstarts ⊢
      exact (prefix_takeWhile hother.2 hstarts).trans (List.prefix_append _ _)
    · -- a parenthesis after the word ends it
      obtain ⟨tail, rfl⟩ := hstarts
      have hstop : Stops isWordPart ('(' :: (inner ++ [')']) ++ tail) := stops_cons (by decide) _
      rw [List.append_assoc, takeWhile_append_eq hother.2 hstop, dropWhile_append_eq hother.2 hstop]
      refine (List.prefix_append_right_inj word).mpr ?_
      exact IsArguments.prefix_arguments (.inr ⟨inner, hinner, rfl⟩) (List.prefix_append _ tail)

/-! ### Texts -/

/-- **A token that is read has its lexeme there**, the longest one of its kind. -/
theorem exists_spelled_of_scan? (h : scan? cs = some (t, rest)) :
    ∃ lexeme, cs = lexeme ++ rest ∧ Spelled t lexeme ∧ Longest t lexeme rest := by
  simp only [scan?, Option.orElse_eq_orElse, Option.orElse_eq_or, Option.or_eq_some_iff] at h
  rcases h with h | ⟨-, h | ⟨-, h | ⟨-, h⟩⟩⟩
  · obtain ⟨x, hx, hmap⟩ := List.exists_of_findSome?_eq_some h
    obtain ⟨r, hword, heq⟩ := Option.map_eq_some_iff.mp hmap
    obtain ⟨rfl, rfl⟩ := Prod.mk.inj heq
    have hfixed := fixedText?_of_mem_words x hx
    exact ⟨_, (wordThen?_eq_some_iff.mp hword).1, .fixed hfixed, longest_of_fixedText? hfixed r⟩
  · obtain ⟨x, hx, hmap⟩ := List.exists_of_findSome?_eq_some h
    obtain ⟨r, hsign, heq⟩ := Option.map_eq_some_iff.mp hmap
    obtain ⟨rfl, rfl⟩ := Prod.mk.inj heq
    have hfixed := fixedText?_of_mem_signs x hx
    exact ⟨_, after?_eq_some_iff.mp hsign, .fixed hfixed, longest_of_fixedText? hfixed r⟩
  · obtain ⟨d, lexeme, rfl, rfl, hspells, hlongest⟩ := exists_spells_of_scanNumber? h
    refine ⟨lexeme, rfl, .number hspells, fun u other halike hother hstarts => ?_⟩
    cases hother with
    | fixed hfixed =>
      rw [← halike.eq_of_fixedText? hfixed] at hfixed
      cases hfixed
    | number hother => exact hlongest _ other hother hstarts
    | atom _ _ => cases halike
  · exact exists_spelled_of_scanAtom? h

theorem fixedText?_ne_nil {text : String} (h : fixedText? t = some text) : text.toList ≠ [] := by
  cases t <;> cases h <;> decide

theorem Spelled.ne_nil (h : Spelled t w) : w ≠ [] := by
  cases h with
  | fixed h => exact fixedText?_ne_nil h
  | number h =>
    cases h with
    | whole hne _ => exact hne
    | point hne _ _ _ => simp [hne]
  | atom hword _ => simp [hword.ne_nil]

/-- What a text is made of: blanks and lexemes in turns, and a rest after blanks. Each lexeme is
the longest one of its kind. -/
inductive Layout (rest : List Char) : List Char → List Lexeme → Prop
  | done {cs : List Char} (hskips : Skips rest cs) : Layout rest cs []
  | token {cs lexeme after : List Char} {t : Token} {ls : List Lexeme}
      (hskips : Skips (lexeme ++ after) cs) (hspelled : Spelled t lexeme)
      (hlongest : Longest t lexeme after) (h : Layout rest after ls) :
      Layout rest cs (⟨t, lexeme ++ after⟩ :: ls)

theorem layout_tokensFrom {text : List Char} (hskips : Skips cs text) :
    Layout (tokensFrom cs).2 text (tokensFrom cs).1 := by
  fun_induction tokensFrom cs generalizing text with
  | case1 cs _ => exact .done hskips
  | case2 cs t rest hscan ls final htokens ih =>
    obtain ⟨lexeme, rfl, hspelled, hlongest⟩ := exists_spelled_of_scan? hscan
    have hrest := ih (skips_skipBlank rest)
    rw [htokens] at hrest
    exact .token hskips hspelled hlongest hrest

/-- **A text is made of the lexemes that are found in it**, of blanks, and of the rest. -/
theorem layout_tokenize (text : List Char) : Layout (tokenize text).2 text (tokenize text).1 :=
  layout_tokensFrom (skips_skipBlank text)

/-- The text at each lexeme and the rest are suffixes of the text, each shorter than the ones
before it. -/
theorem Layout.sources {ls : List Lexeme} (h : Layout rest cs ls) :
    (ls.map Lexeme.source ++ [rest]).Pairwise (fun s s' => s' <:+ s ∧ s'.length < s.length) ∧
      ∀ s ∈ ls.map Lexeme.source ++ [rest], s <:+ cs := by
  induction h with
  | done hskips =>
    refine ⟨List.pairwise_singleton _ _, fun s hs => ?_⟩
    rw [List.mem_singleton.mp hs]
    exact hskips.suffix
  | @token cs lexeme after t ls hskips hspelled _ _ ih =>
    obtain ⟨hpairwise, hsuffix⟩ := ih
    have hlonger : after.length < (lexeme ++ after).length := by
      have hpos := List.length_pos_iff.mpr hspelled.ne_nil
      rw [List.length_append]
      omega
    refine ⟨.cons (fun s hs => ⟨?_, ?_⟩) hpairwise, fun s hs => ?_⟩
    · exact (hsuffix s hs).trans (List.suffix_append lexeme after)
    · exact Nat.lt_of_le_of_lt (hsuffix s hs).length_le hlonger
    · rcases List.mem_cons.mp hs with rfl | hs
      · exact hskips.suffix
      · exact ((hsuffix s hs).trans (List.suffix_append lexeme after)).trans hskips.suffix

/-! ### The rest -/

theorem isSome_scan?_of_word (h : cs.head?.any isWordStart = true) : (scan? cs).isSome = true := by
  simp [scan?, scanAtom?_of_start h]

theorem isSome_scan?_of_digit (h : cs.head?.any Char.isDigit = true) :
    (scan? cs).isSome = true := by
  obtain ⟨ds, r, rfl, hne, hds, hstop⟩ := exists_digits_of_head? h
  have hnumber : (scanNumber? (ds ++ r)).isSome = true := by
    rw [scanNumber?, if_pos h]
    dsimp only
    split
    · split <;> rfl
    · rfl
  simp [scan?, hnumber]

theorem fixedText?_cases {text : String} (h : fixedText? t = some text) :
    text.toList.head?.any isWordStart = true ∨ (text, t) ∈ signs := by
  cases t <;> cases h <;> simp [signs] <;> decide

/-- Where a lexeme starts, a token is read. -/
theorem isSome_scan?_of_spelled (h : Spelled t w) (cs : List Char) :
    (scan? (w ++ cs)).isSome = true := by
  cases h with
  | fixed h =>
    rcases fixedText?_cases h with hword | hsign
    · obtain ⟨c, cs', hcs⟩ := List.exists_cons_of_ne_nil (fixedText?_ne_nil h)
      rw [hcs] at hword ⊢
      exact isSome_scan?_of_word hword
    · rw [scan?_sign _ hsign cs]
      rfl
  | number h =>
    obtain ⟨c, ds, rfl, hc⟩ := h.exists_digit
    exact isSome_scan?_of_digit hc
  | @atom word group hword _ =>
    obtain ⟨c, word, rfl⟩ := List.exists_cons_of_ne_nil hword.ne_nil
    exact isSome_scan?_of_word hword.1

theorem scan?_tokensFrom (cs : List Char) : scan? (tokensFrom cs).2 = none := by
  fun_induction tokensFrom cs with
  | case1 cs h => exact h
  | case2 cs t rest _ ls final htokens ih =>
    rw [htokens] at ih
    exact ih

theorem skipBlank_tokensFrom (hcs : skipBlank cs = cs) :
    skipBlank (tokensFrom cs).2 = (tokensFrom cs).2 := by
  fun_induction tokensFrom cs with
  | case1 cs _ => exact hcs
  | case2 cs t rest _ ls final htokens ih =>
    rw [htokens] at ih
    exact ih (skipBlank_skipBlank rest)

/-- **Nothing more can be read in the rest**: neither a lexeme nor a blank starts there. -/
theorem rest_tokenize (text : List Char) :
    (∀ t lexeme, Spelled t lexeme → ¬ lexeme <+: (tokenize text).2) ∧
      ∀ after, Skips after (tokenize text).2 → after = (tokenize text).2 := by
  constructor
  · rintro t lexeme hspelled ⟨after, hafter⟩
    have hsome := isSome_scan?_of_spelled hspelled after
    have hnone : scan? (tokenize text).2 = none := scan?_tokensFrom (skipBlank text)
    rw [hafter, hnone] at hsome
    cases hsome
  · intro after hskips
    exact hskips.eq_self (skipBlank_tokensFrom (skipBlank_skipBlank text))

end Token
end ProbLogic
