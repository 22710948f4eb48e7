/-
# From text to tokens

Text is read from left to right. Before each token stand spaces and comments;
the token itself is the first of a fixed list of kinds that matches. Reading
stops where no token starts, and the rest is handed back.

A comment runs from `%` to the end of its line. A carriage return inside a
comment must be followed by a line feed; otherwise nothing there is a comment.

Key definitions:
* `skipBlank` : the text after spaces and comments.
* `scan?` : the token that a text starts with.
* `tokenize` : all tokens, and the rest.

Key theorems:
* `length_scan?_lt` : no token is empty, so reading ends.
-/
import ProbLogic.Token

namespace ProbLogic
namespace Token

/-! ### Spaces and comments -/

/-- A space, tab, carriage return or line feed. -/
def isSpace (c : Char) : Bool := c == ' ' || c == '\t' || c == '\r' || c == '\n'

/-- Skips spaces and comments. `comment` is the text at the `%` of the comment that is
being read: it is given back if that comment turns out to hold a carriage return without
a line feed. -/
def skipFrom (comment : Option (List Char)) : List Char → List Char
  | [] => []
  | c :: cs =>
    match comment with
    | none =>
      if isSpace c then skipFrom none cs
      else if c = '%' then skipFrom (some (c :: cs)) cs
      else c :: cs
    | some start =>
      if c = '\n' then skipFrom none cs
      else if c = '\r' then
        if cs.head? = some '\n' then skipFrom none cs else start
      else skipFrom (some start) cs

/-- The text after spaces and comments. -/
def skipBlank (cs : List Char) : List Char := skipFrom none cs

/-! ### The kinds of tokens -/

/-- A letter or underscore, ASCII only. -/
def isWordStart (c : Char) : Bool := c.isAlpha || c == '_'

/-- A letter, digit or underscore, ASCII only. -/
def isWordPart (c : Char) : Bool := c.isAlphanum || c == '_'

/-- What follows `word` in a text that starts with it. -/
def after? : List Char → List Char → Option (List Char)
  | [], cs => some cs
  | _ :: _, [] => none
  | w :: ws, c :: cs => if w = c then after? ws cs else none

/-- The text after `word`, if it starts with `word` and `next` accepts what follows. -/
def wordThen? (word : String) (next : Option Char → Bool) (cs : List Char) : Option (List Char) :=
  match after? word.toList cs with
  | some rest => if next rest.head? then some rest else none
  | none => none

/-- The words that are tokens of their own, each with the condition on the character
that follows. -/
def words : List (String × (Option Char → Bool) × Token) :=
  let apart : Option Char → Bool := fun c => !c.any isWordPart
  [("query", fun c => c = some '(', .query), ("evidence", fun c => c = some '(', .evidence),
    ("true", apart, .verum), ("false", apart, .falsum), ("not", apart, .notWord)]

/-- The tokens without letters, longer ones first. -/
def signs : List (String × Token) :=
  [("\\+", .notProvable), ("::", .annotates), (":-", .impliedBy), ("<-", .leftArrow), ("-", .dash),
    (";", .semicolon), (",", .comma), (".", .dot), ("/", .slash), ("(", .lparen), (")", .rparen)]

/-- Splits after the parenthesis that closes `depth + 1` open ones. -/
def closing? (depth : Nat) : List Char → Option (List Char × List Char)
  | [] => none
  | c :: cs =>
    let inner :=
      if c = '(' then closing? (depth + 1) cs
      else if c = ')' then
        match depth with
        | 0 => some ([], cs)
        | depth + 1 => closing? depth cs
      else closing? depth cs
    inner.map fun r => (c :: r.1, r.2)

/-- Splits after the parenthesised group that a text starts with; an unbalanced group is
none. -/
def arguments : List Char → List Char × List Char
  | '(' :: cs => match closing? 0 cs with
    | some (group, rest) => ('(' :: group, rest)
    | none => ([], '(' :: cs)
  | cs => ([], cs)

/-- A name with its arguments, whose blanks do not count. -/
def scanAtom? (cs : List Char) : Option (Token × List Char) :=
  if cs.head?.any isWordStart then
    let (group, rest) := arguments (cs.dropWhile isWordPart)
    let name := cs.takeWhile isWordPart ++ group.filter fun c => !Text.isBlank c
    some (.atom ⟨String.ofList name⟩, rest)
  else none

/-- Digits, and a point with more digits if they follow. -/
def scanNumber? (cs : List Char) : Option (Token × List Char) :=
  if cs.head?.any Char.isDigit then
    let whole := cs.takeWhile Char.isDigit
    let rest := cs.dropWhile Char.isDigit
    match rest with
    | '.' :: ds =>
      if ds.head?.any Char.isDigit then
        some (.number (.ofDigits whole (ds.takeWhile Char.isDigit)), ds.dropWhile Char.isDigit)
      else some (.number (.ofDigits whole []), rest)
    | _ => some (.number (.ofDigits whole []), rest)
  else none

/-- The token that a text starts with, and the text after it. -/
def scan? (cs : List Char) : Option (Token × List Char) :=
  (words.findSome? fun w => (wordThen? w.1 w.2.1 cs).map fun rest => (w.2.2, rest)) <|>
  (signs.findSome? fun s => (after? s.1.toList cs).map fun rest => (s.2, rest)) <|>
  scanNumber? cs <|> scanAtom? cs

/-! ### Reading makes the text shorter -/

theorem length_skipFrom_le (cs : List Char) : ∀ (comment : Option (List Char)) (n : Nat),
    cs.length ≤ n → (∀ s, comment = some s → s.length ≤ n) → (skipFrom comment cs).length ≤ n := by
  induction cs with
  | nil => intro _ n _ _; simp [skipFrom]
  | cons c cs ih =>
    intro comment n hn hs
    have hcs : cs.length ≤ n := by simp only [List.length_cons] at hn; omega
    cases comment with
    | none =>
      simp only [skipFrom]
      split
      · exact ih none n hcs (by simp)
      · split
        · exact ih _ n hcs (by rintro s ⟨⟩; exact hn)
        · exact hn
    | some start =>
      simp only [skipFrom]
      split
      · exact ih none n hcs (by simp)
      · split
        · split
          · exact ih none n hcs (by simp)
          · exact hs start rfl
        · exact ih _ n hcs hs

theorem length_skipBlank_le (cs : List Char) : (skipBlank cs).length ≤ cs.length :=
  length_skipFrom_le cs none cs.length (Nat.le_refl _) (by simp)

theorem length_after?_le {w cs rest : List Char} (h : after? w cs = some rest) :
    rest.length ≤ cs.length := by
  fun_induction after? w cs with
  | case1 => cases h; exact Nat.le_refl _
  | case2 => simp at h
  | case3 _ _ _ ih => exact Nat.le_succ_of_le (ih h)
  | case4 => simp at h

theorem length_after?_lt {w cs rest : List Char} (hw : w ≠ []) (h : after? w cs = some rest) :
    rest.length < cs.length := by
  cases w with
  | nil => exact absurd rfl hw
  | cons w ws =>
    cases cs with
    | nil => simp [after?] at h
    | cons c cs =>
      simp only [after?] at h
      split at h
      · exact Nat.lt_succ_of_le (length_after?_le h)
      · simp at h

theorem length_dropWhile_lt {p : Char → Bool} {cs : List Char} (h : cs.head?.any p = true) :
    (cs.dropWhile p).length < cs.length := by
  cases cs with
  | nil => simp at h
  | cons c cs =>
    simp only [List.head?_cons, Option.any_some] at h
    have := (List.dropWhile_suffix p (l := cs)).length_le
    simp only [List.dropWhile_cons, h, ↓reduceIte, List.length_cons]; omega

theorem length_closing?_le {cs group rest : List Char} : ∀ {depth : Nat},
    closing? depth cs = some (group, rest) → rest.length ≤ cs.length := by
  induction cs generalizing group with
  | nil => intro depth h; simp [closing?] at h
  | cons c cs ih =>
    intro depth h
    simp only [closing?, Option.map_eq_some_iff, Prod.mk.injEq] at h
    obtain ⟨⟨g, r⟩, h, -, rfl⟩ := h
    simp only [List.length_cons]
    split at h
    · exact Nat.le_succ_of_le (ih h)
    · split at h
      · split at h
        · simp only [Option.some.injEq, Prod.mk.injEq] at h
          exact h.2 ▸ Nat.le_succ _
        · exact Nat.le_succ_of_le (ih h)
      · exact Nat.le_succ_of_le (ih h)

theorem length_arguments_le (cs : List Char) : (arguments cs).2.length ≤ cs.length := by
  unfold arguments
  split
  · split
    · next h => exact Nat.le_succ_of_le (length_closing?_le h)
    · exact Nat.le_refl _
  · exact Nat.le_refl _

theorem length_scanAtom?_lt {cs rest : List Char} {t : Token} (h : scanAtom? cs = some (t, rest)) :
    rest.length < cs.length := by
  unfold scanAtom? at h
  split at h
  · next hc =>
    have hw : cs.head?.any isWordPart = true := by
      cases cs with
      | nil => simp at hc
      | cons c cs =>
        simp only [List.head?_cons, Option.any_some, isWordStart, isWordPart, Char.isAlphanum,
          Bool.or_eq_true] at hc ⊢
        rcases hc with hc | hc <;> simp [hc]
    simp only [Option.some.injEq, Prod.mk.injEq] at h
    rw [← h.2]
    exact Nat.lt_of_le_of_lt (length_arguments_le _) (length_dropWhile_lt hw)
  · simp at h

theorem length_scanNumber?_lt {cs rest : List Char} {t : Token}
    (h : scanNumber? cs = some (t, rest)) : rest.length < cs.length := by
  unfold scanNumber? at h
  split at h
  · next hc =>
    have hd := length_dropWhile_lt hc
    simp only at h
    split at h
    · next ds hds =>
      split at h
      · next hp =>
        have := length_dropWhile_lt hp
        simp only [Option.some.injEq, Prod.mk.injEq] at h
        rw [← h.2]
        rw [hds] at hd
        simp only [List.length_cons] at hd
        omega
      · simp only [Option.some.injEq, Prod.mk.injEq] at h
        rw [← h.2]
        exact hd
    · simp only [Option.some.injEq, Prod.mk.injEq] at h
      rw [← h.2]
      exact hd
  · simp at h

theorem length_wordThen?_lt {word : String} {next : Option Char → Bool} {cs rest : List Char}
    (hw : word.toList ≠ []) (h : wordThen? word next cs = some rest) : rest.length < cs.length := by
  unfold wordThen? at h
  split at h
  · next hp =>
    split at h
    · cases h
      exact length_after?_lt hw hp
    · simp at h
  · simp at h

/-- No token is empty. -/
theorem length_scan?_lt {cs rest : List Char} {t : Token} (h : scan? cs = some (t, rest)) :
    rest.length < cs.length := by
  have hwords : ∀ w ∈ words, w.1.toList ≠ [] := by simp [words]
  have hsigns : ∀ s ∈ signs, s.1.toList ≠ [] := by simp [signs]
  simp only [scan?, Option.orElse_eq_orElse, Option.orElse_eq_or, Option.or_eq_some_iff] at h
  rcases h with h | ⟨-, h | ⟨-, h | ⟨-, h⟩⟩⟩
  · obtain ⟨w, hw, hr⟩ := List.exists_of_findSome?_eq_some h
    simp only [Option.map_eq_some_iff, Prod.mk.injEq] at hr
    obtain ⟨r, hr, -, rfl⟩ := hr
    exact length_wordThen?_lt (hwords w hw) hr
  · obtain ⟨s, hs, hr⟩ := List.exists_of_findSome?_eq_some h
    simp only [Option.map_eq_some_iff, Prod.mk.injEq] at hr
    obtain ⟨r, hr, -, rfl⟩ := hr
    exact length_after?_lt (hsigns s hs) hr
  · exact length_scanNumber?_lt h
  · exact length_scanAtom?_lt h

/-! ### The whole text -/

/-- The tokens of a text that starts at one, and the rest where no token starts. -/
def tokensFrom (cs : List Char) : List Lexeme × List Char :=
  match _h : scan? cs with
  | none => ([], cs)
  | some (token, rest) =>
    let (lexemes, final) := tokensFrom (skipBlank rest)
    (⟨token, cs⟩ :: lexemes, final)
termination_by cs.length
decreasing_by exact Nat.lt_of_le_of_lt (length_skipBlank_le rest) (length_scan?_lt _h)

/-- The tokens of a text, and the rest where no token starts. -/
def tokenize (text : List Char) : List Lexeme × List Char := tokensFrom (skipBlank text)

end Token
end ProbLogic
