/-
# Programs one after the other

The tokens of a text are not changed by what follows it in the next line, but for
one thing: an atom takes arguments up to a closing parenthesis that may stand
anywhere behind, so a parenthesis that is not closed in the first text may be
closed in the second. In a program this does not happen. A parenthesis that is
not closed is a token of its own, directly after the atom, and no statement has
that (`ProgramOf.uncalled`). So two programs in a row are read as the statements
of the first and of the second (`parseProgram_append`).

Key definitions: `Divides`, `Uncalled`.
Key theorems: `tokenize_append`, `ProgramOf.uncalled`, `ProgramOf.append`,
`parseProgram_append`.
-/
import Mathlib.Data.List.Chain
import ProbLogic.Proofs.Respacing

namespace ProbLogic
namespace Token

open Text

variable {cs ds rest text : List Char} {c : Char} {t : Token}

/-! ### More text -/

theorem respaces_append (hc : isBlank c = true) (ds : List Char) :
    Respaces (· ++ c :: ds) where
  char _ := rfl
  blank {cs} h := by
    cases cs with
    | nil => exact fun d hd => Option.some.inj hd ▸ hc
    | cons d cs => exact h

/-- A character that separates what follows from a text: a line feed, or a space if the text has
no comment that could go on. -/
def Divides (c : Char) (text : List Char) : Prop :=
  c = '\n' ∨ (isSpace c = true ∧ '%' ∉ text)

theorem Divides.isSpace_eq (h : Divides c text) : isSpace c = true := by
  rcases h with rfl | h
  · rfl
  · exact h.1

theorem Divides.mono (h : Divides c text) (hcs : cs <:+ text) : Divides c cs :=
  h.imp_right fun h => ⟨h.1, fun hmem => h.2 (hcs.subset hmem)⟩

/-- Blanks stay blanks if more text follows. A comment that ended with the text ends at the line
feed. -/
theorem Skips.append (h : Skips rest cs) (hc : Divides c cs) (ds : List Char) :
    Skips (rest ++ c :: ds) (cs ++ c :: ds) := by
  induction h with
  | done => exact .done
  | @space d cs hd _ ih => exact .space hd (ih (hc.mono (List.suffix_cons d cs)))
  | @comment body cs hbody hend _ ih =>
    rcases hc with rfl | hc
    · have hend' : EndsLine (cs ++ '\n' :: ds) := by
        rcases hend with rfl | ⟨r, rfl⟩ | ⟨r, rfl⟩
        · exact .inr (.inl ⟨ds, rfl⟩)
        · exact .inr (.inl ⟨r ++ '\n' :: ds, rfl⟩)
        · exact .inr (.inr ⟨r ++ '\n' :: ds, rfl⟩)
      have hall := Skips.comment hbody hend' (ih (.inl rfl))
      rwa [← List.append_assoc] at hall
    · exact absurd List.mem_cons_self hc.2

/-- A group is closed where it was if more text follows. -/
theorem closing?_append {group : List Char} (h : closing? 0 cs = some (group, rest))
    (ds : List Char) : closing? 0 (cs ++ ds) = some (group, rest ++ ds) := by
  obtain ⟨inner, hinner, hgroup, hcs⟩ := closing?_eq_some_iff.mp h
  exact closing?_eq_some_iff.mpr ⟨inner, hinner, hgroup, by rw [hcs, List.append_assoc]⟩

/-- More text keeps the arguments of an atom, unless it closes a group that was not closed. -/
theorem keepsArguments_append (hc : isBlank c = true)
    (h : ∀ inner, cs = '(' :: inner → closing? 0 inner = none →
      closing? 0 (inner ++ c :: ds) = none) : KeepsArguments (· ++ c :: ds) cs := by
  refine (respaces_append hc ds).keepsArguments fun inner hinner => ?_
  cases hclosing : closing? 0 inner with
  | none =>
    rw [h inner hinner hclosing]
    rfl
  | some r =>
    rw [closing?_append hclosing]
    rfl

/-- **The tokens of a text are not changed by what follows** a character that divides it from the
rest, unless that closes the arguments of an atom. -/
theorem tokenize_append (hc : Divides c text)
    (harguments : ∀ l ∈ (tokenize text).1, ∀ a, l.token = .atom a →
      ∀ inner, l.source.dropWhile isWordPart = '(' :: inner → closing? 0 inner = none →
        closing? 0 (inner ++ c :: ds) = none) :
    tokenize (text ++ c :: ds) =
      ((tokenize text).1.map (Lexeme.mapSource (· ++ c :: ds)) ++
        (tokenize ((tokenize text).2 ++ c :: ds)).1, (tokenize ((tokenize text).2 ++ c :: ds)).2) := by
  have hblank := isBlank_of_isSpace hc.isSpace_eq
  refine (respaces_append hblank ds).tokenize_eq (fun cs rest hsuffix hskips => ?_) ?_
  · exact hskips.append (hc.mono hsuffix) ds
  · exact fun l hl a ha => keepsArguments_append hblank (harguments l hl a ha)

/-! ### Atoms before a parenthesis -/

/-- No atom stands directly before an opening parenthesis. -/
def Uncalled (ts : List Token) : Prop :=
  ts.IsChain fun t u => ∀ a, t = .atom a → u ≠ .lparen

theorem eq_arguments_of_scan? {a : Atom} (h : scan? cs = some (.atom a, rest)) :
    rest = (arguments (cs.dropWhile isWordPart)).2 := by
  have hatom := (unsigned_of_scan?_atom h).2
  cases hstart : cs.head?.any isWordStart with
  | false =>
    rw [scanAtom?_of_not_start hstart] at hatom
    cases hatom
  | true =>
    rw [scanAtom?_of_start hstart] at hatom
    exact (Prod.mk.inj (Option.some.inj hatom)).2.symm

/-- The next token after an atom whose group is not closed is the parenthesis of that group. -/
theorem tokensFrom_of_not_closed {a : Atom} {inner : List Char}
    (h : scan? cs = some (.atom a, rest)) (hopen : cs.dropWhile isWordPart = '(' :: inner)
    (hclosing : closing? 0 inner = none) :
    ∃ l ls, (tokensFrom (skipBlank rest)).1 = l :: ls ∧ l.token = .lparen := by
  have hrest : rest = '(' :: inner := by
    rw [eq_arguments_of_scan? h, hopen, arguments, hclosing]
  have hscan : scan? ('(' :: inner) = some (.lparen, inner) :=
    scan?_sign ("(", .lparen) (by decide) inner
  rw [hrest, skipBlank_cons (by decide) (by decide), tokensFrom_of_scan? hscan]
  exact ⟨_, _, rfl, rfl⟩

/-- Where no atom stands before a parenthesis, all groups after atoms are closed. -/
theorem closing?_of_uncalled {l : Lexeme} {a : Atom} {inner : List Char}
    (h : Uncalled ((tokensFrom cs).1.map Lexeme.token)) (hl : l ∈ (tokensFrom cs).1)
    (ha : l.token = .atom a) (hopen : l.source.dropWhile isWordPart = '(' :: inner) :
    closing? 0 inner ≠ none := by
  fun_induction tokensFrom cs with
  | case1 => cases hl
  | case2 cs t rest hscan ls final htokens ih =>
    rw [htokens] at ih
    rcases List.mem_cons.mp hl with rfl | hl
    · intro hclosing
      obtain rfl : t = .atom a := ha
      obtain ⟨next, others, hnext, hparen⟩ := tokensFrom_of_not_closed hscan hopen hclosing
      rw [htokens] at hnext
      obtain rfl : ls = next :: others := hnext
      exact h.rel a rfl hparen
    · exact ih h.tail hl

/-- The tokens of two lines are those of the first and those of the second. -/
theorem Lexed.append_line {ts us : List Token} (hcs : Lexed cs ts) (hts : Uncalled ts)
    (hds : Lexed ds us) : Lexed (cs ++ '\n' :: ds) (ts ++ us) := by
  obtain ⟨ls, htokenize, rfl⟩ := hcs
  obtain ⟨ls', htokenize', rfl⟩ := hds
  have harguments : ∀ l ∈ (tokenize cs).1, ∀ a, l.token = .atom a →
      ∀ inner, l.source.dropWhile isWordPart = '(' :: inner → closing? 0 inner = none →
        closing? 0 (inner ++ '\n' :: ds) = none := by
    intro l hl a ha inner hopen hclosing
    have huncalled : Uncalled ((tokensFrom (skipBlank cs)).1.map Lexeme.token) := by
      show Uncalled ((tokenize cs).1.map Lexeme.token)
      rw [htokenize]
      exact hts
    exact absurd hclosing (closing?_of_uncalled huncalled hl ha hopen)
  have hall := tokenize_append (c := '\n') (.inl rfl) harguments
  rw [htokenize, List.nil_append, tokenize_space (by decide), htokenize'] at hall
  refine ⟨_, hall, ?_⟩
  rw [List.map_append, List.map_map]
  rfl

namespace Uncalled

variable {ts us : List Token}

/-- Anything may follow a token that is not an atom. -/
theorem cons (ht : ∀ a, t ≠ .atom a) (h : Uncalled us) : Uncalled (t :: us) :=
  List.IsChain.cons h fun _ _ a ha => absurd ha (ht a)

theorem cons_atom (a : Atom) (h : Uncalled us) (hus : us.head? ≠ some .lparen) :
    Uncalled (.atom a :: us) :=
  List.IsChain.cons h fun _ hu _ _ heq => hus (heq ▸ hu)

end Uncalled

end Token

/-! ### Programs -/

open Token

variable {α β : Type} {ts us : List Token}

/-- A literal can be followed by anything but a parenthesis. -/
theorem LiteralOf.uncalled {l : Literal} (h : LiteralOf ts l) (hus : Uncalled us)
    (hopen : us.head? ≠ some .lparen) : Uncalled (ts ++ us) := by
  induction h generalizing us with
  | negated hmark _ ih => exact (ih hus hopen).cons (by cases hmark <;> simp)
  | grouped _ ih =>
    rw [List.cons_append, List.append_assoc]
    have hclose : Uncalled (.rparen :: us) := hus.cons (by simp)
    exact (ih hclose (by simp)).cons (by simp)
  | atom a => exact hus.cons_atom a hopen

theorem ListOf.uncalled {sep : Token} {phrase : List Token → β → Prop} {xs : List β}
    (hsep : ∀ a, sep ≠ .atom a) (hsep' : sep ≠ .lparen)
    (hphrase : ∀ {ts x us}, phrase ts x → Uncalled us → us.head? ≠ some .lparen →
      Uncalled (ts ++ us))
    (h : ListOf sep phrase ts xs) (hus : Uncalled us) (hopen : us.head? ≠ some .lparen) :
    Uncalled (ts ++ us) := by
  induction h with
  | one h => exact hphrase h hus hopen
  | more h _ ih =>
    rw [List.append_assoc, List.cons_append]
    exact hphrase h (ih.cons hsep) (by simp [hsep'])

theorem ConditionOf.uncalled {b : List Literal} (h : ConditionOf ts b) (hus : Uncalled us)
    (hopen : us.head? ≠ some .lparen) :
    Uncalled (ts ++ us) ∧ (ts ++ us).head? ≠ some .lparen := by
  cases h with
  | absent => exact ⟨hus, hopen⟩
  | @given arrow ts _ harrow h =>
    have hbody : Uncalled (ts ++ us) := by
      cases h with
      | verum => exact hus.cons (by simp)
      | literals h =>
        exact h.uncalled (by simp) (by simp) LiteralOf.uncalled hus hopen
    rcases harrow with rfl | rfl <;> exact ⟨hbody.cons (by simp), by simp⟩

theorem ObservationOf.uncalled {l : Literal} (h : ObservationOf ts l) (hus : Uncalled us)
    (hopen : us.head? ≠ some .lparen) : Uncalled (ts ++ us) := by
  cases h with
  | verum a | falsum a =>
    exact ((hus.cons (by simp)).cons (by simp)).cons_atom a (by simp)
  | literal h => exact h.uncalled hus hopen

section Numbers

variable [Scalar α]

theorem ChoiceOf.uncalled {c : Choice α} (h : ChoiceOf ts c) (hus : Uncalled us)
    (hopen : us.head? ≠ some .lparen) : Uncalled (ts ++ us) := by
  cases h with
  | mk h a =>
    have hatom := hus.cons_atom a hopen
    rw [List.append_assoc]
    cases h with
    | certain => exact hatom
    | decimal n => exact (hatom.cons (by simp)).cons (by simp)
    | fraction n d =>
      have hdenominator : Uncalled (.number d :: .annotates :: .atom a :: us) :=
        (hatom.cons (by simp)).cons (by simp)
      exact (hdenominator.cons (by simp)).cons (by simp)

/-- Anything may follow a statement, since it ends with a dot. -/
theorem StatementOf.uncalled {s : Statement α} (h : StatementOf ts s) (hus : Uncalled us) :
    Uncalled (ts ++ us) := by
  have hdot : Uncalled (.dot :: us) := hus.cons (by simp)
  have hclose : Uncalled (.rparen :: .dot :: us) := hdot.cons (by simp)
  cases h with
  | query h =>
    simp only [List.cons_append, List.append_assoc, List.nil_append]
    have hliteral := h.uncalled hclose (by simp)
    exact (hliteral.cons (by simp)).cons (by simp)
  | evidence h =>
    simp only [List.cons_append, List.append_assoc, List.nil_append]
    have hobservation := h.uncalled hclose (by simp)
    exact (hobservation.cons (by simp)).cons (by simp)
  | rule h =>
    cases h with
    | mk head body =>
      simp only [List.append_assoc, List.singleton_append]
      obtain ⟨hbody, hopen⟩ := body.uncalled hdot (by simp)
      exact head.uncalled (by simp) (by simp) ChoiceOf.uncalled hbody hopen

/-- **No atom of a program stands directly before a parenthesis.** -/
theorem ProgramOf.uncalled {ss : List (Statement α)} (h : ProgramOf ts ss) : Uncalled ts := by
  induction h with
  | nil => exact .nil
  | cons h _ ih => exact h.uncalled ih

theorem ProgramOf.append {ss ss' : List (Statement α)} (h : ProgramOf ts ss)
    (h' : ProgramOf us ss') : ProgramOf (ts ++ us) (ss ++ ss') := by
  induction h with
  | nil => exact h'
  | cons h _ ih =>
    rw [List.append_assoc]
    exact .cons h ih

/-- **Parsing is compositional.** Two programs, one after the other in lines of their own, are the
program of the statements of the first and then of the second. -/
theorem parseProgram_append {text text' : String} {ss ss' : List (Statement α)}
    (h : parseProgram text = .ok ss) (h' : parseProgram text' = .ok ss') :
    parseProgram (text ++ "\n" ++ text') = .ok (ss ++ ss') := by
  obtain ⟨ts, hts, hss⟩ := parseProgram_eq_ok_iff.mp h
  obtain ⟨us, hus, hss'⟩ := parseProgram_eq_ok_iff.mp h'
  have htext : (text ++ "\n" ++ text').toList = text.toList ++ '\n' :: text'.toList := by
    simp
  have hlexed := hts.append_line hss.uncalled hus
  rw [← htext] at hlexed
  exact parseProgram_eq_ok_iff.mpr ⟨ts ++ us, hlexed, hss.append hss'⟩

end Numbers

/-- A program that ends in a comment with a parenthesis that is not closed. -/
def factText : String := "0.5::edge(a, f(b)). 1/4::b; c. % half ("

/-- A program with a parenthesis in its first comment, which closes none. -/
def queryText : String := "% )\nfar :- \\+ edge(a,f(b)), b. % not near\nquery(far)."

theorem parseProgram_append_queryText :
    ∃ ss ss' : List (Statement Float), parseProgram factText = .ok ss ∧
      parseProgram queryText = .ok ss' ∧
      parseProgram (factText ++ "\n" ++ queryText) = .ok (ss ++ ss') ∧
      (ss ++ ss').map Statement.text =
        ["0.5::edge(a,f(b)).", "0.25::b; 1::c.", "1::far :- -edge(a,f(b)), b.", "query(far)."] := by
  have hread : (parseProgram factText : Except ParseError (List (Statement Float))).toOption.any
      (fun ss => (parseProgram queryText :
        Except ParseError (List (Statement Float))).toOption.any
      fun ss' => (ss ++ ss').map Statement.text ==
        ["0.5::edge(a,f(b)).", "0.25::b; 1::c.", "1::far :- -edge(a,f(b)), b.", "query(far)."]) =
        true := by
    decide +kernel
  cases h : (parseProgram factText : Except ParseError (List (Statement Float))) with
  | error e =>
    rw [h] at hread
    cases hread
  | ok ss =>
    cases h' : (parseProgram queryText : Except ParseError (List (Statement Float))) with
    | error e =>
      rw [h, h'] at hread
      cases hread
    | ok ss' =>
      rw [h, h'] at hread
      exact ⟨ss, ss', rfl, rfl, parseProgram_append h h', eq_of_beq hread⟩

end ProbLogic
