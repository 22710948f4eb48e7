/-
# Reading by repetition never fails

`lex?` reads a text by repeating small readers, and would fail if one of them
applied without taking anything. Each of them takes something (the steps below
are stated with the progress they make), so every repetition comes to an end:
that of blanks where `skipBlank` does, that of the parts of a word where the word
ends. A group is read by descent into its inner groups. What is read there up to
the first parenthesis that has no partner is balanced (`exists_contents?`), so
the descent finds the same end as counting the open parentheses does.

Together: reading succeeds for every text, with the tokens of `tokenize`
(`lex?_eq`), so what is known about these holds of it (`lex?_layout`).

Key theorems: `blanks?_eq`, `identifier?_eq`, `exists_contents?`, `group?_open`,
`lex?_eq`, `lex?_layout`.
-/
import ProbLogic.Proofs.Layout

namespace ProbLogic
namespace Token

open Text

variable {β : Type} {cs rest w : List Char} {c : Char} {x : β}

/-! ### Repetition -/

section Repetition

variable {reader : List Char → Option (β × List Char)}

theorem repeated?_of_none (h : reader cs = none) : repeated? reader cs = some ([], cs) := by
  rw [repeated?, h]

theorem repeated?_of_some (h : reader cs = some (x, rest)) (hlt : rest.length < cs.length) :
    repeated? reader cs = (repeated? reader rest).map fun r => (x :: r.1, r.2) := by
  rw [repeated?, h]
  exact dif_pos hlt

/-- A reader that always takes something is repeated up to where it does not apply. -/
theorem exists_repeated? {stop : List Char → List Char}
    (hnone : ∀ cs, reader cs = none → stop cs = cs)
    (hsome : ∀ cs x rest, reader cs = some (x, rest) →
      rest.length < cs.length ∧ stop cs = stop rest) (cs : List Char) :
    ∃ xs, repeated? reader cs = some (xs, stop cs) := by
  induction hn : cs.length using Nat.strongRecOn generalizing cs with
  | ind n ih =>
    cases hcs : reader cs with
    | none =>
      rw [hnone cs hcs]
      exact ⟨[], repeated?_of_none hcs⟩
    | some r =>
      obtain ⟨x, rest⟩ := r
      obtain ⟨hlt, hstop⟩ := hsome cs x rest hcs
      obtain ⟨xs, hxs⟩ := ih rest.length (hn ▸ hlt) rest rfl
      refine ⟨x :: xs, ?_⟩
      rw [repeated?_of_some hcs hlt, hxs, hstop]
      rfl

end Repetition

theorem run?_of_head? {p : Char → Bool} (h : cs.head?.any p = true) :
    run? p cs = some ((), cs.dropWhile p) := by
  rw [run?, if_pos h]

theorem run?_of_not_head? {p : Char → Bool} (h : cs.head?.any p = false) : run? p cs = none := by
  rw [run?, if_neg (by simp [h])]

theorem run?_eq_some {p : Char → Bool} {u : Unit} (h : run? p cs = some (u, rest)) :
    cs.head?.any p = true ∧ rest = cs.dropWhile p := by
  unfold run? at h
  split at h
  · next hhead => exact ⟨hhead, (Prod.mk.inj (Option.some.inj h)).2.symm⟩
  · cases h

theorem underscore?_eq_some {u : Unit} (h : underscore? cs = some (u, rest)) : cs = '_' :: rest := by
  obtain ⟨r, hr, heq⟩ := Option.map_eq_some_iff.mp h
  obtain ⟨-, rfl⟩ := Prod.mk.inj heq
  exact after?_eq_some_iff.mp hr

/-! ### Blanks -/

theorem skips_dropWhile_isSpace (cs : List Char) : Skips (cs.dropWhile isSpace) cs := by
  induction cs with
  | nil => exact .done
  | cons c cs ih =>
    cases hc : isSpace c with
    | true =>
      rw [List.dropWhile_cons, if_pos hc]
      exact .space hc ih
    | false =>
      rw [List.dropWhile_cons, if_neg (by simp [hc])]
      exact .done

theorem comment?_of_endsLine (h : EndsLine (cs.dropWhile isInLine)) :
    comment? ('%' :: cs) = some ((), cs.dropWhile isInLine) := by
  rw [comment?]
  rcases h with h | ⟨r, h⟩ | ⟨r, h⟩
  · rw [h]
  · rw [← h]
    rfl
  · rw [← h]
    rfl

theorem comment?_of_not_endsLine (h : ¬ EndsLine (cs.dropWhile isInLine)) :
    comment? ('%' :: cs) = none := by
  obtain ⟨r, hr, hnext⟩ := exists_of_not_endsLine (stops_dropWhile isInLine cs) h
  rw [comment?, hr]
  exact if_neg hnext

theorem comment?_eq_some {u : Unit} (h : comment? cs = some (u, rest)) :
    Skips rest cs ∧ rest.length < cs.length := by
  cases cs with
  | nil => cases h
  | cons c cs =>
    by_cases hc : c = '%'
    · subst hc
      by_cases hend : EndsLine (cs.dropWhile isInLine)
      · rw [comment?_of_endsLine hend] at h
        obtain ⟨-, rfl⟩ := Prod.mk.inj (Option.some.inj h)
        have hskips := Skips.comment (takeWhile_isInLine cs) hend .done
        rw [List.takeWhile_append_dropWhile] at hskips
        exact ⟨hskips, Nat.lt_succ_of_le (List.dropWhile_suffix isInLine).length_le⟩
      · rw [comment?_of_not_endsLine hend] at h
        cases h
    · unfold comment? at h
      split at h
      · next heq => exact absurd (List.cons.inj heq).1 hc
      · cases h

/-- **Blanks are read to their end.** -/
theorem blanks?_eq (cs : List Char) : blanks? cs = some (skipBlank cs) := by
  have hnone : ∀ cs, (run? isSpace cs <|> comment? cs) = none → skipBlank cs = cs := by
    intro cs h
    cases cs with
    | nil => rfl
    | cons c cs =>
      cases hc : isSpace c with
      | true =>
        have hrun : run? isSpace (c :: cs) = some ((), (c :: cs).dropWhile isSpace) :=
          run?_of_head? hc
        rw [hrun] at h
        cases h
      | false =>
        have hrun : run? isSpace (c :: cs) = none := run?_of_not_head? hc
        rw [hrun] at h
        by_cases hcomment : c = '%'
        · subst hcomment
          by_cases hend : EndsLine (cs.dropWhile isInLine)
          · rw [comment?_of_endsLine hend] at h
            cases h
          · exact skipBlank_broken hend
        · exact skipBlank_other hc hcomment cs
  have hsome : ∀ cs (u : Unit) rest, (run? isSpace cs <|> comment? cs) = some (u, rest) →
      rest.length < cs.length ∧ skipBlank cs = skipBlank rest := by
    intro cs u rest h
    rw [Option.orElse_eq_orElse, Option.orElse_eq_or, Option.or_eq_some_iff] at h
    rcases h with h | ⟨-, h⟩
    · obtain ⟨hhead, rfl⟩ := run?_eq_some h
      exact ⟨length_dropWhile_lt hhead, skipBlank_of_skips (skips_dropWhile_isSpace cs)⟩
    · obtain ⟨hskips, hlt⟩ := comment?_eq_some h
      exact ⟨hlt, skipBlank_of_skips hskips⟩
  obtain ⟨us, hus⟩ := exists_repeated? hnone hsome cs
  rw [blanks?, hus]
  rfl

/-! ### Words -/

theorem dropWhile_dropWhile_of_imp {p q : Char → Bool} (h : ∀ c, q c = true → p c = true)
    (cs : List Char) : (cs.dropWhile q).dropWhile p = cs.dropWhile p := by
  have hall : ∀ c ∈ cs.takeWhile q, p c = true := fun c hc =>
    h c (List.all_eq_true.mp List.all_takeWhile c hc)
  have hdrop : (cs.takeWhile q ++ cs.dropWhile q).dropWhile p = (cs.dropWhile q).dropWhile p :=
    List.dropWhile_append_of_pos hall
  rw [List.takeWhile_append_dropWhile] at hdrop
  exact hdrop.symm

theorem isWordPart_of_isAlphanum (h : c.isAlphanum = true) : isWordPart c = true := by
  simp [isWordPart, h]

theorem isWordPart_of_isAlpha (h : c.isAlpha = true) : isWordPart c = true :=
  isWordPart_of_isWordStart (by simp [isWordStart, h])

theorem underscore?_cons (hc : c ≠ '_') (cs : List Char) : underscore? (c :: cs) = none := by
  rw [underscore?, after?, if_neg (Ne.symm hc)]
  rfl

/-- The parts of a word are read to its end. -/
theorem exists_repeated?_wordParts (cs : List Char) :
    ∃ us, repeated? (fun cs => run? Char.isAlphanum cs <|> underscore? cs) cs =
      some (us, cs.dropWhile isWordPart) := by
  apply exists_repeated?
  · intro cs h
    cases cs with
    | nil => rfl
    | cons c cs =>
      cases hc : c.isAlphanum with
      | true =>
        have hrun : run? Char.isAlphanum (c :: cs) = some ((), (c :: cs).dropWhile _) :=
          run?_of_head? hc
        rw [hrun] at h
        cases h
      | false =>
        have hrun : run? Char.isAlphanum (c :: cs) = none := run?_of_not_head? hc
        rw [hrun] at h
        have hne : c ≠ '_' := by
          rintro rfl
          cases h
        exact dropWhile_eq_self (stops_cons (by simp [isWordPart, hc, hne]) cs)
  · intro cs u rest h
    rw [Option.orElse_eq_orElse, Option.orElse_eq_or, Option.or_eq_some_iff] at h
    rcases h with h | ⟨-, h⟩
    · obtain ⟨hhead, rfl⟩ := run?_eq_some h
      exact ⟨length_dropWhile_lt hhead,
        (dropWhile_dropWhile_of_imp (fun _ => isWordPart_of_isAlphanum) cs).symm⟩
    · rw [underscore?_eq_some h]
      exact ⟨Nat.lt_succ_self _, by rw [List.dropWhile_cons, if_pos (by decide)]⟩

/-- **A word is read to its end.** -/
theorem identifier?_eq (cs : List Char) :
    identifier? cs = if cs.head?.any isWordStart then some (cs.dropWhile isWordPart) else none := by
  have hparts : ∀ r : List Char, ((repeated? (fun cs => run? Char.isAlphanum cs <|> underscore? cs)
      r).bind fun r => some r.2) = some (r.dropWhile isWordPart) := by
    intro r
    obtain ⟨us, hus⟩ := exists_repeated?_wordParts r
    rw [hus]
    rfl
  cases cs with
  | nil => rfl
  | cons c cs =>
    have hhead : (c :: cs).head?.any isWordStart = isWordStart c := rfl
    rw [hhead]
    cases hc : c.isAlpha with
    | true =>
      have hrun : run? Char.isAlpha (c :: cs) = some ((), (c :: cs).dropWhile Char.isAlpha) :=
        run?_of_head? hc
      have hstart : isWordStart c = true := by simp [isWordStart, hc]
      have hall := hparts ((c :: cs).dropWhile Char.isAlpha)
      rw [dropWhile_dropWhile_of_imp fun _ => isWordPart_of_isAlpha] at hall
      rw [if_pos hstart, ← hall, identifier?, hrun]
      rfl
    | false =>
      have hrun : run? Char.isAlpha (c :: cs) = none := run?_of_not_head? hc
      by_cases hunderscore : c = '_'
      · subst hunderscore
        have hall := hparts cs
        rw [if_pos (by decide), List.dropWhile_cons, if_pos (by decide), ← hall, identifier?, hrun]
        rfl
      · rw [if_neg (by simp [isWordStart, hc, hunderscore]), identifier?, hrun]
        simp [underscore?_cons hunderscore]

/-! ### Groups -/

theorem balanced_append_of_plain (hw : ∀ c ∈ w, isPlain c = true) (h : Balanced cs) :
    Balanced (w ++ cs) := by
  induction w with
  | nil => exact h
  | cons c w ih =>
    have hc : c ≠ '(' ∧ c ≠ ')' := by simpa [isPlain] using hw c List.mem_cons_self
    exact .plain hc.1 hc.2 (ih fun d hd => hw d (List.mem_cons_of_mem c hd))

/-- A group that counting does not close is not closed with one more open parenthesis. -/
theorem closing?_one_eq_none (h : closing? 0 cs = none) : closing? 1 cs = none := by
  cases hone : closing? 1 cs with
  | none => rfl
  | some r =>
    obtain ⟨group, r⟩ := r
    obtain ⟨hcloses, hcs⟩ := closes_of_closing? hone
    obtain _ | @⟨_, inner, after, hinner, -⟩ := hcloses
    have hzero : closing? 0 cs = some (inner ++ [')'], after ++ r) :=
      closing?_eq_some_iff.mpr ⟨inner, hinner, rfl, by rw [hcs]; simp⟩
    rw [h] at hzero
    cases hzero

/-- Reading a group's contents succeeds: it takes a balanced text, and stops at the end, at a
closing parenthesis, or at a group that is not closed. -/
def ReadsContents (cs : List Char) : Prop :=
  ∃ inner r, contents? cs = some r ∧ cs = inner ++ r ∧ Balanced inner ∧ Stops isPlain r ∧
    ∀ group, r = '(' :: group → closing? 0 group = none

/-- Descent closes a group where counting does. -/
theorem ReadsContents.group?_open (h : ReadsContents cs) :
    group? ('(' :: cs) = (closing? 0 cs).map Prod.snd := by
  obtain ⟨inner, r, hcontents, rfl, hinner, hstop, hopen⟩ := h
  rw [group?, hcontents, hinner.closing?_append]
  cases r with
  | nil => rfl
  | cons c r =>
    by_cases hc : c = ')'
    · subst hc
      rfl
    · have hc : c = '(' := by
        have hplain := hstop c rfl
        simpa [isPlain, hc] using hplain
      subst hc
      rw [closing?_open, closing?_one_eq_none (hopen r rfl)]
      rfl

theorem group?_of_not_open (h : cs.head? ≠ some '(') : group? cs = none := by
  rw [group?]
  intro inner heq
  exact h (by rw [heq]; rfl)

/-- **The contents of a group are read** up to the first parenthesis without a partner. -/
theorem readsContents (cs : List Char) : ReadsContents cs := by
  induction hn : cs.length using Nat.strongRecOn generalizing cs with
  | ind n ih =>
    cases hplain : cs.head?.any isPlain with
    | true =>
      have hlt := length_dropWhile_lt hplain
      obtain ⟨inner, r, hcontents, hsplit, hinner, hstop⟩ :=
        ih (cs.dropWhile isPlain).length (hn ▸ hlt) _ rfl
      refine ⟨cs.takeWhile isPlain ++ inner, r, ?_, ?_, ?_, hstop⟩
      · rw [contents?, run?_of_head? hplain]
        exact (dif_pos hlt).trans hcontents
      · rw [List.append_assoc, ← hsplit, List.takeWhile_append_dropWhile]
      · exact balanced_append_of_plain
          (fun c hc => List.all_eq_true.mp List.all_takeWhile c hc) hinner
    | false =>
      have hstop : Stops isPlain cs := by
        intro c hc
        rw [hc] at hplain
        exact hplain
      have hnone : group? cs = none → (∀ group, cs = '(' :: group → closing? 0 group = none) →
          ReadsContents cs := by
        intro hgroup hopen
        refine ⟨[], cs, ?_, rfl, .nil, hstop, hopen⟩
        rw [contents?, run?_of_not_head? hplain, hgroup]
        rfl
      by_cases hopen : cs.head? = some '('
      · obtain ⟨inside, rfl⟩ := List.head?_eq_some_iff.mp hopen
        rw [List.length_cons] at hn
        have hgroup := (ih inside.length (by omega) inside rfl).group?_open
        cases hclosing : closing? 0 inside with
        | none =>
          rw [hclosing] at hgroup
          exact hnone hgroup fun group heq => (List.cons.inj heq).2 ▸ hclosing
        | some s =>
          obtain ⟨group, rest⟩ := s
          rw [hclosing] at hgroup
          have hle := length_closing?_le hclosing
          have hlt : rest.length < ('(' :: inside).length := Nat.lt_succ_of_le hle
          obtain ⟨inner, r, hcontents, hsplit, hinner, hrest⟩ := ih rest.length (by omega) rest rfl
          obtain ⟨content, hcontent, rfl, hinside⟩ := closing?_eq_some_iff.mp hclosing
          refine ⟨'(' :: (content ++ ')' :: inner), r, ?_, ?_, .group hcontent hinner, hrest⟩
          · rw [contents?, run?_of_not_head? hplain, hgroup]
            exact (dif_pos hlt).trans hcontents
          · rw [hinside, hsplit]
            simp
      · exact hnone (group?_of_not_open hopen) fun group heq => absurd (by rw [heq]; rfl) hopen

theorem getD_group? (cs : List Char) : (group? cs).getD cs = (arguments cs).2 := by
  by_cases hopen : cs.head? = some '('
  · obtain ⟨inside, rfl⟩ := List.head?_eq_some_iff.mp hopen
    rw [(readsContents inside).group?_open, arguments]
    cases closing? 0 inside <;> rfl
  · rw [group?_of_not_open hopen, Option.getD_none]
    unfold arguments
    split
    · exact absurd rfl hopen
    · rfl

/-! ### Tokens -/

theorem take_length_sub (h : cs = w ++ rest) : cs.take (cs.length - rest.length) = w := by
  subst h
  simp

theorem atom?_eq (cs : List Char) : atom? cs = scanAtom? cs := by
  cases hstart : cs.head?.any isWordStart with
  | false =>
    rw [scanAtom?_of_not_start hstart, atom?, identifier?_eq, hstart]
    rfl
  | true =>
    have hname : ((cs.takeWhile isWordPart ++ (arguments (cs.dropWhile isWordPart)).1).filter
        fun c => !isBlank c) = cs.takeWhile isWordPart ++
          (arguments (cs.dropWhile isWordPart)).1.filter fun c => !isBlank c := by
      rw [List.filter_append, filter_identifier (isIdentifier_takeWhile hstart)]
    rw [scanAtom?_of_start hstart, ← hname, atom?, identifier?_eq, if_pos hstart]
    show some _ = _
    rw [getD_group?, take_length_sub (eq_word_arguments_append cs)]

theorem token?_eq (cs : List Char) : token? cs = scan? cs := by
  rw [token?, scan?, atom?_eq]

theorem lexeme?_of_none (h : scan? cs = none) : lexeme? cs = none := by
  rw [lexeme?, token?_eq, h]
  rfl

theorem lexeme?_of_some {t : Token} (h : scan? cs = some (t, rest)) :
    lexeme? cs = some (⟨t, cs⟩, skipBlank rest) := by
  rw [lexeme?, token?_eq, h]
  show (blanks? rest).bind _ = _
  rw [blanks?_eq]
  rfl

/-- **Reading by repetition never fails**, and finds the tokens of `tokenize`. -/
theorem lex?_eq (text : List Char) : lex? text = some (tokenize text) := by
  have htokens : ∀ cs, repeated? lexeme? cs = some (tokensFrom cs) := by
    intro cs
    fun_induction tokensFrom cs with
    | case1 cs h => exact repeated?_of_none (lexeme?_of_none h)
    | case2 cs t rest hscan ls final hrest ih =>
      have hlt := Nat.lt_of_le_of_lt (length_skipBlank_le rest) (length_scan?_lt hscan)
      rw [repeated?_of_some (lexeme?_of_some hscan) hlt, ih, hrest]
      rfl
  rw [lex?, blanks?_eq]
  exact htokens (skipBlank text)

/-- **Reading is total, loses nothing, and ends only where nothing can be read.** For every text
the tokens are found. Where they start and where the rest starts are shorter and shorter suffixes
of the text. Up to the rest the text is made of the tokens' lexemes, each the longest one of its
kind, and of spaces and comments before, between and after them. At the rest neither a lexeme of any
token nor a space or comment starts. -/
theorem lex?_layout (text : List Char) :
    ∃ ls rest, lex? text = some (ls, rest) ∧ tokenize text = (ls, rest) ∧
      (ls.map Lexeme.source ++ [rest]).Pairwise (fun s s' => s' <:+ s ∧ s'.length < s.length) ∧
      (∀ s ∈ ls.map Lexeme.source ++ [rest], s <:+ text) ∧
      Layout rest text ls ∧
      (∀ t lexeme, Spelled t lexeme → ¬ lexeme <+: rest) ∧
      ∀ after, Skips after rest → after = rest := by
  obtain ⟨hpairwise, hsuffix⟩ := (layout_tokenize text).sources
  obtain ⟨htoken, hblank⟩ := rest_tokenize text
  exact ⟨_, _, lex?_eq text, rfl, hpairwise, hsuffix, layout_tokenize text, htoken, hblank⟩

end Token
end ProbLogic
