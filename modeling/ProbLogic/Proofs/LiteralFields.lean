/-
# The fields of a literal

A literal may be written in several words, since blanks can stand between its
tokens and inside the arguments of its atom. Joined by single spaces, the words
have the same tokens (`Lexed.intercalate_words`), so they are the same literal.
Joining them is a respacing of the text, `squeezed`: every run of blanks becomes
one space.

The last word may look like a number, since `inf` and `nan` are names. The words
before it are then not a literal of their own: no literal goes on after its end
(`LiteralOf.eq_nil_of_append`, `parse_words_ne_ok`). No other number can stand
there. A numeral starts with a digit or a point, which no token of a literal
does, and a group that is still open there would have to be closed by a
parenthesis (`isNumberWord_of_parse`).

Key definitions: `Text.squeezed`, `isNumberName`, `isNumberWord`.
Key theorems: `Token.closing?_squeezed`, `Token.Lexed.intercalate_words`,
`Token.Lexed.of_append`, `parse_intercalate_words`, `isNumberWord_of_parse`,
`parse_words_ne_ok`.
-/
import ProbLogic.Proofs.Concatenation
import ProbLogic.Proofs.Decimal.Reader

namespace ProbLogic

/-! ### Squeezing blanks -/

namespace Text

variable {c d : Char} {cs : List Char}

/-- The text with one space in the place of each run of blanks, and none at the end. -/
def squeezed : List Char → List Char
  | [] => []
  | c :: cs =>
    if isBlank c then
      if cs.head?.any (fun d => !isBlank d) then ' ' :: squeezed cs else squeezed cs
    else c :: squeezed cs

theorem squeezed_cons (hc : isBlank c = false) (cs : List Char) :
    squeezed (c :: cs) = c :: squeezed cs := by
  rw [squeezed, if_neg (by simp [hc])]

/-- A blank becomes a space or nothing. -/
theorem squeezed_blank (hc : isBlank c = true) (cs : List Char) :
    squeezed (c :: cs) = squeezed cs ∨ squeezed (c :: cs) = ' ' :: squeezed cs := by
  rw [squeezed, if_pos hc]
  split
  · exact .inr rfl
  · exact .inl rfl

theorem intercalate_cons_eq (w : List Char) (ws : List (List Char)) :
    [' '].intercalate (w :: ws) = w ++ ws.flatMap (' ' :: ·) := by
  induction ws generalizing w with
  | nil => simp
  | cons u ws ih => simp [List.intercalate_cons_cons, ih]

theorem intercalate_concat {ws : List (List Char)} (hws : ws ≠ []) (w : List Char) :
    [' '].intercalate (ws ++ [w]) = [' '].intercalate ws ++ ' ' :: w := by
  obtain ⟨u, us, rfl⟩ := List.exists_cons_of_ne_nil hws
  rw [List.cons_append, intercalate_cons_eq, intercalate_cons_eq]
  simp

/-- A word starts at a text if its first piece is not empty. -/
theorem any_head?_eq {w : List Char} {ws : List (List Char)} (h : pieces isBlank cs = w :: ws) :
    cs.head?.any (fun d => !isBlank d) = !w.isEmpty := by
  cases cs with
  | nil =>
    obtain ⟨rfl, -⟩ := List.cons.inj h
    rfl
  | cons c cs =>
    obtain ⟨u, us, hpieces⟩ := List.exists_cons_of_ne_nil (pieces_ne_nil isBlank cs)
    rw [pieces, hpieces] at h
    cases hc : isBlank c with
    | true =>
      rw [if_pos hc] at h
      obtain ⟨rfl, -⟩ := List.cons.inj h
      simp [hc]
    | false =>
      rw [if_neg (by simp [hc])] at h
      obtain ⟨rfl, -⟩ := List.cons.inj h
      simp [hc]

/-- A squeezed text is its first piece, and the other words with a space before each. -/
theorem squeezed_eq {w : List Char} {ws : List (List Char)} (h : pieces isBlank cs = w :: ws) :
    squeezed cs = w ++ (ws.filter fun u => !u.isEmpty).flatMap (' ' :: ·) := by
  induction cs generalizing w ws with
  | nil =>
    obtain ⟨rfl, rfl⟩ := List.cons.inj h
    rfl
  | cons c cs ih =>
    obtain ⟨u, us, hpieces⟩ := List.exists_cons_of_ne_nil (pieces_ne_nil isBlank cs)
    rw [pieces, hpieces] at h
    cases hc : isBlank c with
    | false =>
      rw [if_neg (by simp [hc])] at h
      obtain ⟨rfl, rfl⟩ := List.cons.inj h
      rw [squeezed_cons hc, ih hpieces]
      rfl
    | true =>
      rw [if_pos hc] at h
      obtain ⟨rfl, rfl⟩ := List.cons.inj h
      rw [squeezed, if_pos hc, any_head?_eq hpieces, ih hpieces]
      cases u with
      | nil => rfl
      | cons d u => simp

/-- A squeezed text is its words with a space between them, and one before them if it starts with
a blank. -/
theorem squeezed_eq_intercalate (cs : List Char) :
    squeezed cs = [' '].intercalate (words cs) ∨
      squeezed cs = ' ' :: [' '].intercalate (words cs) := by
  obtain ⟨w, ws, hpieces⟩ := List.exists_cons_of_ne_nil (pieces_ne_nil isBlank cs)
  rw [squeezed_eq hpieces, words, hpieces, List.filter_cons]
  cases w with
  | cons c w => exact .inl (intercalate_cons_eq _ _).symm
  | nil =>
    cases hwords : ws.filter fun u => !u.isEmpty with
    | nil => exact .inl rfl
    | cons u us =>
      refine .inr ?_
      rw [if_neg (by simp), intercalate_cons_eq, List.flatMap_cons, List.cons_append]
      rfl

theorem mem_of_mem_squeezed (h : d ∈ squeezed cs) : d = ' ' ∨ d ∈ cs := by
  induction cs with
  | nil => cases h
  | cons c cs ih =>
    have hrest : d ∈ squeezed cs → d = ' ' ∨ d ∈ c :: cs := fun h =>
      (ih h).imp_right (List.mem_cons_of_mem c)
    cases hc : isBlank c with
    | true =>
      rcases squeezed_blank hc cs with heq | heq
      · exact hrest (heq ▸ h)
      · exact (List.mem_cons.mp (heq ▸ h)).elim .inl hrest
    | false =>
      rw [squeezed_cons hc] at h
      exact (List.mem_cons.mp h).elim (fun h => .inr (h ▸ List.mem_cons_self)) hrest

theorem mem_of_mem_intercalate_words (h : d ∈ [' '].intercalate (words cs)) :
    d = ' ' ∨ d ∈ cs := by
  rcases squeezed_eq_intercalate cs with heq | heq
  · exact mem_of_mem_squeezed (heq ▸ h)
  · exact mem_of_mem_squeezed (heq ▸ List.mem_cons_of_mem ' ' h)

end Text

/-! ### Tokens of a squeezed text -/

namespace Token

open Text

variable {c : Char} {cs ds rest text : List Char} {ts : List Token}

theorem respaces_squeezed : Respaces squeezed where
  char hc := squeezed_cons hc _
  blank {cs} h := by
    induction cs with
    | nil => exact h
    | cons c cs ih =>
      have hc : isBlank c = true := h c rfl
      rw [squeezed, if_pos hc]
      split
      · exact fun d hd => Option.some.inj hd ▸ by decide
      · next hnext =>
        refine ih fun d hd => ?_
        rw [hd] at hnext
        simpa using hnext

theorem Skips.squeezed (h : Skips rest cs) (hcomment : '%' ∉ cs) :
    Skips (squeezed rest) (squeezed cs) := by
  induction h with
  | done => exact .done
  | @space c cs hc _ ih =>
    have hrest := ih fun hmem => hcomment (List.mem_cons_of_mem c hmem)
    rcases squeezed_blank (isBlank_of_isSpace hc) cs with heq | heq
    · rwa [heq]
    · rw [heq]
      exact .space (by decide) hrest
  | comment => exact absurd List.mem_cons_self hcomment

/-- A blank in a group does not show. -/
theorem closing?_blank (hc : isBlank c = true) (depth : Nat) (cs : List Char)
    (f : List Char → List Char) :
    (closing? depth (c :: cs)).map (Prod.map visible f) =
      (closing? depth cs).map (Prod.map visible f) := by
  have hopen : c ≠ '(' := by
    rintro rfl
    cases hc
  have hclose : c ≠ ')' := by
    rintro rfl
    cases hc
  simp only [closing?, if_neg hopen, if_neg hclose, Option.map_map]
  congr 1
  funext r
  simp [visible, Prod.map, hc]

/-- A character stays before what was found after it. -/
theorem map_visible_cons (c : Char) {found found' : Option (List Char × List Char)}
    (h : found.map (Prod.map visible id) = found'.map (Prod.map visible squeezed)) :
    (found.map fun r => (c :: r.1, r.2)).map (Prod.map visible id) =
      (found'.map fun r => (c :: r.1, r.2)).map (Prod.map visible squeezed) := by
  cases found with
  | none =>
    cases found' with
    | none => rfl
    | some r' => cases h
  | some r =>
    cases found' with
    | none => cases h
    | some r' =>
      obtain ⟨hgroup, hrest⟩ := Prod.mk.inj (Option.some.inj h)
      unfold visible at hgroup
      simp only [id_eq] at hrest
      simp [visible, List.filter_cons, hgroup, hrest]

/-- A group is closed at the same parenthesis in the squeezed text. -/
theorem closing?_squeezed (depth : Nat) (cs : List Char) :
    (closing? depth (squeezed cs)).map (Prod.map visible id) =
      (closing? depth cs).map (Prod.map visible squeezed) := by
  induction cs generalizing depth with
  | nil => rfl
  | cons c cs ih =>
    cases hc : isBlank c with
    | true =>
      rw [closing?_blank hc, ← ih depth]
      rcases squeezed_blank hc cs with heq | heq
      · rw [heq]
      · rw [heq, closing?_blank (by decide)]
    | false =>
      rw [squeezed_cons hc]
      simp only [closing?]
      apply map_visible_cons
      split
      · exact ih (depth + 1)
      · split
        · cases depth with
          | zero => rfl
          | succ depth => exact ih depth
        · exact ih depth

/-- **The words of a text have its tokens** if they are joined by single spaces. -/
theorem Lexed.intercalate_words (h : Lexed cs ts) (hcomment : '%' ∉ cs) :
    Lexed ([' '].intercalate (Text.words cs)) ts := by
  obtain ⟨ls, htokenize, rfl⟩ := h
  have hskips : ∀ ds rest, ds <:+ cs → Skips rest ds → Skips (squeezed rest) (squeezed ds) :=
    fun ds rest hsuffix h => h.squeezed fun hmem => hcomment (hsuffix.subset hmem)
  have hall := respaces_squeezed.tokenize_eq hskips fun l _ _ _ =>
    respaces_squeezed.keepsArguments fun inner _ => closing?_squeezed 0 inner
  have hjoined : tokenize (squeezed cs) = tokenize ([' '].intercalate (Text.words cs)) := by
    rcases squeezed_eq_intercalate cs with heq | heq
    · rw [heq]
    · rw [heq, tokenize_space (by decide)]
  rw [hjoined, htokenize, squeezed, tokenize_nil, List.append_nil] at hall
  refine ⟨_, hall, ?_⟩
  rw [List.map_map]
  rfl

/-! ### The tokens before the last word -/

/-- A group that is not closed stays so where no parenthesis follows that could close it. -/
theorem closing?_append_eq_none (h : closing? 0 cs = none) (hds : ')' ∉ ds) :
    closing? 0 (cs ++ ds) = none := by
  cases hclosing : closing? 0 (cs ++ ds) with
  | none => rfl
  | some r =>
    obtain ⟨group, rest⟩ := r
    obtain ⟨inner, hinner, hgroup, hcs⟩ := closing?_eq_some_iff.mp hclosing
    have hopen : ∀ rest', cs ≠ group ++ rest' := by
      intro rest' heq
      rw [closing?_eq_some_iff.mpr ⟨inner, hinner, hgroup, heq⟩] at h
      cases h
    rcases List.append_eq_append_iff.mp hcs with ⟨more, hmore, hrest⟩ | ⟨rest', hrest', -⟩
    · rcases List.eq_nil_or_concat more with rfl | ⟨more', d, rfl⟩
      · exact absurd (by rw [hmore, List.append_nil, List.append_nil]) (hopen [])
      · rw [hgroup, List.concat_eq_append, ← List.append_assoc] at hmore
        obtain ⟨-, heq⟩ := List.append_inj' hmore rfl
        obtain rfl : ')' = d := List.singleton_inj.mp heq
        exact absurd (by rw [hrest]; simp) hds
    · exact absurd hrest' (hopen rest')

/-- No token starts at a character that was left over, whatever follows the text. -/
theorem tokenize_append_rest (hcomment : '%' ∉ cs) (hrest : (tokenize cs).2 ≠ [])
    (ds : List Char) : (tokenize ((tokenize cs).2 ++ ' ' :: ds)).2 ≠ [] := by
  have hnone : scan? (tokenize cs).2 = none := scan?_tokensFrom (skipBlank cs)
  have hsuffix : (tokenize cs).2 <:+ cs :=
    (layout_tokenize cs).sources.2 _ (List.mem_append_right _ List.mem_cons_self)
  have hblank := (rest_tokenize cs).2
  obtain ⟨c, rest, hcons⟩ := List.exists_cons_of_ne_nil hrest
  rw [hcons] at hnone hsuffix hblank ⊢
  have hspace : isSpace c = false := by
    cases hspace : isSpace c with
    | false => rfl
    | true =>
      have heq := hblank rest (.space hspace .done)
      exact absurd (congrArg List.length heq) (by simp)
  have hpercent : c ≠ '%' := by
    rintro rfl
    exact hcomment (hsuffix.subset List.mem_cons_self)
  have hnone' : scan? (c :: rest ++ ' ' :: ds) = none := by
    have hatom : ∀ a r, scan? (c :: rest) = some (.atom a, r) →
        KeepsArguments (· ++ ' ' :: ds) ((c :: rest).dropWhile isWordPart) := by
      intro a r hscan
      rw [hnone] at hscan
      cases hscan
    have hscan := (respaces_append (c := ' ') (by decide) ds).scan?_eq hatom
    rwa [hnone] at hscan
  intro hnil
  have hlexed : Lexed (c :: (rest ++ ' ' :: ds)) _ := ⟨_, Prod.ext rfl hnil, rfl⟩
  obtain ⟨t, r, us, hscan, -⟩ := hlexed.exists_cons hspace hpercent
  rw [List.cons_append, hscan] at hnone'
  cases hnone'

/-- The tokens before a space and those after it, if no parenthesis after it can close a group. -/
theorem Lexed.of_append (h : Lexed (cs ++ ' ' :: ds) ts) (hcomment : '%' ∉ cs)
    (hclose : ')' ∉ ds) : ∃ us vs, ts = us ++ vs ∧ Lexed cs us ∧ Lexed ds vs := by
  obtain ⟨ls, htokenize, rfl⟩ := h
  have hclose' : ')' ∉ ' ' :: ds := by simp [hclose]
  have hall := tokenize_append (c := ' ') (.inr ⟨by decide, hcomment⟩)
    fun l _ a _ inner _ hclosing => closing?_append_eq_none hclosing hclose'
  rw [htokenize] at hall
  obtain ⟨hls, hnil⟩ := Prod.mk.inj hall
  by_cases hrest : (tokenize cs).2 = []
  · rw [hrest, List.nil_append, tokenize_space (by decide)] at hls hnil
    refine ⟨_, _, ?_, ⟨_, Prod.ext rfl hrest, rfl⟩, ⟨_, Prod.ext rfl hnil.symm, rfl⟩⟩
    rw [hls, List.map_append, List.map_map]
    rfl
  · exact absurd hnil.symm (tokenize_append_rest hcomment hrest ds)

theorem Lexed.unique {us : List Token} (h : Lexed cs ts) (h' : Lexed cs us) : ts = us := by
  obtain ⟨ls, htokenize, rfl⟩ := h
  obtain ⟨ls', htokenize', rfl⟩ := h'
  rw [htokenize] at htokenize'
  rw [(Prod.mk.inj htokenize').1]

end Token

/-! ### Literals in several words -/

open Token Text

section Literals

variable {ts us : List Token} {l l' : Literal} {cs : List Char} {c : Char}

/-- No literal goes on after its end. -/
theorem LiteralOf.eq_nil_of_append (h : LiteralOf ts l) (h' : LiteralOf (ts ++ us) l') :
    us = [] := by
  have htokens : ∀ ts : List Token,
      (ts.map fun t => (⟨t, []⟩ : Lexeme)).map Lexeme.token = ts := by
    intro ts
    rw [List.map_map]
    exact List.map_id ts
  have hread := h.readsTokens _ (us.map fun t => ⟨t, []⟩) (htokens ts)
  have hread' := h'.readsTokens _ [] (htokens (ts ++ us))
  rw [List.append_nil, List.map_append, hread] at hread'
  exact List.map_eq_nil_iff.mp (Prod.mk.inj (Option.some.inj hread')).2

/-- The tokens that literals are made of. -/
def Token.IsLiteralPart (t : Token) : Prop :=
  t.IsNegation ∨ t = .lparen ∨ t = .rparen ∨ ∃ a, t = .atom a

theorem LiteralOf.isLiteralPart (h : LiteralOf ts l) : ∀ t ∈ ts, t.IsLiteralPart := by
  induction h with
  | negated hmark _ ih => exact List.forall_mem_cons.mpr ⟨.inl hmark, ih⟩
  | grouped _ ih =>
    intro t ht
    rcases List.mem_cons.mp ht with rfl | ht
    · exact .inr (.inl rfl)
    · rcases List.mem_append.mp ht with ht | ht
      · exact ih t ht
      · exact .inr (.inr (.inl (List.mem_singleton.mp ht)))
  | atom a =>
    intro t ht
    exact .inr (.inr (.inr ⟨a, List.mem_singleton.mp ht⟩))

/-- No part of a literal starts like a numeral or with a plus. -/
theorem Token.IsLiteralPart.not_numeral {t : Token} (ht : t.IsLiteralPart)
    (h : Spelled t (c :: cs)) : c.isDigit = false ∧ c ≠ '.' ∧ c ≠ '+' := by
  generalize hlexeme : c :: cs = lexeme at h
  cases h with
  | fixed hfixed =>
    rcases ht with hmark | rfl | rfl | ⟨a, rfl⟩
    · cases hmark <;> cases hfixed <;> obtain ⟨rfl, -⟩ := List.cons.inj hlexeme <;> decide
    · cases hfixed
      obtain ⟨rfl, -⟩ := List.cons.inj hlexeme
      decide
    · cases hfixed
      obtain ⟨rfl, -⟩ := List.cons.inj hlexeme
      decide
    · cases hfixed
  | number _ => rcases ht with hmark | ht | ht | ⟨a, ht⟩ <;> contradiction
  | atom hword _ =>
    obtain ⟨d, word, rfl⟩ := List.exists_cons_of_ne_nil hword.ne_nil
    obtain ⟨rfl, -⟩ := List.cons.inj hlexeme
    have hstart : isWordStart c = true := hword.1
    refine ⟨isDigit_of_isWordStart hstart, ?_, ?_⟩
    · rintro rfl
      cases hstart
    · rintro rfl
      cases hstart

/-- Nothing that consists of parts of a literal starts like a numeral. -/
theorem Token.Lexed.not_numeral (h : Lexed (c :: cs) ts) (hts : ∀ t ∈ ts, t.IsLiteralPart)
    (hblank : isBlank c = false) (hcomment : c ≠ '%') :
    c.isDigit = false ∧ c ≠ '.' ∧ c ≠ '+' := by
  obtain ⟨t, rest, us, hscan, rfl, -⟩ := h.exists_cons (isSpace_of_isBlank hblank) hcomment
  obtain ⟨lexeme, hlexeme, hspelled, -⟩ := exists_spelled_of_scan? hscan
  obtain ⟨d, lexeme, rfl⟩ := List.exists_cons_of_ne_nil hspelled.ne_nil
  obtain ⟨rfl, -⟩ := List.cons.inj hlexeme
  exact (hts t List.mem_cons_self).not_numeral hspelled

/-- A word for infinity or for no number, in any case. -/
def isNumberName (cs : List Char) : Bool :=
  ["inf", "infinity", "nan"].contains (String.ofList (cs.map Char.toLower))

/-- A word that denotes a number although it can be the end of a literal: a name of a number, with
or without a dash. -/
def isNumberWord : List Char → Bool
  | '-' :: cs => isNumberName cs
  | cs => isNumberName cs

theorem isNumberName_iff : isNumberName cs = true ↔
    String.ofList (cs.map Char.toLower) ∈ ["inf", "infinity", "nan"] := by
  rw [isNumberName, List.contains_iff_mem]

/-- A number without its sign is a name of one, or starts like a numeral. -/
theorem isSome_readMagnitude?_cases (h : (Decimal.readMagnitude? cs).isSome = true) :
    isNumberName cs = true ∨ ∃ c ds, cs = c :: ds ∧ (c.isDigit = true ∨ c = '.') :=
  (Decimal.readMagnitude?_cases h).imp isNumberName_iff.mpr Decimal.exists_cons_of_read?

theorem isSome_readMagnitude?_of_isNumberName (h : isNumberName cs = true) :
    (Decimal.readMagnitude? cs).isSome = true := by
  have hword := isNumberName_iff.mp h
  simp only [List.mem_cons, List.not_mem_nil, or_false] at hword
  unfold Decimal.readMagnitude?
  dsimp only
  rcases hword with hword | hword | hword <;> rw [hword] <;> rfl

theorem isSome_readFloat?_of_isNumberWord (h : isNumberWord cs = true) :
    (Decimal.readFloat? cs).isSome = true := by
  unfold isNumberWord at h
  split at h
  · rw [Decimal.readFloat?, Option.isSome_map]
    exact isSome_readMagnitude?_of_isNumberName h
  · next hdash =>
    unfold Decimal.readFloat?
    split
    · exact absurd rfl (hdash _)
    · next ds =>
      -- no name starts with a plus
      have hplus : '+' :: ds.map Char.toLower ∈ ["inf", "infinity", "nan"].map String.toList := by
        have hmem := List.mem_map_of_mem (f := String.toList) (isNumberName_iff.mp h)
        rwa [String.toList_ofList] at hmem
      simp at hplus
    · exact isSome_readMagnitude?_of_isNumberName h

theorem isNumberName_of_lexed (h : Lexed cs ts) (hts : ∀ t ∈ ts, t.IsLiteralPart)
    (hread : (Decimal.readMagnitude? cs).isSome = true) : isNumberName cs = true := by
  rcases isSome_readMagnitude?_cases hread with hname | ⟨c, ds, rfl, hc⟩
  · exact hname
  · have hstart : isBlank c = false ∧ c ≠ '%' := by
      rcases hc with hc | rfl
      · refine ⟨isBlank_of_isDigit hc, ?_⟩
        rintro rfl
        cases hc
      · decide
    obtain ⟨hdigit, hpoint, -⟩ := h.not_numeral hts hstart.1 hstart.2
    rcases hc with hc | hc
    · rw [hdigit] at hc
      cases hc
    · exact absurd hc hpoint

/-- Of the words that denote a number only those for infinity and for no number consist of parts of
a literal. -/
theorem isNumberWord_of_lexed (h : Lexed cs ts) (hts : ∀ t ∈ ts, t.IsLiteralPart)
    (hread : (Decimal.readFloat? cs).isSome = true) : isNumberWord cs = true := by
  unfold Decimal.readFloat? at hread
  split at hread
  · next ds =>
    rw [Option.isSome_map] at hread
    obtain ⟨t, rest, us, hscan, rfl, hus⟩ := h.exists_cons (by decide) (by decide)
    have hscan' : scan? ('-' :: ds) = some (.dash, ds) := scan?_sign ("-", .dash) (by decide) ds
    rw [hscan'] at hscan
    obtain ⟨-, rfl⟩ := Prod.mk.inj (Option.some.inj hscan)
    exact isNumberName_of_lexed hus (fun t ht => hts t (List.mem_cons_of_mem _ ht)) hread
  · exact absurd rfl (h.not_numeral hts (by decide) (by decide)).2.2
  · next hdash _ =>
    have hname := isNumberName_of_lexed h hts hread
    unfold isNumberWord
    split
    · exact absurd rfl (hdash _)
    · exact hname

end Literals

/-! ### Texts of literals -/

section Texts

variable {text : String} {l : Literal} {ws : List (List Char)} {f : List Char}

/-- **A literal is read from its words**, if they are joined by single spaces. -/
theorem parse_intercalate_words (h : Literal.parse text = .ok l) (hcomment : '%' ∉ text.toList) :
    Literal.parse (String.ofList ([' '].intercalate (Text.words text.toList))) = .ok l := by
  obtain ⟨ts, hts, hl⟩ := parse_eq_ok_iff.mp h
  refine parse_eq_ok_iff.mpr ⟨ts, ?_, hl⟩
  rw [String.toList_ofList]
  exact hts.intercalate_words hcomment

theorem words_ne_nil_of_parse (h : Literal.parse text = .ok l) (hcomment : '%' ∉ text.toList) :
    Text.words text.toList ≠ [] := by
  intro hnil
  have hempty := toOption_parse_eq_some.mpr (parse_intercalate_words h hcomment)
  rw [hnil] at hempty
  have hnone : (Literal.parse (String.ofList ([' '].intercalate []))).toOption = none := by
    decide +kernel
  rw [hnone] at hempty
  cases hempty

/-- If the last word of a literal denotes a number, the tokens of the literal are those of the words
before it and its own. -/
theorem exists_tokens_of_parse (h : Literal.parse text = .ok l) (hcomment : '%' ∉ text.toList)
    (hwords : Text.words text.toList = ws ++ [f]) (hws : ws ≠ [])
    (hf : (Decimal.readFloat? f).isSome = true) :
    ∃ us vs, Lexed ([' '].intercalate ws) us ∧ Lexed f vs ∧ LiteralOf (us ++ vs) l := by
  obtain ⟨ts, hts, hl⟩ := parse_eq_ok_iff.mp (parse_intercalate_words h hcomment)
  have hcomment' : '%' ∉ [' '].intercalate (ws ++ [f]) := by
    rw [← hwords]
    intro hmem
    exact (mem_of_mem_intercalate_words hmem).elim (by decide) hcomment
  rw [String.toList_ofList, hwords] at hts
  rw [intercalate_concat hws] at hts hcomment'
  have hclose : ')' ∉ f := fun hmem => nomatch Decimal.isNumeric_of_readFloat? hf ')' hmem
  obtain ⟨us, vs, rfl, hus, hvs⟩ :=
    hts.of_append (fun hmem => hcomment' (List.mem_append_left _ hmem)) hclose
  exact ⟨us, vs, hus, hvs, hl⟩

/-- If the last word of a literal denotes a number, it is a word for infinity or for no number. -/
theorem isNumberWord_of_parse (h : Literal.parse text = .ok l) (hcomment : '%' ∉ text.toList)
    (hwords : Text.words text.toList = ws ++ [f]) (hws : ws ≠ [])
    (hf : (Decimal.readFloat? f).isSome = true) : isNumberWord f = true := by
  obtain ⟨us, vs, -, hvs, hl⟩ := exists_tokens_of_parse h hcomment hwords hws hf
  exact isNumberWord_of_lexed hvs (fun t ht => hl.isLiteralPart t (List.mem_append_right us ht)) hf

/-- The words before a last word that denotes a number are no literal. -/
theorem parse_words_ne_ok (h : Literal.parse text = .ok l) (hcomment : '%' ∉ text.toList)
    (hwords : Text.words text.toList = ws ++ [f]) (hws : ws ≠ [])
    (hf : (Decimal.readFloat? f).isSome = true) (l' : Literal) :
    Literal.parse (String.ofList ([' '].intercalate ws)) ≠ .ok l' := by
  intro h'
  obtain ⟨us, vs, hus, hvs, hl⟩ := exists_tokens_of_parse h hcomment hwords hws hf
  obtain ⟨us', hus', hl'⟩ := parse_eq_ok_iff.mp h'
  rw [String.toList_ofList] at hus'
  obtain rfl := hus.unique hus'
  obtain rfl := hl'.eq_nil_of_append hl
  -- the last word is not empty, so it has a token
  obtain ⟨hne, hblank⟩ := isField_of_readFloat? hf
  obtain ⟨c, f, rfl⟩ := List.exists_cons_of_ne_nil hne
  have hpercent : c ≠ '%' := by
    rintro rfl
    cases Decimal.isNumeric_of_readFloat? hf '%' List.mem_cons_self
  obtain ⟨t, rest, us, -, hcons, -⟩ :=
    hvs.exists_cons (isSpace_of_isBlank (hblank c List.mem_cons_self)) hpercent
  cases hcons

end Texts

end ProbLogic
