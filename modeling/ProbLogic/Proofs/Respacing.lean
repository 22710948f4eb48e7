/-
# Tokens do not depend on the blanks

A respacing of texts keeps every character that is no blank, and puts something
in the place of blanks and of the end that starts with no other character than a
blank (`Respaces`). Squeezing blanks is one, and so is writing more text after a
blank at the end. No reader looks further than one character behind its token,
with one exception: the arguments of an atom end at a parenthesis that may be
anywhere. Where these are kept (`KeepsArguments`), the same token is read after a
respacing (`Respaces.scan?_eq`), and if blanks stay blanks the whole text has the
same tokens, up to its end (`Respaces.tokenize_eq`).

Key definitions: `AtBlank`, `Respaces`, `KeepsArguments`, `Lexeme.mapSource`.
Key theorems: `Respaces.keepsArguments`, `Respaces.scan?_eq`, `Respaces.tokenize_eq`.
-/
import ProbLogic.Proofs.Layout

namespace ProbLogic

/-- The token with another text at it. -/
def Lexeme.mapSource (f : List Char → List Char) (l : Lexeme) : Lexeme := ⟨l.token, f l.source⟩

namespace Token

open Text

variable {f : List Char → List Char} {cs ds rest w : List Char} {c : Char} {t : Token}

/-- The text is at its end, or goes on with a blank. -/
def AtBlank (cs : List Char) : Prop := ∀ c, cs.head? = some c → isBlank c = true

/-- A change of texts that keeps all characters but blanks, and the blanks before them. -/
structure Respaces (f : List Char → List Char) : Prop where
  char : ∀ {c cs}, isBlank c = false → f (c :: cs) = c :: f cs
  blank : ∀ {cs}, AtBlank cs → AtBlank (f cs)

/-- A class of characters that has no blanks. -/
def Dark (p : Char → Bool) : Prop := ∀ c, isBlank c = true → p c = false

/-! ### One character ahead -/

theorem atBlank_or_cons (cs : List Char) :
    AtBlank cs ∨ ∃ c ds, cs = c :: ds ∧ isBlank c = false := by
  cases cs with
  | nil => exact .inl fun c hc => nomatch hc
  | cons c ds =>
    cases hc : isBlank c with
    | true => exact .inl fun d hd => Option.some.inj hd ▸ hc
    | false => exact .inr ⟨c, ds, rfl, hc⟩

section AtBlank

variable {p : Char → Bool}

theorem AtBlank.stops (h : AtBlank cs) (hp : Dark p) : Stops p cs := fun c hc => hp c (h c hc)

theorem AtBlank.any_head? (h : AtBlank cs) (hp : Dark p) : cs.head?.any p = false := by
  cases hc : cs.head? with
  | none => rfl
  | some c => exact h.stops hp c hc

theorem AtBlank.takeWhile_eq (h : AtBlank cs) (hp : Dark p) : cs.takeWhile p = [] := by
  have htake := takeWhile_append_eq (w := []) (fun c hc => nomatch hc) (h.stops hp)
  rwa [List.nil_append] at htake

theorem AtBlank.dropWhile_eq (h : AtBlank cs) (hp : Dark p) : cs.dropWhile p = cs :=
  dropWhile_eq_self (h.stops hp)

theorem AtBlank.ne_cons (h : AtBlank cs) (hc : isBlank c = false) (ds : List Char) :
    cs ≠ c :: ds := by
  rintro rfl
  rw [h c rfl] at hc
  cases hc

theorem AtBlank.after?_eq (h : AtBlank cs) (hne : w ≠ []) (hw : ∀ c ∈ w, isBlank c = false) :
    after? w cs = none := by
  obtain ⟨c, w, rfl⟩ := List.exists_cons_of_ne_nil hne
  rw [Option.eq_none_iff_forall_not_mem]
  intro r hr
  exact h.ne_cons (hw c List.mem_cons_self) _ (after?_eq_some_iff.mp hr)

end AtBlank

theorem dark_isWordPart : Dark isWordPart := by
  intro c hc
  cases hpart : isWordPart c with
  | false => rfl
  | true =>
    rw [isBlank_of_isWordPart hpart] at hc
    cases hc

theorem dark_isWordStart : Dark isWordStart := by
  intro c hc
  cases hstart : isWordStart c with
  | false => rfl
  | true =>
    rw [isBlank_of_isWordPart (isWordPart_of_isWordStart hstart)] at hc
    cases hc

theorem dark_isDigit : Dark Char.isDigit := by
  intro c hc
  cases hdigit : c.isDigit with
  | false => rfl
  | true =>
    rw [isBlank_of_isDigit hdigit] at hc
    cases hc

theorem dark_eq (hc : isBlank c = false) : Dark (· == c) := by
  intro d hd
  have hne : d ≠ c := by
    rintro rfl
    rw [hc] at hd
    cases hd
  simpa using hne

namespace Respaces

variable {p : Char → Bool} (hf : Respaces f)

include hf

theorem any_head? (hp : Dark p) (cs : List Char) : (f cs).head?.any p = cs.head?.any p := by
  rcases atBlank_or_cons cs with hblank | ⟨c, ds, rfl, hc⟩
  · rw [hblank.any_head? hp, (hf.blank hblank).any_head? hp]
  · rw [hf.char hc]
    rfl

theorem takeWhile_eq (hp : Dark p) (cs : List Char) : (f cs).takeWhile p = cs.takeWhile p := by
  induction cs with
  | nil =>
    have hnil : AtBlank [] := fun c hc => nomatch hc
    rw [(hf.blank hnil).takeWhile_eq hp]
    rfl
  | cons c cs ih =>
    rcases atBlank_or_cons (c :: cs) with hblank | ⟨c, ds, heq, hc⟩
    · rw [hblank.takeWhile_eq hp, (hf.blank hblank).takeWhile_eq hp]
    · obtain ⟨rfl, rfl⟩ := List.cons.inj heq
      rw [hf.char hc, List.takeWhile_cons, List.takeWhile_cons, ih]

theorem dropWhile_eq (hp : Dark p) (cs : List Char) : (f cs).dropWhile p = f (cs.dropWhile p) := by
  induction cs with
  | nil =>
    have hnil : AtBlank [] := fun c hc => nomatch hc
    exact (hf.blank hnil).dropWhile_eq hp
  | cons c cs ih =>
    rcases atBlank_or_cons (c :: cs) with hblank | ⟨c, ds, heq, hc⟩
    · rw [hblank.dropWhile_eq hp, (hf.blank hblank).dropWhile_eq hp]
    · obtain ⟨rfl, rfl⟩ := List.cons.inj heq
      rw [hf.char hc, List.dropWhile_cons, List.dropWhile_cons]
      split
      · exact ih
      · exact (hf.char hc).symm

/-- A character that is no blank was there before. -/
theorem exists_of_eq_cons (hc : isBlank c = false) (h : f cs = c :: ds) :
    ∃ ds', cs = c :: ds' ∧ ds = f ds' := by
  rcases atBlank_or_cons cs with hblank | ⟨d, ds', rfl, hd⟩
  · exact absurd h ((hf.blank hblank).ne_cons hc ds)
  · rw [hf.char hd] at h
    obtain ⟨rfl, rfl⟩ := List.cons.inj h
    exact ⟨ds', rfl, rfl⟩

theorem after?_eq (hw : ∀ c ∈ w, isBlank c = false) (cs : List Char) :
    after? w (f cs) = (after? w cs).map f := by
  induction w generalizing cs with
  | nil => rfl
  | cons d w ih =>
    have hrest := ih fun c hc => hw c (List.mem_cons_of_mem d hc)
    rcases atBlank_or_cons cs with hblank | ⟨c, ds, rfl, hc⟩
    · rw [hblank.after?_eq (List.cons_ne_nil d w) hw,
        (hf.blank hblank).after?_eq (List.cons_ne_nil d w) hw]
      rfl
    · rw [hf.char hc, after?, after?]
      split
      · exact hrest ds
      · rfl

/-! ### Tokens -/

theorem wordThen?_eq : ∀ x ∈ words, ∀ cs,
    wordThen? x.1 x.2.1 (f cs) = (wordThen? x.1 x.2.1 cs).map f := by
  intro x hx cs
  obtain ⟨hparts, hnext⟩ := words_cases x hx
  have hdark : ∀ c ∈ x.1.toList, isBlank c = false := fun c hc => isBlank_of_isWordPart (hparts c hc)
  have hopen : ∀ o : Option Char, decide (o = some '(') = o.any (· == '(') := by
    intro o
    cases o with
    | none => rfl
    | some c =>
      simp only [Option.some.injEq, Option.any_some]
      rfl
  have hahead : ∀ r, x.2.1 (f r).head? = x.2.1 r.head? := by
    intro r
    rcases hnext with ⟨-, h⟩ | ⟨-, h⟩
    · simp only [h, hf.any_head? dark_isWordPart]
    · simp only [h, hopen, hf.any_head? (dark_eq (by decide : isBlank '(' = false))]
  rw [wordThen?, wordThen?, hf.after?_eq hdark]
  cases after? x.1.toList cs with
  | none => rfl
  | some r =>
    rw [Option.map_some]
    dsimp only
    rw [hahead]
    split <;> rfl

theorem scanNumber?_eq (cs : List Char) :
    scanNumber? (f cs) = (scanNumber? cs).map fun r => (r.1, f r.2) := by
  unfold scanNumber?
  rw [hf.any_head? dark_isDigit, hf.takeWhile_eq dark_isDigit, hf.dropWhile_eq dark_isDigit]
  split
  · dsimp only
    generalize cs.dropWhile Char.isDigit = r
    by_cases hpoint : ∃ ds, r = '.' :: ds
    · obtain ⟨ds, rfl⟩ := hpoint
      rw [hf.char (by decide)]
      show (if (f ds).head?.any Char.isDigit = true then _ else _) =
        Option.map _ (if ds.head?.any Char.isDigit = true then _ else _)
      rw [hf.any_head? dark_isDigit, hf.takeWhile_eq dark_isDigit, hf.dropWhile_eq dark_isDigit]
      split
      · rfl
      · rw [Option.map_some, hf.char (by decide)]
    · have hpoint' : ∀ ds, f r ≠ '.' :: ds := by
        intro ds heq
        obtain ⟨ds', rfl, -⟩ := hf.exists_of_eq_cons (by decide) heq
        exact hpoint ⟨ds', rfl⟩
      split
      · next heq => exact absurd heq (hpoint' _)
      · split
        · exact absurd ⟨_, rfl⟩ hpoint
        · rfl
  · rfl

end Respaces

/-- The arguments of an atom are kept, up to their blanks, and so is what follows them. -/
structure KeepsArguments (f : List Char → List Char) (cs : List Char) : Prop where
  group : (arguments (f cs)).1.filter (fun c => !isBlank c) =
    (arguments cs).1.filter fun c => !isBlank c
  rest : (arguments (f cs)).2 = f (arguments cs).2

theorem arguments_of_ne_open (h : cs.head? ≠ some '(') : arguments cs = ([], cs) := by
  unfold arguments
  split
  · exact absurd rfl h
  · rfl

/-- The characters that are no blanks. -/
def visible (cs : List Char) : List Char := cs.filter fun c => !isBlank c

/-- Arguments are kept if their group is closed at the same parenthesis, or at none. -/
theorem Respaces.keepsArguments (hf : Respaces f)
    (h : ∀ inner, cs = '(' :: inner → (closing? 0 (f inner)).map (Prod.map visible id) =
      (closing? 0 inner).map (Prod.map visible f)) : KeepsArguments f cs := by
  by_cases hopen : cs.head? = some '('
  · obtain ⟨inner, rfl⟩ := List.head?_eq_some_iff.mp hopen
    have hcons : f ('(' :: inner) = '(' :: f inner := hf.char (by decide)
    have hclosing := h inner rfl
    cases hinner : closing? 0 inner with
    | none =>
      rw [hinner] at hclosing
      have hinner' : closing? 0 (f inner) = none := Option.map_eq_none_iff.mp hclosing
      constructor
      · simp only [hcons, arguments, hinner, hinner']
      · simp only [hcons, arguments, hinner, hinner']
    | some r =>
      rw [hinner] at hclosing
      obtain ⟨r', hinner', heq⟩ := Option.map_eq_some_iff.mp hclosing
      obtain ⟨hgroup, hrest⟩ := Prod.mk.inj heq
      constructor
      · simp only [hcons, arguments, hinner, hinner', List.filter_cons]
        rw [show r'.1.filter _ = r.1.filter _ from hgroup]
      · simp only [hcons, arguments, hinner, hinner']
        exact hrest
  · have hopen' : (f cs).head? ≠ some '(' := by
      intro heq
      obtain ⟨inner, hinner⟩ := List.head?_eq_some_iff.mp heq
      obtain ⟨inner', rfl, -⟩ := hf.exists_of_eq_cons (by decide) hinner
      exact hopen rfl
    constructor
    · rw [arguments_of_ne_open hopen, arguments_of_ne_open hopen']
    · rw [arguments_of_ne_open hopen, arguments_of_ne_open hopen']

theorem Respaces.scanAtom?_eq (hf : Respaces f)
    (h : cs.head?.any isWordStart = true → KeepsArguments f (cs.dropWhile isWordPart)) :
    scanAtom? (f cs) = (scanAtom? cs).map fun r => (r.1, f r.2) := by
  have hhead := hf.any_head? dark_isWordStart cs
  cases hstart : cs.head?.any isWordStart with
  | false =>
    rw [scanAtom?_of_not_start hstart, scanAtom?_of_not_start (hhead.trans hstart)]
    rfl
  | true =>
    obtain ⟨hgroup, hrest⟩ := h hstart
    rw [scanAtom?_of_start hstart, scanAtom?_of_start (hhead.trans hstart),
      hf.takeWhile_eq dark_isWordPart, hf.dropWhile_eq dark_isWordPart, hgroup, hrest]
    rfl

theorem findSome?_eq_map {γ δ : Type} {g : δ → δ} {p q : γ → Option δ} {xs : List γ}
    (h : ∀ x ∈ xs, q x = (p x).map g) : xs.findSome? q = (xs.findSome? p).map g := by
  induction xs with
  | nil => rfl
  | cons x xs ih =>
    rw [List.findSome?_cons, List.findSome?_cons, h x List.mem_cons_self,
      ih fun y hy => h y (List.mem_cons_of_mem x hy)]
    cases p x <;> rfl

/-- **The same token is read after a respacing**, if it keeps the arguments of an atom. -/
theorem Respaces.scan?_eq (hf : Respaces f)
    (h : ∀ a rest, scan? cs = some (.atom a, rest) → KeepsArguments f (cs.dropWhile isWordPart)) :
    scan? (f cs) = (scan? cs).map fun r => (r.1, f r.2) := by
  have hdark : ∀ x ∈ signs, ∀ c ∈ x.1.toList, isBlank c = false := by
    simp [signs]
    decide
  have hwords : (words.findSome? fun x => (wordThen? x.1 x.2.1 (f cs)).map fun r => (x.2.2, r)) =
      (words.findSome? fun x => (wordThen? x.1 x.2.1 cs).map fun r => (x.2.2, r)).map
        fun r => (r.1, f r.2) := by
    apply findSome?_eq_map
    intro x hx
    rw [hf.wordThen?_eq x hx, Option.map_map, Option.map_map]
    rfl
  have hsigns : (signs.findSome? fun x => (after? x.1.toList (f cs)).map fun r => (x.2, r)) =
      (signs.findSome? fun x => (after? x.1.toList cs).map fun r => (x.2, r)).map
        fun r => (r.1, f r.2) := by
    apply findSome?_eq_map
    intro x hx
    rw [hf.after?_eq (hdark x hx), Option.map_map, Option.map_map]
    rfl
  simp only [scan?, Option.orElse_eq_orElse, Option.orElse_eq_or] at h ⊢
  rw [hwords, hsigns, hf.scanNumber?_eq]
  -- only where nothing else is read, an atom is
  cases hw : words.findSome? fun x => (wordThen? x.1 x.2.1 cs).map fun r => (x.2.2, r) with
  | some r => rfl
  | none =>
    cases hs : signs.findSome? fun x => (after? x.1.toList cs).map fun r => (x.2, r) with
    | some r => rfl
    | none =>
      cases hn : scanNumber? cs with
      | some r => rfl
      | none =>
        refine hf.scanAtom?_eq fun hstart => ?_
        rw [hw, hs, hn] at h
        exact h _ _ (scanAtom?_of_start hstart)

/-! ### Texts -/

theorem isBlank_of_isSpace (h : isSpace c = true) : isBlank c = true := by
  simp only [isSpace, Bool.or_eq_true, beq_iff_eq] at h
  rcases h with ((rfl | rfl) | rfl) | rfl <;> decide

theorem isSpace_of_isBlank (h : isBlank c = false) : isSpace c = false := by
  cases hspace : isSpace c with
  | false => rfl
  | true =>
    rw [isBlank_of_isSpace hspace] at h
    cases h

/-- A token starts with neither a blank nor a comment. -/
theorem exists_cons_of_scan? (h : scan? cs = some (t, rest)) :
    ∃ c ds, cs = c :: ds ∧ isBlank c = false ∧ c ≠ '%' := by
  have hpart : ∀ {c : Char}, isWordPart c = true → isBlank c = false ∧ c ≠ '%' := by
    intro c hc
    refine ⟨isBlank_of_isWordPart hc, ?_⟩
    rintro rfl
    cases hc
  obtain ⟨lexeme, rfl, hspelled, -⟩ := exists_spelled_of_scan? h
  cases hspelled with
  | @fixed _ text hfixed =>
    have hfirst : ∃ c ds, text.toList = c :: ds ∧ isBlank c = false ∧ c ≠ '%' := by
      cases t <;> cases hfixed <;> exact ⟨_, _, rfl, by decide, by decide⟩
    obtain ⟨c, ds, htext, hc⟩ := hfirst
    exact ⟨c, ds ++ rest, by rw [htext]; rfl, hc⟩
  | number hspells =>
    obtain ⟨c, ds, rfl, hc⟩ := hspells.exists_digit
    exact ⟨c, ds ++ rest, rfl, hpart (isWordPart_of_isDigit hc)⟩
  | @atom word group hword _ =>
    obtain ⟨c, word, rfl⟩ := List.exists_cons_of_ne_nil hword.ne_nil
    exact ⟨c, _, rfl, hpart (hword.2 c List.mem_cons_self)⟩

theorem skipBlank_cons (hc : isBlank c = false) (hcomment : c ≠ '%') (cs : List Char) :
    skipBlank (c :: cs) = c :: cs :=
  skipBlank_other (isSpace_of_isBlank hc) hcomment cs

/-- **The same tokens are read after a respacing** that keeps blanks and arguments, up to what
stands in the place of the rest. -/
theorem Respaces.tokenize_eq (hf : Respaces f) {text : List Char}
    (hskips : ∀ cs rest, cs <:+ text → Skips rest cs → Skips (f rest) (f cs))
    (harguments : ∀ l ∈ (tokenize text).1, ∀ a, l.token = .atom a →
      KeepsArguments f (l.source.dropWhile isWordPart)) :
    tokenize (f text) =
      ((tokenize text).1.map (Lexeme.mapSource f) ++ (tokenize (f (tokenize text).2)).1,
        (tokenize (f (tokenize text).2)).2) := by
  have hfrom : ∀ cs, cs <:+ text → (∀ l ∈ (tokensFrom cs).1, ∀ a, l.token = .atom a →
      KeepsArguments f (l.source.dropWhile isWordPart)) →
      tokenize (f cs) = ((tokensFrom cs).1.map (Lexeme.mapSource f) ++
        (tokenize (f (tokensFrom cs).2)).1, (tokenize (f (tokensFrom cs).2)).2) := by
    intro cs hsuffix hkeeps
    fun_induction tokensFrom cs with
    | case1 cs _ => rfl
    | case2 cs t rest hscan ls final htokens ih =>
      obtain ⟨lexeme, hcs, -⟩ := exists_spelled_of_scan? hscan
      have hrest : rest <:+ text := (hcs ▸ List.suffix_append lexeme rest).trans hsuffix
      have hblank := skips_skipBlank rest
      rw [htokens] at ih
      have hmore := ih (hblank.suffix.trans hrest) fun l hl => hkeeps l (List.mem_cons_of_mem _ hl)
      have hscan' : scan? (f cs) = some (t, f rest) := by
        rw [hf.scan?_eq fun a r har => ?_, hscan]
        · rfl
        · refine hkeeps ⟨t, cs⟩ List.mem_cons_self a ?_
          rw [hscan] at har
          exact (Prod.mk.inj (Option.some.inj har)).1
      have hstart : skipBlank (f cs) = f cs := by
        obtain ⟨c, ds, hcons, hc, hcomment⟩ := exists_cons_of_scan? hscan'
        rw [hcons, skipBlank_cons hc hcomment]
      have hskip : skipBlank (f rest) = skipBlank (f (skipBlank rest)) :=
        skipBlank_of_skips (hskips rest _ hrest hblank)
      rw [tokenize, hstart, tokensFrom_of_scan? hscan', hskip]
      rw [tokenize] at hmore
      rw [hmore]
      rfl
  have hblank := skips_skipBlank text
  have hall := hfrom (skipBlank text) hblank.suffix harguments
  have hskip : skipBlank (f text) = skipBlank (f (skipBlank text)) :=
    skipBlank_of_skips (hskips text _ (List.suffix_refl text) hblank)
  rw [tokenize, hskip]
  exact hall

end Token
end ProbLogic
