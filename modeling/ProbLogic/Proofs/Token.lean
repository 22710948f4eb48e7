/-
# Reading tokens back

A name is a word, possibly with a balanced group of arguments without blanks,
that is not a token of its own (`IsName`). The atoms of a text have names
(`isName_of_scan?`), and a name is read back as an atom where nothing follows
that extends it (`scan?_of_isName`). Numerals are read back in the same way.

`Lexed` says which tokens a text consists of. It is built from the end of the
text, token by token.

Key definitions: `IsName`, `Apart`, `Spells`, `Lexed`.
Key theorems: `isName_of_scan?`, `scan?_of_isName`, `scan?_of_spells`,
`isName_of_mem_tokenize`.
-/
import ProbLogic.Token.Lexer
import ProbLogic.Proofs.Text

namespace ProbLogic
namespace Token

open Text

variable {cs rest w : List Char} {c : Char} {t : Token} {a : Atom}

/-! ### Words -/

theorem after?_eq_some_iff : after? w cs = some rest ↔ cs = w ++ rest := by
  induction w generalizing cs with
  | nil => simp [after?]
  | cons d w ih =>
    cases cs with
    | nil => simp [after?]
    | cons c cs =>
      rw [after?]
      by_cases hc : d = c
      · rw [if_pos hc, ih, hc]
        simp
      · rw [if_neg hc]
        simp [Ne.symm hc]

theorem wordThen?_eq_some_iff {word : String} {next : Option Char → Bool} :
    wordThen? word next cs = some rest ↔ cs = word.toList ++ rest ∧ next rest.head? = true := by
  unfold wordThen?
  rw [← after?_eq_some_iff]
  cases after? word.toList cs with
  | none => simp
  | some r =>
    by_cases hnext : next r.head? = true
    · simp only [hnext, if_true, Option.some.injEq]
      constructor
      · intro h
        exact ⟨h, h ▸ hnext⟩
      · intro h
        exact h.1
    · simp only [hnext]
      constructor
      · intro h
        cases h
      · intro h
        exact absurd (Option.some.inj h.1 ▸ h.2) hnext

theorem isDigit_of_isWordStart (h : isWordStart c = true) : c.isDigit = false := by
  cases hd : c.isDigit with
  | false => rfl
  | true =>
  exfalso
  obtain ⟨hlow, hhigh⟩ := toNat_of_isDigit hd
  have hne : c ≠ '_' := by
    intro heq
    subst heq
    simp at hd
  have hstart : isWordStart c =
      ((decide (c.val ≥ 'A'.val ∧ c.val ≤ 'Z'.val) || c.val ≥ 'a'.val && c.val ≤ 'z'.val) ||
        c == '_') := rfl
  have hval : c.val.toNat = c.toNat := rfl
  rw [hstart] at h
  simp [UInt32.le_iff_toNat_le, hval, hne] at h
  omega

theorem isWordPart_of_isWordStart (h : isWordStart c = true) : isWordPart c = true := by
  simp only [isWordStart, isWordPart, Char.isAlphanum, Bool.or_eq_true] at h ⊢
  rcases h with h | h <;> simp [h]

theorem isWordPart_of_isDigit (h : c.isDigit = true) : isWordPart c = true := by
  simp [isWordPart, Char.isAlphanum, h]

theorem isBlank_of_isWordPart (h : isWordPart c = true) : isBlank c = false := by
  have hpart : isWordPart c =
      (((decide (c.val ≥ 'A'.val ∧ c.val ≤ 'Z'.val) || c.val ≥ 'a'.val && c.val ≤ 'z'.val) ||
        c.isDigit) || c == '_') := rfl
  have hval : c.val.toNat = c.toNat := rfl
  rw [hpart] at h
  simp only [Bool.or_eq_true, Bool.and_eq_true, decide_eq_true_eq, beq_iff_eq] at h
  rcases h with (h | h) | rfl
  · simp [UInt32.le_iff_toNat_le, hval] at h
    exact isBlank_of_printable (by omega) (by omega)
  · exact isBlank_of_isDigit h
  · decide

/-! ### The kinds of tokens -/

/-- No word or sign that is a token of its own stands here. -/
structure Unsigned (cs : List Char) : Prop where
  noWord : ∀ x ∈ words, wordThen? x.1 x.2.1 cs = none
  noSign : ∀ x ∈ signs, after? x.1.toList cs = none

theorem Unsigned.scan?_eq (h : Unsigned cs) : scan? cs = (scanNumber? cs).or (scanAtom? cs) := by
  have hwords : (words.findSome? fun x => (wordThen? x.1 x.2.1 cs).map fun r => (x.2.2, r)) =
      none := by
    rw [List.findSome?_eq_none_iff]
    intro x hx
    rw [h.noWord x hx, Option.map_none]
  have hsigns : (signs.findSome? fun x => (after? x.1.toList cs).map fun r => (x.2, r)) =
      none := by
    rw [List.findSome?_eq_none_iff]
    intro x hx
    rw [h.noSign x hx, Option.map_none]
  simp only [scan?, hwords, hsigns, Option.orElse_eq_orElse, Option.orElse_eq_or, Option.none_or]

/-- An atom is read where nothing else is. -/
theorem unsigned_of_scan?_atom (h : scan? cs = some (.atom a, rest)) :
    Unsigned cs ∧ scanAtom? cs = some (.atom a, rest) := by
  have hwords : ∀ x ∈ words, x.2.2 ≠ .atom a := by simp [words]
  have hsigns : ∀ x ∈ signs, x.2 ≠ .atom a := by simp [signs]
  simp only [scan?, Option.orElse_eq_orElse, Option.orElse_eq_or, Option.or_eq_some_iff,
    List.findSome?_eq_none_iff, Option.map_eq_none_iff] at h
  rcases h with h | ⟨hnowords, h | ⟨hnosigns, h | ⟨-, h⟩⟩⟩
  · obtain ⟨x, hx, hr⟩ := List.exists_of_findSome?_eq_some h
    obtain ⟨r, -, heq⟩ := Option.map_eq_some_iff.mp hr
    exact absurd (congrArg Prod.fst heq) (hwords x hx)
  · obtain ⟨x, hx, hr⟩ := List.exists_of_findSome?_eq_some h
    obtain ⟨r, -, heq⟩ := Option.map_eq_some_iff.mp hr
    exact absurd (congrArg Prod.fst heq) (hsigns x hx)
  · unfold scanNumber? at h
    split at h
    · dsimp only at h
      split at h
      · split at h <;> cases h
      · cases h
    · cases h
  · exact ⟨⟨hnowords, hnosigns⟩, h⟩

theorem cons_ne_append {p : Char → Bool} (hc : p c = true) (hne : w ≠ [])
    (hw : ∀ d ∈ w.head?, p d = false) : c :: cs ≠ w ++ rest := by
  obtain ⟨d, ds, rfl⟩ := List.exists_cons_of_ne_nil hne
  intro heq
  obtain ⟨rfl, -⟩ := List.cons.inj heq
  have hfirst := hw c rfl
  rw [hc] at hfirst
  cases hfirst

/-- A text that starts with a character of no sign, and with none of the words. -/
theorem unsigned_cons (hc : isWordPart c = true)
    (hwords : ∀ x ∈ words, wordThen? x.1 x.2.1 (c :: cs) = none) : Unsigned (c :: cs) := by
  refine ⟨hwords, fun x hx => ?_⟩
  have hsign : ∀ x ∈ signs, ∀ d ∈ x.1.toList.head?, isWordPart d = false := by
    simp [signs]
    decide
  have hne : ∀ x ∈ signs, x.1.toList ≠ [] := by simp [signs]
  rw [Option.eq_none_iff_forall_not_mem]
  intro r hr
  rw [Option.mem_def, after?_eq_some_iff] at hr
  exact cons_ne_append hc (hne x hx) (hsign x hx) hr

/-! ### Names -/

/-- The words that are tokens wherever they stand alone. -/
def reserved : List String := ["true", "false", "not"]

/-- The words that are tokens before a parenthesis. -/
def directives : List String := ["query", "evidence"]

/-- A group in parentheses that are balanced, without blanks. -/
def IsGroup (group : List Char) : Prop :=
  (∃ inner, group = '(' :: inner ∧ closing? 0 inner = some (inner, [])) ∧
    ∀ c ∈ group, isBlank c = false

/-- A word and possibly arguments that together are read as an atom. -/
structure NameParts (word group : List Char) : Prop where
  start : word.head?.any isWordStart = true
  parts : ∀ c ∈ word, isWordPart c = true
  arguments : group = [] ∨ IsGroup group
  notReserved : ∀ x ∈ reserved, word ≠ x.toList
  notDirective : group ≠ [] → ∀ x ∈ directives, word ≠ x.toList

/-- The name of an atom in a text. -/
def IsName (name : List Char) : Prop := ∃ word group, name = word ++ group ∧ NameParts word group

theorem IsName.isField {name : List Char} (h : IsName name) : IsField name := by
  obtain ⟨word, group, rfl, hparts⟩ := h
  refine ⟨fun hnil => ?_, fun c hc => ?_⟩
  · have hstart := hparts.start
    rw [(List.append_eq_nil_iff.mp hnil).1] at hstart
    cases hstart
  · rcases List.mem_append.mp hc with hc | hc
    · exact isBlank_of_isWordPart (hparts.parts c hc)
    · rcases hparts.arguments with rfl | ⟨-, hgroup⟩
      · cases hc
      · exact hgroup c hc

/-- What follows does not extend a name: neither a part of a word nor arguments. -/
def Apart (rest : List Char) : Prop := Stops (fun c => isWordPart c || c == '(') rest

theorem closing?_open (depth : Nat) (cs : List Char) :
    closing? depth ('(' :: cs) = (closing? (depth + 1) cs).map fun r => ('(' :: r.1, r.2) := by
  rw [closing?.eq_def]
  rfl

theorem closing?_close_succ (depth : Nat) (cs : List Char) :
    closing? (depth + 1) (')' :: cs) = (closing? depth cs).map fun r => (')' :: r.1, r.2) := by
  rw [closing?.eq_def]
  rfl

theorem closing?_other (hopen : c ≠ '(') (hclose : c ≠ ')') (depth : Nat) (cs : List Char) :
    closing? depth (c :: cs) = (closing? depth cs).map fun r => (c :: r.1, r.2) := by
  rw [closing?.eq_def]
  simp only [if_neg hopen, if_neg hclose]

/-- The group that was closed is read again without its blanks, whatever follows. -/
theorem closing?_filter (keep : Char → Bool) (hopen : keep '(' = true) (hclose : keep ')' = true)
    {depth : Nat} {group : List Char} (h : closing? depth cs = some (group, rest))
    (more : List Char) :
    closing? depth (group.filter keep ++ more) = some (group.filter keep, more) := by
  induction cs generalizing depth group with
  | nil => cases h
  | cons c cs ih =>
    by_cases hco : c = '('
    · subst hco
      rw [closing?_open] at h
      obtain ⟨⟨inner, r⟩, hinner, heq⟩ := Option.map_eq_some_iff.mp h
      obtain ⟨rfl, rfl⟩ := Prod.mk.inj heq
      rw [List.filter_cons_of_pos hopen, List.cons_append, closing?_open, ih hinner]
      rfl
    by_cases hcc : c = ')'
    · subst hcc
      cases depth with
      | zero =>
        obtain ⟨rfl, -⟩ := Prod.mk.inj (Option.some.inj h)
        rw [List.filter_cons_of_pos hclose]
        rfl
      | succ depth =>
        rw [closing?_close_succ] at h
        obtain ⟨⟨inner, r⟩, hinner, heq⟩ := Option.map_eq_some_iff.mp h
        obtain ⟨rfl, rfl⟩ := Prod.mk.inj heq
        rw [List.filter_cons_of_pos hclose, List.cons_append, closing?_close_succ, ih hinner]
        rfl
    · rw [closing?_other hco hcc] at h
      obtain ⟨⟨inner, r⟩, hinner, heq⟩ := Option.map_eq_some_iff.mp h
      obtain ⟨rfl, rfl⟩ := Prod.mk.inj heq
      cases hkeep : keep c with
      | false =>
        rw [List.filter_cons_of_neg (by simp [hkeep])]
        exact ih hinner
      | true =>
        rw [List.filter_cons_of_pos hkeep, List.cons_append, closing?_other hco hcc, ih hinner]
        rfl

theorem arguments_of_apart (h : Apart rest) : arguments rest = ([], rest) := by
  unfold arguments
  split
  · next cs =>
    have hopen := h '(' rfl
    simp at hopen
  · rfl

theorem arguments_of_isGroup {group : List Char} (hg : IsGroup group) (rest : List Char) :
    arguments (group ++ rest) = (group, rest) := by
  obtain ⟨⟨inner, rfl, hinner⟩, -⟩ := hg
  have hall : inner.filter (fun _ => true) = inner := List.filter_eq_self.mpr fun _ _ => rfl
  have hrest := closing?_filter (fun _ => true) rfl rfl hinner rest
  rw [hall] at hrest
  rw [List.cons_append, arguments, hrest]

/-- The arguments that a text starts with are a group, but for their blanks. -/
theorem arguments_cases (cs : List Char) :
    ((arguments cs).1 = [] ∧ (arguments cs).2 = cs) ∨
      (cs.head? = some '(' ∧ IsGroup ((arguments cs).1.filter fun c => !isBlank c)) := by
  unfold arguments
  split
  · next cs =>
    cases h : closing? 0 cs with
    | none => exact .inl ⟨rfl, rfl⟩
    | some r =>
      obtain ⟨group, rest⟩ := r
      refine .inr ⟨rfl, ⟨group.filter fun c => !isBlank c, ?_, ?_⟩, ?_⟩
      · exact List.filter_cons_of_pos (by decide)
      · have hfilter := closing?_filter (fun c => !isBlank c) (by decide) (by decide) h []
        rwa [List.append_nil] at hfilter
      · intro c hc
        simpa using (List.mem_filter.mp hc).2
  · exact .inl ⟨rfl, rfl⟩

theorem exists_reserved : ∀ x ∈ reserved, ∃ t, (x, (fun c => !c.any isWordPart), t) ∈ words := by
  intro x hx
  simp only [reserved, List.mem_cons, List.not_mem_nil, or_false] at hx
  rcases hx with rfl | rfl | rfl
  · exact ⟨.verum, .tail _ (.tail _ (.head _))⟩
  · exact ⟨.falsum, .tail _ (.tail _ (.tail _ (.head _)))⟩
  · exact ⟨.notWord, .tail _ (.tail _ (.tail _ (.tail _ (.head _))))⟩

theorem exists_directive :
    ∀ x ∈ directives, ∃ t, (x, (fun c => decide (c = some '(')), t) ∈ words := by
  intro x hx
  simp only [directives, List.mem_cons, List.not_mem_nil, or_false] at hx
  rcases hx with rfl | rfl
  · exact ⟨.query, .head _⟩
  · exact ⟨.evidence, .tail _ (.head _)⟩

theorem words_cases : ∀ x ∈ words, (∀ c ∈ x.1.toList, isWordPart c = true) ∧
    ((x.1 ∈ reserved ∧ x.2.1 = fun c => !c.any isWordPart) ∨
      (x.1 ∈ directives ∧ x.2.1 = fun c => c = some '(')) := by
  intro x hx
  simp only [words, List.mem_cons, List.not_mem_nil, or_false] at hx
  rcases hx with rfl | rfl | rfl | rfl | rfl
  · exact ⟨List.all_eq_true.mp (by decide), .inr ⟨by decide, rfl⟩⟩
  · exact ⟨List.all_eq_true.mp (by decide), .inr ⟨by decide, rfl⟩⟩
  · exact ⟨List.all_eq_true.mp (by decide), .inl ⟨by decide, rfl⟩⟩
  · exact ⟨List.all_eq_true.mp (by decide), .inl ⟨by decide, rfl⟩⟩
  · exact ⟨List.all_eq_true.mp (by decide), .inl ⟨by decide, rfl⟩⟩

theorem any_isWordPart_of_stops (h : Stops isWordPart rest) :
    (!rest.head?.any isWordPart) = true := by
  cases hc : rest.head? with
  | none => rfl
  | some c => simp [h c hc]

theorem stops_of_any_isWordPart (h : (!rest.head?.any isWordPart) = true) :
    Stops isWordPart rest := by
  intro c hc
  rw [hc] at h
  simpa using h

/-- **Atoms have names.** -/
theorem isName_of_scan? (h : scan? cs = some (.atom a, rest)) : IsName a.name.toList := by
  obtain ⟨hunsigned, hatom⟩ := unsigned_of_scan?_atom h
  unfold scanAtom? at hatom
  split at hatom
  case isFalse => cases hatom
  case isTrue hstart =>
  have hsplit : cs = cs.takeWhile isWordPart ++ cs.dropWhile isWordPart :=
    List.takeWhile_append_dropWhile.symm
  have hstop : Stops isWordPart (cs.dropWhile isWordPart) := stops_dropWhile _ _
  have hname : a.name.toList = cs.takeWhile isWordPart ++
      (arguments (cs.dropWhile isWordPart)).1.filter fun c => !isBlank c := by
    obtain ⟨htoken, -⟩ := Prod.mk.inj (Option.some.inj hatom)
    rw [← Token.atom.inj htoken, String.toList_ofList]
    rfl
  refine ⟨_, _, hname, ?_, ?_, ?_, ?_, ?_⟩
  · cases cs with
    | nil => cases hstart
    | cons c cs =>
      have hc : isWordStart c = true := hstart
      rw [List.takeWhile_cons, if_pos (isWordPart_of_isWordStart hc)]
      exact hc
  · intro c hc
    exact List.all_eq_true.mp List.all_takeWhile c hc
  · rcases arguments_cases (cs.dropWhile isWordPart) with ⟨hnil, -⟩ | ⟨-, hgroup⟩
    · rw [hnil]
      exact .inl rfl
    · exact .inr hgroup
  · intro x hx hword
    obtain ⟨t, ht⟩ := exists_reserved x hx
    have hnone := hunsigned.noWord _ ht
    rw [wordThen?_eq_some_iff.mpr ⟨hword ▸ hsplit, any_isWordPart_of_stops hstop⟩] at hnone
    cases hnone
  · intro hgroup x hx hword
    obtain ⟨t, ht⟩ := exists_directive x hx
    have hnone := hunsigned.noWord _ ht
    rcases arguments_cases (cs.dropWhile isWordPart) with ⟨hnil, -⟩ | ⟨hopen, -⟩
    · rw [hnil] at hgroup
      exact hgroup rfl
    · rw [wordThen?_eq_some_iff.mpr ⟨hword ▸ hsplit, by simp [hopen]⟩] at hnone
      cases hnone

theorem stops_arguments {word group : List Char} (h : NameParts word group) (hrest : Apart rest) :
    Stops isWordPart (group ++ rest) := by
  rcases h.arguments with rfl | ⟨⟨inner, rfl, -⟩, -⟩
  · intro c hc
    have hapart := hrest c hc
    rw [Bool.or_eq_false_iff] at hapart
    exact hapart.1
  · exact stops_cons (by decide) _

/-- A name is not taken for a word that is a token of its own. -/
theorem wordThen?_eq_none {word group : List Char} (h : NameParts word group)
    (hrest : Apart rest) : ∀ x ∈ words, wordThen? x.1 x.2.1 (word ++ (group ++ rest)) = none := by
  intro x hx
  have hstop := stops_arguments h hrest
  obtain ⟨hparts, hcases⟩ := words_cases x hx
  rw [Option.eq_none_iff_forall_not_mem]
  intro r hr
  rw [Option.mem_def, wordThen?_eq_some_iff] at hr
  obtain ⟨heq, hnext⟩ := hr
  -- both texts start with their word, since neither goes on with a part of one
  have hword : Stops isWordPart r → word = x.1.toList ∧ group ++ rest = r := by
    intro hr
    have htake := congrArg (List.takeWhile isWordPart) heq
    rw [takeWhile_append_eq h.parts hstop, takeWhile_append_eq hparts hr] at htake
    rw [htake] at heq
    exact ⟨htake, List.append_cancel_left heq⟩
  rcases hcases with ⟨hmem, happly⟩ | ⟨hmem, happly⟩
  · rw [happly] at hnext
    exact h.notReserved _ hmem (hword (stops_of_any_isWordPart hnext)).1
  · rw [happly] at hnext
    have hopen : r.head? = some '(' := by simpa using hnext
    have hr : Stops isWordPart r := by
      intro c hc
      rw [hopen] at hc
      cases hc
      decide
    obtain ⟨hword, hgroup⟩ := hword hr
    by_cases hnil : group = []
    · rw [hnil, List.nil_append] at hgroup
      have hapart := hrest '(' (by rw [hgroup, hopen])
      simp at hapart
    · exact h.notDirective hnil _ hmem hword

/-- **Names are read as atoms**, where nothing follows that extends them. -/
theorem scan?_of_isName {name : List Char} (hname : IsName name) (hrest : Apart rest) :
    scan? (name ++ rest) = some (.atom ⟨String.ofList name⟩, rest) := by
  obtain ⟨word, group, rfl, h⟩ := hname
  have hstop := stops_arguments h hrest
  have hwords := wordThen?_eq_none h hrest
  rw [List.append_assoc]
  have harguments : arguments (group ++ rest) = (group, rest) := by
    rcases h.arguments with rfl | hgroup
    · exact arguments_of_apart hrest
    · exact arguments_of_isGroup hgroup rest
  have hfilter : group.filter (fun c => !isBlank c) = group := by
    rw [List.filter_eq_self]
    intro c hc
    rcases h.arguments with rfl | hgroup
    · cases hc
    · simp [hgroup.2 c hc]
  have hatom : scanAtom? (word ++ (group ++ rest)) =
      some (.atom ⟨String.ofList (word ++ group)⟩, rest) := by
    have hstart : (word ++ (group ++ rest)).head?.any isWordStart = true := by
      have hword := h.start
      cases word with
      | nil => cases hword
      | cons c word => exact hword
    rw [scanAtom?, if_pos hstart, takeWhile_append_eq h.parts hstop,
      dropWhile_append_eq h.parts hstop, harguments]
    simp only [hfilter]
  have hword := h.start
  cases word with
  | nil => cases hword
  | cons c word =>
    have hc : isWordStart c = true := hword
    have hunsigned : Unsigned (c :: (word ++ (group ++ rest))) :=
      unsigned_cons (isWordPart_of_isWordStart hc) hwords
    have hnumber : scanNumber? (c :: word ++ (group ++ rest)) = none := by
      rw [scanNumber?, if_neg]
      simp [isDigit_of_isWordStart hc]
    rw [List.cons_append] at hnumber hatom ⊢
    rw [hunsigned.scan?_eq, hnumber, hatom, Option.none_or, List.cons_append]

/-! ### Numerals -/

/-- The digits of a decimal, with a point if some stand after it. -/
inductive Spells : Decimal → List Char → Prop
  | whole {ds : List Char} (hne : ds ≠ []) (hds : ∀ c ∈ ds, c.isDigit = true) :
    Spells (.ofDigits ds []) ds
  | point {ds fs : List Char} (hne : ds ≠ []) (hds : ∀ c ∈ ds, c.isDigit = true) (hfs : fs ≠ [])
    (hfraction : ∀ c ∈ fs, c.isDigit = true) : Spells (.ofDigits ds fs) (ds ++ '.' :: fs)

theorem Spells.exists_digit {d : Decimal} (h : Spells d cs) : ∃ c ds, cs = c :: ds ∧
    c.isDigit = true := by
  cases h with
  | @whole ds hne hds | @point ds _ hne hds =>
    obtain ⟨c, ds, rfl⟩ := List.exists_cons_of_ne_nil hne
    exact ⟨c, _, rfl, hds c List.mem_cons_self⟩

theorem head?_any_append {p : Char → Bool} (hne : w ≠ []) (hw : ∀ c ∈ w, p c = true)
    (cs : List Char) : (w ++ cs).head?.any p = true := by
  cases w with
  | nil => exact absurd rfl hne
  | cons c w => simp [hw c List.mem_cons_self]

theorem unsigned_of_digit (hc : cs.head?.any Char.isDigit = true) : Unsigned cs := by
  cases cs with
  | nil => cases hc
  | cons c cs =>
    have hc : c.isDigit = true := hc
    apply unsigned_cons
    · exact isWordPart_of_isDigit hc
    · intro x hx
      have hfirst : ∀ x ∈ words, ∀ d ∈ x.1.toList.head?, d.isDigit = false := by
        simp [words]
      have hne : ∀ x ∈ words, x.1.toList ≠ [] := by simp [words]
      rw [Option.eq_none_iff_forall_not_mem]
      intro r hr
      rw [Option.mem_def, wordThen?_eq_some_iff] at hr
      exact cons_ne_append hc (hne x hx) (hfirst x hx) hr.1

/-- **Numerals are read as numbers**, where neither a digit nor a point follows. -/
theorem scan?_of_spells {d : Decimal} (h : Spells d cs)
    (hrest : Stops (fun c => c.isDigit || c == '.') rest) :
    scan? (cs ++ rest) = some (.number d, rest) := by
  have hstop : Stops Char.isDigit rest := fun c hc => (Bool.or_eq_false_iff.mp (hrest c hc)).1
  have hpoint : ∀ cs, rest ≠ '.' :: cs := by
    intro cs heq
    have hdot := hrest '.' (by rw [heq]; rfl)
    simp at hdot
  cases h with
  | whole hne hds =>
    have hfirst := head?_any_append hne hds rest
    rw [(unsigned_of_digit hfirst).scan?_eq, scanNumber?, if_pos hfirst,
      takeWhile_append_eq hds hstop, dropWhile_append_eq hds hstop]
    dsimp only
    split
    · next cs => exact absurd rfl (hpoint cs)
    · rfl
  | @point ds fs hne hds hfs hfraction =>
    have hdot : Stops Char.isDigit ('.' :: (fs ++ rest)) := stops_cons (by decide) _
    rw [List.append_assoc, List.cons_append]
    have hfirst := head?_any_append hne hds ('.' :: (fs ++ rest))
    rw [(unsigned_of_digit hfirst).scan?_eq, scanNumber?, if_pos hfirst,
      takeWhile_append_eq hds hdot, dropWhile_append_eq hds hdot]
    simp only [head?_any_append hfs hfraction rest, if_true, takeWhile_append_eq hfraction hstop,
      dropWhile_append_eq hfraction hstop, Option.some_or]

/-! ### Signs and directives -/

theorem scan?_sign : ∀ x ∈ signs, ∀ cs, scan? (x.1.toList ++ cs) = some (x.2, cs) := by
  intro x hx cs
  simp only [signs, List.mem_cons, List.not_mem_nil, or_false] at hx
  rcases hx with rfl | rfl | rfl | rfl | rfl | rfl | rfl | rfl | rfl | rfl | rfl <;> rfl

theorem scan?_directive (cs : List Char) :
    scan? ("query".toList ++ '(' :: cs) = some (.query, '(' :: cs) ∧
      scan? ("evidence".toList ++ '(' :: cs) = some (.evidence, '(' :: cs) := ⟨rfl, rfl⟩

theorem scan?_truth (cs : List Char) :
    scan? ("true".toList ++ ')' :: cs) = some (.verum, ')' :: cs) ∧
      scan? ("false".toList ++ ')' :: cs) = some (.falsum, ')' :: cs) := ⟨rfl, rfl⟩

/-! ### Texts -/

theorem tokensFrom_of_scan? (h : scan? cs = some (t, rest)) :
    tokensFrom cs =
      (⟨t, cs⟩ :: (tokensFrom (skipBlank rest)).1, (tokensFrom (skipBlank rest)).2) := by
  rw [tokensFrom]
  split
  · next hnone =>
    rw [h] at hnone
    cases hnone
  · next hsome =>
    rw [h] at hsome
    cases hsome
    rfl

/-- Each token of a text is read at some place of it. -/
theorem exists_scan?_of_mem_tokensFrom {l : Lexeme} (h : l ∈ (tokensFrom cs).1) :
    ∃ cs rest, scan? cs = some (l.token, rest) := by
  fun_induction tokensFrom cs with
  | case1 => cases h
  | case2 cs token rest hscan lexemes final hrest ih =>
    rcases List.mem_cons.mp h with rfl | h
    · exact ⟨cs, rest, hscan⟩
    · rw [hrest] at ih
      exact ih h

theorem isName_of_mem_tokenize {l : Lexeme} (h : l ∈ (tokenize cs).1) (ha : l.token = .atom a) :
    IsName a.name.toList := by
  obtain ⟨cs, rest, hscan⟩ := exists_scan?_of_mem_tokensFrom h
  rw [ha] at hscan
  exact isName_of_scan? hscan

theorem skipBlank_space (hc : isSpace c = true) (cs : List Char) :
    skipBlank (c :: cs) = skipBlank cs := by
  rw [skipBlank, skipFrom, if_pos hc]
  rfl

theorem skipBlank_other (hc : isSpace c = false) (hcomment : c ≠ '%') (cs : List Char) :
    skipBlank (c :: cs) = c :: cs := by
  rw [skipBlank, skipFrom, if_neg (by simp [hc]), if_neg hcomment]

theorem tokenize_nil : tokenize [] = ([], []) := by
  rw [tokenize, skipBlank, skipFrom, tokensFrom]
  rfl

theorem tokenize_space (hc : isSpace c = true) (cs : List Char) :
    tokenize (c :: cs) = tokenize cs := by
  rw [tokenize, skipBlank_space hc]
  rfl

/-- A text consists of tokens, up to spaces and comments. -/
def Lexed (cs : List Char) (ts : List Token) : Prop :=
  ∃ ls, tokenize cs = (ls, []) ∧ ls.map Lexeme.token = ts

variable {ts : List Token}

theorem lexed_nil : Lexed [] [] := ⟨[], tokenize_nil, rfl⟩

theorem Lexed.space (h : Lexed cs ts) (hc : isSpace c = true) : Lexed (c :: cs) ts := by
  unfold Lexed at h ⊢
  rwa [tokenize_space hc]

/-- A token is read before the rest. -/
theorem Lexed.cons (h : Lexed rest ts) (hscan : scan? (c :: cs) = some (t, rest))
    (hspace : isSpace c = false) (hcomment : c ≠ '%') : Lexed (c :: cs) (t :: ts) := by
  obtain ⟨ls, hls, rfl⟩ := h
  refine ⟨⟨t, c :: cs⟩ :: ls, ?_, rfl⟩
  rw [tokenize] at hls
  rw [tokenize, skipBlank_other hspace hcomment, tokensFrom_of_scan? hscan, hls]

/-- A text that starts at a token has it before the tokens of the rest. -/
theorem Lexed.exists_cons (h : Lexed (c :: cs) ts) (hspace : isSpace c = false)
    (hcomment : c ≠ '%') :
    ∃ t rest us, scan? (c :: cs) = some (t, rest) ∧ ts = t :: us ∧ Lexed rest us := by
  obtain ⟨ls, hls, rfl⟩ := h
  rw [tokenize, skipBlank_other hspace hcomment] at hls
  cases hscan : scan? (c :: cs) with
  | none =>
    rw [tokensFrom, hscan] at hls
    cases hls
  | some r =>
    obtain ⟨t, rest⟩ := r
    rw [tokensFrom_of_scan? hscan] at hls
    obtain ⟨rfl, hrest⟩ := Prod.mk.inj hls
    exact ⟨t, rest, _, rfl, rfl, _, Prod.ext rfl hrest, rfl⟩

theorem Lexed.word (h : Lexed rest ts) (hscan : scan? cs = some (t, rest))
    (hstart : cs.head?.any isWordPart = true) : Lexed cs (t :: ts) := by
  cases cs with
  | nil => cases hstart
  | cons c cs =>
    have hc : isWordPart c = true := hstart
    apply h.cons hscan
    · cases hspace : isSpace c with
      | false => rfl
      | true =>
        simp only [isSpace, Bool.or_eq_true, beq_iff_eq] at hspace
        rcases hspace with ((rfl | rfl) | rfl) | rfl <;> simp [isWordPart] at hc
    · rintro rfl
      simp [isWordPart] at hc

theorem Lexed.name {name : List Char} (h : Lexed rest ts) (hname : IsName name)
    (hrest : Apart rest) : Lexed (name ++ rest) (.atom ⟨String.ofList name⟩ :: ts) := by
  apply h.word (scan?_of_isName hname hrest)
  obtain ⟨word, group, rfl, hparts⟩ := hname
  have hne : word ≠ [] := by
    rintro rfl
    cases hparts.start
  rw [List.append_assoc]
  exact head?_any_append hne hparts.parts _

theorem Lexed.numeral {d : Decimal} (h : Lexed rest ts) (hd : Spells d cs)
    (hrest : Stops (fun c => c.isDigit || c == '.') rest) :
    Lexed (cs ++ rest) (.number d :: ts) := by
  apply h.word (scan?_of_spells hd hrest)
  cases hd with
  | whole hne hds => exact head?_any_append hne (fun c hc => isWordPart_of_isDigit (hds c hc)) rest
  | point hne hds _ _ =>
    rw [List.append_assoc]
    exact head?_any_append hne (fun c hc => isWordPart_of_isDigit (hds c hc)) _

theorem Lexed.sign (h : Lexed rest ts) {x : String × Token} (hx : x ∈ signs) :
    Lexed (x.1.toList ++ rest) (x.2 :: ts) := by
  have hscan := scan?_sign x hx rest
  have hfirst : ∀ x ∈ signs, ∃ c cs, x.1.toList = c :: cs ∧ isSpace c = false ∧ c ≠ '%' := by
    simp [signs]
    decide
  obtain ⟨c, cs, hcs, hspace, hcomment⟩ := hfirst x hx
  rw [hcs] at hscan ⊢
  exact h.cons hscan hspace hcomment

end Token
end ProbLogic
