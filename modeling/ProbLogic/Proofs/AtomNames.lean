/-
# The names of atoms

Which names an atom of a text can have, said without the scanner: an identifier,
possibly with one group of arguments whose parentheses are balanced and which
has no blanks (`IsAtomName`). The scanner finds the end of a group by counting
the open parentheses (`closing?`). A group that it closes is balanced, and a
balanced one is closed at its end (`closing?_eq_some_iff`), so these names are
the ones that are read back (`isAtomName_iff`).

A negative literal has two texts, `-a` and `not(a)`. In the second the
parenthesis follows the word directly; `not` is a token of its own there and
does not take the parentheses as arguments.

Key definitions: `Balanced`, `IsAtomName`.
Key theorems: `closing?_eq_some_iff`, `isAtomName_iff`, `parse_ruleText`,
`parse_literal_texts`.
-/
import ProbLogic.Proofs.Statement

namespace ProbLogic
namespace Token

open Text

variable {cs rest w : List Char} {c : Char}

/-! ### Balanced parentheses -/

/-- Each parenthesis of the text has its partner in it. -/
inductive Balanced : List Char → Prop
  | nil : Balanced []
  | plain {c : Char} {cs : List Char} (hopen : c ≠ '(') (hclose : c ≠ ')') (h : Balanced cs) :
      Balanced (c :: cs)
  | group {inner cs : List Char} (hinner : Balanced inner) (h : Balanced cs) :
      Balanced ('(' :: (inner ++ ')' :: cs))

/-- A balanced text changes nothing in the number of open parentheses. -/
theorem Balanced.closing?_append (h : Balanced w) (depth : Nat) (cs : List Char) :
    closing? depth (w ++ cs) = (closing? depth cs).map fun r => (w ++ r.1, r.2) := by
  induction h generalizing depth cs with
  | nil =>
    rw [List.nil_append]
    simp
  | plain hopen hclose _ ih =>
    rw [List.cons_append, closing?_other hopen hclose, ih, Option.map_map]
    rfl
  | @group inner w _ _ ihinner ih =>
    have hsplit : '(' :: (inner ++ ')' :: w) ++ cs = '(' :: (inner ++ ')' :: (w ++ cs)) := by simp
    rw [hsplit, closing?_open, ihinner, closing?_close_succ, ih]
    simp only [Option.map_map]
    congr 1
    funext r
    simp

/-- What `closing?` takes for `depth` open parentheses beside its own: balanced texts, each ended
by a closing parenthesis. -/
inductive Closes : Nat → List Char → Prop
  | last {inner : List Char} (h : Balanced inner) : Closes 0 (inner ++ [')'])
  | more {depth : Nat} {inner cs : List Char} (h : Balanced inner) (hrest : Closes depth cs) :
      Closes (depth + 1) (inner ++ ')' :: cs)

theorem Closes.plain {depth : Nat} (hopen : c ≠ '(') (hclose : c ≠ ')') (h : Closes depth cs) :
    Closes depth (c :: cs) := by
  cases h with
  | last h => exact .last (.plain hopen hclose h)
  | more h hrest => exact .more (.plain hopen hclose h) hrest

/-- One parenthesis more is open before it, and its partner is the first one that is closed. -/
theorem Closes.open {depth : Nat} (h : Closes (depth + 1) cs) : Closes depth ('(' :: cs) := by
  obtain _ | ⟨h, hrest⟩ := h
  cases hrest with
  | last hlast =>
    have hall := Closes.last (Balanced.group h hlast)
    simpa using hall
  | more hnext hrest =>
    have hall := Closes.more (Balanced.group h hnext) hrest
    simpa using hall

theorem closes_of_closing? {depth : Nat} {group : List Char}
    (h : closing? depth cs = some (group, rest)) : Closes depth group ∧ cs = group ++ rest := by
  induction cs generalizing depth group with
  | nil => cases h
  | cons c cs ih =>
    by_cases hopen : c = '('
    · subst hopen
      rw [closing?_open] at h
      obtain ⟨⟨inner, r⟩, hinner, heq⟩ := Option.map_eq_some_iff.mp h
      obtain ⟨rfl, rfl⟩ := Prod.mk.inj heq
      obtain ⟨hcloses, rfl⟩ := ih hinner
      exact ⟨hcloses.open, rfl⟩
    by_cases hclose : c = ')'
    · subst hclose
      cases depth with
      | zero =>
        obtain ⟨rfl, rfl⟩ := Prod.mk.inj (Option.some.inj h)
        exact ⟨.last .nil, rfl⟩
      | succ depth =>
        rw [closing?_close_succ] at h
        obtain ⟨⟨inner, r⟩, hinner, heq⟩ := Option.map_eq_some_iff.mp h
        obtain ⟨rfl, rfl⟩ := Prod.mk.inj heq
        obtain ⟨hcloses, rfl⟩ := ih hinner
        exact ⟨.more .nil hcloses, rfl⟩
    · rw [closing?_other hopen hclose] at h
      obtain ⟨⟨inner, r⟩, hinner, heq⟩ := Option.map_eq_some_iff.mp h
      obtain ⟨rfl, rfl⟩ := Prod.mk.inj heq
      obtain ⟨hcloses, rfl⟩ := ih hinner
      exact ⟨hcloses.plain hopen hclose, rfl⟩

/-- **Counting finds the partner**: the group that is closed is a balanced text with its closing
parenthesis. -/
theorem closing?_eq_some_iff {group : List Char} :
    closing? 0 cs = some (group, rest) ↔
      ∃ inner, Balanced inner ∧ group = inner ++ [')'] ∧ cs = group ++ rest := by
  constructor
  · intro h
    obtain ⟨hcloses, hcs⟩ := closes_of_closing? h
    obtain ⟨hinner⟩ := hcloses
    exact ⟨_, hinner, rfl, hcs⟩
  · rintro ⟨inner, hinner, rfl, rfl⟩
    have hclosed : closing? 0 (')' :: rest) = some ([')'], rest) := rfl
    rw [List.append_assoc, List.singleton_append, hinner.closing?_append, hclosed]
    rfl

/-! ### Names -/

/-- A letter or underscore, then letters, digits and underscores. -/
def IsIdentifier (word : List Char) : Prop :=
  word.head?.any isWordStart = true ∧ ∀ c ∈ word, isWordPart c = true

/-- A name that an atom of a text can have. -/
inductive IsAtomName : List Char → Prop
  | bare {word : List Char} (hword : IsIdentifier word)
      (hfree : word ∉ ["true", "false", "not"].map String.toList) : IsAtomName word
  | applied {word inner : List Char} (hword : IsIdentifier word)
      (hfree : word ∉ ["true", "false", "not", "query", "evidence"].map String.toList)
      (hinner : Balanced inner) (hblank : ∀ c ∈ inner, isBlank c = false) :
      IsAtomName (word ++ '(' :: (inner ++ [')']))

theorem isGroup_iff {group : List Char} :
    IsGroup group ↔ ∃ inner, group = '(' :: (inner ++ [')']) ∧ Balanced inner ∧
      ∀ c ∈ inner, isBlank c = false := by
  constructor
  · rintro ⟨⟨inner, rfl, hclosing⟩, hblank⟩
    obtain ⟨content, hcontent, rfl, -⟩ := closing?_eq_some_iff.mp hclosing
    exact ⟨content, rfl, hcontent, fun c hc =>
      hblank c (List.mem_cons_of_mem _ (List.mem_append_left _ hc))⟩
  · rintro ⟨inner, rfl, hinner, hblank⟩
    refine ⟨⟨inner ++ [')'], rfl, ?_⟩, fun c hc => ?_⟩
    · exact closing?_eq_some_iff.mpr ⟨inner, hinner, rfl, (List.append_nil _).symm⟩
    · rcases List.mem_cons.mp hc with rfl | hc
      · decide
      · rcases List.mem_append.mp hc with hc | hc
        · exact hblank c hc
        · rw [List.mem_singleton.mp hc]
          decide

theorem not_mem_map_toList {word : List Char} {xs : List String} :
    word ∉ xs.map String.toList ↔ ∀ x ∈ xs, word ≠ x.toList := by
  simp only [List.mem_map, not_exists, not_and]
  exact forall₂_congr fun x _ => ne_comm

/-- **These are the names that are read back.** -/
theorem isAtomName_iff {name : List Char} : IsAtomName name ↔ IsName name := by
  constructor
  · intro h
    cases h with
    | bare hword hfree =>
      refine ⟨_, [], (List.append_nil _).symm, hword.1, hword.2, .inl rfl,
        not_mem_map_toList.mp hfree, fun hne => absurd rfl hne⟩
    | applied hword hfree hinner hblank =>
      have hwords := not_mem_map_toList.mp hfree
      refine ⟨_, _, rfl, hword.1, hword.2, .inr (isGroup_iff.mpr ⟨_, rfl, hinner, hblank⟩),
        fun x hx => hwords x ?_, fun _ x hx => hwords x ?_⟩
      · exact List.mem_append_left ["query", "evidence"] hx
      · exact List.mem_append_right ["true", "false", "not"] hx
  · rintro ⟨word, group, rfl, hparts⟩
    have hword : IsIdentifier word := ⟨hparts.start, hparts.parts⟩
    rcases hparts.arguments with rfl | hgroup
    · rw [List.append_nil]
      exact .bare hword (not_mem_map_toList.mpr hparts.notReserved)
    · obtain ⟨inner, rfl, hinner, hblank⟩ := isGroup_iff.mp hgroup
      refine .applied hword (not_mem_map_toList.mpr fun x hx => ?_) hinner hblank
      rcases List.mem_append.mp (show x ∈ reserved ++ directives from hx) with hx | hx
      · exact hparts.notReserved x hx
      · exact hparts.notDirective (List.cons_ne_nil _ _) x hx

theorem scan?_not_open (cs : List Char) :
    scan? ("not".toList ++ '(' :: cs) = some (.notWord, '(' :: cs) := rfl

end Token

/-! ### Literals -/

open Token Text ProbLogic.Parser

/-- **Literals are read back** from their texts in rules. -/
theorem parse_ruleText {l : Literal} (h : IsName l.atom.name.toList) :
    Literal.parse l.ruleText = .ok l := by
  obtain ⟨a, positive⟩ := l
  cases positive with
  | true => exact parse_text (l := .pos a) h
  | false =>
    have hclose : Lexed [')'] [.rparen] := lexed_nil.sign (x := (")", .rparen)) (by decide)
    have hatom := writes_name h (stops_cons (by decide) _) hclose
    have hopen := hatom.sign (x := ("(", .lparen)) (by decide)
    have hnot := hopen.word (scan?_not_open _) rfl
    have hderived : LiteralOf [.notWord, .lparen, .atom a, .rparen] (.neg a) :=
      .negated .notWord (.grouped (.atom a))
    refine parse_eq_ok_iff.mpr ⟨_, ?_, hderived⟩
    have htext : (Literal.ruleText ⟨a, false⟩).toList =
        "not".toList ++ ('(' :: (a.name.toList ++ [')'])) := by
      simp [Literal.ruleText]
    rw [htext]
    exact hnot

/-- **Literals and their texts.** The atom of every literal that is read has a name of the language
`IsAtomName`, and every literal on such a name is read back from each of its two texts. -/
theorem parse_literal_texts :
    (∀ (text : String) (l : Literal), Literal.parse text = .ok l →
      IsAtomName l.atom.name.toList) ∧
    ∀ l : Literal, IsAtomName l.atom.name.toList →
      Literal.parse l.text = .ok l ∧ Literal.parse l.ruleText = .ok l := by
  refine ⟨fun text l h => isAtomName_iff.mpr (isName_of_parse h), fun l h => ?_⟩
  have hname := isAtomName_iff.mp h
  exact ⟨parse_text hname, parse_ruleText hname⟩

/-- Three negations, blanks in nested arguments, and a percent sign that starts no comment. -/
def nestedText : String := "not ( \\+ - p( a, f(% ) ) )"

theorem parse_literal_texts_nestedText :
    ∃ l, Literal.parse nestedText = .ok l ∧ l = .neg ⟨"p(a,f(%))"⟩ ∧
      IsAtomName "p(a,f(%))".toList ∧ Literal.parse "-p(a,f(%))" = .ok l ∧
      Literal.parse "not(p(a,f(%)))" = .ok l := by
  have hread : Literal.parse nestedText = .ok (.neg ⟨"p(a,f(%))"⟩) :=
    toOption_parse_eq_some.mp (by decide +kernel)
  have hname := parse_literal_texts.1 nestedText _ hread
  obtain ⟨htext, hrule⟩ := parse_literal_texts.2 (.neg ⟨"p(a,f(%))"⟩) hname
  exact ⟨_, hread, rfl, hname, htext, hrule⟩

end ProbLogic
