/-
# What the DIMACS reader accepts

A line, with the blanks at its ends taken off, is skipped if nothing is left or
if it starts with `p` or `c`. Any other line has to be a list of integers with
spaces and tabs between them (`IsList`), that ends with the only `0` in it.
`Says` gives what such a line says, and `Faulty` what is wrong with any other.

Scanning a line stops without an error where no integer follows, but a line
that has been trimmed has no gap at its end, so all that is left over makes it
malformed (`scanLine?_eq_some_iff`). Lines are taken in turn up to the first
faulty one, and since no clause holds a `0`, none fails to be added.

Key definitions: `Denotes`, `IsList`, `Bare`, `Says`, `Faulty`.
Key theorems: `scanLine?_eq_some_iff`, `Draft.addLine_of_says`, `Draft.addLine_of_faulty`,
`Draft.read_cases`, `Draft.read_eq_iff`.
-/
import Mathlib.Data.List.TakeWhile
import ProbLogic.Cnf.Reader
import ProbLogic.Proofs.Cnf.Draft
import ProbLogic.Proofs.Text

namespace ProbLogic

namespace Dimacs

/-! ### The format of a line -/

/-- The text is an optional dash with digits, and the integer that it denotes is within 64
bits. -/
inductive Denotes : List Char → Int → Prop where
  | natural {ds : List Char} (hne : ds ≠ []) (hds : ∀ d ∈ ds, d.isDigit = true)
      (hfits : fits64 (Text.digitsValue ds) = true) : Denotes ds (Text.digitsValue ds)
  | negative {ds : List Char} (hne : ds ≠ []) (hds : ∀ d ∈ ds, d.isDigit = true)
      (hfits : fits64 (-(Text.digitsValue ds : Int)) = true) :
      Denotes ('-' :: ds) (-(Text.digitsValue ds : Int))

/-- The text consists of integers with one or more spaces and tabs between any two. -/
inductive IsList : List Char → List Int → Prop where
  | singleton {w : List Char} {v : Int} (hw : Denotes w v) : IsList w [v]
  | cons {w gap cs : List Char} {v : Int} {vs : List Int} (hw : Denotes w v) (hne : gap ≠ [])
      (hgap : ∀ c ∈ gap, c = ' ' ∨ c = '\t') (hcs : IsList cs vs) :
      IsList (w ++ gap ++ cs) (v :: vs)

variable {cs w gap rest line : List Char} {v : Int} {vs : List Int}

theorem isGap_iff {c : Char} : isGap c = true ↔ c = ' ' ∨ c = '\t' := by
  simp [isGap]

theorem isGap_of_isDigit {c : Char} (h : c.isDigit = true) : isGap c = false := by
  rw [Bool.eq_false_iff]
  intro hgap
  rcases isGap_iff.mp hgap with rfl | rfl <;> simp at h

theorem isGap_of_isBlank {c : Char} (h : Text.isBlank c = false) : isGap c = false := by
  rw [Bool.eq_false_iff]
  intro hgap
  rcases isGap_iff.mp hgap with rfl | rfl <;> exact absurd h (by decide)

/-- The line is not empty and has no gaps at its ends. -/
structure Bare (line : List Char) : Prop where
  ne_nil : line ≠ []
  first : Text.Stops isGap line
  last : ∀ c, line.getLast? = some c → isGap c = false

/-! ### Integers -/

theorem Denotes.ne_nil (h : Denotes w v) : w ≠ [] := by
  cases h with
  | natural hne => exact hne
  | negative => exact List.cons_ne_nil _ _

theorem Denotes.chars (h : Denotes w v) : ∀ c ∈ w, c = '-' ∨ c.isDigit = true := by
  cases h with
  | natural _ hds => exact fun c hc => .inr (hds c hc)
  | negative _ hds => exact fun c hc => (List.mem_cons.mp hc).imp_right (hds c)

theorem readInteger?_of_head?_ne (h : w.head? ≠ some '-') :
    readInteger? w = if w.isEmpty || !w.all Char.isDigit || !fits64 (Text.digitsValue w) then none
      else some (Text.digitsValue w : Int) := by
  unfold readInteger?
  split
  next negative ds heq =>
    split at heq
    · exact absurd rfl h
    · cases heq
      rfl

theorem readInteger?_digits {ds : List Char} (hne : ds ≠ []) (hds : ∀ d ∈ ds, d.isDigit = true)
    (hfits : fits64 (Text.digitsValue ds) = true) :
    readInteger? ds = some (Text.digitsValue ds : Int) := by
  have hdash : ds.head? ≠ some '-' := by
    intro h
    have hminus := hds '-' (List.mem_of_head? h)
    simp at hminus
  rw [readInteger?_of_head?_ne hdash]
  simpa [hne, hfits] using hds

theorem readInteger?_neg_digits {ds : List Char} (hne : ds ≠ [])
    (hds : ∀ d ∈ ds, d.isDigit = true) (hfits : fits64 (-(Text.digitsValue ds : Int)) = true) :
    readInteger? ('-' :: ds) = some (-(Text.digitsValue ds : Int)) := by
  unfold readInteger?
  simpa [hne, hfits] using hds

/-- An integer is read from the texts that denote it. -/
theorem readInteger?_eq_some_iff : readInteger? w = some v ↔ Denotes w v := by
  constructor
  · intro h
    by_cases hdash : w.head? = some '-'
    · obtain ⟨ds, rfl⟩ := List.head?_eq_some_iff.mp hdash
      obtain ⟨hcond, hv⟩ := Option.ite_none_left_eq_some.mp h
      obtain ⟨⟨hne, hds⟩, hfits⟩ : (ds ≠ [] ∧ ∀ d ∈ ds, d.isDigit = true) ∧
          fits64 (-(Text.digitsValue ds : Int)) = true := by simpa [not_or] using hcond
      exact Option.some.inj hv ▸ .negative hne hds hfits
    · rw [readInteger?_of_head?_ne hdash] at h
      obtain ⟨hcond, hv⟩ := Option.ite_none_left_eq_some.mp h
      obtain ⟨⟨hne, hds⟩, hfits⟩ : (w ≠ [] ∧ ∀ d ∈ w, d.isDigit = true) ∧
          fits64 (Text.digitsValue w) = true := by simpa [not_or] using hcond
      exact Option.some.inj hv ▸ .natural hne hds hfits
  · intro h
    cases h with
    | natural hne hds hfits => exact readInteger?_digits hne hds hfits
    | negative hne hds hfits => exact readInteger?_neg_digits hne hds hfits

theorem numeral_append_drop (cs : List Char) :
    numeral cs ++ cs.drop (numeral cs).length = cs := by
  rw [← List.prefix_iff_eq_append]
  unfold numeral
  split
  · exact (List.prefix_cons_inj '-').mpr (List.takeWhile_prefix _)
  · exact List.takeWhile_prefix _

/-- The scanned part of a text is an integer followed by the rest. -/
theorem exists_of_scanInteger? (h : scanInteger? cs = some (v, rest)) :
    ∃ w, Denotes w v ∧ cs = w ++ rest := by
  obtain ⟨u, hread, heq⟩ := Option.map_eq_some_iff.mp h
  obtain ⟨rfl, rfl⟩ := Prod.mk.inj heq
  exact ⟨numeral cs, readInteger?_eq_some_iff.mp hread, (numeral_append_drop cs).symm⟩

theorem Denotes.numeral_append (h : Denotes w v) (hrest : Text.Stops Char.isDigit rest) :
    numeral (w ++ rest) = w := by
  cases h with
  | natural hne hds _ =>
    obtain ⟨d, ds, rfl⟩ := List.exists_cons_of_ne_nil hne
    have hd : d ≠ '-' := by
      rintro rfl
      cases hds '-' List.mem_cons_self
    rw [numeral]
    · exact Text.takeWhile_append_eq hds hrest
    · intro cs heq
      exact hd (List.cons.inj heq).1
  | negative _ hds _ => exact congrArg ('-' :: ·) (Text.takeWhile_append_eq hds hrest)

/-- An integer is scanned up to the first character that is no digit. -/
theorem Denotes.scanInteger?_append (h : Denotes w v) (hrest : Text.Stops Char.isDigit rest) :
    scanInteger? (w ++ rest) = some (v, rest) := by
  rw [scanInteger?, h.numeral_append hrest, readInteger?_eq_some_iff.mpr h]
  simp

/-! ### Lists of integers -/

theorem IsList.ne_nil (h : IsList cs vs) : cs ≠ [] := by
  cases h with
  | singleton hw => exact hw.ne_nil
  | cons hw => simp [hw.ne_nil]

theorem IsList.values_ne_nil (h : IsList cs vs) : vs ≠ [] := by
  cases h <;> exact List.cons_ne_nil _ _

/-- A list of integers starts with a dash or a digit. -/
theorem IsList.head_cases (h : IsList cs vs) {c : Char} (hc : cs.head? = some c) :
    c = '-' ∨ c.isDigit = true := by
  cases h with
  | singleton hw => exact hw.chars c (List.mem_of_head? hc)
  | cons hw =>
    rw [List.append_assoc, List.head?_append_of_ne_nil _ hw.ne_nil] at hc
    exact hw.chars c (List.mem_of_head? hc)

theorem IsList.stops_isGap (h : IsList cs vs) : Text.Stops isGap cs := by
  intro c hc
  rcases h.head_cases hc with rfl | hdigit
  · rfl
  · exact isGap_of_isDigit hdigit

theorem scanMore_of_stops (h : Text.Stops isGap cs) : scanMore cs = ([], cs) := by
  rw [scanMore, if_neg]
  cases cs with
  | nil => simp
  | cons c cs => simp [h c rfl]

theorem scanIntegers_of_none (h : scanInteger? cs = none) : scanIntegers cs = ([], cs) := by
  rw [scanIntegers, h]

theorem scanIntegers_of_some (h : scanInteger? cs = some (v, rest)) :
    scanIntegers cs = (v :: (scanMore rest).1, (scanMore rest).2) := by
  rw [scanIntegers, h]

theorem scanLine?_eq (line : List Char) : scanLine? line =
    if ((scanIntegers (line.dropWhile isGap)).2.dropWhile isGap).isEmpty
      then some (scanIntegers (line.dropWhile isGap)).1 else none := rfl

/-- After a gap, integers are scanned as at the start of a text, if there are any. -/
theorem scanMore_append (hne : gap ≠ []) (hgap : ∀ c ∈ gap, isGap c = true)
    (hcs : Text.Stops isGap cs) (hsome : (scanIntegers cs).1 ≠ []) :
    scanMore (gap ++ cs) = scanIntegers cs := by
  have hhead : (gap ++ cs).head?.any isGap = true := by
    obtain ⟨c, gap, rfl⟩ := List.exists_cons_of_ne_nil hne
    simpa using hgap c List.mem_cons_self
  rw [scanMore, if_pos hhead]
  split
  · next hscan =>
    rw [Text.dropWhile_append_eq hgap hcs] at hscan
    rw [scanIntegers_of_none hscan] at hsome
    exact absurd rfl hsome
  · next v rest hscan =>
    rw [Text.dropWhile_append_eq hgap hcs] at hscan
    exact (scanIntegers_of_some hscan).symm

/-- A list of integers is scanned to its end. -/
theorem IsList.scanIntegers_eq (h : IsList cs vs) : scanIntegers cs = (vs, []) := by
  have hnil : Text.Stops Char.isDigit [] ∧ Text.Stops isGap [] := by simp [Text.Stops]
  induction h with
  | @singleton w v hw =>
    have hscan := hw.scanInteger?_append hnil.1
    rw [List.append_nil] at hscan
    rw [scanIntegers_of_some hscan, scanMore_of_stops hnil.2]
  | @cons w gap cs v vs hw hne hgap hcs ih =>
    have hgap' : ∀ c ∈ gap, isGap c = true := fun c hc => isGap_iff.mpr (hgap c hc)
    have hstops : Text.Stops Char.isDigit (gap ++ cs) := by
      intro c hc
      rw [List.head?_append_of_ne_nil _ hne] at hc
      rcases hgap c (List.mem_of_head? hc) with rfl | rfl <;> decide
    have hsome : (scanIntegers cs).1 ≠ [] := by
      rw [ih]
      exact hcs.values_ne_nil
    rw [List.append_assoc, scanIntegers_of_some (hw.scanInteger?_append hstops),
      scanMore_append hne hgap' hcs.stops_isGap hsome, ih]

/-- An integer and what is scanned after it make a list of integers. -/
theorem exists_isList_scanMore (hw : Denotes w v) (rest : List Char) :
    ∃ core, IsList core (v :: (scanMore rest).1) ∧ w ++ rest = core ++ (scanMore rest).2 := by
  fun_induction scanMore rest generalizing w v with
  | case1 rest _ hscan => exact ⟨w, .singleton hw, rfl⟩
  | case2 rest hhead u after hscan vs final hmore ih =>
    obtain ⟨w', hw', hdrop⟩ := exists_of_scanInteger? hscan
    obtain ⟨core, hcore, heq⟩ := ih hw'
    rw [hmore] at hcore heq
    refine ⟨w ++ rest.takeWhile isGap ++ core, .cons hw ?_ ?_ hcore, ?_⟩
    · cases rest with
      | nil => simp at hhead
      | cons c rest =>
        rw [List.takeWhile_cons, if_pos (by simpa using hhead)]
        exact List.cons_ne_nil _ _
    · exact fun c hc => isGap_iff.mp (List.mem_takeWhile_imp hc)
    · rw [List.append_assoc, List.append_assoc, ← heq, ← hdrop, List.takeWhile_append_dropWhile]
  | case3 rest _ => exact ⟨w, .singleton hw, rfl⟩

/-- **Scanning a line.** A line without gaps at its ends is scanned if it is a list of
integers. -/
theorem scanLine?_eq_some_iff (hline : Bare line) :
    scanLine? line = some vs ↔ IsList line vs := by
  constructor
  · intro h
    rw [scanLine?_eq, Text.dropWhile_eq_self hline.first] at h
    obtain ⟨hgaps, hvs⟩ := Option.ite_none_right_eq_some.mp h
    rcases hscan : scanInteger? line with _ | ⟨v, after⟩
    · rw [scanIntegers_of_none hscan, Text.dropWhile_eq_self hline.first] at hgaps
      exact absurd (List.isEmpty_iff.mp hgaps) hline.ne_nil
    · obtain ⟨w, hw, rfl⟩ := exists_of_scanInteger? hscan
      obtain ⟨core, hcore, heq⟩ := exists_isList_scanMore hw after
      rw [scanIntegers_of_some hscan] at hgaps hvs
      have hfinal : (scanMore after).2 = [] := by
        -- a last character of what is left would be a gap at the end of the line
        by_contra hrest
        have hall := List.dropWhile_eq_nil_iff.mp (List.isEmpty_iff.mp hgaps)
        have hgap := hall _ (List.getLast_mem hrest)
        rw [hline.last _ (by rw [heq, List.getLast?_append_of_ne_nil _ hrest,
          List.getLast?_eq_some_getLast hrest])] at hgap
        cases hgap
      rw [heq, hfinal, List.append_nil]
      exact Option.some.inj hvs ▸ hcore
  · intro h
    rw [scanLine?_eq, Text.dropWhile_eq_self hline.first, h.scanIntegers_eq]
    rfl

/-! ### What a line says -/

/-- The line is blank, a header or a comment. -/
def IsSkipped (line : List Char) : Prop :=
  Text.trim line = [] ∨ (Text.trim line).head? = some 'p' ∨ (Text.trim line).head? = some 'c'

/-- What a line in the format says: nothing, or a clause. -/
inductive Says (line : List Char) : Option Clause → Prop where
  | nothing (hskip : IsSkipped line) : Says line none
  | clause {c : Clause} (hlist : IsList (Text.trim line) (c ++ [0])) (hc : 0 ∉ c) :
      Says line (some c)

/-- What is wrong with a line that is not in the format. -/
inductive Faulty (number : Nat) (line : List Char) : DimacsError → Prop where
  | malformed (hskip : ¬ IsSkipped line) (hlist : ∀ vs, ¬ IsList (Text.trim line) vs) :
      Faulty number line (.malformed number (String.ofList (Text.trim line)))
  | unterminated {vs : List Int} (hlist : IsList (Text.trim line) vs)
      (hlast : vs.getLast? ≠ some 0) : Faulty number line (.unterminated number)
  | embeddedZero {c : Clause} (hlist : IsList (Text.trim line) (c ++ [0])) (hc : 0 ∈ c) :
      Faulty number line (.embeddedZero number)

/-- A line is in the format, or something is wrong with it. -/
theorem says_or_faulty (number : Nat) (line : List Char) :
    (∃ r, Says line r) ∨ ∃ e, Faulty number line e := by
  by_cases hskip : IsSkipped line
  · exact .inl ⟨_, .nothing hskip⟩
  by_cases hlist : ∃ vs, IsList (Text.trim line) vs
  · obtain ⟨vs, hvs⟩ := hlist
    by_cases hlast : vs.getLast? = some 0
    · obtain ⟨c, rfl⟩ := List.getLast?_eq_some_iff.mp hlast
      by_cases hc : 0 ∈ c
      · exact .inr ⟨_, .embeddedZero hvs hc⟩
      · exact .inl ⟨_, .clause hvs hc⟩
    · exact .inr ⟨_, .unterminated hvs hlast⟩
  · exact .inr ⟨_, .malformed hskip (not_exists.mp hlist)⟩

theorem IsList.not_isSkipped (h : IsList (Text.trim line) vs) : ¬ IsSkipped line := by
  rintro (hnil | hp | hc)
  · exact h.ne_nil hnil
  · simpa using h.head_cases hp
  · simpa using h.head_cases hc

theorem isSkipped_iff : ((Text.trim line).isEmpty || (Text.trim line).head? = some 'p' ||
    (Text.trim line).head? = some 'c') = true ↔ IsSkipped line := by
  simp [IsSkipped, or_assoc]

theorem bare_trim (hskip : ¬ IsSkipped line) : Bare (Text.trim line) where
  ne_nil h := hskip (.inl h)
  first c hc := isGap_of_isBlank (Text.stops_trim line c hc)
  last _ hc := isGap_of_isBlank (Text.isBlank_getLast?_trim hc)

/-- All lines are in the format, or there is a first one that is not. -/
theorem says_or_first_faulty (ls : List (List Char)) (k : Nat) :
    (∃ rs, List.Forall₂ Says ls rs) ∨ ∃ before line after e, ls = before ++ line :: after ∧
      (∃ rs, List.Forall₂ Says before rs) ∧ Faulty (before.length + k) line e := by
  induction ls generalizing k with
  | nil => exact .inl ⟨[], .nil⟩
  | cons l ls ih =>
    rcases says_or_faulty k l with ⟨r, hr⟩ | ⟨e, he⟩
    · rcases ih (k + 1) with ⟨rs, hrs⟩ | ⟨before, line, after, e, rfl, ⟨rs, hrs⟩, he⟩
      · exact .inl ⟨r :: rs, .cons hr hrs⟩
      · refine .inr ⟨l :: before, line, after, e, rfl, ⟨r :: rs, .cons hr hrs⟩, ?_⟩
        rwa [List.length_cons, Nat.add_right_comm, Nat.add_assoc]
    · exact .inr ⟨[], l, ls, e, rfl, ⟨[], .nil⟩, by rwa [List.length_nil, Nat.zero_add]⟩

theorem exists_says_iff {ls : List (List Char)} :
    (∃ rs, List.Forall₂ Says ls rs) ↔ ∀ l ∈ ls, ∃ r, Says l r := by
  induction ls with
  | nil => simp
  | cons l ls ih =>
    rw [List.forall_mem_cons, ← ih]
    simp [List.forall₂_cons_left_iff]

end Dimacs

/-! ### Adding the clauses of lines -/

namespace Draft

open Dimacs

variable {d : Draft} {cs : List Clause} {ls before after : List (List Char)} {line : List Char}
  {vs : List Int} {r : Option Clause} {rs : List (Option Clause)} {e : DimacsError} {k : Nat}

theorem addLine_of_isSkipped (h : IsSkipped line) (d : Draft) (number : Nat) :
    d.addLine number line = .ok d := if_pos (isSkipped_iff.mpr h)

/-- A list of integers has to end with the only `0` in it; what is before is added. -/
theorem addLine_of_isList (h : IsList (Text.trim line) vs) (d : Draft) (number : Nat) :
    d.addLine number line =
      if vs.getLast? ≠ some 0 then .error (.format (.unterminated number))
      else if 0 ∈ vs.dropLast then .error (.format (.embeddedZero number))
      else ((d.addClause vs.dropLast).1.mapError .clause).map fun _ =>
        (d.addClause vs.dropLast).2 := by
  unfold addLine
  rw [if_neg (isSkipped_iff.not.mpr h.not_isSkipped),
    (scanLine?_eq_some_iff (bare_trim h.not_isSkipped)).mpr h]
  dsimp only
  obtain ⟨_ | _, d'⟩ := d.addClause vs.dropLast <;> rfl

/-- What a line says is added. -/
theorem addLine_of_says (h : Says line r) (hd : d.Represents cs) (number : Nat) :
    ∃ d', d.addLine number line = .ok d' ∧ d'.Represents (cs ++ r.toList) := by
  cases h with
  | nothing hskip =>
    refine ⟨d, addLine_of_isSkipped hskip d number, ?_⟩
    rwa [Option.toList_none, List.append_nil]
  | @clause c hlist hc =>
    obtain ⟨hok, hrep⟩ := addClause_of_zero_not_mem hd hc
    refine ⟨(d.addClause c).2, ?_, hrep⟩
    rw [addLine_of_isList hlist, if_neg (by simp), List.dropLast_concat, if_neg hc, hok]
    rfl

/-- What is wrong with a line is reported. -/
theorem addLine_of_faulty (h : Faulty k line e) (d : Draft) :
    d.addLine k line = .error (.format e) := by
  cases h with
  | malformed hskip hlist =>
    have hscan : scanLine? (Text.trim line) = none := by
      rw [Option.eq_none_iff_forall_not_mem]
      exact fun vs hvs => hlist vs ((scanLine?_eq_some_iff (bare_trim hskip)).mp hvs)
    unfold addLine
    rw [if_neg (isSkipped_iff.not.mpr hskip), hscan]
  | unterminated hlist hlast => rw [addLine_of_isList hlist, if_pos hlast]
  | embeddedZero hlist hc =>
    rw [addLine_of_isList hlist, if_neg (by simp), List.dropLast_concat, if_pos hc]

/-- The clauses of the lines are added in turn. -/
theorem foldlM_addLine_of_says (h : List.Forall₂ Says ls rs) (hd : d.Represents cs) (k : Nat) :
    ∃ d', (ls.zipIdx k).foldlM (fun d x => addLine d x.2 x.1) d = .ok d' ∧
      d'.Represents (cs ++ rs.filterMap id) := by
  induction h generalizing d cs k with
  | nil => exact ⟨d, rfl, by simpa using hd⟩
  | @cons line r ls rs hline _ ih =>
    obtain ⟨d₁, hadd, hd₁⟩ := addLine_of_says hline hd k
    obtain ⟨d₂, hrun, hd₂⟩ := ih hd₁ (k + 1)
    refine ⟨d₂, ?_, ?_⟩
    · rw [List.zipIdx_cons, List.foldlM_cons, hadd]
      exact hrun
    · rw [List.append_assoc] at hd₂
      cases r <;> exact hd₂

/-! ### Texts -/

/-- A text whose lines are in the format is read. -/
theorem read_of_says {text : String} (h : List.Forall₂ Says (Text.lines text.toList) rs) :
    ∃ d, read text = .ok d ∧ d.Represents (rs.filterMap id) :=
  foldlM_addLine_of_says h represents_empty 1

/-- A text is read up to the first line that is not in the format. -/
theorem read_of_faulty {text : String} (h : Text.lines text.toList = before ++ line :: after)
    (hbefore : List.Forall₂ Says before rs) (hline : Faulty (before.length + 1) line e) :
    read text = .error (.format e) := by
  obtain ⟨d, hrun, -⟩ := foldlM_addLine_of_says hbefore represents_empty 1
  unfold read
  rw [h, List.zipIdx_append, List.foldlM_append, hrun, List.zipIdx_cons, Nat.add_comm 1]
  change (d.addLine (before.length + 1) line >>= fun _ => _) = _
  rw [addLine_of_faulty hline]
  rfl

/-- What reading a text comes to. -/
theorem read_cases (text : String) :
    (∃ rs d, List.Forall₂ Says (Text.lines text.toList) rs ∧ read text = .ok d ∧
      d.toCnf = ⟨rs.filterMap id⟩) ∨
    ∃ before line after e, Text.lines text.toList = before ++ line :: after ∧
      (∃ rs, List.Forall₂ Says before rs) ∧ Faulty (before.length + 1) line e ∧
      read text = .error (.format e) := by
  rcases says_or_first_faulty (Text.lines text.toList) 1 with
    ⟨rs, hrs⟩ | ⟨before, line, after, e, hlines, ⟨rs, hrs⟩, hline⟩
  · obtain ⟨d, hread, hd⟩ := read_of_says hrs
    exact .inl ⟨rs, d, hrs, hread, hd.toCnf_eq⟩
  · exact .inr ⟨before, line, after, e, hlines, ⟨rs, hrs⟩, hline, read_of_faulty hlines hrs hline⟩

/-- **Reading a text.** A text is read if each line is in the format, and holds the clauses that
its lines say, in turn. Otherwise the first line that is not in the format is reported. No clause
of a line fails to be added. -/
theorem read_eq_iff (text : String) :
    (∀ cs, (∃ d, read text = .ok d ∧ d.toCnf = ⟨cs⟩) ↔
      ∃ rs, List.Forall₂ Says (Text.lines text.toList) rs ∧ cs = rs.filterMap id) ∧
    (∀ e, read text = .error (.format e) ↔ ∃ before line after,
      Text.lines text.toList = before ++ line :: after ∧ (∀ l ∈ before, ∃ r, Says l r) ∧
        Faulty (before.length + 1) line e) ∧
    ∀ e, read text ≠ .error (.clause e) := by
  refine ⟨fun cs => ⟨?_, ?_⟩, fun e => ⟨?_, ?_⟩, ?_⟩
  · rintro ⟨d, hread, hd⟩
    rcases read_cases text with ⟨rs, d', hrs, hread', hd'⟩ | ⟨_, _, _, e, _, _, _, herror⟩
    · obtain rfl : d = d' := Except.ok.inj (hread.symm.trans hread')
      exact ⟨rs, hrs, congrArg Cnf.clauses (hd.symm.trans hd')⟩
    · cases hread.symm.trans herror
  · rintro ⟨rs, hrs, rfl⟩
    obtain ⟨d, hread, hd⟩ := read_of_says hrs
    exact ⟨d, hread, hd.toCnf_eq⟩
  · intro hread
    rcases read_cases text with ⟨_, d, _, hok, _⟩ | ⟨before, line, after, e', h, hrs, hline, herror⟩
    · cases hok.symm.trans hread
    · obtain rfl : e = e' := ReadError.format.inj (Except.error.inj (hread.symm.trans herror))
      exact ⟨before, line, after, h, exists_says_iff.mp hrs, hline⟩
  · rintro ⟨before, line, after, h, hbefore, hline⟩
    obtain ⟨rs, hrs⟩ := exists_says_iff.mpr hbefore
    exact read_of_faulty h hrs hline
  · intro e hread
    rcases read_cases text with ⟨_, d, _, hok, _⟩ | ⟨_, _, _, e', _, _, _, herror⟩
    · cases hok.symm.trans hread
    · cases herror.symm.trans hread

example : read "c 1\n 1\t-2  0\r\n\n0\n+3 0" = .error (.format (.malformed 5 "+3 0")) := by
  decide +kernel

end Draft
end ProbLogic
