/-
# A table of weights that was read is written as a text that reads the same

A table is written in lines (`Weights.Line`), each with a key, its weight and
possibly the weight of the opposite key. What a line is written as can be read
back, if its key and numbers can (`addLine_chars`): none of its fields has a
blank, and the numbers are all the fields but the first, whatever the key looks
like.

A negative key with an opposite stands on the opposite's line, so the entries
of the lines are in another order than those of the table, but they are the
same (`mem_entries_linesOf`). A map in ascending order is put together from its
entries in any order (`foldl_put_eq`).

In a table that was read, every key has a name that was read and every weight is
finite and not below zero (`Weights.Legible`); one line keeps this
(`Legible.addLine`), and so does a whole text.

Key definitions: `Weights.Line`, `Weights.linesOf`, `Weights.Legible`.
Key theorems: `addLine_chars`, `mem_entries_linesOf`, `legible_of_read`, `read_text_of_read`.
-/
import Mathlib.Data.List.TakeWhile
import ProbLogic.Proofs.Decimal.Reader
import ProbLogic.Proofs.RuleBase
import ProbLogic.Proofs.Statement
import ProbLogic.Weights.Text

namespace ProbLogic

open Text Token

/-! ### Lines -/

namespace Weights

variable {κ α : Type} [Signed κ] [Numeral α]

/-- A line of a text: a key, its weight, and the weight of its opposite if that stands on it. -/
structure Line (κ α : Type) where
  key : κ
  weight : α
  opposite? : Option α

namespace Line

/-- The numbers of a line. -/
def numbers (l : Line κ α) : List α := l.weight :: l.opposite?.toList

/-- The fields of a line. -/
def fields (l : Line κ α) : List (List Char) :=
  (Signed.text l.key).toList :: l.numbers.map fun x => (Numeral.text x).toList

/-- The characters of a line. -/
def chars (l : Line κ α) : List Char := [' '].intercalate l.fields

/-- The entries that a line sets, in this order. -/
def entries (l : Line κ α) : List (κ × α) :=
  l.opposite?.toList.map (fun y => (Signed.opposite l.key, y)) ++ [(l.key, l.weight)]

/-- What a line needs to be read back. -/
structure Legible [KeyText κ] (l : Line κ α) : Prop where
  fields : ∀ f ∈ l.fields, IsField f
  key : KeyText.read? (Signed.text l.key).toList = some l.key
  numbers : ∀ x ∈ l.numbers, readWeight? (Numeral.text x).toList = some x

end Line

/-- The line of an entry; a negative key whose opposite has a weight has none. -/
def line? (w : Weights κ α) (k : κ) (x : α) : Option (Line κ α) :=
  if !Signed.isPositive k && (w.get? (Signed.opposite k)).isSome then none
  else some ⟨k, x, w.get? (Signed.opposite k)⟩

/-- The lines of a table. -/
def linesOf (w : Weights κ α) : List (Line κ α) := w.entries.filterMap fun e => w.line? e.1 e.2

theorem toList_lineText (w : Weights κ α) (k : κ) (x : α) :
    (w.lineText k x).toList = (w.line? k x).toList.flatMap fun l => l.chars ++ ['\n'] := by
  unfold lineText line?
  cases Signed.isPositive k with
  | true =>
    cases w.get? (Signed.opposite k) with
    | none => simp [Line.chars, Line.fields, Line.numbers, List.intercalate_cons_cons]
    | some y => simp [Line.chars, Line.fields, Line.numbers, List.intercalate_cons_cons]
  | false =>
    cases w.get? (Signed.opposite k) with
    | none => simp [Line.chars, Line.fields, Line.numbers, List.intercalate_cons_cons]
    | some y => simp

/-- A table is written in its lines. -/
theorem toList_text (w : Weights κ α) :
    w.text.toList = w.linesOf.flatMap fun l => l.chars ++ ['\n'] := by
  have hlines : ∀ es : List (κ × α), es.flatMap (fun e => (w.lineText e.1 e.2).toList) =
      (es.filterMap fun e => w.line? e.1 e.2).flatMap fun l => l.chars ++ ['\n'] := by
    intro es
    induction es with
    | nil => rfl
    | cons e es ih =>
      rw [List.flatMap_cons, ih, toList_lineText]
      cases hl : w.line? e.1 e.2 with
      | none => simp [hl]
      | some l => simp [hl]
  rw [text, String.toList_join, List.flatMap_map, hlines]
  rfl

/-! ### Lines are read back -/

variable [KeyText κ]

theorem mapM_readWeight? {xs : List α}
    (h : ∀ x ∈ xs, readWeight? (Numeral.text x).toList = some x) :
    (xs.map fun x => (Numeral.text x).toList).mapM (readWeight? (α := α)) = some xs := by
  induction xs with
  | nil => rfl
  | cons x xs ih =>
    have hrest := ih fun y hy => h y (List.mem_cons_of_mem _ hy)
    rw [List.map_cons, List.mapM_cons, h x List.mem_cons_self, hrest]
    rfl

/-- The numbers of a line are all its fields but the first. -/
theorem countNumbers_fields {l : Line κ α} (h : l.Legible) :
    countNumbers α l.fields = l.numbers.length := by
  have hlength : l.numbers.length ≤ 2 := by
    cases l.opposite? with
    | none => simp [Line.numbers]
    | some y => simp [Line.numbers]
  have hread : ∀ f ∈ (l.numbers.map fun x => (Numeral.text x).toList).reverse,
      (Numeral.read? (α := α) f).isSome = true := by
    intro f hf
    obtain ⟨x, hx, rfl⟩ := List.mem_map.mp (List.mem_reverse.mp hf)
    rw [(Option.filter_eq_some_iff.mp (h.numbers x hx)).1]
    rfl
  unfold countNumbers Line.fields
  rw [List.drop_one, List.tail_cons, List.take_of_length_le (by simpa using hlength),
    List.takeWhile_eq_self_iff.mpr hread]
  simp

theorem readFields?_fields {l : Line κ α} (h : l.Legible) :
    readFields? l.fields = some (l.key, l.numbers) := by
  have hsplit : l.fields.length - countNumbers α l.fields = 1 := by
    rw [countNumbers_fields h]
    simp [Line.fields]
  unfold readFields?
  rw [hsplit]
  unfold Line.fields
  dsimp only
  rw [List.take_succ_cons, List.take_zero, List.intercalate_singleton, h.key, List.drop_succ_cons,
    List.drop_zero]
  dsimp only [Bind.bind, Option.bind]
  rw [mapM_readWeight? h.numbers]
  rfl

/-- **A line that was written is read back**: it sets its entries. -/
theorem addLine_chars {l : Line κ α} (h : l.Legible) (w : Weights κ α) (n : Nat) :
    w.addLine n l.chars = .ok (w.insertAll l.entries) := by
  have htrim : trim l.chars = l.chars := trim_intercalate h.fields
  have hwords : Text.words l.chars = l.fields := words_intercalate h.fields
  have hne : ¬ l.chars.isEmpty = true := by
    obtain ⟨⟨c, hc, -⟩, -⟩ := exists_ends_intercalate h.fields
    intro hempty
    have hhead : l.chars.head? = some c := hc
    rw [List.isEmpty_iff.mp hempty] at hhead
    cases hhead
  unfold addLine
  dsimp only
  rw [htrim, if_neg hne, hwords, readFields?_fields h]
  obtain ⟨k, x, y?⟩ := l
  cases y? with
  | none => rfl
  | some y => rfl

/-- Written lines set their entries one after the other. The number of a line only matters
where it cannot be read. -/
theorem foldlM_addLine {ls : List (Line κ α)} (hls : ∀ l ∈ ls, l.Legible) (w : Weights κ α)
    (n : Nat) :
    ((ls.map Line.chars ++ [[]]).zipIdx n).foldlM
        (fun (w : Weights κ α) (x : List Char × Nat) => w.addLine x.2 x.1) w =
      .ok (w.insertAll (ls.flatMap Line.entries)) := by
  induction ls generalizing w n with
  | nil => rfl
  | cons l ls ih =>
    have hrest := ih fun l hl => hls l (List.mem_cons_of_mem _ hl)
    rw [List.map_cons, List.cons_append, List.zipIdx_cons, List.foldlM_cons,
      addLine_chars (hls l List.mem_cons_self), List.flatMap_cons, insertAll_append]
    exact hrest (w.insertAll l.entries) (n + 1)

/-- A table whose lines are legible is read back as its lines' entries. -/
theorem read_text_of_legible {w : Weights κ α} (h : ∀ l ∈ w.linesOf, l.Legible) :
    read w.text = .ok (empty.insertAll (w.linesOf.flatMap Line.entries)) := by
  have hnewline : ∀ cs ∈ w.linesOf.map Line.chars, '\n' ∉ cs := by
    intro cs hcs
    obtain ⟨l, hl, rfl⟩ := List.mem_map.mp hcs
    exact newline_notMem_intercalate (h l hl).fields
  have hlines : Text.lines w.text.toList = w.linesOf.map Line.chars ++ [[]] := by
    have hcut := lines_flatMap (w.linesOf.map Line.chars) hnewline []
    rw [List.flatMap_map, List.append_nil] at hcut
    rw [toList_text]
    exact hcut
  rw [read, hlines]
  exact foldlM_addLine h empty 1

end Weights

/-! ### The entries of a table's lines -/

namespace Weights

variable {α : Type} {w : Weights Literal α} {k : Literal} {x : α}

theorem mem_entries_of_get? (hplain : ∀ e ∈ w.entries, e.1.atom.Plain) (hk : k.atom.Plain)
    (h : w.get? k = some x) : (k, x) ∈ w.entries := by
  obtain ⟨e, he, hkey, rfl⟩ := Ascending.exists_mem_of_get? h
  rwa [Literal.eq_of_compare (fun _ => hk) (fun _ => hplain e he) hkey]

theorem line?_eq_some {l : Line Literal α} (h : w.line? k x = some l) :
    l = ⟨k, x, w.get? k.negate⟩ := by
  unfold line? at h
  split at h
  · cases h
  · exact (Option.some.inj h).symm

/-- Where a key has no line of its own, its opposite has one. -/
theorem line?_eq_none (h : w.line? k x = none) :
    k.positive = false ∧ ∃ y, w.get? k.negate = some y := by
  unfold line? at h
  split at h
  · next hc =>
    obtain ⟨hneg, hsome⟩ := Bool.and_eq_true_iff.mp hc
    have hneg : (!k.positive) = true := hneg
    exact ⟨by simpa using hneg, Option.isSome_iff_exists.mp hsome⟩
  · cases h

/-- **The lines of a table have its entries.** -/
theorem mem_entries_linesOf (hw : Ascending.IsAscending (w.entries.map Prod.fst))
    (hplain : ∀ e ∈ w.entries, e.1.atom.Plain) (e : Literal × α) :
    e ∈ w.linesOf.flatMap Line.entries ↔ e ∈ w.entries := by
  constructor
  · intro h
    obtain ⟨l, hl, he⟩ := List.mem_flatMap.mp h
    obtain ⟨d, hd, hline⟩ := List.mem_filterMap.mp hl
    rw [line?_eq_some hline] at he
    rcases List.mem_append.mp he with he | he
    · obtain ⟨y, hy, rfl⟩ := List.mem_map.mp he
      exact mem_entries_of_get? hplain (hplain d hd) (Option.mem_toList.mp hy)
    · rwa [List.mem_singleton.mp he]
  · intro he
    refine List.mem_flatMap.mpr ?_
    cases hline : w.line? e.1 e.2 with
    | some l =>
      refine ⟨l, List.mem_filterMap.mpr ⟨e, he, hline⟩, ?_⟩
      rw [line?_eq_some hline]
      exact List.mem_append_right _ List.mem_cons_self
    | none =>
      -- the entry is the second one on the line of its opposite
      obtain ⟨hneg, y, hy⟩ := line?_eq_none hline
      have hopposite := mem_entries_of_get? (k := e.1.negate) hplain (hplain e he) hy
      have hself : w.get? e.1.negate.negate = some e.2 := by
        rw [Literal.negate_negate]
        exact Ascending.get?_of_mem hw he
      have hline' : w.line? e.1.negate y = some ⟨e.1.negate, y, some e.2⟩ := by
        rw [← hself]
        exact if_neg (by simp [Signed.isPositive, Literal.negate, hneg])
      refine ⟨_, List.mem_filterMap.mpr ⟨_, hopposite, hline'⟩, ?_⟩
      have hback : e = (Signed.opposite e.1.negate, e.2) :=
        Prod.ext (Literal.negate_negate e.1).symm rfl
      exact List.mem_append_left _ (List.mem_singleton.mpr hback)

end Weights

/-! ### Tables that were read -/

theorem Atom.plain_of_isName {a : Atom} (h : IsName a.name.toList) : a.Plain := by
  obtain ⟨word, group, hname, hparts⟩ := h
  have hstart := hparts.start
  intro hdash
  rw [hname] at hdash
  cases word with
  | nil => cases hstart
  | cons c word =>
    obtain rfl : c = '-' := Option.some.inj hdash
    cases hstart

theorem isField_text {l : Literal} (h : IsName l.atom.name.toList) : IsField l.text.toList := by
  obtain ⟨hne, hblank⟩ := h.isField
  unfold Literal.text
  cases l.positive with
  | true => exact ⟨hne, hblank⟩
  | false =>
    rw [if_neg Bool.false_ne_true, String.toList_append]
    refine ⟨List.cons_ne_nil _ _, fun c hc => ?_⟩
    rcases List.mem_cons.mp hc with rfl | hc
    · decide
    · exact hblank c hc

/-- A key that was read has a name that was read. -/
theorem isName_of_read? {cs : List Char} {l : Literal} (h : KeyText.read? cs = some l) :
    IsName l.atom.name.toList :=
  isName_of_parse (toOption_parse_eq_some.mp h)

theorem read?_text {l : Literal} (h : IsName l.atom.name.toList) :
    KeyText.read? l.text.toList = some l := by
  show (Literal.parse (String.ofList l.text.toList)).toOption = some l
  rw [String.ofList_toList, parse_text h]
  rfl

namespace Weights

variable {w w' : Weights Literal Float}

theorem isField_numeral {x : Float} (hx : Numeral.isWeight x = true) :
    IsField (Numeral.text x).toList := by
  obtain ⟨hfinite, hzero⟩ := Bool.and_eq_true_iff.mp hx
  refine ⟨fun hnil => ?_, not_isBlank_floatText hfinite (of_decide_eq_true hzero)⟩
  have hread := readFloat?_floatText hfinite (of_decide_eq_true hzero)
  have hnil : (Decimal.floatText x).toList = [] := hnil
  rw [hnil] at hread
  cases hread

theorem readWeight?_text {x : Float} (hx : Numeral.isWeight x = true) :
    readWeight? (Numeral.text x).toList = some x := by
  obtain ⟨hfinite, hzero⟩ := Bool.and_eq_true_iff.mp hx
  exact Option.filter_eq_some_iff.mpr ⟨readFloat?_floatText hfinite (of_decide_eq_true hzero), hx⟩

/-- What a table is kept to while it is read: keys in ascending order, with names that were
read, and weights that are finite and not below zero. -/
structure Legible (w : Weights Literal Float) : Prop where
  ascending : Ascending.IsAscending (w.entries.map Prod.fst)
  names : ∀ k ∈ w.entries.map Prod.fst, IsName k.atom.name.toList
  weights : ∀ e ∈ w.entries, Numeral.isWeight e.2 = true

theorem Legible.line (hw : w.Legible) {l : Line Literal Float} (hl : l ∈ w.linesOf) :
    l.Legible := by
  obtain ⟨e, he, hline⟩ := List.mem_filterMap.mp hl
  have hname := hw.names e.1 (List.mem_map_of_mem he)
  have hnumbers : ∀ x ∈ l.numbers, Numeral.isWeight x = true := by
    rw [line?_eq_some hline]
    intro x hx
    rcases List.mem_cons.mp hx with rfl | hx
    · exact hw.weights e he
    · obtain ⟨d, hd, -, rfl⟩ := Ascending.exists_mem_of_get? (Option.mem_toList.mp hx)
      exact hw.weights d hd
  have hkey : l.key = e.1 := by rw [line?_eq_some hline]
  refine ⟨fun f hf => ?_, ?_, fun x hx => readWeight?_text (hnumbers x hx)⟩
  · rcases List.mem_cons.mp hf with rfl | hf
    · rw [hkey]
      exact isField_text hname
    · obtain ⟨x, hx, rfl⟩ := List.mem_map.mp hf
      exact isField_numeral (hnumbers x hx)
  · rw [hkey]
    exact read?_text hname

theorem Legible.insert (hw : w.Legible) {k : Literal} {x : Float}
    (hk : IsName k.atom.name.toList) (hx : Numeral.isWeight x = true) : (w.insert k x).Legible where
  ascending := by
    rw [Weights.insert, Ascending.map_fst_put]
    exact Ascending.isAscending_insert hw.ascending
  names j hj := by
    rw [Weights.insert, Ascending.map_fst_put] at hj
    rcases Ascending.eq_or_mem_of_mem_insert hj with rfl | hj
    · exact hk
    · exact hw.names j hj
  weights e he := by
    rcases Ascending.mem_of_mem_put he with ⟨-, rfl⟩ | he
    · exact hx
    · exact hw.weights e he

theorem exists_of_mem_mapM {β γ : Type} {f : β → Option γ} {bs : List β} {cs : List γ}
    (h : bs.mapM f = some cs) : ∀ c ∈ cs, ∃ b, f b = some c := by
  induction bs generalizing cs with
  | nil =>
    obtain rfl : [] = cs := Option.some.inj h
    simp
  | cons b bs ih =>
    rw [List.mapM_cons] at h
    obtain ⟨c, hc, h⟩ := Option.bind_eq_some_iff.mp h
    obtain ⟨ds, hds, h⟩ := Option.bind_eq_some_iff.mp h
    obtain rfl : c :: ds = cs := Option.some.inj h
    intro d hd
    rcases List.mem_cons.mp hd with rfl | hd
    · exact ⟨b, hc⟩
    · exact ih hds d hd

/-- What the fields of a line are read as has a name that was read, and weights. -/
theorem readFields?_eq_some {fields : List (List Char)} {k : Literal} {xs : List Float}
    (h : readFields? fields = some (k, xs)) :
    IsName k.atom.name.toList ∧ ∀ x ∈ xs, Numeral.isWeight x = true := by
  obtain ⟨key, hkey, h⟩ := Option.bind_eq_some_iff.mp h
  obtain ⟨numbers, hnumbers, h⟩ := Option.bind_eq_some_iff.mp h
  obtain ⟨rfl, rfl⟩ := Prod.mk.inj (Option.some.inj h)
  refine ⟨isName_of_read? hkey, fun x hx => ?_⟩
  obtain ⟨f, hf⟩ := exists_of_mem_mapM hnumbers x hx
  exact (Option.filter_eq_some_iff.mp hf).2

/-- One line keeps a table legible. -/
theorem Legible.addLine (hw : w.Legible) {n : Nat} {line : List Char}
    (h : w.addLine n line = .ok w') : w'.Legible := by
  unfold Weights.addLine at h
  dsimp only at h
  by_cases hempty : (trim line).isEmpty = true
  · rw [if_pos hempty] at h
    rwa [← Except.ok.inj h]
  rw [if_neg hempty] at h
  cases hfields : readFields? (κ := Literal) (α := Float) (Text.words (trim line)) with
  | none =>
    rw [hfields] at h
    cases h
  | some r =>
    obtain ⟨k, xs⟩ := r
    obtain ⟨hk, hxs⟩ := readFields?_eq_some hfields
    rw [hfields] at h
    rcases xs with - | ⟨x, - | ⟨y, - | ⟨z, xs⟩⟩⟩
    · cases h
    · rw [← Except.ok.inj h]
      exact hw.insert hk (hxs x (by simp))
    · rw [← Except.ok.inj h]
      exact (hw.insert (k := k.negate) hk (hxs y (by simp))).insert hk (hxs x (by simp))
    · cases h

theorem Legible.foldlM (hw : w.Legible) {ls : List (List Char × Nat)}
    (h : ls.foldlM (fun (w : Weights Literal Float) x => w.addLine x.2 x.1) w = .ok w') :
    w'.Legible := by
  induction ls generalizing w with
  | nil => rwa [← Except.ok.inj h]
  | cons l ls ih =>
    rw [List.foldlM_cons] at h
    cases hl : w.addLine l.2 l.1 with
    | error e =>
      rw [hl] at h
      cases h
    | ok w₁ =>
      rw [hl] at h
      exact ih (hw.addLine hl) h

/-- A table that was read is legible. -/
theorem legible_of_read {text : String} (h : read text = .ok w) : w.Legible := by
  have hempty : (empty : Weights Literal Float).Legible := ⟨.nil, by simp [empty], by simp [empty]⟩
  exact hempty.foldlM h

/-- **A table of weights that was read is written as a text that reads the same.** -/
theorem read_text_of_read {text : String} (h : read text = .ok w) : read w.text = .ok w := by
  have hw := legible_of_read h
  have hplain : ∀ e ∈ w.entries, e.1.atom.Plain := fun e he =>
    Atom.plain_of_isName (hw.names e.1 (List.mem_map_of_mem he))
  rw [read_text_of_legible fun l hl => hw.line hl,
    insertAll_eq hw.ascending (mem_entries_linesOf hw.ascending hplain)]

/-- Names that look like numbers, blanks in arguments, negation in several notations, pairs under
a negative key, a key that is set twice, and a zero with a sign. -/
def mixedText : String :=
  "inf 0.30 7e-1\n\n  -nan 1\nb(x, [y ]) 2.50\n\\+ c .25 0.75\nd 1\nnot (-d) 3 -0.0\n"

/-- What `mixedText` is written as. -/
def sortedText : String := "-nan 1\nb(x,[y]) 2.5\nc 0.75 0.25\nd 3 -0\ninf 0.3 0.7\n"

theorem read_text_of_read_mixedText :
    ∃ w : Weights Literal Float, read mixedText = .ok w ∧ w.text = sortedText ∧
      read sortedText = .ok w := by
  have hread : (read mixedText : Except WeightError (Weights Literal Float)).toOption.any
      (fun w => w.text == sortedText) = true := by
    decide +kernel
  cases h : (read mixedText : Except WeightError (Weights Literal Float)) with
  | error e =>
    rw [h] at hread
    cases hread
  | ok w =>
    rw [h] at hread
    have htext : w.text = sortedText := by simpa [Except.toOption] using hread
    refine ⟨w, rfl, htext, ?_⟩
    rw [← htext]
    exact read_text_of_read h

end Weights
end ProbLogic
