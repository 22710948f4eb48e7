/-
# Reading what was written in DIMACS

The line of a clause is the list of its signed variables and a `0`, if all fit
into 64 bits (`isList_clauseLine`), so it says the clause if none is zero. The
header and comments say nothing. So the text of a CNF is read into a draft with
its clauses, with any comments before it.

Key definitions: `IsComment`, `clauseLine`.
Key theorems: `isList_clauseLine`, `says_clauseLine`, `Draft.read_comments_text`,
`read_text_performAll`.
-/
import ProbLogic.Proofs.Cnf.Reader

namespace ProbLogic
namespace Dimacs

/-! ### Integers -/

/-- The text of a number has its digits, after a sign if it is negative. -/
theorem toList_toString_cases (v : Int) :
    (0 ≤ v ∧ (toString v).toList = Nat.toDigits 10 v.toNat) ∨
      (v < 0 ∧ (toString v).toList = '-' :: Nat.toDigits 10 (-v).toNat) := by
  rw [Int.toString_eq_repr, Int.repr_eq_if]
  by_cases hv : 0 ≤ v
  · rw [if_pos hv, Nat.toList_repr]
    exact .inl ⟨hv, rfl⟩
  · rw [if_neg hv, String.toList_append, Nat.toList_repr]
    exact .inr ⟨by omega, rfl⟩

/-- A number that fits is denoted by its text. -/
theorem denotes_toString {v : Int} (hv : fits64 v = true) : Denotes (toString v).toList v := by
  rcases toList_toString_cases v with ⟨hsign, h⟩ | ⟨hsign, h⟩
  · have hvalue : (Text.digitsValue (Nat.toDigits 10 v.toNat) : Int) = v := by
      rw [Text.digitsValue_toDigits]
      omega
    have hdenotes : Denotes (Nat.toDigits 10 v.toNat)
        (Text.digitsValue (Nat.toDigits 10 v.toNat)) :=
      .natural Nat.toDigits_ne_nil (Text.isDigit_toDigits _) (by rwa [hvalue])
    rwa [hvalue, ← h] at hdenotes
  · have hvalue : -(Text.digitsValue (Nat.toDigits 10 (-v).toNat) : Int) = v := by
      rw [Text.digitsValue_toDigits]
      omega
    have hdenotes : Denotes ('-' :: Nat.toDigits 10 (-v).toNat)
        (-(Text.digitsValue (Nat.toDigits 10 (-v).toNat) : Int)) :=
      .negative Nat.toDigits_ne_nil (Text.isDigit_toDigits _) (by rwa [hvalue])
    rwa [hvalue, ← h] at hdenotes

/-! ### Lines -/

/-- A clause in the format, without the line feed. -/
def clauseLine (c : Clause) : List Char :=
  (c.map fun v => (toString v).toList).flatMap (· ++ [' ']) ++ ['0']

theorem toList_clauseText (c : Clause) : (Cnf.clauseText c).toList = clauseLine c ++ ['\n'] := by
  simp [Cnf.clauseText, clauseLine, String.toList_join, List.flatMap_map]

theorem clauseLine_cons (v : Int) (c : Clause) :
    clauseLine (v :: c) = (toString v).toList ++ [' '] ++ clauseLine c := by
  simp [clauseLine]

/-- The line of a clause is the list of its signed variables and a `0`. -/
theorem isList_clauseLine {c : Clause} (hc : ∀ v ∈ c, fits64 v = true) :
    IsList (clauseLine c) (c ++ [0]) := by
  induction c with
  | nil =>
    have hdigit : ∀ d ∈ ['0'], d.isDigit = true := by simp
    exact .singleton (.natural (List.cons_ne_nil _ _) hdigit rfl)
  | cons v c ih =>
    rw [clauseLine_cons]
    exact .cons (denotes_toString (hc v List.mem_cons_self)) (List.cons_ne_nil _ _) (by simp)
      (ih fun u hu => hc u (List.mem_cons_of_mem _ hu))

theorem IsList.newline_notMem {cs : List Char} {vs : List Int} (h : IsList cs vs) : '\n' ∉ cs := by
  have hword : ∀ {w v}, Denotes w v → '\n' ∉ w := by
    intro w v hw hmem
    simpa using hw.chars _ hmem
  induction h with
  | singleton hw => exact hword hw
  | cons hw _ hgap _ ih =>
    intro hmem
    rcases List.mem_append.mp hmem with hmem | hmem
    · rcases List.mem_append.mp hmem with hmem | hmem
      · exact hword hw hmem
      · simpa using hgap _ hmem
    · exact ih hmem

theorem trim_clauseLine {c : Clause} (hc : ∀ v ∈ c, fits64 v = true) :
    Text.trim (clauseLine c) = clauseLine c := by
  apply Text.trim_eq_self
  · intro d hd
    rcases (isList_clauseLine hc).head_cases hd with rfl | hdigit
    · decide
    · exact Text.isBlank_of_isDigit hdigit
  · intro d hd
    rw [clauseLine, List.getLast?_concat] at hd
    cases hd
    decide

/-- **The line of a clause says the clause.** -/
theorem says_clauseLine {c : Clause} (hc : ∀ v ∈ c, v ≠ 0 ∧ fits64 v = true) :
    Says (clauseLine c) (some c) := by
  have hfits : ∀ v ∈ c, fits64 v = true := fun v hv => (hc v hv).2
  have hlist := isList_clauseLine hfits
  rw [← trim_clauseLine hfits] at hlist
  exact .clause hlist fun hzero => (hc 0 hzero).1 rfl

end Dimacs

/-! ### Texts -/

/-- A line that is skipped. -/
def Dimacs.IsComment (l : String) : Prop :=
  (l.toList.head? = some 'c' ∨ l.toList.head? = some 'p') ∧ '\n' ∉ l.toList

instance (l : String) : Decidable (Dimacs.IsComment l) :=
  inferInstanceAs (Decidable ((_ ∨ _) ∧ _))

theorem Dimacs.IsComment.isSkipped {l : String} (h : IsComment l) : IsSkipped l.toList := by
  rcases h.1 with hc | hp
  · exact .inr (.inr (Text.head?_trim hc (by decide)))
  · exact .inr (.inl (Text.head?_trim hp (by decide)))

namespace Cnf

open Dimacs

/-- The header, without the line feed. -/
def header (f : Cnf) : String := s!"p cnf {f.vars.length} {f.clauses.length}"

theorem header_eq (f : Cnf) : f.header =
    "p cnf " ++ Nat.repr f.vars.length ++ " " ++ Nat.repr f.clauses.length := rfl

theorem isComment_header (f : Cnf) : IsComment f.header := by
  have hdigits : ∀ n, '\n' ∉ Nat.toDigits 10 n := by
    intro n h
    have hdigit := Text.isDigit_toDigits n _ h
    simp at hdigit
  rw [IsComment, header_eq]
  exact ⟨.inr (by simp), by simp [hdigits]⟩

theorem toList_text (f : Cnf) :
    f.text.toList = (f.header.toList :: f.clauses.map clauseLine).flatMap (· ++ ['\n']) := by
  have hclauses : (String.join (f.clauses.map clauseText)).toList =
      (f.clauses.map clauseLine).flatMap (· ++ ['\n']) := by
    rw [String.toList_join, List.flatMap_map, List.flatMap_map]
    exact congrArg (f.clauses.flatMap ·) (funext toList_clauseText)
  have htext : f.text = f.header ++ "\n" ++ String.join (f.clauses.map clauseText) := rfl
  rw [htext, String.toList_append, String.toList_append, hclauses, List.flatMap_cons]
  rfl

/-- The lines of a CNF after comments. Nothing follows the last line feed. -/
theorem lines_comments_text {f : Cnf} (hf : ∀ c ∈ f.clauses, ∀ v ∈ c, fits64 v = true)
    {comments : List String} (hcomments : ∀ l ∈ comments, IsComment l) :
    Text.lines (String.join (comments.map (· ++ "\n")) ++ f.text).toList =
      (comments.map String.toList ++ f.header.toList :: f.clauses.map clauseLine) ++ [[]] := by
  have htext : (String.join (comments.map (· ++ "\n")) ++ f.text).toList =
      (comments.map String.toList ++ f.header.toList :: f.clauses.map clauseLine).flatMap
        (· ++ ['\n']) ++ [] := by
    rw [String.toList_append, String.toList_join, toList_text, List.flatMap_append,
      List.flatMap_map, List.flatMap_map, List.append_nil]
    simp
  rw [htext, Text.lines_flatMap]
  · rfl
  · intro l hl
    rcases List.mem_append.mp hl with hl | hl
    · obtain ⟨comment, hmem, rfl⟩ := List.mem_map.mp hl
      exact (hcomments comment hmem).2
    rcases List.mem_cons.mp hl with rfl | hl
    · exact f.isComment_header.2
    · obtain ⟨c, hc, rfl⟩ := List.mem_map.mp hl
      exact (isList_clauseLine (hf c hc)).newline_notMem

end Cnf

namespace Draft

open Dimacs

/-- **Written clauses are read back**, after any comments. -/
theorem read_comments_text {f : Cnf}
    (hf : ∀ c ∈ f.clauses, ∀ v ∈ c, v ≠ 0 ∧ fits64 v = true)
    {comments : List String} (hcomments : ∀ l ∈ comments, IsComment l) :
    ∃ d, read (String.join (comments.map (· ++ "\n")) ++ f.text) = .ok d ∧
      d.Represents f.clauses := by
  have hsays : List.Forall₂ Says
      (Text.lines (String.join (comments.map (· ++ "\n")) ++ f.text).toList)
      ((comments.map fun _ => none) ++ none :: f.clauses.map some ++ [none]) := by
    rw [Cnf.lines_comments_text (fun c hc v hv => (hf c hc v hv).2) hcomments]
    refine List.rel_append
      (List.rel_append ?_ (.cons (.nothing f.isComment_header.isSkipped) ?_))
      (.cons (.nothing (.inl rfl)) .nil)
    · rw [List.forall₂_map_left_iff, List.forall₂_map_right_iff, List.forall₂_same]
      exact fun l hl => .nothing (hcomments l hl).isSkipped
    · rw [List.forall₂_map_left_iff, List.forall₂_map_right_iff, List.forall₂_same]
      exact fun c hc => says_clauseLine (hf c hc)
  obtain ⟨d, hread, hd⟩ := read_of_says hsays
  refine ⟨d, hread, ?_⟩
  simpa [List.filterMap_append, List.filterMap_map] using hd

end Draft

/-- **The format loses nothing.** Let clauses be added to a draft by any calls, with numbers of
64 bits. The text of the draft, after any comments, is read into a draft with the same clauses,
in the same order, the same variables and the same values. -/
theorem read_text_performAll (calls : List Draft.Call)
    (hcalls : ∀ call ∈ calls, ∀ v ∈ call.vars, Dimacs.fits64 v = true)
    (comments : List String) (hcomments : ∀ l ∈ comments, Dimacs.IsComment l) :
    let d := Draft.performAll calls
    ∃ reread, Draft.read (String.join (comments.map (· ++ "\n")) ++ d.toCnf.text) = .ok reread ∧
      reread.toCnf = d.toCnf ∧
      reread.formula.vars Draft.root = d.formula.vars Draft.root ∧
      ∀ t, reread.eval t = d.eval t := by
  intro d
  obtain ⟨cs, h⟩ := Draft.exists_represents_performAll calls
  have hleaves : d.LeavesIn fun v => v ≠ 0 ∧ Dimacs.fits64 v = true :=
    Draft.leavesIn_performAll fun call hcall v hv hne => ⟨hne, hcalls call hcall v hv⟩
  have hcnf : d.toCnf = ⟨cs⟩ := h.toCnf_eq
  have hclauses : ∀ c ∈ d.toCnf.clauses, ∀ v ∈ c, v ≠ 0 ∧ Dimacs.fits64 v = true := by
    rw [hcnf]
    exact h.forall_mem hleaves
  obtain ⟨reread, hread, hreread⟩ := Draft.read_comments_text hclauses hcomments
  rw [hcnf] at hreread
  refine ⟨reread, hread, ?_, ?_, fun t => ?_⟩
  · rw [hreread.toCnf_eq, hcnf]
  · rw [hreread.vars_eq, h.vars_eq]
  · rw [hreread.draftEval_eq, h.draftEval_eq]

/-- The least and the greatest number, a clause that was named before its parts, the empty clause,
and three calls that fail. -/
def extremeCalls : List Draft.Call :=
  [.leaf 7, .disjunction [1, 5], .addClause [-9223372036854775808, 9223372036854775807, 7], .add 2,
    .addClause [], .addClause [2, 0], .add 99, .add 0]

theorem read_text_extremeCalls :
    let d := Draft.performAll extremeCalls
    d.toCnf = ⟨[[-9223372036854775808, 9223372036854775807, 7], [7, 7], []]⟩ ∧
      ∃ reread, Draft.read (String.join (["c query -7", "p"].map (· ++ "\n")) ++ d.toCnf.text) =
          .ok reread ∧
        reread.toCnf = d.toCnf ∧ reread.formula.vars Draft.root = d.formula.vars Draft.root ∧
        ∀ t, reread.eval t = d.eval t :=
  ⟨by decide, read_text_performAll extremeCalls (by decide) ["c query -7", "p"] (by decide)⟩

end ProbLogic
