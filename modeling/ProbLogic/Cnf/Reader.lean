/-
# Reading DIMACS into a draft

A text is read line by line, and the clause of a line is added to a draft as
soon as it has been read. Blank lines and lines that start with `p` or `c` are
skipped, so the header is not checked. Every other line is a clause.

A line is scanned from left to right. An integer is an optional `-` with all
digits that follow it, and must fit into 64 bits. Scanning stops at the first
place where no integer follows; the spaces and tabs before that place are given
back. The line is a list of integers if nothing but spaces and tabs is left.

Making the nodes of a clause can fail, so reading can fail for that reason too.

Key definitions:
* `Dimacs.scanInteger?`, `Dimacs.scanIntegers`, `Dimacs.scanLine?`
* `ReadError`
* `Draft.addLine`, `Draft.read`

Key theorems:
* `Dimacs.length_scanInteger?_lt` : no integer is empty, so scanning ends.
-/
import ProbLogic.Cnf.Dimacs
import ProbLogic.Cnf.Draft

namespace ProbLogic

/-- Why a text cannot be read into a draft. -/
inductive ReadError where
  /-- The text is not in the format. -/
  | format (e : DimacsError)
  /-- A clause cannot be added. -/
  | clause (e : FormulaError)
  deriving DecidableEq, Repr

/-- The words of an error. -/
def ReadError.message : ReadError → String
  | format e => e.message
  | clause e => e.message

namespace Dimacs

/-! ### Integers in a line -/

/-- A space or a tab. -/
def isGap (c : Char) : Bool := c == ' ' || c == '\t'

/-- An optional `-` at the start of a text with all digits that follow. -/
def numeral : List Char → List Char
  | '-' :: cs => '-' :: cs.takeWhile Char.isDigit
  | cs => cs.takeWhile Char.isDigit

/-- The integer that a text starts with, and the text after it. -/
def scanInteger? (cs : List Char) : Option (Int × List Char) :=
  (readInteger? (numeral cs)).map fun v => (v, cs.drop (numeral cs).length)

theorem readInteger?_nil : readInteger? [] = none := rfl

/-- No integer is empty. -/
theorem length_scanInteger?_lt {cs rest : List Char} {v : Int}
    (h : scanInteger? cs = some (v, rest)) : rest.length < cs.length := by
  obtain ⟨u, hread, heq⟩ := Option.map_eq_some_iff.mp h
  obtain ⟨-, rfl⟩ := Prod.mk.inj heq
  have hne : numeral cs ≠ [] := fun hnil => by
    rw [hnil, readInteger?_nil] at hread
    cases hread
  have hpos : 0 < (numeral cs).length := List.length_pos_iff.mpr hne
  cases cs with
  | nil => exact absurd rfl hne
  | cons c cs =>
    rw [List.length_drop, List.length_cons]
    omega

/-- The integers that follow a gap each, and the rest. A gap that no integer follows belongs to
the rest. -/
def scanMore (cs : List Char) : List Int × List Char :=
  if cs.head?.any isGap then
    match _h : scanInteger? (cs.dropWhile isGap) with
    | none => ([], cs)
    | some (v, rest) =>
      let (vs, final) := scanMore rest
      (v :: vs, final)
  else ([], cs)
termination_by cs.length
decreasing_by
  exact Nat.lt_of_lt_of_le (length_scanInteger?_lt _h) (List.dropWhile_suffix isGap).length_le

/-- The integers that a text starts with, and the rest. -/
def scanIntegers (cs : List Char) : List Int × List Char :=
  match scanInteger? cs with
  | none => ([], cs)
  | some (v, rest) =>
    let (vs, final) := scanMore rest
    (v :: vs, final)

/-- The integers of a line that holds nothing else but spaces and tabs. -/
def scanLine? (line : List Char) : Option (List Int) :=
  let (vs, rest) := scanIntegers (line.dropWhile isGap)
  if (rest.dropWhile isGap).isEmpty then some vs else none

end Dimacs

/-! ### Lines of a text -/

namespace Draft

/-- Adds the clause of a line, if the line holds one. -/
def addLine (d : Draft) (number : Nat) (line : List Char) : Except ReadError Draft :=
  let line := Text.trim line
  if line.isEmpty || line.head? = some 'p' || line.head? = some 'c' then .ok d
  else match Dimacs.scanLine? line with
    | none => .error (.format (.malformed number (String.ofList line)))
    | some vs =>
      if vs.getLast? ≠ some 0 then .error (.format (.unterminated number))
      else if 0 ∈ vs.dropLast then .error (.format (.embeddedZero number))
      else match d.addClause vs.dropLast with
        | (.error e, _) => .error (.clause e)
        | (.ok (), d) => .ok d

/-- The draft of a DIMACS text. -/
def read (text : String) : Except ReadError Draft :=
  ((Text.lines text.toList).zipIdx 1).foldlM (fun d (line, number) => d.addLine number line) empty

end Draft
end ProbLogic
