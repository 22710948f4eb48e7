/-
# The text of weights

One line for a positive key and its opposite, `key weight opposite`, or for a
single key, `key weight`.

In reading, the numbers of a line are the fields at its end that denote a
number, at most two of them and never the first field; the fields before them
are the key. Weights are finite and not negative.

Key definitions:
* `Weights.text` : a table as text.
* `Weights.read` : the table of a text.
* `KeyText` : how keys are read.
-/
import ProbLogic.Cnf.Dimacs
import ProbLogic.Scalar
import ProbLogic.Statement.Parser
import ProbLogic.Weights

namespace ProbLogic

/-- Keys that can be read. -/
class KeyText (κ : Type) where
  /-- The key that a text denotes. -/
  read? : List Char → Option κ

instance : KeyText Literal where
  read? cs := (Literal.parse (String.ofList cs)).toOption

/-- A signed variable is read with an optional sign of either kind. -/
instance : KeyText Int where
  read?
    | '+' :: '-' :: _ => none
    | '+' :: cs => Dimacs.readInteger? cs
    | cs => Dimacs.readInteger? cs

namespace Weights

variable {κ α : Type} [Signed κ] [Numeral α]

/-- The line of an entry; a negative key whose opposite has a weight stands on the
opposite's line. -/
def lineText (w : Weights κ α) (k : κ) (x : α) : String :=
  match Signed.isPositive k, w.get? (Signed.opposite k) with
  | true, some y => Signed.text k ++ " " ++ Numeral.text x ++ " " ++ Numeral.text y ++ "\n"
  | false, some _ => ""
  | _, none => Signed.text k ++ " " ++ Numeral.text x ++ "\n"

/-- A table as text. -/
def text (w : Weights κ α) : String := String.join (w.entries.map fun e => w.lineText e.1 e.2)

/-- How many fields at the end of a line are numbers. -/
def countNumbers (α : Type) [Numeral α] (fields : List (List Char)) : Nat :=
  (((fields.drop 1).reverse.take 2).takeWhile fun f => (Numeral.read? (α := α) f).isSome).length

/-- A weight: a number that may weigh a literal. -/
def readWeight? (cs : List Char) : Option α := (Numeral.read? cs).filter Numeral.isWeight

variable [KeyText κ]

/-- The key and the weights of a line's fields. -/
def readFields? (fields : List (List Char)) : Option (κ × List α) := do
  let split := fields.length - countNumbers α fields
  let key ← KeyText.read? ([' '].intercalate (fields.take split))
  let numbers ← (fields.drop split).mapM readWeight?
  return (key, numbers)

/-- Adds what a line says; blank lines say nothing. -/
def addLine (w : Weights κ α) (number : Nat) (line : List Char) :
    Except WeightError (Weights κ α) :=
  let line := Text.trim line
  if line.isEmpty then .ok w
  else match readFields? (Text.words line) with
    | some (key, [x]) => .ok (w.insert key x)
    | some (key, [x, y]) => .ok (w.insertPair key x y)
    | _ => .error (.invalid number (String.ofList line))

/-- The table of a text. -/
def read (text : String) : Except WeightError (Weights κ α) :=
  ((Text.lines text.toList).zipIdx 1).foldlM (fun w (line, number) => w.addLine number line) empty

end Weights
end ProbLogic
