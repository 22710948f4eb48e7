/-
# Weights

A table of weights for literals or signed variables. A key and its opposite
are weighted independently. Keys are kept in ascending order, and a key that
compares equal to one in the table takes its value over, not its place.

Key definitions:
* `Signed` : keys with a polarity and an opposite.
* `Weights.get?`, `Weights.insert`, `Weights.insertPair`
* `WeightError`

Key theorems:
* `Weights.get?_insert`, `Weights.get?_insertPair`
-/
import ProbLogic.Ascending
import ProbLogic.Literal

namespace ProbLogic

/-- Keys with a polarity and an opposite. -/
class Signed (κ : Type) extends Ord κ where
  isPositive : κ → Bool
  opposite : κ → κ
  /-- The key in a text of weights. -/
  text : κ → String

instance : Signed Literal where
  isPositive := Literal.positive
  opposite := Literal.negate
  text := Literal.text

instance : Signed Int where
  isPositive v := decide (0 < v)
  opposite v := -v
  text v := toString v

/-- What can be wrong with weights. -/
inductive WeightError where
  /-- A key, given by its text, has no weight. -/
  | missing (key : String)
  /-- A line is not a key with one or two weights. -/
  | invalid (line : Nat) (text : String)
  deriving DecidableEq, Repr

/-- The words of an error. -/
def WeightError.message : WeightError → String
  | missing key => s!"no weight for literal {key}"
  | invalid line text => s!"line {line}: invalid weight entry `{text}`"

/-- A partial map from keys to weights. -/
structure Weights (κ α : Type) where
  entries : List (κ × α)
  deriving DecidableEq, Repr

namespace Weights

variable {κ α : Type}

/-- The table without entries. -/
def empty : Weights κ α := ⟨[]⟩

variable [Signed κ]

/-- The weight of a key. -/
def get? (w : Weights κ α) (k : κ) : Option α := Ascending.get? k w.entries

/-- The weight of a key that must have one. -/
def get (w : Weights κ α) (k : κ) : Except WeightError α :=
  match w.get? k with
  | some x => .ok x
  | none => .error (.missing (Signed.text k))

/-- Sets the weight of a key. -/
def insert (w : Weights κ α) (k : κ) (x : α) : Weights κ α := ⟨Ascending.put k x w.entries⟩

/-- Sets the weights of a key's opposite and of the key. -/
def insertPair (w : Weights κ α) (k : κ) (x opposite : α) : Weights κ α :=
  (w.insert (Signed.opposite k) opposite).insert k x

theorem get?_insert [Std.TransOrd κ] (w : Weights κ α) (k l : κ) (x : α) :
    (w.insert k x).get? l = if compare l k = .eq then some x else w.get? l := by
  simp only [insert, get?, Ascending.get?_put, beq_iff_eq]

theorem get?_insertPair [Std.TransOrd κ] (w : Weights κ α) (k l : κ) (x y : α) :
    (w.insertPair k x y).get? l = if compare l k = .eq then some x
      else if compare l (Signed.opposite k) = .eq then some y else w.get? l := by
  simp only [insertPair, get?_insert]

end Weights
end ProbLogic
