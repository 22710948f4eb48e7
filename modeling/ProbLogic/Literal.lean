/-
# Atoms and literals

An atom is a name. A literal is an atom with a polarity. Literals are ordered
by their text, `a` or `-a`, so the negative literals come first; a positive
literal on the name `-a` and the negative literal on `a` compare equal.

Key definitions:
* `Atom`, `Literal`
* `Literal.text` : `a` or `-a`, the order's key.
* `Literal.ruleText` : `a` or `not(a)`.
-/
namespace ProbLogic

/-- A proposition, known by its name. -/
structure Atom where
  name : String
  deriving DecidableEq, Repr

namespace Atom

instance : Ord Atom := ⟨compareOn Atom.name⟩

instance : Std.TransOrd Atom := inferInstanceAs (Std.TransCmp (compareOn Atom.name))

instance : Std.LawfulEqOrd Atom where
  compare_self {a} := by
    show compare a.name a.name = .eq
    exact Std.ReflCmp.compare_self
  eq_of_compare {a b} h := by
    have hn : compare a.name b.name = .eq := h
    rcases a with ⟨_⟩
    exact congrArg Atom.mk (Std.LawfulEqCmp.eq_of_compare hn)

/-- The atom whose name has `_` and a suffix appended. -/
def suffixed (a : Atom) (suffix : String) : Atom := ⟨a.name ++ "_" ++ suffix⟩

end Atom

/-- An atom or its negation. -/
structure Literal where
  atom : Atom
  positive : Bool
  deriving DecidableEq, Repr

namespace Literal

/-- The positive literal on an atom. -/
def pos (a : Atom) : Literal := ⟨a, true⟩

/-- The negative literal on an atom. -/
def neg (a : Atom) : Literal := ⟨a, false⟩

/-- The opposite literal. -/
def negate (l : Literal) : Literal := ⟨l.atom, !l.positive⟩

/-- The literal of the same polarity on another atom. -/
def withAtom (l : Literal) (a : Atom) : Literal := ⟨a, l.positive⟩

/-- `a` or `-a`. -/
def text (l : Literal) : String := if l.positive then l.atom.name else "-" ++ l.atom.name

/-- `a` or `not(a)`, as in the body of a rule. -/
def ruleText (l : Literal) : String :=
  if l.positive then l.atom.name else "not(" ++ l.atom.name ++ ")"

instance : Ord Literal := ⟨compareOn Literal.text⟩

instance : Std.TransOrd Literal := inferInstanceAs (Std.TransCmp (compareOn Literal.text))

theorem negate_negate (l : Literal) : l.negate.negate = l := by simp [negate]

end Literal
end ProbLogic
