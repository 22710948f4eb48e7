/-
# Statements of a program

A program is a list of annotated disjunctions, queries and evidence. A rule
`p1::h1; …; pn::hn :- b1, …, bm.` chooses at most one head whenever its body
holds, each with its probability.

Key definitions:
* `Choice`, `Rule`, `Statement` : the tree of a program, over any numbers.
* `Statement.text` : a statement as program text.
-/
import ProbLogic.Literal
import ProbLogic.Scalar

namespace ProbLogic

/-- One head of an annotated disjunction. -/
structure Choice (α : Type) where
  probability : α
  atom : Atom
  deriving BEq, Repr

/-- An annotated disjunction. -/
structure Rule (α : Type) where
  head : List (Choice α)
  body : List Literal
  deriving BEq, Repr

/-- A part of a program that ends with a dot. -/
inductive Statement (α : Type) where
  | rule (rule : Rule α)
  /-- Asks for the probability of a literal. -/
  | query (literal : Literal)
  /-- Observes that a literal holds. -/
  | evidence (literal : Literal)
  deriving BEq, Repr

variable {α : Type} [Numeral α]

/-- `p::a` -/
def Choice.text (c : Choice α) : String := Numeral.text c.probability ++ "::" ++ c.atom.name

/-- `p1::h1; …; pn::hn :- b1, …, bm.`, without the arrow if there is no body. -/
def Rule.text (r : Rule α) : String :=
  let head := "; ".intercalate (r.head.map Choice.text)
  let body := if r.body.isEmpty then "" else " :- " ++ ", ".intercalate (r.body.map Literal.text)
  head ++ body ++ "."

/-- A statement as program text. -/
def Statement.text : Statement α → String
  | rule r => r.text
  | query l => "query(" ++ l.text ++ ")."
  | evidence l =>
    "evidence(" ++ l.atom.name ++ ", " ++ (if l.positive then "true" else "false") ++ ")."

end ProbLogic
