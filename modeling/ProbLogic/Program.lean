/-
# Weighted normal programs

A rule `p0::h0; …; pn::hn :- body` with the number `r` becomes normal rules
`hi :- choice_node_r_i, body`. Its choice atoms are one for each head, weighted
by the head's probability, and one more for choosing no head, weighted by what
the probabilities leave of one. Clauses say that exactly one choice atom is
true if the body holds, and none if it does not.

Key definitions:
* `Choices` : the choice atoms of a rule and the clauses on them.
* `Program`, `Program.ofStatements`
* `ProgramError`
-/
import ProbLogic.RuleBase
import ProbLogic.Statement
import ProbLogic.Weights

namespace ProbLogic

/-- The choice atoms of a rule, and the clauses that constrain them. -/
structure Choices where
  atoms : List Atom
  clauses : List (List Literal)
  deriving DecidableEq, Repr

namespace Choices

/-- No two of the atoms are true. -/
def exclusions : List Atom → List (List Literal)
  | [] => []
  | a :: as => as.map (fun b => [.neg a, .neg b]) ++ exclusions as

/-- Each of the atoms implies each literal of the body. -/
def requirements (atoms : List Atom) (body : List Literal) : List (List Literal) :=
  body.flatMap fun l => atoms.map fun a => [.neg a, l]

/-- The body implies one of the atoms. -/
def coverage (atoms : List Atom) (body : List Literal) : List Literal :=
  atoms.map Literal.pos ++ body.map Literal.negate

/-- The clauses that make exactly one of the atoms true if the body holds, and none
otherwise. -/
def ofBody (atoms : List Atom) (body : List Literal) : Choices :=
  ⟨atoms, exclusions atoms ++ requirements atoms body ++ [coverage atoms body]⟩

end Choices

/-- Why a program has no meaning. -/
inductive ProgramError (α : Type) where
  /-- A probability is not between zero and one. -/
  | probability (atom : Atom) (p : α)
  /-- The probabilities of a rule exceed one. -/
  | total (rule : Rule α) (sum : α)
  deriving Repr

/-- The words of an error. -/
def ProgramError.message {α : Type} [Numeral α] : ProgramError α → String
  | probability atom p =>
    "probability " ++ Numeral.text p ++ " of " ++ atom.name ++ " is not between 0 and 1"
  | total rule sum =>
    "probabilities sum to " ++ Numeral.text sum ++ " in `" ++ rule.text ++ "`"

/-- Normal rules with weights, choices, queries and evidence. -/
structure Program (α : Type) where
  rules : RuleBase
  weights : Weights Literal α
  queries : List Literal
  evidence : List Literal
  choices : List Choices
  deriving Repr

namespace Program

variable {α : Type}

/-- Nothing is said. -/
def empty : Program α := ⟨.empty, .empty, [], [], []⟩

/-- The choice atom number `i` of the rule number `r`. -/
def choiceAtom (r i : Nat) : Atom := ⟨s!"choice_node_{r}_{i}"⟩

/-- Adds a query. -/
def addQuery (p : Program α) (l : Literal) : Program α :=
  { p with queries := Ascending.insert l p.queries }

/-- Adds evidence. -/
def addEvidence (p : Program α) (l : Literal) : Program α :=
  { p with evidence := Ascending.insert l p.evidence }

variable [Scalar α]

/-- Adds the head number `i` of the rule number `r`, and its probability to the sum so far. -/
def addHead (r : Nat) (body : List Literal) (state : Program α × α) (head : Choice α × Nat) :
    Except (ProgramError α) (Program α × α) :=
  let (p, total) := state
  let (c, i) := head
  if Scalar.isProbability c.probability then
    let node := Literal.pos (choiceAtom r i)
    let weights := (p.weights.insertPair node c.probability Scalar.one).insertPair (.pos c.atom)
      Scalar.one Scalar.one
    let rules := p.rules.add c.atom (node :: body)
    .ok ({ p with weights, rules }, Scalar.add total c.probability)
  else .error (.probability c.atom c.probability)

/-- Adds an annotated disjunction. -/
def addRule (p : Program α) (rule : Rule α) : Except (ProgramError α) (Program α) := do
  let r := p.choices.length
  let n := rule.head.length
  let (p, total) ← rule.head.zipIdx.foldlM (addHead r rule.body) (p, Scalar.zero)
  if Scalar.exceedsOne total then .error (.total rule total)
  else
    let atoms := (List.range (n + 1)).map (choiceAtom r)
    let weights := p.weights.insertPair (.pos (choiceAtom r n)) (Scalar.rest total) Scalar.one
    .ok { p with weights, choices := p.choices ++ [.ofBody atoms rule.body] }

/-- Adds a statement. -/
def addStatement (p : Program α) : Statement α → Except (ProgramError α) (Program α)
  | .rule r => p.addRule r
  | .query l => .ok (p.addQuery l)
  | .evidence l => .ok (p.addEvidence l)

/-- The program of a list of statements. -/
def ofStatements (statements : List (Statement α)) : Except (ProgramError α) (Program α) :=
  statements.foldlM addStatement empty

end Program
end ProbLogic
