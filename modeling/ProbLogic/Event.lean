/-
# What a run reports

Every stage reports what it consumed and produced. Reports are collected as
events in the order in which they occur; which of them are shown is decided by
the levels of a trace.

Key definitions:
* `Level` : the stages that can be traced.
* `Event`, `Event.level`, `Event.text`
* `Event.trace` : the text of the events that some level shows.
-/
import ProbLogic.Cnf.Dimacs
import ProbLogic.Numbering
import ProbLogic.RuleBase
import ProbLogic.Scalar
import ProbLogic.Text.Quoted

namespace ProbLogic

/-- What a trace can be asked for. -/
inductive Level where
  /-- All the others. -/
  | everything
  | parsing
  | grounding
  | unrolling
  | completion
  | encoding
  deriving DecidableEq, Repr

/-- The level of a name. -/
def Level.ofName? : String → Option Level
  | "all" => some everything
  | "parse" => some parsing
  | "ground" => some grounding
  | "break" => some unrolling
  | "complete" => some completion
  | "encode" => some encoding
  | _ => none

/-- A report of a stage. -/
inductive Event (α : Type) where
  /-- The text that was read. -/
  | source (text : String)
  /-- The size of a program. -/
  | grounded (disjunctions atoms rules queries evidence : Nat)
  /-- The normal rules of a program. -/
  | normalRules (rules : RuleBase)
  /-- The rules from which unrolling starts. -/
  | unrolling (rules : RuleBase)
  /-- A seed can never hold. -/
  | underivable (atom : Atom)
  /-- An atom lost all bodies. -/
  | eliminated (atom : Atom) (cuts : List Atom)
  /-- An atom has been given rules under a name. -/
  | built (atom name : Atom) (cuts : List Atom)
  /-- The rules without positive loops. -/
  | acyclicRules (rules : RuleBase)
  /-- The evidence on the variants of its atoms. -/
  | spreadEvidence (literals : List Literal)
  /-- A variable has been given a number and two weights. -/
  | numbered (index : Nat) (name : Variable) (weight opposite : α)
  /-- The size of a completion. -/
  | completed (atoms clauses vars : Nat)
  /-- The formula. -/
  | encoded (cnf : Cnf)
  deriving Repr

namespace Event

variable {α : Type}

/-- The level that shows an event. -/
def level : Event α → Level
  | source _ => .parsing
  | grounded .. | normalRules _ => .grounding
  | unrolling _ | underivable _ | eliminated .. | built .. => .unrolling
  | acyclicRules _ | spreadEvidence _ => .unrolling
  | completed .. => .completion
  | numbered .. | encoded _ => .encoding

/-- A set of atoms between braces. -/
def atomsText (atoms : List Atom) : String :=
  "\x7b" ++ ", ".intercalate (atoms.map fun a => "Atom(" ++ Text.quoted a.name ++ ")") ++ "\x7d"

/-- The words of an event. -/
def text [Numeral α] : Event α → String
  | source text => "Program text:\n" ++ text
  | grounded disjunctions atoms rules queries evidence =>
    s!"{disjunctions} annotated disjunctions, {atoms} defined atoms, {rules} rules, " ++
      s!"{queries} queries, {evidence} evidence"
  | normalRules rules => "Normal program:\n" ++ rules.text
  | unrolling rules => "Breaking loops in:\n" ++ rules.text
  | underivable atom => "No derivation of " ++ atom.name
  | eliminated atom cuts => "Eliminated " ++ atom.name ++ " with cuts " ++ atomsText cuts
  | built atom name cuts =>
    "Built " ++ atom.name ++ " as " ++ name.name ++ " with cuts " ++ atomsText cuts
  | acyclicRules rules => "Acyclic program:\n" ++ rules.text
  | spreadEvidence literals =>
    "Rewritten evidence: \x7b" ++ ", ".intercalate (literals.map Literal.text) ++ "\x7d"
  | numbered index v weight opposite =>
    s!"{index} {v.text} " ++ Numeral.text weight ++ " " ++ Numeral.text opposite
  | completed atoms clauses vars =>
    s!"Completed {atoms} atoms into {clauses} clauses over {vars} variables"
  | encoded cnf => "Weighted CNF:\n" ++ cnf.text

/-- Whether one of the levels shows an event. -/
def isShown (levels : List Level) (e : Event α) : Bool :=
  levels.any fun l => l = .everything ∨ l = e.level

/-- The text of the events that some level shows, each on lines of its own. -/
def trace [Numeral α] (levels : List Level) (events : List (Event α)) : String :=
  String.join ((events.filter (isShown levels)).map fun e => e.text ++ "\n")

end Event
end ProbLogic
