/-
# Normal rules by head

A rule base gives each head the list of its bodies, in the order in which
rules were added. A body is a conjunction, kept as an ascending set of
literals. A head whose only body is empty is a fact.

When a head becomes a fact, the positive literal on it is removed from all
other bodies, and a head with a body that becomes empty is a fact as well. This
is one pass: the heads that become facts in it are not removed from bodies in
their turn.

Key definitions:
* `RuleBase.bodies`, `RuleBase.isFact`
* `RuleBase.add` : adds a rule.
* `RuleBase.text` : one rule a line.
-/
import ProbLogic.Ascending
import ProbLogic.Literal

namespace ProbLogic

/-- A conjunction of literals, ascending. -/
abbrev Body := List Literal

/-- Rules, grouped by their heads in ascending order. -/
structure RuleBase where
  entries : List (Atom × List Body)
  deriving DecidableEq, Repr

namespace RuleBase

/-- No rules. -/
def empty : RuleBase := ⟨[]⟩

/-- The bodies of a head. -/
def bodies (r : RuleBase) (head : Atom) : List Body := (Ascending.get? head r.entries).getD []

/-- Whether a head has a rule. -/
def contains (r : RuleBase) (head : Atom) : Bool := (Ascending.get? head r.entries).isSome

/-- Whether the only body of a head is empty. -/
def isFact (r : RuleBase) (head : Atom) : Bool := r.bodies head = [[]]

/-- The heads, ascending. -/
def heads (r : RuleBase) : List Atom := r.entries.map Prod.fst

/-- The atoms of all heads and bodies, ascending. -/
def atoms (r : RuleBase) : List Atom :=
  Ascending.ofList (r.entries.flatMap fun e => e.1 :: e.2.flatten.map Literal.atom)

/-- How many rules there are. -/
def size (r : RuleBase) : Nat := r.entries.foldl (fun n e => n + e.2.length) 0

/-- The bodies of another head once `fact` is one. -/
def settle (fact : Literal) (bodies : List Body) : List Body :=
  if bodies.any fun b => Ascending.has fact b && (Ascending.remove fact b).isEmpty then [[]]
  else bodies.map (Ascending.remove fact)

/-- Removes a fact from the bodies of the other heads. -/
def propagate (r : RuleBase) (fact : Atom) : RuleBase :=
  ⟨r.entries.map fun e => if e.1 = fact then e else (e.1, settle (.pos fact) e.2)⟩

/-- Adds a rule. Positive literals on facts are left out of the body; of literals with
the same text the last stays. Nothing is added to a fact. -/
def add (r : RuleBase) (head : Atom) (body : List Literal) : RuleBase :=
  let body := Ascending.ofListLast (body.filter fun l => !(l.positive && r.isFact l.atom))
  if r.isFact head then r
  else if body.isEmpty then (⟨Ascending.put head [[]] r.entries⟩ : RuleBase).propagate head
  else ⟨Ascending.adjust head [] (· ++ [body]) r.entries⟩

/-- A rule as a line. -/
def ruleText (head : Atom) (body : Body) : String :=
  if body.isEmpty then head.name ++ ".\n"
  else head.name ++ " :- " ++ ", ".intercalate (body.map Literal.ruleText) ++ ".\n"

/-- One rule a line. -/
def text (r : RuleBase) : String :=
  String.join (r.entries.map fun e => String.join (e.2.map (ruleText e.1)))

end RuleBase
end ProbLogic
