/-
# From programs to counting problems

A program is compiled in three steps: loops are broken from the queries and
the evidence, the rules that are left are completed, and the clauses on
choices are added. Only the choices that matter are constrained: those with an
atom that has been reached. Their clauses may reach more of them.

The weighted model count of the result, among the models of the evidence, is
the probability of the queries.

Key definitions:
* `Problem` : a weighted CNF with signed variables for queries and evidence.
* `Program.compile`
-/
import ProbLogic.Completion
import ProbLogic.Program

namespace ProbLogic

/-- A weighted CNF with its queries and evidence. -/
structure Problem (α : Type) where
  compilation : Compilation α
  /-- Signed variables, ascending. -/
  queries : List Int
  /-- Signed variables, ascending. -/
  evidence : List Int

variable {α : Type}

/-! ### The constraints on choices -/

namespace UnrollM

/-- Resolves the literals of a clause in turn. Literals that cannot hold are left out; a
clause with a literal that holds is dropped. -/
def resolveClause (given : WeightedRules α) : List Literal → UnrollM α (Option (List Literal))
  | [] => return some []
  | l :: ls => do
    match ← resolveSeed given l with
    | .variant m => return (← resolveClause given ls).map (m :: ·)
    | .eliminated => resolveClause given ls
    | .vacuous => return none

/-- The resolved clauses of the choices that are reached, and of those that these reach
in turn. Each round but the last reaches some, so there are at most as many rounds as
choices. -/
def reachedClauses (given : WeightedRules α) : Nat → List Choices → UnrollM α (List (List Literal))
  | 0, _ => return []
  | rounds + 1, unreached => do
    let s ← get
    let (reached, rest) := unreached.partition fun c => c.atoms.any s.visited
    if reached.isEmpty then return []
    else
      let clauses ← (reached.flatMap Choices.clauses).mapM (resolveClause given)
      let others ← reachedClauses given rounds rest
      return clauses.filterMap id ++ others

end UnrollM

namespace Program

/-- The rules of a program with their weights. -/
def weightedRules (p : Program α) : WeightedRules α := ⟨p.rules, p.weights⟩

/-- Unrolls a program and gives the clauses on its choices. -/
def unroll (p : Program α) : UnrollM α (List (List Literal)) := do
  UnrollM.resolveSeeds p.weightedRules (p.queries ++ p.evidence)
  UnrollM.reachedClauses p.weightedRules p.choices.length p.choices

/-- What a program reports. -/
def events (p : Program α) : List (Event α) :=
  [.grounded p.choices.length p.rules.entries.length p.rules.size p.queries.length
    p.evidence.length, .normalRules p.rules]

/-- Completes the rules from the queries and the evidence, adds the clauses and denies
what cannot hold. -/
def completion (p : Program α) (u : Unlooped α) (clauses : List (List Literal)) : Completion :=
  let rules := u.program.rules
  let s := (p.queries ++ u.evidence).foldl (fun s l => s.complete rules l.atom) Completion.empty
  let s := clauses.foldl (fun s c => s.constrain rules c) s
  u.falsified.foldl (fun s a => s.deny rules a) s

/-- The signed numbers of the literals whose atoms have a variable, ascending. -/
def signedNumbers (n : Numbering) (ls : List Literal) : List Int :=
  Ascending.ofList (ls.filterMap fun l =>
    (n.index? (.atom l.atom)).map fun i => if l.positive then (i : Int) else -i)

variable [Scalar α]

/-- Compiles a program, and tells what was reported on the way. -/
def compile (p : Program α) : Except Stop (Problem α) × List (Event α) :=
  match p.unroll.runOn (.start p.weightedRules) with
  | (.error e, s) => (.error e, s.log.toList)
  | (.ok clauses, s) =>
    let u := s.finish p.evidence
    let completion := p.completion u clauses
    let compilation := completion.finish u.program.weights
    let problem : Problem α :=
      { compilation
        queries := signedNumbers compilation.numbering p.queries
        evidence := signedNumbers compilation.numbering u.evidence }
    (.ok problem, s.log.toList ++ u.events ++ completion.events u.program.weights ++
      [.encoded compilation.cnf])

end Program
end ProbLogic
