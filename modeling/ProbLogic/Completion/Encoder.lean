/-
# Encoding while atoms are completed

A completion collects clauses over variables, and its numbers, weights and
signed clauses are worked out when it is finished. An encoder does this at
once. It keeps the numbers and the weights of the variables, a CNF under
construction and the nodes of the signed variables that were asked for so far,
so that no signed variable has two nodes. A variable is numbered and weighed
when it is first asked for.

Making nodes and adding clauses can fail, and so can the steps of an encoder.

Key definitions:
* `Encoder` : the tables.
* `EncoderM.leaf` : the node of a signed variable.
* `EncoderM.complete`, `EncoderM.deny`, `EncoderM.constrain`
-/
import ProbLogic.Cnf.Draft
import ProbLogic.Completion

namespace ProbLogic

/-- The tables of an encoder. -/
structure Encoder (α : Type) where
  numbering : Numbering
  weights : Weights Int α
  /-- The nodes of signed variables, newest first. -/
  leaves : List (SignedVariable × Nat)
  draft : Draft

/-- Steps of an encoder. A step that fails leaves the tables as they are then. -/
abbrev EncoderM (α : Type) := ExceptT FormulaError (StateM (Encoder α))

variable {α β : Type}

namespace Encoder

/-- Nothing is encoded. -/
def empty : Encoder α := ⟨.empty, .empty, [], .empty⟩

/-- The CNF so far, with the meaning and the weights of its variables. -/
def compilation (e : Encoder α) : Compilation α := ⟨e.draft.toCnf, e.numbering, e.weights⟩

end Encoder

namespace EncoderM

/-- Runs steps on an encoder. -/
def runOn (steps : EncoderM α β) (e : Encoder α) : Except FormulaError β × Encoder α :=
  (ExceptT.run steps).run e

/-- A step on the CNF under construction. -/
def onDraft (f : Draft → Except FormulaError β × Draft) : EncoderM α β :=
  ExceptT.mk (modifyGet fun e => ((f e.draft).1, { e with draft := (f e.draft).2 }))

/-- Adds the clause of some nodes. -/
def clause (nodes : List Nat) : EncoderM α Unit :=
  onDraft fun d => (d.disjunction nodes).2.add (d.disjunction nodes).1

variable [Scalar α] (weights : Weights Literal α)

/-- The number of a variable, which is numbered and weighed if it is new. -/
def number (v : Variable) : EncoderM α Nat := do
  let e ← get
  match e.numbering.index? v with
  | some i => return i
  | none =>
    let i := e.numbering.vars.length + 1
    let (weight, opposite) := Completion.weightsOf weights v
    set { e with
      numbering := e.numbering.add v
      weights := e.weights.insertPair (i : Int) weight opposite }
    return i

/-- The node of a signed variable, which is made if it is new. -/
def leaf (x : SignedVariable) : EncoderM α Nat := do
  match (← get).leaves.lookup x with
  | some node => return node
  | none =>
    let i ← number weights x.1
    let node ← onDraft fun d => d.leaf (if x.2 then (i : Int) else -i)
    modify fun e => { e with leaves := (x, node) :: e.leaves }
    return node

/-- Adds a clause of signed variables. -/
def emit (c : List SignedVariable) : EncoderM α Unit := do
  clause (← c.mapM (leaf weights))

/-- Adds the clauses of `v ↔ ⋀ body`, completing each literal's atom before the first clause
with it. -/
def conjunction (complete : Atom → EncoderM α Unit) (v : Variable) (body : Body) :
    EncoderM α Unit := do
  let first ← leaf weights (v, true)
  let others ← body.mapM fun l => do
    complete l.atom
    emit weights [(v, false), l.signed]
    leaf weights l.negate.signed
  clause (first :: others)

/-- Adds the clauses for the body number `i` of `a`, and gives the node of its variable. -/
def alternative (complete : Atom → EncoderM α Unit) (a : Atom) (body : Body × Nat) :
    EncoderM α Nat := do
  let v := Variable.body a body.2
  let node ← leaf weights (v, true)
  emit weights [(.atom a, true), (v, false)]
  conjunction weights complete v body.1
  return node

/-- Completes an atom and everything that it depends on. At most `depth` atoms are nested. -/
def visit (rules : RuleBase) : Nat → Atom → EncoderM α Unit
  | 0, _ => return ()
  | depth + 1, a => do
    if .atom a ∈ (← get).numbering.vars then return ()
    else match rules.bodies a with
      | [] => do
        let _ ← number weights (.atom a)
        return ()
      | [body] => conjunction weights (visit rules depth) (.atom a) body
      | bodies => do
        let first ← leaf weights (.atom a, false)
        let others ← bodies.zipIdx.mapM (alternative weights (visit rules depth) a)
        clause (first :: others)

/-- Completes an atom and everything that it depends on. Nested atoms are different
heads, but for the last. -/
def complete (rules : RuleBase) (a : Atom) : EncoderM α Unit :=
  visit weights rules (rules.heads.length + 1) a

/-- Says that an atom is false. -/
def deny (rules : RuleBase) (a : Atom) : EncoderM α Unit := do
  complete weights rules a
  emit weights [(.atom a, false)]

/-- Adds a clause over literals. -/
def constrain (rules : RuleBase) (literals : List Literal) : EncoderM α Unit := do
  let nodes ← literals.mapM fun l => do
    complete weights rules l.atom
    leaf weights l.signed
  clause nodes

end EncoderM
end ProbLogic
