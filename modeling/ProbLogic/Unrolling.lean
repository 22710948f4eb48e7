/-
# Breaking positive loops

Clark's completion is right only for rules without positive loops, so rules
are first unrolled from the literals that matter, the seeds. A derivation is
followed downwards with the set of its ancestors, the atoms that it already
passes through. A body that needs an ancestor would close a loop and is cut.
The atom whose body was cut is a variant that serves only where the ancestors
responsible, its cuts, are ancestors as well, so it gets a name of its own. An
atom built without cuts keeps its name and serves everywhere.

Support does not pass through negation: below a negative literal a derivation
starts anew, without ancestors.

An atom that is met again with the same ancestors while it is being built is
not built twice; it stands for itself and is pending. So the expansions that
are open at one time are different pairs of a head and a set of heads, and
their number bounds the depth.

Key definitions:
* `Variant`, `Resolved`
* `Unrolling` : what has been built so far.
* `UnrollM.expandOr` : an atom below given ancestors, with any steps for an atom that is met again.
* `UnrollM.awaitItself`, `UnrollM.expand` : the steps that are taken, and the expansion with them.
* `UnrollM.resolveSeed`, `Unrolling.finish`, `WeightedRules.breakLoops`
-/
import ProbLogic.Event
import ProbLogic.Weights

namespace ProbLogic

/-- Rules with the weights of their literals. -/
structure WeightedRules (α : Type) where
  rules : RuleBase
  weights : Weights Literal α
  deriving Repr

/-- What became of an atom in some context; it serves wherever its cuts are ancestors. -/
structure Variant where
  /-- The name under which it has rules; an atom without one has no derivation. -/
  name : Option Atom
  cuts : List Atom
  deriving DecidableEq, Repr

/-- What became of a literal in some context. -/
inductive Resolved where
  /-- The literal on a variant of its atom. -/
  | variant (literal : Literal)
  /-- A positive literal whose atom has no derivation. -/
  | eliminated
  /-- A negative literal whose atom has no derivation, which holds. -/
  | vacuous
  deriving DecidableEq, Repr

/-- What a variant of its atom makes of a literal. -/
def Variant.resolve (v : Variant) (l : Literal) : Resolved :=
  match v.name with
  | some a => .variant (l.withAtom a)
  | none => if l.positive then .eliminated else .vacuous

/-- The state of an unrolling. -/
structure Unrolling (α : Type) where
  /-- The variants of each atom, in the order in which they were recorded. -/
  variants : List (Atom × List Variant)
  /-- The expansions that are open, with their ancestors, innermost first. -/
  building : List (Atom × List Atom)
  /-- The atoms that were met while they were being built. -/
  pending : List Atom
  /-- The names that are not available for variants. -/
  taken : List Atom
  /-- The atoms that can never hold. -/
  falsified : List Atom
  /-- The rules and weights built so far. -/
  built : WeightedRules α
  /-- What has been reported so far. -/
  log : Array (Event α)

/-- Why an unrolling stops. -/
inductive Stop where
  /-- A literal of the given rules has no weight. -/
  | missingWeight (literal : Literal)
  /-- More expansions are open than there are pairs of a head and a set of heads. -/
  | exhausted
  deriving DecidableEq, Repr

/-- The words of a stop. -/
def Stop.message : Stop → String
  | missingWeight l => (WeightError.missing l.text).message
  | exhausted => "unrolling does not end"

/-- Steps of an unrolling. A step that stops leaves the state as it is then. -/
abbrev UnrollM (α : Type) := ExceptT Stop (StateM (Unrolling α))

variable {α : Type}

namespace Unrolling

/-- The state before the first seed. -/
def start (given : WeightedRules α) : Unrolling α where
  variants := []
  building := []
  pending := []
  taken := Ascending.union given.rules.atoms (given.weights.entries.map fun e => e.1.atom)
  falsified := []
  built := ⟨.empty, .empty⟩
  log := #[.unrolling given.rules]

/-- The variants of an atom. -/
def variantsOf (s : Unrolling α) (a : Atom) : List Variant := (Ascending.get? a s.variants).getD []

/-- Whether an atom has a variant. -/
def visited (s : Unrolling α) (a : Atom) : Bool := (Ascending.get? a s.variants).isSome

/-- The first variant of an atom whose cuts are all ancestors. -/
def lookup (s : Unrolling α) (a : Atom) (ancestors : List Atom) : Option Variant :=
  (s.variantsOf a).find? fun v => v.cuts.all (· ∈ ancestors)

/-- The first name `a_n` that is not taken, from the number of variants on. One of the
first `t + 1` such names is free if `t` are taken. -/
def freshName (s : Unrolling α) (a : Atom) : Atom :=
  let start := (s.variantsOf a).length
  let free (i : Nat) : Option Atom :=
    let name := a.suffixed (toString (start + i))
    if name ∈ s.taken then none else some name
  ((List.range (s.taken.length + 1)).findSome? free).getD a

/-- Reports an event. -/
def report (s : Unrolling α) (e : Event α) : Unrolling α := { s with log := s.log.push e }

/-- Adds a variant of an atom. -/
def record (s : Unrolling α) (a : Atom) (v : Variant) : Unrolling α :=
  { s with variants := Ascending.adjust a [] (· ++ [v]) s.variants }

/-- Sets the weight of a literal. -/
def setWeight (s : Unrolling α) (l : Literal) (x : α) : Unrolling α :=
  { s with built := { s.built with weights := s.built.weights.insert l x } }

/-- Adds rules with the same head. -/
def addRules (s : Unrolling α) (head : Atom) (bodies : List Body) : Unrolling α :=
  { s with built := { s.built with rules := bodies.foldl (fun r b => r.add head b) s.built.rules } }

end Unrolling

/-! ### Building one atom -/

namespace UnrollM

/-- Copies the weight of a literal to another. -/
def copyWeight (given : WeightedRules α) (source target : Literal) : UnrollM α Unit :=
  match given.weights.get? source with
  | some x => modify fun s => s.setWeight target x
  | none => throw (.missingWeight source)

/-- Copies the weights of an atom's two literals. -/
def copyWeights (given : WeightedRules α) (source target : Atom) : UnrollM α Unit := do
  copyWeight given (.pos source) (.pos target)
  copyWeight given (.neg source) (.neg target)

/-- Records a variant and gives it back. -/
def record (a : Atom) (v : Variant) : UnrollM α Variant := do
  modify fun s => s.record a v
  return v

/-- Takes a name for a variant with cuts; one without keeps the atom's own. -/
def nameVariant (a : Atom) (cuts : List Atom) : UnrollM α Atom := do
  if cuts.isEmpty then return a
  else
    let name := (← get).freshName a
    modify fun s => { s with taken := Ascending.insert name s.taken }
    return name

/-- Ends the building of an atom with the bodies that are left and the cuts that were made. -/
def finishAtom (given : WeightedRules α) (a : Atom) (bodies : List Body) (cuts : List Atom) :
    UnrollM α Variant := do
  match (← get).lookup a cuts with
  | some v => return v
  | none =>
    if bodies.isEmpty then
      modify fun s => s.report (.eliminated a cuts)
      record a ⟨none, cuts⟩
    else
      let name ← nameVariant a cuts
      modify fun s => s.report (.built a name cuts)
      copyWeights given a name
      modify fun s => s.addRules name bodies
      record a ⟨some name, cuts⟩

/-! ### Resolving bodies -/

/-- What became of a body: it is left with literals on variants, or lost. The cuts say
to which ancestors this is due. -/
inductive Fate where
  | kept (body : Body) (cuts : List Atom)
  | lost (cuts : List Atom)
  deriving DecidableEq, Repr

/-- Resolves the literals of a body in turn, up to one that is eliminated. `body` and
`cuts` are what the literals before have left. -/
def resolveBody (resolve : Literal → UnrollM α (Resolved × List Atom)) :
    List Literal → Body → List Atom → UnrollM α Fate
  | [], body, cuts => return .kept body cuts
  | l :: ls, body, cuts => do
    match ← resolve l with
    | (.variant m, c) => resolveBody resolve ls (Ascending.insert m body) (Ascending.union cuts c)
    | (.vacuous, _) => resolveBody resolve ls body cuts
    | (.eliminated, c) => return .lost c

/-- The ancestors that a body needs. -/
def closedLoops (ancestors : List Atom) (body : Body) : List Atom :=
  Ascending.ofList ((body.filter fun l => l.positive && l.atom ∈ ancestors).map Literal.atom)

/-- Resolves the bodies in turn. The result has the bodies that are left and all cuts. -/
def resolveBodies (resolve : Literal → UnrollM α (Resolved × List Atom)) (ancestors : List Atom) :
    List Body → UnrollM α (List Body × List Atom)
  | [] => return ([], [])
  | b :: bs => do
    let loops := closedLoops ancestors b
    let fate ← if loops.isEmpty then resolveBody resolve b [] [] else pure (.lost loops)
    let (bodies, cuts) ← resolveBodies resolve ancestors bs
    match fate with
    | .kept body c => return (body :: bodies, Ascending.union c cuts)
    | .lost c => return (bodies, Ascending.union c cuts)

/-! ### Expanding atoms -/

/-- Runs steps while an expansion is open. It is closed again also if they stop. -/
def whileBuilding {β : Type} (a : Atom) (ancestors : List Atom) (steps : UnrollM α β) :
    UnrollM α β :=
  ExceptT.mk do
    modify fun s => { s with building := (a, ancestors) :: s.building }
    let result ← steps.run
    modify fun s => { s with building := s.building.tail }
    return result

/-- Resolves a literal below ancestors, given how atoms are expanded. -/
def resolveBy (expand : Atom → List Atom → UnrollM α Variant) (ancestors : List Atom)
    (l : Literal) : UnrollM α (Resolved × List Atom) := do
  let v ← expand l.atom (if l.positive then ancestors else [])
  return (v.resolve l, v.cuts)

/-- The variant of an atom below ancestors, built unless there is one, with the steps `reenter`
for an atom that is met with the ancestors of an open expansion of itself. At most `depth`
expansions are nested. -/
def expandOr (given : WeightedRules α) (reenter : Atom → List Atom → UnrollM α Variant) :
    Nat → Atom → List Atom → UnrollM α Variant
  | 0, _, _ => throw .exhausted
  | depth + 1, a, ancestors => do
    match (← get).lookup a ancestors with
    | some v => return v
    | none =>
      if (a, ancestors) ∈ (← get).building then reenter a ancestors
      else if given.rules.contains a then
        let inner := Ascending.insert a ancestors
        let (bodies, cuts) ← whileBuilding a ancestors
          (resolveBodies (resolveBy (expandOr given reenter depth) inner) ancestors
            (given.rules.bodies a))
        finishAtom given a bodies (Ascending.remove a cuts)
      else
        copyWeights given a a
        record a ⟨some a, []⟩

/-- An atom that is met while it is being built stands for itself, and is pending. -/
def awaitItself (a : Atom) (_ancestors : List Atom) : UnrollM α Variant := do
  modify fun s => { s with pending := Ascending.insert a s.pending }
  return ⟨some a, []⟩

/-- The variant of an atom below ancestors. At most `depth` expansions are nested. -/
def expand (given : WeightedRules α) (depth : Nat) : Atom → List Atom → UnrollM α Variant :=
  expandOr given awaitItself depth

/-- How many expansions are nested at most: one for each pair of a head and a set of
heads, and one below. -/
def depthBound (rules : RuleBase) : Nat :=
  rules.heads.length * Nat.pow 2 rules.heads.length + 1

/-- Resolves a literal at the top, without ancestors. An atom without a derivation there
can never hold. -/
def resolveSeed (given : WeightedRules α) (l : Literal) : UnrollM α Resolved := do
  let (resolved, _) ← resolveBy (expand given (depthBound given.rules)) [] l
  match resolved with
  | .variant _ => return resolved
  | _ =>
    modify fun s =>
      { s.report (.underivable l.atom) with falsified := Ascending.insert l.atom s.falsified }
    return resolved

/-- Resolves literals in turn. -/
def resolveSeeds (given : WeightedRules α) (seeds : List Literal) : UnrollM α Unit :=
  seeds.forM fun l => discard (resolveSeed given l)

/-- Runs steps on a state. -/
def runOn {β : Type} (steps : UnrollM α β) (s : Unrolling α) : Except Stop β × Unrolling α :=
  (ExceptT.run steps).run s

end UnrollM

/-! ### The result -/

/-- Rules without positive loops. -/
structure Unlooped (α : Type) where
  program : WeightedRules α
  /-- The evidence on all variants of its atoms. -/
  evidence : List Literal
  /-- The atoms that can never hold. -/
  falsified : List Atom

/-- What the end of an unrolling reports. -/
def Unlooped.events (u : Unlooped α) : List (Event α) :=
  [.acyclicRules u.program.rules, .spreadEvidence u.evidence]

namespace Unrolling

/-- The literals that evidence on a literal amounts to: the literal on every name of its
atom. -/
def spreadEvidence (s : Unrolling α) (l : Literal) : List Literal :=
  let names := Ascending.ofList ((s.variantsOf l.atom).filterMap Variant.name)
  if names.isEmpty then [l] else names.map l.withAtom

/-- The result of an unrolling. A pending atom that has got no rules can never hold. -/
def finish (s : Unrolling α) (evidence : List Literal) : Unlooped α where
  program := s.built
  evidence := Ascending.ofList (evidence.flatMap s.spreadEvidence)
  falsified := Ascending.union s.falsified (s.pending.filter fun a => !s.built.rules.contains a)

end Unrolling

/-- Breaks the positive loops that queries and evidence reach, and tells what was
reported on the way. -/
def WeightedRules.breakLoops (given : WeightedRules α) (queries evidence : List Literal) :
    Except Stop (Unlooped α) × List (Event α) :=
  match (UnrollM.resolveSeeds given (queries ++ evidence)).runOn (.start given) with
  | (.error e, s) => (.error e, s.log.toList)
  | (.ok (), s) =>
    let result := s.finish evidence
    (.ok result, s.log.toList ++ result.events)

end ProbLogic
