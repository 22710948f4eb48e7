/-
# The command

The command reads a program, compiles it and prints the CNF in DIMACS, after
comment lines with the queries and the evidence. Weights and numbers are
written to files on demand. What it needs of its surroundings is a host, so
the same steps run on the real file system and on one in memory.

Key definitions:
* `Host` : input, output and files.
* `Failure`, `Failure.text`
* `Command.compileText` : from text to a problem.
* `Command.run` : the whole command, with its exit code.
-/
import ProbLogic.Command.Options
import ProbLogic.Problem
import ProbLogic.Weights.Text

namespace ProbLogic

/-- Why a file cannot be used. -/
inductive FileError where
  | noSuchFile
  | isDirectory
  | notADirectory
  /-- Anything else, in the words of the host. -/
  | other (text : String)
  deriving DecidableEq, Repr

/-- The words of an error. -/
def FileError.message : FileError → String
  | noSuchFile => "No such file or directory (os error 2)"
  | isDirectory => "Is a directory (os error 21)"
  | notADirectory => "Not a directory (os error 20)"
  | other text => text

/-- Input, output and files. -/
structure Host (m : Type → Type) where
  /-- All of standard input. -/
  input : m String
  /-- The text of a file. -/
  read : String → m (Except FileError String)
  /-- Replaces the text of a file. -/
  write : String → String → m (Except FileError Unit)
  /-- Adds to standard output. -/
  print : String → m Unit
  /-- Adds to standard error. -/
  note : String → m Unit

/-- Why the command fails. -/
inductive Failure where
  | parsing (e : ParseError)
  | program (e : ProgramError Float)
  | stopped (e : Stop)
  | reading (path : String) (e : FileError)
  | writing (path : String) (e : FileError)

/-- An error in the context in which it came up. -/
def Failure.inContext (context message : String) : String :=
  context ++ "\n\nCaused by:\n    " ++ message

/-- The words of a failure. -/
def Failure.text : Failure → String
  | parsing e => inContext "Parsing program" e.message
  | program e => e.message
  | stopped e => e.message
  | reading path e => inContext ("Reading " ++ path) e.message
  | writing path e => inContext ("Writing " ++ path) e.message

/-- The CNF in DIMACS, after comment lines with the queries and the evidence. -/
def Problem.text {α : Type} (p : Problem α) : String :=
  String.join (p.queries.map fun v => s!"c query {v}\n") ++
    String.join (p.evidence.map fun v => s!"c evidence {v}\n") ++ p.compilation.cnf.text

namespace Command

/-- Compiles a program's text with further queries and evidence, and tells what was
reported on the way. -/
def compileText (o : Options) (text : String) :
    Except Failure (Problem Float) × List (Event Float) :=
  match parseProgram text with
  | .error e => (.error (.parsing e), [.source text])
  | .ok statements =>
    match Program.ofStatements statements with
    | .error e => (.error (.program e), [.source text])
    | .ok program =>
      let asked := o.evidence.foldl Program.addEvidence (o.queries.foldl Program.addQuery program)
      let (result, events) := asked.compile
      (result.mapError .stopped, .source text :: program.events ++ events)

variable {m : Type → Type} [Monad m]

/-- The text of the program. -/
def readProgram (host : Host m) (o : Options) : ExceptT Failure m String :=
  match o.file with
  | none | some "-" => host.input
  | some path => ExceptT.mk do return (← host.read path).mapError (.reading path)

/-- Writes a text to a file, if one is asked for. -/
def writeTo (host : Host m) (path : Option String) (text : String) : ExceptT Failure m Unit :=
  match path with
  | none => return ()
  | some path => ExceptT.mk do return (← host.write path text).mapError (.writing path)

/-- The steps of the command, up to the first failure. -/
def steps (host : Host m) (o : Options) : ExceptT Failure m Unit := do
  let text ← readProgram host o
  let (result, events) := compileText o text
  host.note (Event.trace o.levels events)
  let problem ← ExceptT.mk (pure result)
  host.print problem.text
  writeTo host o.weights problem.compilation.weights.text
  writeTo host o.numbering problem.compilation.numbering.text

/-- Runs the command; the exit code is 1 after a failure. -/
def run (host : Host m) (o : Options) : m Nat := do
  match ← (steps host o).run with
  | .ok () => return 0
  | .error e => do
    host.note ("Error: " ++ e.text ++ "\n")
    return 1

end Command
end ProbLogic
