/-
# The options of the command

At most one file, and options with a value. A value follows its option or is
attached to it: `--query=a`, `-q a`, `-qa`, `-q=a`. After `--` every argument
is a file. A value may start with a hyphen only where it is a literal, or if it
is the hyphen alone.

Key definitions:
* `Options`
* `Options.parse?` : the options of a list of arguments.
-/
import ProbLogic.Event
import ProbLogic.Statement.Parser

namespace ProbLogic

/-- What the command is asked to do. -/
structure Options where
  /-- The program; standard input if there is none. -/
  file : Option String
  /-- The file for the weights. -/
  weights : Option String
  /-- The file for the numbers of the variables. -/
  numbering : Option String
  queries : List Literal
  evidence : List Literal
  levels : List Level
  deriving Repr

namespace Options

/-- Nothing is asked for. -/
def default : Options := ⟨none, none, none, [], [], []⟩

/-- An option with a value. -/
inductive Setting where
  | weights
  | numbering
  | query
  | evidence
  | level
  deriving DecidableEq, Repr

/-- The option of a word after two hyphens. -/
def Setting.ofWord? : String → Option Setting
  | "weights" => some weights
  | "translation" => some numbering
  | "query" => some query
  | "evidence" => some evidence
  | "trace" => some level
  | _ => none

/-- The option of a letter after one hyphen. -/
def Setting.ofLetter? : Char → Option Setting
  | 'q' => some query
  | 'e' => some evidence
  | 't' => some level
  | _ => none

/-- Whether an argument can be the value of an option that it follows. -/
def Setting.accepts (s : Setting) (arg : String) : Bool :=
  s = query || s = evidence || arg = "-" || arg.toList.head? ≠ some '-'

/-- Sets a path that is not empty, once. -/
def setPath? (old : Option String) (path : String) : Option (Option String) :=
  if old.isSome || path.isEmpty then none else some (some path)

/-- Sets an option. -/
def set? (o : Options) (s : Setting) (value : String) : Option Options :=
  match s with
  | .weights => (setPath? o.weights value).map fun weights => { o with weights }
  | .numbering => (setPath? o.numbering value).map fun numbering => { o with numbering }
  | .query =>
    (Literal.parse value).toOption.map fun l => { o with queries := o.queries ++ [l] }
  | .evidence =>
    (Literal.parse value).toOption.map fun l => { o with evidence := o.evidence ++ [l] }
  | .level => (Level.ofName? value).map fun l => { o with levels := o.levels ++ [l] }

/-- Sets the file. -/
def setFile? (o : Options) (path : String) : Option Options :=
  (setPath? o.file path).map fun file => { o with file }

/-- What an argument is by its own text. -/
inductive Argument where
  | file (path : String)
  /-- The arguments after it are files. -/
  | separator
  /-- An option with its value attached, or without one. -/
  | option (setting : Setting) (value : Option String)
  | unknown
  deriving DecidableEq, Repr

/-- Reads an argument by itself. -/
def Argument.ofString (arg : String) : Argument :=
  match arg.toList with
  | ['-', '-'] => separator
  | '-' :: '-' :: cs =>
    let word := cs.takeWhile (· ≠ '=')
    match Setting.ofWord? (String.ofList word), cs.drop word.length with
    | some s, [] => option s none
    | some s, _ :: value => option s (some (String.ofList value))
    | none, _ => unknown
  | '-' :: c :: cs =>
    match Setting.ofLetter? c, cs with
    | some s, [] => option s none
    | some s, '=' :: value => option s (some (String.ofList value))
    | some s, value => option s (some (String.ofList value))
    | none, _ => unknown
  | _ => file arg

/-- Adds what a list of arguments says. -/
def add? (o : Options) : List String → Option Options
  | [] => some o
  | arg :: args =>
    match Argument.ofString arg with
    | .file path => do (← o.setFile? path).add? args
    | .separator => args.foldlM setFile? o
    | .option s (some value) => do (← o.set? s value).add? args
    | .option s none =>
      match args with
      | [] => none
      | value :: args => do
        guard (s.accepts value)
        (← o.set? s value).add? args
    | .unknown => none

/-- The options of a list of arguments, unless it misuses them. -/
def parse? (args : List String) : Option Options := default.add? args

end Options
end ProbLogic
