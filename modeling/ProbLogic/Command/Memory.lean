/-
# A host in memory

A directory with files as a value. A path is taken relative to the directory;
empty parts and `.` are ignored. Every proper initial part of a file's path is
a directory. There is nothing outside.

Key definitions:
* `Memory`
* `Memory.host`
-/
import ProbLogic.Command.Run

namespace ProbLogic

/-- Standard input, files by the parts of their paths, and what has been printed so far. -/
structure Memory where
  input : String
  files : List (List String × String)
  output : String
  notes : String

namespace Memory

/-- The parts of a path. -/
def parts (path : String) : List String :=
  ((Text.pieces (· == '/') path.toList).map String.ofList).filter fun p => p ≠ "" ∧ p ≠ "."

/-- The text of a file. -/
def get? (s : Memory) (path : List String) : Option String := s.files.lookup path

/-- Whether a path is the directory itself or one in it. -/
def isDirectory (s : Memory) (path : List String) : Bool :=
  path.isEmpty || s.files.any fun f => path.isPrefixOf f.1 && path ≠ f.1

/-- Why there is no file at a path whose parts are not a directory. -/
def absence (s : Memory) (path : List String) : FileError :=
  if s.files.any fun f => f.1.isPrefixOf path && path ≠ f.1 then .notADirectory else .noSuchFile

/-- Reads a file. -/
def read (s : Memory) (path : String) : Except FileError String :=
  if path.isEmpty then .error .noSuchFile
  else if s.isDirectory (parts path) then .error .isDirectory
  else match s.get? (parts path) with
    | some text => .ok text
    | none => .error (s.absence (parts path))

/-- Writes a file in a directory that exists. A path that ends with a slash names no file. -/
def write (s : Memory) (path text : String) : Except FileError Memory :=
  let p := parts path
  if path.isEmpty then .error .noSuchFile
  else if s.isDirectory p then .error .isDirectory
  else if !s.isDirectory p.dropLast then .error (s.absence p)
  else if path.toList.getLast? = some '/' then .error .isDirectory
  else .ok { s with files := (p, text) :: s.files.filter fun f => f.1 ≠ p }

/-- The host of a directory in memory. -/
def host : Host (StateM Memory) where
  input := return (← get).input
  read path := return (← get).read path
  write path text := do
    match (← get).write path text with
    | .ok s => do
      set s
      return .ok ()
    | .error e => return .error e
  print text := modify fun s => { s with output := s.output ++ text }
  note text := modify fun s => { s with notes := s.notes ++ text }

end Memory
end ProbLogic
