/-
# The command line

`main` runs the command on the real standard streams and files. Arguments that
misuse the options end it with the exit code 2.
-/
import ProbLogic.Command.Run

namespace ProbLogic
namespace Command

/-- An error of the file system in the words of the command. -/
def fileError : IO.Error → FileError
  | .noFileOrDirectory .. => .noSuchFile
  | e => .other (toString e)

/-- Runs a file operation. -/
def attempt {β : Type} (act : IO β) : IO (Except FileError β) := do
  try return .ok (← act) catch e => return .error (fileError e)

/-- The real file system and streams. -/
def systemHost : Host IO where
  input := do (← IO.getStdin).readToEnd
  read path := attempt (IO.FS.readFile path)
  write path text := attempt (IO.FS.writeFile path text)
  print text := do (← IO.getStdout).putStr text
  note text := do (← IO.getStderr).putStr text

end Command
end ProbLogic

/-- Compiles a program to a weighted CNF. -/
def main (args : List String) : IO UInt32 := do
  match ProbLogic.Options.parse? args with
  | none => do
    (← IO.getStderr).putStr
      ("Usage: [--weights PATH] [--translation PATH] [-q|--query LIT]... [-e|--evidence LIT]... " ++
        "[-t|--trace LEVEL]... [FILE]\n")
    return 2
  | some options => return (← ProbLogic.Command.run ProbLogic.Command.systemHost options).toUInt32
