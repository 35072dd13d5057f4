/-
# The command

`main` gives the command line its files and shows what comes of it.
-/
import RobotScript.CommandLine.Run

namespace RobotScript.CommandLine

/-- Why an operation on a file failed, as the operating system says. -/
def reasonOf (e : IO.Error) : String :=
  match e with
  | .noFileOrDirectory _ code details | .permissionDenied _ code details
  | .inappropriateType _ code details | .invalidArgument _ code details
  | .alreadyExists _ code details | .resourceExhausted _ code details
  | .noSuchThing _ code details =>
    details ++ " (os error " ++ toString code ++ ")"
  | e => toString e

/-- An operation on a file, with its failure as a reason. -/
def attempt {α : Type} (operation : IO α) : IO (Except String α) := do
  try return .ok (← operation)
  catch e => return .error (reasonOf e)

/-- The files of the operating system. -/
def osFiles : Files IO where
  read file := attempt (IO.FS.readFile file)
  write file text := attempt (IO.FS.writeFile file text)

end RobotScript.CommandLine

open RobotScript CommandLine in
def main (args : List String) : IO UInt32 := do
  let outcome ← execute osFiles args
  (← IO.getStdout).putStr outcome.output
  match outcome.failure with
  | none => return 0
  | some failure =>
    (← IO.getStderr).putStrLn failure.message
    return 1
