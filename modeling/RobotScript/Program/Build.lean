/-
# From lines to a program

The lines of a script are paired up to routines, which are laid out, typed
and folded.

Key definitions: `Program.ofLines`.
-/
import RobotScript.Program.Allocation
import RobotScript.Routine.Blocks
import RobotScript.Settings
import RobotScript.Stmt.Folding
import RobotScript.Stmt.Typing

namespace RobotScript

namespace Routine

/-- The routine with the types of its expressions. -/
def typed (c : Calls) (r : Routine) : Result Routine :=
  return { r with body := ← Stmt.typedBlock c r.body }

/-- The routine, folded. -/
def fold (r : Routine) : Result Routine :=
  return { r with body := ← Stmt.foldBlock r.kind.ret? r.body }

end Routine

/-- The program that lines make up. -/
def Program.ofLines (node : Node) (settings : Settings) (lines : List Line) : Result Program := do
  let language := settings.language
  let routines ← Routine.ofLines language lines
  let (routines, allocation) ← Routine.layAll node language routines
  let routines ← routines.mapM (Routine.typed ⟨allocation.functions, language, node⟩)
  let routines ← routines.mapM Routine.fold
  return ⟨routines, allocation.layout.moduleTop⟩

end RobotScript
