import RobotScript.Main
import RobotScript.Proofs.ArrayLayout
import RobotScript.Proofs.DeadBranches
import RobotScript.Proofs.Diagnosis
import RobotScript.Proofs.Disassembly
import RobotScript.Proofs.Emission
import RobotScript.Proofs.Gotos
import RobotScript.Proofs.Patching
import RobotScript.Proofs.Positions
import RobotScript.Proofs.Progress
import RobotScript.Proofs.RangeLoops
import RobotScript.Proofs.ReservedWords
import RobotScript.Proofs.RisingEdges
import RobotScript.Proofs.ScaledArithmetic
