import SymLift.Identity
import SymLift.IR.Expr.Json
import SymLift.Json.Writer
import SymLift.Solver
import SymLift.Summary.Script
import SymLift.Proofs.Enumeration
import SymLift.Proofs.Needs
import SymLift.Proofs.Constants
import SymLift.Proofs.Meaning
import SymLift.Proofs.KnownCalls
import SymLift.Proofs.Executions
import SymLift.Proofs.StringLength
import SymLift.Proofs.StringOutput
import SymLift.Proofs.Typing
import SymLift.Proofs.Policies
import SymLift.Proofs.Atomicity
import SymLift.Proofs.OutputOrder
import SymLift.Proofs.ConcreteMemory
import SymLift.Proofs.Sessions
import SymLift.Proofs.TreeJson
import SymLift.Proofs.Comparisons
import SymLift.Proofs.CopiedFlags
import SymLift.Proofs.OperatorMeaning
import SymLift.Proofs.OperatorLimits
import SymLift.Proofs.PinnedPointers
import SymLift.Proofs.ArgumentPlaces
import SymLift.Proofs.WideLoads
import SymLift.Proofs.ResolvedAddresses
import SymLift.Proofs.Choices
import SymLift.Proofs.Rejections
import SymLift.Proofs.Dependence
import SymLift.Proofs.ByteReversal
