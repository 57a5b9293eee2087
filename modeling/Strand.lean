import Strand.Code.Agreement
import Strand.CommandLine
import Strand.Main
import Strand.Proofs.Accumulators.Paths
import Strand.Proofs.Assignability
import Strand.Proofs.Balance
import Strand.Proofs.Balance.Loops
import Strand.Proofs.Balance.Matches
import Strand.Proofs.Balance.Nodes
import Strand.Proofs.BlockExit
import Strand.Proofs.BranchTypes
import Strand.Proofs.CallArity
import Strand.Proofs.CaptureIndices
import Strand.Proofs.Capturing
import Strand.Proofs.ConstantGlobals
import Strand.Proofs.Emission
import Strand.Proofs.EnumViews
import Strand.Proofs.FrameCondition.Visited
import Strand.Proofs.FunctionHeaders
import Strand.Proofs.Holding
import Strand.Proofs.Inference
import Strand.Proofs.JumpIntegrity
import Strand.Proofs.Meaning.Agreement
import Strand.Proofs.Meaning.Bodies
import Strand.Proofs.Meaning.Branches
import Strand.Proofs.Meaning.Evaluator
import Strand.Proofs.Meaning.Functions
import Strand.Proofs.Meaning.LoopForms
import Strand.Proofs.Meaning.Loops
import Strand.Proofs.Meaning.Values
import Strand.Proofs.Naming
import Strand.Proofs.Operands
import Strand.Proofs.OwnParameters
import Strand.Proofs.PrintedMarks
import Strand.Proofs.Privacy
import Strand.Proofs.Reads
import Strand.Proofs.Receiver
import Strand.Proofs.Reencoding
import Strand.Proofs.RoundTrip
import Strand.Proofs.StackDiscipline
import Strand.Proofs.StoredTypes
import Strand.Proofs.Translation.Access
import Strand.Proofs.Translation.Branches
import Strand.Proofs.Translation.Loops
import Strand.Proofs.Translation.Visited
import Strand.Proofs.Traversal
import Strand.Proofs.TypeChecking
import Strand.Proofs.TypeGrammar
import Strand.Proofs.TypeText
import Strand.Proofs.Variables
import Strand.Ty.Describe
