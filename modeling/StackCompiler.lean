import StackCompiler.Bytecode.Writer
import StackCompiler.Graph.Listing
import StackCompiler.Linear.Listing
import StackCompiler.Machine.Shorthand
import StackCompiler.Main
import StackCompiler.Proofs.Assignment
import StackCompiler.Proofs.CleanupForm
import StackCompiler.Proofs.LowerMeaning
import StackCompiler.Proofs.ProtectedCalls
import StackCompiler.Proofs.ScanCoverage
import StackCompiler.Proofs.BranchCode
import StackCompiler.Proofs.LoopStops
import StackCompiler.Proofs.BundleAlignment
import StackCompiler.Proofs.CompileFailures
import StackCompiler.Proofs.CodeRoots
import StackCompiler.Proofs.FailedRequests
import StackCompiler.Proofs.StopTables
import StackCompiler.Proofs.TerminatorCode
import StackCompiler.Proofs.Descriptors
import StackCompiler.Proofs.DrainPrediction
import StackCompiler.Proofs.Frames
import StackCompiler.Proofs.HexText
