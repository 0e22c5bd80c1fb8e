import ClosureConversion.Diagnostic.Render
import ClosureConversion.Proofs.Agreement
import ClosureConversion.Proofs.BoundFunctions
import ClosureConversion.Proofs.Captures
import ClosureConversion.Proofs.Carriers
import ClosureConversion.Proofs.Clients
import ClosureConversion.Proofs.Closing
import ClosureConversion.Proofs.Compatibility
import ClosureConversion.Proofs.CompiledOnce
import ClosureConversion.Proofs.Conversion
import ClosureConversion.Proofs.Counterparts
import ClosureConversion.Proofs.Counters
import ClosureConversion.Proofs.Coupling
import ClosureConversion.Proofs.Declared
import ClosureConversion.Proofs.Eagerness
import ClosureConversion.Proofs.Failures
import ClosureConversion.Proofs.Forest
import ClosureConversion.Proofs.FreeValues
import ClosureConversion.Proofs.FrontEnd
import ClosureConversion.Proofs.HeadTypes
import ClosureConversion.Proofs.Layouts
import ClosureConversion.Proofs.LexicalScoping
import ClosureConversion.Proofs.LinePositions
import ClosureConversion.Proofs.Liveness
import ClosureConversion.Proofs.Marking
import ClosureConversion.Proofs.Operators
import ClosureConversion.Proofs.Positions
import ClosureConversion.Proofs.Process
import ClosureConversion.Proofs.Protocol
import ClosureConversion.Proofs.Provision
import ClosureConversion.Proofs.Rejections
import ClosureConversion.Proofs.Relabelling
import ClosureConversion.Proofs.Related
import ClosureConversion.Proofs.Renaming
import ClosureConversion.Proofs.Replacement
import ClosureConversion.Proofs.ReportedInputs
import ClosureConversion.Proofs.Requests
import ClosureConversion.Proofs.RoundTrip
import ClosureConversion.Proofs.Segmentation
import ClosureConversion.Proofs.Settled
import ClosureConversion.Proofs.ShapeIdentity
import ClosureConversion.Proofs.Simulation
import ClosureConversion.Proofs.Speculation
import ClosureConversion.Proofs.Step
import ClosureConversion.Proofs.Symbolic
import ClosureConversion.Proofs.Translation
import ClosureConversion.Proofs.Twins
import ClosureConversion.Proofs.TypeText
import ClosureConversion.Proofs.VariableReads
import ClosureConversion.Proofs.Verified
import ClosureConversion.Proofs.WellFormed
import ClosureConversion.Proofs.WordArithmetic
import ClosureConversion.Session.Finalize
import ClosureConversion.Value.Render
