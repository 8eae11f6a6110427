import RiskGate.Main
import RiskGate.Proofs.CallGraph.Depth
import RiskGate.Proofs.CallGraph.Session
import RiskGate.Proofs.Features.Merging
import RiskGate.Proofs.Features.Batch
import RiskGate.Proofs.Binary64.Order
import RiskGate.Proofs.CallGraph.Construction
import RiskGate.Proofs.Binary64.Arithmetic
import RiskGate.Proofs.Policy.Monotonicity
import RiskGate.Proofs.Features.Rearrangement
import RiskGate.Proofs.CallGraph.Names
import RiskGate.Proofs.Report.RoundTrip
import RiskGate.Proofs.Report.Failures
import RiskGate.Proofs.CommandLine.ExitCodes
import RiskGate.Proofs.Policy.Justification
import RiskGate.Proofs.Features.Interactions
import RiskGate.Proofs.Features.CallCounts
import RiskGate.Proofs.Features.Footprint
import RiskGate.Proofs.Features.Rejection
import RiskGate.Proofs.Policy.Absence
import RiskGate.Proofs.Risk.ExactScore
import RiskGate.Proofs.Policy.Advice
import RiskGate.Proofs.Risk.Importance
import RiskGate.Proofs.Policy.Naming
import RiskGate.Proofs.Profile.Loading
import RiskGate.Proofs.CallGraph.Coverage
import RiskGate.Proofs.Facts.Documents
import RiskGate.Proofs.Listing.Normalized
import RiskGate.Proofs.Report.Lines
