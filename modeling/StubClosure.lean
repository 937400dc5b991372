import StubClosure.Text.Lines
import StubClosure.Listing.Load
import StubClosure.Closure.Run
import StubClosure.Json.Write
import StubClosure.Sha256
import StubClosure.Listing.Parse
import StubClosure.Manifest
import StubClosure.Batch
import StubClosure.CommandLine.Run
import StubClosure.Main
import StubClosure.Proofs.Closure.Again
import StubClosure.Proofs.Closure.Exposure
import StubClosure.Proofs.Closure.Repass
import StubClosure.Proofs.Closure.Safety
import StubClosure.Proofs.Closure.Noninterference
import StubClosure.Proofs.Listing.Errors
import StubClosure.Proofs.Closure.Reports
import StubClosure.Proofs.Program.Atomicity
import StubClosure.Proofs.Program.Consistent
import StubClosure.Proofs.Listing.Names
import StubClosure.Proofs.Closure.Manifest
import StubClosure.Proofs.Closure.Scanned
import StubClosure.Proofs.Closure.Sources
import StubClosure.Proofs.Closure.Reordered
import StubClosure.Proofs.Closure.Modes
import StubClosure.Proofs.Closure.Operands
import StubClosure.Proofs.Batch.Schedule
import StubClosure.Proofs.CommandLine.Joint
import StubClosure.Proofs.StubSet.History
import StubClosure.Proofs.Session.Folding
import StubClosure.Proofs.Session.Resolution
import StubClosure.Proofs.Session.Transparent
import StubClosure.Proofs.Closure.Reencoding
import StubClosure.Proofs.TypeName
import StubClosure.Proofs.SourceSet.Gathered
import StubClosure.Proofs.Listing.Gap
import StubClosure.Proofs.Listing.Rendered
import StubClosure.Proofs.Json.Written
