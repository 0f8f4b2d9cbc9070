import CallScript.Main
import CallScript.Proofs.Nested
import CallScript.Proofs.Run.Preflight
import CallScript.Proofs.Run.Composition
import CallScript.Proofs.Run.Transcript
import CallScript.Proofs.Assembly.Canonical
import CallScript.Proofs.Assembly.Tokens
import CallScript.Proofs.Text
import CallScript.Proofs.Assembly.Reassembly
import CallScript.Proofs.Codec
import CallScript.Proofs.ReadOnly
import CallScript.Proofs.Ledger
import CallScript.Proofs.Bookings
import CallScript.Proofs.Conservation
import CallScript.Proofs.Supply
import CallScript.Proofs.Authority
import CallScript.Proofs.Machine
import CallScript.Proofs.Termination
import CallScript.Proofs.Abi.Exactness
import CallScript.Proofs.Run.Echo
import CallScript.Proofs.Arithmetic
import CallScript.Proofs.Overlays
import CallScript.Proofs.Abi.Splicing
import CallScript.Proofs.Assembly.Acceptance
import CallScript.Proofs.Assembly.Scanning
import CallScript.Proofs.Assembly.Location
import CallScript.Proofs.Assembly.Layout
import CallScript.Proofs.Assembly.Quoting
import CallScript.Proofs.Assembly.Sizes
import CallScript.Proofs.Loading
import CallScript.Proofs.Assembly.Integers
import CallScript.Proofs.Assembly.Strings
import CallScript.Proofs.Frames
import CallScript.Proofs.Payment
import CallScript.Proofs.Assembly.References
