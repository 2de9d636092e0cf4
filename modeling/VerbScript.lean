import VerbScript.Machine.Fuel
import VerbScript.Main
import VerbScript.Proofs.Appending
import VerbScript.Proofs.Block.Correct
import VerbScript.Proofs.Causality
import VerbScript.Proofs.DepthLimit
import VerbScript.Proofs.FrameLimit
import VerbScript.Proofs.Halting.CleanEnd
import VerbScript.Proofs.Halting.Frozen
import VerbScript.Proofs.HostStack
import VerbScript.Proofs.Jumps
import VerbScript.Proofs.Labels
import VerbScript.Proofs.Listing.Programs
import VerbScript.Proofs.Listing.Values
import VerbScript.Proofs.Locals
import VerbScript.Proofs.Matching
import VerbScript.Proofs.Number.Conversions
import VerbScript.Proofs.Number.Decimals
import VerbScript.Proofs.Number.Rational
import VerbScript.Proofs.Number.ReadBack
import VerbScript.Proofs.Number.Rounding
import VerbScript.Proofs.Places.Items
import VerbScript.Proofs.Places.Lines
import VerbScript.Proofs.Places.Run
import VerbScript.Proofs.Places.Text
import VerbScript.Proofs.Reachable
import VerbScript.Proofs.ReturnValue
import VerbScript.Proofs.Spacing.Run
import VerbScript.Proofs.Syntax.Denotation
import VerbScript.Proofs.Syntax.Groups
import VerbScript.Proofs.Syntax.Precedence
import VerbScript.Proofs.Syntax.Statements
import VerbScript.Proofs.Termination
import VerbScript.Proofs.Transparency
import VerbScript.Proofs.Values
