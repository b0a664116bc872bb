import ArgFill.Main
import ArgFill.Session
import ArgFill.Proofs.Idempotence
import ArgFill.Proofs.LeftOut
import ArgFill.Proofs.Spinning
import ArgFill.Proofs.Replay
import ArgFill.Proofs.Provenance
import ArgFill.Call.Search
import ArgFill.Proofs.Search
import ArgFill.Proofs.Attribution
import ArgFill.Proofs.Completion
import ArgFill.Proofs.Locality
import ArgFill.Proofs.Indentation
import ArgFill.Proofs.Measure
import ArgFill.Proofs.Modes
import ArgFill.Proofs.Skips
import ArgFill.Proofs.OnePass
import ArgFill.Proofs.Chain
import ArgFill.Proofs.Independent
import ArgFill.Proofs.FoundAgain
import ArgFill.Proofs.KeyPlaces
import ArgFill.Proofs.NameBoundary
import ArgFill.Proofs.AnchorLine
import ArgFill.Proofs.Replacement
import ArgFill.Proofs.Lines
import ArgFill.Proofs.Listing
import ArgFill.Proofs.Parts
import ArgFill.Proofs.CallsChanged
import ArgFill.Proofs.Acceptance
import ArgFill.Proofs.Waiting
