import IndexSpace.Span.Survey
import IndexSpace.Session.Run
import IndexSpace.Proofs.RunStream.Merging
import IndexSpace.Proofs.RunStream.Midway
import IndexSpace.Proofs.Selection.Search
import IndexSpace.Proofs.Selection.Pieces
import IndexSpace.Proofs.Selection.Meaning
import IndexSpace.Proofs.Selection.Contiguity
import IndexSpace.Proofs.Selection.Representation
import IndexSpace.Proofs.Selection.Rearrangement
import IndexSpace.Proofs.Selection.Report
import IndexSpace.Proofs.Selection.Recovery
import IndexSpace.Proofs.Selection.Agreement
import IndexSpace.Proofs.Selection.Counting
import IndexSpace.Proofs.Selection.Refused
import IndexSpace.Proofs.Selection.Lifecycle
import IndexSpace.Proofs.Selection.Decomposition
import IndexSpace.Proofs.Session.Reading
import IndexSpace.Proofs.Session.Chronicle
import IndexSpace.Proofs.Checked.Session
