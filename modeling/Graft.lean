import Graft.Logging
import Graft.Proofs.Expansion.Ending
import Graft.Proofs.Expansion.Failure
import Graft.Proofs.Registry.History
import Graft.Proofs.Relocation.Again
import Graft.Proofs.Run.Again
import Graft.Proofs.Run.InPlace
import Graft.Proofs.Run.Reports
import Graft.Proofs.Sexp.Directives
import Graft.Proofs.Sexp.Recognition
import Graft.Proofs.Sexp.RoundTrip
import Graft.Proofs.Sink.Shared
import Graft.Proofs.Text.Positions
import Graft.Proofs.Tree.Additions
import Graft.Proofs.Tree.Preorder
import Graft.Proofs.Walk.Anchors
import Graft.Proofs.Walk.Budget
import Graft.Proofs.Walk.Cursor
import Graft.Proofs.Walk.Termination
import Graft.Proofs.Sexp.Spelling
import Graft.Proofs.Sexp.CheckedSpans
import Graft.Proofs.Sexp.Located
import Graft.Proofs.Sexp.Segments
import Graft.Proofs.Sexp.Attachment
import Graft.Proofs.Directive.Groups
import Graft.Proofs.Discovery.Walks
import Graft.Proofs.Sink.Contents
import Graft.Proofs.Sexp.LineEndings
import Graft.Proofs.Text.Offsets
import Graft.Proofs.Walk.Place
import Graft.Proofs.Run.Written
