import Playground.Engine.Rehearsal
import Playground.Engine.Template
import Playground.Loader.Trace
import Playground.Main
import Playground.Resource
import Playground.Proofs.Loader.Answers
import Playground.Proofs.Loader.Coalescing
import Playground.Proofs.Loader.Settlement
import Playground.Proofs.Html.Lexing
import Playground.Proofs.Html.Scripts
import Playground.Proofs.Json.Quoting
import Playground.Proofs.Json.StringTable
import Playground.Proofs.Graph.CacheText
import Playground.Proofs.Graph.AppendedMarker
import Playground.Proofs.Graph.CacheMarkers
import Playground.Proofs.Html.Splice
import Playground.Proofs.Graph.IsolatedStage
import Playground.Proofs.Graph.Delivery
import Playground.Proofs.Html.Forest
import Playground.Proofs.Html.Attributes
import Playground.Proofs.Html.Places
import Playground.Proofs.Graph.Rendering
import Playground.Proofs.Graph.FixedPoint
import Playground.Proofs.Graph.TwoStages
import Playground.Proofs.Compile.Growth
import Playground.Proofs.Number.Interval
import Playground.Proofs.Number.Shortest
import Playground.Proofs.Worker.Conversation
import Playground.Proofs.Graph.MarkerText
import Playground.Proofs.Graph.Restored
import Playground.Proofs.Graph.StoredPass
import Playground.Proofs.Graph.UnrelatedMarker
import Playground.Proofs.Compile.History
import Playground.Proofs.Worker.Routing
import Playground.Proofs.Loader.Registration
import Playground.Proofs.Compile.Recovery
import Playground.Proofs.Worker.Sharing
import Playground.Proofs.Html.NestedEdits
import Playground.Proofs.Graph.Accounting
import Playground.Proofs.Html.LocalSplice
import Playground.Proofs.Html.SetAttribute
import Playground.Proofs.Compile.ErrorComment
import Playground.Proofs.Graph.Batches
import Playground.Proofs.Graph.Pieces
import Playground.Proofs.Graph.Substitution
import Playground.Proofs.Graph.MarkerTables
import Playground.Proofs.Graph.Restoration
import Playground.Proofs.Language.Literal
import Playground.Proofs.Graph.DataUris
import Playground.Proofs.Engine.Gnuplot
import Playground.Proofs.Html.Concatenation
import Playground.Proofs.Engine.Scratch
import Playground.Proofs.Graph.Hints
import Playground.Proofs.Html.Batch
import Playground.Proofs.Html.RawClose
import Playground.Proofs.Graph.Insertions
import Playground.Proofs.Config.Saved
import Playground.Proofs.Worker.Lines
import Playground.Proofs.Html.OnePass
import Playground.Proofs.Html.QuotedValue
import Playground.Proofs.Worker.Key
